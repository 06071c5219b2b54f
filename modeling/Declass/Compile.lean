import Declass.Config
import Declass.Passes
import Declass.Code.Text
import Declass.Scope.Check

/-!
# Compiling programs

A program is compiled in three steps: its classes are lowered, further passes run in their order,
and what comes out is checked for undefined names. A fault in any step ends the compilation;
problems of the program itself are reported and do not.

One compiler compiles any number of programs in the same store, each with diagnostics of its own,
and with one log for all.

## Main definitions

* `Compiler`, `Compiler.ambientNames`
* `Compiler.compile` — compile one program
-/

namespace Declass

/-- A configuration, and the passes that run after the lowering of classes. -/
structure Compiler where
  config : Config := {}
  passes : List Pass := []

/-- A compiled program. -/
structure Compiled where
  program : NodeId
  text : String
  diagnostics : Bag
  deriving DecidableEq, Repr

/-- Which step of a compilation failed, and how. -/
inductive CompileError where
  | pass (name : String) (fault : Fault)
  | check (fault : Fault)
  deriving DecidableEq, Repr

namespace CompileError

/-- The fault behind an error. -/
def fault : CompileError → Fault
  | .pass _ fault | .check fault => fault

/-- The text of an error. -/
def message : CompileError → String
  | .pass name fault => name ++ " pass failed: " ++ fault.message
  | .check fault => "free-variable check failed: " ++ fault.message

end CompileError

namespace Compiler

/-- A computation in the course of a compilation. -/
abbrev Step : Type → Type :=
  ExceptT CompileError (StateM (Session Journal))

/-- Note an event. -/
def record (event : Log.Event) : Step Unit :=
  modify fun session => { session with state := session.state.record event }

/-- The names that programs may use without declaring them. -/
def ambientNames (compiler : Compiler) : List String :=
  defaultGlobals ++ compiler.config.options.runtimeName :: compiler.config.globals

/-- Run a pass. -/
def runPass (compiler : Compiler) (pass : Pass) (id : NodeId) : Step NodeId :=
  ExceptT.adapt (CompileError.pass pass.name) (pass.run compiler.config.options id)

/-- Run one of the further passes. -/
def runFurtherPass (compiler : Compiler) (id : NodeId) (pass : Pass) : Step NodeId := do
  record {
    level := .debug
    target := "lowerjs::pipeline"
    message := "running pass"
    fields := [("pass", .text pass.name)] }
  compiler.runPass pass id

/-- Check a program for undefined names. -/
def check (compiler : Compiler) (id : NodeId) : Step Unit :=
  ExceptT.mk fun session =>
    match Check.program compiler.ambientNames session.store id session.state with
    | (.ok (), journal) => (.ok (), { session with state := journal })
    | (.error fault, journal) => (.error (.check fault), { session with state := journal })

/-- The steps of a compilation. -/
def steps (compiler : Compiler) (id : NodeId) : Step Compiled := do
  let lowered ← compiler.runPass .classLowering id
  let program ← compiler.passes.foldlM compiler.runFurtherPass lowered
  compiler.check program
  let bag := (← get).state.bag
  record {
    level := .info
    target := "lowerjs::pipeline"
    message := "compile finished"
    fields := [("diagnostics", .number bag.size), ("errors", .number bag.errorCount)] }
  return { program, text := (← get).store.text program, diagnostics := bag }

/-- The stretch of a run that compiles one program. -/
def span (compiler : Compiler) : Log.Span where
  level := .info
  target := "lowerjs::pipeline"
  name := "run_passes"
  fields := [("file", .text compiler.config.fileName)]

/-- Compile the program at `id`. -/
def compile (compiler : Compiler) (id : NodeId) (store : Store) (log : Log) :
    Except CompileError Compiled × Store × Log :=
  let journal : Journal := { bag := { file := compiler.config.fileName }, log }
  let (outcome, session) := (compiler.steps id).run.run ⟨store, journal.enter compiler.span⟩
  (outcome, session.store, session.state.leave.log)

end Compiler

end Declass
