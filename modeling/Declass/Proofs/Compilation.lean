import Declass.Compile
import Declass.Proofs.Checkable
import Declass.Proofs.Checking
import Declass.Proofs.Resolving

/-!
# Compiling well formed programs

A program whose classes have the members that classes may have, and which is well formed otherwise,
is compiled without fault. The code that the lowering generates is code that the check accepts: it
has no classes, and every name used in it is bound or ambient. So what the check reports is what it
would report of the source, if it could read classes.

## Main definitions

* `Store.Source` — the programs that are compiled without fault
* `Store.PlainSource` — those whose names the lowering does not interfere with

## Main results

* `Tree.Renders.mem_undefined_iff` — names that are undefined before and after the lowering
* `Compiler.exists_compiled` — what compiling a program amounts to
* `Compiler.exists_compile_eq_ok` — compiling never fails on source programs
* `Compiler.compile_reports_freeNames` — the names reported are the free names of the source
-/

namespace Declass

/-! ### Undefined names -/

namespace Tree

variable {ambient : List String} {t t' : Tree} {use : Reference}

theorem mem_undefined_iff_effect :
    use ∈ t.undefined ambient ↔ use ∈ t.effect.uses ∧ use.name ∉ ambient ∧
      use.name ∉ t.effect.vars ∧ use.name ∉ t.effect.locals := by
  simp [mem_undefined, effect]

/-- What is undefined in a rendering was so before, if generated names are ambient. -/
theorem Renders.mem_undefined_of_mem (h : Renders (· ∈ ambient) t t')
    (huse : use ∈ t'.undefined ambient) : use ∈ t.undefined ambient := by
  rw [mem_undefined_iff_effect] at huse ⊢
  obtain ⟨huse, hambient, hvars, hlocals⟩ := huse
  rcases h.effect.uses_new use huse with hold | ⟨-, hname | hname⟩
  · exact ⟨hold, hambient, fun hv => hvars (h.effect.vars_subset hv), h.effect.locals_eq ▸ hlocals⟩
  · exact absurd hname hambient
  · exact absurd hname hvars

/-- Undefined names of the text stay undefined, those of temporaries apart. -/
theorem Renders.mem_undefined {names : String → Prop} (h : Renders names t t')
    (huse : use ∈ t.undefined ambient) (htext : use.range.isSome ∧ ¬ IsTemp use.name) :
    use ∈ t'.undefined ambient := by
  rw [mem_undefined_iff_effect] at huse ⊢
  obtain ⟨huse, hambient, hvars, hlocals⟩ := huse
  refine ⟨h.effect.uses_kept use huse htext, hambient, fun hv => ?_, h.effect.locals_eq ▸ hlocals⟩
  exact (h.effect.vars_new _ hv).elim hvars htext.2

end Tree

/-! ### Reports of the lowering -/

/-- A property of bags that is kept by the reports on uses of `super`. -/
def Bag.Stable (P : Bag → Prop) : Prop :=
  ∀ bag range message, P bag →
    message ∈ [Message.superCallOutsideConstructor, .superOutsideMember, .bareSuper] →
    P (bag.report range message [])

/-- The bag of a file says nothing of undefined names. -/
def Bag.Silent (file : String) (bag : Bag) : Prop :=
  bag.file = file ∧ ∀ d ∈ bag.diagnostics, d.code ≠ Message.nameNotDefined.code

theorem Bag.stable_silent (file : String) : Bag.Stable (Bag.Silent file) := by
  rintro bag range message ⟨hfile, hcodes⟩ hmessage
  refine ⟨hfile, fun d hd => ?_⟩
  rcases Array.mem_push.mp hd with hd | rfl
  · exact hcodes d hd
  · have hcode : ∀ m ∈ [Message.superCallOutsideConstructor, .superOutsideMember, .bareSuper],
        m.code ≠ Message.nameNotDefined.code := by decide
    exact hcode message hmessage

theorem Expands.bag {P : Bag → Prop} (stable : Bag.Stable P) {site : Site} {nested : Bool}
    {a a' : Account} {ts ts' : List Tree} (h : Expands site nested a ts ts' a') (ha : P a.bag) :
    P a'.bag := by
  induction h with
  | nil => exact ha
  | cons _ _ ihHead ihTail => exact ihTail (ihHead ha)
  | walk _ _ ih | enter _ _ ih | classDecl _ ih | classExpr _ ih | direct _ _ _ ih => exact ih ha
  | misplaced _ | bare _ => exact stable _ _ _ ha (by simp)
  | stray _ _ _ ih => exact ih (stable _ _ _ ha (by simp))
  | bound _ _ _ _ _ ihKey ihRest => exact ihRest (ihKey ha)

theorem Lowers.bag {P : Bag → Prop} (stable : Bag.Stable P) {options : Options}
    {c : Option String} {a a' : Account} {ts ts' : List Tree} (h : Lowers options c a ts ts' a')
    (ha : P a.bag) : P a'.bag := by
  induction h with
  | nil => exact ha
  | cons _ _ ihHead ihTail => exact ihTail (ihHead ha)
  | walk _ _ _ ih | scope _ _ ih => exact ih ha
  | classDecl _ _ _ ihAbove ihBelow | classExprBound _ _ _ ihAbove ihBelow
  | classExprFree _ _ _ ihAbove ihBelow => exact ihBelow (ihAbove ha)
  | member _ expanded _ ih => exact ih (expanded.bag stable ha)

/-! ### Source programs -/

/-- The programs that are compiled without fault: well formed ones whose classes have methods,
getters and setters as members, and no others. -/
structure Store.Source (s : Store) (root : NodeId) : Prop extends s.WellFormed root where
  isProgram : ∃ statements range, s.get? root = some ⟨.program statements, range⟩
  legal : ∀ id node parts, s.Reaches root id → s.get? id = some node →
    node.shape.classParts? = some parts → ∀ m ∈ parts.members,
      ∃ member, s.get? m = some member ∧ member.shape.IsMember

namespace Tree

/-- What the lowering asks of a class: a name that is one, if it is a declaration, and members of
the kinds that there are. -/
def Lowerable (t : Tree) : Prop :=
  ∀ parts ∈ t.shape.classParts?, (∀ name ∈ parts.name, name.name?.isSome) ∧
    ∀ m ∈ parts.members, (MemberKind.ofShape? m.shape).isSome

/-- What can be lowered has no faults. -/
theorem faults_eq_nil {t : Tree} (h : t.Everywhere Lowerable) : t.faults = [] := by
  induction h with
  | @node o s r root below ih =>
    have hmembers {members : List Tree} (hchildren : ∀ m ∈ members, m ∈ s.children)
        (hlegal : ∀ m ∈ members, (MemberKind.ofShape? m.shape).isSome) :
        members.flatMap (fun m => m.memberFaults ++ m.faults) = [] := by
      refine List.flatMap_eq_nil_iff.mpr fun m hm => ?_
      rw [memberFaults, if_pos (hlegal m hm), ih m (hchildren m hm), List.nil_append]
    have hheritage {heritage : Option Tree} (hchildren : ∀ c ∈ heritage.toList, c ∈ s.children) :
        heritage.toList.flatMap faults = [] :=
      List.flatMap_eq_nil_iff.mpr fun c hc => ih c (hchildren c hc)
    cases s with
    | classDecl name heritage members =>
      obtain ⟨hname, hlegal⟩ := root _ rfl
      rw [faults_classDecl, nameFaults, if_pos (hname name rfl),
        hheritage (by simp +contextual [Shape.children]),
        hmembers (by simp +contextual [Shape.children]) hlegal]
      rfl
    | classExpr name heritage members =>
      rw [faults_classExpr, hheritage (by simp +contextual [Shape.children]),
        hmembers (by simp +contextual [Shape.children]) (root _ rfl).2]
      rfl
    | _ =>
      rw [faults_of_not_isClass rfl]
      exact List.flatMap_eq_nil_iff.mpr ih

end Tree

theorem Shape.mem_binders_of_classParts? {α : Type} {s : Shape α} {parts : ClassParts α}
    (h : s.classParts? = some parts) {name : α} (hname : name ∈ parts.name) :
    name ∈ s.scopeRule.binders := by
  cases s <;> cases h <;> simp_all [Shape.scopeRule, ScopeRule.binders]

namespace Store.Source

variable {s : Store} {root : NodeId} (h : s.Source root) (n : Nat)

include h

theorem everywhere_wellBound : (s.tree n root).Everywhere Tree.WellBound := by
  refine h.grounded.everywhere fun id node hr found => ⟨?_, h.named_tree n hr found⟩
  rw [(h.grounded.reaches hr).tree_eq found, Tree.shape_node, Shape.isBlockScoped_map]
  exact h.notBlockScoped id node hr found

theorem everywhere_lowerable : (s.tree n root).Everywhere Tree.Lowerable := by
  refine h.grounded.everywhere fun id node hr found => ?_
  intro parts hparts
  refine ⟨fun name hname => h.named_tree n hr found name ?_, fun t ht => ?_⟩
  · exact Shape.mem_binders_of_classParts? hparts hname
  · have hg := h.grounded.reaches hr
    rw [hg.tree_eq found, Tree.shape_node, Shape.classParts?_map] at hparts
    obtain ⟨parts₀, hparts₀, rfl⟩ := Option.map_eq_some_iff.mp hparts
    obtain ⟨m, hm, rfl⟩ := List.mem_map.mp ht
    obtain ⟨member, hmember, hlegal⟩ := h.legal id node parts₀ hr found hparts₀ m hm
    have hgm := hg.of_mem_children found (Shape.mem_children_of_mem_members hparts₀ hm)
    rwa [hgm.tree_eq hmember, Tree.shape_node, MemberKind.ofShape?_map,
      MemberKind.isSome_ofShape?_iff]

end Store.Source

/-- The name of a class expression. -/
def Shape.classExprName? {α : Type} : Shape α → Option α
  | .classExpr name _ _ => name
  | _ => none

/-- The source programs whose names the lowering does not interfere with. Class expressions have no
names, for those would be dropped, and no use of a name is spelled like a temporary. -/
structure Store.PlainSource (s : Store) (root : NodeId) : Prop extends s.Source root where
  anonymous : ∀ id node, s.Reaches root id → s.get? id = some node →
    node.shape.classExprName? = none
  notTemp : ∀ id node, s.Reaches root id → s.get? id = some node →
    ∀ name, node.shape = .identifier name → ¬ IsTemp name

theorem Store.PlainSource.notTemp_undefined {s : Store} {root : NodeId} (h : s.PlainSource root)
    (n : Nat) {ambient : List String} {use : Reference}
    (huse : use ∈ (s.tree n root).undefined ambient) : ¬ IsTemp use.name := by
  refine Tree.forall_mem_free (p := fun use => ¬ IsTemp use.name) ?_ use
    (Tree.mem_undefined.mp huse).1
  refine h.grounded.everywhere fun id node hr found => ?_
  rw [(h.grounded.reaches hr).tree_eq found, Tree.shape_node, Tree.range_node, Shape.use?_map]
  intro use huse
  cases hshape : node.shape with
  | identifier name =>
    obtain rfl : ⟨name, node.range⟩ = use := by simpa [hshape, Shape.use?] using huse
    exact h.notTemp id node hr found name hshape
  | _ => simp [hshape, Shape.use?] at huse

/-- A store all of whose classes have legal members. -/
theorem Store.source_of_all {s : Store} {root : NodeId} {statements : List NodeId}
    {range : Option Range} (wellFormed : s.WellFormed root)
    (hroot : s.get? root = some ⟨.program statements, range⟩)
    (hlegal : ∀ node ∈ s.nodes.toList, ∀ parts ∈ node.shape.classParts?, ∀ m ∈ parts.members,
      ((s.get? m).bind fun member => MemberKind.ofShape? member.shape).isSome) : s.Source root where
  toWellFormed := wellFormed
  isProgram := ⟨statements, range, hroot⟩
  legal id node parts _ found hparts m hm := by
    have hsome := hlegal node (mem_nodes_of_get? found) parts hparts m hm
    obtain ⟨kind, hkind⟩ := Option.isSome_iff_exists.mp hsome
    obtain ⟨member, hmember, hkind⟩ := Option.bind_eq_some_iff.mp hkind
    exact ⟨member, hmember, MemberKind.isSome_ofShape?_iff.mp (Option.isSome_of_eq_some hkind)⟩

/-- A store all of whose nodes are as they should be. -/
theorem Store.plainSource_of_all {s : Store} {root : NodeId} {statements : List NodeId}
    {range : Option Range} (wellFormed : s.WellFormed root)
    (hroot : s.get? root = some ⟨.program statements, range⟩)
    (hlegal : ∀ node ∈ s.nodes.toList, ∀ parts ∈ node.shape.classParts?, ∀ m ∈ parts.members,
      ((s.get? m).bind fun member => MemberKind.ofShape? member.shape).isSome)
    (hanonymous : ∀ node ∈ s.nodes.toList, node.shape.classExprName? = none)
    (hnotTemp : ∀ node ∈ s.nodes.toList, ∀ use ∈ node.shape.use? node.range,
      use.name.toList.take 3 ≠ ['$', '_', '_']) : s.PlainSource root where
  toSource := source_of_all wellFormed hroot hlegal
  anonymous id node _ found := hanonymous node (mem_nodes_of_get? found)
  notTemp id node _ found name hshape htemp := by
    refine hnotTemp node (mem_nodes_of_get? found) ⟨name, node.range⟩ ?_ htemp.take_toList
    rw [hshape]
    rfl

/-- `var f = class extends C` with a getter that returns `super.p`, then `class C extends B` with a
method that adds `v` to `super[k]`. -/
def heirStore : Store where
  nodes := #[⟨.binding "f", none⟩, ⟨.identifier "C", some (.onLine 0 0 1)⟩, ⟨.superExpr, none⟩,
    ⟨.member ⟨2⟩ "p", none⟩, ⟨.returnStatement (some ⟨3⟩), none⟩, ⟨.block [⟨4⟩], none⟩,
    ⟨.getter (.identifier "p") ⟨5⟩, none⟩, ⟨.classExpr none (some ⟨1⟩) [⟨6⟩], none⟩,
    ⟨.declarator ⟨0⟩ (some ⟨7⟩), none⟩, ⟨.varStatement .varWord [⟨8⟩], none⟩,
    ⟨.binding "C", none⟩, ⟨.identifier "B", some (.onLine 1 0 1)⟩, ⟨.superExpr, none⟩,
    ⟨.identifier "k", some (.onLine 2 0 1)⟩, ⟨.lookup ⟨12⟩ ⟨13⟩, none⟩,
    ⟨.identifier "v", some (.onLine 2 2 3)⟩, ⟨.binary ⟨14⟩ "+=" ⟨15⟩, none⟩,
    ⟨.exprStatement ⟨16⟩, none⟩, ⟨.block [⟨17⟩], none⟩, ⟨.method (.identifier "m") [] ⟨18⟩, none⟩,
    ⟨.classDecl ⟨10⟩ (some ⟨11⟩) [⟨19⟩], none⟩, ⟨.program [⟨9⟩, ⟨20⟩], none⟩]

theorem plainSource_heirStore : heirStore.PlainSource ⟨21⟩ := by
  have fits : heirStore.Fits 22 ⟨21⟩ := by decide +kernel
  exact Store.plainSource_of_all (Store.wellFormed_of_all fits (by decide +kernel)) rfl
    (by decide +kernel) (by decide +kernel) (by decide +kernel)

/-- The free names of a program. -/
def Tree.freeNames (t : Tree) : List String :=
  (t.undefined []).map Reference.name

theorem Tree.mem_freeNames {t : Tree} {name : String} {ambient : List String} :
    name ∈ t.freeNames ∧ name ∉ ambient ↔ ∃ use ∈ t.undefined ambient, use.name = name := by
  rw [freeNames, List.mem_map]
  constructor
  · rintro ⟨⟨use, huse, rfl⟩, hambient⟩
    obtain ⟨hfree, -, hvars, hlocals⟩ := mem_undefined.mp huse
    exact ⟨use, mem_undefined.mpr ⟨hfree, hambient, hvars, hlocals⟩, rfl⟩
  · rintro ⟨use, huse, rfl⟩
    obtain ⟨hfree, hambient, hvars, hlocals⟩ := mem_undefined.mp huse
    exact ⟨⟨use, mem_undefined.mpr ⟨hfree, List.not_mem_nil, hvars, hlocals⟩, rfl⟩, hambient⟩

/-! ### Compiling -/

namespace Compiler

open Edit Lowering

variable {compiler : Compiler} {s : Store} {root : NodeId}

/-- The name of the runtime is always defined. -/
theorem runtimeName_mem_ambientNames (compiler : Compiler) :
    compiler.config.options.runtimeName ∈ compiler.ambientNames := by
  simp [ambientNames]

/-- The lowering of classes as a step of a compilation. -/
theorem exec_runPass_classLowering_eq (compiler : Compiler) (s : Store) (root : NodeId)
    (journal : Journal) :
    exec (compiler.runPass .classLowering root) ⟨s, journal⟩ =
      let out := exec (lowerProgram compiler.config.options root) ⟨s, { journal }⟩
      (out.1.mapError (.pass "class-lowering"), ⟨out.2.store, out.2.state.journal⟩) :=
  rfl

/-- The classes of a source are lowered without a fault, and a silent bag stays silent. -/
theorem exec_runPass_classLowering (source : s.Source root)
    (varBinding : compiler.config.options.blockBinding = false) (journal : Journal)
    {file : String} (hbag : journal.bag.Silent file) :
    ∃ lowered store' journal' t', exec (compiler.runPass .classLowering root) ⟨s, journal⟩ =
        (.ok lowered, ⟨store', journal'⟩) ∧
      s ≤ store' ∧ store'.Denotes s.size lowered t' ∧ t'.Everywhere Tree.Checkable ∧
      Tree.Renders (· = compiler.config.options.runtimeName) (s.tree s.size root) t' ∧
      journal'.bag.Silent file := by
  have hspec := lowerProgram_spec source.grounded compiler.config.options s.size le_rfl { journal }
  have hfaults := Tree.faults_eq_nil (source.everywhere_lowerable s.size)
  rw [exec_runPass_classLowering_eq]
  generalize exec (lowerProgram compiler.config.options root) ⟨s, { journal }⟩ = out at hspec ⊢
  obtain ⟨fault | lowered, final⟩ := out
  · rw [hfaults] at hspec
    cases hspec.2
  · obtain ⟨hle, t', hdenotes, hlowers⟩ := hspec
    have hkeeps := (List.forall₂_cons.mp (hlowers.keeps varBinding)).1
    have howner := source.grounded.ownsTemps_tree source.isProgram s.size
    exact ⟨lowered, final.store, final.state.journal, t', rfl, hle, hdenotes,
      hkeeps.everywhere (source.everywhere_wellBound s.size), hlowers.renders_program howner,
      hlowers.bag (Bag.stable_silent _) hbag⟩

theorem exec_check {store : Store} {id : NodeId} {journal : Journal}
    (hok : (Check.program compiler.ambientNames store id journal).1 = .ok ()) :
    exec (compiler.check id) ⟨store, journal⟩ =
      (.ok (), ⟨store, (Check.program compiler.ambientNames store id journal).2⟩) := by
  rw [check, exec_mk]
  dsimp only
  generalize Check.program compiler.ambientNames store id journal = out at hok ⊢
  obtain ⟨_, journal'⟩ := out
  obtain rfl : _ = Except.ok () := hok
  rfl

/-- The journal with which compiling a program starts. -/
def startJournal (compiler : Compiler) (log : Log) : Journal :=
  ({ bag := { file := compiler.config.fileName }, log } : Journal).enter compiler.span

/-- Without further passes, a compilation is a lowering and a check. -/
theorem exists_compile_eq {log : Log} {lowered : NodeId} {store' : Store} {journal' : Journal}
    (noPasses : compiler.passes = [])
    (hlowered : exec (compiler.runPass .classLowering root) ⟨s, compiler.startJournal log⟩ =
      (.ok lowered, ⟨store', journal'⟩))
    (hok : (Check.program compiler.ambientNames store' lowered journal').1 = .ok ()) :
    ∃ text log', compiler.compile root s log =
      (.ok ⟨lowered, text, (Check.program compiler.ambientNames store' lowered journal').2.bag⟩,
        store', log') := by
  have hsteps : ∃ text journal'', exec (compiler.steps root) ⟨s, compiler.startJournal log⟩ =
      (.ok ⟨lowered, text, (Check.program compiler.ambientNames store' lowered journal').2.bag⟩,
        ⟨store', journal''⟩) := by
    rw [steps, exec_bind_of_ok hlowered, noPasses, List.foldlM_nil, pure_bind,
      exec_bind_of_ok (exec_check hok)]
    generalize Check.program compiler.ambientNames store' lowered journal' = out
    exact ⟨_, _, rfl⟩
  obtain ⟨text, journal'', hsteps⟩ := hsteps
  refine ⟨text, journal''.leave.log, ?_⟩
  rw [exec, startJournal] at hsteps
  simp only [compile, hsteps]

/-- What compiling a source program amounts to: the lowering makes a program that can be checked,
and the check reports what is undefined in it. -/
theorem exists_compiled (source : s.Source root) (noPasses : compiler.passes = [])
    (varBinding : compiler.config.options.blockBinding = false) (log : Log) :
    ∃ compiled store' log' t' found, compiler.compile root s log = (.ok compiled, store', log') ∧
      store'.Denotes s.size compiled.program t' ∧ t'.Everywhere Tree.Checkable ∧
      Tree.Renders (· ∈ compiler.ambientNames) (s.tree s.size root) t' ∧
      Firsts found (t'.undefined compiler.ambientNames) ∧
      compiled.diagnostics.diagnostics.toList.filter (·.code == Message.nameNotDefined.code) =
        found.map fun use =>
          compiled.diagnostics.diagnostic use.range .nameNotDefined [use.name] := by
  have hsilent : (compiler.startJournal log).bag.Silent compiler.config.fileName :=
    ⟨rfl, by simp [startJournal, Journal.enter]⟩
  obtain ⟨lowered, store', journal', t', hlowered, -, hdenotes, hcheck, hrenders, -, hcodes⟩ :=
    exec_runPass_classLowering source varBinding _ hsilent
  replace hrenders := hrenders.mono fun name hname =>
    hname ▸ compiler.runtimeName_mem_ambientNames
  have hlocated : ∀ use ∈ t'.undefined compiler.ambientNames, use.range.isSome :=
    fun use huse => source.located_undefined s.size (hrenders.mem_undefined_of_mem huse)
  rw [← hdenotes.tree_eq] at hcheck hlocated
  obtain ⟨found, hok, hbag, hfirsts, -⟩ :=
    Check.program_spec hdenotes.grounded hcheck hlocated journal'
  rw [hdenotes.tree_eq] at hcheck hfirsts
  obtain ⟨text, log', hcompile⟩ := exists_compile_eq noPasses hlowered hok
  refine ⟨_, store', log', t', found, hcompile, hdenotes, hcheck, hrenders, hfirsts, ?_⟩
  have hold : journal'.bag.diagnostics.toList.filter (·.code == Message.nameNotDefined.code) = [] :=
    List.filter_eq_nil_iff.mpr fun d hd => by simpa using hcodes d (Array.mem_toList_iff.mp hd)
  have hnew (uses : List Reference) : (uses.map fun use => journal'.bag.diagnostic use.range
      .nameNotDefined [use.name]).filter (·.code == Message.nameNotDefined.code) =
      uses.map fun use => journal'.bag.diagnostic use.range .nameNotDefined [use.name] :=
    List.filter_eq_self.mpr (by simp [Bag.diagnostic])
  rw [hbag, Array.toList_append, List.filter_append, hold, hnew]
  rfl

/-- **Source programs are compiled.** The compiled program is a tree without classes and without
`let` and `const` statements; and whatever is used in it without being bound has a range, so each
use of a name that the lowering made is bound. -/
theorem exists_compile_eq_ok (compiler : Compiler) (source : s.Source root)
    (noPasses : compiler.passes = [])
    (varBinding : compiler.config.options.blockBinding = false) (log : Log) :
    ∃ compiled store' log', compiler.compile root s log = (.ok compiled, store', log') ∧
      store'.Closed compiled.program ∧ store'.Acyclic compiled.program ∧
      (∀ id node, store'.Reaches compiled.program id → store'.get? id = some node →
        node.shape.isClass = false ∧ node.shape.isBlockScoped = false) ∧
      ∀ use ∈ (store'.tree s.size compiled.program).undefined compiler.ambientNames,
        use.range.isSome := by
  obtain ⟨compiled, store', log', t', _, hcompile, hdenotes, hcheck, hrenders, -, -⟩ :=
    exists_compiled source noPasses varBinding log
  obtain ⟨closed, acyclic⟩ := Store.grounded_iff.mp hdenotes.grounded
  refine ⟨compiled, store', log', hcompile, closed, acyclic, fun id node hr found => ?_, ?_⟩
  · rw [← hdenotes.tree_eq] at hcheck
    have hnode := (hdenotes.grounded.everywhere_of_reaches hcheck hr).root
    rw [(hdenotes.grounded.reaches hr).tree_eq found] at hnode
    exact ⟨Shape.isClass_map _ _ ▸ hnode.notClass,
      Shape.isBlockScoped_map _ _ ▸ hnode.notBlockScoped⟩
  · rw [hdenotes.tree_eq]
    exact fun use huse => source.located_undefined s.size (hrenders.mem_undefined_of_mem huse)

/-- Both classes use `super`; the class expression is kept in a temporary, and so is the key `k`. -/
theorem exists_compile_eq_ok_heirStore :
    ∃ compiled store' log', ({} : Compiler).compile ⟨21⟩ heirStore {} =
      (.ok compiled, store', log') ∧
      (∀ id node, store'.Reaches compiled.program id → store'.get? id = some node →
        node.shape.isClass = false ∧ node.shape.isBlockScoped = false) ∧
      ∀ use ∈ (store'.tree 22 compiled.program).undefined ({} : Compiler).ambientNames,
        use.range.isSome := by
  obtain ⟨compiled, store', log', hcompile, -, -, hshapes, hlocated⟩ :=
    exists_compile_eq_ok {} plainSource_heirStore.toSource rfl rfl {}
  exact ⟨compiled, store', log', hcompile, hshapes, hlocated⟩

/-- **Lowering preserves free names.** The diagnostics on undefined names are one for each free name
of the source that is not ambient. -/
theorem compile_reports_freeNames (compiler : Compiler) (source : s.PlainSource root)
    (noPasses : compiler.passes = [])
    (varBinding : compiler.config.options.blockBinding = false) (log : Log) :
    ∃ compiled store' log', compiler.compile root s log = (.ok compiled, store', log') ∧
      ∃ found : List Reference,
        compiled.diagnostics.diagnostics.toList.filter (·.code == Message.nameNotDefined.code) =
          found.map (fun use =>
            compiled.diagnostics.diagnostic use.range .nameNotDefined [use.name]) ∧
        (found.map Reference.name).Nodup ∧
        ∀ name, name ∈ found.map Reference.name ↔
          name ∈ (s.tree s.size root).freeNames ∧ name ∉ compiler.ambientNames := by
  obtain ⟨compiled, store', log', t', found, hcompile, -, -, hrenders, hfirsts, hdiagnostics⟩ :=
    exists_compiled source.toSource noPasses varBinding log
  refine ⟨compiled, store', log', hcompile, found, hdiagnostics, hfirsts.nodup, fun name => ?_⟩
  rw [Tree.mem_freeNames, hfirsts.mem_names_iff]
  constructor
  · rintro ⟨use, huse, rfl⟩
    exact ⟨use, hrenders.mem_undefined_of_mem huse, rfl⟩
  · rintro ⟨use, huse, rfl⟩
    exact ⟨use, hrenders.mem_undefined huse
      ⟨source.located_undefined s.size huse, source.notTemp_undefined s.size huse⟩, rfl⟩

/-- `C` is bound by the declaration below its use, and nothing that the lowering makes is
reported. -/
theorem compile_reports_freeNames_heirStore :
    ∃ compiled store' log', ({} : Compiler).compile ⟨21⟩ heirStore {} =
      (.ok compiled, store', log') ∧
      ∃ found : List Reference,
        compiled.diagnostics.diagnostics.toList.filter (·.code == Message.nameNotDefined.code) =
          found.map (fun use =>
            compiled.diagnostics.diagnostic use.range .nameNotDefined [use.name]) ∧
        ∀ name, name ∈ found.map Reference.name ↔ name ∈ ["B", "k", "v"] := by
  obtain ⟨compiled, store', log', hcompile, found, hdiagnostics, -, hnames⟩ :=
    compile_reports_freeNames {} plainSource_heirStore rfl rfl {}
  refine ⟨compiled, store', log', hcompile, found, hdiagnostics, fun name => ?_⟩
  have hfree : (heirStore.tree heirStore.size ⟨21⟩).freeNames = ["B", "k", "v"] := by decide +kernel
  have hambient : ∀ name ∈ ["B", "k", "v"], name ∉ ({} : Compiler).ambientNames := by decide +kernel
  rw [hnames, hfree]
  exact and_iff_left_of_imp (hambient name)

end Compiler

end Declass
