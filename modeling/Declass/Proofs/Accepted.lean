import Declass.Proofs.Compilation

/-!
# What is compiled

The check for undefined names refuses what it cannot check. So whatever it accepts can be checked,
and a compilation that succeeds is what it looks like: the lowering has made a program, and the
diagnostics on undefined names are the first uses of the names that are undefined in that program.
Nothing has to be known of the source for this, but that it is a tree.

## Main definitions

* `Check.Succeeds` — a visit that succeeds from some state

## Main results

* `Check.everywhere_checkable` — a visit that succeeds has met nothing that the check refuses
* `Check.exists_found` — the reports of a check that succeeds
* `Compiler.exists_of_compile_eq` — what a compilation that succeeds amounts to
-/

namespace Declass

namespace Check

variable {α β : Type}

/-! ### Visits that succeed -/

/-- The computation succeeds, from some state at least. -/
def Succeeds (c : Check α) : Prop :=
  ∃ st a st', exec c st = (.ok a, st')

namespace Succeeds

variable {s : Store} {n : Nat} {id : NodeId} {visit : NodeId → Check Unit}

theorem of_bind {x : Check α} {f : α → Check β} (h : Succeeds (x >>= f)) :
    Succeeds x ∧ ∃ a, Succeeds (f a) := by
  obtain ⟨st, b, st', hrun⟩ := h
  obtain ⟨a, st₁, hx, hf⟩ := exec_bind_eq_ok_iff.mp hrun
  exact ⟨⟨st, a, st₁, hx⟩, a, st₁, b, st', hf⟩

theorem of_andThen {x : Check α} {y : Check β} (h : Succeeds (do let _ ← x; y)) :
    Succeeds x ∧ Succeeds y := by
  obtain ⟨hx, -, hy⟩ := h.of_bind
  exact ⟨hx, hy⟩

theorem not_throw {fault : Fault} (h : Succeeds (throw fault : Check α)) : False := by
  obtain ⟨st, a, st', hrun⟩ := h
  simp at hrun

theorem forM {ids : List NodeId} (h : Succeeds (ids.forM visit)) :
    ∀ c ∈ ids, Succeeds (visit c) := by
  induction ids with
  | nil => exact List.forall_mem_nil _
  | cons c ids ih =>
    obtain ⟨hhead, htail⟩ := of_andThen h
    exact List.forall_mem_cons.mpr ⟨hhead, ih htail⟩

theorem optionForM {value : Option NodeId} (h : Succeeds (value.forM visit)) :
    ∀ c ∈ value.toList, Succeeds (visit c) := by
  cases value with
  | none => exact List.forall_mem_nil _
  | some c => exact List.forall_mem_singleton.mpr h

theorem inScope {kind : ScopeKind} {act : Check Unit} (h : Succeeds (inScope kind act)) :
    Succeeds act := by
  obtain ⟨-, _, hrest⟩ := h.of_bind
  exact hrest.of_andThen.1

/-- A binding that is declared is a name. -/
theorem declareBinding (h : Succeeds (declareBinding s id)) :
    ∃ name, s.identifierText id = .ok name := by
  rw [Check.declareBinding] at h
  split at h
  case h_1 name hname => exact ⟨name, hname⟩
  case h_2 => exact h.not_throw.elim

theorem declareVarBinding (h : Succeeds (declareVarBinding s id)) :
    ∃ name, s.identifierText id = .ok name := by
  rw [Check.declareVarBinding] at h
  split at h
  case h_1 name hname => exact ⟨name, hname⟩
  case h_2 => exact h.not_throw.elim

theorem function {name : Option NodeId} {parameters : List NodeId} {body : NodeId}
    (h : Succeeds (function s visit name parameters body)) :
    (∀ c ∈ name.toList, ∃ text, s.identifierText c = .ok text) ∧
      ∀ c ∈ parameters ++ [body], Succeeds (visit c) := by
  obtain ⟨hname, hrest⟩ := of_andThen h.inScope
  obtain ⟨-, hrest⟩ := of_andThen hrest
  obtain ⟨hparameters, hbody⟩ := of_andThen hrest
  refine ⟨fun c hc => (hname.optionForM c hc).declareBinding, ?_⟩
  exact List.forall_mem_append.mpr ⟨hparameters.forM, List.forall_mem_singleton.mpr hbody⟩

/-- **The visit of a construct succeeds only if the construct can be checked.** Its children are
visited, save those that are names. -/
theorem construct {shape : Shape NodeId} {range : Option Range}
    (h : Succeeds (construct s visit ⟨shape, range⟩)) :
    shape.isClass = false ∧ shape.isBlockScoped = false ∧
      (∀ c ∈ shape.scopeRule.binders, ∃ name, s.identifierText c = .ok name) ∧
      ∀ c ∈ shape.children, (∃ name, s.identifierText c = .ok name) ∨ Succeeds (visit c) := by
  cases shape with
  | program | block =>
    obtain ⟨-, hvisit⟩ := of_andThen h
    exact ⟨rfl, rfl, List.forall_mem_nil _, fun c hc => .inr (hvisit.forM c hc)⟩
  | varStatement keyword declarators =>
    change Succeeds (if keyword.isBlockScoped then throw _ else declarators.forM visit) at h
    split at h
    case isTrue => exact h.not_throw.elim
    case isFalse hkeyword =>
      exact ⟨rfl, by simpa [Shape.isBlockScoped] using hkeyword, List.forall_mem_nil _,
        fun c hc => .inr (h.forM c hc)⟩
  | declarator name value =>
    obtain ⟨hname, hvalue⟩ := of_andThen h
    refine ⟨rfl, rfl, List.forall_mem_singleton.mpr hname.declareVarBinding, ?_⟩
    exact List.forall_mem_cons.mpr
      ⟨.inl hname.declareVarBinding, fun c hc => .inr (hvalue.optionForM c hc)⟩
  | parameter name value rest =>
    obtain ⟨hname, hvalue⟩ := of_andThen h
    refine ⟨rfl, rfl, List.forall_mem_singleton.mpr hname.declareBinding, ?_⟩
    exact List.forall_mem_cons.mpr
      ⟨.inl hname.declareBinding, fun c hc => .inr (hvalue.optionForM c hc)⟩
  | functionDecl name parameters body =>
    obtain ⟨hname, hfunction⟩ := of_andThen h
    obtain ⟨-, hparts⟩ := hfunction.function
    refine ⟨rfl, rfl, by simpa [Shape.scopeRule, ScopeRule.binders]
      using hname.declareVarBinding, ?_⟩
    exact List.forall_mem_cons.mpr
      ⟨.inl hname.declareVarBinding, fun c hc => .inr (hparts c hc)⟩
  | functionExpr name parameters body =>
    obtain ⟨hname, hparts⟩ := function h
    refine ⟨rfl, rfl, by simpa [Shape.scopeRule, ScopeRule.binders] using hname, fun c hc => ?_⟩
    replace hc : c ∈ name.toList ++ (parameters ++ [body]) := by simpa [Shape.children] using hc
    rcases List.mem_append.mp hc with hc | hc
    · exact .inl (hname c hc)
    · exact .inr (hparts c hc)
  | arrow | method =>
    exact ⟨rfl, rfl, List.forall_mem_nil _, fun c hc => .inr ((function h).2 c hc)⟩
  | getter name body =>
    exact ⟨rfl, rfl, List.forall_mem_nil _, List.forall_mem_singleton.mpr (.inr h.inScope)⟩
  | setter name incoming body =>
    obtain ⟨hincoming, hbody⟩ := of_andThen h.inScope
    exact ⟨rfl, rfl, List.forall_mem_nil _,
      List.forall_mem_cons.mpr ⟨.inr hincoming, List.forall_mem_singleton.mpr (.inr hbody)⟩⟩
  | catchClause caught body =>
    obtain ⟨hcaught, hbody⟩ := of_andThen h.inScope
    refine ⟨rfl, rfl, List.forall_mem_singleton.mpr hcaught.declareBinding, ?_⟩
    exact List.forall_mem_cons.mpr
      ⟨.inl hcaught.declareBinding, List.forall_mem_singleton.mpr (.inr hbody)⟩
  | classDecl | classExpr => exact h.not_throw.elim
  | identifier | binding => exact ⟨rfl, rfl, List.forall_mem_nil _, List.forall_mem_nil _⟩
  | _ => exact ⟨rfl, rfl, List.forall_mem_nil _, fun c hc => .inr (h.forM c hc)⟩

end Succeeds

variable {s : Store} {n : Nat}

/-- **A visit that succeeds has met nothing that the check refuses.** -/
theorem everywhere_checkable {height : Nat} {id : NodeId} (hg : s.Grounded id)
    (h : Succeeds (visit s height id)) : (s.tree n id).Everywhere Tree.Checkable := by
  induction height generalizing id with
  | zero => exact h.not_throw.elim
  | succ height ih =>
    obtain ⟨⟨shape, range⟩, found, below⟩ := hg.exists_node
    simp only [visit, node_eq found, pure_bind] at h
    obtain ⟨hclass, hvar, hnamed, hchildren⟩ := h.construct
    rw [hg.tree_eq found]
    refine .node ⟨?_, ?_, ?_⟩ ?_
    · rwa [Tree.shape_node, Shape.isClass_map]
    · rwa [Tree.shape_node, Shape.isBlockScoped_map]
    · rw [Tree.shape_node, Shape.scopeRule_map, ScopeRule.binders_map, List.forall_mem_map]
      intro c hc
      obtain ⟨name, hname⟩ := hnamed c hc
      exact (below c (Shape.mem_children_of_mem_binders hc)).isSome_name? hname
    · rw [Shape.children_map, List.forall_mem_map]
      intro c hc
      rcases hchildren c hc with ⟨name, hname⟩ | hvisit
      · have hsome := (below c hc).isSome_name? (n := n) hname
        exact Tree.lenient_checkable.of_name? (Option.some_get hsome).symm
      · exact ih (below c hc) hvisit

/-! ### Programs -/

/-- **The reports of a check that succeeds** are on the first use of each undefined name. -/
theorem exists_found {root : NodeId} {ambient : List String} {journal : Journal}
    (hg : s.Grounded root) (hok : (program ambient s root journal).1 = .ok ()) :
    (s.tree n root).Everywhere Tree.Checkable ∧ ∃ found : List Reference,
      (program ambient s root journal).2.bag = { journal.bag with
        diagnostics := journal.bag.diagnostics ++
          (found.map fun use =>
            journal.bag.diagnostic use.range .nameNotDefined [use.name]).toArray } ∧
      Firsts found ((s.tree n root).undefined ambient) ∧ ∀ use ∈ found, use.range.isSome := by
  let start : CheckState := { journal := journal.enter (programSpan root) }
  obtain ⟨st, hreport⟩ : ∃ st, exec (report ambient s root) start = (.ok (), st) :=
    ⟨_, Prod.ext hok rfl⟩
  have hprogram := program_eq hreport
  obtain ⟨found, st₁, hrun, -⟩ := exec_bind_eq_ok_iff.mp hreport
  have hcheck : (s.tree n root).Everywhere Tree.Checkable := by
    have hsucceeds : Succeeds (unresolved ambient s root) := ⟨_, _, _, hrun⟩
    obtain ⟨-, _, hpush⟩ := hsucceeds.of_bind
    obtain ⟨-, _, hdeclare⟩ := hpush.of_bind
    obtain ⟨-, hvisit⟩ := hdeclare.of_andThen
    exact everywhere_checkable hg hvisit.of_andThen.1
  obtain ⟨found', st₁', hrun', hfirsts, hbag⟩ := exists_unresolved hg hcheck ambient start
  obtain ⟨rfl, rfl⟩ : found = found' ∧ st₁ = st₁' := by simpa using hrun.symm.trans hrun'
  have hnone : found.filter (·.range.isNone) = [] := by
    cases hsynthetic : (found.filter (·.range.isNone)).map Reference.name with
    | nil => exact List.map_eq_nil_iff.mp hsynthetic
    | cons name names =>
      cases hreport.symm.trans (exec_report_of_some hrun (by rw [hsynthetic]; rfl))
  obtain ⟨st₂, hreports, hbag₂⟩ := exec_report_of_none hrun hnone
  obtain rfl : st = st₂ := congrArg Prod.snd (hreport.symm.trans hreports)
  refine ⟨hcheck, found.mergeSort Reference.ble, ?_, hfirsts.perm (List.mergeSort_perm _ _),
    fun use huse => ?_⟩
  · rw [hprogram, ← foldl_report]
    exact hbag ▸ hbag₂
  · have hrange := List.filter_eq_nil_iff.mp hnone use (List.mem_mergeSort.mp huse)
    simpa [Option.isSome_iff_ne_none] using hrange

end Check

/-- Of the diagnostics of a bag that said nothing of undefined names, those that do are new. -/
theorem Bag.Silent.filter_append {file : String} {bag : Bag} (h : bag.Silent file)
    (uses : List Reference) :
    (bag.diagnostics ++ (uses.map fun use => bag.diagnostic use.range .nameNotDefined
      [use.name]).toArray).toList.filter (·.code == Message.nameNotDefined.code) =
        uses.map fun use => bag.diagnostic use.range .nameNotDefined [use.name] := by
  have hold : bag.diagnostics.toList.filter (·.code == Message.nameNotDefined.code) = [] :=
    List.filter_eq_nil_iff.mpr fun d hd => by simpa using h.2 d (Array.mem_toList_iff.mp hd)
  rw [Array.toList_append, List.filter_append, hold, List.nil_append, List.filter_eq_self]
  simp [Bag.diagnostic]

/-! ### Compiling -/

namespace Compiler

open Edit Lowering

variable {compiler : Compiler} {s store' : Store} {root : NodeId} {log log' : Log}
  {compiled : Compiled}

theorem program_of_exec_check {store : Store} {id : NodeId} {journal : Journal}
    {session : Session Journal}
    (h : exec (compiler.check id) ⟨store, journal⟩ = (.ok (), session)) :
    (Check.program compiler.ambientNames store id journal).1 = .ok () ∧
      session = ⟨store, (Check.program compiler.ambientNames store id journal).2⟩ := by
  rw [check, exec_mk] at h
  dsimp only at h
  generalize Check.program compiler.ambientNames store id journal = out at h
  obtain ⟨_ | _, journal'⟩ := out
  · cases h
  · cases h
    exact ⟨rfl, rfl⟩

/-- The lowering of classes as a step of a compilation. -/
theorem exists_lowers {journal journal₁ : Journal} {lowered : NodeId} {store₁ : Store}
    (hg : s.Grounded root) (h : exec (compiler.runPass .classLowering root) ⟨s, journal⟩ =
      (.ok lowered, ⟨store₁, journal₁⟩)) :
    ∃ (t' : Tree) (a' : Account), store₁.Denotes s.size lowered t' ∧ journal₁.bag = a'.bag ∧
      Lowers compiler.config.options none ({ journal } : LoweringState).view.account
        [s.tree s.size root] [t'] a' := by
  have hspec := lowerProgram_spec hg compiler.config.options s.size le_rfl { journal }
  rw [exec_runPass_classLowering_eq] at h
  generalize exec (lowerProgram compiler.config.options root) ⟨s, { journal }⟩ = out at hspec h
  obtain ⟨fault | lowered', final⟩ := out
  · cases h
  · cases h
    obtain ⟨-, t', hdenotes, hlowers⟩ := hspec
    exact ⟨t', _, hdenotes, rfl, hlowers⟩

/-- **Source programs are compiled** when no passes are added. -/
theorem exists_compiles (compiler : Compiler) (source : s.Source root)
    (noPasses : compiler.passes = [])
    (varBinding : compiler.config.options.blockBinding = false) (log : Log) :
    ∃ compiled store' log', compiler.compile root s log = (.ok compiled, store', log') := by
  obtain ⟨compiled, store', log', -, -, compiles, -⟩ :=
    exists_compiled source noPasses varBinding log
  exact ⟨compiled, store', log', compiles⟩

/-- **What a compilation that succeeds amounts to.** -/
theorem exists_of_compile_eq (hg : s.Grounded root) (noPasses : compiler.passes = [])
    (h : compiler.compile root s log = (.ok compiled, store', log')) :
    ∃ (t' : Tree) (a a' : Account) (found : List Reference),
      Lowers compiler.config.options none a [s.tree s.size root] [t'] a' ∧
      store'.Denotes s.size compiled.program t' ∧
      Firsts found (t'.undefined compiler.ambientNames) ∧ (∀ use ∈ found, use.range.isSome) ∧
      compiled.diagnostics.diagnostics.toList.filter (·.code == Message.nameNotDefined.code) =
        found.map fun use =>
          compiled.diagnostics.diagnostic use.range .nameNotDefined [use.name] := by
  obtain ⟨session, hsteps, rfl⟩ :
      ∃ session, exec (compiler.steps root) ⟨s, compiler.startJournal log⟩ =
      (.ok compiled, session) ∧ session.store = store' := by
    have houtcome := congrArg Prod.fst h
    have hstore := congrArg (fun out => out.2.1) h
    exact ⟨_, Prod.ext houtcome rfl, hstore⟩
  rw [steps, noPasses] at hsteps
  obtain ⟨lowered, ⟨store₁, journal₁⟩, hlowered, hsteps⟩ := exec_bind_eq_ok_iff.mp hsteps
  rw [List.foldlM_nil, pure_bind] at hsteps
  obtain ⟨⟨⟩, session₂, hcheck, hsteps⟩ := exec_bind_eq_ok_iff.mp hsteps
  obtain ⟨hok, rfl⟩ := program_of_exec_check hcheck
  obtain ⟨t', a', hdenotes, hbag₁, hlowers⟩ := exists_lowers hg hlowered
  obtain ⟨-, found, hbag, hfirsts, hlocated⟩ := Check.exists_found hdenotes.grounded hok
  rw [hdenotes.tree_eq] at hfirsts
  have hsilent : journal₁.bag.Silent compiler.config.fileName := by
    rw [hbag₁]
    refine hlowers.bag (Bag.stable_silent _) ⟨rfl, ?_⟩
    change ∀ d ∈ (#[] : Array Diagnostic), _
    simp
  generalize Check.program compiler.ambientNames store₁ lowered journal₁ = checked at hsteps hbag
  obtain ⟨hcompiled, hsession⟩ := Prod.mk.inj hsteps
  obtain rfl := Except.ok.inj hcompiled
  subst hsession
  refine ⟨t', _, a', found, hlowers, hdenotes, hfirsts, hlocated, ?_⟩
  change checked.2.bag.diagnostics.toList.filter (·.code == Message.nameNotDefined.code) =
    found.map fun use => checked.2.bag.diagnostic use.range .nameNotDefined [use.name]
  rw [hbag]
  exact hsilent.filter_append found

end Compiler

end Declass
