import Mathlib.Order.Bounds.Basic
import Declass.Proofs.Checking

/-!
# Undefined names without a range

A use of a name that has no range was generated, and if it is undefined then the code generator is
to blame: the check fails instead of reporting. But the check keeps one use of each name only, the
first one. So a name is judged by its first undefined use, and a generated use is overlooked if a
use with a range comes before it.

## Main definitions

* `Store.Checkable` — what the check asks of a program
* `Tree.syntheticNames` — the names with an undefined use that has no range
* `Tree.faultyNames` — the names whose first undefined use has no range

## Main results

* `Check.smallest?_eq_some_iff` — the name that is told is the least one
* `Check.exists_outcome` — a check fails or reports, by what it finds first
* `Check.program_synthetic` — when a check fails, and when this is for the right reason
-/

namespace Declass

/-- What the check asks of a program: it is a tree without classes and without `let` and `const`
statements, and the nodes in binding positions are names. -/
structure Store.Checkable (s : Store) (root : NodeId) : Prop where
  closed : s.Closed root
  acyclic : s.Acyclic root
  notClass : ∀ id node, s.Reaches root id → s.get? id = some node → node.shape.isClass = false
  notBlockScoped : ∀ id node, s.Reaches root id → s.get? id = some node →
    node.shape.isBlockScoped = false
  named : ∀ id node, s.Reaches root id → s.get? id = some node →
    ∀ c ∈ node.shape.scopeRule.binders, ∃ name, s.identifierText c = .ok name

namespace Store.Checkable

variable {s : Store} {root : NodeId}

theorem grounded (h : s.Checkable root) : s.Grounded root :=
  grounded_iff.mpr ⟨h.closed, h.acyclic⟩

theorem everywhere_tree (h : s.Checkable root) (n : Nat) :
    (s.tree n root).Everywhere Tree.Checkable := by
  refine h.grounded.everywhere fun id node hr found => ?_
  have hg := h.grounded.reaches hr
  refine ⟨?_, ?_, hg.named_tree found (h.named id node hr found)⟩
  · rw [hg.tree_eq found, Tree.shape_node, Shape.isClass_map]
    exact h.notClass id node hr found
  · rw [hg.tree_eq found, Tree.shape_node, Shape.isBlockScoped_map]
    exact h.notBlockScoped id node hr found

/-- A store all of whose nodes are as they should be. -/
theorem of_all {height : Nat} (fits : s.Fits height root)
    (hall : ∀ node ∈ s.nodes.toList, node.shape.isClass = false ∧
      node.shape.isBlockScoped = false ∧
      ∀ c ∈ node.shape.scopeRule.binders, (s.identifierText c).isOk = true) : s.Checkable root := by
  obtain ⟨closed, acyclic⟩ := grounded_iff.mp fits.grounded
  refine ⟨closed, acyclic, fun id node _ found => (hall node (mem_nodes_of_get? found)).1,
    fun id node _ found => (hall node (mem_nodes_of_get? found)).2.1, ?_⟩
  intro id node _ found c hc
  have hok := (hall node (mem_nodes_of_get? found)).2.2 c hc
  cases htext : s.identifierText c with
  | ok name => exact ⟨name, rfl⟩
  | error fault => simp [htext, Except.isOk, Except.toBool] at hok

end Store.Checkable

/-! ### Names that have undefined uses without a range -/

namespace Tree

/-- The names with an undefined use that has no range. -/
def syntheticNames (ambient : List String) (t : Tree) : Set String :=
  {name | ⟨name, none⟩ ∈ t.undefined ambient}

/-- The names whose first undefined use has no range. -/
def faultyNames (ambient : List String) (t : Tree) : Set String :=
  {name | firstUse (t.undefined ambient) name = some ⟨name, none⟩}

theorem faultyNames_subset (ambient : List String) (t : Tree) :
    t.faultyNames ambient ⊆ t.syntheticNames ambient :=
  fun _ hname => List.mem_of_find?_eq_some hname

end Tree

/-! ### Outcomes -/

namespace Check

theorem smallest_mem_and_le (name : String) (names : List String) :
    let best := names.foldl (fun best next => if best ≤ next then best else next) name
    best ∈ name :: names ∧ ∀ other ∈ name :: names, best ≤ other := by
  induction names generalizing name with
  | nil => simp
  | cons next names ih =>
    rw [List.foldl_cons]
    split
    case isTrue hle =>
      obtain ⟨hmem, hleast⟩ := ih name
      refine ⟨by grind, ?_⟩
      rw [List.forall_mem_cons] at hleast ⊢
      exact ⟨hleast.1, List.forall_mem_cons.mpr ⟨String.le_trans hleast.1 hle, hleast.2⟩⟩
    case isFalse hle =>
      obtain ⟨hmem, hleast⟩ := ih next
      refine ⟨List.mem_cons_of_mem _ hmem, List.forall_mem_cons.mpr ⟨?_, hleast⟩⟩
      exact String.le_trans (hleast next List.mem_cons_self)
        ((String.le_total name next).resolve_left hle)

/-- The smallest of a list of names is the least one. -/
theorem smallest?_eq_some_iff {names : List String} {name : String} :
    smallest? names = some name ↔ IsLeast {other | other ∈ names} name := by
  cases names with
  | nil => simp [smallest?, IsLeast]
  | cons first names =>
    have hleast : IsLeast {other | other ∈ first :: names}
        (names.foldl (fun best next => if best ≤ next then best else next) first) :=
      smallest_mem_and_le first names
    rw [smallest?, Option.some.injEq]
    exact ⟨fun h => h ▸ hleast, fun h => String.le_antisymm (hleast.2 h.1) (h.2 hleast.1)⟩

theorem smallest?_eq_none_iff {names : List String} : smallest? names = none ↔ names = [] := by
  cases names <;> simp [smallest?]

theorem setOf_mem_synthetic (uses : List Reference) :
    {name | name ∈ (uses.filter (·.range.isNone)).map Reference.name} =
      {name | ⟨name, none⟩ ∈ uses} := by
  ext name
  simp only [Set.mem_ofPred_eq, List.mem_map, List.mem_filter, Option.isNone_iff_eq_none]
  constructor
  · rintro ⟨⟨name, range⟩, ⟨hmem, rfl⟩, rfl⟩
    exact hmem
  · exact fun hmem => ⟨⟨name, none⟩, ⟨hmem, rfl⟩, rfl⟩

/-- Undefined uses without a range have a least name. -/
theorem exists_isLeast_syntheticNames {ambient : List String} {t : Tree}
    (h : (t.syntheticNames ambient).Nonempty) :
    ∃ name, IsLeast (t.syntheticNames ambient) name := by
  rw [Tree.syntheticNames, ← setOf_mem_synthetic] at h ⊢
  generalize ((t.undefined ambient).filter (·.range.isNone)).map Reference.name = names at h ⊢
  cases hsmallest : smallest? names with
  | some name => exact ⟨name, smallest?_eq_some_iff.mp hsmallest⟩
  | none =>
    obtain ⟨name, hname⟩ := h
    rw [smallest?_eq_none_iff.mp hsmallest] at hname
    cases hname

/-- There is a least faulty name whenever there are undefined uses without a range, and it is the
least name of these, iff the least name of these is faulty. -/
theorem tells_least_iff (ambient : List String) (t : Tree) :
    (((∃ name, IsLeast (t.faultyNames ambient) name) ↔ (t.syntheticNames ambient).Nonempty) ∧
        ∀ name, IsLeast (t.faultyNames ambient) name → IsLeast (t.syntheticNames ambient) name) ↔
      ∀ name, IsLeast (t.syntheticNames ambient) name → name ∈ t.faultyNames ambient := by
  have hsubset := Tree.faultyNames_subset ambient t
  constructor
  · rintro ⟨hiff, htold⟩ name hleast
    obtain ⟨told, hfaulty⟩ := hiff.mpr ⟨name, hleast.1⟩
    obtain ⟨hmem, hbound⟩ := htold told hfaulty
    exact String.le_antisymm (hleast.2 hmem) (hbound hleast.1) ▸ hfaulty.1
  · intro hfirst
    constructor
    · constructor
      · exact fun ⟨name, hleast⟩ => ⟨name, hsubset hleast.1⟩
      · intro hnonempty
        obtain ⟨name, hleast⟩ := exists_isLeast_syntheticNames hnonempty
        exact ⟨name, hfirst name hleast, fun other hother => hleast.2 (hsubset hother)⟩
    · intro name hfaulty
      obtain ⟨least, hleast⟩ := exists_isLeast_syntheticNames ⟨name, hsubset hfaulty.1⟩
      exact String.le_antisymm (hleast.2 (hsubset hfaulty.1)) (hfaulty.2 (hfirst least hleast)) ▸
        hleast

variable {s : Store} {n : Nat} {root : NodeId}

/-- **The outcome of a check.** It fails with the least name whose first undefined use has no range,
and reports nothing then. If there is no such name, it reports the first use of each undefined name
in the order of the text. -/
theorem exists_outcome (hg : s.Grounded root) (hcheck : (s.tree n root).Everywhere Tree.Checkable)
    (ambient : List String) (journal : Journal) :
    let t := s.tree n root
    let checked := program ambient s root journal
    (∃ name, IsLeast (t.faultyNames ambient) name ∧ checked.1 = .error (.unboundSynthetic name) ∧
      checked.2.bag = journal.bag) ∨
    (t.faultyNames ambient = ∅ ∧ checked.1 = .ok () ∧ ∃ found : List Reference,
      Firsts found (t.undefined ambient) ∧ checked.2.bag = { journal.bag with
        diagnostics := journal.bag.diagnostics ++ (found.map fun use =>
          journal.bag.diagnostic use.range .nameNotDefined [use.name]).toArray } ∧
      found.Pairwise (Reference.ble · · = true)) := by
  intro t checked
  obtain ⟨found, st, hrun, hfirsts, hbag⟩ := exists_unresolved hg hcheck ambient
    { journal := journal.enter (programSpan root) }
  -- What the check finds without a range is the first use of a name.
  have hnames : {name | name ∈ (found.filter (·.range.isNone)).map Reference.name} =
      t.faultyNames ambient := by
    rw [setOf_mem_synthetic]
    exact Set.ext fun name => hfirsts.mem_iff ⟨name, none⟩
  cases hsmallest : smallest? ((found.filter (·.range.isNone)).map Reference.name) with
  | some name =>
    have hleast := smallest?_eq_some_iff.mp hsmallest
    have hchecked : checked = _ := program_eq (exec_report_of_some hrun hsmallest)
    refine .inl ⟨name, hnames ▸ hleast, by rw [hchecked], ?_⟩
    rw [hchecked]
    exact hbag
  | none =>
    have hnil := smallest?_eq_none_iff.mp hsmallest
    obtain ⟨st', hreport, hbag'⟩ := exec_report_of_none hrun (List.map_eq_nil_iff.mp hnil)
    have hchecked : checked = _ := program_eq hreport
    refine .inr ⟨?_, by rw [hchecked], found.mergeSort Reference.ble,
      hfirsts.perm (List.mergeSort_perm _ _), ?_,
      List.pairwise_mergeSort Reference.ble_trans Reference.ble_total found⟩
    · rw [← hnames, hnil]
      simp
    · rw [hchecked, ← foldl_report]
      exact hbag ▸ hbag'

end Check

/-- **When a check fails.** On a tree that can be checked it fails exactly if there are names whose
first undefined use has no range. It tells the least of these and reports nothing. Otherwise it
reports the first use of each undefined name, in the order of the text. So it fails for each program
with an undefined use that has no range, and tells the least name of such a use, iff the first
undefined use of that very name has no range. -/
theorem Check.program_synthetic {s : Store} {root : NodeId} (checkable : s.Checkable root)
    (ambient : List String) (journal : Journal) :
    let t := s.tree s.size root
    let checked := Check.program ambient s root journal
    (∀ fault, checked.1 = .error fault ↔
      ∃ name, fault = .unboundSynthetic name ∧ IsLeast (t.faultyNames ambient) name) ∧
    (∀ fault, checked.1 = .error fault → checked.2.bag = journal.bag) ∧
    (checked.1 = .ok () → ∃ found : List Reference,
      checked.2.bag.diagnostics.toList = journal.bag.diagnostics.toList ++
        found.map (fun use => journal.bag.diagnostic use.range .nameNotDefined [use.name]) ∧
      (found.map Reference.name).Nodup ∧
      (∀ use, use ∈ found ↔ firstUse (t.undefined ambient) use.name = some use) ∧
      found.Pairwise (Reference.ble · · = true)) ∧
    ((((∃ name, checked.1 = .error (.unboundSynthetic name)) ↔
          (t.syntheticNames ambient).Nonempty) ∧
        ∀ name, checked.1 = .error (.unboundSynthetic name) →
          IsLeast (t.syntheticNames ambient) name) ↔
      ∀ name, IsLeast (t.syntheticNames ambient) name → name ∈ t.faultyNames ambient) := by
  intro t checked
  have houtcome :=
    exists_outcome checkable.grounded (checkable.everywhere_tree s.size) ambient journal
  change (∃ name, IsLeast (t.faultyNames ambient) name ∧ checked.1 = _ ∧ _) ∨ _ at houtcome
  have hfails (fault : Fault) : checked.1 = .error fault ↔
      ∃ name, fault = .unboundSynthetic name ∧ IsLeast (t.faultyNames ambient) name := by
    rcases houtcome with ⟨name, hleast, herror, -⟩ | ⟨hempty, hok, -⟩
    · rw [herror, Except.error.injEq]
      constructor
      · rintro rfl
        exact ⟨name, rfl, hleast⟩
      · rintro ⟨name', rfl, hleast'⟩
        exact congrArg _ (String.le_antisymm (hleast.2 hleast'.1) (hleast'.2 hleast.1))
    · rw [hok]
      exact ⟨fun h => (nomatch h), fun ⟨name, _, hleast⟩ => (hempty ▸ hleast.1).elim⟩
  refine ⟨hfails, ?_, ?_, ?_⟩
  · intro fault herror
    rcases houtcome with ⟨_, -, -, hbag⟩ | ⟨-, hok, -⟩
    · exact hbag
    · exact nomatch hok.symm.trans herror
  · intro hok
    rcases houtcome with ⟨_, -, herror, -⟩ | ⟨-, -, found, hfirsts, hbag, hordered⟩
    · exact nomatch hok.symm.trans herror
    · refine ⟨found, ?_, hfirsts.nodup, hfirsts.mem_iff, hordered⟩
      rw [hbag]
      simp
  have hname (name : String) :
      checked.1 = .error (.unboundSynthetic name) ↔ IsLeast (t.faultyNames ambient) name := by
    simp [hfails]
  simp only [hname]
  exact tells_least_iff ambient t

/-- `a; a; function f(p) { p; z; } z; var v; v; y; g;`, where the first `a` and the second `z` have
ranges and no other use has. -/
def maskedStore : Store where
  nodes := #[⟨.identifier "a", some (.onLine 0 0 1)⟩, ⟨.exprStatement ⟨0⟩, none⟩,
    ⟨.identifier "a", none⟩, ⟨.exprStatement ⟨2⟩, none⟩,
    ⟨.binding "f", none⟩, ⟨.binding "p", none⟩, ⟨.parameter ⟨5⟩ none false, none⟩,
    ⟨.identifier "p", none⟩, ⟨.exprStatement ⟨7⟩, none⟩,
    ⟨.identifier "z", none⟩, ⟨.exprStatement ⟨9⟩, none⟩,
    ⟨.block [⟨8⟩, ⟨10⟩], none⟩, ⟨.functionDecl ⟨4⟩ [⟨6⟩] ⟨11⟩, none⟩,
    ⟨.identifier "z", some (.onLine 2 0 1)⟩, ⟨.exprStatement ⟨13⟩, none⟩,
    ⟨.binding "v", none⟩, ⟨.declarator ⟨15⟩ none, none⟩, ⟨.varStatement .varWord [⟨16⟩], none⟩,
    ⟨.identifier "v", none⟩, ⟨.exprStatement ⟨18⟩, none⟩,
    ⟨.identifier "y", none⟩, ⟨.exprStatement ⟨20⟩, none⟩,
    ⟨.identifier "g", none⟩, ⟨.exprStatement ⟨22⟩, none⟩,
    ⟨.program [⟨1⟩, ⟨3⟩, ⟨12⟩, ⟨14⟩, ⟨17⟩, ⟨19⟩, ⟨21⟩, ⟨23⟩], none⟩]

/-- The check tells `y` and reports nothing; the least undefined name without a range is `a`. -/
theorem program_synthetic_masked :
    let checked := Check.program ["g"] maskedStore ⟨24⟩ {}
    checked.1 = .error (.unboundSynthetic "y") ∧ checked.2.bag = {} ∧
      ¬ ∀ name, checked.1 = .error (.unboundSynthetic name) →
        IsLeast ((maskedStore.tree 25 ⟨24⟩).syntheticNames ["g"]) name := by
  have checkable : maskedStore.Checkable ⟨24⟩ :=
    .of_all (by decide +kernel : maskedStore.Fits 25 ⟨24⟩) (by decide +kernel)
  have hundefined : (maskedStore.tree 25 ⟨24⟩).undefined ["g"] =
      [⟨"a", some (.onLine 0 0 1)⟩, ⟨"a", none⟩, ⟨"z", none⟩, ⟨"z", some (.onLine 2 0 1)⟩,
        ⟨"y", none⟩] := by decide +kernel
  obtain ⟨hfails, hbag, -, -⟩ := Check.program_synthetic checkable ["g"] {}
  change (∀ fault, _ ↔ ∃ name, _ ∧ IsLeast ((maskedStore.tree 25 ⟨24⟩).faultyNames _) name)
    at hfails
  have hleast : IsLeast ((maskedStore.tree 25 ⟨24⟩).faultyNames ["g"]) "y" := by
    rw [Tree.faultyNames, hundefined]
    refine ⟨rfl, fun name hname => ?_⟩
    have hmem := List.mem_of_find?_eq_some hname
    obtain rfl | rfl | rfl : name = "a" ∨ name = "z" ∨ name = "y" := by simpa using hmem
    · exact nomatch hname
    · decide
    · decide
  have hy := (hfails _).mpr ⟨"y", rfl, hleast⟩
  refine ⟨hy, hbag _ hy, fun hright => ?_⟩
  have ha : "a" ∈ (maskedStore.tree 25 ⟨24⟩).syntheticNames ["g"] := by
    rw [Tree.syntheticNames, hundefined]
    decide
  exact absurd ((hright "y" hy).2 ha) (by decide)

/-- `x; x;`, where the second use has no range. -/
def twiceStore : Store where
  nodes := #[⟨.identifier "x", some (.onLine 0 0 1)⟩, ⟨.exprStatement ⟨0⟩, none⟩,
    ⟨.identifier "x", none⟩, ⟨.exprStatement ⟨2⟩, none⟩, ⟨.program [⟨1⟩, ⟨3⟩], none⟩]

/-- An undefined use without a range is accepted, if a use with a range comes before it. -/
theorem program_accepts_synthetic :
    twiceStore.Checkable ⟨4⟩ ∧ "x" ∈ (twiceStore.tree 5 ⟨4⟩).syntheticNames [] ∧
      (Check.program [] twiceStore ⟨4⟩ {}).1 = .ok () ∧
      (Check.program [] twiceStore ⟨4⟩ {}).2.bag.diagnostics.toList =
        [({} : Bag).diagnostic (some (.onLine 0 0 1)) .nameNotDefined ["x"]] := by
  refine ⟨.of_all (by decide +kernel : twiceStore.Fits 5 ⟨4⟩) (by decide +kernel), ?_,
    by decide +kernel, by decide +kernel⟩
  have hmem : (⟨"x", none⟩ : Reference) ∈ (twiceStore.tree 5 ⟨4⟩).undefined [] := by decide +kernel
  exact hmem

end Declass
