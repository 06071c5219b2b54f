import Declass.Proofs.Visiting

/-!
# The check for undefined names is exact

The check never looks a name up. It keeps the first pending use of each name in each open scope and
moves what is left over when a scope is closed. Still what it reports is what the tree of scopes
says: the first use of each name that no scope around it binds.

## Main definitions

* `Store.WellFormed` — what programs are taken to be, before and after the lowering of classes

## Main results

* `Check.program_spec` — the check of a tree whose undefined names have ranges
* `Check.program_exact` — the check reports the first use of each undefined name
-/

namespace Declass

/-! ### The order of the text -/

instance : Std.TransOrd Position :=
  inferInstanceAs (Std.TransCmp (compareLex (compareOn Position.line) (compareOn Position.column)))

instance : Std.TransOrd Range :=
  inferInstanceAs (Std.TransCmp (compareLex (compareOn Range.start) (compareOn Range.stop)))

theorem Range.ble_trans {r s t : Range} (h₁ : r.ble s = true) (h₂ : s.ble t = true) :
    r.ble t = true :=
  Std.TransCmp.isLE_trans h₁ h₂

theorem Range.ble_total (r s : Range) : (r.ble s || s.ble r) = true := by
  have hswap : compare r s = (compare s r).swap := Std.OrientedCmp.eq_swap
  rw [ble, ble, hswap]
  cases compare s r <;> rfl

theorem Reference.ble_trans (a b c : Reference) (hab : a.ble b = true) (hbc : b.ble c = true) :
    a.ble c = true := by
  obtain ⟨x, _ | r⟩ := a <;> obtain ⟨y, _ | s⟩ := b <;> obtain ⟨z, _ | t⟩ := c <;> simp_all [ble]
  exact Range.ble_trans hab hbc

theorem Reference.ble_total (a b : Reference) : (a.ble b || b.ble a) = true := by
  obtain ⟨x, _ | r⟩ := a <;> obtain ⟨y, _ | s⟩ := b <;> simp [ble]
  simpa using Range.ble_total r s

namespace Check

variable {s : Store} {n : Nat}

/-! ### Programs -/

theorem adds_ambient (names : List String) :
    Adds (names.forM declare) { locals := names.toFinset } := by
  induction names with
  | nil => exact adds_pure
  | cons name names ih =>
    exact ((adds_declare name).andThen ih).congr (by simp [Effect.andThen])

/-- The check finds the first use of each undefined name. -/
theorem exists_unresolved {root : NodeId} (hg : s.Grounded root)
    (hcheck : (s.tree n root).Everywhere Tree.Checkable) (ambient : List String) (st : CheckState) :
    ∃ found st', exec (unresolved ambient s root) st = (.ok found, st') ∧
      Firsts found ((s.tree n root).undefined ambient) ∧ st'.journal.bag = st.journal.bag := by
  let st₀ : CheckState := { st with scopes := {} }
  obtain ⟨st₁, hpush, hscopes, hbag₁⟩ :
      ∃ st₁, exec (push .root) st₀ = (.ok (st₀.scopes.push .root).1, st₁) ∧
      st₁.scopes = (st₀.scopes.push .root).2 ∧ st₁.journal.bag = st.journal.bag :=
      ⟨_, rfl, rfl, rfl⟩
  have hshows₀ : st₀.scopes.Shows [] [] := ⟨rfl, trivial, List.nodup_nil, .nil⟩
  have hshows₁ := hshows₀.push .root
  rw [← hscopes] at hshows₁
  have hroot : Rooted [{ kind := .root }] := ⟨_, List.mem_cons_self, rfl⟩
  have hvisit := (adds_ambient ambient).andThen
    (adds_visit hg hcheck (hg.height_tree_le.trans (Nat.le_succ s.size)))
  obtain ⟨st₂, hrun, hshows₂, hbag₂⟩ := hvisit st₁ _ _ hroot hshows₁
  let t := s.tree n root
  let frame : Frame := ⟨.root, ambient.toFinset ∪ (t.locals.toFinset ∪ t.vars.toFinset), t.free⟩
  have hframe : (Effect.andThen { locals := ambient.toFinset } t.effect).on
      [{ kind := .root }] = [frame] := by
    simp [Effect.on, Effect.andThen, Tree.effect, bindVars,
      ScopeKind.isFunctionBoundary, Frame.bind,
      Frame.use, frame]
  rw [hframe] at hshows₂
  obtain ⟨closing, scopes, hpop, hfirsts⟩ := hshows₂.pop_last
  obtain ⟨journal, hrun₃, hbag₃⟩ := exec_pop hpop
  refine ⟨closing.escaped, ⟨scopes, journal⟩, ?_, ?_, (hbag₃.trans hbag₂).trans hbag₁⟩
  · have hstart : exec (modify fun st => { st with scopes := {} } : Check Unit) st =
        (.ok (), st₀) := rfl
    have hrest := exec_bind_of_ok (f := fun _ => pop (st₀.scopes.push .root).1) hrun
    rw [bind_assoc] at hrest
    rw [unresolved, exec_bind_of_ok hstart, exec_bind_of_ok hpush]
    exact hrest.trans hrun₃
  · have hundefined : t.undefined ambient = frame.unresolved := by
      rw [Tree.undefined_eq_filter, Frame.unresolved]
      refine List.filter_congr fun use _ => ?_
      simp only [frame, List.mem_append, Finset.mem_union, List.mem_toFinset, decide_not]
      congr 2
      exact propext (by tauto)
    exact hundefined ▸ hfirsts

/-- Report undefined names, one after the other. -/
theorem exec_reportAll (uses : List Reference) (st : CheckState) :
    ∃ st', exec (do
        for use in uses do
          modify fun s =>
            { s with journal := s.journal.report use.range .nameNotDefined [use.name] }
          : Check Unit) st = (.ok (), st') ∧
      st'.journal.bag = uses.foldl
        (fun bag use => bag.report use.range .nameNotDefined [use.name]) st.journal.bag := by
  induction uses generalizing st with
  | nil => exact ⟨st, rfl, rfl⟩
  | cons use uses ih =>
    obtain ⟨st', hrun, hbag⟩ :=
      ih { st with journal := st.journal.report use.range .nameNotDefined [use.name] }
    refine ⟨st', ?_, hbag⟩
    simp only [List.forIn_cons, bind_assoc, pure_bind]
    exact hrun

section Reports

variable {root : NodeId} {ambient : List String} {found : List Reference} {st st₁ : CheckState}
  (hrun : exec (unresolved ambient s root) st = (.ok found, st₁))

include hrun

/-- A check that finds a use without a range fails and reports nothing. -/
theorem exec_report_of_some {name : String}
    (hname : smallest? ((found.filter (·.range.isNone)).map Reference.name) = some name) :
    exec (report ambient s root) st = (.error (.unboundSynthetic name), st₁) := by
  rw [report, exec_bind_of_ok hrun, hname]
  rfl

/-- A check that finds only uses with ranges reports them in the order of the text. -/
theorem exec_report_of_none (hnone : found.filter (·.range.isNone) = []) :
    ∃ st₂, exec (report ambient s root) st = (.ok (), st₂) ∧
      st₂.journal.bag = (found.mergeSort Reference.ble).foldl
        (fun bag use => bag.report use.range .nameNotDefined [use.name]) st₁.journal.bag := by
  obtain ⟨st₂, hreport, hbag⟩ := exec_reportAll (found.mergeSort Reference.ble) { st₁ with
    journal := st₁.journal.record {
      level := .debug
      target := "lowerjs_checker::free_variables"
      message := "unresolved references"
      fields := [("count", .number (found.mergeSort Reference.ble).length)] } }
  refine ⟨st₂, ?_, hbag⟩
  rw [report, exec_bind_of_ok hrun, hnone]
  exact hreport

end Reports

theorem program_eq {root : NodeId} {ambient : List String} {journal : Journal}
    {outcome : Except Fault Unit} {st : CheckState}
    (hrun : exec (report ambient s root) { journal := journal.enter (programSpan root) } =
      (outcome, st)) :
    program ambient s root journal = (outcome, st.journal.leave) := by
  rw [program]
  change (let (outcome, final) := exec (report ambient s root) _;
    (outcome, final.journal.leave)) = _
  rw [hrun]

/-- The check reports the first use of each undefined name, in the order of the text. -/
theorem exists_reported {root : NodeId} {ambient : List String} (hg : s.Grounded root)
    (hcheck : (s.tree n root).Everywhere Tree.Checkable)
    (hlocated : ∀ use ∈ (s.tree n root).undefined ambient, use.range.isSome) (st : CheckState) :
    ∃ found st', exec (report ambient s root) st = (.ok (), st') ∧
      Firsts found ((s.tree n root).undefined ambient) ∧
      found.Pairwise (fun a b => ∀ r ∈ a.range, ∀ r' ∈ b.range, r.ble r' = true) ∧
      st'.journal.bag = found.foldl
        (fun bag use => bag.report use.range .nameNotDefined [use.name]) st.journal.bag := by
  obtain ⟨found, st₁, hrun, hfirsts, hbag⟩ := exists_unresolved hg hcheck ambient st
  have hnone : found.filter (·.range.isNone) = [] := by
    refine List.filter_eq_nil_iff.mpr fun use hmem => ?_
    have hrange := hlocated use (List.mem_of_find?_eq_some ((hfirsts.mem_iff use).mp hmem))
    simpa using Option.isSome_iff_ne_none.mp hrange
  obtain ⟨st₂, hreport, hbag₂⟩ := exec_report_of_none hrun hnone
  refine ⟨found.mergeSort Reference.ble, st₂, hreport, hfirsts.perm (List.mergeSort_perm _ _), ?_,
    hbag ▸ hbag₂⟩
  · have hsorted : (found.mergeSort Reference.ble).Pairwise (Reference.ble · · = true) :=
      List.pairwise_mergeSort Reference.ble_trans Reference.ble_total found
    refine hsorted.imp ?_
    rintro ⟨x, _ | r⟩ ⟨y, _ | s⟩ hble <;> simp_all [Reference.ble]

theorem foldl_report (uses : List Reference) (bag : Bag) :
    uses.foldl (fun bag use => bag.report use.range .nameNotDefined [use.name]) bag =
      { bag with diagnostics := bag.diagnostics ++
          (uses.map fun use => bag.diagnostic use.range .nameNotDefined [use.name]).toArray } := by
  induction uses generalizing bag with
  | nil => simp
  | cons use uses ih =>
    rw [List.foldl_cons, ih]
    simp [Bag.report, Bag.add, Bag.diagnostic]

/-- What the check reports, by what is undefined in the tree. -/
theorem program_spec {root : NodeId} {ambient : List String} (hg : s.Grounded root)
    (hcheck : (s.tree n root).Everywhere Tree.Checkable)
    (hlocated : ∀ use ∈ (s.tree n root).undefined ambient, use.range.isSome) (journal : Journal) :
    ∃ found : List Reference, (program ambient s root journal).1 = .ok () ∧
      (program ambient s root journal).2.bag = { journal.bag with
        diagnostics := journal.bag.diagnostics ++
          (found.map fun use =>
            journal.bag.diagnostic use.range .nameNotDefined [use.name]).toArray } ∧
      Firsts found ((s.tree n root).undefined ambient) ∧
      found.Pairwise (fun a b => ∀ r ∈ a.range, ∀ r' ∈ b.range, r.ble r' = true) := by
  obtain ⟨found, st, hrun, hfirsts, hpairwise, hbag⟩ := exists_reported hg hcheck hlocated
    { journal := journal.enter (programSpan root) }
  have hprogram := program_eq hrun
  refine ⟨found, by rw [hprogram], ?_, hfirsts, hpairwise⟩
  rw [hprogram, ← foldl_report]
  exact hbag

end Check

/-! ### Stores -/

namespace Store.Grounded

variable {s : Store} {n : Nat} {id : NodeId}

theorem isSome_name? {name : String} (hg : s.Grounded id) (h : s.identifierText id = .ok name) :
    (s.tree n id).name?.isSome := by
  rw [hg.denotes.identifierText_eq (n := n)] at h
  cases hname : (s.tree n id).name? with
  | none => simp [hname] at h
  | some _ => rfl

/-- Where the nodes in binding positions are names, so are the trees. -/
theorem named_tree {node : Node} (hg : s.Grounded id) (found : s.get? id = some node)
    (named : ∀ c ∈ node.shape.scopeRule.binders, ∃ name, s.identifierText c = .ok name) :
    ∀ c ∈ (s.tree n id).shape.scopeRule.binders, c.name?.isSome := by
  rw [hg.tree_eq found, Tree.shape_node, Shape.scopeRule_map, ScopeRule.binders_map,
    List.forall_mem_map]
  intro c hc
  obtain ⟨name, hname⟩ := named c hc
  exact (hg.of_mem_children found (Shape.mem_children_of_mem_binders hc)).isSome_name? hname

end Store.Grounded

/-- What source programs and checked programs have in common: the program is a tree, it has no `let`
and `const` statements, the nodes in binding positions are names, and every use of a name has a
range. -/
structure Store.WellFormed (s : Store) (root : NodeId) : Prop where
  closed : s.Closed root
  acyclic : s.Acyclic root
  notBlockScoped : ∀ id node, s.Reaches root id → s.get? id = some node →
    node.shape.isBlockScoped = false
  named : ∀ id node, s.Reaches root id → s.get? id = some node →
    ∀ c ∈ node.shape.scopeRule.binders, ∃ name, s.identifierText c = .ok name
  located : ∀ id node, s.Reaches root id → s.get? id = some node →
    ∀ name, node.shape = .identifier name → node.range.isSome

namespace Store.WellFormed

variable {s : Store} {root : NodeId} (h : s.WellFormed root)

include h

theorem grounded : s.Grounded root :=
  Store.grounded_iff.mpr ⟨h.closed, h.acyclic⟩

/-- In a well formed program, what is in a binding position is a name. -/
theorem named_tree (n : Nat) {id : NodeId} {node : Node} (hr : s.Reaches root id)
    (found : s.get? id = some node) :
    ∀ c ∈ (s.tree n id).shape.scopeRule.binders, c.name?.isSome :=
  (h.grounded.reaches hr).named_tree found (h.named id node hr found)

theorem located_tree (n : Nat) :
    (s.tree n root).Everywhere fun t => ∀ use ∈ t.shape.use? t.range, use.range.isSome := by
  refine h.grounded.everywhere fun id node hr found => ?_
  rw [(h.grounded.reaches hr).tree_eq found, Tree.shape_node, Tree.range_node, Shape.use?_map]
  rintro use huse
  cases hshape : node.shape with
  | identifier name =>
    obtain rfl : ⟨name, node.range⟩ = use := by simpa [hshape, Shape.use?] using huse
    exact h.located id node hr found name hshape
  | _ => simp [hshape, Shape.use?] at huse

/-- In a well formed program, undefined names have a range. -/
theorem located_undefined (n : Nat) {ambient : List String} {use : Reference}
    (huse : use ∈ (s.tree n root).undefined ambient) : use.range.isSome :=
  Tree.forall_mem_free (h.located_tree n) use (Tree.mem_undefined.mp huse).1

end Store.WellFormed

/-- What can be looked up is in the list of nodes. -/
theorem Store.mem_nodes_of_get? {s : Store} {id : NodeId} {node : Node}
    (found : s.get? id = some node) :
    node ∈ s.nodes.toList :=
  Array.mem_toList_iff.mpr (Array.mem_of_getElem? found)

/-- A store all of whose nodes are as they should be. -/
theorem Store.wellFormed_of_all {s : Store} {root : NodeId} {height : Nat}
    (hfits : s.Fits height root)
    (hall : ∀ node ∈ s.nodes.toList, node.shape.isBlockScoped = false ∧
      (∀ c ∈ node.shape.scopeRule.binders, (s.identifierText c).isOk = true) ∧
      ∀ use ∈ node.shape.use? node.range, use.range.isSome = true) : s.WellFormed root := by
  obtain ⟨closed, acyclic⟩ := grounded_iff.mp hfits.grounded
  refine ⟨closed, acyclic, fun id node _ found => (hall node (mem_nodes_of_get? found)).1, ?_, ?_⟩
  · intro id node _ found c hc
    have hok := (hall node (mem_nodes_of_get? found)).2.1 c hc
    cases htext : s.identifierText c with
    | ok name => exact ⟨name, rfl⟩
    | error fault => simp [htext, Except.isOk, Except.toBool] at hok
  · intro id node _ found name hshape
    exact (hall node (mem_nodes_of_get? found)).2.2 ⟨name, node.range⟩ (by rw [hshape]; rfl)

/-- **The check for undefined names is exact.** On a tree without classes it succeeds. It reports
one diagnostic for each name with a use that no scope around it binds, at the first such use from
left to right, and nothing else; and it reports in the order of the text. -/
theorem Check.program_exact {s : Store} {root : NodeId} (wellFormed : s.WellFormed root)
    (classless : ∀ id node, s.Reaches root id → s.get? id = some node → node.shape.isClass = false)
    (ambient : List String) (journal : Journal) :
    let undefined := (s.tree s.size root).undefined ambient
    let checked := Check.program ambient s root journal
    checked.1 = .ok () ∧ ∃ found : List Reference,
      checked.2.bag.diagnostics.toList = journal.bag.diagnostics.toList ++
        found.map (fun use => journal.bag.diagnostic use.range .nameNotDefined [use.name]) ∧
      (found.map Reference.name).Nodup ∧
      (∀ name, name ∈ found.map Reference.name ↔ ∃ use ∈ undefined, use.name = name) ∧
      (∀ use ∈ found, undefined.find? (·.name == use.name) = some use) ∧
      found.Pairwise fun a b => ∃ r r', a.range = some r ∧ b.range = some r' ∧ r.ble r' = true := by
  intro undefined checked
  have hcheck : (s.tree s.size root).Everywhere Tree.Checkable := by
    refine wellFormed.grounded.everywhere fun id node hr found => ?_
    have hshape := (wellFormed.grounded.reaches hr).tree_eq (n := s.size) found
    refine ⟨?_, ?_, wellFormed.named_tree s.size hr found⟩
    · rw [hshape, Tree.shape_node, Shape.isClass_map]
      exact classless id node hr found
    · rw [hshape, Tree.shape_node, Shape.isBlockScoped_map]
      exact wellFormed.notBlockScoped id node hr found
  have hlocated (use : Reference) (huse : use ∈ undefined) : use.range.isSome :=
    wellFormed.located_undefined s.size huse
  obtain ⟨found, hok, hbag, hfirsts, hordered⟩ :=
    Check.program_spec wellFormed.grounded hcheck hlocated journal
  have hrange {use : Reference} (huse : use ∈ found) : use.range.isSome :=
    hlocated use (List.mem_of_find?_eq_some ((hfirsts.mem_iff use).mp huse))
  refine ⟨hok, found, by rw [hbag]; simp, hfirsts.nodup, fun name => hfirsts.mem_names_iff,
    fun use huse => (hfirsts.mem_iff use).mp huse, hordered.imp_of_mem fun ha hb hble => ?_⟩
  obtain ⟨r, hr⟩ := Option.isSome_iff_exists.mp (hrange ha)
  obtain ⟨r', hr'⟩ := Option.isSome_iff_exists.mp (hrange hb)
  exact ⟨r, r', hr, hr', hble r hr r' hr'⟩

/-- `y; x; try {} catch (e) { var x; } function f(p) { p; q; }` -/
def hoistingStore : Store where
  nodes := #[⟨.identifier "y", some (.onLine 0 0 1)⟩, ⟨.exprStatement ⟨0⟩, none⟩,
    ⟨.binding "e", none⟩, ⟨.binding "x", none⟩, ⟨.declarator ⟨3⟩ none, none⟩,
    ⟨.varStatement .varWord [⟨4⟩], none⟩, ⟨.block [⟨5⟩], none⟩, ⟨.catchClause ⟨2⟩ ⟨6⟩, none⟩,
    ⟨.block [], none⟩, ⟨.tryStatement ⟨8⟩ (some ⟨7⟩) none, none⟩,
    ⟨.identifier "x", some (.onLine 1 0 1)⟩, ⟨.exprStatement ⟨10⟩, none⟩,
    ⟨.binding "f", none⟩, ⟨.binding "p", none⟩, ⟨.parameter ⟨13⟩ none false, none⟩,
    ⟨.identifier "p", some (.onLine 4 0 1)⟩, ⟨.exprStatement ⟨15⟩, none⟩,
    ⟨.identifier "q", some (.onLine 5 0 1)⟩, ⟨.exprStatement ⟨17⟩, none⟩,
    ⟨.block [⟨16⟩, ⟨18⟩], none⟩, ⟨.functionDecl ⟨12⟩ [⟨14⟩] ⟨19⟩, none⟩,
    ⟨.program [⟨1⟩, ⟨11⟩, ⟨9⟩, ⟨20⟩], none⟩]

/-- `x` is bound by the declaration in the catch clause below it; `y` and `q` are not bound. -/
theorem program_exact_hoisting :
    let checked := Check.program [] hoistingStore ⟨21⟩ {}
    checked.1 = .ok () ∧ ∃ found : List Reference,
      checked.2.bag.diagnostics.toList = found.map (fun use =>
        ({} : Bag).diagnostic use.range .nameNotDefined [use.name]) ∧
      (found.map Reference.name).Nodup ∧
      ∀ name, name ∈ found.map Reference.name ↔ name = "y" ∨ name = "q" := by
  have hwellFormed : hoistingStore.WellFormed ⟨21⟩ :=
    Store.wellFormed_of_all (by decide +kernel : hoistingStore.Fits 22 ⟨21⟩) (by decide +kernel)
  have hundefined : (hoistingStore.tree 22 ⟨21⟩).undefined [] =
      [⟨"y", some (.onLine 0 0 1)⟩, ⟨"q", some (.onLine 5 0 1)⟩] := by decide +kernel
  have hclassless : ∀ node ∈ hoistingStore.nodes.toList, node.shape.isClass = false := by
    decide +kernel
  obtain ⟨hok, found, hdiagnostics, hnodup, hnames, -, -⟩ := Check.program_exact hwellFormed
    (fun id node _ found => hclassless node (Store.mem_nodes_of_get? found)) [] {}
  refine ⟨hok, found, hdiagnostics, hnodup, fun name => ?_⟩
  rw [hnames]
  change (∃ use ∈ (hoistingStore.tree 22 ⟨21⟩).undefined [], _) ↔ _
  rw [hundefined]
  simp [eq_comm]

end Declass
