import Declass.Proofs.Resolving

/-!
# Where `super` is expanded

Not every `super` of a member becomes a call of a helper. Those in functions other than arrows stay,
those in the members of a nested class belong to that class, a `super(…)` outside a constructor
stays, and so does the word alone. This module lists the uses that are expanded, each with the
scopes that lie between it and the member; a class is marked as using `super` iff there is one.

## Main definitions

* `ScopeChain` — the names bound by the scopes around a place
* `Shape.placed` — the children of a construct, with the scope that it opens around some of them
* `Tree.superScopes`, `Tree.memberScopes` — the scopes around each `super` that is expanded

## Main results

* `Tree.superScopes_eq` — the uses at and below a construct
* `Expands.used_iff`, `Lowers.used_iff` — `super` is used iff one is expanded
-/

namespace Declass

variable {α β : Type}

/-- The names bound by each of the scopes around a place, innermost first. -/
abbrev ScopeChain : Type :=
  List (List String)

/-! ### Children and scopes -/

namespace Shape

/-- The children of a construct, each with the scope that the construct opens around it, if it does
so. -/
def placed (tree : α → Tree) (s : Shape α) : List (α × ScopeChain) :=
  (s.scopeRule.binders ++ s.scopeRule.parts).map (·, []) ++
    s.scopeRule.inner.toList.flatMap fun scope => scope.parts.map (·, [(scope.map tree).bound])

theorem exists_mem_placed_iff {tree : α → Tree} {s : Shape α} {c : α} :
    (∃ scopes, (c, scopes) ∈ s.placed tree) ↔ c ∈ s.scopeRule.binders ∨ c ∈ s.scopeRule.parts ∨
      ∃ scope, s.scopeRule.inner = some scope ∧ c ∈ scope.parts := by
  rw [placed]
  cases s.scopeRule.inner <;> simp [exists_or]

/-- Only children are placed. -/
theorem mem_children_of_mem_placed {tree : α → Tree} {s : Shape α} {v : α × ScopeChain}
    (h : v ∈ s.placed tree) : v.1 ∈ s.children := by
  rcases exists_mem_placed_iff.mp ⟨v.2, h⟩ with h | h | ⟨scope, hscope, h⟩
  · exact mem_children_of_mem_binders h
  · exact mem_children_of_mem_parts h
  · exact mem_children_of_mem_inner hscope h

/-- All children of a construct are listed. -/
theorem exists_mem_placed (tree : α → Tree) {s : Shape α} (hs : s.isClass = false) {c : α}
    (hc : c ∈ s.children) : ∃ scopes, (c, scopes) ∈ s.placed tree := by
  rw [exists_mem_placed_iff]
  cases s with
  | classDecl | classExpr => cases hs
  | declarator | parameter | functionDecl | functionExpr | arrow | method | getter | setter
  | catchClause => simpa [children, scopeRule, ScopeRule.binders, or_assoc] using hc
  | _ => exact .inr (.inl hc)

/-- The heritage is among the children. -/
theorem mem_children_of_mem_heritage {s : Shape α} {parts : ClassParts α}
    (h : s.classParts? = some parts) {c : α} (hc : c ∈ parts.heritage) : c ∈ s.children := by
  cases s with
  | classDecl | classExpr =>
    cases h
    simp [children, Option.mem_toList.mpr hc]
  | _ => cases h

end Shape

/-! ### Uses of `super` that are expanded -/

/-- Whether a use of `super` becomes a call of a helper in a member of a given kind. -/
def SuperUse.isExpanded (kind : MemberKind) : SuperUse α → Bool
  | .call .. => kind = .constructor
  | .bare _ => false
  | _ => true

namespace Tree

/-- The parts of a tree in which uses of `super` are looked for. -/
def visits (t : Tree) : List (Tree × ScopeChain) :=
  match t.superRole with
  | .use use => use.operands.map (·, [])
  | .nestedFunction => []
  | .nestedClass => t.shape.classParts?.toList.flatMap fun parts =>
    parts.heritage.toList.map (·, [])
  | .other => t.shape.placed id

/-- Whether the tree is a use of `super` that is expanded. -/
def isExpanded (kind : MemberKind) (t : Tree) : Bool :=
  match t.superRole with
  | .use use => use.isExpanded kind
  | _ => false

theorem height_visit_lt {t : Tree} {v : Tree × ScopeChain} (h : v ∈ t.visits) :
    v.1.height < t.height := by
  rw [visits] at h
  split at h
  case h_1 use role =>
    obtain ⟨c, hc, rfl⟩ := List.mem_map.mp h
    exact height_operand_lt role hc
  case h_2 => cases h
  case h_3 =>
    obtain ⟨o, s, r⟩ := t
    obtain ⟨parts, hparts, h⟩ := List.mem_flatMap.mp h
    obtain ⟨c, hc, rfl⟩ := List.mem_map.mp h
    exact height_lt_of_mem_children
      (Shape.mem_children_of_mem_heritage (Option.mem_toList.mp hparts) (Option.mem_toList.mp hc))
  case h_4 =>
    obtain ⟨o, s, r⟩ := t
    exact height_lt_of_mem_children (Shape.mem_children_of_mem_placed h)

/-- The scopes around each use of `super` in a tree that is expanded. -/
def superScopes (kind : MemberKind) (t : Tree) : List ScopeChain :=
  (if t.isExpanded kind then [[]] else []) ++
    t.visits.attach.flatMap fun v => (superScopes kind v.1.1).map (· ++ v.1.2)
termination_by t.height
decreasing_by exact height_visit_lt v.2

theorem superScopes_eq (kind : MemberKind) (t : Tree) :
    t.superScopes kind = (if t.isExpanded kind then [[]] else []) ++
      t.visits.flatMap fun v => (v.1.superScopes kind).map (· ++ v.2) := by
  have hattach : (t.visits.attach.flatMap fun v => (v.1.1.superScopes kind).map (· ++ v.1.2)) =
      t.visits.attach.unattach.flatMap fun v => (v.1.superScopes kind).map (· ++ v.2) :=
    List.flatMap_subtype fun _ _ => rfl
  rw [superScopes, hattach, List.unattach_attach]

/-- The scopes around each use of `super` in a member that is expanded, the scope of the member
included. -/
def memberScopes (t : Tree) : List ScopeChain :=
  match MemberKind.ofShape? t.shape with
  | some kind => (t.shape.placed id).flatMap fun v => (v.1.superScopes kind).map (· ++ v.2)
  | none => []

section Roles

variable {kind : MemberKind} {t : Tree}

/-- A use counts if it is expanded, beside those in its operands. -/
theorem superScopes_use {use : SuperUse Tree} (role : t.superRole = .use use) :
    t.superScopes kind = (if use.isExpanded kind then [[]] else []) ++
      use.operands.flatMap (superScopes kind) := by
  rw [superScopes_eq, visits, isExpanded, role]
  simp [List.flatMap_map]

/-- Uses in a nested function are not expanded. -/
theorem superScopes_nestedFunction (role : t.superRole = .nestedFunction) :
    t.superScopes kind = [] := by
  rw [superScopes_eq, visits, isExpanded, role]
  rfl

/-- What has no role counts what its parts count. -/
theorem superScopes_other (role : t.superRole = .other) :
    t.superScopes kind =
      (t.shape.placed id).flatMap fun v => (v.1.superScopes kind).map (· ++ v.2) := by
  rw [superScopes_eq, visits, isExpanded, role]
  rfl

theorem visits_class {parts : ClassParts Tree} (h : t.shape.classParts? = some parts) :
    t.visits = parts.heritage.toList.map (·, []) := by
  have hclass : t.shape.isClass = true := by
    generalize t.shape = s at h
    cases s <;> first | rfl | cases h
  have role : t.superRole = .nestedClass := Shape.superRole_of_isClass hclass
  rw [visits, role, h]
  simp

/-- Of a class only the heritage is looked at. -/
theorem superScopes_class {parts : ClassParts Tree} (h : t.shape.classParts? = some parts) :
    t.superScopes kind = parts.heritage.toList.flatMap (superScopes kind) := by
  have hexpanded : t.isExpanded kind = false := by
    generalize hs : t.shape = s at h
    cases s with
    | classDecl | classExpr => rw [isExpanded, superRole, hs]; rfl
    | _ => cases h
  rw [superScopes_eq, hexpanded, visits_class h]
  simp [List.flatMap_map]

end Roles

theorem flatMap_placed_eq_nil_iff {f : Tree → List ScopeChain} {s : Shape Tree}
    (hs : s.isClass = false) :
    ((s.placed id).flatMap fun v => (f v.1).map (· ++ v.2)) = [] ↔ ∀ c ∈ s.children, f c = [] := by
  simp only [List.flatMap_eq_nil_iff, List.map_eq_nil_iff]
  constructor
  · intro h c hc
    obtain ⟨scopes, hmem⟩ := Shape.exists_mem_placed id hs hc
    exact h _ hmem
  · exact fun h v hv => h v.1 (Shape.mem_children_of_mem_placed hv)

end Tree

/-! ### Use -/

/-- Code that needs no temporary is of a use that is expanded. -/
theorem Site.Direct.isExpanded {site : Site} {range : Option Range} {use : SuperUse Tree}
    {operands : List Tree} {t : Tree} (code : site.Direct range use operands t) :
    use.isExpanded site.kind = true := by
  cases code with
  | call kind => simpa [SuperUse.isExpanded] using kind
  | _ => rfl

/-- Code that needs a temporary is of a use that is expanded. -/
theorem Site.Bound.isExpanded {site : Site} {range : Option Range} {number : Nat}
    {use : SuperUse Tree} {key t : Tree} {rest : List Tree}
    (code : site.Bound range number use key rest t) : use.isExpanded site.kind = true := by
  cases code <;> rfl

/-- **An expansion marks `super` as used iff it expands a use.** -/
theorem Expands.used_iff {site : Site} {nested : Bool} {a a' : Account} {ts ts' : List Tree}
    (h : Expands site nested a ts ts' a') :
    a'.used = true ↔
      a.used = true ∨ nested = false ∧ ∃ t ∈ ts, t.superScopes site.kind ≠ [] := by
  induction h with
  | nil => simp
  | cons _ _ ihHead ihTail =>
    refine ihTail.trans ((or_congr_left ihHead).trans ?_)
    simp only [List.exists_mem_cons_iff, List.not_mem_nil, false_and, exists_false, or_false]
    rw [or_assoc, ← and_or_left]
  | @walk _ _ _ t _ role _ ih =>
    refine ih.trans (or_congr_right (and_congr_right fun _ => ?_))
    have plain : t.shape.isClass = false := Tree.isClass_of_superRole_ne (by simp [role])
    simp [Tree.superScopes_other role, Tree.flatMap_placed_eq_nil_iff plain]
  | enter role _ ih => simpa [Tree.superScopes_nestedFunction role] using ih
  | classDecl _ ih =>
    refine ih.trans (or_congr_right (and_congr_right fun _ => ?_))
    simp [Tree.superScopes_class (t := .node _ (.classDecl _ _ _) _) rfl]
  | classExpr _ ih =>
    refine ih.trans (or_congr_right (and_congr_right fun _ => ?_))
    simp [Tree.superScopes_class (t := .node _ (.classExpr _ _ _) _) rfl]
  | misplaced role => simp [Account.report]
  | bare role =>
    simp [Account.report, Tree.superScopes_use role, SuperUse.isExpanded, SuperUse.operands]
  | stray role kind _ ih =>
    refine ih.trans ?_
    simp [Account.report, Tree.superScopes_use role, SuperUse.isExpanded, SuperUse.operands, kind]
  | direct role _ code _ =>
    simp [Account.withUsed, Tree.superScopes_use role, code.isExpanded]
  | bound role _ _ _ code _ _ =>
    simp [Account.withUsed, Tree.superScopes_use role, code.isExpanded]

/-- **Lowering the members of a class marks it as using `super` iff a use is expanded in one of
them.** -/
theorem Lowers.used_iff {options : Options} {c : String} {a a' : Account} {ts ts' : List Tree}
    (h : Lowers options (some c) a ts ts' a') :
    a'.used = true ↔ a.used = true ∨ ∃ t ∈ ts, t.memberScopes ≠ [] := by
  generalize hc : some c = cx at h
  induction h with
  | nil => simp
  | cons _ _ ihHead ihTail =>
    rw [ihTail hc, ihHead hc]
    simp [or_assoc]
  | walk | scope | classDecl | classExprBound | classExprFree => cases hc
  | @member _ _ _ _ t _ _ kind legal expanded below _ =>
    have hplain := Tree.isClass_of_ownsTemps (Tree.ownsTemps_of_ofShape? legal)
    have hbelow : Account.used (Account.closeScope _) = _ := below.used_eq.1 rfl
    rw [hbelow, expanded.used_iff]
    simp [Account.openScope, Tree.memberScopes, legal, Tree.flatMap_placed_eq_nil_iff hplain]

/-- In the members of a class that is not marked no use is expanded. -/
theorem Lowers.memberScopes_eq_nil {options : Options} {c : String} {a a' : Account}
    {ts ts' : List Tree} (h : Lowers options (some c) (a.withUsed false) ts ts' a')
    (unused : a'.used = false) : ∀ t ∈ ts, t.memberScopes = [] := by
  have hused := h.used_iff.not.mp (by simp [unused])
  intro t ht
  by_contra hscopes
  exact hused (.inr ⟨t, ht, hscopes⟩)

end Declass
