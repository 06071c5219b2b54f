import Declass.Proofs.Yields

/-!
# Roles of `super` in stores and trees

What a construct has to do with `super` is read off its shape and those of its children and
grandchildren. This module shows that the answer is the same for a node of a store and for the tree
that it denotes, and says what the parts of a use of `super` are.

## Main results

* `Shape.superRole_map` — roles do not depend on how sub-constructs are represented
* `Store.exists_superRole` — the role of a node is that of its tree, part by part
* `Tree.flatMap_operands` — what a use of `super` contains is what its operands contain
-/

namespace Declass

variable {α β γ : Type}

/-! ### Roles with other parts -/

/-- The key with its index replaced. -/
def MemberKey.map (f : α → β) : MemberKey α → MemberKey β
  | .named name => .named name
  | .computed index => .computed (f index)

/-- The access with its parts replaced. -/
def SuperAccess.map (f : α → β) (access : SuperAccess α) : SuperAccess β :=
  ⟨f access.word, access.key.map f⟩

/-- The use with its parts replaced. -/
def SuperUse.map (f : α → β) : SuperUse α → SuperUse β
  | .call word arguments => .call (f word) (arguments.map f)
  | .methodCall access arguments => .methodCall (access.map f) (arguments.map f)
  | .assign access value => .assign (access.map f) (f value)
  | .compound access operator value => .compound (access.map f) operator (f value)
  | .update access operator => .update (access.map f) operator
  | .get access => .get (access.map f)
  | .bare word => .bare (f word)

/-- The role with its parts replaced. -/
def SuperRole.map (f : α → β) : SuperRole α → SuperRole β
  | .use u => .use (u.map f)
  | .nestedFunction => .nestedFunction
  | .nestedClass => .nestedClass
  | .other => .other

theorem MemberKey.operands_map (f : α → β) (key : MemberKey α) :
    (key.map f).operands = key.operands.map f := by
  cases key <;> rfl

theorem SuperUse.operands_map (f : α → β) (use : SuperUse α) :
    (use.map f).operands = use.operands.map f := by
  cases use <;> simp [map, operands, SuperAccess.map, MemberKey.operands_map]

theorem SuperUse.word_map (f : α → β) (use : SuperUse α) : (use.map f).word = f use.word := by
  cases use <;> rfl

namespace Shape

theorem isSuper_map (f : α → β) (s : Shape α) : (s.map f).isSuper = s.isSuper := by
  cases s <;> rfl

variable {f : α → β} {look : α → Option (Shape α)} {look' : β → Option (Shape β)}

theorem any_isSuper_of_look {c : α} (h : look' (f c) = (look c).map (Shape.map f)) :
    (look' (f c)).any isSuper = (look c).any isSuper := by
  rw [h, Option.any_map]
  congr 1
  funext s
  exact isSuper_map f s

/-- The access to `super` of a mapped shape is the mapped one. -/
theorem superAccess?_map {s : Shape α}
    (hany : ∀ c ∈ s.children, (look' (f c)).any isSuper = (look c).any isSuper) :
    (s.map f).superAccess? look' = (s.superAccess? look).map (SuperAccess.map f) := by
  cases s with
  | member target name =>
    simp only [map, superAccess?, hany target (by simp [children])]
    split <;> rfl
  | lookup target index =>
    simp only [map, superAccess?, hany target (by simp [children])]
    split <;> rfl
  | _ => rfl

theorem bind_superAccess?_map {c : α} (h : look' (f c) = (look c).map (Shape.map f))
    (h' : ∀ s ∈ look c, ∀ d ∈ s.children, look' (f d) = (look d).map (Shape.map f)) :
    (look' (f c)).bind (superAccess? look')
      = ((look c).bind (superAccess? look)).map (SuperAccess.map f) := by
  rw [h]
  cases hs : look c with
  | none => rfl
  | some s => exact superAccess?_map fun d hd => any_isSuper_of_look (h' s hs d hd)

/-- A role is known once it is known which sub-constructs are `super` or read from it. -/
theorem superRole_map_of_access {s : Shape α} (self : α)
    (hany : ∀ c ∈ s.children, (look' (f c)).any isSuper = (look c).any isSuper)
    (hbind : ∀ c ∈ s.children, (look' (f c)).bind (superAccess? look')
      = ((look c).bind (superAccess? look)).map (SuperAccess.map f)) :
    (s.map f).superRole look' (f self) = (s.superRole look self).map f := by
  cases s with
  | call callee arguments =>
    simp only [map, superRole, hany callee (by simp [children]), hbind callee (by simp [children])]
    split
    · rfl
    · cases (look callee).bind (superAccess? look) <;> rfl
  | binary left operator right =>
    simp only [map, superRole, hbind left (by simp [children])]
    cases (look left).bind (superAccess? look) with
    | none => rfl
    | some access =>
      simp only [Option.map_some]
      split
      · rfl
      · cases compoundOperator? operator <;> rfl
  | unary operator operand =>
    simp only [map, superRole, hbind operand (by simp [children])]
    cases updateOperator? operator <;> cases (look operand).bind (superAccess? look) <;> rfl
  | member target name | lookup target name =>
    have hself := superAccess?_map hany
    simp only [map] at hself
    simp only [map, superRole, hself]
    cases superAccess? look _ <;> rfl
  | _ => rfl

/-- Roles do not depend on how sub-constructs are represented. -/
theorem superRole_map {s : Shape α} (self : α)
    (h : ∀ c ∈ s.children, look' (f c) = (look c).map (Shape.map f))
    (h' : ∀ c ∈ s.children, ∀ s' ∈ look c, ∀ d ∈ s'.children,
      look' (f d) = (look d).map (Shape.map f)) :
    (s.map f).superRole look' (f self) = (s.superRole look self).map f :=
  superRole_map_of_access self (fun c hc => any_isSuper_of_look (h c hc)) fun c hc =>
    bind_superAccess?_map (h c hc) (h' c hc)

end Shape

/-! ### The parts of a role -/

/-- The parts that a role names. -/
def SuperRole.parts : SuperRole α → List α
  | .use u => u.word :: u.operands
  | _ => []

namespace Shape

variable {look : α → Option (Shape α)} {s : Shape α} {self : α}

theorem mem_children_of_superAccess? {access : SuperAccess α}
    (h : s.superAccess? look = some access) :
    access.word ∈ s.children ∧ access.key.operands ⊆ s.children := by
  cases s <;> simp only [superAccess?] at h <;> grind [children, MemberKey.operands]

/-- The forms that a use of `super` can have. -/
inductive IsUse (look : α → Option (Shape α)) (self : α) : Shape α → SuperUse α → Prop where
  | call {callee : α} {arguments : List α} (word : (look callee).any isSuper) :
      IsUse look self (.call callee arguments) (.call callee arguments)
  | methodCall {callee : α} {arguments : List α} {access : SuperAccess α}
      (target : (look callee).bind (superAccess? look) = some access) :
      IsUse look self (.call callee arguments) (.methodCall access arguments)
  | assign {left right : α} {access : SuperAccess α}
      (target : (look left).bind (superAccess? look) = some access) :
      IsUse look self (.binary left "=" right) (.assign access right)
  | compound {left right : α} {access : SuperAccess α} {operator operator' : String}
      (target : (look left).bind (superAccess? look) = some access)
      (applied : compoundOperator? operator = some operator') :
      IsUse look self (.binary left operator right) (.compound access operator' right)
  | update {operand : α} {access : SuperAccess α} {operator operator' : String}
      (target : (look operand).bind (superAccess? look) = some access)
      (applied : updateOperator? operator = some operator') :
      IsUse look self (.unary operator operand) (.update access operator')
  | get {s : Shape α} {access : SuperAccess α} (target : s.superAccess? look = some access) :
      IsUse look self s (.get access)
  | bare : IsUse look self .superExpr (.bare self)

/-- What has the role of a use is written as one. -/
theorem isUse_of_superRole {use : SuperUse α} (h : s.superRole look self = .use use) :
    IsUse look self s use := by
  unfold superRole at h
  split at h
  case h_1 callee arguments =>
    split at h
    · cases h
      exact .call ‹_›
    · split at h <;> cases h
      exact .methodCall ‹_›
  case h_2 left operator right =>
    split at h
    · split at h
      · subst operator
        cases h
        exact .assign ‹_›
      · split at h <;> cases h
        exact .compound ‹_› ‹_›
    · cases h
  case h_3 operator operand =>
    split at h <;> cases h
    exact .update ‹_› ‹_›
  case h_4 | h_5 =>
    split at h <;> cases h
    exact .get ‹_›
  case h_6 =>
    cases h
    exact .bare
  all_goals cases h

theorem isSuper_of_isLeaf (h : s.isLeaf = true) : s.isSuper = false := by
  cases s <;> first | rfl | cases h

theorem superAccess?_of_isLeaf (h : s.isLeaf = true) : s.superAccess? look = none := by
  cases s <;> first | rfl | cases h

/-- A leaf has no role. -/
theorem superRole_of_isLeaf (h : s.isLeaf = true) : s.superRole look self = .other := by
  cases s <;> first | rfl | cases h

/-- A class is a class, whatever it is looked at for. -/
theorem superRole_of_isClass (h : s.isClass = true) : s.superRole look self = .nestedClass := by
  cases s <;> first | rfl | cases h

theorem isClass_of_superRole (h : s.superRole look self = .nestedClass) : s.isClass = true := by
  unfold superRole at h
  split at h <;> first | rfl | grind

/-- A use that is a call is the call of the word. -/
theorem eq_call_of_superRole {word : α} {arguments : List α}
    (h : s.superRole look self = .use (.call word arguments)) : s = .call word arguments := by
  cases isUse_of_superRole h with
  | call _ => rfl

/-- The operands of a use are children or grandchildren of it, and so is the word `super` unless it
stands alone. -/
theorem IsUse.near {use : SuperUse α} (h : IsUse look self s use) {p : α}
    (hp : p ∈ use.operands ∨ p = use.word ∧ p ≠ self) :
    p ∈ s.children ∨ ∃ c ∈ s.children, ∃ s' ∈ look c, p ∈ s'.children := by
  have near {c : α} {access : SuperAccess α} (hc : c ∈ s.children)
      (h : (look c).bind (superAccess? look) = some access)
      (hp : p = access.word ∨ p ∈ access.key.operands) :
      ∃ c ∈ s.children, ∃ s' ∈ look c, p ∈ s'.children := by
    obtain ⟨s', hs', haccess⟩ := Option.bind_eq_some_iff.mp h
    have := mem_children_of_superAccess? haccess
    refine ⟨c, hc, s', hs', ?_⟩
    rcases hp with rfl | hp
    · exact this.1
    · exact this.2 hp
  cases h with
  | call _ | bare => grind [SuperUse.word, SuperUse.operands, children]
  | get target =>
    have := mem_children_of_superAccess? target
    grind [SuperUse.word, SuperUse.operands]
  | _ target =>
    have := near (by simp [children]) target
    grind [SuperUse.word, SuperUse.operands, children]

/-- What holds of a construct, its children and its grandchildren holds of the parts of its role. -/
theorem forall_mem_parts_superRole {p : α → Prop} (hself : p self) (h : ∀ c ∈ s.children, p c)
    (h' : ∀ c ∈ s.children, ∀ s' ∈ look c, ∀ d ∈ s'.children, p d) :
    ∀ part ∈ (s.superRole look self).parts, p part := by
  cases hrole : s.superRole look self with
  | use use =>
    intro part hpart
    by_cases heq : part = self
    · exact heq ▸ hself
    · rcases (isUse_of_superRole hrole).near (p := part) (by grind [SuperRole.parts]) with
        hpart | ⟨c, hc, s', hs', hpart⟩
      · exact h part hpart
      · exact h' c hc s' hs' part hpart
  | _ => exact List.forall_mem_nil _

end Shape

/-! ### Stores and trees -/

/-- **The role of a node is that of its tree, part by part.** -/
theorem Store.exists_superRole {s : Store} {n : Nat} {id : NodeId} {t : Tree}
    {z : Shape (NodeId × Tree)} (hid : s.Denotes n id t) (hz : s.Knows n z.children)
    (ht : t.shape = z.map Prod.snd) :
    ∃ role : SuperRole (NodeId × Tree), s.superRole id (z.map Prod.fst) = role.map Prod.fst ∧
      t.superRole = role.map Prod.snd ∧ s.Knows n role.parts := by
  let pair (c : NodeId) : NodeId × Tree := (c, s.tree n c)
  let look (p : NodeId × Tree) :
      Option (Shape (NodeId × Tree)) := (s.shape? p.1).map (Shape.map pair)
  have hfst (p : NodeId × Tree) : s.shape? p.1 = (look p).map (Shape.map Prod.fst) := by
    cases hs : s.shape? p.1 with
    | none => simp [look, hs]
    | some shape =>
      simp only [look, hs, Option.map_some, Shape.map_map]
      exact congrArg some (Shape.map_id shape).symm
  -- A known node has the shape of its tree, and its children are known.
  have hknown (p : NodeId × Tree) (hp : s.Denotes n p.1 p.2) :
      some p.2.shape = (look p).map (Shape.map Prod.snd) ∧
        ∀ s' ∈ look p, s.Knows n s'.children := by
    obtain ⟨node, found, below, heq⟩ := hp.exists_node
    have hlook : look p = some (node.shape.map pair) := by simp [look, shape?, found]
    constructor
    · rw [hlook, heq, Option.map_some, Shape.map_map]
      rfl
    · rintro s' hs' q hq
      obtain rfl := Option.some.inj (hlook.symm.trans hs')
      obtain ⟨c, hc, rfl⟩ := List.mem_map.mp (Shape.children_map _ node.shape ▸ hq)
      exact (below c hc).denotes
  refine ⟨z.superRole look (id, t), ?_, ?_, ?_⟩
  · exact Shape.superRole_map (id, t) (fun c _ => hfst c) fun _ _ _ _ d _ => hfst d
  · rw [Tree.superRole, ht]
    exact Shape.superRole_map (id, t) (fun c hc => (hknown c (hz c hc)).1)
      fun c hc s' hs' d hd => (hknown d ((hknown c (hz c hc)).2 s' hs' d hd)).1
  · exact Shape.forall_mem_parts_superRole hid hz fun c hc => (hknown c (hz c hc)).2

/-- The operands of a use are less high than the use. -/
theorem Tree.height_operand_lt {t : Tree} {use : SuperUse Tree} (h : t.superRole = .use use)
    {p : Tree} (hp : p ∈ use.operands) : p.height < t.height := by
  obtain ⟨o, shape, r⟩ := t
  rcases (Shape.isUse_of_superRole h).near (.inl hp) with hp | ⟨⟨o', shape', r'⟩, hc, _, ⟨⟩, hp⟩
  · exact height_lt_of_mem_children hp
  · exact (height_lt_of_mem_children hp).trans (height_lt_of_mem_children hc)

/-- What does not have the role of a class is none. -/
theorem Tree.isClass_of_superRole_ne {t : Tree} (h : t.superRole ≠ .nestedClass) :
    t.shape.isClass = false := by
  by_contra hclass
  exact h (Shape.superRole_of_isClass (by simpa using hclass))

/-- The operands of a use are parts of it. -/
theorem Tree.Everywhere.operand {p : Tree → Prop} {t c : Tree} {use : SuperUse Tree}
    (h : t.Everywhere p) (role : t.superRole = .use use) (hc : c ∈ use.operands) :
    c.Everywhere p := by
  rcases (Shape.isUse_of_superRole role).near (.inl hc) with hc | ⟨d, hd, _, ⟨⟩, hc⟩
  · exact h.child hc
  · exact (h.child hd).child hc

/-! ### What a use contains -/

/-- The constructs in which uses of `super` and the code they become are put together: whatever is
in such a construct is in one of its children. -/
def Shape.isGlue : Shape α → Bool
  | .call .. | .binary .. | .unary .. | .member .. | .lookup .. | .superExpr | .array _ | .paren _
  | .comma _ => true
  | _ => false

/-- Whether a shape is a member of something. -/
def Shape.isAccess : Shape α → Bool
  | .member .. | .lookup .. => true
  | _ => false

theorem Shape.isAccess_of_superAccess? {s : Shape α} {look : α → Option (Shape α)}
    {access : SuperAccess α} (h : s.superAccess? look = some access) : s.isAccess = true := by
  cases s <;> first | rfl | cases h

/-- Glue is no class. -/
theorem Shape.isClass_of_isGlue {s : Shape α} (h : s.isGlue = true) : s.isClass = false := by
  cases s <;> first | rfl | cases h

/-- A leaf is no class. -/
theorem Shape.isClass_of_isLeaf {s : Shape α} (h : s.isLeaf = true) : s.isClass = false := by
  cases s <;> first | rfl | cases h

namespace Tree

theorem shape_eq_superExpr {t : Tree} (h : t.shape.isSuper = true) : t.shape = .superExpr := by
  unfold Shape.isSuper at h
  split at h
  · assumption
  · cases h

theorem name?_of_isGlue {t : Tree} (h : t.shape.isGlue = true) : t.name? = none := by
  rw [name?]
  generalize t.shape = s at h
  cases s with
  | call | binary | unary | member | lookup | superExpr | array | paren | comma => rfl
  | _ => cases h

/-- A use is no name. -/
theorem name?_of_superRole {t : Tree} {use : SuperUse Tree} (h : t.superRole = .use use) :
    t.name? = none := by
  have hother (hleaf : t.shape.isLeaf = true) : False := by
    rw [superRole, Shape.superRole_of_isLeaf hleaf] at h
    cases h
  rw [name?]
  split
  case h_1 hshape | h_2 hshape => exact (hother (by rw [hshape]; rfl)).elim
  case h_3 => rfl

/-- The constructs that a use of `super` is made of, as far as their first parts tell. -/
def isUseForm (t : Tree) : Bool :=
  match t.shape with
  | .call .. | .member .. | .lookup .. | .superExpr => true
  | .binary target _ _ | .unary _ target => target.shape.isAccess
  | _ => false

/-- All forms of a use are glue. -/
theorem isGlue_of_isUseForm {t : Tree} (h : t.isUseForm = true) : t.shape.isGlue = true := by
  rw [isUseForm] at h
  generalize t.shape = s at h
  cases s <;> first | rfl | cases h

variable {φ : Tree → List γ}
  (hφ : ∀ t : Tree, t.isUseForm = true → φ t = t.shape.children.flatMap φ)

include hφ

theorem eq_nil_of_isSuper {t : Tree} (h : t.shape.isSuper = true) : φ t = [] := by
  rw [hφ t (by rw [isUseForm, shape_eq_superExpr h]), shape_eq_superExpr h]
  rfl

theorem flatMap_key {t : Tree} {access : SuperAccess Tree}
    (h : t.shape.superAccess? (fun c => some c.shape) = some access) :
    φ t = access.key.operands.flatMap φ := by
  obtain ⟨o, shape, r⟩ := t
  cases shape <;> simp only [shape_node, Shape.superAccess?] at h <;> try cases h
  all_goals
    split at h <;> cases h
    rw [hφ _ rfl]
    have hword := eq_nil_of_isSuper hφ (by simpa using ‹_›)
    simp [Shape.children, MemberKey.operands, hword]

/-- What a use of `super` contains is what its operands contain. -/
theorem flatMap_operands_of_useForm {t : Tree} {use : SuperUse Tree} (h : t.superRole = .use use) :
    φ t = use.operands.flatMap φ := by
  obtain ⟨o, shape, r⟩ := t
  have huse := Shape.isUse_of_superRole h
  simp only [shape_node] at huse
  cases huse with
  | call word =>
    rw [hφ _ rfl]
    simp [Shape.children, SuperUse.operands, eq_nil_of_isSuper hφ (by simpa using word)]
  | methodCall target =>
    rw [hφ _ rfl]
    simp [Shape.children, SuperUse.operands, flatMap_key hφ (by simpa using target)]
  | assign target | compound target | update target =>
    have haccess := Shape.isAccess_of_superAccess? (by simpa using target)
    rw [hφ _ (by rwa [isUseForm, shape_node])]
    simp [Shape.children, SuperUse.operands, flatMap_key hφ (by simpa using target)]
  | get target => exact flatMap_key hφ target
  | bare => exact hφ _ rfl

omit hφ in

/-- What is collected from a use comes from its operands. -/
theorem flatMap_operands (hφ : ∀ t : Tree, t.shape.isGlue → φ t = t.shape.children.flatMap φ)
    {t : Tree} {use : SuperUse Tree} (h : t.superRole = .use use) : φ t = use.operands.flatMap φ :=
  flatMap_operands_of_useForm (fun t ht => hφ t (isGlue_of_isUseForm ht)) h

end Tree

end Declass
