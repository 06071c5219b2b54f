import Declass.Code.Shape

/-!
# Shapes and their children

A shape is determined by its construct, the words in it, and the list of its children. `refill`
makes this usable: it puts a list of new children in the places of the old ones. A visit of a shape
is then a visit of the list of its children followed by `refill`, in every monad, so that facts on
visits are facts on lists.

A list of another length than that of the children leaves `refill` with no sensible answer. It is
total all the same; the laws that need the length ask for it.

## Main definitions

* `Shape.refill` — the shape with other children

## Main results

* `Shape.mapM_eq_refill` — a visit of a shape is a visit of its children
* `Shape.children_refill`, `Shape.refill_refill`, `Shape.map_eq_refill`
* `Shape.exists_pairs` — a shape and its refilling as the two sides of a shape of pairs
-/

namespace Declass

namespace Shape

variable {α β γ : Type}

/-- The shape with the children `bs` in the places of its own. -/
def refill [Inhabited β] : Shape α → List β → Shape β
  | .program _, bs => .program bs
  | .block _, bs => .block bs
  | .varStatement keyword _, bs => .varStatement keyword bs
  | .declarator _ value, bs => .declarator bs.head! (value.map fun _ => bs.tail.head!)
  | .functionDecl _ _ _, bs => .functionDecl bs.head! bs.tail.dropLast bs.tail.getLast!
  | .classDecl _ none _, bs => .classDecl bs.head! none bs.tail
  | .classDecl _ (some _) _, bs => .classDecl bs.head! (some bs.tail.head!) bs.tail.tail
  | .exprStatement _, bs => .exprStatement bs.head!
  | .returnStatement expression, bs => .returnStatement (expression.map fun _ => bs.head!)
  | .ifStatement _ _ alternative, bs =>
    .ifStatement bs.head! bs.tail.head! (alternative.map fun _ => bs.tail.tail.head!)
  | .whileStatement _ _, bs => .whileStatement bs.head! bs.tail.head!
  | .forStatement start condition step _, bs =>
    let afterStart := bs.drop start.toList.length
    let afterCondition := afterStart.drop condition.toList.length
    .forStatement (start.map fun _ => bs.head!) (condition.map fun _ => afterStart.head!)
      (step.map fun _ => afterCondition.head!) bs.getLast!
  | .throwStatement _, bs => .throwStatement bs.head!
  | .tryStatement _ handler finalizer, bs =>
    .tryStatement bs.head! (handler.map fun _ => bs.tail.head!)
      (finalizer.map fun _ => bs.getLast!)
  | .catchClause _ _, bs => .catchClause bs.head! bs.tail.head!
  | .emptyStatement, _ => .emptyStatement
  | .binding name, _ => .binding name
  | .parameter _ value rest, bs => .parameter bs.head! (value.map fun _ => bs.tail.head!) rest
  | .identifier name, _ => .identifier name
  | .thisExpr, _ => .thisExpr
  | .superExpr, _ => .superExpr
  | .literal value, _ => .literal value
  | .array _, bs => .array bs
  | .object _, bs => .object bs
  | .property name _, bs => .property name bs.head!
  | .method name _ _, bs => .method name bs.dropLast bs.getLast!
  | .getter name _, bs => .getter name bs.head!
  | .setter name _ _, bs => .setter name bs.head! bs.tail.head!
  | .functionExpr none _ _, bs => .functionExpr none bs.dropLast bs.getLast!
  | .functionExpr (some _) _ _, bs =>
    .functionExpr (some bs.head!) bs.tail.dropLast bs.tail.getLast!
  | .arrow _ _, bs => .arrow bs.dropLast bs.getLast!
  | .classExpr name heritage _, bs =>
    let afterName := bs.drop name.toList.length
    .classExpr (name.map fun _ => bs.head!) (heritage.map fun _ => afterName.head!)
      (afterName.drop heritage.toList.length)
  | .call _ _, bs => .call bs.head! bs.tail
  | .newExpr _ _, bs => .newExpr bs.head! bs.tail
  | .member _ name, bs => .member bs.head! name
  | .lookup _ _, bs => .lookup bs.head! bs.tail.head!
  | .binary _ operator _, bs => .binary bs.head! operator bs.tail.head!
  | .unary operator _, bs => .unary operator bs.head!
  | .conditional _ _ _, bs => .conditional bs.head! bs.tail.head! bs.tail.tail.head!
  | .paren _, bs => .paren bs.head!
  | .comma _, bs => .comma bs
  | .spread _, bs => .spread bs.head!

/-- A run over a shape is one over the list of its children. -/
theorem mapM_eq_refill [Inhabited β] {m : Type → Type} [Monad m] [LawfulMonad m]
    (f : α → m β) (s : Shape α) : s.mapM f = s.refill <$> s.children.mapM f := by
  cases s
  case program | block | varStatement | array | object | comma =>
    simp only [mapM, children, bind_pure_comp]
    rfl
  case functionDecl | method | arrow => simp [mapM, children, refill, List.head!]
  case functionExpr name _ _ => cases name <;> simp [mapM, children, refill, List.head!]
  case' forStatement start condition step _ => cases start <;> cases condition <;> cases step
  case' tryStatement _ o₁ o₂ | classExpr o₁ o₂ _ => cases o₁ <;> cases o₂
  case' classDecl _ option _ | declarator _ option | parameter _ option _ | returnStatement option
      | ifStatement _ _ option => cases option
  all_goals
    simp only [mapM, children, Option.mapM_some, Option.mapM_none, Option.toList_some,
      Option.toList_none, List.nil_append, List.cons_append, List.mapM_cons, List.mapM_nil,
      bind_pure_comp, bind_map_left, pure_bind, map_bind, map_pure, Functor.map_map]
    rfl

private theorem dropLast_append_getLast [Inhabited β] (b : β) (bs : List β) :
    (b :: bs).dropLast ++ [(b :: bs).getLast?.getD default] = b :: bs := by
  have h : b :: bs ≠ [] := List.cons_ne_nil b bs
  rw [List.getLast?_eq_some_getLast h, Option.getD_some, List.dropLast_concat_getLast h]

/-- The new children are in the places of the old ones. -/
@[simp]
theorem children_refill [Inhabited β] {s : Shape α} {bs : List β}
    (h : bs.length = s.children.length) : (s.refill bs).children = bs := by
  cases s with
  | program | block | varStatement | array | object | comma => rfl
  | emptyStatement | binding | identifier | thisExpr | superExpr | literal =>
    exact (List.length_eq_zero_iff.mp h).symm
  | exprStatement | throwStatement | property | getter | member | unary | paren | spread =>
    match bs, (h : bs.length = 1) with
    | [_], _ => rfl
  | whileStatement | catchClause | setter | lookup | binary =>
    match bs, (h : bs.length = 2) with
    | [_, _], _ => rfl
  | conditional =>
    match bs, (h : bs.length = 3) with
    | [_, _, _], _ => rfl
  | call | newExpr =>
    match bs, (h : bs.length = _ + 1) with
    | _ :: _, _ => rfl
  | functionDecl | method | arrow =>
    rcases bs with _ | ⟨b, _ | ⟨c, bs⟩⟩ <;>
      simp_all [children, refill, List.head!, dropLast_append_getLast]
  | functionExpr name _ _ =>
    cases name <;> rcases bs with _ | ⟨b, _ | ⟨c, bs⟩⟩ <;>
      simp_all [children, refill, List.head!, dropLast_append_getLast]
  | forStatement start condition step body =>
    cases start <;> cases condition <;> cases step <;>
      rcases bs with _ | ⟨a, _ | ⟨b, _ | ⟨c, _ | ⟨d, _ | ⟨e, bs⟩⟩⟩⟩⟩ <;>
      first | rfl | cases h
  | tryStatement _ o₁ o₂ | classExpr o₁ o₂ _ =>
    cases o₁ <;> cases o₂ <;> rcases bs with _ | ⟨a, _ | ⟨b, _ | ⟨c, _ | ⟨d, bs⟩⟩⟩⟩ <;>
      first | rfl | cases h
  | classDecl _ option _ | declarator _ option | parameter _ option _
  | returnStatement option | ifStatement _ _ option =>
    cases option <;> rcases bs with _ | ⟨a, _ | ⟨b, _ | ⟨c, _ | ⟨d, bs⟩⟩⟩⟩ <;>
      first | rfl | cases h

/-- Of new children twice, the second ones stay. -/
@[simp]
theorem refill_refill [Inhabited β] [Inhabited γ] (s : Shape α) (bs : List β) (cs : List γ) :
    (s.refill bs).refill cs = s.refill cs := by
  cases s with
  | forStatement start condition step body =>
    cases start <;> cases condition <;> cases step <;> rfl
  | tryStatement _ o₁ o₂ | classExpr o₁ o₂ _ => cases o₁ <;> cases o₂ <;> rfl
  | classDecl _ option _ | functionExpr option _ _ | declarator _ option | parameter _ option _
  | returnStatement option | ifStatement _ _ option => cases option <;> rfl
  | _ => rfl

/-- To map a shape is to map the children. -/
theorem map_eq_refill [Inhabited β] (f : α → β) (s : Shape α) :
    s.map f = s.refill (s.children.map f) := by
  cases s with
  | forStatement start condition step body =>
    cases start <;> cases condition <;> cases step <;> simp [map, children, refill, List.head!]
  | tryStatement _ o₁ o₂ | classExpr o₁ o₂ _ =>
    cases o₁ <;> cases o₂ <;> simp [map, children, refill, List.head!]
  | classDecl _ option _ | functionExpr option _ _ | declarator _ option | parameter _ option _
  | returnStatement option | ifStatement _ _ option =>
    cases option <;> simp [map, children, refill, List.head!]
  | _ => simp [map, children, refill, List.head!]

/-- Maps that agree on the children agree on the shape. -/
theorem map_congr [Inhabited β] {f g : α → β} {s : Shape α}
    (h : ∀ c ∈ s.children, f c = g c) : s.map f = s.map g := by
  rw [map_eq_refill, map_eq_refill, List.map_congr_left h]

/-- A shape with its own children is the same shape. -/
@[simp]
theorem refill_children [Inhabited α] (s : Shape α) : s.refill s.children = s := by
  simpa using (map_eq_refill id s).symm

/-- To map new children is to fill in mapped ones. -/
theorem map_refill [Inhabited β] [Inhabited γ] (f : β → γ) {s : Shape α} {bs : List β}
    (h : bs.length = s.children.length) : (s.refill bs).map f = s.refill (bs.map f) := by
  rw [map_eq_refill, children_refill h, refill_refill]

/-- The old children do not matter to the new ones. -/
@[simp]
theorem refill_map [Inhabited β] [Inhabited γ] (f : α → β) (s : Shape α) (cs : List γ) :
    (s.map f).refill cs = s.refill cs := by
  rw [map_eq_refill, refill_refill]

/-- Two shapes that differ in their children only are the two sides of a shape of pairs. -/
theorem exists_pairs [Inhabited α] [Inhabited β] {s : Shape α} {bs : List β}
    (h : bs.length = s.children.length) :
    ∃ z : Shape (α × β), s = z.map Prod.fst ∧ s.refill bs = z.map Prod.snd ∧
      z.children = s.children.zip bs := by
  have hzip : (s.children.zip bs).length = s.children.length := by simp [h]
  refine ⟨s.refill (s.children.zip bs), ?_, ?_, children_refill hzip⟩
  · rw [map_refill _ hzip, List.map_fst_zip (Nat.le_of_eq h.symm), refill_children]
  · rw [map_refill _ hzip, List.map_snd_zip (Nat.le_of_eq h)]

end Shape

end Declass
