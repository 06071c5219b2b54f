import Declass.Proofs.Lowering

/-!
# The rules of lowering, read backwards

Each construct has one rule, for the expansion of `super` and for the lowering of classes. This
module says which one it is, so that a derivation can be taken apart without a look at the rules
that do not apply, and gives the code that a use of `super` becomes as a function of the use and its
operands.

## Main definitions

* `SuperUse.Form` — the four ways in which a use of `super` is dealt with
* `Site.directCode`, `Site.boundCode` — the code of a use
* `Expands.Outcome` — what the expansion of a tree comes to

## Main results

* `Expands.outcome`
* `Lowers.of_plain`, `Lowers.of_owner`, `Lowers.of_classDecl`, `Lowers.of_classExpr`,
  `Lowers.of_member`
-/

namespace Declass

variable {α β : Type}

/-! ### Uses of `super` -/

/-- How a use of `super` is dealt with. -/
inductive SuperUse.Form where
  /-- The word stands alone and stays. -/
  | bare
  /-- A call of a constructor outside of one, which stays. -/
  | stray
  /-- A use that becomes code without a temporary. -/
  | direct
  /-- A use whose key is kept in a temporary. -/
  | bound

/-- How a use of `super` in a member of a given kind is dealt with. -/
def SuperUse.form (kind : MemberKind) : SuperUse α → SuperUse.Form
  | .bare _ => .bare
  | .call .. => if kind = .constructor then .direct else .stray
  | .compound ⟨_, .computed _⟩ _ _ | .update ⟨_, .computed _⟩ _ => .bound
  | _ => .direct

theorem SuperUse.form_map (kind : MemberKind) (f : α → β) (use : SuperUse α) :
    (use.map f).form kind = use.form kind := by
  cases use with
  | compound access | update access =>
    obtain ⟨word, key⟩ := access
    cases key <;> rfl
  | _ => rfl

namespace Site

variable {site : Site} {range : Option Range} {number : Nat} {use : SuperUse Tree}
  {operands : List Tree} {key t : Tree}

/-- The code of a use that needs no temporary. -/
def directCode (site : Site) (range : Option Range) : SuperUse Tree → List Tree → Tree
  | .call .., arguments => site.superCall (.text "constructor") arguments range
  | .methodCall ⟨_, .named name⟩ _, arguments => site.superCall (.text name) arguments range
  | .methodCall ⟨_, .computed _⟩ _, key :: arguments => site.superCall key arguments range
  | .assign ⟨_, .named name⟩ _, [value] => site.superSet (.text name) value range
  | .assign ⟨_, .computed _⟩ _, [key, value] => site.superSet key value range
  | .get ⟨_, .named name⟩, _ => site.superGet (.text name) range
  | .get ⟨_, .computed _⟩, [key] => site.superGet key range
  | .compound ⟨_, .named name⟩ operator _, [value] =>
    site.compound (.text name) operator value range
  | .update ⟨_, .named name⟩ operator, _ => site.update (.text name) operator range
  | _, _ => default

/-- The code of a use whose key is kept in a temporary. -/
def boundCode (site : Site) (range : Option Range) (number : Nat) (key : Tree) :
    SuperUse Tree → List Tree → Tree
  | .compound _ operator _, [value] =>
    sequence number key (site.compound (.temp number) operator value none) range
  | .update _ operator, _ => sequence number key (site.update (.temp number) operator none) range
  | _, _ => default

theorem Direct.form_eq (h : site.Direct range use operands t) : use.form site.kind = .direct := by
  cases h with
  | call kind => exact if_pos kind
  | _ => rfl

theorem Direct.eq_code (h : site.Direct range use operands t) :
    t = site.directCode range use operands := by
  cases h with
  | @methodCall access _ _ _ _ written | @assign access _ _ _ _ written | @get access _ _ written =>
    obtain ⟨word, accessKey⟩ := access
    dsimp only at written
    cases written <;> rfl
  | _ => rfl

theorem Bound.form_eq (h : site.Bound range number use key operands t) :
    use.form site.kind = .bound := by
  cases h <;> rfl

theorem Bound.eq_code (h : site.Bound range number use key operands t) :
    t = site.boundCode range number key use operands := by
  cases h <;> rfl

end Site

/-! ### Expansion -/

/-- The heritage of a class. -/
def Shape.heritage : Shape α → Option α
  | .classDecl _ heritage _ | .classExpr _ heritage _ => heritage
  | _ => none

/-- A class with another heritage. -/
def Shape.withHeritage (heritage : Option α) : Shape α → Shape α
  | .classDecl name _ members => .classDecl name heritage members
  | .classExpr name _ members => .classExpr name heritage members
  | shape => shape

/-- A class with another heritage. -/
def Tree.withHeritage (t : Tree) (heritage : Option Tree) : Tree :=
  .node t.origin (t.shape.withHeritage heritage) t.range

/-- What the expansion of a tree comes to, by what the tree has to do with `super`. -/
def Expands.Outcome (site : Site) (nested : Bool) (a : Account) (t : Tree) (ts' : List Tree)
    (a' : Account) : Prop :=
  match t.superRole with
  | .other => ∃ cs, Expands site nested a t.shape.children cs a' ∧ ts' = [t.withChildren cs]
  | .nestedFunction => ∃ cs, Expands site true a t.shape.children cs a' ∧ ts' = [t.withChildren cs]
  | .nestedClass => ∃ base : Option Tree,
      Expands site nested a t.shape.heritage.toList base.toList a' ∧ ts' = [t.withHeritage base]
  | .use use =>
    if nested then ts' = [t] ∧ a' = a.report use.word.range .superOutsideMember
    else match use.form site.kind with
      | .bare => ts' = [t] ∧ a' = a.report t.range .bareSuper
      | .stray => ∃ arguments,
          Expands site false (a.report use.word.range .superCallOutsideConstructor) use.operands
            arguments a' ∧
          ts' = [.node none (.call use.word arguments) t.range]
      | .direct => ∃ operands a₁, Expands site false a use.operands operands a₁ ∧
          ts' = [site.directCode t.range use operands] ∧ a' = a₁.withUsed true
      | .bound => ∃ index rest key rest' a₁ a₂, use.operands = index :: rest ∧
          Expands site false a [index] [key] a₁ ∧ Expands site false a₁.allocate rest rest' a₂ ∧
          ts' = [site.boundCode t.range a₁.fresh key use rest'] ∧ a' = a₂.withUsed true

namespace Expands

variable {site : Site} {nested : Bool} {a a' : Account} {t : Tree} {ts us : List Tree}

theorem uncons (h : Expands site nested a (t :: ts) us a') : ∃ t' ts' a₁, us = t' :: ts' ∧
    Expands site nested a [t] [t'] a₁ ∧ Expands site nested a₁ ts ts' a' := by
  cases ts with
  | nil =>
    obtain ⟨t', rfl⟩ := List.length_eq_one_iff.mp h.length_eq
    exact ⟨t', [], a', rfl, h, .nil⟩
  | cons u ts =>
    cases h with
    | cons head tail => exact ⟨_, _, _, rfl, head, tail⟩

/-- **Each tree has one rule.** -/
theorem outcome (h : Expands site nested a [t] us a') : Outcome site nested a t us a' := by
  generalize hts : [t] = ts at h
  cases h with
  | nil | cons => cases hts
  | walk role below =>
    cases hts
    rw [Outcome, role]
    exact ⟨_, below, rfl⟩
  | enter role below =>
    cases hts
    rw [Outcome, role]
    exact ⟨_, below, rfl⟩
  | classDecl below | classExpr below =>
    cases hts
    exact ⟨_, below, rfl⟩
  | misplaced role =>
    cases hts
    rw [Outcome, role]
    exact ⟨rfl, rfl⟩
  | bare role =>
    cases hts
    rw [Outcome, role]
    exact ⟨rfl, rfl⟩
  | stray role kind below =>
    cases hts
    rw [Outcome, role]
    simp only [Bool.false_eq_true, if_false, SuperUse.form, if_neg kind]
    exact ⟨_, below, rfl⟩
  | direct role below code =>
    cases hts
    rw [Outcome, role]
    simp only [Bool.false_eq_true, if_false, code.form_eq]
    exact ⟨_, _, below, by rw [code.eq_code], rfl⟩
  | bound role operands keyed below code =>
    cases hts
    rw [Outcome, role]
    simp only [Bool.false_eq_true, if_false, code.form_eq]
    exact ⟨_, _, _, _, _, _, operands, keyed, below, by rw [code.eq_code], rfl⟩

end Expands

/-! ### Lowering -/

namespace Lowers

variable {options : Options} {c : String} {a a' : Account} {t name : Tree} {us members : List Tree}
  {o : Option NodeId} {r : Option Range} {heritage : Option Tree}

theorem of_nil {c : Option String} (h : Lowers options c a [] us a') : us = [] ∧ a' = a := by
  cases h
  exact ⟨rfl, rfl⟩

/-- How what is no class and no scope is lowered. -/
theorem of_plain (plain : t.shape.isClass = false) (shared : t.shape.ownsTemps = false)
    (h : Lowers options none a [t] us a') :
    ∃ cs, Lowers options none a t.shape.children cs a' ∧ us = [t.withChildren cs] := by
  generalize hts : [t] = ts at h
  cases h with
  | walk _ _ below =>
    cases hts
    exact ⟨_, below, rfl⟩
  | scope owner =>
    cases hts
    simp [shared] at owner
  | nil | cons => cases hts
  | classDecl | classExprBound | classExprFree =>
    cases hts
    cases plain

/-- How what has temporaries of its own is lowered. -/
theorem of_owner (owner : t.shape.ownsTemps = true) (h : Lowers options none a [t] us a') :
    ∃ cs a₁, Lowers options none a.openScope t.shape.children cs a₁ ∧
      us = [(t.withChildren cs).declaring a₁.held] ∧ a' = a₁.closeScope := by
  generalize hts : [t] = ts at h
  cases h with
  | walk _ shared =>
    cases hts
    simp [owner] at shared
  | scope _ below =>
    cases hts
    exact ⟨_, _, below, rfl, rfl⟩
  | nil | cons => cases hts
  | classDecl | classExprBound | classExprFree =>
    cases hts
    cases owner

/-- How a class declaration is lowered. -/
theorem of_classDecl
    (h : Lowers options none a [.node o (.classDecl name heritage members) r] us a') :
    ∃ c base properties a₁ a₂, name.name? = some c ∧
      Lowers options none a heritage.toList base.toList a₁ ∧
      Lowers options (some c) (a₁.withUsed false) (Tree.withConstructor members base.isSome)
        properties a₂ ∧
      us = [.declareClass options name
        (.createClass options properties (Tree.hasConstructor members) base r) r] ∧
      a' = a₂.withUsed a₁.used := by
  cases h with
  | walk plain => cases plain
  | scope owner => cases owner
  | classDecl named above below => exact ⟨_, _, _, _, _, named, above, below, rfl, rfl⟩

/-- How a class expression is lowered. -/
theorem of_classExpr {name : Option Tree}
    (h : Lowers options none a [.node o (.classExpr name heritage members) r] us a') :
    ∃ base properties a₁ a₂, Lowers options none a.allocate heritage.toList base.toList a₁ ∧
      Lowers options (some (Temps.name a.fresh)) (a₁.withUsed false)
        (Tree.withConstructor members base.isSome) properties a₂ ∧
      (us, a') = if a₂.used then
          ([.node none (.paren (.assign (.temp a.fresh)
            (.createClass options properties (Tree.hasConstructor members) base r))) r],
            a₂.withUsed a₁.used)
        else
          ([.createClass options properties (Tree.hasConstructor members) base r],
            (a₂.withUsed a₁.used).release a.fresh) := by
  cases h with
  | walk plain => cases plain
  | scope owner => cases owner
  | classExprBound above below used =>
    exact ⟨_, _, _, _, above, below, by rw [if_pos used]⟩
  | classExprFree above below unused =>
    exact ⟨_, _, _, _, above, below, by rw [if_neg (by simp [unused])]⟩

/-- How a member is lowered. -/
theorem of_member (h : Lowers options (some c) a [t] us a') :
    ∃ kind cs cs' a₁ a₂, MemberKind.ofShape? t.shape = some kind ∧
      Expands ⟨c, options.runtimeName, kind⟩ false a.openScope t.shape.children cs a₁ ∧
      Lowers options none a₁ cs cs' a₂ ∧
      us = [Tree.asProperty kind ((t.withChildren cs').declaring a₂.held)] ∧
      a' = a₂.closeScope := by
  cases h with
  | member legal expanded below => exact ⟨_, _, _, _, _, legal, expanded, below, rfl, rfl⟩

end Lowers

end Declass
