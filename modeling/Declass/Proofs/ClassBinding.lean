import Declass.Proofs.Bounds
import Declass.Proofs.Collisions
import Declass.Proofs.Inversion
import Declass.Proofs.SuperFlag

/-!
# When a class expression is kept in a temporary

A class expression has no name that its members could use to find the class of their `super`, so a
temporary is set aside for it before it is lowered. If a member needs the class, the temporary is
assigned to and stays in the scope around the class. Otherwise it is given back. This module says
when that is, in terms of the class alone: a member of its own has a use of `super`, or the class
has a base and leaves its constructor out. Classes inside the members have temporaries of their own,
and what they do with them has no influence.

While the class is lowered its temporary is in use. So all others that are handed out meanwhile are
different from it, and a class that does without it has it nowhere in its code.

## Main definitions

* `Tree.OwnsSuper` — a member with a use of `super` of its own
* `Lowers.Spares` — the temporaries in use are not brought into code

## Main results

* `Tree.usesSuper_iff` — which classes need to be kept
* `Lowers.exists_ledger` — the temporaries of a lowering, whatever names are in the program
* `Lowers.rename` — the code of members without `super` does not depend on the name of their class
* `lowerNode_classExpr_binds` — when a class expression is kept in a temporary
-/

namespace Declass

open Edit Lowering

variable {options : Options} {a a₁ a₂ a' : Account}

/-! ### Classes that are kept -/

namespace Tree

/-- A member of a class with a use of `super` that belongs to it and is in its place. -/
def OwnsSuper (t : Tree) : Prop :=
  ∃ kind, MemberKind.ofShape? t.shape = some kind ∧ ∃ c ∈ t.shape.children, c.HasSuper kind

theorem ownsSuper_iff {t : Tree} : t.OwnsSuper ↔ t.memberScopes ≠ [] := by
  rw [OwnsSuper, memberScopes]
  cases hkind : MemberKind.ofShape? t.shape with
  | none => simp
  | some kind =>
    have plain := isClass_of_ownsTemps (ownsTemps_of_ofShape? hkind)
    simp [flatMap_placed_eq_nil_iff plain, hasSuper_iff]

instance decidableOwnsSuper (t : Tree) : Decidable t.OwnsSuper :=
  decidable_of_iff _ ownsSuper_iff.symm

/-- The constructor that is made for a class needs the class iff there is a base. -/
theorem memberScopes_defaultConstructor (hasBase : Bool) :
    (defaultConstructor hasBase).memberScopes ≠ [] ↔ hasBase = true := by
  cases hasBase <;> decide +kernel

/-- **Which classes need to be kept:** those with a member that has a use of `super` of its own, and
those with a base and without a constructor. -/
theorem usesSuper_iff {members : List Tree} {hasBase : Bool} :
    usesSuper members hasBase = true ↔
      (∃ m ∈ members, m.OwnsSuper) ∨ hasBase = true ∧ hasConstructor members = false := by
  have hmember (m : Tree) : (!m.memberScopes.isEmpty) = true ↔ m.OwnsSuper := by
    simp [ownsSuper_iff]
  rw [usesSuper, List.any_eq_true, withConstructor]
  split
  case isTrue hctor => simp [hmember, hctor]
  case isFalse hctor =>
    have hdefault := memberScopes_defaultConstructor hasBase
    rw [← ownsSuper_iff] at hdefault
    simp [hmember, or_and_right, exists_or, hdefault, hctor]

end Tree

/-! ### The temporaries of a lowering -/

/-- An expansion allocates temporaries and does nothing else to them. -/
theorem Expands.exists_ledger {site : Site} {nested : Bool} {ts ts' : List Tree}
    (h : Expands site nested a ts ts' a') (sound : a.temps.Sound) :
    ∃ held, a.Ledger a' held [] := by
  have hiterate (k : Nat) : ∀ a : Account, a.temps.Sound → ∃ held,
      a.Ledger { a with temps := (fun t => t.allocate.2)^[k] a.temps } held [] := by
    induction k with
    | zero => exact fun a sound => ⟨[], .refl sound⟩
    | succ k ih =>
      intro a sound
      obtain ⟨held, hledger⟩ := ih a.allocate sound.allocate
      exact ⟨_, (Account.Ledger.allocate sound).trans hledger⟩
  obtain ⟨held, hledger⟩ := hiterate _ a sound
  exact ⟨held, hledger.congr rfl h.temps_eq⟩

/-- **The temporaries of a lowering,** whatever names are in the program. -/
theorem Lowers.exists_ledger {c : Option String} {ts ts' : List Tree}
    (h : Lowers options c a ts ts' a') (hscopes : a.temps.scopes ≠ []) (sound : a.temps.Sound) :
    ∃ held closed, a.Ledger a' held closed := by
  have hopen {a : Account} (sound : a.temps.Sound) : a.openScope.temps.Sound :=
    ⟨sound.nodup, sound.lt_next⟩
  induction h with
  | nil => exact ⟨[], [], .refl sound⟩
  | cons _ _ ihHead ihTail =>
    obtain ⟨_, _, head⟩ := ihHead hscopes sound
    obtain ⟨_, _, tail⟩ := ihTail (head.scopes_ne_nil hscopes) head.sound
    exact ⟨_, _, head.trans tail⟩
  | walk _ _ _ ih => exact ih hscopes sound
  | scope _ _ ih =>
    obtain ⟨_, _, below⟩ := ih (List.cons_ne_nil _ _) (hopen sound)
    exact ⟨_, _, below.close⟩
  | classDecl _ _ _ ihAbove ihBelow =>
    obtain ⟨_, _, above⟩ := ihAbove hscopes sound
    obtain ⟨_, _, below⟩ := ihBelow (above.scopes_ne_nil hscopes) above.sound
    exact ⟨_, _, above.trans (below.congr rfl rfl)⟩
  | classExprBound _ _ _ ihAbove ihBelow =>
    have fresh := Account.Ledger.allocate sound
    obtain ⟨_, _, above⟩ := ihAbove (fresh.scopes_ne_nil hscopes) fresh.sound
    obtain ⟨_, _, below⟩ := ihBelow (above.scopes_ne_nil (fresh.scopes_ne_nil hscopes)) above.sound
    exact ⟨_, _, fresh.trans (above.trans (below.congr rfl rfl))⟩
  | classExprFree _ _ _ ihAbove ihBelow =>
    have fresh := Account.Ledger.allocate sound
    obtain ⟨_, _, above⟩ := ihAbove (fresh.scopes_ne_nil hscopes) fresh.sound
    obtain ⟨_, _, below⟩ := ihBelow (above.scopes_ne_nil (fresh.scopes_ne_nil hscopes)) above.sound
    have hheld := (fresh.trans (above.trans (below.congr rfl rfl))).release hscopes
    exact ⟨_, _, hheld.congr rfl rfl⟩
  | member _ expanded _ ih =>
    obtain ⟨_, expanded'⟩ := expanded.exists_ledger (hopen sound)
    obtain ⟨_, _, below⟩ := ih (expanded'.scopes_ne_nil (List.cons_ne_nil _ _)) expanded'.sound
    exact ⟨_, _, (expanded'.trans below).close⟩

/-! ### The name of a class -/

/-- An expansion that does not use `super` does not depend on the class it is for. -/
theorem Expands.rename {site : Site} {nested : Bool} {ts ts' : List Tree}
    (h : Expands site nested a ts ts' a') (unused : a'.used = false) (d : String) :
    Expands { site with className := d } nested a ts ts' a' := by
  induction h with
  | nil => exact .nil
  | cons _ tail ihHead ihTail =>
    refine .cons (ihHead (Bool.eq_false_iff.mpr fun hused => ?_)) (ihTail unused)
    rw [tail.extends.used hused] at unused
    cases unused
  | walk role _ ih => exact .walk role (ih unused)
  | enter role _ ih => exact .enter role (ih unused)
  | classDecl _ ih => exact .classDecl (ih unused)
  | classExpr _ ih => exact .classExpr (ih unused)
  | misplaced role => exact .misplaced role
  | bare role => exact .bare role
  | stray role kind _ ih => exact .stray role kind (ih unused)
  | direct | bound => cases unused

/-- **The code of members without `super` does not depend on the name of their class.** -/
theorem Lowers.rename {c : String} {ts ts' : List Tree} (h : Lowers options (some c) a ts ts' a')
    (unused : a'.used = false) (d : String) : Lowers options (some d) a ts ts' a' := by
  generalize hc : some c = cx at h
  induction h with
  | nil => exact .nil
  | cons _ tail ihHead ihTail =>
    refine .cons (ihHead (Bool.eq_false_iff.mpr fun hused => ?_) hc) (ihTail unused hc)
    rw [tail.used_eq.2 hused] at unused
    cases unused
  | walk | scope | classDecl | classExprBound | classExprFree => cases hc
  | member legal expanded below _ =>
    refine .member legal (expanded.rename ?_ d) below
    exact (below.used_eq.1 rfl).symm.trans unused

/-! ### Names in the code -/

open Declass.Tree

theorem name_ne_name_fresh {n : Nat} (inUse : a.temps.InUse n) :
    Temps.name n ≠ Temps.name a.fresh := by
  intro heq
  rw [Temps.name_injective heq] at inUse
  exact a.temps.not_inUse_allocate inUse

/-- The temporaries in use are not brought into code by an expansion of `super`, unless one is the
namespace of the helpers or the class. -/
theorem Expands.occurrence {site : Site} {nested : Bool} {ts ts' : List Tree} {n : Nat}
    (h : Expands site nested a ts ts' a') (sound : a.temps.Sound) (inUse : a.temps.InUse n)
    (mem : .occurrence (Temps.name n) ∈ ts'.flatMap marks) :
    .occurrence (Temps.name n) ∈ ts.flatMap marks ∨
      Allowed site.runtimeName (some site.className) a'.used (Temps.name n) := by
  have hnames {name : String} (h : site.Names name) :
      Allowed site.runtimeName (some site.className) true name := by
    rcases h with rfl | rfl
    · exact .inl rfl
    · exact .inr (.inr ⟨rfl, rfl⟩)
  induction h with
  | nil => cases mem
  | cons head tail ihHead ihTail =>
    obtain ⟨_, hledger⟩ := head.exists_ledger sound
    simp only [List.flatMap_cons, List.flatMap_nil, List.append_nil, List.mem_append]
      at mem ihHead ihTail ⊢
    rcases mem with mem | mem
    · exact (ihHead sound inUse mem).imp .inl fun h => h.mono tail.extends.used
    · exact (ihTail hledger.sound (hledger.inUse_of_inUse inUse) mem).imp_left .inr
  | walk role below ih | enter role below ih =>
    have plain := isClass_of_superRole_ne (by rw [role]; simp)
    rw [List.flatMap_singleton, marks_withChildren below.sameNames plain] at mem
    rw [List.flatMap_singleton, marks_of_plain plain]
    rcases List.mem_append.mp mem with mem | mem
    · exact .inl (List.mem_append_left _ mem)
    · exact (ih sound inUse mem).imp_left (List.mem_append_right _)
  | classDecl _ ih =>
    simp only [List.flatMap_singleton, marks_classDecl, List.mem_append] at mem ⊢
    rcases mem with mem | mem | mem
    · exact .inl (.inl mem)
    · exact (ih sound inUse mem).imp_left fun mem => .inr (.inl mem)
    · exact .inl (.inr (.inr mem))
  | classExpr _ ih =>
    simp only [List.flatMap_singleton, marks_classExpr, List.mem_append] at mem ⊢
    rcases mem with mem | mem
    · exact (ih sound inUse mem).imp_left .inl
    · exact .inl (.inr mem)
  | misplaced | bare => exact .inl mem
  | stray role _ _ ih =>
    rw [List.flatMap_singleton, marks_strayCall role] at mem
    rw [List.flatMap_singleton, marks_of_superRole role]
    exact ih sound inUse mem
  | direct role _ code ih =>
    obtain ⟨pieces, hpieces, hcode⟩ := code.exists_pieces
    rw [List.flatMap_singleton, hcode passes_marks] at mem
    rw [List.flatMap_singleton, marks_of_superRole role]
    rcases List.mem_append.mp mem with mem | mem
    · obtain ⟨_, ⟨⟩, hname⟩ := marks_pieces hpieces _ mem
      exact .inr (hnames hname)
    · exact (ih sound inUse mem).imp_right fun h => h.mono fun _ => rfl
  | @bound _ a₁ _ _ _ _ _ _ _ _ role operands keyed below code ihKey ihRest =>
    obtain ⟨_, hledger⟩ := keyed.exists_ledger sound
    have inUse₁ := hledger.inUse_of_inUse inUse
    have fresh := Account.Ledger.allocate hledger.sound
    have hne := name_ne_name_fresh inUse₁
    obtain ⟨pieces, hpieces, hcode⟩ := code.exists_pieces
    simp only [List.flatMap_singleton, hcode passes_marks, marks_assign, List.mem_append,
      List.mem_cons, reduceCtorEq, Mark.occurrence.injEq, false_or, hne] at mem
    rw [List.flatMap_singleton, marks_of_superRole role, operands, List.flatMap_cons,
      List.mem_append]
    rw [List.flatMap_singleton, List.flatMap_singleton] at ihKey
    rcases mem with mem | mem | mem
    · exact (ihKey sound inUse mem).imp .inl fun h => h.mono fun _ => rfl
    · obtain ⟨_, ⟨⟩, hname | hname⟩ := marks_pieces hpieces _ mem
      · exact .inr (hnames hname)
      · exact absurd hname hne
    · exact (ihRest fresh.sound (fresh.inUse_of_inUse inUse₁) mem).imp .inr
        fun h => h.mono fun _ => rfl

/-- The temporaries in use are not brought into the code of trees that are lowered, unless one is
the namespace of the helpers or, if the trees are members that use `super`, their class. -/
def Lowers.Spares (options : Options) (c : Option String) (a a' : Account) (ts ts' : List Tree) :
    Prop :=
  a.temps.scopes ≠ [] → a.temps.Sound → ∀ n, a.temps.InUse n →
    .occurrence (Temps.name n) ∈ ts'.flatMap marks →
    .occurrence (Temps.name n) ∈ ts.flatMap marks ∨
      Allowed options.runtimeName c a'.used (Temps.name n)

/-- The call that makes a class, from what its heritage and its members have become. -/
theorem Lowers.Spares.createClass {c : String} {heritage base : Option Tree}
    {members properties : List Tree} {n : Nat}
    (above : Lowers options none a heritage.toList base.toList a₁)
    (spares : Lowers.Spares options none a a₁ heritage.toList base.toList)
    (spares' : Lowers.Spares options (some c) (a₁.withUsed false) a₂
      (withConstructor members base.isSome) properties)
    (hscopes : a.temps.scopes ≠ []) (sound : a.temps.Sound) (inUse : a.temps.InUse n)
    {hasConstructor : Bool} {r : Option Range}
    (mem : .occurrence (Temps.name n) ∈
      (Tree.createClass options properties hasConstructor base r).marks) :
    .occurrence (Temps.name n) ∈ heritage.toList.flatMap marks ++ members.flatMap marks ∨
      Allowed options.runtimeName (some c) a₂.used (Temps.name n) := by
  obtain ⟨_, _, hledger⟩ := above.exists_ledger hscopes sound
  rw [marks_createClass, List.mem_cons, List.mem_append] at mem
  rw [List.mem_append]
  rcases mem with mem | mem | mem
  · exact .inr (.inl (Mark.occurrence.inj mem))
  · obtain h | h := spares' (hledger.scopes_ne_nil hscopes) hledger.sound n
      (hledger.inUse_of_inUse inUse) mem
    · exact (occurrence_withConstructor h).imp .inr fun h => .inr (.inl h)
    · exact .inr h
  · exact (spares hscopes sound n inUse mem).imp .inl .of_none

/-- The same for a class expression. Its name is a temporary that is not in use yet. -/
theorem Lowers.Spares.classExpr {heritage base : Option Tree} {members properties : List Tree}
    {n : Nat} {used : Bool}
    (above : Lowers options none a.allocate heritage.toList base.toList a₁)
    (spares : Lowers.Spares options none a.allocate a₁ heritage.toList base.toList)
    (spares' : Lowers.Spares options (some (Temps.name a.fresh)) (a₁.withUsed false) a₂
      (withConstructor members base.isSome) properties)
    (hscopes : a.temps.scopes ≠ []) (sound : a.temps.Sound) (inUse : a.temps.InUse n)
    {hasConstructor : Bool} {r : Option Range}
    (mem : .occurrence (Temps.name n) ∈
      (Tree.createClass options properties hasConstructor base r).marks) :
    .occurrence (Temps.name n) ∈ heritage.toList.flatMap marks ++ members.flatMap marks ∨
      Allowed options.runtimeName none used (Temps.name n) := by
  have fresh := Account.Ledger.allocate sound
  refine (spares.createClass above spares' (fresh.scopes_ne_nil hscopes) fresh.sound
    (fresh.inUse_of_inUse inUse) mem).imp_right fun h => ?_
  exact h.of_some.resolve_right fun h => name_ne_name_fresh inUse h.2

/-- A program or a function whose parts have been lowered. -/
theorem occurrence_declaring {t : Tree} {cs : List Tree} {n : Nat} {held closed : List Nat}
    (hledger : a.openScope.Ledger a' held closed) (owner : t.shape.ownsTemps = true)
    (same : List.Forall₂ SameNames t.shape.children cs) (inUse : a.temps.InUse n)
    (mem : .occurrence (Temps.name n) ∈ ((t.withChildren cs).declaring a'.held).marks) :
    .occurrence (Temps.name n) ∈ cs.flatMap marks := by
  have howner := (ownsTemps_withChildren t cs).trans owner
  have hchildren : (t.withChildren cs).shape.children = cs :=
    Shape.children_refill same.length_eq.symm
  rw [(marks_declaring howner a'.held).mem_iff, List.mem_append, marks_declareTemps,
    marks_of_isUnmarked (isUnmarked_of_ownsTemps howner), hchildren] at mem
  -- What the scope holds in the end was not in use when it was opened.
  refine mem.resolve_left fun mem => ?_
  obtain ⟨m, hm, mem⟩ := List.mem_flatMap.mp mem
  obtain rfl : n = m := by simpa [Temps.name_injective.eq_iff] using mem
  exact hledger.fresh n (List.mem_append_left _ (hledger.held_perm.mem_iff.mp hm)) inUse

/-- **The temporaries in use are not brought into code.** -/
theorem Lowers.spares {c : Option String} {ts ts' : List Tree} (h : Lowers options c a ts ts' a') :
    Lowers.Spares options c a a' ts ts' := by
  have hopen {a : Account} (sound : a.temps.Sound) : a.openScope.temps.Sound :=
    ⟨sound.nodup, sound.lt_next⟩
  induction h with
  | nil => exact fun _ _ _ _ mem => .inl mem
  | cons head tail ihHead ihTail =>
    intro hscopes sound n inUse mem
    obtain ⟨_, _, hledger⟩ := head.exists_ledger hscopes sound
    have ihHead := ihHead hscopes sound n inUse
    have ihTail := ihTail (hledger.scopes_ne_nil hscopes) hledger.sound n
      (hledger.inUse_of_inUse inUse)
    simp only [List.flatMap_cons, List.flatMap_nil, List.append_nil, List.mem_append]
      at mem ihHead ihTail ⊢
    rcases mem with mem | mem
    · exact (ihHead mem).imp .inl fun h => h.mono tail.used_eq.2
    · exact (ihTail mem).imp_left .inr
  | walk plain _ below ih =>
    intro hscopes sound n inUse mem
    rw [List.flatMap_singleton, marks_withChildren below.sameNames plain] at mem
    rw [List.flatMap_singleton, marks_of_plain plain]
    rcases List.mem_append.mp mem with mem | mem
    · exact .inl (List.mem_append_left _ mem)
    · exact (ih hscopes sound n inUse mem).imp_left (List.mem_append_right _)
  | scope owner below ih =>
    intro _ sound n inUse mem
    obtain ⟨_, _, hledger⟩ := below.exists_ledger (List.cons_ne_nil _ _) (hopen sound)
    rw [List.flatMap_singleton] at mem
    rw [List.flatMap_singleton, marks_of_isUnmarked (isUnmarked_of_ownsTemps owner)]
    exact ih (List.cons_ne_nil _ _) (hopen sound) n inUse
      (occurrence_declaring hledger owner below.sameNames inUse mem)
  | classDecl named above _ ihAbove ihBelow =>
    intro hscopes sound n inUse mem
    rw [List.flatMap_singleton, marks_declareClass _ named] at mem
    rw [List.flatMap_singleton, marks_classDecl, marks_of_name? named]
    simp only [List.mem_cons, reduceCtorEq, Mark.occurrence.injEq, false_or] at mem
    rcases mem with hname | mem
    · exact .inl (by simp [hname])
    · rcases ihAbove.createClass above ihBelow hscopes sound inUse mem with h | h
      · exact .inl (List.mem_append_right _ h)
      · rcases h.of_some with h | ⟨-, hname⟩
        · exact .inr h
        · exact .inl (by simp [hname])
  | classExprBound above _ _ ihAbove ihBelow =>
    intro hscopes sound n inUse mem
    rw [List.flatMap_singleton, marks_assignTemp] at mem
    rw [List.flatMap_singleton, marks_classExpr]
    simp only [List.mem_cons, reduceCtorEq, Mark.occurrence.injEq, name_ne_name_fresh inUse,
      false_or] at mem
    exact ihAbove.classExpr above ihBelow hscopes sound inUse mem
  | classExprFree above _ _ ihAbove ihBelow =>
    intro hscopes sound n inUse mem
    rw [List.flatMap_singleton] at mem
    rw [List.flatMap_singleton, marks_classExpr]
    exact ihAbove.classExpr above ihBelow hscopes sound inUse mem
  | @member _ _ _ a' t _ cs' _ legal expanded below ih =>
    intro _ sound n inUse mem
    have owner := ownsTemps_of_ofShape? legal
    obtain ⟨_, expanded'⟩ := expanded.exists_ledger (hopen sound)
    have hscopes := expanded'.scopes_ne_nil (List.cons_ne_nil _ _)
    obtain ⟨_, _, below'⟩ := below.exists_ledger hscopes expanded'.sound
    rw [List.flatMap_singleton,
      marks_asProperty ((ofShape?_declaring t cs' a'.held).trans legal)] at mem
    rw [List.flatMap_singleton, marks_of_isUnmarked (isUnmarked_of_ownsTemps owner)]
    have mem' := occurrence_declaring (expanded'.trans below') owner
      (forall₂_comp .trans expanded.sameNames below.sameNames) inUse mem
    rcases ih hscopes expanded'.sound n (expanded'.inUse_of_inUse inUse) mem' with h | h
    · refine (expanded.occurrence (hopen sound) inUse h).imp_right fun h => ?_
      exact h.mono below.used_eq.2
    · exact .inr h.of_none

/-! ### Class expressions -/

namespace ClassLowered

variable {c : String} {heritage : Option Tree}
  {members : List Tree} {r : Option Range} {call : Tree}
  {used : Bool}

theorem exists_call (h : ClassLowered options c a heritage members r call used a') :
    ∃ base properties, base.isSome = heritage.isSome ∧
      call = .createClass options properties (hasConstructor members) base r := by
  obtain ⟨base, properties, a₁, a₂, hcall, above, -⟩ := h
  exact ⟨base, properties, above.isSome_eq, hcall⟩

/-- Whether the name is used can be told from the members. -/
theorem used_eq (h : ClassLowered options c a heritage members r call used a') :
    used = usesSuper members heritage.isSome := by
  obtain ⟨base, properties, a₁, a₂, -, above, below, rfl, -⟩ := h
  rw [← above.isSome_eq, below.usesSuper_eq]

theorem exists_ledger (h : ClassLowered options c a heritage members r call used a')
    (hscopes : a.temps.scopes ≠ []) (sound : a.temps.Sound) :
    ∃ held closed, a.Ledger a' held closed := by
  obtain ⟨base, properties, a₁, a₂, -, above, below, -, rfl⟩ := h
  obtain ⟨_, _, above'⟩ := above.exists_ledger hscopes sound
  obtain ⟨_, _, below'⟩ := below.exists_ledger (above'.scopes_ne_nil hscopes) above'.sound
  exact ⟨_, _, above'.trans (below'.congr rfl rfl)⟩

theorem rename (h : ClassLowered options c a heritage members r call false a') (d : String) :
    ClassLowered options d a heritage members r call false a' := by
  obtain ⟨base, properties, a₁, a₂, hcall, above, below, hused, ha'⟩ := h
  exact ⟨base, properties, a₁, a₂, hcall, above, below.rename hused.symm d, hused, ha'⟩

/-- A temporary in use that is in the code of a class was in the class, or is allowed. -/
theorem occurrence {n : Nat} (h : ClassLowered options c a heritage members r call used a')
    (hscopes : a.temps.scopes ≠ []) (sound : a.temps.Sound) (inUse : a.temps.InUse n)
    (mem : .occurrence (Temps.name n) ∈ call.marks) :
    .occurrence (Temps.name n) ∈ heritage.toList.flatMap marks ++ members.flatMap marks ∨
      Allowed options.runtimeName (some c) used (Temps.name n) := by
  obtain ⟨base, properties, a₁, a₂, rfl, above, below, rfl, -⟩ := h
  exact above.spares.createClass above below.spares hscopes sound inUse mem

end ClassLowered

/-- A lowering of a node that succeeds, within whatever bounds. -/
theorem Store.Grounded.lowers_node {s : Store} {id lowered : NodeId} {nesting height : Nat}
    {state : LoweringState} {session : Session LoweringState} (hg : s.Grounded id)
    (run : exec (lowerNode options (lowerMember options nesting) height id) ⟨s, state⟩ =
      (.ok lowered, session)) :
    ∃ t', session.store.Denotes s.size lowered t' ∧
      Lowers options none state.view.account [s.tree s.size id]
        [t'] session.state.view.account := by
  let t := s.tree s.size id
  -- The run is the same within bounds that are as large as the tree is high.
  have hmembers (kind : MemberKind) (id : NodeId) :
      Prolongs (lowerMember options nesting kind id)
        (lowerMember options (max nesting t.height) kind id) := by
    rw [← lowerMemberWithin_walkBound, ← lowerMemberWithin_walkBound]
    exact prolongs_lowerMember (fun _ => le_rfl) options (le_max_left ..) kind id
  have hrun := prolongs_lowerNode hmembers (le_max_left height t.height) id ⟨s, state⟩
    (by rw [run]; exact nofun)
  have hspec := lowerNode_follows (lowerMember_spec s.size options (max nesting t.height))
    state.classes (max height t.height) _ state.view id t (List.nil_subset _) List.mem_cons_self
    ⟨le_max_right .., fun d hd =>
      (le_height_of_mem_classDepths d hd).trans (le_max_right ..)⟩ rfl ⟨s, state⟩ le_rfl
    (Store.knows_cons.mpr ⟨hg.denotes, Store.knows_nil⟩) rfl
  rw [hrun, run] at hspec
  obtain ⟨-, _, hknows, -, t', rfl, -, hlowers⟩ := hspec
  exact ⟨t', hknows _ List.mem_cons_self, hlowers⟩

section ClassExpr

variable {o : Option NodeId} {name heritage : Option Tree} {members : List Tree} {r : Option Range}
  {t' : Tree} (h : Lowers options none a [.node o (.classExpr name heritage members) r] [t'] a')

include h

/-- A class expression is lowered with a temporary for its name, and the temporary is kept or given
back. -/
theorem Lowers.exists_classLowered :
    ∃ call a₂, ClassLowered options (Temps.name a.fresh) a.allocate heritage members r call
        (usesSuper members heritage.isSome) a₂ ∧
      (t', a') = if usesSuper members heritage.isSome then
          (.node none (.paren (.assign (.temp a.fresh) call)) r, a₂)
        else (call, a₂.release a.fresh) := by
  obtain ⟨base, properties, a₁, a₂, above, below, hout⟩ := h.of_classExpr
  have hlowered : ClassLowered options (Temps.name a.fresh) a.allocate heritage members r
      (.createClass options properties (hasConstructor members) base r) a₂.used
      (a₂.withUsed a₁.used) :=
    ⟨base, properties, a₁, a₂, rfl, above, below, rfl, rfl⟩
  rw [← hlowered.used_eq]
  refine ⟨_, _, hlowered, ?_⟩
  split at hout <;> simp_all

variable (opened : a.temps.scopes ≠ []) (sound : a.temps.Sound)

include opened sound

theorem Lowers.classExpr_kept (used : usesSuper members heritage.isSome = true) :
    ∃ base properties new, base.isSome = heritage.isSome ∧ a.Gains a' new ∧
      t' = .node none (.paren (.assign (.temp a.fresh)
        (createClass options properties (hasConstructor members) base r))) r ∧
      a.fresh ∈ new ∧ a.fresh ∉ a'.temps.free := by
  obtain ⟨call, a₂, hlowered, hout⟩ := h.exists_classLowered
  rw [if_pos used, Prod.mk.injEq] at hout
  obtain ⟨rfl, rfl⟩ := hout
  obtain ⟨base, properties, hbase, rfl⟩ := hlowered.exists_call
  have fresh := Account.Ledger.allocate sound
  obtain ⟨held, closed, hledger⟩ := hlowered.exists_ledger (fresh.scopes_ne_nil opened) fresh.sound
  have hall := fresh.trans hledger
  have inUse := hall.inUse_of_mem List.mem_cons_self
  exact ⟨base, properties, _, hbase, hall.gains opened, rfl, List.mem_cons_self, inUse.2⟩

theorem Lowers.classExpr_free (unused : usesSuper members heritage.isSome = false) :
    ∃ base properties new, base.isSome = heritage.isSome ∧ a.Gains a' new ∧
      t' = createClass options properties (hasConstructor members) base r ∧
      a.fresh ∉ new ∧ a.fresh ∈ a'.temps.free ∧
      (∀ d, ∃ a₂, ClassLowered options d a.allocate heritage members r t' false a₂) ∧
      (.occurrence (Temps.name a.fresh) ∈ t'.marks →
        .occurrence (Temps.name a.fresh) ∈ heritage.toList.flatMap marks ++ members.flatMap marks ∨
          Temps.name a.fresh = options.runtimeName) := by
  obtain ⟨call, a₂, hlowered, hout⟩ := h.exists_classLowered
  rw [if_neg (by simp [unused]), Prod.mk.injEq] at hout
  rw [unused] at hlowered
  obtain ⟨rfl, rfl⟩ := hout
  obtain ⟨base, properties, hbase, hcall⟩ := hlowered.exists_call
  have fresh := Account.Ledger.allocate sound
  obtain ⟨held, closed, hledger⟩ := hlowered.exists_ledger (fresh.scopes_ne_nil opened) fresh.sound
  have hall := fresh.trans hledger
  have hreleased := Account.Ledger.release hall opened
  have hnew : a.fresh ∉ held ++ ([] ++ closed) := (List.nodup_cons.mp hall.nodup).1
  refine ⟨base, properties, held, hbase, hreleased.gains opened, hcall,
    fun hmem => hnew (List.mem_append_left _ hmem), ?_, fun d => ⟨a₂, hlowered.rename d⟩,
    fun hmem => ?_⟩
  · have inUse := hall.inUse_of_mem List.mem_cons_self
    obtain ⟨old, held', rest, -, hscopes, hperm⟩ := hall.gains opened
    have hheld : a.fresh ∈ held' :=
      hperm.mem_iff.mpr (List.mem_append_right _ List.mem_cons_self)
    exact (Temps.free_release_perm inUse.2 hscopes hheld).1.mem_iff.mpr List.mem_cons_self
  · refine (hlowered.occurrence (fresh.scopes_ne_nil opened) fresh.sound
      (fresh.inUse_of_mem List.mem_cons_self) hmem).imp_right fun hname => ?_
    rcases hname with hname | hname | ⟨⟨⟩, -⟩
    · exact hname
    · exact absurd (IsTemp.take_toList ⟨a.fresh, hname.symm⟩) (by decide +kernel)

end ClassExpr

/-- **When a class expression is kept in a temporary.** A class expression is lowered in a scope of
temporaries, and `$__n` is the one that is set aside for it. If one of its own members has a use of
`super`, or it has a base and no constructor, then it becomes `($__n = createClass(…))` at the place
of the class, and `$__n` has come to be held by the scope. Otherwise it becomes the call alone, and
`$__n` is free again. In that case the call is what comes out whatever the class is called in its
members, so `$__n` is not mentioned in it, unless the source mentions it or the helpers are in a
namespace of that name. -/
theorem lowerNode_classExpr_binds {s : Store} {id lowered : NodeId} {name heritage : Option NodeId}
    {members : List NodeId} {range : Option Range} {options : Options} {nesting height : Nat}
    {state : LoweringState} {session : Session LoweringState} (closed : s.Closed id)
    (acyclic : s.Acyclic id)
    (found : s.get? id = some ⟨.classExpr name heritage members, range⟩)
    (opened : state.temps.scopes ≠ []) (sound : state.temps.Sound)
    (run : (lowerNode options (lowerMember options nesting) height id).runOn ⟨s, state⟩ =
      (.ok lowered, session)) :
    let tree := s.tree s.size
    let n := state.temps.allocate.1
    let kept := (∃ m ∈ members, (tree m).OwnsSuper) ∨
      heritage.isSome = true ∧ hasConstructor (members.map tree) = false
    ∃ base properties new,
      let call := createClass options properties (hasConstructor (members.map tree)) base range
      base.isSome = heritage.isSome ∧
      state.view.account.Gains session.state.view.account new ∧
      (kept →
        session.store.Denotes s.size lowered (.node none (.paren (.assign (.temp n) call)) range) ∧
        n ∈ new ∧ n ∉ session.state.temps.free) ∧
      (¬ kept → session.store.Denotes s.size lowered call ∧
        n ∉ new ∧ n ∈ session.state.temps.free ∧
        (∀ d, ∃ a', ClassLowered options d state.view.account.allocate (heritage.map tree)
          (members.map tree) range call false a') ∧
        (session.store.Mentions lowered (Temps.name n) →
          s.Mentions id (Temps.name n) ∨ Temps.name n = options.runtimeName)) := by
  intro tree n kept
  have hg : s.Grounded id := Store.grounded_iff.mpr ⟨closed, acyclic⟩
  obtain ⟨t', hdenotes, hlowers⟩ := hg.lowers_node run
  have hclass := hg.tree_eq (n := s.size) found
  rw [hclass] at hlowers
  have hkept : usesSuper (members.map tree) (heritage.map tree).isSome = true ↔ kept := by
    simp [usesSuper_iff, kept]
  by_cases hk : kept
  case pos =>
    obtain ⟨base, properties, new, hbase, hgains, rfl, hnew, hfree⟩ :=
      hlowers.classExpr_kept opened sound (hkept.mpr hk)
    rw [Option.isSome_map] at hbase
    exact ⟨base, properties, new, hbase, hgains, fun _ => ⟨hdenotes, hnew, hfree⟩,
      fun hnot => absurd hk hnot⟩
  case neg =>
    obtain ⟨base, properties, new, hbase, hgains, hcall, hnew, hfree, hany, hoccurs⟩ :=
      hlowers.classExpr_free opened sound (Bool.eq_false_iff.mpr (mt hkept.mp hk))
    rw [Option.isSome_map] at hbase
    have classFree : t'.ClassFree := hlowers.classFree t' List.mem_cons_self
    refine ⟨base, properties, new, hbase, hgains, fun h => absurd h hk, fun _ =>
      ⟨hcall ▸ hdenotes, hnew, hfree, hcall ▸ hany, fun hmentions => ?_⟩⟩
    have hmem := hdenotes.grounded.occurrence_of_mentions (n := s.size)
      (hdenotes.tree_eq ▸ classFree) hmentions
    refine (hoccurs (hdenotes.tree_eq ▸ hmem)).imp_left fun hmem => ?_
    refine hg.mentions_of_occurrence (n := s.size) ?_
    rw [hclass]
    exact marks_classExpr .. ▸ hmem

/-- `class { m() { () => class extends super.B { n() { super.n; } }; } }` and
`class { m() { class { n() { super.n; } }; } }` -/
def nestedClassStore : Store where
  nodes := innerClassStore.nodes ++
    #[⟨.classExpr none none [⟨12⟩], none⟩, ⟨.classExpr none none [⟨16⟩], none⟩]

/-- The state in a program or a function that holds no temporaries yet. -/
def openState : LoweringState where
  temps := { scopes := [[]] }

/-- The heritage of a class in a member makes the class around it to be kept, and its members do
not. -/
theorem lowerNode_classExpr_binds_nested :
    (∃ lowered session call,
      (lowerNode {} (lowerMember {} 20) 20 ⟨17⟩).runOn ⟨nestedClassStore, openState⟩ =
          (.ok lowered, session) ∧
        session.store.Denotes 19 lowered (.node none (.paren (.assign (.temp 0) call)) none) ∧
        0 ∉ session.state.temps.free) ∧
      ∃ lowered session base properties,
        (lowerNode {} (lowerMember {} 20) 20 ⟨18⟩).runOn ⟨nestedClassStore, openState⟩ =
            (.ok lowered, session) ∧
          session.store.Denotes 19 lowered (createClass {} properties false base none) ∧
          0 ∈ session.state.temps.free := by
  have fits : nestedClassStore.Fits 19 ⟨17⟩ ∧ nestedClassStore.Fits 19 ⟨18⟩ := by decide +kernel
  have sound : openState.temps.Sound := ⟨List.nodup_nil, List.forall_mem_nil _⟩
  constructor
  · obtain ⟨closed, acyclic⟩ := Store.grounded_iff.mp fits.1.grounded
    have ok : ((lowerNode {} (lowerMember {} 20) 20 ⟨17⟩).runOn
        ⟨nestedClassStore, openState⟩).1.isOk := by decide +kernel
    generalize run : (lowerNode {} (lowerMember {} 20) 20 ⟨17⟩).runOn
      ⟨nestedClassStore, openState⟩ =
      out at ok ⊢
    obtain ⟨_ | lowered, session⟩ := out
    · cases ok
    · obtain ⟨_, _, _, -, -, hkept, -⟩ :=
        lowerNode_classExpr_binds closed acyclic rfl (List.cons_ne_nil _ _) sound run
      obtain ⟨hdenotes, -, hfree⟩ := hkept (by decide +kernel)
      exact ⟨lowered, session, _, rfl, hdenotes, hfree⟩
  · obtain ⟨closed, acyclic⟩ := Store.grounded_iff.mp fits.2.grounded
    have ok : ((lowerNode {} (lowerMember {} 20) 20 ⟨18⟩).runOn
        ⟨nestedClassStore, openState⟩).1.isOk := by decide +kernel
    generalize run : (lowerNode {} (lowerMember {} 20) 20 ⟨18⟩).runOn
      ⟨nestedClassStore, openState⟩ =
      out at ok ⊢
    obtain ⟨_ | lowered, session⟩ := out
    · cases ok
    · obtain ⟨base, properties, _, -, -, -, hfree⟩ :=
        lowerNode_classExpr_binds closed acyclic rfl (List.cons_ne_nil _ _) sound run
      obtain ⟨hdenotes, -, hfree, -⟩ := hfree (by decide +kernel)
      exact ⟨lowered, session, base, properties, rfl, hdenotes, hfree⟩

end Declass
