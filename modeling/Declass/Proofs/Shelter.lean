import Declass.Proofs.Inversion
import Declass.Proofs.Prologues

/-!
# Temporaries before the body

The temporaries of a function are declared by the first statement of its body. But the scope that
holds them is open for all of the function, its name and its parameters included. So a class
expression in the default of a parameter, or in a member of a class a key of `super` there, is kept
in a temporary that is declared only behind it, in statements that it is not part of. This module
says that nothing else goes wrong: a temporary is used outside of the statements that its
declaration heads only if it is kept for something that stands before the body of a function.

## Main definitions

* `Tree.exposed` — what stands before the body of a function and is kept in a temporary of it
* `Tree.Sheltered` — the temporaries of a function do not occur before its body
* `Tree.InForce` — a temporary occurs only among the statements that its declaration heads

## Main results

* `Balances.sheltered_iff` — when the temporaries of one function are sheltered
* `Lowers.sheltering` — when those of all functions are
* `lowerProgram_inForce` — which programs are lowered to ones whose temporaries are in force
-/

namespace Declass

open Edit Lowering

/-! ### Before the body -/

namespace Shape

variable {α β : Type}

theorem head_map (f : α → β) (s : Shape α) : (s.map f).head = s.head.map f := by
  cases s with
  | functionExpr name => cases name <;> simp [map, head]
  | _ => rfl

theorem head_eq_nil {s : Shape α} (h : s.body? = none) : s.head = [] := by
  cases s <;> first | rfl | cases h

theorem exists_children_eq (s : Shape α) : ∃ rest, s.children = s.head ++ rest := by
  cases hbody : s.body? with
  | none => exact ⟨s.children, by rw [head_eq_nil hbody, List.nil_append]⟩
  | some body => exact ⟨[body], children_eq_head hbody⟩

theorem body?_eq_none {s : Shape α} (shared : s.ownsTemps = false) : s.body? = none := by
  cases s <;> first | rfl | cases shared

end Shape

namespace Tree

variable {γ : Type} {t : Tree}

theorem head_withChildren {R : Tree → Tree → Prop} {cs ds : List Tree}
    (same : List.Forall₂ R t.shape.children (cs ++ ds))
    (hlength : cs.length = t.shape.head.length) :
    (t.withChildren (cs ++ ds)).shape.head = cs := by
  obtain ⟨z, hfst, hsnd, -⟩ := Shape.exists_pairs_of_forall₂ same
  obtain ⟨rest, hz⟩ := z.exists_children_eq
  have hcs : cs ++ ds = z.head.map Prod.snd ++ rest.map Prod.snd := by
    rw [← List.map_append, ← hz, ← Shape.children_map, ← hsnd,
      Shape.children_refill same.length_eq.symm]
  rw [withChildren, shape_node, hsnd, Shape.head_map]
  refine (List.append_inj_left hcs ?_).symm
  rw [hlength, hfst, Shape.head_map, List.length_map, List.length_map]

theorem flatMap_head_withChildren {φ : Tree → List γ} {cs : List Tree}
    (h : List.Forall₂ (fun t t' => φ t' = φ t) t.shape.children cs) :
    (t.withChildren cs).shape.head.flatMap φ = t.shape.head.flatMap φ := by
  obtain ⟨z, hfst, hsnd, hpairs⟩ := Shape.exists_pairs_of_forall₂ h
  obtain ⟨rest, hz⟩ := z.exists_children_eq
  rw [withChildren, shape_node, hsnd, hfst, Shape.head_map, Shape.head_map, List.flatMap_map,
    List.flatMap_map]
  exact List.flatMap_congr fun p hp => hpairs p (hz ▸ List.mem_append_left _ hp)

/-! ### What is exposed -/

/-- The keys of `super` in a tree that are kept in temporaries of the member around it, told by
where the words stand. -/
def keptKeys (t : Tree) : List (Option Range) :=
  (t.boundUses false).map fun use => use.word.range

/-- The keys that stand before the body of a member. -/
def headKeys (t : Tree) : List (Option Range) :=
  t.shape.head.flatMap keptKeys

theorem headKeys_eq_nil_iff :
    t.headKeys = [] ↔ t.shape.head.flatMap (boundUses false) = [] := by
  simp only [headKeys, List.flatMap_eq_nil_iff, keptKeys, List.map_eq_nil_iff]

/-- What is exposed at a construct: what lasts of the part of a function before its body, and the
keys there in each of the members of a class. -/
def ownExposed (t : Tree) : List (Option Range) :=
  t.shape.head.flatMap lasting ++
    t.shape.classParts?.toList.flatMap fun parts => parts.members.flatMap headKeys

/-- The class expressions and keys of `super` in a tree that are kept in temporaries of a function
and stand before the body of it. -/
def exposed : Tree → List (Option Range) :=
  sweep ownExposed

/-- What is exposed in a member of a class. -/
def memberExposed (t : Tree) : List (Option Range) :=
  t.headKeys ++ t.exposed

/-- What is exposed in code, or in a member of a class. -/
def exposedAs : Option String → Tree → List (Option Range)
  | none, t => t.exposed
  | some _, t => t.memberExposed

theorem exposed_of_plain (plain : t.shape.isClass = false) :
    t.exposed = t.shape.head.flatMap lasting ++ t.shape.children.flatMap exposed := by
  rw [exposed, sweep_of_plain plain, ownExposed, Shape.classParts?_eq_none plain]
  simp

theorem exposed_of_shared (plain : t.shape.isClass = false) (shared : t.shape.ownsTemps = false) :
    t.exposed = t.shape.children.flatMap exposed := by
  rw [exposed_of_plain plain, Shape.head_eq_nil (Shape.body?_eq_none shared), List.flatMap_nil,
    List.nil_append]

theorem exposed_of_name? {name : String} (h : t.name? = some name) : t.exposed = [] := by
  obtain ⟨o, s, r⟩ := t
  cases s <;> first | exact exposed_of_shared rfl rfl | cases h

theorem exposed_classDecl (o : Option NodeId) (name : Tree) (heritage : Option Tree)
    (members : List Tree) (r : Option Range) :
    exposed (.node o (.classDecl name heritage members) r) = members.flatMap headKeys ++
      (name.exposed ++ (heritage.toList.flatMap exposed ++ members.flatMap exposed)) := by
  rw [exposed, sweep_of]
  simp [ownExposed, Shape.head, Shape.classParts?, Shape.kept, Shape.children]

theorem exposed_classExpr (o : Option NodeId) (name heritage : Option Tree) (members : List Tree)
    (r : Option Range) :
    exposed (.node o (.classExpr name heritage members) r) = members.flatMap headKeys ++
      (heritage.toList.flatMap exposed ++ members.flatMap exposed) := by
  rw [exposed, sweep_of]
  simp [ownExposed, Shape.head, Shape.classParts?, Shape.kept]

/-- Nothing is exposed in a class iff nothing is in its heritage and its members. -/
theorem exposed_classExpr_eq_nil_iff (o : Option NodeId) (name heritage : Option Tree)
    (members : List Tree) (r : Option Range) :
    exposed (.node o (.classExpr name heritage members) r) = [] ↔
      heritage.toList.flatMap exposed = [] ∧ members.flatMap memberExposed = [] := by
  have hmembers : members.flatMap memberExposed = [] ↔
      members.flatMap headKeys = [] ∧ members.flatMap exposed = [] := by
    simp only [List.flatMap_eq_nil_iff, memberExposed, List.append_eq_nil_iff, forall_and]
  rw [exposed_classExpr, List.append_eq_nil_iff, List.append_eq_nil_iff, hmembers, and_left_comm]

theorem exposed_classDecl_eq_nil_iff {name : Tree} {c : String} (named : name.name? = some c)
    (o : Option NodeId) (heritage : Option Tree) (members : List Tree) (r : Option Range) :
    exposed (.node o (.classDecl name heritage members) r) = [] ↔
      heritage.toList.flatMap exposed = [] ∧ members.flatMap memberExposed = [] := by
  rw [exposed_classDecl, exposed_of_name? named, List.nil_append, ← exposed_classExpr o none _ _ r,
    exposed_classExpr_eq_nil_iff]

theorem additive_exposed : Additive (fun _ => True) exposed where
  glue _ h := exposed_of_shared (Shape.isClass_of_isGlue h) (ownsTemps_of_isGlue h)
  ident _ _ := exposed_of_shared rfl rfl
  this := exposed_of_shared rfl rfl
  literal _ := exposed_of_shared rfl rfl

/-- Nothing is exposed in a default constructor. -/
theorem flatMap_memberExposed_withConstructor (members : List Tree) (hasBase : Bool) :
    (withConstructor members hasBase).flatMap memberExposed = members.flatMap memberExposed := by
  have hnone : (defaultConstructor hasBase).memberExposed = [] := by
    cases hasBase <;> decide +kernel
  rw [withConstructor]
  split
  · rfl
  · rw [List.flatMap_append, List.flatMap_singleton, hnone, List.append_nil]

/-- Two trees with the same bodies in which the same is exposed. -/
structure SameExposed (t t' : Tree) : Prop extends SameBodies t t' where
  exposed_eq : t'.exposed = t.exposed

namespace SameExposed

theorem flatMap {ts ts' : List Tree} (h : List.Forall₂ SameExposed ts ts') :
    ts'.flatMap exposed = ts.flatMap exposed :=
  flatMap_eq_of_forall₂ (h.imp fun _ _ hc => hc.exposed_eq)

/-- The expansion of `super` keeps what is exposed. -/
theorem compatible : Expands.Compatible (fun _ => True) SameExposed where
  refl t := ⟨.refl t, rfl⟩
  walk t cs plain h := by
    refine ⟨.withChildren plain (h.imp fun _ _ hc => hc.toSameBodies), ?_⟩
    have plain' := (isClass_withChildren t cs).trans plain
    rw [exposed_of_plain plain, exposed_of_plain plain',
      flatMap_head_withChildren (h.imp fun _ _ hc => hc.lasting_eq),
      flatMap_children_withChildren (h.imp fun _ _ hc => hc.exposed_eq)]
  classDecl o name heritage heritage' members r h := by
    refine ⟨SameBodies.compatible.classDecl o name heritage heritage' members r
      (h.imp fun _ _ hc => hc.toSameBodies), ?_⟩
    rw [exposed_classDecl, exposed_classDecl, flatMap h]
  classExpr o name heritage heritage' members r h := by
    refine ⟨SameBodies.compatible.classExpr o name heritage heritage' members r
      (h.imp fun _ _ hc => hc.toSameBodies), ?_⟩
    rw [exposed_classExpr, exposed_classExpr, flatMap h]
  use role h emits := by
    refine ⟨SameBodies.compatible.use role (h.imp fun _ _ hc => hc.toSameBodies) emits, ?_⟩
    rw [emits.eq_flatMap additive_exposed, flatMap_operands additive_exposed.glue role, flatMap h]

end SameExposed

/-! ### Statements -/

/-- The temporaries that are declared at the top of a body do not occur before the body. -/
def Sheltered (t : Tree) : Prop :=
  ∀ n, Temps.name n ∈ t.openingNames → .occurrence (Temps.name n) ∉ t.shape.head.flatMap marks

/-- All occurrences of the temporary are among the statements of one body, and it is declared by the
first of these. -/
def InForce (program : Tree) (n : Nat) : Prop :=
  ∃ owner ∈ program.owners, Temps.name n ∈ owner.openingNames ∧
    (owner.bodyStatements.flatMap marks).count (.occurrence (Temps.name n)) =
      program.marks.count (.occurrence (Temps.name n))

instance (program : Tree) (n : Nat) : Decidable (program.InForce n) :=
  inferInstanceAs (Decidable (∃ owner ∈ program.owners, _ ∧ _))

/-- What occurs in a program or function occurs before the body or among the statements, if there
are any. -/
theorem marks_eq_head_append (owner : t.shape.ownsTemps = true) (h : t.openingNames ≠ []) :
    t.marks = t.shape.head.flatMap marks ++ t.bodyStatements.flatMap marks := by
  rw [marks_of_isUnmarked (isUnmarked_of_ownsTemps owner)]
  rcases ownsTemps_cases owner with ⟨statements, hs⟩ | ⟨hfunction, -⟩
  · rw [bodyStatements, hs]
    rfl
  · obtain ⟨-, body, hbody, -⟩ := Shape.exists_body hfunction
    rw [openingNames, bodyStatements_of_body? hbody] at h
    rw [bodyStatements_of_body? hbody, Shape.children_eq_head hbody, List.flatMap_append,
      List.flatMap_singleton]
    rw [blockStatements] at h ⊢
    split at h
    case h_1 statements hblock =>
      rw [marks_of_isUnmarked (t := body) (by rw [hblock]; rfl), hblock]
      rfl
    case h_2 => exact absurd rfl h

end Tree

/-! ### One function -/

theorem Account.Gains.perm {a a' : Account} {new new' : List Nat} (h : a.Gains a' new)
    (h' : a.Gains a' new') : new.Perm new' := by
  obtain ⟨held, held₁, rest, hscopes, hscopes₁, hperm⟩ := h
  obtain ⟨held', held₂, rest', hscopes', hscopes₂, hperm'⟩ := h'
  obtain ⟨rfl, -⟩ := List.cons.inj (hscopes.symm.trans hscopes')
  obtain ⟨rfl, -⟩ := List.cons.inj (hscopes₁.symm.trans hscopes₂)
  exact (List.perm_append_left_iff _).mp (hperm.symm.trans hperm')

/-- Nothing is gained iff there is nothing to gain a temporary for. -/
theorem Account.Gains.eq_nil_iff {γ : Type} {a a' : Account} {held new : List Nat} {ds : List γ}
    (h : a.Gains a' held) (h' : a.Gains a' new) (hlength : new.length = ds.length) :
    held = [] ↔ ds = [] := by
  rw [← List.length_eq_zero_iff, (h.perm h').length_eq, hlength, List.length_eq_zero_iff]

namespace Balances

open Declass.Tree

section Scope

variable {allowed : String → Prop} {a a' : Account} {t u f : Tree} {cs : List Tree}
  {before : List Mark} {held closed : List Nat}

/-- The temporaries that are declared at the top of a body are those that its scope holds. -/
theorem mem_openingNames_iff
    (inner : Balances allowed a.openScope a' before (cs.flatMap marks) (cs.flatMap owners) held
      closed)
    (owner : t.shape.ownsTemps = true) (same : List.Forall₂ SameNames t.shape.children cs)
    (wraps : Wraps u f t cs a'.held) (absent : ∀ n, .declaration (Temps.name n) ∉ before)
    {n : Nat} : Temps.name n ∈ f.openingNames ↔ n ∈ a'.held := by
  constructor
  · intro hopens
    have hall := inner.declaring owner same wraps
    have hdeclared := hall.declaration n
    rw [List.count_eq_zero_of_not_mem (absent n), Nat.zero_add] at hdeclared
    have hbound := countP_owners_add_le (Temps.name n) u
    rw [wraps.owners_eq, List.countP_cons, if_pos (decide_eq_true hopens), hdeclared] at hbound
    have hmem : n ∈ a'.held ++ closed := List.count_pos_iff.mp (by omega)
    -- If it were declared by a function inside, it would be declared twice.
    refine (List.mem_append.mp hmem).resolve_right fun hclosed => ?_
    obtain ⟨inside, hinside, hopens', -⟩ := inner.owned n hclosed
    have hpos : 0 < (cs.flatMap owners).countP (Temps.name n ∈ ·.openingNames) :=
      List.countP_pos_iff.mpr ⟨inside, hinside, decide_eq_true hopens'⟩
    have hone := List.count_eq_one_of_mem hall.ledger.nodup hmem
    rw [List.nil_append] at hone
    omega
  · intro hn
    rw [wraps.openingNames_eq]
    exact openingNames_declaring ((ownsTemps_withChildren t cs).trans owner) hn

end Scope

section Head

variable {allowed : String → Prop} {a a₁ a₂ a₃ a' : Account} {head rest : List Tree}
  {before before' middle middle' : List Mark} {owners₁ owners₂ : List Tree}
  {keys keys' classes classes' closed closed' : List Nat}

variable (keyed : Balances allowed a.openScope a₁ before middle owners₁ keys [])
  (keyed' : Balances allowed a₁ a₂ before' middle' owners₂ keys' [])
  (lowered : Balances allowed a₂ a₃ middle (head.flatMap marks) (head.flatMap owners) classes
    closed)
  (lowered' : Balances allowed a₃ a' middle' (rest.flatMap marks) (rest.flatMap owners) classes'
    closed')
  (known : a.openScope.Knows allowed (before ++ before'))

include keyed keyed' lowered lowered' known

/-- Of the temporaries of a function, those that occur before its body are the ones that were
allocated there, for keys or for classes. -/
theorem occurrence_head_iff {n : Nat} (hn : n ∈ a'.held) :
    .occurrence (Temps.name n) ∈ head.flatMap marks ↔ n ∈ keys ++ classes := by
  have ledger := ((keyed.ledger.trans keyed'.ledger).trans lowered.ledger).trans lowered'.ledger
  have hheld := ledger.held_perm.mem_iff.mp hn
  have hfresh := ledger.fresh n (List.mem_append_left _ hheld)
  constructor
  · intro hoccurs
    rcases lowered.occurrence _ hoccurs with hoccurs | hname | ⟨m, hm, hname⟩
    · rcases keyed.occurrence _ hoccurs with hoccurs | hname | ⟨m, hm, hname⟩
      · exact absurd (known n (.inr (List.mem_append_left _ hoccurs))) hfresh
      · exact absurd (known n (.inl hname)) hfresh
      · rw [← Temps.name_injective hname, List.append_nil] at hm
        exact List.mem_append_left _ hm
    · exact absurd (known n (.inl hname)) hfresh
    · rw [← Temps.name_injective hname] at hm
      refine (List.mem_append.mp hm).elim (List.mem_append_right _) fun hclosed => ?_
      exact absurd rfl ((List.nodup_append.mp ledger.nodup).2.2 n hheld n (by simp [hclosed]))
  · intro hmem
    have hassigned := lowered.assignment n
    rw [keyed.assignment] at hassigned
    have hpos : 0 < (head.flatMap marks).count (.assignment (Temps.name n)) := by
      have hcount := List.count_pos_iff.mpr hmem
      simp only [List.count_append] at hcount hassigned
      omega
    obtain ⟨c, hc, hmark⟩ := List.mem_flatMap.mp (List.count_pos_iff.mp hpos)
    exact List.mem_flatMap.mpr ⟨c, hc, occurrence_of_mem_marks hmark⟩

/-- **When the temporaries of a function are sheltered:** if none are allocated before its body. -/
theorem sheltered_iff {t u f : Tree} (owner : t.shape.ownsTemps = true)
    (same : List.Forall₂ SameNames t.shape.children (head ++ rest))
    (hlength : head.length = t.shape.head.length) (wraps : Wraps u f t (head ++ rest) a'.held)
    (absent : ∀ n, .declaration (Temps.name n) ∉ before ++ before') :
    f.Sheltered ↔ keys ++ classes = [] := by
  have hkeyed := keyed.append keyed' known
  have hlowered := lowered.append lowered' (hkeyed.knows known)
  rw [← List.flatMap_append, ← List.flatMap_append] at hlowered
  have inner := Balances.trans hkeyed hlowered
  have hhead : f.shape.head = head := wraps.head_eq.trans (head_withChildren same hlength)
  have hopens (n : Nat) : Temps.name n ∈ f.openingNames ↔ n ∈ a'.held :=
    inner.mem_openingNames_iff owner same wraps absent
  have hheld : keys ++ classes ⊆ a'.held := fun n hn =>
    inner.ledger.held_perm.mem_iff.mpr (by grind)
  have hoccurs {n : Nat} (hn : n ∈ a'.held) :=
    occurrence_head_iff keyed keyed' lowered lowered' known hn
  rw [Sheltered, hhead]
  constructor
  · intro hsheltered
    refine List.eq_nil_iff_forall_not_mem.mpr fun n hn => ?_
    exact hsheltered n ((hopens n).mpr (hheld hn)) ((hoccurs (hheld hn)).mpr hn)
  · intro hnil n hn hmem
    exact List.not_mem_nil (hnil ▸ (hoccurs ((hopens n).mp hn)).mp hmem)

end Head

end Balances

/-! ### All functions -/

section Run

open Declass.Tree

variable {a a' : Account} {ts us vs : List Tree}

/-- Trees that are rewritten one after another are rewritten in two parts. -/
theorem exists_append_of_uncons {R : Account → List Tree → List Tree → Account → Prop}
    (nil : ∀ a, R a [] [] a)
    (cons : ∀ {a a₁ a' t t' ts ts'}, R a [t] [t'] a₁ → R a₁ ts ts' a' →
      R a (t :: ts) (t' :: ts') a')
    (uncons : ∀ {a a' t ts vs}, R a (t :: ts) vs a' →
      ∃ t' ts' a₁, vs = t' :: ts' ∧ R a [t] [t'] a₁ ∧ R a₁ ts ts' a')
    (h : R a (ts ++ us) vs a') :
    ∃ ts' us' a₁, vs = ts' ++ us' ∧ R a ts ts' a₁ ∧ R a₁ us us' a' := by
  induction ts generalizing a vs with
  | nil => exact ⟨[], vs, a, rfl, nil a, h⟩
  | cons t ts ih =>
    obtain ⟨t', rest, a₁, rfl, head, tail⟩ := uncons h
    obtain ⟨ts', us', a₂, rfl, tail, last⟩ := ih tail
    exact ⟨t' :: ts', us', a₂, rfl, cons head tail, last⟩

theorem Expands.unappend {site : Site} {nested : Bool}
    (h : Expands site nested a (ts ++ us) vs a') :
    ∃ ts' us' a₁, vs = ts' ++ us' ∧ Expands site nested a ts ts' a₁ ∧
      Expands site nested a₁ us us' a' :=
  exists_append_of_uncons (fun _ => .nil) .of_cons Expands.uncons h

theorem Lowers.unappend {options : Options} {c : Option String}
    (h : Lowers options c a (ts ++ us) vs a') :
    ∃ ts' us' a₁, vs = ts' ++ us' ∧ Lowers options c a ts ts' a₁ ∧
      Lowers options c a₁ us us' a' :=
  exists_append_of_uncons (fun _ => .nil) .of_cons Lowers.uncons h

variable {options : Options}

/-- The temporaries of a function whose keys are in temporaries already are sheltered iff no keys
are kept before its body, and no class expressions. -/
theorem Lowers.sheltered_iff {allowed : String → Prop} {a₁ a₂ : Account} {t u f : Tree}
    {head rest cs owners₁ owners₂ : List Tree} {before before' : List Mark} {keys keys' : List Nat}
    (below : Lowers options none a₂ (head ++ rest) cs a')
    (keyed : Balances allowed a.openScope a₁ before (head.flatMap marks) owners₁ keys [])
    (keyed' : Balances allowed a₁ a₂ before' (rest.flatMap marks) owners₂ keys' [])
    (known : a.openScope.Knows allowed (before ++ before'))
    (hallowed : ∀ name, Allowed options.runtimeName none true name → allowed name)
    (owner : t.shape.ownsTemps = true) (same : List.Forall₂ SameNames t.shape.children cs)
    (hlength : head.length = t.shape.head.length) (wraps : Wraps u f t cs a'.held)
    (absent : ∀ n, .declaration (Temps.name n) ∉ before ++ before') :
    f.Sheltered ↔ keys = [] ∧ head.flatMap lasting = [] := by
  have hkeyed := keyed.append keyed' known
  have hscopes := hkeyed.ledger.scopes_ne_nil (List.cons_ne_nil _ _)
  have known₂ : a₂.Knows (Allowed options.runtimeName none true)
      (head.flatMap marks ++ rest.flatMap marks) :=
    (hkeyed.knows known).anti (fun name hname => .inl (hallowed name hname)) fun _ => .inr
  have hmono {used : Bool} {name : String} (h : Allowed options.runtimeName none used name) :
      allowed name := hallowed name h.of_none
  obtain ⟨head', rest', a₃, rfl, hhead, hrest⟩ := below.unappend
  obtain ⟨classes, closed, lowered⟩ := hhead.balanced hscopes hkeyed.ledger.sound
    (known₂.of_subset (List.subset_append_left _ _))
  obtain ⟨classes', closed', lowered'⟩ := hrest.balanced (lowered.ledger.scopes_ne_nil hscopes)
    lowered.ledger.sound ((known₂.of_subset (List.subset_append_right _ _)).after lowered.ledger)
  obtain ⟨new, gains, hnew⟩ := hhead.exists_gains hscopes
  have hclasses : classes = [] ↔ head.flatMap lasting = [] :=
    (lowered.ledger.gains hscopes).eq_nil_iff gains hnew
  rw [Balances.sheltered_iff keyed keyed' (lowered.mono fun _ => hmono)
    (lowered'.mono fun _ => hmono) known owner same (hhead.length_eq.trans hlength) wraps absent,
    List.append_eq_nil_iff, hclasses]

/-- All functions that trees are lowered to are sheltered iff nothing is exposed in the trees, if
the temporaries in them are known and none are declared. -/
def Lowers.Sheltering (options : Options) (c : Option String) (a : Account) (ts ts' : List Tree) :
    Prop :=
  a.temps.scopes ≠ [] → a.temps.Sound →
    a.Knows (Allowed options.runtimeName c true) (ts.flatMap marks) →
    (∀ n, .declaration (Temps.name n) ∉ ts.flatMap marks) →
    ((∀ u ∈ ts'.flatMap owners, u.Sheltered) ↔ ts.flatMap (exposedAs c) = [])

/-- A program, or a function that is no member. -/
theorem Lowers.Sheltering.scope {t : Tree} {cs : List Tree}
    (sheltering : Lowers.Sheltering options none a.openScope t.shape.children cs)
    (owner : t.shape.ownsTemps = true)
    (below : Lowers options none a.openScope t.shape.children cs a') (sound : a.temps.Sound)
    (known : a.Knows (Allowed options.runtimeName none true) t.marks)
    (absent : ∀ n, .declaration (Temps.name n) ∉ t.marks) :
    (∀ u ∈ ((t.withChildren cs).declaring a'.held).owners, u.Sheltered) ↔ t.exposed = [] := by
  rw [marks_of_isUnmarked (isUnmarked_of_ownsTemps owner)] at known absent
  have wraps := wraps_declaring below.length_eq a'.held owner
  have hopen : a.openScope.temps.Sound := ⟨sound.nodup, sound.lt_next⟩
  have hbelow := sheltering (List.cons_ne_nil _ _) hopen known absent
  obtain ⟨rest, hchildren⟩ := t.shape.exists_children_eq
  have same := below.sameNames
  rw [hchildren, List.flatMap_append] at known absent
  have hself := Lowers.sheltered_iff (hchildren ▸ below) (.refl _ hopen _) (.refl _ hopen _) known
    (fun _ => id) owner same rfl wraps absent
  rw [wraps.owners_eq, List.forall_mem_cons, exposed_of_plain (isClass_of_ownsTemps owner),
    List.append_eq_nil_iff, hself, hbelow]
  simp [exposedAs]

/-- A member of a class, which has the keys of `super` in its temporaries as well. -/
theorem Lowers.Sheltering.member {c : String} {a₁ : Account} {t : Tree} {cs cs' : List Tree}
    {kind : MemberKind} (sheltering : Lowers.Sheltering options none a₁ cs cs')
    (legal : MemberKind.ofShape? t.shape = some kind)
    (expanded : Expands ⟨c, options.runtimeName, kind⟩ false a.openScope t.shape.children cs a₁)
    (below : Lowers options none a₁ cs cs' a') (sound : a.temps.Sound)
    (known : a.Knows (Allowed options.runtimeName (some c) true) t.marks)
    (absent : ∀ n, .declaration (Temps.name n) ∉ t.marks) :
    (∀ u ∈ (((t.withChildren cs').declaring a'.held).asProperty kind).owners, u.Sheltered) ↔
      t.memberExposed = [] := by
  have owner := ownsTemps_of_ofShape? legal
  have same : List.Forall₂ SameNames t.shape.children cs' :=
    forall₂_comp .trans expanded.sameNames below.sameNames
  have hexposed := SameExposed.flatMap (expanded.forall₂' SameExposed.compatible)
  obtain ⟨f, wraps⟩ := exists_wraps_asProperty same.length_eq.symm a'.held legal
  obtain ⟨rest, hchildren⟩ := t.shape.exists_children_eq
  rw [marks_of_isUnmarked (isUnmarked_of_ownsTemps owner), hchildren, List.flatMap_append]
    at known absent
  replace known : a.openScope.Knows _ _ := known
  rw [hchildren] at expanded
  obtain ⟨head', rest', a₀, rfl, hhead, hrest⟩ := expanded.unappend
  -- The keys before the body come first, then those in the body, and then the classes.
  have hopen : a.openScope.temps.Sound := ⟨sound.nodup, sound.lt_next⟩
  have hclass : Allowed options.runtimeName (some c) true c := .inr (.inr ⟨rfl, rfl⟩)
  obtain ⟨keys, keyed⟩ := hhead.exists_balances (List.cons_ne_nil _ _) hopen
    (known.of_subset (List.subset_append_left _ _)) (.inl rfl) fun _ => hclass
  obtain ⟨keys', keyed'⟩ := hrest.exists_balances
    (keyed.ledger.scopes_ne_nil (List.cons_ne_nil _ _)) keyed.ledger.sound
    ((known.of_subset (List.subset_append_right _ _)).after keyed.ledger) (.inl rfl) fun _ => hclass
  have hkeyed := keyed.append keyed' known
  have hself := below.sheltered_iff keyed keyed' known (fun _ => .of_none) owner same
    hhead.length_eq wraps absent
  have known₁ : a₁.Knows (Allowed options.runtimeName none true)
      ((head' ++ rest').flatMap marks) := by
    rw [List.flatMap_append]
    exact (hkeyed.knows known).anti (fun _ h => .inl h.of_none) fun _ => .inr
  have absent₁ (n : Nat) : .declaration (Temps.name n) ∉ (head' ++ rest').flatMap marks := by
    rw [List.flatMap_append, ← List.count_eq_zero, hkeyed.declaration]
    exact Nat.add_eq_zero_iff.mpr ⟨List.count_eq_zero.mpr (absent n), rfl⟩
  have hbelow := sheltering (hkeyed.ledger.scopes_ne_nil (List.cons_ne_nil _ _))
    hkeyed.ledger.sound known₁ absent₁
  obtain ⟨new, gains, hnew⟩ := hhead.exists_gains (List.cons_ne_nil _ _)
  have hkeys : keys = [] ↔ t.headKeys = [] := by
    rw [headKeys_eq_nil_iff]
    exact (keyed.ledger.gains (List.cons_ne_nil _ _)).eq_nil_iff gains hnew
  rw [wraps.owners_eq, List.forall_mem_cons, hself, hbelow, hkeys,
    SameBodies.flatMap_lasting (hhead.forall₂' SameBodies.compatible), memberExposed,
    exposed_of_plain (isClass_of_ownsTemps owner), ← hexposed]
  simp only [List.append_eq_nil_iff, and_assoc]
  rfl

/-- The call that makes a class, from what its heritage and its members have become. -/
theorem Lowers.Sheltering.createClass {a₁ : Account} {c : String} {heritage base : Option Tree}
    {members properties : List Tree}
    (sheltering : Lowers.Sheltering options none a heritage.toList base.toList)
    (sheltering' : Lowers.Sheltering options (some c) (a₁.withUsed false)
      (withConstructor members base.isSome) properties)
    (above : Lowers options none a heritage.toList base.toList a₁)
    (hscopes : a.temps.scopes ≠ []) (sound : a.temps.Sound)
    (known : a.Knows (Allowed options.runtimeName (some c) true)
      (heritage.toList.flatMap marks ++ members.flatMap marks))
    (absent : ∀ n, .declaration (Temps.name n) ∉
      heritage.toList.flatMap marks ++ members.flatMap marks)
    (hasConstructor : Bool) (r : Option Range) :
    (∀ u ∈ (Tree.createClass options properties hasConstructor base r).owners, u.Sheltered) ↔
      heritage.toList.flatMap exposed = [] ∧ members.flatMap memberExposed = [] := by
  have known₀ : a.Knows (Allowed options.runtimeName none true) (heritage.toList.flatMap marks) :=
    known.anti (fun _ h => .inl h.of_none) fun _ h => .inr (List.mem_append_left _ h)
  obtain ⟨held, closed, ledger, -⟩ := above.balanced hscopes sound known₀
  have known₁ := ((known.withConstructor base.isSome).of_subset
    (List.subset_append_right _ _)).after ledger
  have habove := sheltering hscopes sound known₀ fun n h => absent n (List.mem_append_left _ h)
  have hbelow := sheltering' (ledger.scopes_ne_nil hscopes) ledger.sound known₁ fun n => by
    rw [← List.count_eq_zero, count_withConstructor _ _ (by simp), List.count_eq_zero]
    exact fun h => absent n (List.mem_append_right _ h)
  rw [owners_createClass, List.forall_mem_append, hbelow, habove, and_comm]
  exact and_congr_right' (by rw [← flatMap_memberExposed_withConstructor members base.isSome]; rfl)

/-- **When all functions that trees are lowered to are sheltered.** -/
theorem Lowers.sheltering {c : Option String} {ts ts' : List Tree}
    (h : Lowers options c a ts ts' a') : Lowers.Sheltering options c a ts ts' := by
  induction h with
  | nil => exact fun _ _ _ _ => by simp
  | @cons c a a₁ a' t t' u ts ts' head _ ihHead ihTail =>
    intro hscopes sound known absent
    rw [List.flatMap_cons] at known absent
    obtain ⟨_, _, ledger, -⟩ := head.balanced hscopes sound (known.of_subset (by simp))
    have hhead := ihHead hscopes sound (known.of_subset (by simp)) fun n h =>
      absent n (List.mem_append_left _ (by simpa using h))
    have htail := ihTail (ledger.scopes_ne_nil hscopes) ledger.sound
      ((known.of_subset (List.subset_append_right _ _)).after ledger) fun n h =>
      absent n (List.mem_append_right _ h)
    rw [List.flatMap_singleton, List.flatMap_singleton] at hhead
    rw [List.flatMap_cons, List.forall_mem_append, hhead, htail, ← List.append_eq_nil_iff,
      ← List.flatMap_cons]
  | @walk a a' t cs plain shared below ih =>
    intro hscopes sound known absent
    rw [List.flatMap_singleton] at known absent
    have hbelow := ih hscopes sound (known.of_subset (flatMap_children_subset plain)) fun n h =>
      absent n (flatMap_children_subset plain h)
    have plain' := (isClass_withChildren t cs).trans plain
    have shared' := (ownsTemps_withChildren t cs).trans shared
    rwa [List.flatMap_singleton, List.flatMap_singleton, owners_of_plain plain' shared',
      children_withChildren below.length_eq, exposedAs, exposed_of_shared plain shared]
  | @scope a a' t cs owner below ih =>
    intro _ sound known absent
    rw [List.flatMap_singleton] at known absent
    rw [List.flatMap_singleton, List.flatMap_singleton]
    exact ih.scope owner below sound known absent
  | @classDecl a a₁ a₂ o name heritage base members properties r c named above _ ihAbove ihBelow =>
    intro hscopes sound known absent
    rw [List.flatMap_singleton, marks_classDecl, named, marks_of_name? named] at known absent
    have hcall := ihAbove.createClass ihBelow above hscopes sound
      (known.anti (fun _ h => h.of_some.imp_right fun ⟨_, h⟩ => by simp [h])
        fun _ h => .inr (List.mem_append_right _ h))
      (fun n h => absent n (List.mem_append_right _ h)) (hasConstructor members) r
    rw [List.flatMap_singleton, List.flatMap_singleton, owners_declareClass options named, hcall,
      exposedAs, exposed_classDecl_eq_nil_iff named]
  | @classExprBound a a₁ a₂ o name heritage base members properties r above _ _ ihAbove ihBelow =>
    intro hscopes sound known absent
    rw [List.flatMap_singleton, marks_classExpr] at known absent
    have hfresh := Account.Ledger.allocate sound
    have hcall := ihAbove.createClass ihBelow above (hfresh.scopes_ne_nil hscopes) hfresh.sound
      (known.allocate sound) absent (hasConstructor members) r
    rw [List.flatMap_singleton, List.flatMap_singleton, owners_assignTemp, hcall, exposedAs,
      exposed_classExpr_eq_nil_iff]
  | @classExprFree a a₁ a₂ o name heritage base members properties r above _ _ ihAbove ihBelow =>
    intro hscopes sound known absent
    rw [List.flatMap_singleton, marks_classExpr] at known absent
    have hfresh := Account.Ledger.allocate sound
    have hcall := ihAbove.createClass ihBelow above (hfresh.scopes_ne_nil hscopes) hfresh.sound
      (known.allocate sound) absent (hasConstructor members) r
    rw [List.flatMap_singleton, List.flatMap_singleton, hcall, exposedAs,
      exposed_classExpr_eq_nil_iff]
  | @member c a a₁ a' t cs cs' kind legal expanded below ih =>
    intro _ sound known absent
    rw [List.flatMap_singleton] at known absent
    rw [List.flatMap_singleton, List.flatMap_singleton]
    exact ih.member legal expanded below sound known absent

end Run

/-! ### Programs -/

theorem Tree.ownsTemps_of_mem_owners {t u : Tree} (h : u ∈ t.owners) :
    u.shape.ownsTemps = true := by
  induction t with
  | node o s r ih =>
    rw [owners_of, List.mem_append] at h
    rcases h with hself | hbelow
    · split at hself
      case isTrue owner =>
        rw [List.mem_singleton.mp hself]
        exact owner
      case isFalse => cases hself
    · obtain ⟨c, hc, hmem⟩ := List.mem_flatMap.mp hbelow
      exact ih c (s.kept_subset hc) hmem

namespace Balances

open Declass.Tree

variable {allowed : String → Prop} {a a' : Account} {before : List Mark} {t : Tree}
  {closed : List Nat} (h : Balances allowed a a' before t.marks t.owners [] closed)
  (absent : ∀ n, ∀ mark ∈ before, mark.name ≠ Temps.name n)

include h absent

/-- What is declared is what belongs to a scope that was closed. -/
theorem declaration_iff {n : Nat} : .declaration (Temps.name n) ∈ t.marks ↔ n ∈ closed := by
  have hzero : before.count (.declaration (Temps.name n)) = 0 :=
    List.count_eq_zero_of_not_mem fun hmem => absent n _ hmem rfl
  rw [← List.count_pos_iff, h.declaration, hzero, Nat.zero_add, List.count_pos_iff]

theorem occurrence_iff (hallowed : ∀ n, ¬ allowed (Temps.name n)) {n : Nat} :
    .occurrence (Temps.name n) ∈ t.marks ↔ n ∈ closed := by
  constructor
  · intro hoccurs
    rcases h.occurrence _ hoccurs with hmem | hname | ⟨m, hm, hname⟩
    · exact absurd rfl (absent n _ hmem)
    · exact absurd hname (hallowed n)
    · exact Temps.name_injective hname ▸ hm
  · intro hn
    exact occurrence_of_mem_marks ((h.declaration_iff absent).mpr hn)

/-- The one body that declares a temporary. What occurs there occurs before the body or in it. -/
theorem exists_owner {n : Nat} (hn : n ∈ closed) :
    ∃ owner, t.owners.filter (fun u => Temps.name n ∈ u.openingNames) = [owner] ∧
      (owner.shape.head.flatMap marks).count (.occurrence (Temps.name n)) +
        (owner.bodyStatements.flatMap marks).count (.occurrence (Temps.name n)) =
          t.marks.count (.occurrence (Temps.name n)) := by
  obtain ⟨-, -, owner, hfilter, hcount⟩ := h.single hn (absent n)
  refine ⟨owner, hfilter, ?_⟩
  have hmem : owner ∈ t.owners.filter fun u => Temps.name n ∈ u.openingNames := by simp [hfilter]
  obtain ⟨howner, hopens⟩ := List.mem_filter.mp hmem
  rw [← hcount, marks_eq_head_append (ownsTemps_of_mem_owners howner)
    (List.ne_nil_of_mem (of_decide_eq_true hopens)), List.count_append]

/-- A temporary is in force wherever it occurs iff the body that declares it shelters it. -/
theorem inForce_iff {n : Nat} (hn : n ∈ closed) :
    t.InForce n ↔ ∀ u ∈ t.owners, Temps.name n ∈ u.openingNames →
      .occurrence (Temps.name n) ∉ u.shape.head.flatMap marks := by
  obtain ⟨owner, hfilter, hcount⟩ := h.exists_owner absent hn
  have honly (u : Tree) : u ∈ t.owners ∧ Temps.name n ∈ u.openingNames ↔ u = owner := by
    rw [← List.mem_singleton, ← hfilter, List.mem_filter, decide_eq_true_iff]
  obtain ⟨howner, hopens⟩ := (honly owner).mpr rfl
  constructor
  · rintro ⟨u, hu, hname, hbody⟩ v hv hname'
    obtain rfl := (honly u).mp ⟨hu, hname⟩
    obtain rfl := (honly v).mp ⟨hv, hname'⟩
    rw [← List.count_eq_zero]
    omega
  · intro hsheltered
    have hhead := List.count_eq_zero.mpr (hsheltered owner howner hopens)
    exact ⟨owner, howner, hopens, by omega⟩

/-- All temporaries are in force wherever they occur iff all functions are sheltered. -/
theorem forall_inForce_iff :
    (∀ n ∈ closed, t.InForce n) ↔ ∀ u ∈ t.owners, u.Sheltered := by
  constructor
  · intro hforce u hu n hopens
    have hpos : 0 < t.owners.countP (Temps.name n ∈ ·.openingNames) :=
      List.countP_pos_iff.mpr ⟨u, hu, decide_eq_true hopens⟩
    have hbound := countP_owners_add_le (Temps.name n) t
    have hdeclared : 0 < t.marks.count (.declaration (Temps.name n)) := by omega
    have hn := (h.declaration_iff absent).mp (List.count_pos_iff.mp hdeclared)
    exact (h.inForce_iff absent hn).mp (hforce n hn) u hu hopens
  · intro hsheltered n hn
    exact (h.inForce_iff absent hn).mpr fun u hu => hsheltered u hu n

end Balances

open Declass.Tree in
/-- When the temporaries of a lowered program are sheltered. -/
theorem Lowers.sheltered_program {options : Options} {a a' : Account} {t t' : Tree}
    (owner : t.shape.ownsTemps = true) (h : Lowers options none a [t] [t'] a')
    (sound : a.temps.Sound) (known : a.Knows (Allowed options.runtimeName none true) t.marks)
    (absent : ∀ n, .declaration (Temps.name n) ∉ t.marks) :
    (∀ u ∈ t'.owners, u.Sheltered) ↔ t.exposed = [] := by
  cases h with
  | walk _ shared _ =>
    rw [owner] at shared
    cases shared
  | scope _ below => exact below.sheltering.scope owner below sound known absent
  | classDecl | classExprBound | classExprFree => cases owner

open Declass.Tree in
/-- **Where temporaries are used before they are declared.** If neither the source nor the runtime
has a name that is spelled like a temporary, then each temporary in a lowered program is declared by
the first statement of one body, and occurs among the statements of that body or before it, in the
name or the parameters of the function. All temporaries occur only among the statements iff nothing
is exposed in the source: no class expression that is kept in a temporary stands before the body of
the function that it is kept for, and no key of `super` before that of a member. -/
theorem lowerProgram_inForce {s : Store} {root lowered : NodeId} {options : Options}
    {state : LoweringState} {session : Session LoweringState} (closed : s.Closed root)
    (acyclic : s.Acyclic root)
    (isProgram : ∃ statements range, s.get? root = some ⟨.program statements, range⟩)
    (names : ∀ name, s.Mentions root name → ¬ IsTemp name)
    (runtime : ¬ IsTemp options.runtimeName) (sound : state.temps.Sound)
    (run : (lowerProgram options root).runOn ⟨s, state⟩ = (.ok lowered, session)) :
    let source := s.tree s.size root
    let program := session.store.tree s.size lowered
    (∀ n, session.store.Mentions lowered (Temps.name n) →
      ∃ owner, program.owners.filter (fun u => Temps.name n ∈ u.openingNames) = [owner] ∧
        (owner.shape.head.flatMap marks).count (.occurrence (Temps.name n)) +
          (owner.bodyStatements.flatMap marks).count (.occurrence (Temps.name n)) =
            program.marks.count (.occurrence (Temps.name n))) ∧
      ((∀ n, session.store.Mentions lowered (Temps.name n) → program.InForce n) ↔
        source.exposed = []) := by
  intro source program
  have hg : s.Grounded root := Store.grounded_iff.mpr ⟨closed, acyclic⟩
  obtain ⟨hlowered, hlowers⟩ := hg.lowers run
  have owner := hg.ownsTemps_tree isProgram s.size
  have absent (n : Nat) (mark : Mark) (hmark : mark ∈ source.marks) : mark.name ≠ Temps.name n :=
    fun hname => names _ (hg.mentions_of_occurrence (occurrence_of_mem_marks hmark)) ⟨n, hname⟩
  have hallowed (n : Nat) {used : Bool} :
      ¬ Allowed options.runtimeName none used (Temps.name n) :=
    fun hname => hname.not_isTemp runtime ⟨n, rfl⟩
  have known : state.view.account.Knows (Allowed options.runtimeName none true) source.marks := by
    rintro n (hname | hname)
    · exact absurd hname (hallowed n)
    · exact absurd rfl (absent n _ hname)
  obtain ⟨numbers, hbalances⟩ := hlowers.exists_balances_program owner sound known
  have hmentions (n : Nat) : session.store.Mentions lowered (Temps.name n) ↔ n ∈ numbers := by
    rw [← hbalances.occurrence_iff absent fun n => hallowed n]
    exact ⟨hlowered.occurrence_of_mentions (hlowers.classFree _ List.mem_cons_self),
      hlowered.mentions_of_occurrence⟩
  refine ⟨fun n hn => hbalances.exists_owner absent ((hmentions n).mp hn), ?_⟩
  simp only [hmentions]
  rw [hbalances.forall_inForce_iff absent]
  exact hlowers.sheltered_program owner sound known fun n hmem => absent n _ hmem rfl

/-- `function f(p = class {}) { class extends A {}; } class B { m(q = super.x) { ++super[k]; } }` -/
def shelteredStore : Store where
  nodes := #[⟨.binding "f", none⟩, ⟨.binding "p", none⟩, ⟨.classExpr none none [], none⟩,
    ⟨.parameter ⟨1⟩ (some ⟨2⟩) false, none⟩, ⟨.identifier "A", none⟩,
    ⟨.classExpr none (some ⟨4⟩) [], none⟩, ⟨.exprStatement ⟨5⟩, none⟩, ⟨.block [⟨6⟩], none⟩,
    ⟨.functionDecl ⟨0⟩ [⟨3⟩] ⟨7⟩, none⟩, ⟨.binding "B", none⟩, ⟨.binding "q", none⟩,
    ⟨.superExpr, none⟩, ⟨.member ⟨11⟩ "x", none⟩, ⟨.parameter ⟨10⟩ (some ⟨12⟩) false, none⟩,
    ⟨.superExpr, none⟩, ⟨.identifier "k", none⟩, ⟨.lookup ⟨14⟩ ⟨15⟩, none⟩,
    ⟨.unary "++" ⟨16⟩, none⟩, ⟨.exprStatement ⟨17⟩, none⟩, ⟨.block [⟨18⟩], none⟩,
    ⟨.method (.identifier "m") [⟨13⟩] ⟨19⟩, none⟩, ⟨.classDecl ⟨9⟩ none [⟨20⟩], none⟩,
    ⟨.program [⟨8⟩, ⟨21⟩], none⟩]

/-- The class in the parameter of `f` needs no temporary, nor does the use of `super` in that of
`m`. The two temporaries are for the class and the key in the bodies. -/
theorem lowerProgram_inForce_bodies : ∃ lowered session,
    (lowerProgram {} ⟨22⟩).runOn ⟨shelteredStore, {}⟩ = (.ok lowered, session) ∧
      (shelteredStore.tree shelteredStore.size ⟨22⟩).exposed = [] ∧
      ∀ n ∈ [0, 1], session.store.Mentions lowered (Temps.name n) ∧
        (session.store.tree shelteredStore.size lowered).InForce n := by
  have fits : shelteredStore.Fits 23 ⟨22⟩ := by decide +kernel
  obtain ⟨closed, acyclic⟩ := Store.grounded_iff.mp fits.grounded
  have names : ∀ name, shelteredStore.Mentions ⟨22⟩ name → ¬ IsTemp name :=
    fun _ => Store.not_isTemp_of_all (by decide +kernel)
  have runtime : ¬ IsTemp ({} : Options).runtimeName := fun h =>
    absurd h.take_toList (by decide +kernel)
  have exposed : (shelteredStore.tree shelteredStore.size ⟨22⟩).exposed = [] := by decide +kernel
  have ok : ((lowerProgram {} ⟨22⟩).runOn ⟨shelteredStore, {}⟩).1.isOk ∧
      ∀ lowered ∈ ((lowerProgram {} ⟨22⟩).runOn ⟨shelteredStore, {}⟩).1.toOption,
        let store := ((lowerProgram {} ⟨22⟩).runOn ⟨shelteredStore, {}⟩).2.store
        store.Fits store.size lowered ∧ ∀ n ∈ [0, 1],
          .occurrence (Temps.name n) ∈ (store.tree shelteredStore.size lowered).marks := by
    decide +kernel
  generalize run : (lowerProgram {} ⟨22⟩).runOn ⟨shelteredStore, {}⟩ = out at ok ⊢
  obtain ⟨_ | lowered, session⟩ := out
  · cases ok.1
  · obtain ⟨hfits, hoccurs⟩ := ok.2 lowered rfl
    obtain ⟨-, inForce⟩ := lowerProgram_inForce closed acyclic ⟨_, _, rfl⟩ names runtime
      Temps.sound_default run
    refine ⟨lowered, session, rfl, exposed, fun n hn => ?_⟩
    have hmentions := hfits.grounded.mentions_of_occurrence (hoccurs n hn)
    exact ⟨hmentions, inForce.mpr exposed n hmentions⟩

/-- `function f(p = class extends A {}) {}` -/
def exposedStore : Store where
  nodes := #[⟨.binding "f", none⟩, ⟨.binding "p", none⟩, ⟨.identifier "A", none⟩,
    ⟨.classExpr none (some ⟨2⟩) [], none⟩, ⟨.parameter ⟨1⟩ (some ⟨3⟩) false, none⟩,
    ⟨.block [], none⟩, ⟨.functionDecl ⟨0⟩ [⟨4⟩] ⟨5⟩, none⟩, ⟨.program [⟨6⟩], none⟩]

/-- **A temporary is used before the body that declares it,** in a parameter. -/
theorem lowerProgram_exposes_parameter : ∃ lowered session,
    (lowerProgram {} ⟨7⟩).runOn ⟨exposedStore, {}⟩ = (.ok lowered, session) ∧
      exposedStore.Closed ⟨7⟩ ∧ exposedStore.Acyclic ⟨7⟩ ∧
      (∀ name, exposedStore.Mentions ⟨7⟩ name → ¬ IsTemp name) ∧
      session.store.Mentions lowered (Temps.name 0) ∧
      ¬ (session.store.tree exposedStore.size lowered).InForce 0 := by
  have fits : exposedStore.Fits 8 ⟨7⟩ := by decide +kernel
  obtain ⟨closed, acyclic⟩ := Store.grounded_iff.mp fits.grounded
  have names : ∀ name, exposedStore.Mentions ⟨7⟩ name → ¬ IsTemp name :=
    fun _ => Store.not_isTemp_of_all (by decide +kernel)
  have ok : ((lowerProgram {} ⟨7⟩).runOn ⟨exposedStore, {}⟩).1.isOk ∧
      ∀ lowered ∈ ((lowerProgram {} ⟨7⟩).runOn ⟨exposedStore, {}⟩).1.toOption,
        let store := ((lowerProgram {} ⟨7⟩).runOn ⟨exposedStore, {}⟩).2.store
        let program := store.tree exposedStore.size lowered
        store.Fits store.size lowered ∧ .occurrence (Temps.name 0) ∈ program.marks ∧
          ¬ program.InForce 0 := by
    decide +kernel
  generalize (lowerProgram {} ⟨7⟩).runOn ⟨exposedStore, {}⟩ = out at ok ⊢
  obtain ⟨_ | lowered, session⟩ := out
  · cases ok.1
  · obtain ⟨hfits, hoccurs, hexposed⟩ := ok.2 lowered rfl
    exact ⟨lowered, session, rfl, closed, acyclic, names,
      hfits.grounded.mentions_of_occurrence hoccurs, hexposed⟩

end Declass
