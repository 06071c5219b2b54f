import Mathlib.Logic.Function.Iterate
import Declass.Proofs.Misuses
import Declass.Proofs.Temporaries

/-!
# Temporaries and the names of the program

Temporaries are numbered without a look at the names in the program. Which numbers are declared in
the lowered program can be told from the program: each program, function and member is a scope; a
class expression takes a temporary, and gives it back in the end if its members do not use `super`;
so does a computed key of `super` that is both read and written, for good. A name of the program
collides with a temporary iff it is spelled like one of the numbers so obtained.

## Main definitions

* `Demand`, `Allotment` — what constructs want of the allocation, and how it is served
* `Tree.demands`, `Tree.temporaries` — the demands of a program, and the numbers that are declared
* `Tree.declarations` — the variables and classes that a tree declares

## Main results

* `Expands.temps_eq` — the temporaries of an expansion
* `Lowers.exists_serves` — a lowering follows the demands
* `lowerProgram_collides_iff` — when a name of the program is that of a temporary
-/

namespace Declass

open Edit Lowering

/-! ### Demands -/

/-- What a construct wants of the allocation of temporaries. -/
inductive Demand where
  /-- Open a scope. -/
  | enter
  /-- Close the innermost scope, and declare what it holds. -/
  | leave
  /-- Take a temporary for good. -/
  | keep
  /-- Take a temporary for a while. -/
  | lend
  /-- Give back the temporary that was lent last. -/
  | giveBack
  deriving DecidableEq

/-- An allocation of temporaries, with the numbers that are lent, the last one first, and those that
have been declared. -/
structure Allotment where
  temps : Temps := {}
  lent : List Nat := []
  declared : List Nat := []

namespace Allotment

/-- Serve a demand. -/
def serve (a : Allotment) : Demand → Allotment
  | .enter => { a with temps := a.temps.push }
  | .leave => { a with temps := a.temps.pop.2, declared := a.declared ++ a.temps.pop.1 }
  | .keep => { a with temps := a.temps.allocate.2 }
  | .lend => { a with temps := a.temps.allocate.2, lent := a.temps.allocate.1 :: a.lent }
  | .giveBack =>
    match a.lent with
    | number :: lent => { a with temps := (a.temps.release number).2, lent }
    | [] => a

/-- Serve demands, one after the other. -/
def serveAll (a : Allotment) (demands : List Demand) : Allotment :=
  demands.foldl serve a

variable (a : Allotment)

@[simp] theorem serveAll_nil : a.serveAll [] = a := rfl

@[simp] theorem serveAll_cons (d : Demand) (ds : List Demand) :
    a.serveAll (d :: ds) = (a.serve d).serveAll ds := rfl

@[simp] theorem serveAll_append (ds es : List Demand) :
    a.serveAll (ds ++ es) = (a.serveAll ds).serveAll es :=
  List.foldl_append

theorem serveAll_replicate_keep (n : Nat) :
    a.serveAll (.replicate n .keep) = { a with temps := (fun t => t.allocate.2)^[n] a.temps } := by
  induction n generalizing a with
  | zero => rfl
  | succ n ih =>
    rw [List.replicate_succ, serveAll_cons, ih]
    rfl

end Allotment

/-! ### Uses that keep their keys -/

/-- Whether a use of `super` keeps its key in a temporary. -/
def SuperUse.isBound {α : Type} : SuperUse α → Bool
  | .compound ⟨_, .computed _⟩ _ _ | .update ⟨_, .computed _⟩ _ => true
  | _ => false

/-- Code that needs no temporary binds none. -/
theorem Site.Direct.isBound_eq {site : Site} {range : Option Range} {use : SuperUse Tree}
    {operands : List Tree} {t : Tree} (code : site.Direct range use operands t) :
    use.isBound = false := by
  cases code <;> rfl

/-- Code that needs a temporary binds one. -/
theorem Site.Bound.isBound_eq {site : Site} {range : Option Range} {number : Nat}
    {use : SuperUse Tree} {key t : Tree} {rest : List Tree}
    (code : site.Bound range number use key rest t) : use.isBound = true := by
  cases code <;> rfl

namespace Tree

/-- The tree as a use of `super` that keeps its key in a temporary, if it is one that is
expanded. -/
def ownBoundUse (nested : Bool) (t : Tree) : List (SuperUse Tree) :=
  match t.superRole with
  | .use use => if !nested && use.isBound then [use] else []
  | _ => []

/-- The uses of `super` that keep their keys in temporaries when a tree is expanded. -/
def boundUses (nested : Bool) (t : Tree) : List (SuperUse Tree) :=
  t.ownBoundUse nested ++ (t.inspected nested).attach.flatMap fun v => boundUses v.1.1 v.1.2
termination_by t.height
decreasing_by exact height_inspected_lt v.2

theorem boundUses_eq (nested : Bool) (t : Tree) :
    t.boundUses nested =
      t.ownBoundUse nested ++ (t.inspected nested).flatMap fun v => v.2.boundUses v.1 := by
  have hattach : ((t.inspected nested).attach.flatMap fun v => v.1.2.boundUses v.1.1) =
      (t.inspected nested).attach.unattach.flatMap fun v => v.2.boundUses v.1 :=
    List.flatMap_subtype fun _ _ => rfl
  rw [boundUses, hattach, List.unattach_attach]

section

variable {nested : Bool} {t : Tree}

theorem boundUses_nested_use {use : SuperUse Tree} (role : t.superRole = .use use) :
    t.boundUses true = [] := by
  rw [boundUses_eq, ownBoundUse, inspected, role]
  rfl

theorem boundUses_use {use : SuperUse Tree} (role : t.superRole = .use use) :
    t.boundUses false =
      (if use.isBound then [use] else []) ++ use.operands.flatMap (boundUses false) := by
  rw [boundUses_eq, ownBoundUse, inspected, role]
  simp [List.flatMap_map]

theorem boundUses_nestedFunction (role : t.superRole = .nestedFunction) :
    t.boundUses nested = t.shape.children.flatMap (boundUses true) := by
  rw [boundUses_eq, ownBoundUse, inspected, role]
  simp [List.flatMap_map]

theorem boundUses_other (role : t.superRole = .other) :
    t.boundUses nested = t.shape.children.flatMap (boundUses nested) := by
  rw [boundUses_eq, ownBoundUse, inspected, role]
  simp [List.flatMap_map]

theorem boundUses_class {parts : ClassParts Tree} (h : t.shape.classParts? = some parts) :
    t.boundUses nested = parts.heritage.toList.flatMap (boundUses nested) := by
  have hclass : t.shape.isClass = true := by
    generalize t.shape = s at h
    cases s <;> first | rfl | cases h
  have role : t.superRole = .nestedClass := Shape.superRole_of_isClass hclass
  rw [boundUses_eq, ownBoundUse, inspected, role, h]
  simp [List.flatMap_map]

end

end Tree

open Declass.Tree in
/-- **The temporaries of an expansion,** one for each use that keeps its key. -/
theorem Expands.temps_eq {site : Site} {nested : Bool} {a a' : Account} {ts ts' : List Tree}
    (h : Expands site nested a ts ts' a') :
    a'.temps = (fun t => t.allocate.2)^[(ts.flatMap (boundUses nested)).length] a.temps := by
  induction h with
  | nil => rfl
  | cons _ _ ihHead ihTail =>
    rw [List.flatMap_singleton] at ihHead
    rw [ihTail, ihHead, ← Function.iterate_add_apply, Nat.add_comm, ← List.length_append,
      ← List.flatMap_cons]
  | walk role _ ih => rwa [List.flatMap_singleton, boundUses_other role]
  | enter role _ ih => rwa [List.flatMap_singleton, boundUses_nestedFunction role]
  | classDecl _ ih | classExpr _ ih => rwa [List.flatMap_singleton, boundUses_class rfl]
  | misplaced role => rw [List.flatMap_singleton, boundUses_nested_use role]; rfl
  | bare role => rw [List.flatMap_singleton, boundUses_use role]; rfl
  | stray role _ _ ih =>
    rw [List.flatMap_singleton, boundUses_use role]
    exact ih
  | direct role _ code ih =>
    rw [List.flatMap_singleton, boundUses_use role, code.isBound_eq]
    exact ih
  | @bound a a₁ _ t _ index _ _ rest _ role operands _ _ code ihKey ihRest =>
    -- The key is expanded first, then the temporary is taken.
    have hlength : (t.boundUses false).length =
        (rest.flatMap (boundUses false)).length + 1 + (index.boundUses false).length := by
      rw [boundUses_use role, operands, code.isBound_eq, if_pos rfl, List.flatMap_cons,
        List.length_append, List.length_append, List.length_singleton]
      omega
    rw [List.flatMap_singleton] at ihKey
    rw [List.flatMap_singleton, hlength, Function.iterate_add_apply, ← ihKey,
      Function.iterate_succ_apply]
    exact ihRest

/-! ### The demands of a program -/

namespace Tree

/-- What a construct wants around what its parts want: a scope, if it owns one. -/
def wrap (part : Tree × List Demand) : List Demand :=
  if part.1.shape.ownsTemps then .enter :: (part.2 ++ [.leave]) else part.2

/-- What a member of a class wants: in its scope, first the temporaries of its expansion. -/
def wrapMember (part : Tree × List Demand) : List Demand :=
  let kept := part.1.shape.children.flatMap (boundUses false)
  .enter :: (.replicate kept.length .keep ++ (part.2 ++ [.leave]))

/-- Whether a class is kept in a temporary if it is an expression. -/
def usesSuper (members : List Tree) (hasBase : Bool) : Bool :=
  (withConstructor members hasBase).any fun member => !member.memberScopes.isEmpty

/-- What a class wants. -/
def classDemands (parts : ClassParts (Tree × List Demand)) : List Demand :=
  let body := parts.heritage.toList.flatMap wrap ++ parts.members.flatMap wrapMember
  if parts.name.isSome then body
  else if usesSuper (parts.members.map Prod.fst) parts.heritage.isSome then .keep :: body
  else .lend :: (body ++ [.giveBack])

/-- What the parts of a tree want. -/
def inside : Tree → List Demand :=
  para fun _ shape _ => match shape.classParts? with
    | some parts => classDemands parts
    | none => shape.children.flatMap wrap

/-- What a tree wants of the allocation of temporaries. -/
def demands (t : Tree) : List Demand :=
  wrap (t, t.inside)

/-- What a member of a class wants of the allocation of temporaries. -/
def memberDemands (t : Tree) : List Demand :=
  wrapMember (t, t.inside)

/-- The numbers of the temporaries that are declared when the tree is lowered. -/
def temporaries (t : Tree) : List Nat :=
  (({} : Allotment).serveAll t.demands).declared

theorem inside_node (o : Option NodeId) (s : Shape Tree) (r : Option Range) :
    inside (.node o s r) = match s.classParts? with
      | some parts => classDemands (parts.map fun c => (c, inside c))
      | none => s.children.flatMap demands := by
  rw [inside, para_node, Shape.classParts?_map]
  cases s.classParts? with
  | some parts => rfl
  | none =>
    rw [Option.map_none, Shape.children_map, List.flatMap_map]
    rfl

theorem inside_of_plain {t : Tree} (plain : t.shape.isClass = false) :
    t.inside = t.shape.children.flatMap demands := by
  obtain ⟨o, s, r⟩ := t
  rw [shape_node] at plain
  rw [inside_node, Shape.classParts?_eq_none plain]
  rfl

theorem demands_of_shared {t : Tree} (shared : t.shape.ownsTemps = false) : t.demands = t.inside :=
  if_neg (by simp [shared])

theorem demands_of_plain {t : Tree} (plain : t.shape.isClass = false)
    (shared : t.shape.ownsTemps = false) : t.demands = t.shape.children.flatMap demands := by
  rw [demands_of_shared shared, inside_of_plain plain]

theorem demands_of_owner {t : Tree} (owner : t.shape.ownsTemps = true) :
    t.demands = .enter :: (t.shape.children.flatMap demands ++ [.leave]) := by
  rw [demands, wrap, if_pos owner, inside_of_plain (isClass_of_ownsTemps owner)]

theorem memberDemands_eq {t : Tree} {kind : MemberKind}
    (legal : MemberKind.ofShape? t.shape = some kind) :
    let kept := t.shape.children.flatMap (boundUses false)
    t.memberDemands = .enter :: (.replicate kept.length .keep ++
      (t.shape.children.flatMap demands ++ [.leave])) := by
  have plain := isClass_of_ownsTemps (ownsTemps_of_ofShape? legal)
  rw [memberDemands, wrapMember, inside_of_plain plain]

theorem classDemands_eq (parts : ClassParts Tree) :
    classDemands (parts.map fun c => (c, inside c)) =
      let body := parts.heritage.toList.flatMap demands ++ parts.members.flatMap memberDemands
      if parts.name.isSome then body
      else if usesSuper parts.members parts.heritage.isSome then .keep :: body
      else .lend :: (body ++ [.giveBack]) := by
  obtain ⟨name, heritage, members⟩ := parts
  have hmembers : (members.map fun c => (c, inside c)).flatMap wrapMember =
      members.flatMap memberDemands :=
    List.flatMap_map ..
  have hheritage : (heritage.map fun c => (c, inside c)).toList.flatMap wrap =
      heritage.toList.flatMap demands := by
    rw [Option.toList_map]
    exact List.flatMap_map ..
  have hself : (members.map fun c => (c, inside c)).map Prod.fst = members := by
    simp [Function.comp_def]
  simp only [classDemands, ClassParts.map, hmembers, hheritage, hself, Option.isSome_map]

theorem demands_classDecl (o : Option NodeId) (name : Tree) (heritage : Option Tree)
    (members : List Tree) (r : Option Range) :
    demands (.node o (.classDecl name heritage members) r) =
      heritage.toList.flatMap demands ++ members.flatMap memberDemands := by
  rw [demands_of_shared rfl, inside_node]
  exact classDemands_eq ⟨some name, heritage, members⟩

theorem demands_classExpr (o : Option NodeId) (name heritage : Option Tree) (members : List Tree)
    (r : Option Range) :
    demands (.node o (.classExpr name heritage members) r) =
      let body := heritage.toList.flatMap demands ++ members.flatMap memberDemands
      if usesSuper members heritage.isSome then .keep :: body
      else .lend :: (body ++ [.giveBack]) := by
  rw [demands_of_shared rfl, inside_node]
  exact classDemands_eq ⟨none, heritage, members⟩

/-- Generated code wants nothing. -/
theorem additive_demands : Additive (fun _ => True) demands where
  glue t ht := demands_of_plain (Shape.isClass_of_isGlue ht) (by
    generalize t.shape = s at ht
    cases s <;> first | rfl | cases ht)
  ident _ _ := demands_of_plain rfl rfl
  this := demands_of_plain rfl rfl
  literal _ := demands_of_plain rfl rfl

theorem demands_withChildren {t : Tree} {cs : List Tree} (plain : t.shape.isClass = false)
    (h : List.Forall₂ (fun t t' => demands t' = demands t) t.shape.children cs) :
    (t.withChildren cs).demands = t.demands := by
  have plain' : (t.withChildren cs).shape.isClass = false := by
    rwa [withChildren, shape_node, Shape.isClass_refill]
  rw [demands, demands, wrap, wrap, inside_of_plain plain, inside_of_plain plain',
    flatMap_children_withChildren h, ownsTemps_withChildren]

end Tree

open Declass.Tree in
/-- The expansion of `super` leaves the demands of each tree as they were. -/
theorem Expands.demands_eq {site : Site} {nested : Bool} {a a' : Account} {ts ts' : List Tree}
    (h : Expands site nested a ts ts' a') : ts'.flatMap demands = ts.flatMap demands := by
  have heritage {h h' : Option Tree}
      (hh : List.Forall₂ (fun t t' => demands t' = demands t) h.toList h'.toList) :
      h'.toList.flatMap demands = h.toList.flatMap demands ∧ h'.isSome = h.isSome := by
    refine ⟨flatMap_eq_of_forall₂ hh, ?_⟩
    have hlength := hh.length_eq
    cases h <;> cases h' <;> simp_all
  refine flatMap_eq_of_forall₂ (h.forall₂' ⟨fun _ => rfl, ?walk, ?classDecl, ?classExpr, ?use⟩)
  case walk => exact fun _ _ plain => demands_withChildren plain
  case classDecl =>
    intro o name h h' ms r hh
    rw [demands_classDecl, demands_classDecl, (heritage hh).1]
  case classExpr =>
    intro o name h h' ms r hh
    rw [demands_classExpr, demands_classExpr, (heritage hh).1, (heritage hh).2]
  case use =>
    intro t t' use operands role hoperands emits
    rw [emits.eq_flatMap additive_demands, flatMap_operands additive_demands.glue role,
      flatMap_eq_of_forall₂ hoperands]

/-! ### Declarations -/

/-- The name that a mark declares. -/
def Mark.declared? : Mark → Option String
  | .declaration name => some name
  | _ => none

namespace Tree

/-- The names that a tree declares for variables and classes. -/
def declarations (t : Tree) : List String :=
  t.marks.filterMap Mark.declared?

theorem flatMap_declarations (ts : List Tree) :
    ts.flatMap declarations = (ts.flatMap marks).filterMap Mark.declared? := by
  rw [List.filterMap_flatMap]
  rfl

theorem declarations_of_isGlue {t : Tree} (h : t.shape.isGlue = true) :
    t.declarations = t.shape.children.flatMap declarations := by
  have hown : t.ownMarks.filterMap Mark.declared? = [] := by
    rw [ownMarks, name?_of_isGlue h, declaredName?]
    generalize t.assignedName? = assigned
    generalize t.shape = s at h
    cases assigned <;> cases s <;> first | rfl | cases h
  rw [declarations, marks_of_plain (Shape.isClass_of_isGlue h), List.filterMap_append, hown,
    List.nil_append, flatMap_declarations]

theorem declarations_of_isLeaf {t : Tree} (h : t.shape.isLeaf = true) : t.declarations = [] := by
  rw [declarations, marks, sweep_of_isLeaf h, ownMarks, name?, declaredName?, assignedName?]
  generalize t.shape = s at h
  cases s <;> first | rfl | cases h

theorem additive_declarations : Additive (fun _ => True) declarations where
  glue _ := declarations_of_isGlue
  ident _ _ := declarations_of_isLeaf rfl
  this := declarations_of_isLeaf rfl
  literal _ := declarations_of_isLeaf rfl

/-- A construct whose parts are the same names as before declares what it did, and what they do. -/
theorem declarations_withChildren {t : Tree} {cs : List Tree} (plain : t.shape.isClass = false)
    (h : List.Forall₂ SameNames t.shape.children cs) :
    (t.withChildren cs).declarations =
      t.ownMarks.filterMap Mark.declared? ++ cs.flatMap declarations := by
  rw [declarations, marks_withChildren h plain, List.filterMap_append, flatMap_declarations]

theorem declarations_of_plain {t : Tree} (plain : t.shape.isClass = false) :
    t.declarations =
      t.ownMarks.filterMap Mark.declared? ++ t.shape.children.flatMap declarations := by
  rw [declarations, marks_of_plain plain, List.filterMap_append, flatMap_declarations]

theorem declarations_of_name? {t : Tree} {name : String} (h : t.name? = some name) :
    t.declarations = [] := by
  rw [declarations, marks_of_name? h]
  rfl

theorem declarations_classDecl (o : Option NodeId) (name : Tree) (heritage : Option Tree)
    (members : List Tree) (r : Option Range) :
    declarations (.node o (.classDecl name heritage members) r) =
      name.name?.toList ++ name.declarations ++
        (heritage.toList.flatMap declarations ++ members.flatMap declarations) := by
  have hname : (name.name?.toList.map Mark.declaration).filterMap Mark.declared? =
      name.name?.toList := by
    cases name.name? <;> rfl
  rw [declarations, marks_classDecl, List.filterMap_append, List.filterMap_append,
    List.filterMap_append, hname, ← flatMap_declarations, ← flatMap_declarations]
  rfl

theorem declarations_classExpr (o : Option NodeId) (name heritage : Option Tree)
    (members : List Tree) (r : Option Range) :
    declarations (.node o (.classExpr name heritage members) r) =
      heritage.toList.flatMap declarations ++ members.flatMap declarations := by
  rw [declarations, marks_classExpr, List.filterMap_append, ← flatMap_declarations,
    ← flatMap_declarations]

theorem declarations_createClass (options : Options) (properties : List Tree)
    (hasConstructor : Bool) (base : Option Tree) (r : Option Range) :
    (createClass options properties hasConstructor base r).declarations =
      properties.flatMap declarations ++ base.toList.flatMap declarations := by
  rw [declarations, marks_createClass]
  simp [flatMap_declarations, Mark.declared?, List.filterMap_cons]

theorem declarations_declareClass (options : Options) {name : Tree} {c : String}
    (named : name.name? = some c) (call : Tree) (r : Option Range) :
    (declareClass options name call r).declarations = c :: call.declarations := by
  rw [declarations, marks_declareClass options named]
  rfl

theorem declarations_assignTemp (number : Nat) (value : Tree) (r : Option Range) :
    declarations (.node none (.paren (.assign (.temp number) value)) r) = value.declarations := by
  rw [declarations, marks_assignTemp]
  rfl

theorem declarations_withConstructor (members : List Tree) (hasBase : Bool) :
    (withConstructor members hasBase).flatMap declarations = members.flatMap declarations := by
  obtain ⟨extra, hextra, heq⟩ := marks_withConstructor members hasBase
  have hnone : extra.filterMap Mark.declared? = [] := by
    refine List.filterMap_eq_nil_iff.mpr fun mark hmark => ?_
    rw [hextra mark hmark]
    rfl
  rw [flatMap_declarations, heq, List.filterMap_append, hnone, List.append_nil,
    flatMap_declarations]

theorem declarations_asProperty {t : Tree} {kind : MemberKind}
    (legal : MemberKind.ofShape? t.shape = some kind) :
    (t.asProperty kind).declarations = t.declarations := by
  rw [declarations, marks_asProperty legal]
  rfl

/-- The declaration of temporaries adds them. -/
theorem declarations_declaring {t : Tree} (owner : t.shape.ownsTemps = true) (temps : List Nat) :
    (t.declaring temps).declarations.Perm (temps.map Temps.name ++ t.declarations) := by
  have htemps : (declareTemps temps).declarations = temps.map Temps.name := by
    rw [declarations, marks_declareTemps, List.filterMap_flatMap]
    simp [Mark.declared?, List.filterMap_cons, List.map_eq_flatMap]
  have hperm := (marks_declaring owner temps).filterMap Mark.declared?
  rw [List.filterMap_append] at hperm
  rwa [← htemps]

end Tree

open Declass.Tree in
/-- The expansion of `super` declares nothing. -/
theorem Expands.declarations_eq {site : Site} {nested : Bool} {a a' : Account} {ts ts' : List Tree}
    (h : Expands site nested a ts ts' a') : ts'.flatMap declarations = ts.flatMap declarations := by
  have hplain {t : Tree} {cs : List Tree} (plain : t.shape.isClass = false)
      (hnames : List.Forall₂ SameNames t.shape.children cs)
      (ih : cs.flatMap declarations = t.shape.children.flatMap declarations) :
      [t.withChildren cs].flatMap declarations = [t].flatMap declarations := by
    rw [List.flatMap_singleton, List.flatMap_singleton, declarations_withChildren plain hnames,
      declarations_of_plain plain, ih]
  have huse {t t' : Tree} {use : SuperUse Tree} {operands : List Tree} {p : String → Prop}
      (role : t.superRole = .use use) (emits : Emits p operands t')
      (ih : operands.flatMap declarations = use.operands.flatMap declarations) :
      [t'].flatMap declarations = [t].flatMap declarations := by
    rw [List.flatMap_singleton, List.flatMap_singleton,
      emits.eq_flatMap (additive_declarations.mono fun _ _ => trivial), ih,
      flatMap_operands additive_declarations.glue role]
  induction h with
  | nil => rfl
  | cons _ _ ihHead ihTail =>
    rw [List.flatMap_singleton, List.flatMap_singleton] at ihHead
    rw [List.flatMap_cons, ihHead, ihTail, ← List.flatMap_cons]
  | walk role below ih =>
    exact hplain (isClass_of_superRole_ne (by simp [role])) below.sameNames ih
  | enter role below ih =>
    exact hplain (isClass_of_superRole_ne (by simp [role])) below.sameNames ih
  | classDecl _ ih => simpa [declarations_classDecl] using ih
  | classExpr _ ih => simpa [declarations_classExpr] using ih
  | misplaced _ | bare _ => rfl
  | stray role _ _ ih => exact huse (p := fun _ => True) role (emits_strayCall role _ _) ih
  | direct role _ code ih => exact huse role code.emits ih
  | bound role operands _ _ code ihKey ihRest =>
    refine huse role code.emits ?_
    rw [List.flatMap_singleton, List.flatMap_singleton] at ihKey
    rw [operands, List.flatMap_cons, List.flatMap_cons, ihKey, ihRest]

open Declass.Tree in
/-- A class is marked as using `super` iff its members say so. -/
theorem Lowers.usesSuper_eq {options : Options} {c : String} {a a' : Account} {hasBase : Bool}
    {members properties : List Tree} (h : Lowers options (some c) (a.withUsed false)
      (withConstructor members hasBase) properties a') : usesSuper members hasBase = a'.used := by
  rw [Bool.eq_iff_iff, h.used_iff, usesSuper, List.any_eq_true]
  simp [Account.withUsed]

/-! ### Lowering -/

/-- Serving the demands leads from one account to another, and the numbers are declared. -/
def Account.Serves (a : Account) (demands : List Demand) (a' : Account) (numbers : List Nat) :
    Prop :=
  ∀ lent declared, Allotment.serveAll ⟨a.temps, lent, declared⟩ demands =
    ⟨a'.temps, lent, declared ++ numbers⟩

namespace Account.Serves

variable {a a₁ a' : Account} {ds es : List Demand} {numbers numbers' : List Nat}

theorem nil (a : Account) : a.Serves [] a [] := by
  intro lent declared
  rw [Allotment.serveAll_nil, List.append_nil]

theorem append (h : a.Serves ds a₁ numbers) (h' : a₁.Serves es a' numbers') :
    a.Serves (ds ++ es) a' (numbers ++ numbers') := by
  intro lent declared
  rw [Allotment.serveAll_append, h, h', List.append_assoc]

theorem scope (h : a.openScope.Serves ds a' numbers) :
    a.Serves (.enter :: (ds ++ [.leave])) a'.closeScope (numbers ++ a'.held) := by
  intro lent declared
  rw [Allotment.serveAll_cons, Allotment.serveAll_append]
  change (Allotment.serveAll ⟨a.openScope.temps, lent, declared⟩ ds).serveAll [.leave] = _
  rw [h, ← List.append_assoc]
  rfl

theorem keep (h : a.allocate.Serves ds a' numbers) : a.Serves (.keep :: ds) a' numbers :=
  h

theorem lend (h : a.allocate.Serves ds a' numbers) :
    a.Serves (.lend :: (ds ++ [.giveBack])) (a'.release a.fresh) numbers := by
  intro lent declared
  rw [Allotment.serveAll_cons, Allotment.serveAll_append]
  change (Allotment.serveAll ⟨a.allocate.temps, a.fresh :: lent, declared⟩ ds).serveAll
    [.giveBack] = _
  rw [h]
  rfl

end Account.Serves

theorem Expands.serves {site : Site} {a a' : Account} {ts ts' : List Tree}
    (h : Expands site false a ts ts' a') :
    a.Serves (.replicate (ts.flatMap (Tree.boundUses false)).length .keep) a' [] := by
  intro lent declared
  rw [Allotment.serveAll_replicate_keep, List.append_nil, h.temps_eq]

namespace Tree

/-- What code wants, or a member of a class. -/
def demandsAs : Option String → Tree → List Demand
  | none, t => t.demands
  | some _, t => t.memberDemands

/-- The trees `ts'` declare what `ts` do, and the temporaries with the given numbers. -/
def Declare (ts ts' : List Tree) (numbers : List Nat) : Prop :=
  (ts'.flatMap declarations).Perm (ts.flatMap declarations ++ numbers.map Temps.name)

namespace Declare

variable {ts ts' us us' : List Tree} {numbers numbers' : List Nat}

theorem append (h : Declare ts ts' numbers) (h' : Declare us us' numbers') :
    Declare (ts ++ us) (ts' ++ us') (numbers ++ numbers') := by
  rw [Declare, List.flatMap_append, List.flatMap_append, List.map_append]
  refine (List.Perm.append h h').trans ?_
  rw [List.append_assoc, List.append_assoc]
  exact (List.perm_append_comm_assoc _ _ _).append_left _

/-- A construct with other parts. -/
theorem withChildren {t : Tree} {cs : List Tree} (h : Declare t.shape.children cs numbers)
    (plain : t.shape.isClass = false) (hnames : List.Forall₂ SameNames t.shape.children cs) :
    Declare [t] [t.withChildren cs] numbers := by
  rw [Declare, List.flatMap_singleton, List.flatMap_singleton,
    declarations_withChildren plain hnames,
    declarations_of_plain plain, List.append_assoc]
  exact List.Perm.append_left _ h

/-- A program or function that declares temporaries. -/
theorem declaring {t t' : Tree} (h : Declare [t] [t'] numbers) (owner : t'.shape.ownsTemps = true)
    (held : List Nat) : Declare [t] [t'.declaring held] (numbers ++ held) := by
  rw [Declare, List.flatMap_singleton, List.flatMap_singleton] at h ⊢
  rw [List.map_append, ← List.append_assoc]
  refine (declarations_declaring owner held).trans (List.perm_append_comm.trans ?_)
  exact h.append_right _

/-- A created class declares the names of its parts and their numbers. -/
theorem createClass {heritage base : Option Tree} {members properties : List Tree} {hasBase : Bool}
    (above : Declare heritage.toList base.toList numbers)
    (below : Declare (withConstructor members hasBase) properties numbers') (options : Options)
    (hasConstructor : Bool) (r : Option Range) :
    (Tree.createClass options properties hasConstructor base r).declarations.Perm
      (heritage.toList.flatMap declarations ++ members.flatMap declarations ++
        (numbers ++ numbers').map Temps.name) := by
  have hbody : (base.toList ++ properties).flatMap declarations |>.Perm _ := above.append below
  rw [List.flatMap_append, List.flatMap_append, declarations_withConstructor] at hbody
  rw [declarations_createClass]
  exact List.perm_append_comm.trans hbody

end Declare

/-- The constructor that a class is given wants nothing. -/
theorem serves_withConstructor {a a' : Account} {members : List Tree} {hasBase : Bool}
    {numbers : List Nat}
    (h : a.Serves ((withConstructor members hasBase).flatMap memberDemands) a' numbers) :
    a.Serves (members.flatMap memberDemands) a' numbers := by
  have hdemands : (defaultConstructor hasBase).memberDemands = [.enter, .leave] := by
    cases hasBase <;> decide +kernel
  rw [withConstructor] at h
  split at h
  case isTrue => exact h
  case isFalse =>
    intro lent declared
    rw [← h lent declared, List.flatMap_append, List.flatMap_singleton, hdemands,
      Allotment.serveAll_append]
    generalize Allotment.serveAll _ _ = b
    simp [Allotment.serve, Temps.push, Temps.pop]

end Tree

open Declass.Tree in
/-- **A lowering follows the demands,** and declares the numbers that they say. -/
theorem Lowers.exists_serves {options : Options} {c : Option String} {a a' : Account}
    {ts ts' : List Tree} (h : Lowers options c a ts ts' a') :
    ∃ numbers, a.Serves (ts.flatMap (demandsAs c)) a' numbers ∧ Declare ts ts' numbers := by
  induction h with
  | nil => exact ⟨[], .nil _, .nil⟩
  | cons _ _ ihHead ihTail =>
    obtain ⟨numbers, hserves, hdeclare⟩ := ihHead
    obtain ⟨numbers', hserves', hdeclare'⟩ := ihTail
    rw [List.flatMap_singleton] at hserves
    exact ⟨numbers ++ numbers', hserves.append hserves', hdeclare.append hdeclare'⟩
  | walk plain shared below ih =>
    obtain ⟨numbers, hserves, hdeclare⟩ := ih
    refine ⟨numbers, ?_, hdeclare.withChildren plain below.sameNames⟩
    rwa [List.flatMap_singleton, demandsAs, demands_of_plain plain shared]
  | scope owner below ih =>
    obtain ⟨numbers, hserves, hdeclare⟩ := ih
    refine ⟨_, ?_, (hdeclare.withChildren (isClass_of_ownsTemps owner) below.sameNames).declaring
      (by rwa [ownsTemps_withChildren]) _⟩
    rw [List.flatMap_singleton, demandsAs, demands_of_owner owner]
    exact hserves.scope
  | @classDecl _ _ _ o name heritage _ members _ r c named _ _ ihAbove ihBelow =>
    obtain ⟨numbers, hserves, hdeclare⟩ := ihAbove
    obtain ⟨numbers', hserves', hdeclare'⟩ := ihBelow
    refine ⟨numbers ++ numbers', ?_, ?_⟩
    · rw [List.flatMap_singleton, demandsAs, demands_classDecl]
      exact hserves.append (serves_withConstructor hserves')
    · have hname : name.name?.toList ++ name.declarations = [c] := by
        rw [named, declarations_of_name? named]
        rfl
      rw [Declare, List.flatMap_singleton, List.flatMap_singleton,
        declarations_declareClass _ named,
        declarations_classDecl, hname]
      exact (hdeclare.createClass hdeclare' _ _ r).cons c
  | @classExprBound _ _ _ _ _ _ _ _ _ r above below used ihAbove ihBelow =>
    obtain ⟨numbers, hserves, hdeclare⟩ := ihAbove
    obtain ⟨numbers', hserves', hdeclare'⟩ := ihBelow
    refine ⟨numbers ++ numbers', ?_, ?_⟩
    · rw [List.flatMap_singleton, demandsAs, demands_classExpr, ← above.isSome_eq,
        if_pos (below.usesSuper_eq.trans used)]
      exact (hserves.append (serves_withConstructor hserves')).keep
    · rw [Declare, List.flatMap_singleton, List.flatMap_singleton, declarations_assignTemp,
        declarations_classExpr]
      exact hdeclare.createClass hdeclare' _ _ r
  | @classExprFree a _ _ _ _ _ _ _ _ r above below unused ihAbove ihBelow =>
    obtain ⟨numbers, hserves, hdeclare⟩ := ihAbove
    obtain ⟨numbers', hserves', hdeclare'⟩ := ihBelow
    refine ⟨numbers ++ numbers', ?_, ?_⟩
    · rw [List.flatMap_singleton, demandsAs, demands_classExpr, ← above.isSome_eq,
        if_neg (by simp [below.usesSuper_eq, unused])]
      exact (hserves.append (serves_withConstructor hserves')).lend
    · rw [Declare, List.flatMap_singleton, List.flatMap_singleton, declarations_classExpr]
      exact hdeclare.createClass hdeclare' _ _ r
  | @member _ _ _ a₂ t _ cs' _ legal expanded below ih =>
    obtain ⟨numbers, hserves, hdeclare⟩ := ih
    have owner := ownsTemps_of_ofShape? legal
    have hbody := expanded.serves.append hserves
    have hnames : List.Forall₂ SameNames t.shape.children cs' :=
      forall₂_comp .trans expanded.sameNames below.sameNames
    refine ⟨numbers ++ a₂.held, ?_, ?_⟩
    · rw [List.flatMap_singleton, demandsAs, memberDemands_eq legal, ← List.append_assoc,
        ← expanded.demands_eq]
      exact hbody.scope
    · rw [Declare, expanded.declarations_eq] at hdeclare
      have hmember := (Declare.withChildren hdeclare (isClass_of_ownsTemps owner) hnames).declaring
        (by rwa [ownsTemps_withChildren]) a₂.held
      rw [Declare, List.flatMap_singleton] at hmember ⊢
      rw [declarations_asProperty]
      · exact hmember
      · rwa [ofShape?_declaring]

/-! ### Programs -/

/-- **When a name of the program is that of a temporary.** Lowering declares the temporaries that
the program has, beside what the program declares. Among the names that are declared more often than
in the program there is one that the program mentions iff the program mentions a name that is
spelled like one of these temporaries. -/
theorem lowerProgram_collides_iff {s : Store} {root lowered : NodeId} {options : Options}
    {journal : Journal} {session : Session LoweringState} (closed : s.Closed root)
    (acyclic : s.Acyclic root)
    (run : (lowerProgram options root).runOn ⟨s, { journal }⟩ = (.ok lowered, session)) :
    let source := s.tree s.size root
    let program := session.store.tree s.size lowered
    program.declarations.Perm (source.declarations ++ source.temporaries.map Temps.name) ∧
      ((∃ name, source.declarations.count name < program.declarations.count name ∧
          s.Mentions root name) ↔
        ∃ n ∈ source.temporaries, s.Mentions root (Temps.name n)) := by
  intro source program
  have hg : s.Grounded root := Store.grounded_iff.mpr ⟨closed, acyclic⟩
  obtain ⟨hlowered, hlowers⟩ := hg.lowers run
  obtain ⟨numbers, hserves, hdeclare⟩ := hlowers.exists_serves
  rw [List.flatMap_singleton] at hserves
  have hnumbers : source.temporaries = numbers := congrArg Allotment.declared (hserves [] [])
  have hperm : program.declarations.Perm
      (source.declarations ++ source.temporaries.map Temps.name) := by
    rw [hnumbers]
    simpa [Tree.Declare] using hdeclare
  have hcount (name : String) : source.declarations.count name < program.declarations.count name ↔
      name ∈ source.temporaries.map Temps.name := by
    rw [hperm.count_eq, List.count_append, ← List.count_pos_iff]
    omega
  refine ⟨hperm, ?_⟩
  simp only [hcount, List.mem_map]
  constructor
  · rintro ⟨_, ⟨n, hn, rfl⟩, hmentions⟩
    exact ⟨n, hn, hmentions⟩
  · rintro ⟨n, hn, hmentions⟩
    exact ⟨_, ⟨n, hn, rfl⟩, hmentions⟩

/-- `$__0; class { m() { class { n() { super.a; } }; } };`: the outer class does not use `super`. -/
def besideStore : Store where
  nodes := #[⟨.identifier "$__0", none⟩, ⟨.exprStatement ⟨0⟩, none⟩, ⟨.superExpr, none⟩,
    ⟨.member ⟨2⟩ "a", none⟩, ⟨.exprStatement ⟨3⟩, none⟩, ⟨.block [⟨4⟩], none⟩,
    ⟨.method (.identifier "n") [] ⟨5⟩, none⟩, ⟨.classExpr none none [⟨6⟩], none⟩,
    ⟨.exprStatement ⟨7⟩, none⟩, ⟨.block [⟨8⟩], none⟩, ⟨.method (.identifier "m") [] ⟨9⟩, none⟩,
    ⟨.classExpr none none [⟨10⟩], none⟩, ⟨.exprStatement ⟨11⟩, none⟩, ⟨.program [⟨1⟩, ⟨12⟩], none⟩]

/-- The temporary `$__0` is taken and given back, and only `$__1` is declared. -/
theorem lowerProgram_collides_iff_beside : ∃ lowered session,
    (lowerProgram {} ⟨13⟩).runOn ⟨besideStore, {}⟩ = (.ok lowered, session) ∧
      besideStore.Closed ⟨13⟩ ∧ besideStore.Acyclic ⟨13⟩ ∧
      besideStore.Mentions ⟨13⟩ (Temps.name 0) ∧
      (session.store.tree besideStore.size lowered).declarations = [Temps.name 1] ∧
      ¬ ∃ name, (besideStore.tree besideStore.size ⟨13⟩).declarations.count name <
          (session.store.tree besideStore.size lowered).declarations.count name ∧
        besideStore.Mentions ⟨13⟩ name := by
  have fits : besideStore.Fits 14 ⟨13⟩ := by decide +kernel
  obtain ⟨closed, acyclic⟩ := Store.grounded_iff.mp fits.grounded
  have mentions : besideStore.Mentions ⟨13⟩ (Temps.name 0) :=
    fits.grounded.mentions_of_occurrence (n := 0) (by decide +kernel)
  have others : ∀ node ∈ besideStore.nodes.toList, node.shape.name? ≠ some (Temps.name 1) := by
    decide +kernel
  have temporaries : (besideStore.tree besideStore.size ⟨13⟩).temporaries = [1] := by decide +kernel
  have ok : ((lowerProgram {} ⟨13⟩).runOn ⟨besideStore, {}⟩).1.isOk ∧
      ∀ lowered ∈ ((lowerProgram {} ⟨13⟩).runOn ⟨besideStore, {}⟩).1.toOption,
        (((lowerProgram {} ⟨13⟩).runOn ⟨besideStore, {}⟩).2.store.tree besideStore.size
          lowered).declarations = [Temps.name 1] := by
    decide +kernel
  generalize run : (lowerProgram {} ⟨13⟩).runOn ⟨besideStore, {}⟩ = out at ok ⊢
  obtain ⟨_ | lowered, session⟩ := out
  · cases ok.1
  · refine ⟨lowered, session, rfl, closed, acyclic, mentions, ok.2 lowered rfl, ?_⟩
    rw [(lowerProgram_collides_iff closed acyclic run).2, temporaries]
    rintro ⟨n, hn, id, node, -, found, hname⟩
    obtain rfl := List.mem_singleton.mp hn
    exact others node (Store.mem_nodes_of_get? found) hname

/-- `$__0; class { m() { super.a; } };` -/
def collidingStore : Store where
  nodes := #[⟨.identifier "$__0", none⟩, ⟨.exprStatement ⟨0⟩, none⟩, ⟨.superExpr, none⟩,
    ⟨.member ⟨2⟩ "a", none⟩, ⟨.exprStatement ⟨3⟩, none⟩, ⟨.block [⟨4⟩], none⟩,
    ⟨.method (.identifier "m") [] ⟨5⟩, none⟩, ⟨.classExpr none none [⟨6⟩], none⟩,
    ⟨.exprStatement ⟨7⟩, none⟩, ⟨.program [⟨1⟩, ⟨8⟩], none⟩]

/-- **A name of the program is taken for a temporary.** -/
theorem lowerProgram_collides : ∃ lowered session,
    (lowerProgram {} ⟨9⟩).runOn ⟨collidingStore, {}⟩ = (.ok lowered, session) ∧
      collidingStore.Closed ⟨9⟩ ∧ collidingStore.Acyclic ⟨9⟩ ∧
      collidingStore.Mentions ⟨9⟩ (Temps.name 0) ∧
      (collidingStore.tree collidingStore.size ⟨9⟩).declarations = [] ∧
      (session.store.tree collidingStore.size lowered).declarations = [Temps.name 0] := by
  have fits : collidingStore.Fits 10 ⟨9⟩ := by decide +kernel
  obtain ⟨closed, acyclic⟩ := Store.grounded_iff.mp fits.grounded
  have mentions : collidingStore.Mentions ⟨9⟩ (Temps.name 0) :=
    fits.grounded.mentions_of_occurrence (n := 0) (by decide +kernel)
  have source : (collidingStore.tree collidingStore.size ⟨9⟩).declarations = [] := by decide +kernel
  have ok : ((lowerProgram {} ⟨9⟩).runOn ⟨collidingStore, {}⟩).1.isOk ∧
      ∀ lowered ∈ ((lowerProgram {} ⟨9⟩).runOn ⟨collidingStore, {}⟩).1.toOption,
        (((lowerProgram {} ⟨9⟩).runOn ⟨collidingStore, {}⟩).2.store.tree collidingStore.size
          lowered).declarations = [Temps.name 0] := by
    decide +kernel
  generalize (lowerProgram {} ⟨9⟩).runOn ⟨collidingStore, {}⟩ = out at ok ⊢
  obtain ⟨_ | lowered, session⟩ := out
  · cases ok.1
  · exact ⟨lowered, session, rfl, closed, acyclic, mentions, source, ok.2 lowered rfl⟩

end Declass
