import Declass.Proofs.Inversion
import Declass.Proofs.Supply

/-!
# Drafts

A draft is a tree that depends on how the temporaries are numbered. It is uniform if it does so in
the names of the temporaries only. All code that a lowering makes out of uniform drafts is uniform:
there is one draft for what a program becomes, and every lowering of the program, whatever
temporaries are in use when it starts, is this draft under a numbering of its own.

## Main definitions

* `Draft`, `Draft.Uniform`
* `Draws` — what becomes of drafts, under all numberings at once

## Main results

* `Draft.Uniform.exists_superRole` — a use of `super` is the same under all numberings
* `Expands.draws`, `Lowers.draws` — expansion and lowering of drafts
-/

namespace Declass

namespace Shape

variable {α β : Type}

theorem name?_map (f : α → β) (s : Shape α) : (s.map f).name? = s.name? := by
  cases s <;> rfl

theorem name?_refill [Inhabited α] (s : Shape α) (cs : List α) : (s.refill cs).name? = s.name? := by
  cases s with
  | classDecl _ option _ | functionExpr option _ _ => cases option <;> rfl
  | _ => rfl

end Shape

theorem Tree.name?_node (o : Option NodeId) (s : Shape Tree) (r : Option Range) :
    (Tree.node o s r).name? = s.name? := by
  cases s <;> rfl

/-- A tree for each numbering of the temporaries. -/
abbrev Draft : Type :=
  (Nat → Nat) → Tree

namespace Draft

/-- A name that is that of a temporary, or has `P` and does not depend on the numbering. -/
inductive Naming (P : String → Prop) : ((Nat → Nat) → String) → Prop where
  | fixed {name : String} (h : P name) : Naming P fun _ => name
  | temp (number : Nat) : Naming P fun ρ => Temps.name (ρ number)

/-- The draft depends on the numbering in the names of temporaries only. All other names in it
have `P`. -/
inductive Uniform (P : String → Prop) : Draft → Prop where
  | node (origin : Option NodeId) (shape : Shape Draft) (range : Option Range)
      (named : ∀ name ∈ shape.name?, P name) (below : ∀ d ∈ shape.children, Uniform P d) :
      Uniform P fun ρ => .node origin (shape.map (· ρ)) range
  | temp (number : Nat) : Uniform P fun ρ => .temp (ρ number)
  | declared (number : Nat) : Uniform P fun ρ => .gen (.binding (Temps.name (ρ number)))

variable {P : String → Prop}

/-- A tree without temporaries. -/
theorem uniform_fixed {t : Tree} (h : t.Everywhere fun u => ∀ name ∈ u.name?, P name) :
    Uniform P fun _ => t := by
  induction t with
  | node o s r ih =>
    obtain ⟨named, below⟩ := Tree.everywhere_node.mp h
    rw [Tree.name?_node] at named
    have hshape (ρ : Nat → Nat) : (s.map fun (c : Tree) (_ : Nat → Nat) => c).map (· ρ) = s :=
      (Shape.map_map _ _ s).trans (Shape.map_id s)
    have h := Uniform.node o (s.map fun (c : Tree) (_ : Nat → Nat) => c) r
      (by rwa [Shape.name?_map]) (by simpa using fun c hc => ih c hc (below c hc))
    simpa only [hshape] using h

theorem uniform_leaf {s : Shape Tree} (leaf : s.children = []) (unnamed : s.name? = none)
    (r : Option Range) : Uniform P fun _ => .node none s r :=
  uniform_fixed (Tree.everywhere_node.mpr ⟨by simp [Tree.name?_node, unnamed], by simp [leaf]⟩)

theorem Naming.ident {C : (Nat → Nat) → String} (h : Naming P C) :
    Uniform P fun ρ => .ident (C ρ) := by
  cases h with
  | @fixed name h =>
    exact .node none (.identifier name) none (by simpa [Shape.name?] using h)
      (List.forall_mem_nil _)
  | temp number => exact .temp number

namespace Uniform

variable {d : Draft}

theorem inner (origin : Option NodeId) (shape : Shape Draft) (range : Option Range)
    (unnamed : shape.name? = none) (below : ∀ d ∈ shape.children, Uniform P d) :
    Uniform P fun ρ => .node origin (shape.map (· ρ)) range :=
  .node origin shape range (by simp [unnamed]) below

/-! ### Shapes -/

theorem range_eq (h : Uniform P d) (ρ : Nat → Nat) : (d ρ).range = (d id).range := by
  cases h <;> rfl

theorem isClass_eq (h : Uniform P d) (ρ : Nat → Nat) :
    (d ρ).shape.isClass = (d id).shape.isClass := by
  cases h with
  | node origin shape => exact (Shape.isClass_map _ shape).trans (Shape.isClass_map _ shape).symm
  | _ => rfl

theorem ownsTemps_eq (h : Uniform P d) (ρ : Nat → Nat) :
    (d ρ).shape.ownsTemps = (d id).shape.ownsTemps := by
  cases h with
  | node origin shape => cases shape <;> rfl
  | _ => rfl

theorem ofShape?_eq (h : Uniform P d) (ρ : Nat → Nat) :
    MemberKind.ofShape? (d ρ).shape = MemberKind.ofShape? (d id).shape := by
  cases h with
  | node origin shape =>
    exact (MemberKind.ofShape?_map _ shape).trans (MemberKind.ofShape?_map _ shape).symm
  | _ => rfl

/-- The name that a draft is, under all numberings. -/
theorem exists_name (h : Uniform P d) {c : String} (hc : (d id).name? = some c) :
    ∃ C, Naming P C ∧ ∀ ρ, (d ρ).name? = some (C ρ) := by
  cases h with
  | node origin shape range named =>
    cases shape with
    | binding name | identifier name => exact ⟨_, .fixed (named name rfl), fun _ => rfl⟩
    | _ => cases hc
  | temp number | declared number => exact ⟨_, .temp number, fun _ => rfl⟩

/-- The children of a draft are drafts, and may be replaced by others. -/
theorem exists_children (h : Uniform P d) : ∃ cs : List Draft, (∀ c ∈ cs, Uniform P c) ∧
    (∀ ρ, (d ρ).shape.children = cs.map (· ρ)) ∧
    ∀ cs' : List Draft, cs'.length = cs.length → (∀ c ∈ cs', Uniform P c) →
      Uniform P fun ρ => (d ρ).withChildren (cs'.map (· ρ)) := by
  cases h with
  | node origin shape range named below =>
    refine ⟨shape.children, below, fun ρ => by simp, fun cs' hlength hcs' => ?_⟩
    have hnode := Uniform.node origin (shape.refill cs') range (by rwa [Shape.name?_refill])
      (by rwa [Shape.children_refill hlength])
    simpa only [Tree.withChildren, Tree.origin_node, Tree.shape_node, Tree.range_node,
      Shape.refill_map, Shape.map_refill _ hlength] using hnode
  | temp number =>
    refine ⟨[], List.forall_mem_nil _, fun _ => rfl, fun cs' hlength _ => ?_⟩
    obtain rfl := List.length_eq_zero_iff.mp hlength
    exact .temp number
  | declared number =>
    refine ⟨[], List.forall_mem_nil _, fun _ => rfl, fun cs' hlength _ => ?_⟩
    obtain rfl := List.length_eq_zero_iff.mp hlength
    exact .declared number

theorem exists_heritage (h : Uniform P d) : ∃ base : Option Draft, (∀ b ∈ base, Uniform P b) ∧
    ∀ ρ, (d ρ).shape.heritage = base.map (· ρ) := by
  cases h with
  | node origin shape range named below =>
    refine ⟨shape.heritage, fun b hb => below b ?_, fun ρ => ?_⟩
    · cases shape with
      | classDecl name heritage members | classExpr name heritage members =>
        obtain rfl : heritage = some b := hb
        simp [Shape.children]
      | _ => cases hb
    · cases shape <;> rfl
  | _ => exact ⟨none, by simp, fun _ => rfl⟩

theorem exists_classDecl (h : Uniform P d) {o : Option NodeId} {name : Tree}
    {heritage : Option Tree} {members : List Tree} {r : Option Range}
    (hd : d id = .node o (.classDecl name heritage members) r) :
    ∃ (dname : Draft) (dheritage : Option Draft) (dmembers : List Draft),
      (∀ ρ, d ρ = .node o (.classDecl (dname ρ) (dheritage.map (· ρ)) (dmembers.map (· ρ))) r) ∧
      Uniform P dname ∧ (∀ b ∈ dheritage, Uniform P b) ∧ ∀ m ∈ dmembers, Uniform P m := by
  cases h with
  | node origin shape range named below =>
    cases shape with
    | classDecl dname dheritage dmembers =>
      cases hd
      simp only [Shape.children, List.forall_mem_cons, List.forall_mem_append] at below
      exact ⟨dname, dheritage, dmembers, fun _ => rfl, below.1, by simpa using below.2.1, below.2.2⟩
    | _ => cases hd
  | _ => cases hd

theorem exists_classExpr (h : Uniform P d) {o : Option NodeId} {name heritage : Option Tree}
    {members : List Tree} {r : Option Range}
    (hd : d id = .node o (.classExpr name heritage members) r) :
    ∃ (dname dheritage : Option Draft) (dmembers : List Draft),
      (∀ ρ, d ρ = .node o (.classExpr (dname.map (· ρ)) (dheritage.map (· ρ))
        (dmembers.map (· ρ))) r) ∧
      (∀ b ∈ dheritage, Uniform P b) ∧ ∀ m ∈ dmembers, Uniform P m := by
  cases h with
  | node origin shape range named below =>
    cases shape with
    | classExpr dname dheritage dmembers =>
      cases hd
      simp only [Shape.children, List.forall_mem_append] at below
      exact ⟨dname, dheritage, dmembers, fun _ => rfl, by simpa using below.2.1, below.2.2⟩
    | _ => cases hd
  | _ => cases hd

/-! ### Uses of `super` -/

/-- A draft has one shape under all numberings, unless it is the name of a temporary. -/
theorem exists_shape (h : Uniform P d) : ∃ shape : Shape Draft,
    (∀ c ∈ shape.children, Uniform P c) ∧ ∀ ρ, (d ρ).shape = shape.map (· ρ) ∨
      shape.isLeaf = true ∧ (d ρ).shape.isLeaf = true := by
  cases h with
  | node origin shape range named below => exact ⟨shape, below, fun _ => .inl rfl⟩
  | temp number | declared number =>
    exact ⟨.emptyStatement, List.forall_mem_nil _, fun _ => .inr ⟨rfl, rfl⟩⟩

/-- **A use of `super` is the same under all numberings.** -/
theorem exists_superRole (h : Uniform P d) : ∃ role : SuperRole Draft,
    (∀ ρ, (d ρ).superRole = role.map (· ρ)) ∧ ∀ part ∈ role.parts, Uniform P part := by
  have : Nonempty (Shape Draft) := ⟨.emptyStatement⟩
  choose! shape hbelow hshape using fun (c : Draft) (hc : Uniform P c) => hc.exists_shape
  have hsuper {c : Draft} (hc : Uniform P c) (ρ : Nat → Nat) :
      (c ρ).shape.isSuper = (shape c).isSuper := by
    rcases hshape c hc ρ with heq | ⟨hleaf, hleaf'⟩
    · rw [heq, Shape.isSuper_map]
    · rw [Shape.isSuper_of_isLeaf hleaf, Shape.isSuper_of_isLeaf hleaf']
  have haccess {c : Draft} (hc : Uniform P c) (ρ : Nat → Nat) :
      (c ρ).shape.superAccess? (fun t => some t.shape) =
        ((shape c).superAccess? fun c' => some (shape c')).map (SuperAccess.map (· ρ)) := by
    rcases hshape c hc ρ with heq | ⟨hleaf, hleaf'⟩
    · rw [heq]
      exact Shape.superAccess?_map fun c' hc' => hsuper (hbelow c hc c' hc') ρ
    · rw [Shape.superAccess?_of_isLeaf hleaf, Shape.superAccess?_of_isLeaf hleaf']
      rfl
  refine ⟨(shape d).superRole (fun c => some (shape c)) d, fun ρ => ?_, ?_⟩
  · rw [Tree.superRole]
    rcases hshape d h ρ with heq | ⟨hleaf, hleaf'⟩
    · rw [heq]
      exact Shape.superRole_map_of_access d (fun c hc => hsuper (hbelow d h c hc) ρ)
        fun c hc => haccess (hbelow d h c hc) ρ
    · rw [Shape.superRole_of_isLeaf hleaf, Shape.superRole_of_isLeaf hleaf']
      rfl
  · refine Shape.forall_mem_parts_superRole h (hbelow d h) fun c hc s' hs' => ?_
    obtain rfl := Option.some.inj hs'
    exact hbelow c (hbelow d h c hc)

/-! ### Generated code -/

theorem gen (shape : Shape Draft) (unnamed : shape.name? = none)
    (below : ∀ d ∈ shape.children, Uniform P d) : Uniform P fun ρ => .gen (shape.map (· ρ)) :=
  inner none shape none unnamed below

theorem text (value : String) : Uniform P fun _ => .text value :=
  uniform_leaf rfl rfl none

theorem binary {left right : Draft} (hleft : Uniform P left) (operator : String)
    (hright : Uniform P right) (range : Option Range) :
    Uniform P fun ρ => .node none (.binary (left ρ) operator (right ρ)) range :=
  inner none (.binary left operator right) range rfl (by simp [Shape.children, hleft, hright])

theorem parenAssign {value : Draft} (hvalue : Uniform P value) (number : Nat)
    (range : Option Range) :
    Uniform P fun ρ => .node none (.paren (.assign (.temp (ρ number)) (value ρ))) range := by
  have hassign := binary (.temp number) "=" hvalue none
  exact inner none (.paren fun ρ => .assign (.temp (ρ number)) (value ρ)) range rfl
    (List.forall_mem_singleton.mpr hassign)

theorem sequence (number : Nat) {key expression : Draft} (hkey : Uniform P key)
    (hexpression : Uniform P expression) (range : Option Range) :
    Uniform P fun ρ => Site.sequence (ρ number) (key ρ) (expression ρ) range := by
  have hassign : Uniform P fun ρ => .assign (.temp (ρ number)) (key ρ) :=
    binary (.temp number) "=" hkey none
  have hcomma : Uniform P fun ρ =>
      .gen (.comma [.assign (.temp (ρ number)) (key ρ), expression ρ]) :=
    gen (.comma [fun ρ => .assign (.temp (ρ number)) (key ρ), expression]) rfl
      (by simp [Shape.children, hassign, hexpression])
  exact inner none
    (.paren fun ρ => .gen (.comma [.assign (.temp (ρ number)) (key ρ), expression ρ])) range rfl
    (by simpa [Shape.children] using hcomma)

section

variable {C : (Nat → Nat) → String} {runtimeName : String} {kind : MemberKind}
  (hruntime : P runtimeName) (hC : Naming P C)

include hruntime

theorem helper (helper : Helper) : Uniform P fun _ => .helper runtimeName helper := by
  have hname := (Naming.fixed hruntime).ident
  exact gen (.member (fun _ => .ident runtimeName) helper.name) rfl
    (List.forall_mem_singleton.mpr hname)

include hC

/-- The call of a helper is uniform if its arguments are. -/
theorem helperCall (helper : Helper) (arguments : List Draft)
    (h : ∀ d ∈ arguments, Uniform P d) (range : Option Range) :
    Uniform P fun ρ =>
      Site.helperCall ⟨C ρ, runtimeName, kind⟩ helper (arguments.map (· ρ)) range := by
  refine .inner none (.call (fun _ => .helper runtimeName helper)
    ((fun _ => .gen .thisExpr) :: (fun ρ => .ident (C ρ)) :: arguments)) range rfl ?_
  simp only [Shape.children, List.forall_mem_cons]
  exact ⟨.helper hruntime helper, uniform_leaf rfl rfl none, hC.ident, h⟩

theorem superGet {key : Draft} (hkey : Uniform P key) (range : Option Range) :
    Uniform P fun ρ => Site.superGet ⟨C ρ, runtimeName, kind⟩ (key ρ) range :=
  helperCall hruntime hC .superGet [key] (List.forall_mem_singleton.mpr hkey) range

theorem superSet {key value : Draft} (hkey : Uniform P key) (hvalue : Uniform P value)
    (range : Option Range) :
    Uniform P fun ρ => Site.superSet ⟨C ρ, runtimeName, kind⟩ (key ρ) (value ρ) range :=
  helperCall hruntime hC .superSet [key, value] (by simp [hkey, hvalue]) range

theorem superCall {key : Draft} {arguments : List Draft} (hkey : Uniform P key)
    (h : ∀ d ∈ arguments, Uniform P d) (range : Option Range) :
    Uniform P fun ρ =>
      Site.superCall ⟨C ρ, runtimeName, kind⟩ (key ρ) (arguments.map (· ρ)) range := by
  have harray : Uniform P fun ρ => .gen (.array (arguments.map (· ρ))) :=
    gen (.array arguments) rfl h
  exact helperCall hruntime hC .superCall [key, fun ρ => .gen (.array (arguments.map (· ρ)))]
    (by simp [hkey, harray]) range

theorem compound {key value : Draft} (hkey : Uniform P key) (operator : String)
    (hvalue : Uniform P value) (range : Option Range) :
    Uniform P fun ρ => Site.compound ⟨C ρ, runtimeName, kind⟩ (key ρ) operator (value ρ) range := by
  have hget : Uniform P fun ρ => Site.superGet ⟨C ρ, runtimeName, kind⟩ (key ρ) none :=
    superGet hruntime hC hkey none
  unfold Site.compound
  cases isLogical operator with
  | true => exact binary hget operator (superSet hruntime hC hkey hvalue none) range
  | false => exact superSet hruntime hC hkey (binary hget operator hvalue none) range

theorem update {key : Draft} (hkey : Uniform P key) (operator : String) (range : Option Range) :
    Uniform P fun ρ => Site.update ⟨C ρ, runtimeName, kind⟩ (key ρ) operator range := by
  have hcurrent : Uniform P fun ρ => .gen (.unary "+"
      (Site.superGet ⟨C ρ, runtimeName, kind⟩ (key ρ) none)) :=
    gen (.unary "+" fun ρ => Site.superGet ⟨C ρ, runtimeName, kind⟩ (key ρ) none) rfl
      (by simpa [Shape.children] using superGet hruntime hC hkey none)
  exact superSet hruntime hC hkey (binary hcurrent operator (uniform_leaf rfl rfl none) none) range

theorem directCode (range : Option Range) (use : SuperUse Draft) {operands : List Draft}
    (h : ∀ d ∈ operands, Uniform P d) :
    Uniform P fun ρ => Site.directCode ⟨C ρ, runtimeName, kind⟩ range (use.map (· ρ))
      (operands.map (· ρ)) := by
  -- A use with another number of operands than its form asks for has no code; it does not arise.
  have junk : Uniform P fun _ => (default : Tree) := uniform_leaf rfl rfl none
  cases use with
  | call => exact superCall hruntime hC (text "constructor") h range
  | methodCall access =>
    obtain ⟨word, key⟩ := access
    cases key with
    | named name => exact superCall hruntime hC (text name) h range
    | computed index =>
      cases operands with
      | nil => exact junk
      | cons key arguments =>
        obtain ⟨hkey, harguments⟩ := List.forall_mem_cons.mp h
        exact superCall hruntime hC hkey harguments range
  | assign access =>
    obtain ⟨word, key⟩ := access
    cases key with
    | named name =>
      match operands, h with
      | [value], h => exact superSet hruntime hC (text name) (h value List.mem_cons_self) range
      | [], _ | _ :: _ :: _, _ => exact junk
    | computed index =>
      match operands, h with
      | [key, value], h => exact superSet hruntime hC (h key (by simp)) (h value (by simp)) range
      | [], _ | [_], _ | _ :: _ :: _ :: _, _ => exact junk
  | compound access operator =>
    obtain ⟨word, key⟩ := access
    cases key with
    | named name =>
      match operands, h with
      | [value], h =>
        exact compound hruntime hC (text name) operator (h value List.mem_cons_self) range
      | [], _ | _ :: _ :: _, _ => exact junk
    | computed index => exact junk
  | update access operator =>
    obtain ⟨word, key⟩ := access
    cases key with
    | named name => exact update hruntime hC (text name) operator range
    | computed index => exact junk
  | get access =>
    obtain ⟨word, key⟩ := access
    cases key with
    | named name => exact superGet hruntime hC (text name) range
    | computed index =>
      match operands, h with
      | [key], h => exact superGet hruntime hC (h key List.mem_cons_self) range
      | [], _ | _ :: _ :: _, _ => exact junk
  | bare => exact junk

theorem boundCode (range : Option Range) (number : Nat) {key : Draft} (hkey : Uniform P key)
    (use : SuperUse Draft) {operands : List Draft} (h : ∀ d ∈ operands, Uniform P d) :
    Uniform P fun ρ => Site.boundCode ⟨C ρ, runtimeName, kind⟩ range (ρ number) (key ρ)
      (use.map (· ρ)) (operands.map (· ρ)) := by
  have junk : Uniform P fun _ => (default : Tree) := uniform_leaf rfl rfl none
  cases use with
  | compound access operator =>
    match operands, h with
    | [value], h =>
      exact sequence number hkey
        (compound hruntime hC (.temp number) operator (h value List.mem_cons_self) none) range
    | [], _ | _ :: _ :: _, _ => exact junk
  | update access operator =>
    exact sequence number hkey (update hruntime hC (.temp number) operator none) range
  | _ => exact junk

end

/-! ### Classes and declarations -/

theorem withHeritage (h : Uniform P d) (base : Option Draft) (hbase : ∀ b ∈ base, Uniform P b) :
    Uniform P fun ρ => (d ρ).withHeritage (base.map (· ρ)) := by
  cases h with
  | node origin shape range named below =>
    have hshape (ρ : Nat → Nat) : (shape.withHeritage base).map (· ρ) =
        (shape.map (· ρ)).withHeritage (base.map (· ρ)) := by
      cases shape <;> rfl
    have hnamed : ∀ name ∈ (shape.withHeritage base).name?, P name := by
      cases shape <;> exact named
    have hnode := Uniform.node origin (shape.withHeritage base) range hnamed ?_
    · simp only [hshape] at hnode
      exact hnode
    · cases shape with
      | classDecl | classExpr =>
        simp only [Shape.withHeritage, Shape.children] at below ⊢
        grind
      | _ => exact below
  | temp number => exact .temp number
  | declared number => exact .declared number

/-- The call that creates a class is uniform if its parts are. -/
theorem createClass {options : Options} (hruntime : P options.runtimeName)
    {properties : List Draft} (hasConstructor : Bool) {base : Option Draft}
    (hproperties : ∀ d ∈ properties, Uniform P d) (hbase : ∀ b ∈ base, Uniform P b)
    (range : Option Range) :
    Uniform P fun ρ => .createClass options (properties.map (· ρ)) hasConstructor (base.map (· ρ))
      range := by
  have hobject : Uniform P fun ρ => .gen (.object (properties.map (· ρ))) :=
    gen (.object properties) rfl hproperties
  have hargument : Uniform P fun ρ => (base.map (· ρ)).getD (.gen (.literal .null)) := by
    cases base with
    | none => exact uniform_leaf rfl rfl none
    | some b => exact hbase b rfl
  have hcall := inner none (.call (fun _ => .helper options.runtimeName .createClass)
    [fun ρ => .gen (.object (properties.map (· ρ))),
      fun ρ => (base.map (· ρ)).getD (.gen (.literal .null)), fun _ => .boolean hasConstructor,
      fun _ => .boolean base.isSome]) range rfl
    (by simp only [Shape.children, List.forall_mem_cons]
        exact ⟨.helper hruntime .createClass, hobject, hargument, uniform_leaf rfl rfl none,
          uniform_leaf rfl rfl none, by simp⟩)
  simp only [Tree.createClass, Option.isSome_map]
  exact hcall

/-- The declaration of a class is uniform if its parts are. -/
theorem declareClass (options : Options) {name call : Draft} (hname : Uniform P name)
    (hcall : Uniform P call) (range : Option Range) :
    Uniform P fun ρ => .declareClass options (name ρ) (call ρ) range := by
  have hdeclarator : Uniform P fun ρ => .node none (.declarator (name ρ) (some (call ρ))) range :=
    inner none (.declarator name (some call)) range rfl (by simp [Shape.children, hname, hcall])
  exact inner none (.varStatement (if options.blockBinding then .letWord else .varWord)
    [fun ρ => .node none (.declarator (name ρ) (some (call ρ))) range]) range rfl
    (by simpa [Shape.children] using hdeclarator)

/-- Declarations of temporaries are renumbered with the temporaries. -/
theorem declareTemps (numbers : List Nat) :
    Uniform P fun ρ => .declareTemps (numbers.map ρ) := by
  let declarator (n : Nat) : Draft :=
    fun ρ => .gen (.declarator (.gen (.binding (Temps.name (ρ n)))) none)
  have hdeclarator (n : Nat) : Uniform P (declarator n) :=
    gen (.declarator (fun ρ => .gen (.binding (Temps.name (ρ n)))) none) rfl
      (by simpa [Shape.children] using .declared n)
  have hstatement := gen (.varStatement .varWord (numbers.map declarator)) rfl
    (by simpa [Shape.children] using fun n _ => hdeclarator n)
  simpa only [Tree.declareTemps, Shape.map, List.map_map, Function.comp_def] using hstatement

theorem prepend {declaration body : Draft} (hdeclaration : Uniform P declaration)
    (hbody : Uniform P body) : Uniform P fun ρ => .prepend (declaration ρ) (body ρ) := by
  have hreturn : Uniform P fun ρ => .node none (.returnStatement (some (body ρ))) (body id).range :=
    inner none (.returnStatement (some body)) _ rfl (by simpa [Shape.children] using hbody)
  have hwrapped : Uniform P fun ρ => .node none (.block [declaration ρ,
      .node none (.returnStatement (some (body ρ))) (body id).range]) (body id).range :=
    inner none (.block [declaration, fun ρ => .node none (.returnStatement (some (body ρ))) _]) _
      rfl (by simp [Shape.children, hdeclaration, hreturn])
  cases hbody with
  | node origin shape range named below =>
    cases shape with
    | block statements =>
      exact inner none (.block (declaration :: statements)) range rfl
        (List.forall_mem_cons.mpr ⟨hdeclaration, below⟩)
    | _ => exact hwrapped
  | _ => exact hwrapped

theorem mapBody {f : Tree → (Nat → Nat) → Tree} {g : Draft → Draft}
    (hg : ∀ b ρ, g b ρ = f (b ρ) ρ) (shape : Shape Draft) (ρ : Nat → Nat) :
    (shape.mapBody g).map (· ρ) = (shape.map (· ρ)).mapBody (f · ρ) := by
  cases shape <;> simp [Shape.mapBody, Shape.map, hg]

theorem forall_mem_mapBody {g : Draft → Draft} {shape : Shape Draft}
    (h : ∀ c ∈ shape.children, Uniform P c) (hg : ∀ c, Uniform P c → Uniform P (g c)) :
    ∀ c ∈ (shape.mapBody g).children, Uniform P c := by
  cases shape <;> simp only [Shape.mapBody, Shape.children] at h ⊢ <;> grind

theorem declaring (h : Uniform P d) (numbers : List Nat) :
    Uniform P fun ρ => (d ρ).declaring (numbers.map ρ) := by
  cases numbers with
  | nil => exact h
  | cons n numbers =>
    have hdeclaration := declareTemps (P := P) (n :: numbers)
    change Uniform P fun ρ => .node none
      ((d ρ).shape.declaring (.declareTemps ((n :: numbers).map ρ))) (d ρ).range
    cases h with
    | node origin shape range named below =>
      have hnamed : ∀ name ∈ (shape.mapBody fun b ρ =>
          .prepend (.declareTemps ((n :: numbers).map ρ)) (b ρ)).name?, P name := by
        cases shape <;> exact named
      have hbody := Uniform.node none
        (shape.mapBody fun b ρ => .prepend (.declareTemps ((n :: numbers).map ρ)) (b ρ)) range
        hnamed
        (forall_mem_mapBody below fun c hc => prepend hdeclaration hc)
      simp only [mapBody (f := fun t ρ => .prepend (.declareTemps ((n :: numbers).map ρ)) t)
        fun _ _ => rfl] at hbody
      cases shape with
      | program statements =>
        exact inner none (.program ((fun ρ => .declareTemps ((n :: numbers).map ρ)) :: statements))
          range rfl (List.forall_mem_cons.mpr ⟨hdeclaration, below⟩)
      | _ => exact hbody
    | temp number => exact .temp number
    | declared number => exact .declared number

theorem constructorProperty (h : Uniform P d) : Uniform P fun ρ => (d ρ).constructorProperty := by
  have hself := h
  cases h with
  | node origin shape range named below =>
    cases shape with
    | method name parameters body =>
      let function : Draft := fun ρ =>
        .node none ((Shape.functionExpr none parameters body).map (· ρ)) range
      have hfunction : Uniform P function :=
        inner none (.functionExpr none parameters body) range rfl below
      exact inner none (.property (.identifier "constructor") function) range rfl
        (List.forall_mem_singleton.mpr hfunction)
    | _ => exact hself
  | _ => exact hself

/-- A member that is written as a property stays uniform. -/
theorem asProperty (h : Uniform P d) (kind : MemberKind) :
    Uniform P fun ρ => Tree.asProperty kind (d ρ) := by
  unfold Tree.asProperty
  split
  · exact h.constructorProperty
  · exact h

/-! ### Roles -/

theorem superRole_eq (h : Uniform P d) (role : ∀ use, (d id).superRole ≠ .use use) (ρ : Nat → Nat) :
    (d ρ).superRole = (d id).superRole := by
  obtain ⟨drole, hrole, -⟩ := h.exists_superRole
  rw [hrole, hrole] at *
  cases drole with
  | use duse => exact absurd rfl (role _)
  | _ => rfl

theorem exists_use (h : Uniform P d) {use : SuperUse Tree} (role : (d id).superRole = .use use) :
    ∃ duse : SuperUse Draft, duse.map (· id) = use ∧
      (∀ ρ, (d ρ).superRole = .use (duse.map (· ρ))) ∧
      Uniform P duse.word ∧ ∀ c ∈ duse.operands, Uniform P c := by
  obtain ⟨drole, hrole, hparts⟩ := h.exists_superRole
  rw [hrole] at role
  cases drole with
  | use duse =>
    obtain ⟨hword, hoperands⟩ := List.forall_mem_cons.mp hparts
    exact ⟨duse, SuperRole.use.inj role, hrole, hword, hoperands⟩
  | _ => cases role

end Uniform

/-! ### Members -/

variable {ds : List Draft}

theorem hasConstructor_eq (h : ∀ d ∈ ds, Uniform P d) (ρ : Nat → Nat) :
    Tree.hasConstructor (ds.map (· ρ)) = Tree.hasConstructor (ds.map (· id)) := by
  rw [Tree.hasConstructor, Tree.hasConstructor, List.any_map, List.any_map, Bool.eq_iff_iff,
    List.any_eq_true, List.any_eq_true]
  refine exists_congr fun d => and_congr_right fun hd => ?_
  simp only [Function.comp_apply, (h d hd).ofShape?_eq ρ]

/-- The members of a class, with a constructor in any case. -/
theorem exists_withConstructor (hargs : P "args") (h : ∀ d ∈ ds, Uniform P d) (hasBase : Bool) :
    ∃ es : List Draft, (∀ e ∈ es, Uniform P e) ∧
      ∀ ρ, Tree.withConstructor (ds.map (· ρ)) hasBase = es.map (· ρ) := by
  cases hctor : Tree.hasConstructor (ds.map (· id)) with
  | true =>
    refine ⟨ds, h, fun ρ => ?_⟩
    rw [Tree.withConstructor, if_pos ((hasConstructor_eq h ρ).trans hctor)]
  | false =>
    refine ⟨ds ++ [fun _ => .defaultConstructor hasBase], ?_, fun ρ => ?_⟩
    · have hconstructor : (Tree.defaultConstructor hasBase).Everywhere
          fun u => ∀ name ∈ u.name?, P name := by
        cases hasBase <;> simp [Tree.defaultConstructor, Tree.gen, Tree.ident,
          Tree.everywhere_node, Shape.children, Tree.name?, hargs]
      exact List.forall_mem_append.mpr
        ⟨h, List.forall_mem_singleton.mpr (uniform_fixed hconstructor)⟩
    · rw [Tree.withConstructor, if_neg (by simp [(hasConstructor_eq h ρ).trans hctor]),
        List.map_append]
      rfl

end Draft

/-! ### Runs on drafts -/

open Draft Account

variable {P : String → Prop}

/-- What becomes of drafts. Under every numbering that a supply gives, all that the relation `R` for
this numbering makes of the drafts is `ds'`, and the account is what it is for the first numbering,
up to the numbering. -/
structure Draws (P : String → Prop)
    (R : (Nat → Nat) → Account → List Tree → List Tree → Account → Prop) (a : Account)
    (ds ds' : List Draft) (a' : Account) : Prop where
  uniform : ∀ d ∈ ds', d.Uniform P
  run : ∀ {p : Supply} {b b' : Account} {us : List Tree}, Mirrors p a b →
    R p.nth b (ds.map (· p.nth)) us b' → us = ds'.map (· p.nth) ∧ Mirrors p a' b'

namespace Draws

variable {R : (Nat → Nat) → Account → List Tree → List Tree → Account → Prop}
  {a a₁ a' b : Account} {ds ds' : List Draft} {d d' : Draft} {us : List Tree}

/-- The first numbering is one of them. -/
theorem first (h : Draws P R a ds ds' a') (hrun : R id a (ds.map (· id)) us b) :
    us = ds'.map (· id) := by
  have heq := (h.run (p := .initial) (.initial a) (Supply.nth_initial ▸ hrun)).1
  rwa [Supply.nth_initial] at heq

theorem length_eq (h : Draws P R a ds ds' a') (hrun : R id a (ds.map (· id)) us b)
    (hlength : us.length = (ds.map (· id)).length) : ds'.length = ds.length := by
  rw [h.first hrun] at hlength
  simpa using hlength

/-- Drafts in a row. -/
theorem cons (uncons : ∀ {ρ a t ts us b}, R ρ a (t :: ts) us b →
      ∃ t' ts' a₁, us = t' :: ts' ∧ R ρ a [t] [t'] a₁ ∧ R ρ a₁ ts ts' b)
    (head : Draws P R a [d] [d'] a₁) (tail : Draws P R a₁ ds ds' a') :
    Draws P R a (d :: ds) (d' :: ds') a' where
  uniform := List.forall_mem_cons.mpr ⟨head.uniform d' List.mem_cons_self, tail.uniform⟩
  run := by
    intro p b b' us hb hrun
    obtain ⟨t', ts', b₁, rfl, hhead, htail⟩ := uncons hrun
    obtain ⟨heq, hb₁⟩ := head.run hb hhead
    obtain ⟨rfl, hb'⟩ := tail.run hb₁ htail
    exact ⟨congrArg (· :: _) (List.cons.inj heq).1, hb'⟩

theorem single (hd' : d'.Uniform P) (run : ∀ {p : Supply} {b b' : Account} {us : List Tree},
      Mirrors p a b → R p.nth b [d p.nth] us b' → us = [d' p.nth] ∧ Mirrors p a' b') :
    Draws P R a [d] [d'] a' :=
  ⟨List.forall_mem_singleton.mpr hd', run⟩

/-- A construct of which only the parts change. -/
theorem exists_withChildren {S : (Nat → Nat) → Account → List Tree → List Tree → Account → Prop}
    (hd : d.Uniform P) (below : R id a (d id).shape.children us a')
    (hlength : us.length = (d id).shape.children.length)
    (ih : ∀ {cs : List Draft}, (∀ c ∈ cs, c.Uniform P) → cs.map (· id) = (d id).shape.children →
      ∃ ds', Draws P R a cs ds' a')
    (outcome : ∀ {ρ b us b'}, S ρ b [d ρ] us b' →
      ∃ cs, R ρ b (d ρ).shape.children cs b' ∧ us = [(d ρ).withChildren cs]) :
    ∃ ds', Draws P S a [d] ds' a' := by
  obtain ⟨cs, hcs, hchildren, hwith⟩ := hd.exists_children
  obtain ⟨ds', hdraws⟩ := ih hcs (hchildren id).symm
  rw [hchildren] at below hlength
  refine ⟨_, .single (hwith ds' (hdraws.length_eq below hlength) hdraws.uniform) ?_⟩
  intro p b b' us hb hrun
  obtain ⟨cs', hbelow, rfl⟩ := outcome hrun
  rw [hchildren] at hbelow
  obtain ⟨rfl, hb'⟩ := hdraws.run hb hbelow
  exact ⟨rfl, hb'⟩

end Draws

theorem toList_injective {α : Type} : Function.Injective (Option.toList (α := α)) := by
  intro a b h
  cases a <;> cases b <;> simp_all

theorem exists_toList_eq {α β : Type} {f : α → β} {as : List α} {b : Option β}
    (h : as.map f = b.toList) : ∃ a : Option α, as = a.toList := by
  cases b with
  | none => exact ⟨none, List.map_eq_nil_iff.mp h⟩
  | some b =>
    obtain ⟨a, rfl, -⟩ := List.map_eq_singleton_iff.mp h
    exact ⟨some a, rfl⟩

section Expansion

variable {C : (Nat → Nat) → String} {runtimeName : String} {kind : MemberKind} {nested : Bool}
  {a a₁ a' : Account} {d : Draft}

/-- The expansion of drafts in a member of a class that is named by a draft. -/
abbrev ExpandsDrafts (C : (Nat → Nat) → String) (runtimeName : String) (kind : MemberKind)
    (nested : Bool) (ρ : Nat → Nat) : Account → List Tree → List Tree → Account → Prop :=
  Expands ⟨C ρ, runtimeName, kind⟩ nested

namespace Draws

/-- A class of which only the heritage changes. -/
theorem exists_nestedClass (hd : d.Uniform P) (role : (d id).superRole = .nestedClass)
    {heritage base : Option Tree} (hfirst : (d id).shape.heritage = heritage)
    (below : ExpandsDrafts C runtimeName kind nested id a heritage.toList base.toList a')
    (ih : ∀ {hs : List Draft}, (∀ h ∈ hs, h.Uniform P) → hs.map (· id) = heritage.toList →
      ∃ ds', Draws P (ExpandsDrafts C runtimeName kind nested) a hs ds' a') :
    ∃ ds', Draws P (ExpandsDrafts C runtimeName kind nested) a [d] ds' a' := by
  obtain ⟨base, hbase, hheritage⟩ := hd.exists_heritage
  have hfirst : base.toList.map (· id) = heritage.toList := by
    rw [← hfirst, hheritage, Option.toList_map]
  obtain ⟨ds', hdraws⟩ := ih (by simpa using hbase) hfirst
  obtain ⟨base', rfl⟩ := exists_toList_eq (hdraws.first (by rw [hfirst]; exact below)).symm
  refine ⟨_, .single (hd.withHeritage base' (by simpa using hdraws.uniform)) ?_⟩
  intro p b b' us hb hrun
  have houtcome := hrun.outcome
  rw [Expands.Outcome, hd.superRole_eq (by simp [role]), role] at houtcome
  obtain ⟨base₂, hbelow, rfl⟩ := houtcome
  rw [hheritage, Option.toList_map] at hbelow
  obtain ⟨heq, hb'⟩ := hdraws.run hb hbelow
  rw [← Option.toList_map] at heq
  rw [toList_injective heq]
  exact ⟨rfl, hb'⟩

/-- A call of `super` outside a constructor, of which only the arguments change. -/
theorem exists_stray (hd : d.Uniform P) {word : Tree} {arguments : List Tree}
    (role : (d id).superRole = .use (.call word arguments)) (hkind : kind ≠ .constructor)
    (ih : ∀ {os : List Draft}, (∀ o ∈ os, o.Uniform P) → os.map (· id) = arguments →
      ∃ ds', Draws P (ExpandsDrafts C runtimeName kind false)
        (a.report word.range .superCallOutsideConstructor) os ds' a') :
    ∃ ds', Draws P (ExpandsDrafts C runtimeName kind false) a [d] ds' a' := by
  obtain ⟨use, huse, hrole, hword, hoperands⟩ := hd.exists_use role
  have hform : use.form kind = .stray := by
    rw [← SuperUse.form_map kind (· id), huse]
    exact if_neg hkind
  have hfirst : use.operands.map (· id) = arguments := by
    rw [← SuperUse.operands_map, huse]
    rfl
  obtain ⟨ds', hdraws⟩ := ih hoperands hfirst
  have hcode : Draft.Uniform P fun ρ =>
      .node none (.call (use.word ρ) (ds'.map (· ρ))) (d id).range :=
    .inner none (.call use.word ds') _ rfl (List.forall_mem_cons.mpr ⟨hword, hdraws.uniform⟩)
  refine ⟨_, .single hcode ?_⟩
  intro p b b' us hb hrun
  have houtcome := hrun.outcome
  simp only [Expands.Outcome, hrole, SuperUse.form_map, hform] at houtcome
  obtain ⟨arguments, hbelow, rfl⟩ := houtcome
  rw [SuperUse.operands_map] at hbelow
  obtain ⟨rfl, hb'⟩ := hdraws.run (hb.report ..) hbelow
  rw [SuperUse.word_map, hd.range_eq]
  exact ⟨rfl, hb'⟩

/-- A use of `super` whose key is written down once. -/
theorem exists_direct (hC : Naming P C) (hruntime : P runtimeName) (hd : d.Uniform P)
    {use : SuperUse Tree} {operands : List Tree} {t' : Tree}
    (role : (d id).superRole = .use use)
    (code : Site.Direct ⟨C id, runtimeName, kind⟩ (d id).range use operands t')
    (ih : ∀ {os : List Draft}, (∀ o ∈ os, o.Uniform P) → os.map (· id) = use.operands →
      ∃ ds', Draws P (ExpandsDrafts C runtimeName kind false) a os ds' a') :
    ∃ ds', Draws P (ExpandsDrafts C runtimeName kind false) a [d] ds' (a'.withUsed true) := by
  obtain ⟨use, rfl, hrole, -, hoperands⟩ := hd.exists_use role
  have hform : use.form kind = .direct :=
    (SuperUse.form_map kind (· id) use).symm.trans code.form_eq
  obtain ⟨ds', hdraws⟩ := ih hoperands (SuperUse.operands_map _ use).symm
  have hcode : Draft.Uniform P fun ρ => Site.directCode ⟨C ρ, runtimeName, kind⟩ (d id).range
      (use.map (· ρ)) (ds'.map (· ρ)) :=
    .directCode hruntime hC (d id).range use hdraws.uniform
  refine ⟨_, .single hcode ?_⟩
  intro p b b' us hb hrun
  have houtcome := hrun.outcome
  simp only [Expands.Outcome, hrole, SuperUse.form_map, hform] at houtcome
  obtain ⟨operands, b₁, hbelow, rfl, rfl⟩ := houtcome
  rw [SuperUse.operands_map] at hbelow
  obtain ⟨rfl, hb₁⟩ := hdraws.run hb hbelow
  rw [hd.range_eq]
  exact ⟨rfl, hb₁.withUsed true⟩

/-- A use of `super` whose key is kept in a temporary. -/
theorem exists_bound (hC : Naming P C) (hruntime : P runtimeName) (hd : d.Uniform P)
    {use : SuperUse Tree} {index key t' : Tree} {rest rest' : List Tree}
    (role : (d id).superRole = .use use) (operands : use.operands = index :: rest)
    (keyed : ExpandsDrafts C runtimeName kind false id a [index] [key] a₁)
    (code : Site.Bound ⟨C id, runtimeName, kind⟩ (d id).range a₁.fresh use key rest' t')
    (ihKey : ∀ {os : List Draft}, (∀ o ∈ os, o.Uniform P) → os.map (· id) = [index] →
      ∃ ds', Draws P (ExpandsDrafts C runtimeName kind false) a os ds' a₁)
    (ihRest : ∀ {os : List Draft}, (∀ o ∈ os, o.Uniform P) → os.map (· id) = rest →
      ∃ ds', Draws P (ExpandsDrafts C runtimeName kind false) a₁.allocate os ds' a') :
    ∃ ds', Draws P (ExpandsDrafts C runtimeName kind false) a [d] ds' (a'.withUsed true) := by
  obtain ⟨use, rfl, hrole, -, hoperands⟩ := hd.exists_use role
  have hform : use.form kind = .bound :=
    (SuperUse.form_map kind (· id) use).symm.trans code.form_eq
  rw [SuperUse.operands_map] at operands
  obtain ⟨index, rest, hsplit, rfl, rfl⟩ := List.map_eq_cons_iff.mp operands
  obtain ⟨hindex, hrest⟩ := List.forall_mem_cons.mp (hsplit ▸ hoperands)
  obtain ⟨ks, hkeyDraws⟩ := ihKey (List.forall_mem_singleton.mpr hindex) rfl
  obtain ⟨key, rfl, -⟩ := List.map_eq_singleton_iff.mp (hkeyDraws.first keyed).symm
  obtain ⟨ds', hdraws⟩ := ihRest hrest rfl
  have hcode : Draft.Uniform P fun ρ => Site.boundCode ⟨C ρ, runtimeName, kind⟩ (d id).range
      (ρ a₁.fresh) (key ρ) (use.map (· ρ)) (ds'.map (· ρ)) :=
    .boundCode hruntime hC (d id).range _ (hkeyDraws.uniform key List.mem_cons_self) use
      hdraws.uniform
  refine ⟨_, .single hcode ?_⟩
  intro p b b' us hb hrun
  have houtcome := hrun.outcome
  simp only [Expands.Outcome, hrole, SuperUse.form_map, hform] at houtcome
  obtain ⟨index', rest', key', rest'', b₁, b₂, hsplit', hkeyed, hbelow, rfl, rfl⟩ := houtcome
  rw [SuperUse.operands_map, hsplit] at hsplit'
  obtain ⟨rfl, rfl⟩ := List.cons.inj hsplit'
  obtain ⟨heq, hb₁⟩ := hkeyDraws.run hb hkeyed
  obtain ⟨rfl, hb₂⟩ := hdraws.run hb₁.allocate hbelow
  rw [(List.cons.inj heq).1, hb₁.fresh_eq, hd.range_eq]
  exact ⟨rfl, hb₂.withUsed true⟩

end Draws

end Expansion

/-- **The expansion of drafts.** -/
theorem Expands.draws {site : Site} {nested : Bool} {a a' : Account} {ts ts' : List Tree}
    (h : Expands site nested a ts ts' a') {C : (Nat → Nat) → String} (hC : Naming P C)
    (hsite : C id = site.className) (hruntime : P site.runtimeName) {ds : List Draft}
    (hds : ∀ d ∈ ds, d.Uniform P) (hts : ds.map (· id) = ts) :
    ∃ ds', Draws P (ExpandsDrafts C site.runtimeName site.kind nested) a ds ds' a' := by
  obtain ⟨c, runtimeName, kind⟩ := site
  subst hsite
  induction h generalizing ds with
  | nil =>
    obtain rfl := List.map_eq_nil_iff.mp hts
    refine ⟨[], List.forall_mem_nil _, ?_⟩
    rintro p b b' us hb ⟨⟩
    exact ⟨rfl, hb⟩
  | cons head tail ihHead ihTail =>
    obtain ⟨d, ds, rfl, rfl, htail⟩ := List.map_eq_cons_iff.mp hts
    obtain ⟨hd, hds⟩ := List.forall_mem_cons.mp hds
    obtain ⟨ds₁, hhead⟩ := ihHead (List.forall_mem_singleton.mpr hd) rfl
    obtain ⟨d', rfl, -⟩ := List.map_eq_singleton_iff.mp (hhead.first head).symm
    obtain ⟨ds', htail⟩ := ihTail hds htail
    exact ⟨d' :: ds', hhead.cons Expands.uncons htail⟩
  | walk role below ih =>
    obtain ⟨d, rfl, rfl⟩ := List.map_eq_singleton_iff.mp hts
    have hd := List.forall_mem_singleton.mp hds
    refine Draws.exists_withChildren hd below below.length_eq ih fun hrun => ?_
    have houtcome := hrun.outcome
    rwa [Outcome, hd.superRole_eq (by simp [role]), role] at houtcome
  | enter role below ih =>
    obtain ⟨d, rfl, rfl⟩ := List.map_eq_singleton_iff.mp hts
    have hd := List.forall_mem_singleton.mp hds
    refine Draws.exists_withChildren hd below below.length_eq ih fun hrun => ?_
    have houtcome := hrun.outcome
    rwa [Outcome, hd.superRole_eq (by simp [role]), role] at houtcome
  | classDecl below ih | classExpr below ih =>
    obtain ⟨d, rfl, hd⟩ := List.map_eq_singleton_iff.mp hts
    exact Draws.exists_nestedClass (List.forall_mem_singleton.mp hds) (by rw [hd]; rfl)
      (by rw [hd]; rfl) below ih
  | misplaced role =>
    obtain ⟨d, rfl, rfl⟩ := List.map_eq_singleton_iff.mp hts
    have hd := List.forall_mem_singleton.mp hds
    obtain ⟨use, -, hrole, -⟩ := hd.exists_use role
    refine ⟨_, .single hd ?_⟩
    intro p b b' us hb hrun
    have houtcome := hrun.outcome
    rw [Outcome, hrole] at houtcome
    obtain ⟨rfl, rfl⟩ := houtcome
    exact ⟨rfl, hb.report ..⟩
  | bare role =>
    obtain ⟨d, rfl, rfl⟩ := List.map_eq_singleton_iff.mp hts
    have hd := List.forall_mem_singleton.mp hds
    obtain ⟨use, huse, hrole, -⟩ := hd.exists_use role
    have hform : use.form kind = .bare := by rw [← SuperUse.form_map kind (· id), huse]; rfl
    refine ⟨_, .single hd ?_⟩
    intro p b b' us hb hrun
    have houtcome := hrun.outcome
    simp only [Outcome, hrole, SuperUse.form_map, hform] at houtcome
    obtain ⟨rfl, rfl⟩ := houtcome
    exact ⟨rfl, hb.report ..⟩
  | stray role hkind below ih =>
    obtain ⟨d, rfl, rfl⟩ := List.map_eq_singleton_iff.mp hts
    exact Draws.exists_stray (List.forall_mem_singleton.mp hds) role hkind ih
  | direct role below code ih =>
    obtain ⟨d, rfl, rfl⟩ := List.map_eq_singleton_iff.mp hts
    exact Draws.exists_direct hC hruntime (List.forall_mem_singleton.mp hds) role code ih
  | bound role operands keyed below code ihKey ihRest =>
    obtain ⟨d, rfl, rfl⟩ := List.map_eq_singleton_iff.mp hts
    exact Draws.exists_bound hC hruntime (List.forall_mem_singleton.mp hds) role operands keyed
      code ihKey ihRest

/-- The lowering of a class that is named `N` inside its members, once its name is dealt with. -/
theorem exists_createClass_draws {options : Options} {N : (Nat → Nat) → String}
    {heritage : Option Draft} {members : List Draft} {a a₁ a₂ : Account} {base : Option Tree}
    (hruntime : P options.runtimeName) (hargs : P "args") (hmembers : ∀ m ∈ members, m.Uniform P)
    (r : Option Range)
    (above : Lowers options none a (heritage.map (· id)).toList base.toList a₁)
    (habove : ∃ ds, Draws P (fun _ => Lowers options none) a heritage.toList ds a₁)
    (hbelow : ∀ es : List Draft, (∀ e ∈ es, e.Uniform P) →
      es.map (· id) = Tree.withConstructor (members.map (· id)) base.isSome →
      ∃ ps, Draws P (fun ρ => Lowers options (some (N ρ))) (a₁.withUsed false) es ps a₂) :
    ∃ call : Draft, call.Uniform P ∧
      ∀ {p : Supply} {b b₁ b₂ : Account} {base₂ : Option Tree} {properties : List Tree},
        Mirrors p a b →
        Lowers options none b (heritage.map (· p.nth)).toList base₂.toList b₁ →
        Lowers options (some (N p.nth)) (b₁.withUsed false)
          (Tree.withConstructor (members.map (· p.nth)) base₂.isSome) properties b₂ →
        .createClass options properties (Tree.hasConstructor (members.map (· p.nth))) base₂ r =
          call p.nth ∧ Mirrors p a₁ b₁ ∧ Mirrors p a₂ b₂ := by
  obtain ⟨ds, habove⟩ := habove
  have hfirst := habove.first (by rwa [← Option.toList_map])
  obtain ⟨base', rfl⟩ := exists_toList_eq hfirst.symm
  rw [← Option.toList_map] at hfirst
  obtain rfl := toList_injective hfirst
  rw [Option.isSome_map] at hbelow
  obtain ⟨es, hes, hwith⟩ := exists_withConstructor hargs hmembers base'.isSome
  obtain ⟨ps, hbelow⟩ := hbelow es hes (hwith id).symm
  refine ⟨_, .createClass hruntime (Tree.hasConstructor (members.map (· id))) hbelow.uniform
    (by simpa using habove.uniform) r, ?_⟩
  intro p b b₁ b₂ base₂ properties hb hrun₁ hrun₂
  rw [Option.toList_map] at hrun₁
  obtain ⟨heq, hb₁⟩ := habove.run hb hrun₁
  rw [← Option.toList_map] at heq
  obtain rfl := toList_injective heq
  rw [Option.isSome_map, hwith] at hrun₂
  obtain ⟨rfl, hb₂⟩ := hbelow.run (hb₁.withUsed false) hrun₂
  rw [Draft.hasConstructor_eq hmembers]
  exact ⟨rfl, hb₁, hb₂⟩

/-- The lowering of a class expression, whether the class is kept in its temporary or not. -/
theorem exists_classExpr_draws {options : Options} {a a₁ a₂ : Account} {d : Draft}
    {o : Option NodeId} {name heritage base : Option Tree} {members : List Tree} {r : Option Range}
    (hruntime : P options.runtimeName) (hargs : P "args") (hd : d.Uniform P)
    (hd' : d id = .node o (.classExpr name heritage members) r)
    (above : Lowers options none a.allocate heritage.toList base.toList a₁)
    (habove : ∀ hs : List Draft, (∀ h ∈ hs, h.Uniform P) → hs.map (· id) = heritage.toList →
      ∃ ds, Draws P (fun _ => Lowers options none) a.allocate hs ds a₁)
    (hbelow : ∀ es : List Draft, (∀ e ∈ es, e.Uniform P) →
      es.map (· id) = Tree.withConstructor members base.isSome →
      ∃ ps, Draws P (fun ρ => Lowers options (some (Temps.name (ρ a.fresh)))) (a₁.withUsed false)
        es ps a₂) :
    ∃ call : Draft, call.Uniform P ∧ ∀ {p : Supply} {b b' : Account} {us : List Tree},
      Mirrors p a b → Lowers options none b [d p.nth] us b' →
      ∃ b₂, Mirrors p a₂ b₂ ∧ (us, b') = if b₂.used then
          ([.node none (.paren (.assign (.temp (p.nth a.fresh)) (call p.nth))) r],
            b₂.withUsed a₁.used)
        else ([call p.nth], (b₂.withUsed a₁.used).release (p.nth a.fresh)) := by
  obtain ⟨dname, dheritage, dmembers, hd, hheritage, hmembers⟩ := hd.exists_classExpr hd'
  obtain ⟨rfl, rfl, rfl⟩ := by simpa [hd] using hd'
  obtain ⟨call, hcall, hparts⟩ := exists_createClass_draws hruntime hargs hmembers r above
    (habove _ (by simpa using hheritage) Option.toList_map.symm) hbelow
  refine ⟨call, hcall, fun {p b b' us} hb hrun => ?_⟩
  rw [hd] at hrun
  obtain ⟨base₂, properties, b₁, b₂, hrun₁, hrun₂, heq⟩ := hrun.of_classExpr
  rw [hb.fresh_eq] at hrun₂ heq
  obtain ⟨heq', hb₁, hb₂⟩ := hparts hb.allocate hrun₁ hrun₂
  rw [heq', hb₁.used] at heq
  exact ⟨b₂, hb₂, heq⟩

namespace Draws

variable {options : Options} {a a₁ a₂ a' : Account} {d : Draft}

/-- A program or a function, with temporaries of its own. -/
theorem exists_scope (hd : d.Uniform P) (owner : (d id).shape.ownsTemps = true) {us : List Tree}
    (below : Lowers options none a.openScope (d id).shape.children us a₁)
    (ih : ∀ {cs : List Draft}, (∀ c ∈ cs, c.Uniform P) → cs.map (· id) = (d id).shape.children →
      ∃ ds', Draws P (fun _ => Lowers options none) a.openScope cs ds' a₁) :
    ∃ ds', Draws P (fun _ => Lowers options none) a [d] ds' a₁.closeScope := by
  obtain ⟨cs, hcs, hchildren, hwith⟩ := hd.exists_children
  obtain ⟨ds', hdraws⟩ := ih hcs (hchildren id).symm
  rw [hchildren] at below
  have hcode := hwith ds' (hdraws.length_eq below below.length_eq) hdraws.uniform
  refine ⟨_, .single (hcode.declaring a₁.held) ?_⟩
  intro p b b' us hb hrun
  obtain ⟨cs', b₁, hbelow, rfl, rfl⟩ := hrun.of_owner ((hd.ownsTemps_eq _).trans owner)
  rw [hchildren] at hbelow
  obtain ⟨rfl, hb₁⟩ := hdraws.run hb.openScope hbelow
  rw [hb₁.held_eq]
  exact ⟨rfl, hb₁.closeScope⟩

/-- A class declaration, whose name is a draft as the class is. -/
theorem exists_declareClass (hruntime : P options.runtimeName) (hargs : P "args")
    (hd : d.Uniform P) {o : Option NodeId} {name : Tree} {heritage base : Option Tree}
    {members : List Tree} {r : Option Range} {c : String}
    (hd' : d id = .node o (.classDecl name heritage members) r) (named : name.name? = some c)
    (above : Lowers options none a heritage.toList base.toList a₁)
    (ihAbove : ∀ {hs : List Draft}, (∀ h ∈ hs, h.Uniform P) → hs.map (· id) = heritage.toList →
      ∃ ds', Draws P (fun _ => Lowers options none) a hs ds' a₁)
    (ihBelow : ∀ {N : (Nat → Nat) → String}, Naming P N → N id = c → ∀ es : List Draft,
      (∀ e ∈ es, e.Uniform P) → es.map (· id) = Tree.withConstructor members base.isSome →
      ∃ ps, Draws P (fun ρ => Lowers options (some (N ρ))) (a₁.withUsed false) es ps a₂) :
    ∃ ds', Draws P (fun _ => Lowers options none) a [d] ds' (a₂.withUsed a₁.used) := by
  obtain ⟨name, heritage, members, hd, hname, hheritage, hmembers⟩ := hd.exists_classDecl hd'
  obtain ⟨rfl, rfl, rfl⟩ := by simpa [hd] using hd'
  obtain ⟨N, hN, hnames⟩ := hname.exists_name named
  obtain ⟨call, hcall, hparts⟩ := exists_createClass_draws hruntime hargs hmembers r above
    (ihAbove (by simpa using hheritage) Option.toList_map.symm)
    (ihBelow hN (Option.some.inj ((hnames id).symm.trans named)))
  refine ⟨_, .single (hname.declareClass options hcall r) ?_⟩
  intro p b b' us hb hrun
  rw [hd] at hrun
  obtain ⟨c', base₂, properties, b₁, b₂, named', habove, hbelow, rfl, rfl⟩ := hrun.of_classDecl
  obtain rfl := Option.some.inj ((hnames _).symm.trans named')
  obtain ⟨heq, hb₁, hb₂⟩ := hparts hb habove hbelow
  rw [heq, hb₁.used]
  exact ⟨rfl, hb₂.withUsed _⟩

/-- A member, which is expanded and then lowered. -/
theorem exists_member (hruntime : P options.runtimeName) {N : (Nat → Nat) → String}
    (hN : Naming P N) (hd : d.Uniform P) {kind : MemberKind} {cs cs' : List Tree}
    (legal : MemberKind.ofShape? (d id).shape = some kind)
    (expanded : Expands ⟨N id, options.runtimeName, kind⟩ false a.openScope
      (d id).shape.children cs a₁)
    (below : Lowers options none a₁ cs cs' a₂)
    (ih : ∀ {ds : List Draft}, (∀ d ∈ ds, d.Uniform P) → ds.map (· id) = cs →
      ∃ ds', Draws P (fun _ => Lowers options none) a₁ ds ds' a₂) :
    ∃ ds', Draws P (fun ρ => Lowers options (some (N ρ))) a [d] ds' a₂.closeScope := by
  obtain ⟨cs, hcs, hchildren, hwith⟩ := hd.exists_children
  rw [hchildren] at expanded
  obtain ⟨es, hexpands⟩ := expanded.draws hN rfl hruntime hcs rfl
  obtain rfl := hexpands.first expanded
  obtain ⟨ds', hdraws⟩ := ih hexpands.uniform rfl
  have hlength : ds'.length = cs.length :=
    (hdraws.length_eq below below.length_eq).trans
      (hexpands.length_eq expanded expanded.length_eq)
  have hcode := (hwith ds' hlength hdraws.uniform).declaring a₂.held
  refine ⟨_, .single (hcode.asProperty kind) ?_⟩
  intro p b b' us hb hrun
  obtain ⟨kind', cs₁, cs₂, b₁, b₂, legal', hexpanded, hbelow, rfl, rfl⟩ := hrun.of_member
  obtain rfl : kind = kind' :=
    Option.some.inj (legal.symm.trans ((hd.ofShape?_eq _).symm.trans legal'))
  rw [hchildren] at hexpanded
  obtain ⟨rfl, hb₁⟩ := hexpands.run hb.openScope hexpanded
  obtain ⟨rfl, hb₂⟩ := hdraws.run hb₁ hbelow
  rw [hb₂.held_eq]
  exact ⟨rfl, hb₂.closeScope⟩

end Draws

/-- **The lowering of drafts.** The names of classes are drafts too. -/
theorem Lowers.draws {options : Options} {c : Option String} {a a' : Account} {ts ts' : List Tree}
    (h : Lowers options c a ts ts' a') (ordered : a.temps.Ordered)
    (hruntime : P options.runtimeName) (hargs : P "args")
    {C : Option ((Nat → Nat) → String)} (hC : ∀ N ∈ C, Naming P N) (hc : C.map (· id) = c)
    {ds : List Draft} (hds : ∀ d ∈ ds, d.Uniform P) (hts : ds.map (· id) = ts) :
    ∃ ds', Draws P (fun ρ => Lowers options (C.map (· ρ))) a ds ds' a' := by
  induction h generalizing C ds with
  | nil =>
    obtain rfl := List.map_eq_nil_iff.mp hts
    refine ⟨[], List.forall_mem_nil _, ?_⟩
    intro p b b' us hb hrun
    obtain ⟨rfl, rfl⟩ := hrun.of_nil
    exact ⟨rfl, hb⟩
  | cons head tail ihHead ihTail =>
    obtain ⟨d, ds, rfl, rfl, htail⟩ := List.map_eq_cons_iff.mp hts
    obtain ⟨hd, hds⟩ := List.forall_mem_cons.mp hds
    obtain ⟨ds₁, hhead⟩ := ihHead ordered hC hc (List.forall_mem_singleton.mpr hd) rfl
    obtain ⟨d', rfl, -⟩ := List.map_eq_singleton_iff.mp (hhead.first (hc ▸ head)).symm
    obtain ⟨ds', htail⟩ := ihTail (head.part.ordered ordered) hC hc hds htail
    exact ⟨d' :: ds', hhead.cons Lowers.uncons htail⟩
  | walk plain shared below ih =>
    obtain rfl := Option.map_eq_none_iff.mp hc
    obtain ⟨d, rfl, rfl⟩ := List.map_eq_singleton_iff.mp hts
    have hd := List.forall_mem_singleton.mp hds
    exact Draws.exists_withChildren hd below below.length_eq (ih ordered hC rfl)
      (Lowers.of_plain ((hd.isClass_eq _).trans plain) ((hd.ownsTemps_eq _).trans shared))
  | scope owner below ih =>
    obtain rfl := Option.map_eq_none_iff.mp hc
    obtain ⟨d, rfl, rfl⟩ := List.map_eq_singleton_iff.mp hts
    exact Draws.exists_scope (List.forall_mem_singleton.mp hds) owner below (ih ordered.push hC rfl)
  | classDecl named above below ihAbove ihBelow =>
    obtain rfl := Option.map_eq_none_iff.mp hc
    obtain ⟨d, rfl, hd⟩ := List.map_eq_singleton_iff.mp hts
    refine Draws.exists_declareClass hruntime hargs (List.forall_mem_singleton.mp hds) hd named
      above (ihAbove ordered hC rfl) fun {N} hN hname es hes heq => ?_
    exact ihBelow (above.part.ordered ordered) (C := some N) (by simpa using hN)
      (congrArg some hname) hes heq
  | @classExprBound a _ _ _ _ _ _ _ _ r above below used ihAbove ihBelow =>
    obtain rfl := Option.map_eq_none_iff.mp hc
    obtain ⟨d, rfl, hd'⟩ := List.map_eq_singleton_iff.mp hts
    obtain ⟨call, hcall, houtcome⟩ := exists_classExpr_draws hruntime hargs
      (List.forall_mem_singleton.mp hds) hd' above
      (fun hs hhs heq => ihAbove ordered.allocate hC rfl hhs heq) fun es hes heq =>
        ihBelow (above.part.ordered ordered.allocate) (C := some fun ρ => Temps.name (ρ a.fresh))
          (by simpa using .temp _) rfl hes heq
    refine ⟨_, .single (hcall.parenAssign a.fresh r) ?_⟩
    intro p b b' us hb hrun
    obtain ⟨b₂, hb₂, heq⟩ := houtcome hb hrun
    rw [if_pos (hb₂.used.trans used)] at heq
    obtain ⟨rfl, rfl⟩ := Prod.mk.inj heq
    exact ⟨rfl, hb₂.withUsed _⟩
  | @classExprFree a a₁ _ _ _ _ _ _ _ r above below unused ihAbove ihBelow =>
    obtain rfl := Option.map_eq_none_iff.mp hc
    obtain ⟨d, rfl, hd'⟩ := List.map_eq_singleton_iff.mp hts
    obtain ⟨call, hcall, houtcome⟩ := exists_classExpr_draws hruntime hargs
      (List.forall_mem_singleton.mp hds) hd' above
      (fun hs hhs heq => ihAbove ordered.allocate hC rfl hhs heq) fun es hes heq =>
        ihBelow (above.part.ordered ordered.allocate) (C := some fun ρ => Temps.name (ρ a.fresh))
          (by simpa using .temp _) rfl hes heq
    have hordered := below.part.ordered (above.part.ordered ordered.allocate)
    refine ⟨_, .single hcall ?_⟩
    intro p b b' us hb hrun
    obtain ⟨b₂, hb₂, heq⟩ := houtcome hb hrun
    rw [if_neg (by simp [hb₂.used.trans unused])] at heq
    obtain ⟨rfl, rfl⟩ := Prod.mk.inj heq
    exact ⟨rfl, (hb₂.withUsed a₁.used).release hordered a.fresh⟩
  | member legal expanded below ih =>
    obtain ⟨N, rfl, rfl⟩ := Option.map_eq_some_iff.mp hc
    obtain ⟨d, rfl, rfl⟩ := List.map_eq_singleton_iff.mp hts
    exact Draws.exists_member hruntime (hC N rfl) (List.forall_mem_singleton.mp hds) legal expanded
      below (ih (expanded.part.ordered ordered.push) (C := none) (by simp) rfl)

end Declass
