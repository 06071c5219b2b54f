import Declass.Proofs.Declaring
import Declass.Proofs.Expansion
import Declass.Proofs.Gather

/-!
# The lowering of classes in a store

The edits that lower classes make nodes that denote what `Lowers` says. They fail on trees with
faults only, as `Halts` says and with the first of them.

Depth is bounded twice. The bound on the height of a tree is taken anew for each member, from the
store at that moment, and no tree in a store is higher. The bound on the nesting of classes is taken
once, at the start; expanding `super` does not nest classes deeper, so it holds to the end.

## Main results

* `lowerNode_follows`, `lowerMember_spec` — the lowering of a node and of a member
* `lowerProgram_spec` — the lowering of a program
-/

namespace Declass

open Edit Lowering

variable {n : Nat} {Γ : Known} {v : View} {options : Options}

/-! ### Lists of trees -/

namespace Lowers

variable {c : Option String} {a a₁ a' : Account} {t t' : Tree} {ts ts' us us' : List Tree}

theorem of_cons (head : Lowers options c a [t] [t'] a₁) (tail : Lowers options c a₁ ts ts' a') :
    Lowers options c a (t :: ts) (t' :: ts') a' := by
  cases ts with
  | nil =>
    cases tail
    exact head
  | cons u ts => exact .cons head tail

/-- Each tree is lowered to one tree. -/
theorem length_eq (h : Lowers options c a ts ts' a') : ts'.length = ts.length := by
  induction h with
  | cons _ _ _ ih => simpa using ih
  | _ => rfl

/-- The heritage of a class is there before and after. -/
theorem isSome_eq {heritage base : Option Tree}
    (h : Lowers options none a heritage.toList base.toList a') : base.isSome = heritage.isSome := by
  have hlength := h.length_eq
  cases heritage <;> cases base <;> simp_all

theorem uncons (h : Lowers options c a (t :: ts) us a') :
    ∃ t' ts' a₁, us = t' :: ts' ∧ Lowers options c a [t] [t'] a₁ ∧
      Lowers options c a₁ ts ts' a' := by
  cases ts with
  | nil =>
    obtain ⟨t', rfl⟩ := List.length_eq_one_iff.mp h.length_eq
    exact ⟨t', [], a', rfl, h, .nil⟩
  | cons u ts =>
    cases h with
    | cons head tail => exact ⟨_, _, _, rfl, head, tail⟩

theorem append (h₁ : Lowers options c a ts ts' a₁) (h₂ : Lowers options c a₁ us us' a') :
    Lowers options c a (ts ++ us) (ts' ++ us') a' := by
  induction ts generalizing a ts' with
  | nil =>
    cases h₁
    exact h₂
  | cons t ts ih =>
    obtain ⟨t', ts', a₂, rfl, head, tail⟩ := h₁.uncons
    exact head.of_cons (ih tail)

end Lowers

/-! ### Faults -/

namespace Tree

/-- What is no class has the faults of its parts. -/
theorem faults_of_not_isClass {t : Tree} (h : t.shape.isClass = false) :
    t.faults = t.shape.children.flatMap faults := by
  rw [faults, gather_of_not_isClass h, List.nil_append]

/-- The faults of a class: its name, its heritage, and its members. -/
theorem faults_of_class {t : Tree} {parts : ClassParts Tree}
    (h : t.shape.classParts? = some parts) :
    t.faults = parts.name.toList.flatMap nameFaults ++
      (parts.heritage.toList.flatMap faults ++
        parts.members.flatMap fun m => m.memberFaults ++ m.faults) := by
  obtain ⟨o, s, r⟩ := t
  rw [shape_node] at h
  rw [faults, gather_node, h]
  cases hname : parts.name <;> cases hheritage : parts.heritage <;>
    simp [ClassParts.map, hname, hheritage, List.flatMap_map]

theorem faults_classDecl (o : Option NodeId) (name : Tree) (heritage : Option Tree)
    (members : List Tree) (r : Option Range) :
    faults (.node o (.classDecl name heritage members) r) = name.nameFaults ++
      (heritage.toList.flatMap faults ++ members.flatMap fun m => m.memberFaults ++ m.faults) := by
  rw [faults, gather_node]
  cases heritage <;> simp [Shape.classParts?, ClassParts.map, List.flatMap_map]

theorem faults_classExpr (o : Option NodeId) (name heritage : Option Tree) (members : List Tree)
    (r : Option Range) :
    faults (.node o (.classExpr name heritage members) r) =
      heritage.toList.flatMap faults ++ members.flatMap fun m => m.memberFaults ++ m.faults := by
  rw [faults, gather_node]
  cases heritage <;> simp [Shape.classParts?, ClassParts.map, List.flatMap_map]

theorem classDepths_of_not_isClass {t : Tree} (h : t.shape.isClass = false) :
    t.classDepths = t.shape.children.flatMap classDepths := by
  rw [classDepths, gather_of_not_isClass h, List.nil_append]

theorem classDepths_classDecl (o : Option NodeId) (name : Tree) (heritage : Option Tree)
    (members : List Tree) (r : Option Range) :
    classDepths (.node o (.classDecl name heritage members) r) =
      heritage.toList.flatMap classDepths ++
        1 :: members.flatMap fun m => m.classDepths.map (· + 1) := by
  rw [classDepths, gather_node]
  cases heritage <;> simp [Shape.classParts?, ClassParts.map, List.flatMap_map]

theorem classDepths_classExpr (o : Option NodeId) (name heritage : Option Tree)
    (members : List Tree) (r : Option Range) :
    classDepths (.node o (.classExpr name heritage members) r) =
      heritage.toList.flatMap classDepths ++
        1 :: members.flatMap fun m => m.classDepths.map (· + 1) := by
  rw [classDepths, gather_node]
  cases heritage <;> simp [Shape.classParts?, ClassParts.map, List.flatMap_map]

/-- The faults of code, or of a member of a class. -/
def faultsAs : Option String → Tree → List Fault
  | none, t => t.faults
  | some _, t => t.memberFaults ++ t.faults

/-- What has temporaries of its own is no class. -/
theorem isClass_of_ownsTemps {α : Type} {s : Shape α} (h : s.ownsTemps = true) :
    s.isClass = false := by
  cases s <;> first | rfl | cases h

/-- Members have temporaries of their own. -/
theorem ownsTemps_of_ofShape? {α : Type} {s : Shape α} {kind : MemberKind}
    (h : MemberKind.ofShape? s = some kind) : s.ownsTemps = true := by
  cases s <;> first | rfl | cases h

end Tree

/-- A method, a getter or a setter. -/
inductive Shape.IsMember {α : Type} : Shape α → Prop where
  | method (name : PropertyName) (parameters : List α) (body : α) :
      IsMember (.method name parameters body)
  | getter (name : PropertyName) (body : α) : IsMember (.getter name body)
  | setter (name : PropertyName) (incoming body : α) : IsMember (.setter name incoming body)

/-- Methods, getters and setters are the members that there are. -/
theorem MemberKind.isSome_ofShape?_iff {α : Type} {s : Shape α} :
    (ofShape? s).isSome ↔ s.IsMember := by
  constructor
  · intro h
    cases s with
    | method name parameters body => exact .method name parameters body
    | getter name body => exact .getter name body
    | setter name incoming body => exact .setter name incoming body
    | _ => cases h
  · rintro (_ | _ | _) <;> rfl

/-- What has no kind is no member. -/
theorem MemberKind.ofShape?_eq_none_iff {α : Type} {s : Shape α} :
    ofShape? s = none ↔ ¬ s.IsMember := by
  rw [← isSome_ofShape?_iff, Option.not_isSome_iff_eq_none]

/-- Only trees without faults are lowered. -/
theorem Lowers.faults_eq_nil {c : Option String} {a a' : Account} {ts ts' : List Tree}
    (h : Lowers options c a ts ts' a') : ts.flatMap (Tree.faultsAs c) = [] := by
  have declared {c : String} {members : List Tree} {hasBase : Bool}
      (h : (Tree.withConstructor members hasBase).flatMap (Tree.faultsAs (some c)) = []) :
      members.flatMap (fun m => m.memberFaults ++ m.faults) = [] := by
    unfold Tree.withConstructor at h
    split at h
    · exact h
    · rw [List.flatMap_append, List.append_eq_nil_iff] at h
      exact h.1
  induction h with
  | nil => rfl
  | cons _ _ ihHead ihTail =>
    rw [List.flatMap_cons, ihTail]
    simpa using ihHead
  | walk plain _ _ ih => simpa [Tree.faultsAs, Tree.faults_of_not_isClass plain] using ih
  | scope owner _ ih =>
    simpa [Tree.faultsAs, Tree.faults_of_not_isClass (Tree.isClass_of_ownsTemps owner)] using ih
  | classDecl named _ _ ihAbove ihBelow =>
    have hname : Tree.nameFaults _ = [] := if_pos (Option.isSome_of_eq_some named)
    simpa [Tree.faultsAs, Tree.faults_classDecl, hname, declared ihBelow] using ihAbove
  | classExprBound _ _ _ ihAbove ihBelow | classExprFree _ _ _ ihAbove ihBelow =>
    simpa [Tree.faultsAs, Tree.faults_classExpr, declared ihBelow] using ihAbove
  | member legal expanded _ ih =>
    have hmember : Tree.memberFaults _ = [] := if_pos (Option.isSome_of_eq_some legal)
    have hplain := Tree.isClass_of_ownsTemps (Tree.ownsTemps_of_ofShape? legal)
    simpa [Tree.faultsAs, hmember, Tree.faults_of_not_isClass hplain, ← expanded.faults_eq] using ih

/-- A lowering fails with the first fault. -/
theorem Halts.head?_faults {c : Option String} {a a' : Account} {ts : List Tree} {fault : Fault}
    (h : Halts options c a ts fault a') : (ts.flatMap (Tree.faultsAs c)).head? = some fault := by
  have singleton (c : Option String) (t : Tree) : [t].flatMap (Tree.faultsAs c) = t.faultsAs c :=
    List.flatMap_singleton _ _
  induction h with
  | head _ ih =>
    rw [singleton] at ih
    rw [List.flatMap_cons, List.head?_append, ih]
    rfl
  | tail done _ ih =>
    have hhead := done.faults_eq_nil
    rw [singleton] at hhead
    rwa [List.flatMap_cons, hhead]
  | walk plain _ _ ih =>
    rwa [singleton, Tree.faultsAs, Tree.faults_of_not_isClass plain]
  | scope owner _ ih =>
    rwa [singleton, Tree.faultsAs, Tree.faults_of_not_isClass (Tree.isClass_of_ownsTemps owner)]
  | @declName _ _ name _ _ _ nameless =>
    have hname : name.nameFaults = [.unexpectedNode "identifier" name.shape.kind] :=
      if_neg (by simp [nameless])
    simp [Tree.faultsAs, Tree.faults_classDecl, hname]
  | declHeritage named _ ih =>
    have hname : Tree.nameFaults _ = [] := if_pos (Option.isSome_of_eq_some named)
    rw [singleton, Tree.faultsAs, Tree.faults_classDecl, hname, List.nil_append, List.head?_append]
    exact Option.or_eq_some_iff.mpr (.inl ih)
  | declMember named above _ ih =>
    have hname : Tree.nameFaults _ = [] := if_pos (Option.isSome_of_eq_some named)
    have hnone : List.flatMap Tree.faults _ = [] := above.faults_eq_nil
    rwa [singleton, Tree.faultsAs, Tree.faults_classDecl, hname, hnone]
  | exprHeritage _ ih =>
    rw [singleton, Tree.faultsAs, Tree.faults_classExpr, List.head?_append]
    exact Option.or_eq_some_iff.mpr (.inl ih)
  | exprMember above _ ih =>
    have hnone : List.flatMap Tree.faults _ = [] := above.faults_eq_nil
    rwa [singleton, Tree.faultsAs, Tree.faults_classExpr, hnone]
  | @kind _ _ t illegal =>
    have hmember : t.memberFaults = [.unexpectedMember t.shape.kind t.range] :=
      if_neg (by simp [illegal])
    simp [Tree.faultsAs, hmember]
  | member legal expanded _ ih =>
    have hmember : Tree.memberFaults _ = [] := if_pos (Option.isSome_of_eq_some legal)
    have hplain := Tree.isClass_of_ownsTemps (Tree.ownsTemps_of_ofShape? legal)
    rwa [singleton, Tree.faultsAs, hmember, List.nil_append, Tree.faults_of_not_isClass hplain,
      ← expanded.faults_eq]

/-- A lowering that can fail cannot succeed. -/
theorem Halts.not_lowers {c : Option String} {a a' b b' : Account} {ts ts' : List Tree}
    {fault : Fault} (h : Halts options c a ts fault a') (done : Lowers options c b ts ts' b') :
    False := by
  have hfault := h.head?_faults
  rw [done.faults_eq_nil] at hfault
  cases hfault

/-- Lowering as what a visit of nodes follows. -/
def Lowers.judgement (options : Options) (c : Option String) (inv : View → Prop) : Judgement where
  inv := inv
  account := View.account
  rel := Lowers options c
  fails := Halts options c
  nil _ := .nil
  cons := Lowers.of_cons
  fails_head := .head
  fails_tail := .tail

/-! ### Members -/

/-- The members of a class are lowered as `Lowers` says, if classes are nested less than `depth`
deep in them. The class is the one at hand, and its name is `c`. -/
def LowersMembers (n : Nat) (options : Options) (depth : Nat) (lowerMember : MemberLowering) :
    Prop :=
  ∀ {Γ : Known} {v : View} {id cls nameExpr : NodeId} {t : Tree} {kind : MemberKind} {c : String}
    {used : Bool} {rest : List ClassContext}, (id, t) ∈ Γ → (nameExpr, .ident c) ∈ Γ →
    MemberKind.ofShape? t.shape = some kind → (∀ d ∈ t.classDepths, d < depth) →
    v.classes = ⟨cls, nameExpr, used⟩ :: rest →
    Yields n Γ v (lowerMember kind id)
      (fun id' v' Δ => ∃ t', Δ = [(id', t')] ∧ MemberKind.ofShape? t'.shape = some kind ∧
        (∃ used', v'.classes = ⟨cls, nameExpr, used'⟩ :: rest) ∧
        Lowers options (some c) v.account [t] [t'.asProperty kind] v'.account)
      (fun fault v' => (∃ used', v'.classes = ⟨cls, nameExpr, used'⟩ :: rest) ∧
        Halts options (some c) v.account [t] fault v'.account)

/-- A constructor is a method. -/
theorem isConstructor_of_ofShape? {α : Type} {s : Shape α}
    (h : MemberKind.ofShape? s = some .constructor) :
    ∃ name parameters body, s = .method name parameters body := by
  cases s <;> simp_all [MemberKind.ofShape?]

/-- The constructor is built as a function. -/
theorem builds_constructorProperty {id : NodeId} {t : Tree} (hid : (id, t) ∈ Γ)
    (ht : MemberKind.ofShape? t.shape = some .constructor) :
    Builds n Γ (constructorProperty id) t.constructorProperty := by
  intro v E
  refine yields_node_bind hid fun z range hz => ?_
  obtain rfl : t = _ := hz
  rw [Tree.shape_node] at ht
  cases z with
  | method name parameters body =>
    refine (builds_append (.functionExpr none parameters body) range
      (by grind [Shape.children])).bind fun function => ?_
    exact builds_append (.property (.identifier "constructor")
      (function, .node none (.functionExpr none (parameters.map Prod.snd) body.2) range)) range
      (by simp [Shape.children, Shape.map]) v E
  | _ => cases ht

/-- The constructor that is left out is built. -/
theorem builds_defaultConstructor (hasBase : Bool) :
    Builds n Γ (defaultConstructor hasBase) (.defaultConstructor hasBase) := by
  cases hasBase with
  | false =>
    refine (builds_synth (.block []) (by simp [Shape.children])).andThen fun body => ?_
    exact builds_synth (.method (.identifier "constructor") [] (body, .gen (.block [])))
      (by simp [Shape.children, Shape.map])
  | true =>
    let parameter : Tree := .gen (.parameter (.gen (.binding "args")) none true)
    let spread : Tree := .gen (.spread (.ident "args"))
    let call : Tree := .gen (.call (.gen .superExpr) [spread])
    let statement : Tree := .gen (.exprStatement call)
    have hparameter : Builds n Γ (Build.restParameter "args") parameter :=
      (builds_synth (.binding "args") (by simp [Shape.children])).andThen fun id =>
        builds_synth (.parameter (id, .gen (.binding "args")) none true)
          (by simp [Shape.children, Shape.map])
    refine hparameter.andThen fun parameter' => ?_
    refine (builds_synth .superExpr (by simp [Shape.children])).andThen fun callee => ?_
    refine (builds_identifier "args").andThen fun arguments => ?_
    refine (builds_synth (.spread (arguments, .ident "args")) (by simp [Shape.children])).andThen
      fun spread' => ?_
    refine (builds_synth (.call (callee, .gen .superExpr) [(spread', spread)])
      (by simp [Shape.children, Shape.map, spread])).andThen fun call' => ?_
    refine (builds_synth (.exprStatement (call', call))
      (by simp [Shape.children, Shape.map, call])).andThen fun statement' => ?_
    refine (builds_synth (.block [(statement', statement)])
      (by simp [Shape.children, Shape.map, statement])).andThen fun body => ?_
    exact builds_synth (.method (.identifier "constructor") [(parameter', parameter)]
      (body, .gen (.block [statement]))) (by simp [Shape.children, Shape.map])

/-- Lower one member to a property. -/
theorem lowerProperty_reports {depth : Nat} {lowerMember : MemberLowering}
    (h : LowersMembers n options depth lowerMember) (c : String) (cls nameExpr : NodeId)
    (rest : List ClassContext) :
    (Lowers.judgement options (some c) fun v => ∃ used,
      v.classes = ⟨cls, nameExpr, used⟩ :: rest).Reports
      n [(nameExpr, .ident c)] (fun t => ∀ d ∈ t.classDepths, d < depth) Prod.snd
      (fun t b => MemberKind.ofShape? t.shape = some b.1) (lowerProperty lowerMember) := by
  rintro Γ v id t hΓ₀ hid hdepth ⟨used, hv⟩
  refine yields_node_bind hid fun z range hz => ?_
  have hname : (nameExpr, .ident c) ∈ z.children ++ Γ :=
    List.mem_append_right _ (by simpa using hΓ₀)
  have hid' : (id, t) ∈ z.children ++ Γ := List.mem_append_right _ hid
  have hkind : MemberKind.ofShape? (z.map Prod.fst) = MemberKind.ofShape? t.shape := by
    rw [hz, Tree.shape_node]
    cases z <;> rfl
  rw [hkind]
  split
  case h_1 hk =>
    refine Yields.bind (h hid' hname hk hdepth hv) ?_
    rintro lowered v' _ ⟨t', rfl, hk', hv', hrel⟩
    refine (builds_constructorProperty (by simp) hk').bind fun property => ?_
    refine yields_pure [(property, t'.constructorProperty)] (by simp) ⟨hk, _, rfl, hv', ?_⟩
    rwa [Tree.asProperty, if_pos rfl] at hrel
  case h_2 kind hne hk =>
    refine Yields.bind (h hid' hname hk hdepth hv) ?_
    rintro lowered v' _ ⟨t', rfl, hk', hv', hrel⟩
    refine yields_pure [(lowered, t')] (by simp) ⟨hk, _, rfl, hv', ?_⟩
    rwa [Tree.asProperty, if_neg (by rintro rfl; exact hne rfl)] at hrel
  case h_3 hk =>
    have hfault : Fault.unexpectedMember (z.map Prod.fst).kind range
        = .unexpectedMember t.shape.kind t.range := by simp [hz]
    rw [hfault]
    exact yields_throw ⟨⟨used, hv⟩, .kind hk⟩

/-- Whether there is a constructor can be told from the kinds of the members. -/
theorem hasConstructor_eq {members : List Tree} {lowered : List (MemberKind × NodeId)}
    (h : List.Forall₂ (fun t b => MemberKind.ofShape? t.shape = some b.1) members lowered) :
    lowered.any (·.1 == .constructor) = Tree.hasConstructor members := by
  induction h with
  | nil => rfl
  | cons head _ ih =>
    rw [Tree.hasConstructor, List.any_cons, List.any_cons, ← Tree.hasConstructor, ih, head]
    rfl

/-- Lower the members of the class at hand. -/
theorem yields_lowerMembers {depth : Nat} {lowerMember : MemberLowering}
    (h : LowersMembers n options depth lowerMember) {c : String} {cls nameExpr : NodeId}
    {used : Bool} {rest : List ClassContext} {members : Known} (hasBase : Bool)
    (hname : (nameExpr, .ident c) ∈ Γ) (hmembers : members ⊆ Γ)
    (hdepth : ∀ p ∈ members, ∀ d ∈ p.2.classDepths, d < depth)
    (hv : v.classes = ⟨cls, nameExpr, used⟩ :: rest) :
    Yields n Γ v (lowerMembers lowerMember (members.map Prod.fst) hasBase)
      (fun out v' Δ => Δ.map Prod.fst = out.1 ∧
        out.2 = Tree.hasConstructor (members.map Prod.snd) ∧
        (∃ used', v'.classes = ⟨cls, nameExpr, used'⟩ :: rest) ∧
        Lowers options (some c) v.account (Tree.withConstructor (members.map Prod.snd) hasBase)
          (Δ.map Prod.snd) v'.account)
      (fun fault v' => (∃ used', v'.classes = ⟨cls, nameExpr, used'⟩ :: rest) ∧
        Halts options (some c) v.account (members.map Prod.snd) fault v'.account) := by
  refine Yields.bind ((lowerProperty_reports h c cls nameExpr rest).mapM members Γ v
    (by simpa using hname) hmembers hdepth ⟨used, hv⟩) ?_
  rintro lowered v₁ Δ ⟨hkinds, hids, ⟨used₁, hv₁⟩, hrel⟩
  rw [hasConstructor_eq hkinds]
  split
  case isTrue hctor =>
    refine yields_pure Δ (by grind) ⟨hids, hctor.symm, ⟨used₁, hv₁⟩, ?_⟩
    rw [Tree.withConstructor, if_pos hctor]
    exact hrel
  case isFalse hctor =>
    let constructor := Tree.defaultConstructor hasBase
    have hkind : MemberKind.ofShape? constructor.shape = some .constructor := by
      cases hasBase <;> rfl
    have hsynthetic := Tree.synthetic_defaultConstructor hasBase
    have hnofaults : constructor.faults = [] := hsynthetic.gather_eq_nil fun _ => rfl
    have hnoclasses : constructor.classDepths = [] := hsynthetic.gather_eq_nil fun _ => rfl
    refine (builds_defaultConstructor hasBase).bind fun id => ?_
    refine Yields.bind ((h (t := constructor) (c := c) List.mem_cons_self (by simp [hname]) hkind
      (by simp [hnoclasses]) hv₁).imp (fun _ _ _ hq => hq) ?_) ?_
    · rintro fault v' ⟨-, hf⟩
      have hmember : constructor.memberFaults = [] := if_pos (Option.isSome_of_eq_some hkind)
      have hfault := hf.head?_faults
      simp [Tree.faultsAs, hmember, hnofaults] at hfault
    rintro lowered' v₂ _ ⟨t', rfl, hkind', hv₂, hrel'⟩
    refine (builds_constructorProperty (by simp) hkind').bind fun property => ?_
    refine yields_pure (Δ ++ [(property, t'.constructorProperty)]) (by grind)
      ⟨by simp [hids], by simpa using hctor, hv₂, ?_⟩
    rw [Tree.asProperty, if_pos rfl] at hrel'
    rw [Tree.withConstructor, if_neg hctor, List.map_append]
    exact Lowers.append hrel hrel'

/-! ### Classes -/

theorem yields_pushClass_bind {β : Type} {S : β → View → Known → Prop} {E : Fault → View → Prop}
    {cls nameExpr : NodeId} {g : Unit → Lowering β}
    (hg : Yields n Γ { v with classes := ⟨cls, nameExpr, false⟩ :: v.classes } (g ()) S E) :
    Yields n Γ v (pushClass cls nameExpr >>= g) S E := by
  simp only [pushClass, bind_assoc]
  refine yields_modifyState_bind { v with classes := ⟨cls, nameExpr, false⟩ :: v.classes }
    (by rintro state rfl; rfl) ?_
  exact yields_state_bind fun _ _ => yields_record_bind hg

theorem yields_popClass_bind {β : Type} {S : β → View → Known → Prop} {E : Fault → View → Prop}
    {context : ClassContext} {rest : List ClassContext} {g : ClassContext → Lowering β}
    (hv : v.classes = context :: rest)
    (hg : Yields n Γ { v with classes := rest } (g context) S E) :
    Yields n Γ v (popClass >>= g) S E := by
  simp only [popClass, bind_assoc, pure_bind]
  refine yields_currentClass_bind hv ?_
  refine yields_modifyState_bind { v with classes := rest } ?_ ?_
  · rintro state rfl
    have hclasses : state.classes = context :: rest := hv
    simp [LoweringState.view, hclasses]
  · exact yields_state_bind fun _ _ => yields_record_bind hg

/-- What holds after a class that is named `c` inside its members was lowered to a call. -/
def ClassLowered (options : Options) (c : String) (a : Account) (heritage : Option Tree)
    (members : List Tree) (range : Option Range) (call : Tree) (used : Bool) (a' : Account) :
    Prop :=
  ∃ base properties a₁ a₂,
    call = .createClass options properties (Tree.hasConstructor members) base range ∧
    Lowers options none a heritage.toList base.toList a₁ ∧
    Lowers options (some c) (a₁.withUsed false) (Tree.withConstructor members base.isSome)
      properties a₂ ∧
    used = a₂.used ∧ a' = a₂.withUsed a₁.used

/-- What holds after the lowering of a class failed that is named `c` inside its members. -/
def ClassHalts (options : Options) (c : String) (a : Account) (heritage : Option Tree)
    (members : List Tree) (fault : Fault) (a' : Account) : Prop :=
  Halts options none a heritage.toList fault a' ∨
    ∃ (base : Option Tree) (a₁ a₂ : Account),
      Lowers options none a heritage.toList base.toList a₁ ∧
      Halts options (some c) (a₁.withUsed false) members fault a₂ ∧ a' = a₂.withUsed a₁.used

/-- The call that makes a class, built from its object of members and its base. -/
theorem yields_createClass {β : Type} {S : β → View → Known → Prop} {E : Fault → View → Prop}
    (options : Options) (properties : List Tree) (hasConstructor : Bool) (base : Option Tree)
    {range : Option Range} {object baseArgument : NodeId} {g : NodeId → Lowering β}
    (hobject : (object, .gen (.object properties)) ∈ Γ)
    (hbase : (baseArgument, base.getD (.gen (.literal .null))) ∈ Γ)
    (hg : ∀ call Δ, (call, .createClass options properties hasConstructor base range) ∈ Δ →
      Yields n Δ v (g call) S E) :
    Yields n Γ v (do
      let hasConstructorArgument ← Build.boolean hasConstructor
      let hasBaseArgument ← Build.boolean base.isSome
      let callee ← Build.helper options.runtimeName .createClass
      let call ← append
        (.call callee [object, baseArgument, hasConstructorArgument, hasBaseArgument]) range
      g call) S E := by
  refine (builds_boolean hasConstructor).bind fun hasConstructor' => ?_
  refine (builds_boolean base.isSome).bind fun hasBase' => ?_
  refine (builds_helper options.runtimeName .createClass).bind fun callee => ?_
  refine (builds_append (.call (callee, .helper options.runtimeName .createClass)
    [(object, .gen (.object properties)), (baseArgument, base.getD (.gen (.literal .null))),
      (hasConstructor', .boolean hasConstructor), (hasBase', .boolean base.isSome)]) range
    (by simp [Shape.children, hobject, hbase])).bind fun call => ?_
  exact hg call _ List.mem_cons_self

theorem yields_lowerClass {depth : Nat} {lowerMember : MemberLowering}
    (h : LowersMembers n options depth lowerMember) {classes : List ClassContext} {D : Tree → Prop}
    {visit : NodeId → Lowering NodeId}
    (hvisit : (Lowers.judgement options none fun v => v.classes = classes).Follows n [] D visit)
    {c : String} {cls nameExpr : NodeId} {heritage : Option (NodeId × Tree)} {members : Known}
    (range : Option Range) (hname : (nameExpr, .ident c) ∈ Γ) (hheritage : heritage.toList ⊆ Γ)
    (hmembers : members ⊆ Γ) (hD : ∀ p ∈ heritage.toList, D p.2)
    (hdepth : ∀ p ∈ members, ∀ d ∈ p.2.classDepths, d < depth) (hv : v.classes = classes) :
    Yields n Γ v (lowerClass options lowerMember visit cls nameExpr (heritage.map Prod.fst)
        (members.map Prod.fst) range)
      (fun out v' Δ => ∃ call, Δ = [(out.1, call)] ∧ v'.classes = classes ∧
        ClassLowered options c v.account (heritage.map Prod.snd) (members.map Prod.snd) range call
          out.2 v'.account)
      (fun fault v' => v'.classes = classes ∧
        ClassHalts options c v.account (heritage.map Prod.snd) (members.map Prod.snd) fault
          v'.account) := by
  refine Yields.bind ((hvisit.optionMapM (List.nil_subset Γ) hheritage hD hv).imp
    (fun _ _ _ hq => hq) ?_) ?_
  · rintro fault v' ⟨hv', hf⟩
    exact ⟨hv', .inl hf⟩
  rintro _ v₁ _ ⟨base, rfl, rfl, -, hv₁, habove⟩
  refine yields_pushClass_bind ?_
  rw [Option.isSome_map]
  refine yields_attempt_bind (yields_lowerMembers h base.isSome
    (List.mem_append_right _ hname) (by grind) hdepth rfl) ?_ ?_
  · rintro ⟨ids, hasConstructor⟩ v₂ Δ ⟨rfl, rfl, ⟨used, hv₂⟩, hbelow⟩
    refine yields_popClass_bind hv₂ (yields_settle_bind ?_)
    refine (builds_synth (.object Δ) (by simp +contextual [Shape.children])).bind fun object => ?_
    have hlowered : ClassLowered options c v.account (heritage.map Prod.snd) (members.map Prod.snd)
        range (.createClass options (Δ.map Prod.snd) (Tree.hasConstructor (members.map Prod.snd))
          (base.map Prod.snd) range) used (View.account { v₂ with classes := v₁.classes }) := by
      refine ⟨base.map Prod.snd, Δ.map Prod.snd, v₁.account, v₂.account, rfl, habove, ?_, ?_, ?_⟩
      · rwa [Option.isSome_map]
      · simp [View.account, hv₂]
      · rfl
    cases base with
    | none =>
      simp only [Option.map_none]
      refine Builds.bind (t := .gen (.literal .null))
        (builds_synth (.literal .null) (by simp [Shape.children])) fun null => ?_
      refine yields_createClass options (Δ.map Prod.snd) _ none (by simp [Shape.map]) (by simp)
        fun call Δ hΔ => ?_
      exact yields_record_bind (yields_pure [(call, _)] (by simpa using hΔ)
        ⟨_, rfl, hv₁, hlowered⟩)
    | some p =>
      simp only [Option.map_some, pure_bind]
      refine yields_createClass options (Δ.map Prod.snd) _ (some p.2)
        (by simp [Shape.map]) (by simp)
        fun call Δ hΔ => ?_
      exact yields_record_bind (yields_pure [(call, _)] (by simpa using hΔ)
        ⟨_, rfl, hv₁, hlowered⟩)
  · rintro fault v₂ ⟨⟨used, hv₂⟩, hf⟩
    refine yields_popClass_bind hv₂ (yields_throw_bind ⟨hv₁, .inr ?_⟩)
    exact ⟨base.map Prod.snd, v₁.account, v₂.account, habove, hf, rfl⟩

theorem yields_release_bind {β : Type} {S : β → View → Known → Prop} {E : Fault → View → Prop}
    {number : Nat} {g : Unit → Lowering β}
    (hg : Yields n Γ { v with temps := (v.temps.release number).2 } (g ()) S E) :
    Yields n Γ v (release number >>= g) S E := by
  simp only [release, bind_assoc]
  refine yields_modifyGetState_bind (v.temps.release number).1
    { v with temps := (v.temps.release number).2 } ?_ ?_
  · rintro state rfl
    exact ⟨rfl, rfl⟩
  · split
    · exact yields_record_bind hg
    · exact hg

section Classes

variable {depth : Nat} {lowerMember : MemberLowering}
  {classes : List ClassContext} {D : Tree → Prop}
  {visit : NodeId → Lowering NodeId} {id : NodeId} {heritage : Option (NodeId × Tree)}
  {members : Known} {range : Option Range}

/-- What holds after a tree was lowered. -/
def Lowered (options : Options) (classes : List ClassContext) (v : View) (t : Tree) (id : NodeId)
    (v' : View) (Δ : Known) : Prop :=
  ∃ t', Δ = [(id, t')] ∧ v'.classes = classes ∧ Lowers options none v.account [t] [t'] v'.account

/-- What holds after the lowering of a tree failed. -/
def Halted (options : Options) (classes : List ClassContext) (v : View) (t : Tree) (fault : Fault)
    (v' : View) : Prop :=
  v'.classes = classes ∧ Halts options none v.account [t] fault v'.account

theorem yields_lowerClassDecl (h : LowersMembers n options depth lowerMember)
    (hvisit : (Lowers.judgement options none fun v => v.classes = classes).Follows n [] D visit)
    {name : NodeId × Tree} (hname : name ∈ Γ) (hheritage : heritage.toList ⊆ Γ)
    (hmembers : members ⊆ Γ) (hD : ∀ p ∈ heritage.toList, D p.2)
    (hdepth : ∀ p ∈ members, ∀ d ∈ p.2.classDepths, d < depth) (hv : v.classes = classes)
    (o : Option NodeId) :
    Yields n Γ v (lowerClassDecl options lowerMember visit id name.1 (heritage.map Prod.fst)
        (members.map Prod.fst) range)
      (Lowered options classes v
        (.node o (.classDecl name.2 (heritage.map Prod.snd) (members.map Prod.snd)) range))
      (Halted options classes v
        (.node o (.classDecl name.2 (heritage.map Prod.snd) (members.map Prod.snd)) range)) := by
  refine yields_store_bind fun s hs => ⟨[], Store.knows_nil, ?_⟩
  rw [(hs name hname).identifierText_eq]
  cases hc : name.2.name? with
  | none => exact yields_throw_bind ⟨hv, .declName hc⟩
  | some c =>
    refine yields_settle_bind ?_
    refine (builds_identifier c).bind fun nameExpr => ?_
    refine Yields.bind
      ((yields_lowerClass h hvisit (c := c) range (by simp) (by grind) (by grind) hD
      hdepth hv).imp (fun _ _ _ hq => hq) ?_) ?_
    · rintro fault v' ⟨hv', hf | ⟨base, a₁, a₂, habove, hf, ha'⟩⟩
      · exact ⟨hv', .declHeritage hc hf⟩
      · refine ⟨hv', ?_⟩
        rw [ha']
        exact .declMember hc habove hf
    rintro ⟨call', used⟩ v' _
      ⟨call, rfl, hv', base, properties, a₁, a₂, rfl, habove, hbelow, -, ha'⟩
    let call : Tree :=
      .createClass options properties (Tree.hasConstructor (members.map Prod.snd)) base range
    let declarator : Tree := .node none (.declarator name.2 (some call)) range
    refine (builds_append (.declarator name (some (call', call))) range
      (by simp [Shape.children, hname, call])).bind fun declarator' => ?_
    refine (builds_append (.varStatement (if options.blockBinding then .letWord else .varWord)
      [(declarator', declarator)]) range (by simp [Shape.children, declarator, Shape.map]) v' _).imp
      ?_ (fun _ _ hf => hf)
    rintro id' _ _ ⟨rfl, rfl⟩
    refine ⟨_, rfl, hv', ?_⟩
    rw [ha']
    exact .classDecl hc habove hbelow

theorem yields_lowerClassExpr (h : LowersMembers n options depth lowerMember)
    (hvisit : (Lowers.judgement options none fun v => v.classes = classes).Follows n [] D visit)
    (hheritage : heritage.toList ⊆ Γ) (hmembers : members ⊆ Γ) (hD : ∀ p ∈ heritage.toList, D p.2)
    (hdepth : ∀ p ∈ members, ∀ d ∈ p.2.classDepths, d < depth) (hv : v.classes = classes)
    (o : Option NodeId) (name : Option Tree) :
    Yields n Γ v (lowerClassExpr options lowerMember visit id (heritage.map Prod.fst)
        (members.map Prod.fst) range)
      (Lowered options classes v
        (.node o (.classExpr name (heritage.map Prod.snd) (members.map Prod.snd)) range))
      (Halted options classes v
        (.node o (.classExpr name (heritage.map Prod.snd) (members.map Prod.snd)) range)) := by
  refine yields_allocate_bind ?_
  let number := v.temps.allocate.1
  refine (builds_identifier (Temps.name number)).bind fun nameExpr => ?_
  refine Yields.bind ((yields_lowerClass h hvisit (v := { v with temps := v.temps.allocate.2 })
    (c := Temps.name number) range (by simp) (by grind) (by grind) hD hdepth hv).imp
    (fun _ _ _ hq => hq) ?_) ?_
  · rintro fault v' ⟨hv', hf | ⟨base, a₁, a₂, habove, hf, ha'⟩⟩
    · exact ⟨hv', .exprHeritage hf⟩
    · refine ⟨hv', ?_⟩
      rw [ha']
      exact .exprMember habove hf
  rintro ⟨call', used⟩ v' _
    ⟨call, rfl, hv', base, properties, a₁, a₂, rfl, habove, hbelow, hused, ha'⟩
  let call : Tree :=
    .createClass options properties (Tree.hasConstructor (members.map Prod.snd)) base range
  dsimp only at hused ⊢
  split
  case isTrue huse =>
    refine (builds_identifier (Temps.name number)).bind fun target => ?_
    refine (builds_assign (target, .temp number) (call', call) (by simp [Tree.temp])
      (by simp [call])).bind fun assignment => ?_
    refine (builds_append (.paren (assignment, .assign (.temp number) call)) range
      (by simp [Shape.children]) v' _).imp ?_ (fun _ _ hf => hf)
    rintro id' _ _ ⟨rfl, rfl⟩
    refine ⟨_, rfl, hv', ?_⟩
    rw [ha']
    exact .classExprBound habove hbelow (hused ▸ huse)
  case isFalse huse =>
    refine yields_release_bind (yields_return (call', call) (by simp [call]) ⟨_, rfl, hv', ?_⟩)
    have hfree : Lowers options none v.account
        [.node o (.classExpr name (heritage.map Prod.snd) (members.map Prod.snd)) range] [call]
        ((a₂.withUsed a₁.used).release number) :=
      .classExprFree habove hbelow (by simpa [← hused] using huse)
    rw [← ha'] at hfree
    exact hfree

/-- New children do not change who has temporaries of its own. -/
theorem ownsTemps_withChildren (t : Tree) (cs : List Tree) :
    (t.withChildren cs).shape.ownsTemps = t.shape.ownsTemps := by
  rw [Tree.withChildren, Tree.shape_node]
  cases t.shape with
  | classDecl _ option _ | functionExpr option _ _ => cases option <;> rfl
  | _ => rfl

/-- A construct that is no class is walked, in a scope of temporaries if it is a program or a
function. -/
theorem yields_lowerPlain
    (hvisit : (Lowers.judgement options none fun v => v.classes = classes).Follows n [] D visit)
    {t : Tree} (hid : (id, t) ∈ Γ) (hplain : t.shape.isClass = false)
    (hD : ∀ c ∈ t.shape.children, D c) (hv : v.classes = classes) :
    Yields n Γ v (if t.shape.ownsTemps then inTempScope (walk visit id) else walk visit id)
      (Lowered options classes v t) (Halted options classes v t) := by
  split
  case isTrue howner =>
    refine (yields_inTempScope (P := fun v' t' => ∃ cs, t' = t.withChildren cs ∧
        v'.classes = classes ∧ Lowers options none
        v.account.openScope t.shape.children cs v'.account)
      ((hvisit.walk (v := v.openScope) (List.nil_subset Γ) hid hD hv).imp ?_ (fun _ _ hf => hf))
      ?_).imp ?_ (fun _ _ hf => hf)
    · rintro id' v' _ ⟨cs, rfl, hv', hrel⟩
      exact ⟨_, rfl, (ownsTemps_withChildren t cs).trans howner, cs, rfl, hv', hrel⟩
    · rintro fault v' ⟨hv', hf⟩
      have hf : Halts options none v.account.openScope t.shape.children fault v'.account := hf
      exact ⟨hv', .scope howner hf⟩
    · rintro id' _ _ ⟨_, v₁, rfl, rfl, cs, rfl, hv₁, hrel⟩
      exact ⟨_, rfl, hv₁, .scope howner hrel⟩
  case isFalse howner =>
    refine (hvisit.walk (List.nil_subset Γ) hid hD hv).imp ?_ ?_
    · rintro id' v' _ ⟨cs, rfl, hv', hrel⟩
      exact ⟨_, rfl, hv', .walk hplain (by simpa using howner) hrel⟩
    · rintro fault v' ⟨hv', hf⟩
      exact ⟨hv', .walk hplain (by simpa using howner) hf⟩

end Classes

/-! ### Trees -/

/-- What a bound on the nesting of classes says about the parts of a class. -/
theorem classDepths_bounds {t : Tree} {nesting : Nat} {heritage : Option (NodeId × Tree)}
    {members : Known} (hdepth : ∀ d ∈ t.classDepths, d ≤ nesting)
    (heq : t.classDepths = (heritage.map Prod.snd).toList.flatMap Tree.classDepths ++
      1 :: (members.map Prod.snd).flatMap fun m => m.classDepths.map (· + 1)) :
    0 < nesting ∧ (∀ p ∈ heritage.toList, ∀ d ∈ p.2.classDepths, d ≤ nesting) ∧
      ∀ p ∈ members, ∀ d ∈ p.2.classDepths, d < nesting := by
  rw [heq] at hdepth
  refine ⟨hdepth 1 (by simp), fun p hp d hd => hdepth d ?_, fun p hp d hd => hdepth (d + 1) ?_⟩
  · refine List.mem_append_left _ (List.mem_flatMap.mpr ⟨p.2, ?_, hd⟩)
    rw [Option.mem_toList.mp hp, Option.map_some]
    exact List.mem_singleton.mpr rfl
  · simp only [List.mem_append, List.mem_cons, List.mem_flatMap, List.mem_map]
    exact .inr (.inr ⟨p.2, ⟨p, hp, rfl⟩, d, hd, rfl⟩)

/-- **The lowering of a node follows the lowering of its tree.** -/
theorem lowerNode_follows {nesting : Nat} {lowerMember : MemberLowering}
    (h : 0 < nesting → LowersMembers n options nesting lowerMember) (classes : List ClassContext)
    (height : Nat) :
    (Lowers.judgement options none fun v => v.classes = classes).Follows n []
      (fun t => t.height ≤ height ∧ ∀ d ∈ t.classDepths, d ≤ nesting)
      (lowerNode options lowerMember height) := by
  induction height with
  | zero =>
    intro Γ v id t _ _ ht
    exact absurd ht.1 (Nat.not_le.mpr t.height_pos)
  | succ height ih =>
    rintro Γ v id t - hid ⟨hheight, hdepth⟩ hv
    refine yields_node_bind hid fun z range hz => ?_
    have hbelow : ∀ c ∈ t.shape.children, c.height ≤ height := by
      rw [hz] at hheight ⊢
      exact Tree.height_le_succ_iff.mp hheight
    have hmem (p : NodeId × Tree) (hp : p ∈ z.children) : p.2 ∈ t.shape.children := by
      simpa [hz] using ⟨p.1, hp⟩
    -- The postcondition of the judgement, with its parts in the form of the lemmas above.
    refine Yields.imp (Q := Lowered options classes v t) (E := Halted options classes v t) ?_ ?_
      (fun _ _ hf => hf)
    rotate_left
    · rintro id' v' _ ⟨t', rfl, hends⟩
      exact ⟨trivial, t', rfl, hends⟩
    by_cases hclass : z.isClass = true
    · cases z with
      | classDecl name heritage members =>
        obtain ⟨hpos, hheritage, hmembers⟩ := classDepths_bounds hdepth
          (hz ▸ Tree.classDepths_classDecl _ _ _ _ _)
        have hbase : heritage.toList ⊆ Shape.children (.classDecl name heritage members) :=
          fun p hp => List.mem_cons_of_mem _ (List.mem_append_left _ hp)
        have hrest : members ⊆ Shape.children (.classDecl name heritage members) :=
          fun p hp => List.mem_cons_of_mem _ (List.mem_append_right _ hp)
        rw [hz]
        exact yields_lowerClassDecl (h hpos) ih (List.mem_append_left _ List.mem_cons_self)
          (List.subset_append_of_subset_left _ hbase) (List.subset_append_of_subset_left _ hrest)
          (fun p hp => ⟨hbelow _ (hmem p (hbase hp)), hheritage p hp⟩) hmembers hv _
      | classExpr name heritage members =>
        obtain ⟨hpos, hheritage, hmembers⟩ := classDepths_bounds hdepth
          (hz ▸ Tree.classDepths_classExpr _ _ _ _ _)
        have hbase : heritage.toList ⊆ Shape.children (.classExpr name heritage members) :=
          fun p hp => List.mem_append_right _ (List.mem_append_left _ hp)
        have hrest : members ⊆ Shape.children (.classExpr name heritage members) :=
          fun p hp => List.mem_append_right _ (List.mem_append_right _ hp)
        rw [hz]
        exact yields_lowerClassExpr (h hpos) ih (List.subset_append_of_subset_left _ hbase)
          (List.subset_append_of_subset_left _ hrest)
          (fun p hp => ⟨hbelow _ (hmem p (hbase hp)), hheritage p hp⟩) hmembers hv _ _
      | _ => cases hclass
    · have hplain : t.shape.isClass = false := by
        rw [hz, Tree.shape_node, Shape.isClass_map]
        simpa using hclass
      have hD : ∀ c ∈ t.shape.children, c.height ≤ height ∧ ∀ d ∈ c.classDepths, d ≤ nesting := by
        refine fun c hc => ⟨hbelow c hc, fun d hd => hdepth d ?_⟩
        rw [Tree.classDepths_of_not_isClass hplain]
        exact List.mem_flatMap.mpr ⟨c, hc, hd⟩
      have hcode := yields_lowerPlain ih (List.mem_append_right z.children hid) hplain hD hv
      have howner : t.shape.ownsTemps = z.ownsTemps := by
        rw [hz, Tree.shape_node]
        cases z <;> rfl
      rw [howner] at hcode
      cases z <;> first | exact hcode | exact absurd rfl hclass

/-- The member that a lowered member is, is of the same kind. -/
theorem ofShape?_declaring (t : Tree) (cs : List Tree) (held : List Nat) :
    MemberKind.ofShape? ((t.withChildren cs).declaring held).shape
      = MemberKind.ofShape? t.shape := by
  obtain ⟨o, s, r⟩ := t
  have hrefill : MemberKind.ofShape? (s.refill cs) = MemberKind.ofShape? s := by
    cases s with
    | classDecl _ option _ | functionExpr option _ _ => cases option <;> rfl
    | _ => rfl
  have hdeclaring (s : Shape Tree) (declaration : Tree) :
      MemberKind.ofShape? (s.declaring declaration) = MemberKind.ofShape? s := by
    cases s <;> rfl
  rw [Tree.declaring]
  split
  · exact hrefill
  · rw [Tree.shape_node, hdeclaring]
    exact hrefill

/-- **The lowering of a member,** with classes nested less than `nesting` deep in it. -/
theorem lowerMember_spec (n : Nat) (options : Options) : ∀ nesting : Nat, 0 < nesting →
    LowersMembers n options nesting (lowerMember options nesting) := by
  intro nesting
  induction nesting with
  | zero => exact fun h => absurd h (Nat.lt_irrefl 0)
  | succ nesting ih =>
    intro _ Γ v id cls nameExpr t kind c used rest hid hname hkind hdepth hv
    have howner := Tree.ownsTemps_of_ofShape? hkind
    have hplain := Tree.isClass_of_ownsTemps howner
    let Members (v' : View) : Prop := ∃ used', v'.classes = ⟨cls, nameExpr, used'⟩ :: rest
    let site : Site := ⟨c, options.runtimeName, kind⟩
    refine (yields_inTempScope
        (P := fun v' t' => ∃ cs cs' a₁, t' = t.withChildren cs' ∧ Members v' ∧
        Expands site false v.account.openScope t.shape.children cs a₁ ∧
        Lowers options none a₁ cs cs' v'.account)
      (F := fun fault v' => Members v' ∧ ∃ cs a₁,
        Expands site false v.account.openScope t.shape.children cs a₁ ∧
        Halts options none a₁ cs fault v'.account)
      (Yields.bind (yields_expandOwnMember (v := v.openScope) hid hname hv) ?_)
      ?_).imp ?_ (fun _ _ hf => hf)
    · rintro member v₁ _ ⟨cs, rfl, ⟨used₁, hv₁⟩, hexpands⟩
      have hchildren : (t.withChildren cs).shape.children = cs :=
        Shape.children_refill hexpands.length_eq
      refine yields_store_bind fun s hs => ⟨[], Store.knows_nil, ?_⟩
      have hD : ∀ u ∈ (t.withChildren cs).shape.children,
          u.height ≤ s.walkBound ∧ ∀ d ∈ u.classDepths, d ≤ nesting := by
        refine fun u hu => ⟨?_, fun d hd => Nat.le_of_lt_succ (hdepth d ?_)⟩
        · exact (hs (member, t.withChildren cs) (by simp)).height_le_of_mem_children hu
        · rw [Tree.classDepths_of_not_isClass hplain, ← hexpands.classDepths_eq]
          exact List.mem_flatMap.mpr ⟨u, hchildren ▸ hu, hd⟩
      refine ((lowerNode_follows ih v₁.classes s.walkBound).walk (List.nil_subset _)
        (by simp : (member, t.withChildren cs) ∈ _) hD rfl).imp ?_ ?_
      · rintro id' v' _ ⟨cs', rfl, hv', hlowers⟩
        have htwice : (t.withChildren cs).withChildren cs' = t.withChildren cs' := by
          simp only [Tree.withChildren, Tree.shape_node, Shape.refill_refill]; rfl
        rw [hchildren] at hlowers
        exact ⟨_, rfl, by rwa [ownsTemps_withChildren, ownsTemps_withChildren], cs, cs', v₁.account,
          htwice, ⟨used₁, hv'.trans hv₁⟩, hexpands, hlowers⟩
      · rintro fault v' ⟨hv', hf⟩
        rw [hchildren] at hf
        exact ⟨⟨used₁, hv'.trans hv₁⟩, cs, v₁.account, hexpands, hf⟩
    · rintro fault v' ⟨hv', cs, a₁, hexpands, hf⟩
      exact ⟨hv', .member hkind hexpands hf⟩
    · rintro id' _ _ ⟨_, v₁, rfl, rfl, cs, cs', a₁, rfl, hv₁, hexpands, hlowers⟩
      refine ⟨_, rfl, (ofShape?_declaring t cs' v₁.held).trans hkind, hv₁, ?_⟩
      exact .member hkind hexpands hlowers

/-! ### Programs -/

/-- Classes are not nested deeper than a tree is high. -/
theorem Tree.le_height_of_mem_classDepths {t : Tree} : ∀ d ∈ t.classDepths, d ≤ t.height := by
  induction t with
  | node o s r ih =>
    have hbelow {c : Tree} (hc : c ∈ s.children) {d : Nat} (hd : d ∈ c.classDepths) :
        d < (Tree.node o s r).height :=
      (ih c hc d hd).trans_lt (height_lt_of_mem_children hc)
    have hclass {heritage : Option Tree} {members : List Tree}
        (hh : ∀ c ∈ heritage.toList, c ∈ s.children) (hm : ∀ c ∈ members, c ∈ s.children) (d : Nat)
        (hd : d ∈ heritage.toList.flatMap classDepths ++
          1 :: members.flatMap fun m => m.classDepths.map (· + 1)) :
        d ≤ (Tree.node o s r).height := by
      rcases List.mem_append.mp hd with hd | hd
      · obtain ⟨c, hc, hd⟩ := List.mem_flatMap.mp hd
        exact (hbelow (hh c hc) hd).le
      · rcases List.mem_cons.mp hd with rfl | hd
        · exact height_pos _
        · obtain ⟨c, hc, hd⟩ := List.mem_flatMap.mp hd
          obtain ⟨d', hd', rfl⟩ := List.mem_map.mp hd
          exact hbelow (hm c hc) hd'
    cases s with
    | classDecl name heritage members =>
      rw [classDepths_classDecl]
      exact hclass (by simp +contextual [Shape.children]) (by simp +contextual [Shape.children])
    | classExpr name heritage members =>
      rw [classDepths_classExpr]
      exact hclass (by simp +contextual [Shape.children]) (by simp +contextual [Shape.children])
    | _ =>
      intro d hd
      rw [classDepths_of_not_isClass rfl] at hd
      obtain ⟨c, hc, hd⟩ := List.mem_flatMap.mp hd
      exact (hbelow hc hd).le

theorem yields_lowerProgram {id : NodeId} {t : Tree} (hid : (id, t) ∈ Γ) :
    Yields n Γ v (lowerProgram options id) (Lowered options v.classes v t)
      (Halted options v.classes v t) := by
  refine yields_modifyState_bind v (by rintro state rfl; rfl) ?_
  refine yields_attempt_bind (Q := Lowered options v.classes v t)
    (F := Halted options v.classes v t) ?_ ?_ ?_
  · refine yields_store_bind fun s hs => ⟨[], Store.knows_nil, ?_⟩
    have hheight : t.height ≤ s.walkBound := (hs _ hid).height_le
    refine Yields.bind (lowerNode_follows (lowerMember_spec n options s.walkBound) v.classes
      s.walkBound _ v id t (List.nil_subset _) hid
      ⟨hheight, fun d hd => (Tree.le_height_of_mem_classDepths d hd).trans hheight⟩ rfl) ?_
    rintro id' v' _ ⟨-, t', rfl, hends⟩
    exact yields_record_bind (yields_return (id', t') (by simp) ⟨t', rfl, hends⟩)
  · rintro id' v' _ ⟨t', rfl, hends⟩
    refine yields_modifyState_bind v' (by rintro state rfl; rfl) ?_
    exact yields_return (id', t') (by simp) ⟨t', rfl, hends⟩
  · intro fault v' hf
    exact yields_modifyState_bind v' (by rintro state rfl; rfl) (yields_throw hf)

/-- **A run of the lowering.** It leaves the store as it was, apart from new nodes, and the stack of
classes as it was. It makes what `Lowers` says or fails as `Halts` says. -/
theorem lowerProgram_runs {s : Store} {id : NodeId} (hg : s.Grounded id) (options : Options)
    (n : Nat) (hn : n ≤ s.size) (state : LoweringState) :
    match exec (lowerProgram options id) ⟨s, state⟩ with
    | (.ok id', session') => s ≤ session'.store ∧ session'.state.classes = state.classes ∧
        ∃ t', session'.store.Denotes n id' t' ∧
          Lowers options none state.view.account [s.tree n id] [t'] session'.state.view.account
    | (.error fault, session') => s ≤ session'.store ∧ session'.state.classes = state.classes ∧
        Halts options none state.view.account [s.tree n id] fault session'.state.view.account := by
  have hyields : Yields n [(id, s.tree n id)] state.view (lowerProgram options id) _ _ :=
    yields_lowerProgram List.mem_cons_self
  have hspec := hyields ⟨s, state⟩ hn (Store.knows_cons.mpr ⟨hg.denotes, Store.knows_nil⟩) rfl
  generalize exec (lowerProgram options id) ⟨s, state⟩ = out at hspec ⊢
  rcases out with ⟨fault | id', session'⟩
  · exact ⟨hspec.1.le, hspec.2⟩
  · obtain ⟨hext, _, hknows, t', rfl, hclasses, hrel⟩ := hspec
    exact ⟨hext.le, hclasses, t', hknows _ List.mem_cons_self, hrel⟩

/-- The new nodes refer to older ones. -/
theorem lowerProgram_extends {s : Store} {id : NodeId} (hg : s.Grounded id) (options : Options)
    (state : LoweringState) : s.Extends (exec (lowerProgram options id) ⟨s, state⟩).2.store := by
  have hyields : Yields 0 [(id, s.tree 0 id)] state.view (lowerProgram options id) _ _ :=
    yields_lowerProgram List.mem_cons_self
  have hspec := hyields ⟨s, state⟩ s.size.zero_le
    (Store.knows_cons.mpr ⟨hg.denotes, Store.knows_nil⟩) rfl
  exact hspec.1

/-- **The lowering of a program.** It fails iff the program has faults, and then with the first one;
otherwise it leaves the store as it was, apart from new nodes, and makes what `Lowers` says. -/
theorem lowerProgram_spec {s : Store} {id : NodeId} (hg : s.Grounded id) (options : Options)
    (n : Nat) (hn : n ≤ s.size) (state : LoweringState) :
    match exec (lowerProgram options id) ⟨s, state⟩ with
    | (.ok id', session') => s ≤ session'.store ∧ ∃ t', session'.store.Denotes n id' t' ∧
        Lowers options none state.view.account [s.tree n id] [t'] session'.state.view.account
    | (.error fault, session') =>
        s ≤ session'.store ∧ (s.tree n id).faults.head? = some fault := by
  have hruns := lowerProgram_runs hg options n hn state
  generalize exec (lowerProgram options id) ⟨s, state⟩ = out at hruns ⊢
  rcases out with ⟨fault | id', session'⟩
  · obtain ⟨hle, -, hhalts⟩ := hruns
    have hfault := hhalts.head?_faults
    rw [List.flatMap_singleton] at hfault
    exact ⟨hle, hfault⟩
  · obtain ⟨hle, -, hlowers⟩ := hruns
    exact ⟨hle, hlowers⟩

/-- A lowering that succeeds. -/
theorem Store.Grounded.lowers {s : Store} {root lowered : NodeId} {options : Options}
    {state : LoweringState} {session : Session LoweringState} (hg : s.Grounded root)
    (run : (lowerProgram options root).runOn ⟨s, state⟩ = (.ok lowered, session)) :
    session.store.Grounded lowered ∧
      Lowers options none state.view.account [s.tree s.size root]
        [session.store.tree s.size lowered] session.state.view.account := by
  have hspec := lowerProgram_spec hg options s.size le_rfl state
  change exec (lowerProgram options root) ⟨s, state⟩ = _ at run
  rw [run] at hspec
  obtain ⟨-, t', ⟨hlowered, rfl⟩, hlowers⟩ := hspec
  exact ⟨hlowered, hlowers⟩

/-- A program has temporaries of its own. -/
theorem Store.Grounded.ownsTemps_tree {s : Store} {root : NodeId} (hg : s.Grounded root)
    (isProgram : ∃ statements range, s.get? root = some ⟨.program statements, range⟩) (n : Nat) :
    (s.tree n root).shape.ownsTemps = true := by
  obtain ⟨statements, range, found⟩ := isProgram
  rw [hg.tree_eq found]
  rfl

end Declass
