import Declass.Proofs.Tracing
import Declass.Proofs.Inversion

/-!
# The table of members

A class becomes a call of `createClass`, and its first argument is an object with one property for
each member, in order. A member is expanded, walked and perhaps given a declaration of temporaries
before it stands there, and a constructor is put into another form; this module says what of a
member survives. None of it needs the store to be a tree: the members are there, and the lowering
has succeeded.

## Main definitions

* `Signature`, `Store.Alike` — what a member looks like from outside
* `Store.IsProperty`, `Tabulates` — the property that a member becomes
* `Tree.defaultProperty` — the constructor of a class that has none
* `ClassCall`, `ClassCall.Creates` — the call with its four arguments

## Main results

* `alike_lowerMember` — lowering a member keeps what it looks like
* `Lowers.of_defaultConstructor` — what is added to a class without constructor
* `lowerNode_creates` — the call that a class becomes
-/

namespace Declass

open Edit Lowering Declass.Tree

/-! ### Signatures -/

/-- What a member looks like from outside: its kind, its key and the number of its parameters. -/
inductive Signature where
  | method (key : PropertyName) (arity : Nat)
  | getter (key : PropertyName)
  | setter (key : PropertyName)
  deriving DecidableEq

/-- The signature of a shape that is a member. -/
def Shape.signature? {α : Type} : Shape α → Option Signature
  | .method key parameters _ => some (.method key parameters.length)
  | .getter key _ => some (.getter key)
  | .setter key _ _ => some (.setter key)
  | _ => none

theorem Shape.signature?_refill {α β : Type} [Inhabited β] {s : Shape α} {bs : List β}
    (h : bs.length = s.children.length) : (s.refill bs).signature? = s.signature? := by
  cases s with
  | method name parameters body =>
    simp only [children, List.length_append, List.length_singleton] at h
    simp [refill, signature?, h]
  | classDecl _ heritage _ => cases heritage <;> rfl
  | functionExpr name _ _ => cases name <;> rfl
  | _ => rfl

namespace Store

variable {s s₁ s' : Store} {id id₁ id' : NodeId}

/-- The node at `id'` in `s'` has the signature and the range of the node at `id` in `s`. -/
def Alike (s : Store) (id : NodeId) (s' : Store) (id' : NodeId) : Prop :=
  ∀ node, s.get? id = some node → ∃ node', s'.get? id' = some node' ∧
    node'.shape.signature? = node.shape.signature? ∧ node'.range = node.range

theorem Alike.of_le (hle : s ≤ s') : s.Alike id s' id :=
  fun node found => ⟨node, hle _ _ found, rfl, rfl⟩

theorem Alike.trans (h : s.Alike id s₁ id₁) (h' : s₁.Alike id₁ s' id') : s.Alike id s' id' := by
  intro node found
  obtain ⟨node₁, found₁, hsignature, hrange⟩ := h node found
  obtain ⟨node', found', hsignature', hrange'⟩ := h' node₁ found₁
  exact ⟨node', found', hsignature'.trans hsignature, hrange'.trans hrange⟩

theorem Alike.mono (h : s.Alike id s₁ id') (hle : s₁ ≤ s') : s.Alike id s' id' :=
  h.trans (.of_le hle)

/-- A new node is like the one that it stands for. -/
theorem alike_push {node : Node} {shape : Shape NodeId} (found : s.get? id = some node)
    (h : shape.signature? = node.shape.signature?) :
    s.Alike id (s'.push ⟨shape, node.range⟩) s'.nextId := by
  intro node' found'
  obtain rfl := Option.some.inj (found.symm.trans found')
  exact ⟨⟨shape, node.range⟩, by simp [get?_push], h, rfl⟩

end Store

section Alike

variable {session : Session LoweringState}

theorem Grows.alike_walk {visit : NodeId → Lowering NodeId} (hvisit : ∀ id, Grows (visit id))
    (id : NodeId) : Ensures session (walk visit id) fun id' session' =>
      session.store.Alike id session'.store id' := by
  refine ensures_walk (V := fun ids ids' _ => ids'.length = ids.length) (fun ids => ?_) ?_ ?_
  · exact (Grows.mapM_length hvisit ids session).imp fun _ _ _ hlength => ⟨hlength, hlength⟩
  · exact fun _ _ _ hle _ => .of_le hle
  · intro node ids session' found _ hlength _ _
    exact Store.alike_push found (Shape.signature?_refill hlength)

/-- The declaration goes into the body, which is not seen from outside. -/
theorem alike_declareTemps (temps : List String) (id : NodeId) :
    Ensures session (declareTemps temps id) fun id' session' =>
      session.store.Alike id session'.store id' := by
  have hprepend {declaration : NodeId} (body : NodeId) : Grows (prependToBody declaration body) :=
    (Tracks.steady (fun _ => [declaration, body]) fun _ =>
      tracks_prependToBody (List.Subset.refl _)).grows
  refine (Grows.modifyState _).ensures_bind fun _ session₁ hle₁ => ?_
  have hdeclare : Grows (Build.declareAll temps : Lowering NodeId) :=
    (Grows.mapM (fun _ => (Grows.synth _).bind fun _ => .synth _) temps).bind fun _ => .synth _
  refine hdeclare.ensures_bind fun declaration session₂ hle₂ => ?_
  have hle : session.store.Alike id session₂.store id := .of_le (hle₁.trans hle₂)
  refine ensures_node_bind fun node found => ?_
  have hrebuild {shape : Shape NodeId} {session₃ : Session LoweringState}
      (h : shape.signature? = node.shape.signature?) :
      Ensures session₃ (append shape node.range) fun id' session' =>
        session.store.Alike id session'.store id' :=
    ensures_append (hle.trans (Store.alike_push found h))
  dsimp only
  split
  case h_1 hshape => exact hrebuild (by rw [hshape]; rfl)
  case h_8 => exact ensures_throw
  all_goals
    rename_i hshape
    exact (hprepend _).ensures_bind fun _ _ _ => hrebuild (by rw [hshape]; rfl)

theorem grows_currentClass : Grows currentClass := by
  refine Grows.state.bind fun state => ?_
  split
  · exact .pure _
  · exact .throw _

theorem alike_expandOwnMember (options : Options) (kind : MemberKind) (id : NodeId) :
    Ensures session (expandOwnMember options kind id) fun id' session' =>
      session.store.Alike id session'.store id' := by
  have hexpand (site : SuperSite) (session : Session LoweringState) :
      Ensures session (expandMember site id) fun out session' =>
        session.store.Alike id session'.store out.1 := by
    refine ensures_modifyState_bind (ensures_store_bind ?_)
    refine (Grows.alike_walk (fun id => ((tracks_expandNode site _ false).steady id).grows) id).bind
      fun member _ _ halike => ?_
    exact ensures_state_bind (ensures_pure halike)
  refine grows_currentClass.ensures_bind fun context session₁ hle => ?_
  refine (hexpand _ session₁).bind fun (member, used) session₂ _ halike => ?_
  have halike := (Store.Alike.of_le hle).trans halike
  dsimp only
  split
  · exact ensures_modifyState_bind (ensures_pure halike)
  · exact ensures_pure halike

/-- **Lowering a member keeps what it looks like from outside,** and where it is from. -/
theorem alike_lowerMember (options : Options) (nesting : Nat) (kind : MemberKind) (id : NodeId) :
    Ensures session (lowerMember options nesting kind id) fun id' session' =>
      session.store.Alike id session'.store id' := by
  cases nesting with
  | zero => exact ensures_throw
  | succ nesting =>
    have hvisit (height : Nat) (id : NodeId) :=
      ((tracks_lowerNode (tracks_lowerMember options nesting) options height).steady id).grows
    refine Ensures.inTempScope (Q := fun id' session' => session.store.Alike id session'.store id')
      ?_ (fun _ _ halike _ => halike) fun id' session₁ halike _ => ?_
    · refine (alike_expandOwnMember options kind id).bind fun member session₁ _ halike => ?_
      refine ensures_store_bind ((Grows.alike_walk (hvisit _) member).imp fun _ _ _ h => ?_)
      exact halike.trans h
    · exact (alike_declareTemps _ id').imp fun _ _ _ h => halike.trans h

end Alike

/-! ### The constructor of a class that has none -/

/-- `constructor: function () {}`, or
`constructor: function (...args) { superCall(this, C, "constructor", [...args]); }` for a class with
a base. -/
def Tree.defaultProperty (options : Options) (c : String) (hasBase : Bool) : Tree :=
  let forward := Site.superCall ⟨c, options.runtimeName, .constructor⟩ (text "constructor")
    [gen (.spread (ident "args"))] none
  let parameters := if hasBase then [gen (.parameter (gen (.binding "args")) none true)] else []
  let statements := if hasBase then [gen (.exprStatement forward)] else []
  gen (.property (.identifier "constructor")
    (gen (.functionExpr none parameters (gen (.block statements)))))

section DefaultConstructor

variable {options : Options} {site : Site} {nested : Bool} {a a' : Account} {ts ts' : List Tree}

/-- Code without `super` is expanded to itself. -/
theorem Expands.eq_of_other (h : Expands site nested a ts ts' a')
    (hts : ∀ t ∈ ts, t.Everywhere fun u => u.superRole = .other) : ts' = ts ∧ a' = a := by
  induction h with
  | nil => exact ⟨rfl, rfl⟩
  | cons _ _ ihhead ihtail =>
    obtain ⟨hhead, htail⟩ := List.forall_mem_cons.mp hts
    obtain ⟨ht, rfl⟩ := ihhead (by simpa using hhead)
    obtain ⟨hts, rfl⟩ := ihtail htail
    exact ⟨by simp_all, rfl⟩
  | @walk _ _ _ t _ _ _ ih =>
    have ht := hts t List.mem_cons_self
    obtain ⟨rfl, rfl⟩ := ih fun c hc => ht.child hc
    exact ⟨by rw [withChildren_children], rfl⟩
  | classDecl | classExpr => cases (hts _ List.mem_cons_self).root
  | enter role | misplaced role | bare role | stray role | direct role | bound role =>
    rw [(hts _ List.mem_cons_self).root] at role
    cases role

/-- Code without classes and functions is lowered to itself. -/
theorem Lowers.eq_of_plain (h : Lowers options none a ts ts' a')
    (hts : ∀ t ∈ ts, t.Everywhere fun u =>
      u.shape.isClass = false ∧ u.shape.ownsTemps = false) : ts' = ts ∧ a' = a := by
  generalize hc : (none : Option String) = c at h
  induction h with
  | nil => exact ⟨rfl, rfl⟩
  | cons _ _ ihhead ihtail =>
    obtain ⟨hhead, htail⟩ := List.forall_mem_cons.mp hts
    obtain ⟨ht, rfl⟩ := ihhead (by simpa using hhead) hc
    obtain ⟨hts, rfl⟩ := ihtail htail hc
    exact ⟨by simp_all, rfl⟩
  | @walk _ _ t _ _ _ _ ih =>
    have ht := hts t List.mem_cons_self
    obtain ⟨rfl, rfl⟩ := ih (fun c hc => ht.child hc) rfl
    exact ⟨by rw [withChildren_children], rfl⟩
  | scope owner =>
    rw [(hts _ List.mem_cons_self).root.2] at owner
    cases owner
  | classDecl | classExprBound | classExprFree => cases (hts _ List.mem_cons_self).root.1
  | member => cases hc

/-- `{ super(...args); }` is expanded to a call of the helper. -/
theorem Expands.of_forward {c space : String} {t' : Tree}
    (h : Expands ⟨c, space, .constructor⟩ false a [gen (.block [gen (.exprStatement
      (gen (.call (gen .superExpr) [gen (.spread (ident "args"))])))])] [t'] a') :
    t' = gen (.block [gen (.exprStatement (Site.superCall ⟨c, space, .constructor⟩
      (text "constructor") [gen (.spread (ident "args"))] none))]) ∧ a' = a.withUsed true := by
  obtain ⟨statements, hblock, ht'⟩ := h.outcome
  obtain ⟨statement, _, a₁, rfl, hstatement, hnil⟩ := hblock.uncons
  obtain ⟨rfl, rfl⟩ := hnil.eq_of_other (by simp)
  obtain ⟨calls, hcalls, hstatement'⟩ := hstatement.outcome
  obtain ⟨call, _, a₂, rfl, hcall, hnil⟩ := hcalls.uncons
  obtain ⟨rfl, rfl⟩ := hnil.eq_of_other (by simp)
  obtain ⟨operands, a₃, hoperands, hcall', rfl⟩ := hcall.outcome
  obtain ⟨rfl, rfl⟩ := hoperands.eq_of_other (by
    simp [SuperUse.operands, gen, ident, everywhere_node, superRole, Shape.superRole,
      Shape.children])
  cases hcall'
  cases hstatement'
  cases ht'
  exact ⟨rfl, rfl⟩

theorem Lowers.of_defaultConstructor {c : String} {hasBase : Bool} {t' : Tree}
    (h : Lowers options (some c) a [.defaultConstructor hasBase] [t'] a') :
    t' = defaultProperty options c hasBase := by
  obtain ⟨kind, cs, cs', a₁, a₂, legal, expanded, below, ht', -⟩ := h.of_member
  cases hasBase with
  | false =>
    obtain rfl : MemberKind.constructor = kind := Option.some.inj legal
    obtain ⟨rfl, rfl⟩ := expanded.eq_of_other (by
      simp [Tree.defaultConstructor, gen, everywhere_node, superRole, Shape.superRole,
        Shape.children])
    obtain ⟨rfl, rfl⟩ := below.eq_of_plain (by decide +kernel)
    cases ht'
    rfl
  | true =>
    obtain rfl : MemberKind.constructor = kind := Option.some.inj legal
    obtain ⟨parameter, _, a₃, rfl, hparameter, hrest⟩ := expanded.uncons
    obtain ⟨heq, rfl⟩ := hparameter.eq_of_other (by
      simp [gen, everywhere_node, superRole, Shape.superRole, Shape.children])
    obtain ⟨body, _, a₄, rfl, hbody, hnil⟩ := hrest.uncons
    obtain ⟨rfl, rfl⟩ := hnil.eq_of_other (by simp)
    obtain ⟨rfl, rfl⟩ := hbody.of_forward
    cases heq
    obtain ⟨rfl, rfl⟩ := below.eq_of_plain (by
      simp [Site.superCall, Site.helperCall, helper, text, gen, ident, everywhere_node,
        Shape.children, Shape.isClass, Shape.ownsTemps, Shape.isFunctionLike])
    cases ht'
    rfl

end DefaultConstructor

/-! ### Members -/

/-- What kind of member a construct is. The name of a constructor may have quotes, and accessors of
that name are accessors. -/
def Shape.memberKind? {α : Type} : Shape α → Option MemberKind
  | .method (.identifier "constructor") _ _ | .method (.quoted "constructor") _ _ =>
    some .constructor
  | .method _ _ _ => some .method
  | .getter _ _ | .setter _ _ _ => some .accessor
  | _ => none

/-- The kind that the lowering finds. -/
theorem MemberKind.ofShape?_eq {α : Type} (s : Shape α) : ofShape? s = s.memberKind? := by
  cases s with
  | method name parameters body =>
    cases name with
    | identifier text | quoted text =>
      by_cases h : text = "constructor"
      · subst h
        rfl
      · simp [ofShape?, PropertyName.isConstructor, Shape.memberKind?, h]
    | numeric digits => rfl
  | _ => rfl

namespace Store

/-- The kind of the member at `id`, if there is one. -/
def memberKind? (s : Store) (id : NodeId) : Option MemberKind :=
  (s.get? id).bind fun node => node.shape.memberKind?

/-- Whether one of the members of a class is its constructor. -/
def hasConstructor (s : Store) (members : List NodeId) : Bool :=
  members.any fun member => s.memberKind? member == some .constructor

/-- The property that a lowered member becomes. A constructor becomes a function. -/
def IsProperty (s : Store) (kind : MemberKind) (lowered property : NodeId) : Prop :=
  if kind = .constructor then
    ∃ name parameters body range function,
      s.get? lowered = some ⟨.method name parameters body, range⟩ ∧
      s.get? function = some ⟨.functionExpr none parameters body, range⟩ ∧
      s.get? property = some ⟨.property (.identifier "constructor") function, range⟩
  else
    property = lowered

theorem IsProperty.mono {s s' : Store} {kind : MemberKind} {lowered property : NodeId}
    (h : s.IsProperty kind lowered property) (hle : s ≤ s') :
    s'.IsProperty kind lowered property := by
  rw [IsProperty] at h ⊢
  split at h
  case isTrue hkind =>
    obtain ⟨name, parameters, body, range, function, hlowered, hfunction, hproperty⟩ := h
    rw [if_pos hkind]
    exact ⟨name, parameters, body, range, function, hle _ _ hlowered, hle _ _ hfunction,
      hle _ _ hproperty⟩
  case isFalse hkind => rwa [if_neg hkind]

end Store

/-- In a run that began with the store `before`, members of the class at `cls` are being lowered,
and the expression that names the class is `c`. -/
structure AtHand (before : Store) (cls nameExpr : NodeId) (c : String)
    (session : Session LoweringState) : Prop where
  le : before ≤ session.store
  stack : session.state.stack.head? = some (cls, nameExpr)
  name : session.store.Denotes before.size nameExpr (.ident c)

/-- The property at `property` is what becomes of the member at `member` of the class at `cls`, in a
run that begins with the store `before` and ends with `after`. -/
def Tabulates (options : Options) (nesting : Nat) (before after : Store) (cls : NodeId) (c : String)
    (member property : NodeId) : Prop :=
  ∃ kind lowered nameExpr session session',
    before.memberKind? member = some kind ∧
    AtHand before cls nameExpr c session ∧
    (lowerMember options nesting kind member).runOn session = (.ok lowered, session') ∧
    session'.store ≤ after ∧
    before.Alike member after lowered ∧
    after.IsProperty kind lowered property

section Members

variable {options : Options} {nesting : Nat} {before after : Store} {cls nameExpr : NodeId}
  {c : String} {session session' : Session LoweringState} {members : List NodeId}

theorem AtHand.of_steady (h : AtHand before cls nameExpr c session)
    (hle : session.store ≤ session'.store) (hstack : session'.state.stack = session.state.stack) :
    AtHand before cls nameExpr c session' :=
  ⟨h.le.trans hle, hstack ▸ h.stack, h.name.mono hle⟩

theorem Tabulates.mono {after' : Store} {member property : NodeId}
    (h : Tabulates options nesting before after cls c member property) (hle : after ≤ after') :
    Tabulates options nesting before after' cls c member property := by
  obtain ⟨kind, lowered, nameExpr, session, session', hkind, hat, run, hafter, halike, hmade⟩ := h
  exact ⟨kind, lowered, nameExpr, session, session', hkind, hat, run, hafter.trans hle,
    halike.mono hle, hmade.mono hle⟩

theorem ensures_constructorProperty (lowered : NodeId) :
    Ensures session (constructorProperty lowered) fun property session' =>
      session'.store.IsProperty .constructor lowered property := by
  refine ensures_node_bind fun node found => ?_
  obtain ⟨shape, range⟩ := node
  cases shape with
  | method name parameters body =>
    refine (ensures_get?_append _ _).bind fun function session₁ hle₁ hfunction => ?_
    refine (ensures_get?_append _ _).imp fun property session₂ hle₂ hproperty => ?_
    exact ⟨name, parameters, body, range, function, hle₂ _ _ (hle₁ _ _ found), hle₂ _ _ hfunction,
      hproperty⟩
  | _ => exact ensures_throw

theorem ensures_lowerProperty (hat : AtHand before cls nameExpr c session) {member : NodeId}
    {kind : MemberKind} (hkind : before.memberKind? member = some kind) :
    Ensures session (lowerProperty (lowerMember options nesting) member) fun out session' =>
      out.1 = kind ∧ Tabulates options nesting before session'.store cls c member out.2 := by
  obtain ⟨node, found, hshape⟩ := Option.bind_eq_some_iff.mp hkind
  rw [← MemberKind.ofShape?_eq] at hshape
  refine ensures_node_bind fun node' found' => ?_
  obtain rfl := Option.some.inj ((hat.le _ _ found).symm.trans found')
  have hgrows : Grows (lowerMember options nesting kind member) :=
    fun _ => (alike_lowerMember options nesting kind member).imp fun _ _ _ _ => trivial
  have hlower := (hgrows.runs session).and (alike_lowerMember options nesting kind member)
  split
  case h_1 hk =>
    obtain rfl := Option.some.inj (hshape.symm.trans hk)
    refine hlower.bind fun lowered session₁ _ ⟨run, halike⟩ => ?_
    refine (ensures_constructorProperty lowered).bind fun property session₂ hle hproperty => ?_
    have halike := (Store.Alike.of_le hat.le).trans (halike.mono hle)
    exact ensures_pure ⟨rfl, .constructor, lowered, nameExpr, session, session₁, hkind, hat, run,
      hle, halike, hproperty⟩
  case h_2 hne hk =>
    obtain rfl := Option.some.inj (hshape.symm.trans hk)
    refine hlower.bind fun lowered session₁ _ ⟨run, halike⟩ => ?_
    have halike := (Store.Alike.of_le hat.le).trans halike
    exact ensures_pure ⟨rfl, kind, lowered, nameExpr, session, session₁, hkind, hat, run, le_rfl,
      halike, (if_neg (by rintro rfl; exact hne rfl)).mpr rfl⟩
  case h_3 => exact ensures_throw

theorem ensures_lowerProperties (members : List NodeId) :
    ∀ session, AtHand before cls nameExpr c session →
      (∀ member ∈ members, (before.memberKind? member).isSome) →
      Ensures session (members.mapM (lowerProperty (lowerMember options nesting)))
        fun lowered session' => AtHand before cls nameExpr c session' ∧
          List.Forall₂ (fun member out => before.memberKind? member = some out.1 ∧
            Tabulates options nesting before session'.store cls c member out.2)
            members lowered := by
  induction members with
  | nil => exact fun session hat _ => ensures_pure ⟨hat, .nil⟩
  | cons member members ih =>
    intro session hat legal
    obtain ⟨hmember, hmembers⟩ := List.forall_mem_cons.mp legal
    obtain ⟨kind, hkind⟩ := Option.isSome_iff_exists.mp hmember
    have hsteady := Tracks.steady (fun top => top.toList) (fun _ =>
      tracks_lowerProperty (tracks_lowerMember options nesting) member) session
    rw [List.mapM_cons]
    refine ((ensures_lowerProperty hat hkind).and hsteady).bind fun out session₁ hle hout => ?_
    obtain ⟨⟨rfl, htable⟩, hstack⟩ := hout
    refine (ih session₁ (hat.of_steady hle hstack) hmembers).bind fun rest session₂ hle hrest => ?_
    exact ensures_pure ⟨hrest.1, .cons ⟨hkind, htable.mono hle⟩ hrest.2⟩

theorem any_isConstructor {lowered : List (MemberKind × NodeId)}
    (h : List.Forall₂ (fun member out => before.memberKind? member = some out.1) members lowered) :
    lowered.any (·.1 == .constructor) = before.hasConstructor members := by
  induction h with
  | nil => rfl
  | cons head _ ih =>
    rw [Store.hasConstructor, List.any_cons, List.any_cons, ← Store.hasConstructor, ih, head]
    rfl

theorem AtHand.exists_classes (h : AtHand before cls nameExpr c session) :
    ∃ used rest, session.state.classes = ⟨cls, nameExpr, used⟩ :: rest := by
  have hstack := h.stack
  rw [LoweringState.stack, List.head?_map, Option.map_eq_some_iff] at hstack
  obtain ⟨⟨_, _, used⟩, hhead, hcontext⟩ := hstack
  obtain ⟨rest, hclasses⟩ := List.head?_eq_some_iff.mp hhead
  cases hcontext
  exact ⟨used, rest, hclasses⟩

/-- The constructor that is added is built, expanded and lowered like a member. -/
theorem ensures_default (hat : AtHand before cls nameExpr c session) (hasBase : Bool)
    (written : List NodeId) : Ensures session (do
      let constructor ← lowerMember options nesting .constructor (← defaultConstructor hasBase)
      return (written ++ [← constructorProperty constructor], false)) fun out session' =>
        ∃ property, out = (written ++ [property], false) ∧
          session'.store.Denotes before.size property (.defaultProperty options c hasBase) := by
  cases nesting with
  | zero =>
    have hgrows := (Tracks.steady (fun _ => []) fun _ => tracks_defaultConstructor hasBase).grows
    refine hgrows.ensures_bind fun id session₁ _ => ?_
    exact (ensures_throw (Q := fun _ _ => False)).bind fun _ _ _ h => h.elim
  | succ nesting =>
    obtain ⟨used, rest, hclasses⟩ := hat.exists_classes
    let tree := Tree.defaultConstructor hasBase
    have hkind : MemberKind.ofShape? tree.shape = some .constructor := by cases hasBase <;> rfl
    have hnoclasses : tree.classDepths = [] :=
      (synthetic_defaultConstructor hasBase).gather_eq_nil fun _ => rfl
    have hyields : Yields before.size [(nameExpr, .ident c)] session.state.view (do
        let constructor ← lowerMember options (nesting + 1) .constructor
          (← defaultConstructor hasBase)
        return (written ++ [← constructorProperty constructor], false))
        (fun out _ Δ => ∃ property, out = (written ++ [property], false) ∧
          Δ = [(property, .defaultProperty options c hasBase)]) (fun _ _ => True) := by
      refine (builds_defaultConstructor hasBase).bind fun id => ?_
      refine Yields.bind ((lowerMember_spec before.size options (nesting + 1) (Nat.succ_pos _)
        List.mem_cons_self (List.mem_cons_of_mem _ List.mem_cons_self) hkind
        (by simp [hnoclasses]) hclasses).imp (fun _ _ _ h => h) fun _ _ _ => trivial) ?_
      rintro lowered v' _ ⟨t', rfl, hkind', -, hlowers⟩
      refine (builds_constructorProperty (by simp) hkind').bind fun property => ?_
      refine yields_pure _ (List.cons_subset.mpr ⟨List.mem_cons_self, List.nil_subset _⟩)
        ⟨property, rfl, ?_⟩
      rw [asProperty, if_pos rfl] at hlowers
      rw [hlowers.of_defaultConstructor]
    have hknows : session.store.Knows before.size [(nameExpr, .ident c)] :=
      Store.knows_cons.mpr ⟨hat.name, Store.knows_nil⟩
    refine (hyields.ensures (Store.size_le_of_le hat.le) hknows rfl).imp ?_
    rintro out session' - ⟨Δ, hΔ, property, rfl, rfl⟩
    exact ⟨property, rfl, hΔ _ List.mem_cons_self⟩

/-- What is added to the properties of a class for the members it has. -/
def Completes (options : Options) (before after : Store) (c : String) (members : List NodeId)
    (hasBase : Bool) (added : List NodeId) : Prop :=
  if before.hasConstructor members then added = []
  else ∃ property, added = [property] ∧
    after.Denotes before.size property (.defaultProperty options c hasBase)

theorem Completes.mono {after' : Store} {hasBase : Bool} {added : List NodeId}
    (h : Completes options before after c members hasBase added) (hle : after ≤ after') :
    Completes options before after' c members hasBase added := by
  rw [Completes] at h ⊢
  split at h
  case isTrue hconstructor => rwa [if_pos hconstructor]
  case isFalse hconstructor =>
    obtain ⟨property, hadded, hdenotes⟩ := h
    rw [if_neg hconstructor]
    exact ⟨property, hadded, hdenotes.mono hle⟩

theorem ensures_lowerMembers (hat : AtHand before cls nameExpr c session) (hasBase : Bool)
    (legal : ∀ member ∈ members, (before.memberKind? member).isSome) :
    Ensures session (lowerMembers (lowerMember options nesting) members hasBase)
      fun out session' => out.2 = before.hasConstructor members ∧
        ∃ written added, out.1 = written ++ added ∧
          List.Forall₂ (Tabulates options nesting before session'.store cls c) members written ∧
          Completes options before session'.store c members hasBase added := by
  refine (ensures_lowerProperties members session hat legal).bind
    fun lowered session₁ _ ⟨hat₁, hlowered⟩ => ?_
  have htable : List.Forall₂ (Tabulates options nesting before session₁.store cls c) members
      (lowered.map Prod.snd) :=
    List.forall₂_map_right_iff.mpr (hlowered.imp fun _ _ h => h.2)
  dsimp only
  rw [any_isConstructor (hlowered.imp fun _ _ h => h.1)]
  split
  case isTrue hconstructor =>
    exact ensures_pure ⟨hconstructor.symm, _, [], (List.append_nil _).symm, htable,
      (if_pos hconstructor).mpr rfl⟩
  case isFalse hconstructor =>
    refine (ensures_default hat₁ hasBase (lowered.map Prod.snd)).imp ?_
    rintro _ session₂ hle ⟨property, rfl, hdenotes⟩
    exact ⟨(Bool.eq_false_iff.mpr hconstructor).symm, _, [property], rfl,
      htable.imp fun _ _ h => h.mono hle, (if_neg hconstructor).mpr ⟨property, rfl, hdenotes⟩⟩

end Members

/-! ### Classes -/

/-- The nodes of a call that makes a class. -/
structure ClassCall where
  callee : NodeId
  /-- The object of members. -/
  object : NodeId
  base : NodeId
  ownConstructor : NodeId
  hasBase : NodeId
  /-- The properties for the members in the source. -/
  written : List NodeId
  /-- The properties that are added. -/
  added : List NodeId

/-- The node at `call` is the call that the class at `cls` becomes, in a run that begins with the
store `before` and ends with `after`. In its members the class is called `c`; its heritage is
lowered with `visit`. -/
structure ClassCall.Creates (nodes : ClassCall) (options : Options) (nesting : Nat)
    (visit : NodeId → Lowering NodeId) (before after : Store) (cls : NodeId)
    (parts : ClassParts NodeId) (range : Option Range) (c : String) (call : NodeId) : Prop where
  call : after.get? call = some
    ⟨.call nodes.callee [nodes.object, nodes.base, nodes.ownConstructor, nodes.hasBase], range⟩
  callee : after.Denotes before.size nodes.callee (.helper options.runtimeName .createClass)
  object : after.get? nodes.object = some ⟨.object (nodes.written ++ nodes.added), none⟩
  written : List.Forall₂ (Tabulates options nesting before after cls c) parts.members nodes.written
  added : Completes options before after c parts.members parts.heritage.isSome nodes.added
  base : ∀ heritage ∈ parts.heritage, ∃ session session', before ≤ session.store ∧
    (visit heritage).runOn session = (.ok nodes.base, session') ∧ session'.store ≤ after
  noBase : parts.heritage = none → after.Denotes before.size nodes.base (.gen (.literal .null))
  ownConstructor : after.Denotes before.size nodes.ownConstructor
    (.boolean (before.hasConstructor parts.members))
  hasBase : after.Denotes before.size nodes.hasBase (.boolean parts.heritage.isSome)

section Classes

variable {options : Options} {nesting : Nat} {visit : NodeId → Lowering NodeId} {before : Store}
  {cls nameExpr : NodeId} {c : String} {parts : ClassParts NodeId} {range : Option Range}
  {session : Session LoweringState}

theorem ClassCall.Creates.mono {nodes : ClassCall} {after after' : Store} {call : NodeId}
    (h : nodes.Creates options nesting visit before after cls parts range c call)
    (hle : after ≤ after') :
    nodes.Creates options nesting visit before after' cls parts range c call where
  call := hle _ _ h.call
  callee := h.callee.mono hle
  object := hle _ _ h.object
  written := h.written.imp fun _ _ htable => htable.mono hle
  added := h.added.mono hle
  base heritage hheritage := by
    obtain ⟨session, session', hbefore, run, hafter⟩ := h.base heritage hheritage
    exact ⟨session, session', hbefore, run, hafter.trans hle⟩
  noBase hnone := (h.noBase hnone).mono hle
  ownConstructor := h.ownConstructor.mono hle
  hasBase := h.hasBase.mono hle

/-- The heritage is lowered before the class is at hand. -/
theorem ensures_heritage (hvisit : ∀ id, Steady (visit id)) (heritage : Option NodeId) :
    Ensures session (heritage.mapM visit) fun base session' => base.isSome = heritage.isSome ∧
      ∀ h ∈ heritage, ∀ b ∈ base, (visit h).runOn session = (.ok b, session') := by
  cases heritage with
  | none => exact ensures_pure ⟨rfl, by simp⟩
  | some heritage =>
    refine ((hvisit heritage).grows.runs session).bind fun base session' _ run => ?_
    exact ensures_pure ⟨rfl, by simp [run]⟩

/-- A class without heritage has `null` for a base. -/
theorem ensures_baseArgument {β : Type} {n : Nat} {base : Option NodeId} {f : NodeId → Lowering β}
    {S : β → Session LoweringState → Prop} (hn : n ≤ session.store.size)
    (hf : ∀ id session₁, session.store ≤ session₁.store → (∀ b ∈ base, id = b) →
      (base = none → session₁.store.Denotes n id (.gen (.literal .null))) →
      Ensures session₁ (f id) S) :
    Ensures session (match base with
      | some base => pure base >>= f
      | none => Build.null >>= f) S := by
  cases base with
  | some base => exact hf base session le_rfl (by simp) (by simp)
  | none =>
    have hnull := (builds_synth (.literal .null) (by simp [Shape.children])).ensures hn
    exact hnull.bind fun id session₁ hle hid => hf id session₁ hle (by simp) fun _ => hid

theorem ensures_lowerClass (parts : ClassParts NodeId) (hvisit : ∀ id, Steady (visit id))
    (hle : before ≤ session.store) (hname : session.store.Denotes before.size nameExpr (.ident c))
    (legal : ∀ member ∈ parts.members, (before.memberKind? member).isSome) :
    Ensures session (lowerClass options (lowerMember options nesting) visit cls nameExpr
        parts.heritage parts.members range) fun out session' =>
      ∃ nodes : ClassCall,
        nodes.Creates options nesting visit before session'.store cls parts range c out.1 := by
  refine (ensures_heritage hvisit parts.heritage).bind fun base session₁ hle₁ ⟨hsome, hbase⟩ => ?_
  refine (ensures_pushClass cls nameExpr session₁).bind fun _ session₂ hle₂ hstack => ?_
  have hat : AtHand before cls nameExpr c session₂ :=
    ⟨hle.trans (hle₁.trans hle₂), by rw [hstack]; rfl, hname.mono (hle₁.trans hle₂)⟩
  refine ensures_attempt_bind (ensures_lowerMembers hat base.isSome legal) ?_ ?_
  · rintro ⟨properties, hasConstructor⟩ session₃ hle₃ ⟨rfl, written, added, rfl, htable, hadded⟩
    have hafter : session₁.store ≤ session₃.store := hle₂.trans hle₃
    have hpop : Grows popClass := grows_currentClass.bind fun _ => (Grows.modifyState _).bind
      fun _ => Grows.state.bind fun _ => (Grows.modifyState _).bind fun _ => .pure _
    refine hpop.ensures_bind fun context session₄ hle₄ => ensures_settle_bind ?_
    -- What is known so far stays, so from here on each node only has to be found.
    refine (ensures_get?_append _ _).bind fun object session₅ hle₅ hobject => ?_
    have hbefore : before ≤ session₅.store := hat.le.trans (hle₃.trans (hle₄.trans hle₅))
    refine ensures_baseArgument (Store.size_le_of_le hbefore)
      fun argument session₆ hle₆ hargument hnull => ?_
    replace hbefore := hbefore.trans hle₆
    refine ((builds_boolean _).ensures (Store.size_le_of_le hbefore)).bind
      fun ownConstructor session₇ hle₇ hownConstructor => ?_
    replace hbefore := hbefore.trans hle₇
    refine ((builds_boolean _).ensures (Store.size_le_of_le hbefore)).bind
      fun hasBase session₈ hle₈ hhasBase => ?_
    replace hbefore := hbefore.trans hle₈
    refine ((builds_helper _ _).ensures (Store.size_le_of_le hbefore)).bind
      fun callee session₉ hle₉ hcallee => ?_
    refine (ensures_get?_append _ _).bind fun call session₁₀ hle₁₀ hcall => ?_
    refine (Grows.modifyState _).ensures_bind fun _ session₁₁ hle₁₁ => ensures_pure ?_
    have hlast := hle₁₀.trans hle₁₁
    replace hle₈ := hle₈.trans (hle₉.trans hlast)
    replace hle₆ := hle₆.trans (hle₇.trans hle₈)
    refine ⟨⟨callee, object, argument, ownConstructor, hasBase, written, added⟩, ?_⟩
    refine ClassCall.Creates.mk (hle₁₁ _ _ hcall) (hcallee.mono hlast) (hle₆ _ _ hobject)
      (htable.imp fun _ _ h => h.mono (hle₄.trans (hle₅.trans hle₆)))
      (hsome ▸ hadded.mono (hle₄.trans (hle₅.trans hle₆))) (fun heritage hheritage => ?_)
      (fun hnone => ?_) (hownConstructor.mono hle₈) (hsome ▸ hhasBase.mono (hle₉.trans hlast))
    · rw [hheritage, Option.isSome_some] at hsome
      obtain ⟨b, rfl⟩ := Option.isSome_iff_exists.mp hsome
      obtain rfl := hargument b rfl
      exact ⟨session, session₁, hle, hbase heritage hheritage argument rfl,
        hafter.trans (hle₄.trans (hle₅.trans hle₆))⟩
    · rw [hnone, Option.isSome_none, Option.isSome_eq_false_iff, Option.isNone_iff_eq_none] at hsome
      exact (hnull hsome).mono (hle₇.trans hle₈)
  · intro fault session₁ out session' run
    obtain ⟨context, session₂, -, run⟩ := exec_bind_eq_ok_iff.mp run
    cases run

/-- What a class is called in its members: by its name if it is a declaration, and by a temporary
otherwise. -/
def ClassParts.nameWithin (parts : ClassParts NodeId) (s : Store) (temps : Temps) :
    Except Fault String :=
  match parts.name with
  | some name => s.identifierText name
  | none => .ok (Temps.name temps.allocate.1)

/-- The node at `lowered` is the call at `call`, put where the class was: as the value of a variable
if the class is the declaration of a name, and alone or assigned to a temporary otherwise. -/
def Store.Places (s : Store) (options : Options) (name : Option NodeId) (range : Option Range)
    (call lowered : NodeId) : Prop :=
  match name with
  | some name => ∃ declarator, s.get? declarator = some ⟨.declarator name (some call), range⟩ ∧
      s.get? lowered = some ⟨.varStatement (if options.blockBinding then .letWord else .varWord)
        [declarator], range⟩
  | none => lowered = call ∨ ∃ target assignment,
      s.get? assignment = some ⟨.binary target "=" call, none⟩ ∧
      s.get? lowered = some ⟨.paren assignment, range⟩

/-- The node at `lowered` is what the class at `cls` becomes, in a run that begins with the store
`before` and ends with `after`. -/
def BecomesCall (options : Options) (nesting : Nat) (visit : NodeId → Lowering NodeId)
    (before after : Store) (cls : NodeId) (parts : ClassParts NodeId) (range : Option Range)
    (c : String) (lowered : NodeId) : Prop :=
  ∃ call, after.Places options parts.name range call lowered ∧ ∃ nodes : ClassCall,
    nodes.Creates options nesting visit before after cls parts range c call

theorem ensures_lowerClassDecl (hvisit : ∀ id, Steady (visit id)) {name : NodeId}
    {heritage : Option NodeId} {members : List NodeId}
    (legal : ∀ member ∈ members, (session.store.memberKind? member).isSome) :
    Ensures session (lowerClassDecl options (lowerMember options nesting) visit cls name heritage
        members range) fun lowered session' =>
      ∃ c, session.store.identifierText name = .ok c ∧
        BecomesCall options nesting visit session.store session'.store cls
          ⟨some name, heritage, members⟩ range c lowered := by
  refine ensures_store_bind ?_
  cases hname : session.store.identifierText name with
  | error => exact ensures_throw
  | ok c =>
    refine ensures_settle_bind ?_
    refine ((builds_identifier c).ensures le_rfl).bind fun nameExpr session₁ hle hnameExpr => ?_
    refine (ensures_lowerClass ⟨some name, heritage, members⟩ hvisit hle hnameExpr legal).bind
      fun (call, _) session₂ _ ⟨nodes, hcreates⟩ => ?_
    refine (ensures_get?_append _ _).bind fun declarator session₃ hle₃ hdeclarator => ?_
    refine (ensures_get?_append _ _).imp fun lowered session₄ hle₄ hlowered => ?_
    exact ⟨c, rfl, call, ⟨declarator, hle₄ _ _ hdeclarator, hlowered⟩, nodes,
      hcreates.mono (hle₃.trans hle₄)⟩

theorem ensures_lowerClassExpr (hvisit : ∀ id, Steady (visit id)) {heritage : Option NodeId}
    {members : List NodeId}
    (legal : ∀ member ∈ members, (session.store.memberKind? member).isSome) :
    Ensures session (lowerClassExpr options (lowerMember options nesting) visit cls heritage members
        range) fun lowered session' =>
      BecomesCall options nesting visit session.store session'.store cls ⟨none, heritage, members⟩
        range (Temps.name session.state.temps.allocate.1) lowered := by
  let number := session.state.temps.allocate.1
  have hallocate : Ensures session allocate fun k _ => k = number :=
    ensures_modifyGetState_bind (ensures_state_bind ((Grows.modifyState _).ensures_bind
      fun _ _ _ => ensures_pure rfl))
  refine hallocate.bind fun _ session₁ hle₁ hnumber => ?_
  subst hnumber
  refine ((builds_identifier _).ensures (Store.size_le_of_le hle₁)).bind
    fun nameExpr session₂ hle₂ hnameExpr => ?_
  refine (ensures_lowerClass ⟨none, heritage, members⟩ hvisit (hle₁.trans hle₂) hnameExpr
    legal).bind fun (call, usesSuper) session₃ _ ⟨nodes, hcreates⟩ => ?_
  dsimp only
  split
  case isTrue =>
    refine (Grows.synth _).ensures_bind fun target session₄ hle₄ => ?_
    refine (ensures_get?_append _ _).bind fun assignment session₅ hle₅ hassignment => ?_
    refine (ensures_get?_append _ _).imp fun lowered session₆ hle₆ hlowered => ?_
    exact ⟨call, .inr ⟨target, assignment, hle₆ _ _ hassignment, hlowered⟩, nodes,
      hcreates.mono (hle₄.trans (hle₅.trans hle₆))⟩
  case isFalse =>
    have hrelease := (Tracks.steady (fun _ => []) fun _ => tracks_release number).grows
    refine hrelease.ensures_bind fun _ session₄ hle₄ => ensures_pure ?_
    exact ⟨call, .inl rfl, nodes, hcreates.mono hle₄⟩

end Classes

/-- **The table of members.** A class whose members are methods and accessors becomes a call of
`createClass` with four arguments, whatever else is in the store. The first one is an object, with
one property for each member, in order: the lowered member, which has kept its kind, its key, the
number of its parameters and its range, or, for a constructor, a function with the parameters and
the body of the lowered method. If no member is a constructor, one is added at the end, which calls
the constructor of the base if there is one and does nothing otherwise. The other arguments are the
lowered heritage or `null`, whether there is a constructor among the members and whether there is a
heritage. -/
theorem lowerNode_creates {s : Store} {id lowered : NodeId} {node : Node}
    {parts : ClassParts NodeId} {options : Options} {nesting height : Nat} {state : LoweringState}
    {session : Session LoweringState} (found : s.get? id = some node)
    (isClass : node.shape.classParts? = some parts)
    (legal : ∀ member ∈ parts.members, (s.memberKind? member).isSome)
    (run : (lowerNode options (lowerMember options nesting) height id).runOn ⟨s, state⟩ =
      (.ok lowered, session)) :
    let visit := lowerNode options (lowerMember options nesting) (height - 1)
    ∃ c, parts.nameWithin s state.temps = .ok c ∧
      BecomesCall options nesting visit s session.store id parts node.range c lowered := by
  intro visit
  have hensures : Ensures ⟨s, state⟩ (lowerNode options (lowerMember options nesting) height id)
      fun lowered session => ∃ c, parts.nameWithin s state.temps = .ok c ∧
        BecomesCall options nesting visit s session.store id parts node.range c lowered := by
    cases height with
    | zero => exact ensures_throw
    | succ height =>
      have hvisit := (tracks_lowerNode (tracks_lowerMember options nesting) options height).steady
      refine ensures_node_bind fun node' found' => ?_
      obtain rfl : node = node' := Option.some.inj (found.symm.trans found')
      obtain ⟨shape, range⟩ := node
      cases shape with
      | classDecl name heritage members =>
        cases isClass
        exact ensures_lowerClassDecl hvisit legal
      | classExpr name heritage members =>
        cases isClass
        refine (ensures_lowerClassExpr hvisit legal).imp fun lowered session' _ h => ?_
        exact ⟨_, rfl, h⟩
      | _ => cases isClass
  exact (hensures lowered session run).2

/-- `class C extends B { constructor() {} "constructor"(x) {} get constructor() {} m() { … } }`,
`class extends B { m() { … } }`, with `class extends super.B {};` in `m`, and
`class extends B { "constructor"(x) {} }`. -/
def tableStore : Store where
  nodes := #[
    ⟨.binding "C", none⟩,
    ⟨.identifier "B", none⟩,
    ⟨.block [], none⟩,
    ⟨.method (.identifier "constructor") [] ⟨2⟩, none⟩,
    ⟨.binding "x", none⟩,
    ⟨.parameter ⟨4⟩ none false, none⟩,
    ⟨.block [], none⟩,
    ⟨.method (.quoted "constructor") [⟨5⟩] ⟨6⟩, none⟩,
    ⟨.block [], none⟩,
    ⟨.getter (.identifier "constructor") ⟨8⟩, none⟩,
    ⟨.superExpr, none⟩,
    ⟨.member ⟨10⟩ "B", none⟩,
    ⟨.classExpr none (some ⟨11⟩) [], none⟩,
    ⟨.exprStatement ⟨12⟩, none⟩,
    ⟨.block [⟨13⟩], none⟩,
    ⟨.method (.identifier "m") [] ⟨14⟩, none⟩,
    ⟨.classDecl ⟨0⟩ (some ⟨1⟩) [⟨3⟩, ⟨7⟩, ⟨9⟩, ⟨15⟩], none⟩,
    ⟨.classExpr none (some ⟨1⟩) [⟨15⟩], none⟩,
    ⟨.classExpr none (some ⟨1⟩) [⟨7⟩], none⟩]

/-- Two constructors and an accessor of that name stand for themselves, and nothing is added. A
class without constructor gets one that calls the constructor of the base, and one whose only
constructor has its name in quotes gets none. -/
theorem lowerNode_creates_constructors :
    let visit := lowerNode {} (lowerMember {} 20) 19
    (∃ lowered session call, ∃ nodes : ClassCall,
      (lowerNode {} (lowerMember {} 20) 20 ⟨16⟩).runOn ⟨tableStore, {}⟩ = (.ok lowered, session) ∧
        nodes.Creates {} 20 visit tableStore session.store ⟨16⟩
          ⟨some ⟨0⟩, some ⟨1⟩, [⟨3⟩, ⟨7⟩, ⟨9⟩, ⟨15⟩]⟩ none "C" call ∧
        nodes.added = []) ∧
      (∃ lowered session call, ∃ nodes : ClassCall,
        (lowerNode {} (lowerMember {} 20) 20 ⟨17⟩).runOn ⟨tableStore, {}⟩ = (.ok lowered, session) ∧
          nodes.Creates {} 20 visit tableStore session.store ⟨17⟩
            ⟨none, some ⟨1⟩, [⟨15⟩]⟩ none (Temps.name 0) call ∧
          ∃ property, nodes.added = [property] ∧
            session.store.Denotes 19 property (.defaultProperty {} (Temps.name 0) true)) ∧
      ∃ lowered session call, ∃ nodes : ClassCall,
        (lowerNode {} (lowerMember {} 20) 20 ⟨18⟩).runOn ⟨tableStore, {}⟩ = (.ok lowered, session) ∧
          nodes.Creates {} 20 visit tableStore session.store ⟨18⟩
            ⟨none, some ⟨1⟩, [⟨7⟩]⟩ none (Temps.name 0) call ∧
          nodes.added = [] := by
  refine ⟨?_, ?_, ?_⟩
  · have ok : ((lowerNode {} (lowerMember {} 20) 20 ⟨16⟩).runOn ⟨tableStore, {}⟩).1.isOk := by
      decide +kernel
    generalize run : (lowerNode {} (lowerMember {} 20) 20 ⟨16⟩).runOn ⟨tableStore, {}⟩ = out at ok ⊢
    obtain ⟨_ | lowered, session⟩ := out
    · cases ok
    · obtain ⟨_, ⟨⟩, call, -, nodes, hcreates⟩ := lowerNode_creates rfl rfl (by decide +kernel) run
      exact ⟨lowered, session, call, nodes, rfl, hcreates, hcreates.added⟩
  · have ok : ((lowerNode {} (lowerMember {} 20) 20 ⟨17⟩).runOn ⟨tableStore, {}⟩).1.isOk := by
      decide +kernel
    generalize run : (lowerNode {} (lowerMember {} 20) 20 ⟨17⟩).runOn ⟨tableStore, {}⟩ = out at ok ⊢
    obtain ⟨_ | lowered, session⟩ := out
    · cases ok
    · obtain ⟨_, ⟨⟩, call, -, nodes, hcreates⟩ := lowerNode_creates rfl rfl (by decide +kernel) run
      exact ⟨lowered, session, call, nodes, rfl, hcreates, hcreates.added⟩
  · have ok : ((lowerNode {} (lowerMember {} 20) 20 ⟨18⟩).runOn ⟨tableStore, {}⟩).1.isOk := by
      decide +kernel
    generalize run : (lowerNode {} (lowerMember {} 20) 20 ⟨18⟩).runOn ⟨tableStore, {}⟩ = out at ok ⊢
    obtain ⟨_ | lowered, session⟩ := out
    · cases ok
    · obtain ⟨_, ⟨⟩, call, -, nodes, hcreates⟩ := lowerNode_creates rfl rfl (by decide +kernel) run
      exact ⟨lowered, session, call, nodes, rfl, hcreates, hcreates.added⟩

end Declass
