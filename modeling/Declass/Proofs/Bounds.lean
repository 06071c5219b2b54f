import Declass.Proofs.Legality

/-!
# Bounds that are never reached

A lowering descends into nodes that it has made itself, so each descent has a bound, taken from the
size of the store at that moment. On a tree without cycles no bound is ever reached: the lowering
with larger bounds, in all places at once, runs in the same way. To see this, a computation is
compared with one that has larger bounds. The two agree from every state from which the first is not
cut short, and this carries over from the parts of a lowering to the whole.

A run that is cut short inside the members of a class still leaves the class, so it may end with the
complaint that there is no class to leave instead.

## Main definitions

* `Prolongs` — the second computation runs as the first one does, where that is not cut short
* `Lowering.lowerProgramWithin` — lowering with other bounds

## Main results

* `prolongs_expandNode`, `prolongs_lowerNode`, `prolongs_lowerMember` — the descents
* `lowerProgram_terminates` — lowering a tree without cycles comes to an end and only appends
-/

namespace Declass

open Edit Lowering

/-! ### Larger bounds -/

/-- The faults of a computation that is cut short by a bound. -/
def Fault.isCut : Fault → Bool
  | .unboundedNesting | .unbalancedClassContext => true
  | _ => false

/-- The outcome is not that of a computation that is cut short. -/
def Uncut {α : Type} (outcome : Except Fault α) : Prop :=
  ∀ fault, outcome = .error fault → fault.isCut = false

theorem not_uncut {α : Type} {fault : Fault} (cut : fault.isCut = true) :
    ¬ Uncut (.error fault : Except Fault α) := by
  intro huncut
  have hfault := huncut fault rfl
  rw [cut] at hfault
  cases hfault

/-- The second computation runs as the first one does, wherever the first one is not cut short. -/
def Prolongs {σ α : Type} (e e' : Edit σ α) : Prop :=
  ∀ session, Uncut (exec e session).1 → exec e' session = exec e session

namespace Prolongs

variable {σ α β : Type}

theorem refl (e : Edit σ α) : Prolongs e e :=
  fun _ _ => rfl

/-- What is cut short at once is prolonged by everything. -/
theorem throw {fault : Fault} (cut : fault.isCut = true) (e : Edit σ α) :
    Prolongs (MonadExcept.throw fault) e :=
  fun _ huncut => absurd huncut (not_uncut cut)

theorem bind {x x' : Edit σ α} {f f' : α → Edit σ β} (hx : Prolongs x x')
    (hf : ∀ a, Prolongs (f a) (f' a)) : Prolongs (x >>= f) (x' >>= f') := by
  intro session huncut
  have hx := hx session
  rw [exec_bind] at huncut
  rw [exec_bind, exec_bind]
  rcases hrun : exec x session with ⟨fault | a, session₁⟩
  · rw [hrun] at huncut hx
    have hfirst : Uncut (.error fault : Except Fault α) := by
      rintro _ ⟨⟩
      exact huncut fault rfl
    rw [hx hfirst]
  · rw [hrun] at huncut hx
    rw [hx (by rintro _ ⟨⟩)]
    exact hf a session₁ huncut

theorem map {x x' : Edit σ α} (hx : Prolongs x x') (f : α → β) : Prolongs (f <$> x) (f <$> x') := by
  rw [← bind_pure_comp, ← bind_pure_comp]
  exact hx.bind fun _ => .refl _

/-- A computation that is run to its end, be it a failure. If it is cut short, then so must be what
comes after it. -/
theorem attempt {x x' : Edit σ α} {f : Except Fault α → Edit σ β} (hx : Prolongs x x')
    (hcut : ∀ fault : Fault, fault.isCut = true →
      ∀ session, ¬ Uncut (exec (f (.error fault)) session).1) :
    Prolongs (Edit.attempt x >>= f) (Edit.attempt x' >>= f) := by
  have hattempt (e : Edit σ α) (session : Session σ) : exec (Edit.attempt e >>= f) session =
      exec (f (exec e session).1) (exec e session).2 := rfl
  intro session huncut
  rw [hattempt] at huncut
  rw [hattempt, hattempt, hx session ?_]
  intro fault hfault
  rw [hfault] at huncut
  exact Bool.eq_false_iff.mpr fun cut => hcut fault cut _ huncut

section Visits

variable {visit visit' : α → Edit σ β} (h : ∀ a, Prolongs (visit a) (visit' a))

include h

theorem mapM (as : List α) : Prolongs (as.mapM visit) (as.mapM visit') := by
  induction as with
  | nil => exact .refl _
  | cons a as ih =>
    rw [List.mapM_cons, List.mapM_cons]
    exact (h a).bind fun _ => ih.bind fun _ => .refl _

theorem optionMapM (a? : Option α) : Prolongs (a?.mapM visit) (a?.mapM visit') := by
  cases a? with
  | none => exact .refl _
  | some a => exact (h a).map some

end Visits

theorem walk {visit visit' : NodeId → Edit σ NodeId} (h : ∀ id, Prolongs (visit id) (visit' id))
    (id : NodeId) : Prolongs (Edit.walk visit id) (Edit.walk visit' id) := by
  refine .bind (.refl _) fun node => ?_
  rw [Shape.mapM_eq_refill, Shape.mapM_eq_refill]
  exact ((mapM h _).map _).bind fun _ => .refl _

theorem inTempScope {lower lower' : Lowering NodeId} (h : Prolongs lower lower') :
    Prolongs (Lowering.inTempScope lower) (Lowering.inTempScope lower') :=
  .bind (.refl _) fun _ => h.attempt fun _ cut _ => not_uncut cut

theorem inSpan {act act' : Lowering α} (h : Prolongs act act') (span : Log.Span) :
    Prolongs (Lowering.inSpan span act) (Lowering.inSpan span act') :=
  .bind (.refl _) fun _ => h.attempt fun _ cut _ => not_uncut cut

end Prolongs

/-! ### Expansion -/

section Expansion

variable {visit visit' : NodeId → Lowering NodeId} (h : ∀ id, Prolongs (visit id) (visit' id))
  {site : SuperSite}

include h

theorem prolongs_superCall (key : NodeId) (arguments : List NodeId) (range : Option Range) :
    Prolongs (superCall site visit key arguments range)
      (superCall site visit' key arguments range) :=
  (Prolongs.mapM h arguments).bind fun _ => .refl _

theorem prolongs_expandKey (key : MemberKey NodeId) :
    Prolongs (expandKey visit key) (expandKey visit' key) := by
  cases key with
  | named => exact .refl _
  | computed index => exact h index

theorem prolongs_bindKey (key : MemberKey NodeId) :
    Prolongs (bindKey visit key) (bindKey visit' key) := by
  cases key with
  | named => exact .refl _
  | computed index => exact (h index).bind fun _ => .refl _

theorem prolongs_expandUse (id : NodeId) (range : Option Range) (use : SuperUse NodeId) :
    Prolongs (expandUse site visit id range use) (expandUse site visit' id range use) := by
  cases use with
  | call word arguments =>
    rw [expandUse, expandUse]
    split
    · exact .bind (.refl _) fun _ => prolongs_superCall h _ _ _
    · refine .bind (.refl _) fun _ => .bind (.refl _) fun _ => ?_
      exact (Prolongs.mapM h arguments).bind fun _ => .refl _
  | methodCall access arguments =>
    exact (prolongs_expandKey h _).bind fun _ => prolongs_superCall h _ _ _
  | assign access value =>
    exact (prolongs_expandKey h _).bind fun _ => (h value).bind fun _ => .refl _
  | compound access operator value =>
    exact (prolongs_bindKey h _).bind fun _ => (h value).bind fun _ => .refl _
  | update access operator => exact (prolongs_bindKey h _).bind fun _ => .refl _
  | get access => exact (prolongs_expandKey h _).bind fun _ => .refl _
  | bare => exact .refl _

theorem prolongs_expandHeritage (id : NodeId) (node : Node) :
    Prolongs (expandHeritage visit id node) (expandHeritage visit' id node) := by
  rw [expandHeritage, expandHeritage]
  split
  case h_1 heritage _ _ => exact (h heritage).bind fun _ => .refl _
  case h_2 heritage _ _ => exact (h heritage).bind fun _ => .refl _
  case h_3 => exact .refl _

end Expansion

theorem prolongs_expandNode (site : SuperSite) {height height' : Nat} (hle : height ≤ height')
    (nested : Bool) (id : NodeId) :
    Prolongs (expandNode site height nested id) (expandNode site height' nested id) := by
  induction height generalizing height' nested id with
  | zero => exact .throw rfl _
  | succ height ih =>
    obtain ⟨height', rfl⟩ : ∃ n, height' = n + 1 := ⟨height' - 1, by omega⟩
    have ih (nested : Bool) (id : NodeId) :
        Prolongs (expandNode site height nested id) (expandNode site height' nested id) :=
      ih (Nat.le_of_succ_le_succ hle) nested id
    refine .bind (.refl _) fun node => .bind (.refl _) fun s => ?_
    cases s.superRole id node.shape with
    | use use =>
      simp only
      split
      · exact .refl _
      · exact prolongs_expandUse (ih false) id node.range use
    | nestedFunction => exact .walk (ih true) id
    | nestedClass => exact prolongs_expandHeritage (ih nested) id node
    | other => exact .walk (ih nested) id

/-! ### Lowering -/

section Classes

variable {options : Options} {visit visit' : NodeId → Lowering NodeId}
  {lower lower' : MemberLowering} (hlower : ∀ kind id, Prolongs (lower kind id) (lower' kind id))

include hlower

theorem prolongs_lowerProperty (id : NodeId) :
    Prolongs (lowerProperty lower id) (lowerProperty lower' id) := by
  refine .bind (.refl _) fun node => ?_
  split
  · exact (hlower _ id).bind fun _ => .refl _
  · exact (hlower _ id).bind fun _ => .refl _
  · exact .refl _

theorem prolongs_lowerMembers (members : List NodeId) (hasBase : Bool) :
    Prolongs (lowerMembers lower members hasBase) (lowerMembers lower' members hasBase) := by
  refine (Prolongs.mapM (prolongs_lowerProperty hlower) members).bind fun lowered => ?_
  simp only
  split
  · exact .refl _
  · exact .bind (.refl _) fun _ => (hlower _ _).bind fun _ => .refl _

variable (hvisit : ∀ id, Prolongs (visit id) (visit' id))

include hvisit

theorem prolongs_lowerClass (id nameExpr : NodeId) (heritage : Option NodeId)
    (members : List NodeId) (range : Option Range) :
    Prolongs (lowerClass options lower visit id nameExpr heritage members range)
      (lowerClass options lower' visit' id nameExpr heritage members range) := by
  refine (Prolongs.optionMapM hvisit heritage).bind fun base => .bind (.refl _) fun _ => ?_
  refine (prolongs_lowerMembers hlower members base.isSome).attempt ?_
  -- The class is left, or there is none to leave; then the fault of the members is passed on.
  rintro fault cut ⟨s, temps, classes, used, journal⟩
  cases classes with
  | nil => exact not_uncut (show Fault.unbalancedClassContext.isCut = true from rfl)
  | cons context classes => exact not_uncut cut

theorem prolongs_lowerClassDecl (id name : NodeId) (heritage : Option NodeId)
    (members : List NodeId) (range : Option Range) :
    Prolongs (lowerClassDecl options lower visit id name heritage members range)
      (lowerClassDecl options lower' visit' id name heritage members range) := by
  refine .bind (.refl _) fun _ => .bind (.refl _) fun _ => .bind (.refl _) fun _ => ?_
  exact (prolongs_lowerClass hlower hvisit _ _ _ _ _).bind fun _ => .refl _

theorem prolongs_lowerClassExpr (id : NodeId) (heritage : Option NodeId) (members : List NodeId)
    (range : Option Range) :
    Prolongs (lowerClassExpr options lower visit id heritage members range)
      (lowerClassExpr options lower' visit' id heritage members range) := by
  refine .bind (.refl _) fun _ => .bind (.refl _) fun _ => ?_
  exact (prolongs_lowerClass hlower hvisit _ _ _ _ _).bind fun _ => .refl _

end Classes

/-- More room for members prolongs the lowering of a node. -/
theorem prolongs_lowerNode {options : Options} {lower lower' : MemberLowering}
    (hlower : ∀ kind id, Prolongs (lower kind id) (lower' kind id)) {height height' : Nat}
    (hle : height ≤ height') (id : NodeId) :
    Prolongs (lowerNode options lower height id) (lowerNode options lower' height' id) := by
  induction height generalizing height' id with
  | zero => exact .throw rfl _
  | succ height ih =>
    obtain ⟨height', rfl⟩ : ∃ n, height' = n + 1 := ⟨height' - 1, by omega⟩
    have ih (id : NodeId) :
        Prolongs (lowerNode options lower height id) (lowerNode options lower' height' id) :=
      ih (Nat.le_of_succ_le_succ hle) id
    refine .bind (.refl _) fun node => ?_
    split
    · exact prolongs_lowerClassDecl hlower ih _ _ _ _ _
    · exact prolongs_lowerClassExpr hlower ih _ _ _ _
    · exact (Prolongs.walk ih id).inTempScope
    · split
      · exact (Prolongs.walk ih id).inTempScope
      · exact .walk ih id

/-! ### Whole programs -/

namespace Lowering

/-- Expand the `super`s of a member, with a bound on the depth that is read off the store. -/
def expandMemberWithin (bound : Store → Nat) (site : SuperSite) (id : NodeId) :
    Lowering (NodeId × Bool) := do
  modifyState fun s => { s with usedSuper := false }
  let member ← walk (expandNode site (bound (← store)) false) id
  return (member, (← state).usedSuper)

/-- Expand the `super`s of a member of the class at hand. -/
def expandOwnMemberWithin (bound : Store → Nat) (options : Options) (kind : MemberKind)
    (id : NodeId) : Lowering NodeId := do
  let context ← currentClass
  let (member, usedSuper) ←
    expandMemberWithin bound ⟨context.nameExpr, options.runtimeName, kind⟩ id
  if usedSuper then
    markClass
  return member

/-- Lower a member of the class at hand. -/
def lowerMemberWithin (bound : Store → Nat) (options : Options) : Nat → MemberLowering
  | 0, _, _ => throw .unboundedNesting
  | nesting + 1, kind, id => inTempScope do
    let member ← expandOwnMemberWithin bound options kind id
    walk (lowerNode options (lowerMemberWithin bound options nesting) (bound (← store))) member

/-- Lower every class of the program at `id`. -/
def lowerProgramWithin (bound : Store → Nat) (options : Options) (id : NodeId) :
    Lowering NodeId :=
  inSpan (programSpan id) do
    let bound₀ := bound (← store)
    let lowered ← lowerNode options (lowerMemberWithin bound options bound₀) bound₀ id
    record {
      level := .debug
      target := "lowerjs_lowering::class_transformer"
      message := "class lowering done"
      fields := [("changed", .flag (lowered ≠ id))] }
    return lowered

theorem lowerMemberWithin_walkBound (options : Options) (nesting : Nat) :
    lowerMemberWithin Store.walkBound options nesting = lowerMember options nesting := by
  induction nesting with
  | zero => rfl
  | succ nesting ih =>
    funext kind id
    rw [lowerMemberWithin, ih]
    rfl

theorem lowerProgramWithin_walkBound (options : Options) (id : NodeId) :
    lowerProgramWithin Store.walkBound options id = lowerProgram options id := by
  simp only [lowerProgramWithin, lowerMemberWithin_walkBound]
  rfl

end Lowering

section Programs

variable {bound bound' : Store → Nat} (hbound : ∀ s, bound s ≤ bound' s) (options : Options)

include hbound

theorem prolongs_expandOwnMember (kind : MemberKind) (id : NodeId) :
    Prolongs (expandOwnMemberWithin bound options kind id)
      (expandOwnMemberWithin bound' options kind id) := by
  refine .bind (.refl _) fun context => .bind ?_ fun _ => .refl _
  refine .bind (.refl _) fun _ => .bind (.refl _) fun s => ?_
  exact (Prolongs.walk (prolongs_expandNode _ (hbound s) false) id).bind fun _ => .refl _

/-- More room for nested classes prolongs the lowering of a member. -/
theorem prolongs_lowerMember {nesting nesting' : Nat} (hle : nesting ≤ nesting')
    (kind : MemberKind) (id : NodeId) :
    Prolongs (lowerMemberWithin bound options nesting kind id)
      (lowerMemberWithin bound' options nesting' kind id) := by
  induction nesting generalizing nesting' kind id with
  | zero => exact .throw rfl _
  | succ nesting ih =>
    obtain ⟨nesting', rfl⟩ : ∃ n, nesting' = n + 1 := ⟨nesting' - 1, by omega⟩
    refine Prolongs.inTempScope ?_
    refine (prolongs_expandOwnMember hbound options kind id).bind fun member => ?_
    refine .bind (.refl _) fun s => .walk (fun id => ?_) member
    exact prolongs_lowerNode (ih (Nat.le_of_succ_le_succ hle)) (hbound s) id

theorem prolongs_lowerProgram (id : NodeId) :
    Prolongs (lowerProgramWithin bound options id) (lowerProgramWithin bound' options id) := by
  refine Prolongs.inSpan (.bind (.refl _) fun s => .bind ?_ fun _ => .refl _) _
  exact prolongs_lowerNode (prolongs_lowerMember hbound options (hbound s)) (hbound s) id

end Programs

/-- A fault of a tree is not one of a computation that is cut short. -/
theorem Store.Grounded.uncut {s : Store} {root : NodeId} (hg : s.Grounded root) (options : Options)
    (state : LoweringState) : Uncut (exec (lowerProgram options root) ⟨s, state⟩).1 := by
  intro fault hfault
  have hspec := lowerProgram_spec hg options 0 (Nat.zero_le _) state
  rcases hrun : exec (lowerProgram options root) ⟨s, state⟩ with ⟨outcome, session⟩
  rw [hrun] at hspec hfault
  obtain rfl : outcome = .error fault := hfault
  obtain ⟨parts, -, hoffends⟩ := hg.mem_faults_iff.mp (List.mem_of_mem_head? hspec.2)
  cases hoffends <;> rfl

/-- **Lowering comes to an end and only appends.** On a tree without cycles no bound is ever
reached, so the lowering runs in the same way with all larger bounds. Whether it succeeds or fails,
the nodes there were stay as they are, and the new ones refer to older ones. If it succeeds, the
tree that it returns has all its nodes and no cycles. -/
theorem lowerProgram_terminates {s : Store} {root : NodeId} (closed : s.Closed root)
    (acyclic : s.Acyclic root) (options : Options) (state : LoweringState) :
    let run := (lowerProgram options root).runOn ⟨s, state⟩
    (run.1 ≠ .error .unboundedNesting ∧
      ∀ bound : Store → Nat, (∀ s, s.walkBound ≤ bound s) →
        (lowerProgramWithin bound options root).runOn ⟨s, state⟩ = run) ∧
    (∀ id node, s.get? id = some node → run.2.store.get? id = some node) ∧
    (∀ id node, s.size ≤ id.index → run.2.store.get? id = some node →
      ∀ c ∈ node.shape.children, c.index < id.index) ∧
    ∀ lowered, run.1 = .ok lowered →
      run.2.store.Closed lowered ∧ run.2.store.Acyclic lowered := by
  have hg : s.Grounded root := Store.grounded_iff.mpr ⟨closed, acyclic⟩
  have huncut := hg.uncut options state
  have hextends := lowerProgram_extends hg options state
  refine ⟨⟨fun hcut => ?_, fun bound hbound => ?_⟩, hextends.le, hextends.descends,
    fun lowered hlowered => ?_⟩
  · cases huncut _ hcut
  · have hprolongs := prolongs_lowerProgram hbound options root ⟨s, state⟩
    rw [lowerProgramWithin_walkBound] at hprolongs
    exact hprolongs huncut
  · exact Store.grounded_iff.mp (hg.lowers (Prod.ext hlowered rfl)).1

/-- A class with a class in a member. All nodes refer to later ones. -/
def forwardStore : Store where
  nodes := #[⟨.program [⟨1⟩], none⟩, ⟨.exprStatement ⟨2⟩, none⟩,
    ⟨.classExpr none (some ⟨3⟩) [⟨4⟩], none⟩, ⟨.identifier "B", none⟩,
    ⟨.method (.identifier "m") [] ⟨5⟩, none⟩, ⟨.block [⟨6⟩], none⟩,
    ⟨.returnStatement (some ⟨7⟩), none⟩, ⟨.classExpr none none [⟨8⟩], none⟩,
    ⟨.getter (.identifier "x") ⟨9⟩, none⟩, ⟨.block [], none⟩]

theorem lowerProgram_terminates_forward : ∃ lowered session,
    (lowerProgram {} ⟨0⟩).runOn ⟨forwardStore, {}⟩ = (.ok lowered, session) ∧
      (lowerProgramWithin (2 * ·.walkBound) {} ⟨0⟩).runOn ⟨forwardStore, {}⟩ =
        (.ok lowered, session) ∧
      session.store.Closed lowered ∧ session.store.Acyclic lowered := by
  have fits : forwardStore.Fits 10 ⟨0⟩ := by decide +kernel
  obtain ⟨closed, acyclic⟩ := Store.grounded_iff.mp fits.grounded
  obtain ⟨⟨-, hbound⟩, -, -, hresult⟩ := lowerProgram_terminates closed acyclic {} {}
  have hbound := hbound (2 * ·.walkBound) fun s => Nat.le_mul_of_pos_left _ (by decide)
  have ok : ((lowerProgram {} ⟨0⟩).runOn ⟨forwardStore, {}⟩).1.isOk := by decide +kernel
  generalize run : (lowerProgram {} ⟨0⟩).runOn ⟨forwardStore, {}⟩ = out at ok hbound hresult ⊢
  obtain ⟨_ | lowered, session⟩ := out
  · cases ok
  · exact ⟨lowered, session, rfl, hbound, hresult lowered rfl⟩

end Declass
