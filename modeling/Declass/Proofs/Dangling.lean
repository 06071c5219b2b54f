import Declass.Proofs.Tracing

/-!
# Indices that dangle

It is a fault to look at an index that names no node, and the lowering looks at almost all of a
program. But it does so one index after the other, in a store that grows meanwhile. An index that
dangles at first may name a generated node by the time it is looked at, and then the run goes on
with that node. The name of a class expression is not looked at at all.

So a run that succeeds has found a node at each index that it looks at, be it one that was not
there at the start, and a run that fails for a missing node has looked at an index that dangles to
the end. Only a program with a class can succeed although an index dangles: without classes nothing
is generated, and no name is left out.

## Main definitions

* `Store.NoClass` — code without classes
* `Stays` — an edit that changes nothing

## Main results

* `lowerNode_stays` — code without classes stays as it is
* `lowerProgram_dangling` — which indices of a program may dangle
-/

namespace Declass

open Edit Lowering

/-! ### Programs without classes -/

section ClassFree

/-- No class is reached from `id`. -/
def Store.NoClass (s : Store) (id : NodeId) : Prop :=
  ∀ a node, s.Reaches id a → s.get? a = some node → node.shape.isClass = false

/-- Without classes all indices are looked at. -/
theorem Store.NoClass.visits {s : Store} {id d : NodeId} (noClass : s.NoClass id)
    (h : s.Reaches id d) : s.Visits id d := by
  induction h with
  | refl => exact .refl
  | tail hreach hchild ih =>
    obtain ⟨node, found, hc⟩ := hchild
    exact ih.tail ⟨node, found, by rwa [Shape.kept_eq (noClass _ node hreach found)]⟩

/-- Whenever the edit succeeds and `P` holds, it returns `id` and has changed nothing. -/
def Stays (P : Store → Prop) (id : NodeId) (e : Lowering NodeId) : Prop :=
  ∀ session, Ensures session e fun id' session' => P session.store → id' = id ∧ session' = session

/-- A walk changes nothing if its visits change nothing. -/
theorem Stays.walk {visit : NodeId → Lowering NodeId}
    (hvisit : ∀ id, Stays (·.NoClass id) id (visit id)) (id : NodeId) :
    Stays (·.NoClass id) id (Edit.walk visit id) := by
  intro session
  have hbelow {node : Node} (found : session.store.get? id = some node)
      (noClass : session.store.NoClass id) : ∀ c ∈ node.shape.children, session.store.NoClass c :=
    fun c hc a node' hreach => noClass a node' (.head ⟨node, found, hc⟩ hreach)
  refine ensures_walk (V := fun ids ids' session' =>
    (∀ c ∈ ids, session.store.NoClass c) → ids' = ids ∧ session' = session) (fun ids => ?_) ?_ ?_
  · refine .mapM (V := fun session ids ids' session' =>
      (∀ c ∈ ids, session.store.NoClass c) → ids' = ids ∧ session' = session)
      (fun _ _ => ⟨rfl, rfl⟩) (fun _ _ hhead htail noClass => ?_)
      (fun session c => hvisit c session) ids session
    obtain ⟨hc, hids⟩ := List.forall_mem_cons.mp noClass
    obtain ⟨rfl, rfl⟩ := hhead hc
    obtain ⟨rfl, rfl⟩ := htail hids
    exact ⟨rfl, rfl⟩
  · intro node session' found _ hids noClass
    exact ⟨rfl, (hids (hbelow found noClass)).2⟩
  · intro node ids session' found _ hids hne _ noClass
    exact absurd (hids (hbelow found noClass)).1 hne

/-- A scope changes nothing if what is done in it changes nothing. -/
theorem Stays.inTempScope {P : Store → Prop} {id : NodeId} {e : Lowering NodeId}
    (h : Stays P id e) : Stays P id (Lowering.inTempScope e) := by
  intro session
  refine .inTempScope (h _) (fun lowered session₁ hlowered _ hP => ?_)
    fun lowered session₁ hlowered held => ?_
  · obtain ⟨rfl, rfl⟩ := hlowered hP
    exact ⟨rfl, rfl⟩
  · -- The scope holds nothing.
    have hgrows := (Tracks.steady (fun _ => [lowered]) fun _ =>
      tracks_declareTemps (session₁.state.temps.pop.1.map Temps.name) List.mem_cons_self).grows
    refine (hgrows _).imp fun _ _ _ _ hP => ?_
    obtain ⟨rfl, rfl⟩ := hlowered hP
    exact absurd rfl held

/-- **Code without classes stays as it is,** if it is lowered at all. -/
theorem lowerNode_stays {lower : MemberLowering} (hlower : TracksMembers lower)
    (options : Options) (height : Nat) :
    ∀ id, Stays (·.NoClass id) id (lowerNode options lower height id) := by
  induction height with
  | zero => exact fun _ _ => ensures_throw
  | succ height ih =>
    intro id session
    have hwalk := Stays.walk ih id
    have hvisit := tracks_lowerNode hlower options height
    refine ensures_node_bind fun node found => ?_
    split
    case h_1 name heritage members hshape =>
      have hclass := Tracks.steady (fun _ => []) fun _ =>
        tracks_lowerClassDecl hlower hvisit options id name heritage members node.range
      refine (hclass session).imp fun _ _ _ _ noClass => ?_
      have hplain := noClass id node .refl found
      rw [hshape] at hplain
      cases hplain
    case h_2 name heritage members hshape =>
      have hclass := Tracks.steady (fun _ => []) fun _ =>
        tracks_lowerClassExpr hlower hvisit options id heritage members node.range
      refine (hclass session).imp fun _ _ _ _ noClass => ?_
      have hplain := noClass id node .refl found
      rw [hshape] at hplain
      cases hplain
    case h_3 => exact hwalk.inTempScope session
    case h_4 =>
      split
      · exact hwalk.inTempScope session
      · exact hwalk session

end ClassFree

/-! ### Programs -/

section Programs

variable {s : Store} {root lowered d : NodeId} {options : Options} {state : LoweringState}
  {session : Session LoweringState}

/-- Without classes the lowering of a program leaves the store as it is. -/
theorem eq_of_noClass (noClass : s.NoClass root)
    (run : (lowerProgram options root).runOn ⟨s, state⟩ = (.ok lowered, session)) :
    session.store = s := by
  have hensures : Ensures ⟨s, state⟩ (lowerProgram options root) fun _ session' =>
      session'.store = s := by
    refine ensures_modifyState_bind (ensures_attempt_bind
      (Q := fun _ session' => session'.store = s) ?_ ?_ (by rintro fault session _ _ ⟨⟩))
    · refine ensures_store_bind ((lowerNode_stays (tracks_lowerMember options _) options _ root
        _).bind fun lowered session' _ hlowered => ?_)
      exact ensures_modifyState_bind (ensures_pure (congrArg Session.store (hlowered noClass).2))
    · intro lowered session' _ hstore
      exact ensures_modifyState_bind (ensures_pure (a := lowered) hstore)
  exact (hensures _ _ run).2

/-- If no index that is looked at dangles, none does when the store has grown. -/
theorem Store.Visits.of_le {s' : Store} (closed : ∀ d, s.Visits root d → d.index < s.size)
    (hle : s ≤ s') (h : s'.Visits root d) : s.Visits root d := by
  induction h with
  | refl => exact .refl
  | tail _ hchild ih =>
    obtain ⟨node, found, hc⟩ := hchild
    obtain ⟨node', found'⟩ := Option.isSome_iff_exists.mp ((isSome_get?_iff s _).mpr (closed _ ih))
    obtain rfl := Option.some.inj (found.symm.trans (hle _ _ found'))
    exact ih.tail ⟨node, found', hc⟩

/-- **Which indices of a program may dangle.** The lowering looks at the indices that are reached
from the root without the name of a class expression on the way. On whatever store, a run that
succeeds leaves a node at each of them, as at each index that is so reached in the lowered program,
and a run that fails for a missing node leaves that one of them without. So of the runs that end in
one of these two ways those succeed after which none of them dangles. One that dangles at first may
have come to name a generated node. If none dangles at the start, no node is ever missing, and in a
program without classes each that dangles makes the lowering fail. -/
theorem lowerProgram_dangling {outcome : Except Fault NodeId}
    (run : (lowerProgram options root).runOn ⟨s, state⟩ = (outcome, session)) :
    s ≤ session.store ∧
      (∀ lowered, outcome = .ok lowered → ∀ d,
        session.store.Visits root d ∨ session.store.Visits lowered d →
          d.index < session.store.size) ∧
      (∀ d, outcome = .error (.missingNode d) →
        session.store.Visits root d ∧ session.store.size ≤ d.index) ∧
      ((∀ d, s.Visits root d → d.index < s.size) → ∀ d, outcome ≠ .error (.missingNode d)) ∧
      (outcome.isOk → ∀ d, s.Reaches root d → s.size ≤ d.index →
        ∃ id node, s.Reaches root id ∧ s.get? id = some node ∧ node.shape.isClass = true) := by
  have htraced := lowerProgram_traced options root ⟨s, state⟩
  change Traced true [] [root] _ _ ((lowerProgram options root).runOn ⟨s, state⟩) at htraced
  rw [run] at htraced
  cases outcome with
  | ok lowered =>
    obtain ⟨hle, -, hsame, hlowered⟩ := htraced
    have hfound {id d : NodeId} (hdebt : session.store.SameDebt [] [id] [])
        (hvisits : session.store.Visits id d) : d.index < session.store.size := by
      by_contra hge
      have howes := (hdebt _ le_rfl d).mp ⟨Nat.le_of_not_lt hge, id, List.mem_cons_self, hvisits⟩
      obtain ⟨-, id, hid, -⟩ := howes
      cases hid
    have hroot := hsame.trans (hlowered rfl)
    refine ⟨hle, ?_, nofun, fun _ _ => nofun, fun _ d hreaches hdangling => ?_⟩
    · rintro _ ⟨⟩ d (hvisits | hvisits)
      · exact hfound hroot hvisits
      · exact hfound (hlowered rfl) hvisits
    · by_contra hclass
      have noClass : s.NoClass root := fun id node hreach found =>
        Bool.eq_false_iff.mpr fun h => hclass ⟨id, node, hreach, found, h⟩
      have hlt := hfound hroot (eq_of_noClass noClass run ▸ noClass.visits hreaches)
      rw [eq_of_noClass noClass run] at hlt
      exact absurd hdangling (Nat.not_le.mpr hlt)
  | error fault =>
    obtain ⟨hle, hmissing⟩ := htraced
    have hmissing (d : NodeId) (hd : fault = .missingNode d) :
        session.store.Visits root d ∧ session.store.size ≤ d.index := by
      obtain ⟨hsize, id, hid, hvisits⟩ := hmissing d hd
      exact ⟨List.mem_singleton.mp hid ▸ hvisits, hsize⟩
    refine ⟨hle, nofun, fun d hd => hmissing d (Except.error.inj hd), fun closed d hd => ?_, nofun⟩
    obtain ⟨hvisits, hsize⟩ := hmissing d (Except.error.inj hd)
    have hlt := closed d (hvisits.of_le closed hle)
    exact absurd ((Store.size_le_of_le hle).trans hsize) (Nat.not_le.mpr hlt)

end Programs

/-- `class {}; e;`, where the index of `e` is the one that the next node will have. -/
def aheadStore : Store where
  nodes := #[⟨.classExpr none none [], none⟩, ⟨.exprStatement ⟨0⟩, none⟩,
    ⟨.exprStatement ⟨4⟩, none⟩, ⟨.program [⟨1⟩, ⟨2⟩], none⟩]

theorem lowerProgram_dangling_ahead : ∃ lowered session,
    (lowerProgram {} ⟨3⟩).runOn ⟨aheadStore, {}⟩ = (.ok lowered, session) ∧
      aheadStore.Visits ⟨3⟩ ⟨4⟩ ∧ aheadStore.size ≤ 4 ∧ 4 < session.store.size := by
  have visits : aheadStore.Visits ⟨3⟩ ⟨4⟩ :=
    .head ⟨_, rfl, List.mem_cons_of_mem _ List.mem_cons_self⟩ (.single ⟨_, rfl, List.mem_cons_self⟩)
  have ok : ((lowerProgram {} ⟨3⟩).runOn ⟨aheadStore, {}⟩).1.isOk := by decide +kernel
  generalize run : (lowerProgram {} ⟨3⟩).runOn ⟨aheadStore, {}⟩ = out at ok ⊢
  obtain ⟨_ | lowered, session⟩ := out
  · cases ok
  · obtain ⟨hle, hfound, -⟩ := lowerProgram_dangling run
    exact ⟨lowered, session, rfl, visits, le_rfl, hfound lowered rfl ⟨4⟩ (.inl (visits.mono hle))⟩

/-- A store in which indices refer to earlier nodes, or dangle. -/
theorem Store.acyclic_of_descends {s : Store}
    (h : ∀ i : Fin s.nodes.size, ∀ c ∈ (s.nodes[i]).shape.children,
      c.index < i ∨ s.size ≤ c.index) (root : NodeId) : s.Acyclic root := by
  let rank (id : NodeId) : Nat := if id.index < s.size then id.index + 1 else 0
  have hrank {a b : NodeId} (hchild : s.Child a b) : rank b < rank a := by
    obtain ⟨node, found, hb⟩ := hchild
    obtain ⟨hlt, rfl⟩ := Array.getElem?_eq_some_iff.mp found
    have hlt' : a.index < s.size := hlt
    have hb : b.index < a.index ∨ s.size ≤ b.index := h ⟨a.index, hlt⟩ b hb
    simp only [rank]
    split <;> omega
  have hpath {a b : NodeId} (hpath : Relation.TransGen s.Child a b) : rank b < rank a := by
    induction hpath with
    | single hchild => exact hrank hchild
    | tail _ hchild ih => exact (hrank hchild).trans ih
  exact fun id _ hcycle => (hpath hcycle).false

/-- `class e {};`, where the index of `e` dangles. -/
def namelessStore : Store where
  nodes := #[⟨.classExpr (some ⟨99⟩) none [], none⟩, ⟨.exprStatement ⟨0⟩, none⟩,
    ⟨.program [⟨1⟩], none⟩]

/-- **An index that dangles need not make the lowering fail.** That of a class expression's name
dangles to the end. That of a later statement comes to name the temporary of a class, which the
lowered program then mentions though nothing declares it. -/
theorem lowerProgram_accepts_dangling :
    (namelessStore.Acyclic ⟨2⟩ ∧ namelessStore.Reaches ⟨2⟩ ⟨99⟩ ∧
      ∃ lowered session, (lowerProgram {} ⟨2⟩).runOn ⟨namelessStore, {}⟩ = (.ok lowered, session) ∧
        namelessStore.get? ⟨99⟩ = none ∧ session.store.get? ⟨99⟩ = none) ∧
    (aheadStore.Acyclic ⟨3⟩ ∧ aheadStore.Reaches ⟨3⟩ ⟨4⟩ ∧
      ∃ lowered session, (lowerProgram {} ⟨3⟩).runOn ⟨aheadStore, {}⟩ = (.ok lowered, session) ∧
        aheadStore.get? ⟨4⟩ = none ∧ session.store.get? ⟨4⟩ = some ⟨.identifier "$__0", none⟩ ∧
        session.store.Reaches lowered ⟨4⟩) := by
  refine ⟨⟨Store.acyclic_of_descends (by decide +kernel) _, ?_, ?_⟩,
    ⟨Store.acyclic_of_descends (by decide +kernel) _, ?_, ?_⟩⟩
  · exact .head ⟨_, rfl, List.mem_cons_self⟩ (.head ⟨_, rfl, List.mem_cons_self⟩
      (.single ⟨_, rfl, List.mem_cons_self⟩))
  · have ok : let out := (lowerProgram {} ⟨2⟩).runOn ⟨namelessStore, {}⟩
        out.1.isOk ∧ out.2.store.get? ⟨99⟩ = none := by decide +kernel
    generalize run : (lowerProgram {} ⟨2⟩).runOn ⟨namelessStore, {}⟩ = out at ok ⊢
    obtain ⟨_ | lowered, session⟩ := out
    · cases ok.1
    · exact ⟨lowered, session, rfl, rfl, ok.2⟩
  · exact .head ⟨_, rfl, List.mem_cons_of_mem _ List.mem_cons_self⟩
      (.single ⟨_, rfl, List.mem_cons_self⟩)
  · have ok : let out := (lowerProgram {} ⟨3⟩).runOn ⟨aheadStore, {}⟩
        out.1.isOk ∧ out.2.store.get? ⟨4⟩ = some ⟨.identifier "$__0", none⟩ ∧
          ∀ lowered ∈ out.1.toOption, ∃ node ∈ out.2.store.get? lowered, ⟨2⟩ ∈ node.shape.children ∧
            ∃ node ∈ out.2.store.get? ⟨2⟩, ⟨4⟩ ∈ node.shape.children := by
      decide +kernel
    generalize run : (lowerProgram {} ⟨3⟩).runOn ⟨aheadStore, {}⟩ = out at ok ⊢
    obtain ⟨_ | lowered, session⟩ := out
    · cases ok.1
    · obtain ⟨node, hnode, hstatement, node', hnode', hexpression⟩ := ok.2.2 lowered rfl
      exact ⟨lowered, session, rfl, rfl, ok.2.1,
        .head ⟨node, hnode, hstatement⟩ (.single ⟨node', hnode', hexpression⟩)⟩

end Declass
