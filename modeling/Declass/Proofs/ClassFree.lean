import Declass.Proofs.Scaffold

/-!
# Lowered programs have no classes

Every class that a lowering meets becomes a call, wherever it stands: in the heritage of another
class, in a key or an argument of `super`, or in a part of a member in which `super` is left as it
is. So the result is free of classes whatever the source was, and a lowering of the result has
nothing to do. That it then also leaves nothing behind, no node and no report, is a matter of the
walk: a node whose children come back as they were is not built anew, and a scope of temporaries
that is closed with nothing in it declares nothing.

## Main definitions

* `Tree.ClassFree` — no part of the tree is a class
* `Rests` — an edit that returns a node and does nothing else

## Main results

* `Lowers.classFree` — lowered code has no classes
* `rests_lowerNode` — code without classes is lowered to itself
* `lowerProgram_fixed` — a lowered program is a fixed point of all lowerings
-/

namespace Declass

open Edit Lowering

namespace Tree

/-! ### Code without classes -/

/-- No part of the tree is a class. -/
def ClassFree : Tree → Prop :=
  Everywhere fun t => t.shape.isClass = false

theorem lenient_isClass : Lenient (fun _ => True) fun t => t.shape.isClass = false where
  neutral t h := by
    generalize t.shape = s at h
    cases s <;> first | rfl | cases h
  assign _ _ := rfl
  declarator _ _ _ _ _ := rfl
  varStatement _ _ _ _ _ := rfl
  program _ _ _ := rfl
  body _ s _ _ h := by
    rw [← h]
    cases s <;> rfl
  expression _ _ _ _ _ _ _ := rfl

theorem classFree_withChildren {t : Tree} {cs : List Tree} (plain : t.shape.isClass = false)
    (hlength : cs.length = t.shape.children.length) (below : ∀ c ∈ cs, c.ClassFree) :
    (t.withChildren cs).ClassFree := by
  refine .node ?_ ?_
  · rwa [shape_node, Shape.isClass_refill]
  · rwa [Shape.children_refill hlength]

end Tree

open Declass.Tree in
/-- **Lowered code has no classes.** -/
theorem Lowers.classFree {options : Options} {c : Option String} {a a' : Account}
    {ts ts' : List Tree} (h : Lowers options c a ts ts' a') : ∀ t ∈ ts', t.ClassFree := by
  have single {t : Tree} (ht : t.ClassFree) : ∀ u ∈ [t], u.ClassFree := by simpa using ht
  induction h with
  | nil => simp
  | cons _ _ ihHead ihTail =>
    exact List.forall_mem_cons.mpr ⟨ihHead _ List.mem_cons_self, ihTail⟩
  | walk plain _ below ih => exact single (classFree_withChildren plain below.length_eq ih)
  | scope owner below ih =>
    have hwalked := classFree_withChildren (isClass_of_ownsTemps owner) below.length_eq ih
    exact single (lenient_isClass.declaring trivial hwalked _)
  | classDecl named _ _ ihAbove ihBelow =>
    refine single (lenient_isClass.declareClass trivial named ?_ _)
    exact lenient_isClass.createClass ihBelow ihAbove _ _
  | classExprBound _ _ _ ihAbove ihBelow =>
    refine single (lenient_isClass.assignTemp ?_ _ _)
    exact lenient_isClass.createClass ihBelow ihAbove _ _
  | classExprFree _ _ _ ihAbove ihBelow =>
    exact single (lenient_isClass.createClass ihBelow ihAbove _ _)
  | member legal expanded below ih =>
    have hplain := isClass_of_ownsTemps (ownsTemps_of_ofShape? legal)
    have hwalked := classFree_withChildren hplain (below.length_eq.trans expanded.length_eq) ih
    exact single (lenient_isClass.asProperty (lenient_isClass.declaring trivial hwalked _) _)

/-! ### Edits that do nothing -/

/-- In the store `s`, the edit returns `id` and does nothing else. -/
def Rests (s : Store) (edit : Lowering NodeId) (id : NodeId) : Prop :=
  ∀ state, exec edit ⟨s, state⟩ = (.ok id, ⟨s, state⟩)

namespace Rests

variable {s : Store} {id : NodeId} {node : Node}

theorem node_bind {rest : Node → Lowering NodeId} (found : s.get? id = some node)
    (h : Rests s (rest node) id) : Rests s (Edit.node id >>= rest) id := by
  intro state
  rw [exec_bind_of_ok (exec_node found state), h state]

/-- A visit that returns each of the children returns the list of them. -/
theorem mapM {visit : NodeId → Lowering NodeId} {ids : List NodeId}
    (h : ∀ c ∈ ids, Rests s (visit c) c) (state : LoweringState) :
    exec (ids.mapM visit) ⟨s, state⟩ = (.ok ids, ⟨s, state⟩) := by
  rw [exec_mapM_eq_ok_iff]
  induction ids with
  | nil => exact .nil
  | cons c ids ih =>
    obtain ⟨hc, hids⟩ := List.forall_mem_cons.mp h
    exact .cons (hc state) (ih hids)

/-- A node whose children come back as they were is not built anew. -/
theorem walk {visit : NodeId → Lowering NodeId} (found : s.get? id = some node)
    (h : ∀ c ∈ node.shape.children, Rests s (visit c) c) : Rests s (Edit.walk visit id) id := by
  refine node_bind found fun state => ?_
  have hshape : exec (node.shape.mapM visit) ⟨s, state⟩ = (.ok node.shape, ⟨s, state⟩) := by
    rw [Shape.mapM_eq_refill, exec_map, mapM h state]
    simp [Except.map]
  rw [exec_bind_of_ok hshape, if_pos rfl]
  rfl

/-- A scope of temporaries that is closed with nothing in it declares nothing. -/
theorem inTempScope {lower : Lowering NodeId} (h : Rests s lower id) :
    Rests s (Lowering.inTempScope lower) id := by
  intro state
  have hopen : exec (modifyState fun s => { s with temps := s.temps.push }) ⟨s, state⟩ =
      (.ok (), ⟨s, { state with temps := state.temps.push }⟩) := rfl
  have hlower : exec (attempt lower) ⟨s, { state with temps := state.temps.push }⟩ =
      (.ok (.ok id), ⟨s, { state with temps := state.temps.push }⟩) := by
    change (Except.ok (exec lower _).1, (exec lower _).2) = _
    rw [h]
  rw [Lowering.inTempScope, exec_bind_of_ok hopen, exec_bind_of_ok hlower]
  rfl

end Rests

/-- **Code without classes is lowered to itself.** -/
theorem rests_lowerNode {s : Store} (options : Options) (lowerMember : MemberLowering) :
    ∀ {height : Nat} {id : NodeId}, s.Fits height id →
      (∀ a node, s.Reaches id a → s.get? a = some node → node.shape.isClass = false) →
      Rests s (lowerNode options lowerMember height id) id := by
  intro height
  induction height with
  | zero => intro id hf; exact hf.elim
  | succ height ih =>
    rintro id ⟨node, found, below⟩ hfree
    have hplain := hfree id node .refl found
    have hwalk : Rests s (walk (lowerNode options lowerMember height) id) id := by
      refine .walk found fun c hc => ih (below c hc) fun a node' hreach => ?_
      exact hfree a node' (.head ⟨node, found, hc⟩ hreach)
    refine .node_bind found ?_
    split
    case h_1 hshape | h_2 hshape =>
      rw [hshape] at hplain
      cases hplain
    case h_3 => exact hwalk.inTempScope
    case h_4 =>
      split
      · exact hwalk.inTempScope
      · exact hwalk

theorem exec_store (session : Session LoweringState) :
    exec (store : Lowering Store) session = (.ok session.store, session) := rfl

/-- A span of the log is left whatever happens in it. -/
theorem exec_inSpan {α : Type} (span : Log.Span) (act : Lowering α) (s : Store)
    (state : LoweringState) :
    exec (inSpan span act) ⟨s, state⟩ =
      let out := exec act ⟨s, { state with journal := state.journal.enter span }⟩
      (out.1, ⟨out.2.store, { out.2.state with journal := out.2.state.journal.leave }⟩) := by
  have hrun : exec (inSpan span act) ⟨s, state⟩ =
      let out := exec act ⟨s, { state with journal := state.journal.enter span }⟩
      exec (settle out.1)
        ⟨out.2.store, { out.2.state with journal := out.2.state.journal.leave }⟩ := rfl
  rw [hrun]
  dsimp only
  cases (exec act ⟨s, { state with journal := state.journal.enter span }⟩).1 <;> rfl

/-- To lower a program without classes is to note in the log that nothing has changed. -/
theorem exec_lowerProgram_of_classFree {s : Store} {root : NodeId} (hg : s.Grounded root)
    (hfree : ∀ a node, s.Reaches root a → s.get? a = some node → node.shape.isClass = false)
    (options : Options) (state : LoweringState) :
    ∃ log, exec (lowerProgram options root) ⟨s, state⟩ =
      (.ok root, ⟨s, { state with journal := { state.journal with log } }⟩) := by
  have hrests := rests_lowerNode options (lowerMember options s.walkBound)
    (hg.fits.mono s.size_le_walkBound) hfree
  rw [lowerProgram, exec_inSpan, exec_bind_of_ok (exec_store _), exec_bind_of_ok (hrests _)]
  exact ⟨_, rfl⟩

/-- **A lowered program is a fixed point.** No class is left in it, and to lower it again, by
whatever options and in whatever state, returns the same node; the store and the state stay as they
were, apart from the log. -/
theorem lowerProgram_fixed {s : Store} {root : NodeId} (closed : s.Closed root)
    (acyclic : s.Acyclic root) {options : Options} {state : LoweringState} {lowered : NodeId}
    {session : Session LoweringState}
    (run : (lowerProgram options root).runOn ⟨s, state⟩ = (.ok lowered, session)) :
    (∀ id node, session.store.Reaches lowered id → session.store.get? id = some node →
      node.shape.isClass = false) ∧
    ∀ (options' : Options) (state' : LoweringState), ∃ log,
      (lowerProgram options' lowered).runOn ⟨session.store, state'⟩ =
        (.ok lowered, ⟨session.store, { state' with journal := { state'.journal with log } }⟩) := by
  have hg : s.Grounded root := Store.grounded_iff.mpr ⟨closed, acyclic⟩
  have hspec := lowerProgram_spec hg options s.size le_rfl state
  change exec (lowerProgram options root) ⟨s, state⟩ = _ at run
  rw [run] at hspec
  obtain ⟨-, t', ⟨hlowered, rfl⟩, hlowers⟩ := hspec
  have hfree : ∀ id node, session.store.Reaches lowered id → session.store.get? id = some node →
      node.shape.isClass = false := by
    intro id node hreach found
    have htree :=
      (hlowered.everywhere_of_reaches (hlowers.classFree _ List.mem_cons_self) hreach).root
    rwa [(hlowered.reaches hreach).tree_eq found, Tree.shape_node, Shape.isClass_map] at htree
  refine ⟨hfree, fun options' state' => ?_⟩
  exact exec_lowerProgram_of_classFree hlowered hfree options' state'

/-- A class expression that uses `super`, with a class expression as its heritage. -/
def nestedStore : Store where
  nodes := #[⟨.classExpr none none [], none⟩, ⟨.superExpr, none⟩, ⟨.member ⟨1⟩ "m", none⟩,
    ⟨.call ⟨2⟩ [], none⟩, ⟨.returnStatement (some ⟨3⟩), none⟩, ⟨.block [⟨4⟩], none⟩,
    ⟨.method (.identifier "m") [] ⟨5⟩, none⟩, ⟨.classExpr none (some ⟨0⟩) [⟨6⟩], none⟩,
    ⟨.exprStatement ⟨7⟩, none⟩, ⟨.program [⟨8⟩], none⟩]

/-- A second run with other options finds nothing to do. -/
theorem lowerProgram_fixed_nested : ∃ lowered session,
    (lowerProgram {} ⟨9⟩).runOn ⟨nestedStore, {}⟩ = (.ok lowered, session) ∧
      ∃ log, (lowerProgram { blockBinding := true } lowered).runOn ⟨session.store, {}⟩ =
        (.ok lowered, ⟨session.store, { journal := { log } }⟩) := by
  have fits : nestedStore.Fits 10 ⟨9⟩ := by decide +kernel
  obtain ⟨closed, acyclic⟩ := Store.grounded_iff.mp fits.grounded
  have ok : ((lowerProgram {} ⟨9⟩).runOn ⟨nestedStore, {}⟩).1.isOk := by decide +kernel
  generalize run : (lowerProgram {} ⟨9⟩).runOn ⟨nestedStore, {}⟩ = out at ok ⊢
  obtain ⟨_ | lowered, session⟩ := out
  · cases ok
  · exact ⟨lowered, session, rfl,
      (lowerProgram_fixed closed acyclic run).2 { blockBinding := true } {}⟩

end Declass
