import Declass.Proofs.Checking

/-!
# Checking programs with the same tree

The check for undefined names reads a store, but what it finds depends only on the tree that the
program denotes. Two stores that hold the same tree are checked with the same outcome, be it a
fault, and with the same reports. What is noted in the log is left aside.

The visits of the two programs go side by side. The nodes that they come to are twins, and the
visits of twins do the same to the scopes and to the reports.

## Main definitions

* `Store.Twins` — two nodes with the same tree
* `Check.Alike` — two checks that do the same, apart from the log

## Main results

* `Check.alike_construct`, `Check.alike_visit` — the visits of twins
* `Check.program_layout` — the check of a program depends on its tree alone
-/

namespace Declass

/-! ### Twins -/

/-- Two shapes that become the same when their children are mapped are the two sides of a shape of
pairs. -/
theorem Shape.exists_pairs_of_map_eq {α β γ : Type} [Inhabited α] [Inhabited β] [Inhabited γ]
    {s : Shape α} {s' : Shape β} {f : α → γ} {g : β → γ} (h : s.map f = s'.map g) :
    ∃ z : Shape (α × β), s = z.map Prod.fst ∧ s' = z.map Prod.snd ∧
      ∀ p ∈ z.children, f p.1 = g p.2 := by
  have hchildren : s.children.map f = s'.children.map g := by
    rw [← Shape.children_map, ← Shape.children_map, h]
  have hlength : s'.children.length = s.children.length := by
    simpa using (congrArg List.length hchildren).symm
  have hrefill : s.refill s'.children = s' := by
    rw [← Shape.refill_map f, h, Shape.refill_map, Shape.refill_children]
  obtain ⟨z, hfst, hsnd, hz⟩ := Shape.exists_pairs hlength
  refine ⟨z, hfst, hrefill.symm.trans hsnd, fun p hp => ?_⟩
  rw [hz] at hp
  obtain ⟨i, hi, rfl⟩ := List.mem_iff_getElem.mp hp
  have hget := congrArg (·[i]?) hchildren
  simp only [List.length_zip, Nat.lt_min] at hi
  simpa [hi.1, hi.2] using hget

namespace Store

/-- The nodes `p.1` of `s` and `p.2` of `s'` have the same tree. -/
def Twins (s s' : Store) (p : NodeId × NodeId) : Prop :=
  ∃ t, s.Denotes 0 p.1 t ∧ s'.Denotes 0 p.2 t

namespace Twins

variable {s s' : Store} {p : NodeId × NodeId}

/-- Twins spell the same name. -/
theorem identifierText_eq (h : s.Twins s' p) : s.identifierText p.1 = s'.identifierText p.2 := by
  obtain ⟨t, hd, hd'⟩ := h
  rw [hd.identifierText_eq, hd'.identifierText_eq]

/-- Twins are constructs of the same kind, and their children are twins. -/
theorem exists_node (h : s.Twins s' p) : ∃ (z : Shape (NodeId × NodeId)) (range : Option Range),
    s.get? p.1 = some ⟨z.map Prod.fst, range⟩ ∧ s'.get? p.2 = some ⟨z.map Prod.snd, range⟩ ∧
      ∀ q ∈ z.children, s.Twins s' q := by
  obtain ⟨t, hd, hd'⟩ := h
  obtain ⟨⟨shape, range⟩, found, below, rfl⟩ := hd.exists_node
  obtain ⟨⟨shape', range'⟩, found', below', heq⟩ := hd'.exists_node
  obtain ⟨-, hshape, rfl⟩ := Tree.node.inj heq
  obtain ⟨z, rfl, rfl, hz⟩ := Shape.exists_pairs_of_map_eq hshape
  refine ⟨z, range, found, found', fun q hq => ⟨s.tree 0 q.1, ?_, ?_⟩⟩
  · exact (below q.1 (Shape.children_map _ z ▸ List.mem_map_of_mem hq)).denotes
  · exact ⟨below' q.2 (Shape.children_map _ z ▸ List.mem_map_of_mem hq), (hz q hq).symm⟩

end Twins

end Store

/-! ### Checks side by side -/

namespace Check

/-- Two states with the same scopes and the same reports. -/
structure Same (st st' : CheckState) : Prop where
  scopes : st.scopes = st'.scopes
  bag : st.journal.bag = st'.journal.bag

variable {α β : Type}

/-- Two checks that do the same, apart from what they note in the log. -/
def Alike (x y : Check α) : Prop :=
  ∀ st st', Same st st' → (exec x st).1 = (exec y st').1 ∧ Same (exec x st).2 (exec y st').2

theorem alike_pure (a : α) : Alike (pure a) (pure a) :=
  fun _ _ h => ⟨rfl, h⟩

theorem alike_throw (fault : Fault) : Alike (throw fault : Check α) (throw fault) :=
  fun _ _ h => ⟨rfl, h⟩

theorem Alike.bind {x y : Check α} {f g : α → Check β} (hx : Alike x y)
    (hf : ∀ a, Alike (f a) (g a)) : Alike (x >>= f) (y >>= g) := by
  intro st st' h
  have hx := hx st st' h
  rw [exec_bind, exec_bind]
  generalize exec x st = run at hx ⊢
  generalize exec y st' = run' at hx ⊢
  obtain ⟨out, st₁⟩ := run
  obtain ⟨out', st₁'⟩ := run'
  obtain ⟨rfl, hsame⟩ : out = out' ∧ Same st₁ st₁' := hx
  cases out with
  | error fault => exact ⟨rfl, hsame⟩
  | ok a => exact hf a st₁ st₁' hsame

/-- Notes do not matter. -/
theorem alike_record (event event' : Log.Event) : Alike (record event) (record event') :=
  fun _ _ h => ⟨rfl, h.scopes, h.bag⟩

theorem alike_onScopes (edit : ScopeEdit α) : Alike (onScopes edit) (onScopes edit) := by
  intro st st' h
  rw [exec_onScopes, exec_onScopes, h.scopes]
  exact ⟨rfl, rfl, h.bag⟩

theorem alike_forM {f : α → Check Unit} {g : β → Check Unit} {ps : List (α × β)}
    (h : ∀ p ∈ ps, Alike (f p.1) (g p.2)) :
    Alike ((ps.map Prod.fst).forM f) ((ps.map Prod.snd).forM g) := by
  induction ps with
  | nil => exact alike_pure _
  | cons p ps ih =>
    obtain ⟨hp, hps⟩ := List.forall_mem_cons.mp h
    exact hp.bind fun _ => ih hps

theorem alike_optionForM {f : α → Check Unit} {g : β → Check Unit} {p? : Option (α × β)}
    (h : ∀ p ∈ p?, Alike (f p.1) (g p.2)) :
    Alike ((p?.map Prod.fst).forM f) ((p?.map Prod.snd).forM g) := by
  cases p? with
  | none => exact alike_pure _
  | some p => exact h p rfl

theorem alike_recordAll (event : α → Log.Event) (as : List α) :
    Alike (as.forM fun a => record (event a)) (as.forM fun a => record (event a)) := by
  induction as with
  | nil => exact alike_pure _
  | cons a as ih => exact (alike_record _ _).bind fun _ => ih

theorem alike_push (kind : ScopeKind) : Alike (push kind) (push kind) :=
  (alike_onScopes _).bind fun _ => (alike_record _ _).bind fun _ => alike_pure _

theorem alike_pop (id : ScopeId) : Alike (pop id) (pop id) := by
  refine (alike_onScopes _).bind fun closing => (alike_record _ _).bind fun _ => ?_
  cases closing.moved with
  | none => exact alike_pure _
  | some moved => exact (alike_recordAll _ _).bind fun _ => alike_pure _

theorem Alike.inScope {act act' : Check Unit} (h : Alike act act') (kind : ScopeKind) :
    Alike (Check.inScope kind act) (Check.inScope kind act') :=
  (alike_push kind).bind fun id => h.bind fun _ => (alike_pop id).bind fun _ => alike_pure _

/-! ### Visits of twins -/

section Twins

variable {s s' : Store} {p : NodeId × NodeId}

theorem node_of_get? {id : NodeId} {node : Node} (found : s.get? id = some node) :
    Check.node s id = pure node := by
  simp [Check.node, Store.node, found]

theorem alike_declareBinding (h : s.Twins s' p) :
    Alike (declareBinding s p.1) (declareBinding s' p.2) := by
  rw [declareBinding, declareBinding, h.identifierText_eq]
  cases s'.identifierText p.2 with
  | ok name => exact alike_onScopes _
  | error fault => exact alike_throw fault

theorem alike_declareVarBinding (h : s.Twins s' p) :
    Alike (declareVarBinding s p.1) (declareVarBinding s' p.2) := by
  rw [declareVarBinding, declareVarBinding, h.identifierText_eq]
  cases s'.identifierText p.2 with
  | ok name => exact alike_onScopes _
  | error fault => exact alike_throw fault

theorem alike_hoist (h : s.Twins s' p) : Alike (hoist s p.1) (hoist s' p.2) := by
  obtain ⟨z, range, found, found', hz⟩ := h.exists_node
  rw [hoist, hoist, node_of_get? found, node_of_get? found', pure_bind, pure_bind]
  cases z with
  | functionDecl name parameters body =>
    exact alike_declareVarBinding (hz name (by simp [Shape.children]))
  | _ => exact alike_pure _

variable {visit visit' : NodeId → Check Unit}

theorem alike_statements {ps : List (NodeId × NodeId)} (htwins : ∀ p ∈ ps, s.Twins s' p)
    (hvisit : ∀ p ∈ ps, Alike (visit p.1) (visit' p.2)) :
    Alike (statements s visit (ps.map Prod.fst)) (statements s' visit' (ps.map Prod.snd)) :=
  (alike_forM fun p hp => alike_hoist (htwins p hp)).bind fun _ => alike_forM hvisit

theorem alike_function (name : Option (NodeId × NodeId)) {parameters : List (NodeId × NodeId)}
    {body : NodeId × NodeId} (hname : ∀ p ∈ name, s.Twins s' p)
    (hparameters : ∀ p ∈ parameters, Alike (visit p.1) (visit' p.2))
    (hbody : Alike (visit body.1) (visit' body.2)) :
    Alike (function s visit (name.map Prod.fst) (parameters.map Prod.fst) body.1)
      (function s' visit' (name.map Prod.snd) (parameters.map Prod.snd) body.2) := by
  refine Alike.inScope ?_ _
  refine (alike_optionForM fun p hp => alike_declareBinding (hname p hp)).bind fun _ => ?_
  exact (alike_onScopes _).bind fun _ => (alike_forM hparameters).bind fun _ => hbody

/-- **The visits of two constructs whose children are twins.** -/
theorem alike_construct {z : Shape (NodeId × NodeId)} (range : Option Range)
    (htwins : ∀ p ∈ z.children, s.Twins s' p)
    (hvisit : ∀ p ∈ z.children, Alike (visit p.1) (visit' p.2)) :
    Alike (construct s visit ⟨z.map Prod.fst, range⟩)
      (construct s' visit' ⟨z.map Prod.snd, range⟩) := by
  have hchildren : Alike ((z.map Prod.fst).children.forM visit)
      ((z.map Prod.snd).children.forM visit') := by
    rw [Shape.children_map, Shape.children_map]
    exact alike_forM hvisit
  cases z with
  | program list | block list => exact alike_statements htwins hvisit
  | varStatement keyword declarators =>
    simp only [construct, Shape.map]
    split
    · exact alike_throw _
    · exact alike_forM hvisit
  | declarator name value =>
    simp only [Shape.children, List.forall_mem_cons, Option.mem_toList] at htwins hvisit
    exact (alike_declareVarBinding htwins.1).bind fun _ => alike_optionForM hvisit.2
  | functionDecl name parameters body =>
    simp only [Shape.children, List.forall_mem_cons, List.forall_mem_append] at htwins hvisit
    refine (alike_declareVarBinding htwins.1).bind fun _ => ?_
    refine alike_function (some name) ?_ hvisit.2.1 hvisit.2.2.1
    rintro _ ⟨⟩
    exact htwins.1
  | functionExpr name parameters body =>
    simp only [Shape.children, List.forall_mem_cons, List.forall_mem_append,
      Option.mem_toList] at htwins hvisit
    exact alike_function name htwins.1 hvisit.2.1 hvisit.2.2.1
  | arrow parameters body | method _ parameters body =>
    simp only [Shape.children, List.forall_mem_cons, List.forall_mem_append] at hvisit
    exact alike_function none (fun _ hp => (Option.not_mem_none _ hp).elim) hvisit.1 hvisit.2.1
  | getter _ body => exact (hvisit body List.mem_cons_self).inScope _
  | setter _ incoming body =>
    simp only [Shape.children, List.forall_mem_cons] at hvisit
    exact (hvisit.1.bind fun _ => hvisit.2.1).inScope _
  | catchClause caught body =>
    simp only [Shape.children, List.forall_mem_cons] at htwins hvisit
    exact ((alike_declareBinding htwins.1).bind fun _ => hvisit.2.1).inScope _
  | parameter name value _ =>
    simp only [Shape.children, List.forall_mem_cons, Option.mem_toList] at htwins hvisit
    exact (alike_declareBinding htwins.1).bind fun _ => alike_optionForM hvisit.2
  | identifier name => exact alike_onScopes _
  | classDecl | classExpr => exact alike_throw _
  | binding => exact alike_pure _
  | _ => exact hchildren

theorem alike_visit {height height' : Nat} {id id' : NodeId} (hfits : s.Fits height id)
    (hfits' : s'.Fits height' id') (h : s.Twins s' (id, id')) :
    Alike (Check.visit s height id) (Check.visit s' height' id') := by
  induction height generalizing height' id id' with
  | zero => exact hfits.elim
  | succ height ih =>
    cases height' with
    | zero => exact hfits'.elim
    | succ height' =>
      obtain ⟨z, range, found, found', hz⟩ := h.exists_node
      obtain ⟨_, hfound, below⟩ := hfits
      obtain ⟨_, hfound', below'⟩ := hfits'
      obtain rfl := Option.some.inj (found.symm.trans hfound)
      obtain rfl := Option.some.inj (found'.symm.trans hfound')
      rw [Shape.children_map] at below below'
      rw [Check.visit, Check.visit, node_of_get? found, node_of_get? found', pure_bind, pure_bind]
      refine alike_construct range hz fun p hp => ?_
      exact ih (below p.1 (List.mem_map_of_mem hp)) (below' p.2 (List.mem_map_of_mem hp)) (hz p hp)

end Twins

/-! ### Whole programs -/

section Programs

variable {s s' : Store} {id id' : NodeId} {ambient : List String}

theorem alike_unresolved (h : s.Twins s' (id, id')) :
    Alike (unresolved ambient s id) (unresolved ambient s' id') := by
  have ⟨t, hd, hd'⟩ := h
  have hreset : Alike (modify fun st => { st with scopes := {} } : Check Unit)
      (modify fun st => { st with scopes := {} }) := fun _ _ h => ⟨rfl, rfl, h.bag⟩
  have hambient : Alike (ambient.forM declare) (ambient.forM declare) := by
    induction ambient with
    | nil => exact alike_pure _
    | cons name ambient ih => exact (alike_onScopes _).bind fun _ => ih
  refine hreset.bind fun _ => (alike_push _).bind fun root => hambient.bind fun _ => ?_
  exact (alike_visit hd.grounded.fits.succ hd'.grounded.fits.succ h).bind fun _ => alike_pop root

theorem alike_report (h : s.Twins s' (id, id')) :
    Alike (report ambient s id) (report ambient s' id') := by
  have hreports (uses : List Reference) : Alike
      (do
        for use in uses do
          modify fun s =>
            { s with journal := s.journal.report use.range .nameNotDefined [use.name] }
          : Check Unit)
      (do
        for use in uses do
          modify fun s =>
            { s with journal := s.journal.report use.range .nameNotDefined [use.name] }
          : Check Unit) := by
    induction uses with
    | nil => exact alike_pure _
    | cons use uses ih =>
      simp only [List.forIn_cons, bind_assoc, pure_bind]
      refine Alike.bind (fun _ _ h => ⟨rfl, h.scopes, ?_⟩) fun _ => ih
      exact congrArg (·.report use.range .nameNotDefined [use.name]) h.bag
  refine (alike_unresolved h).bind fun uses => ?_
  cases smallest? ((uses.filter (·.range.isNone)).map Reference.name) with
  | some name => exact alike_throw _
  | none => exact (alike_record _ _).bind fun _ => hreports _

/-- **The check of a program depends on its tree alone.** -/
theorem program_layout (ambient : List String) (h : s.Twins s' (id, id'))
    {journal journal' : Journal} (hbag : journal.bag = journal'.bag) :
    (program ambient s id journal).1 = (program ambient s' id' journal').1 ∧
      (program ambient s id journal).2.bag = (program ambient s' id' journal').2.bag := by
  obtain ⟨hout, hsame⟩ := alike_report h { journal := journal.enter (programSpan id) }
    { journal := journal'.enter (programSpan id') } ⟨rfl, hbag⟩
  exact ⟨hout, hsame.bag⟩

end Programs

end Check

end Declass
