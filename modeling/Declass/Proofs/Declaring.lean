import Declass.Proofs.Yields

/-!
# Declaring temporaries

A program or a function is lowered in a scope of temporaries of its own. When the scope is closed,
what it still holds is declared at the top of the body.

## Main results

* `builds_declareTemps` — the declarations in front of a body
* `yields_inTempScope` — what happens in a scope of temporaries
-/

namespace Declass

open Edit Lowering

variable {n : Nat} {Γ : Known} {v : View}

/-- The view with one more scope of temporaries. -/
def View.openScope (v : View) : View :=
  { v with temps := v.temps.push }

/-- What the innermost scope of temporaries holds. -/
def View.held (v : View) : List Nat :=
  v.temps.pop.1

/-- The view without the innermost scope of temporaries. -/
def View.closeScope (v : View) : View :=
  { v with temps := v.temps.pop.2 }

/-! ### Declarations -/

/-- A list of nodes that are built one after the other. -/
theorem yields_mapM_builds {β : Type} {f : β → Lowering NodeId} (tree : β → Tree)
    (hf : ∀ Γ b, Builds n Γ (f b) (tree b)) (E : Fault → View → Prop) : ∀ (bs : List β) (Γ : Known),
    Yields n Γ v (bs.mapM f)
      (fun ids v' Δ => v' = v ∧ ids = Δ.map Prod.fst ∧ Δ.map Prod.snd = bs.map tree) E := by
  intro bs
  induction bs with
  | nil => exact fun Γ => yields_pure [] (List.nil_subset Γ) ⟨rfl, rfl, rfl⟩
  | cons b bs ih =>
    intro Γ
    rw [List.mapM_cons]
    refine (hf Γ b).bind fun id => Yields.bind (ih _) ?_
    rintro _ _ Δ ⟨rfl, rfl, hΔ⟩
    exact yields_pure ((id, tree b) :: Δ) (by grind) ⟨rfl, by simp, by simp [hΔ]⟩

theorem builds_declareAll (temps : List Nat) :
    Builds n Γ (Build.declareAll (temps.map Temps.name)) (.declareTemps temps) := by
  intro v E
  let declarator (name : String) : Tree := .gen (.declarator (.gen (.binding name)) none)
  refine Yields.bind (yields_mapM_builds declarator (fun Γ name => ?_) E _ Γ) ?_
  · refine (builds_synth (.binding name) (by simp [Shape.children])).andThen fun id => ?_
    exact builds_synth (.declarator (id, .gen (.binding name)) none)
      (by simp [Shape.children, Shape.map])
  · rintro _ _ Δ ⟨rfl, rfl, hΔ⟩
    have hstatement := builds_synth (n := n) (Γ := Δ ++ Γ) (.varStatement .varWord Δ)
      (by simp +contextual [Shape.children])
    simp only [Shape.map, hΔ, List.map_map] at hstatement
    exact hstatement _ E

theorem Shape.exists_block_of_map {α β : Type} {f : α → β} {s : Shape α} {statements : List β}
    (h : s.map f = .block statements) : ∃ list, s = .block list ∧ list.map f = statements := by
  cases s <;> simp_all [Shape.map]

theorem builds_prependToBody (declaration body : NodeId × Tree) (hd : declaration ∈ Γ)
    (hb : body ∈ Γ) :
    Builds n Γ (prependToBody declaration.1 body.1) (.prepend declaration.2 body.2) := by
  intro v E
  refine yields_node_bind hb fun z range hz => ?_
  have hrange : body.2.range = range := by rw [hz, Tree.range_node]
  have hshape : body.2.shape = z.map Prod.snd := by rw [hz, Tree.shape_node]
  rw [Tree.prepend, hrange]
  split
  case h_1 hblock =>
    obtain ⟨statements, rfl, rfl⟩ := Shape.exists_block_of_map hblock
    rw [Tree.statements, hshape]
    exact builds_append (.block (declaration :: statements)) range (by grind [Shape.children]) v E
  case h_2 hblock =>
    have hstatements : body.2.statements = [.node none (.returnStatement (some body.2)) range] := by
      rw [Tree.statements, hshape, hrange]
      split
      · obtain ⟨statements, rfl, -⟩ := Shape.exists_block_of_map ‹_›
        exact (hblock _ rfl).elim
      · rfl
    dsimp only
    rw [hstatements]
    refine (builds_append (.returnStatement (some body)) range (by grind [Shape.children])).bind
      fun statement => ?_
    exact builds_append
      (.block [declaration, (statement, .node none (.returnStatement (some body.2)) range)]) range
      (by grind [Shape.children, Shape.map]) v E

/-- **The declarations in front of the body of a program or a function.** -/
theorem builds_declareTemps {id : NodeId} {t : Tree} {temps : List Nat} (hid : (id, t) ∈ Γ)
    (howner : t.shape.ownsTemps = true) (hne : temps ≠ []) :
    Builds n Γ (declareTemps (temps.map Temps.name) id) (t.declaring temps) := by
  intro v E
  refine yields_record_bind ?_
  refine (builds_declareAll temps).bind fun declaration => ?_
  refine yields_node_bind (List.mem_cons_of_mem _ hid) fun z range hz => ?_
  have hrange : t.range = range := by rw [hz, Tree.range_node]
  have hshape : t.shape = z.map Prod.snd := by rw [hz, Tree.shape_node]
  rw [Tree.declaring, if_neg hne, hshape, hrange]
  rw [hshape] at howner
  have hd : (declaration, .declareTemps temps) ∈ z.children ++
      (declaration, .declareTemps temps) :: Γ :=
    by simp
  -- All functions have their body as the last child; each shape is built around the new body.
  cases z with
  | program statements =>
    exact builds_append (.program ((declaration, .declareTemps temps) :: statements)) range
      (by grind [Shape.children]) v E
  | functionDecl name parameters body =>
    refine (builds_prependToBody _ body hd (by simp [Shape.children])).bind fun body' => ?_
    exact builds_append
      (.functionDecl name parameters (body', .prepend (.declareTemps temps) body.2)) range
      (by grind [Shape.children]) v E
  | functionExpr name parameters body =>
    refine (builds_prependToBody _ body hd (by simp [Shape.children])).bind fun body' => ?_
    exact builds_append
      (.functionExpr name parameters (body', .prepend (.declareTemps temps) body.2)) range
      (by grind [Shape.children]) v E
  | arrow parameters body =>
    refine (builds_prependToBody _ body hd (by simp [Shape.children])).bind fun body' => ?_
    exact builds_append (.arrow parameters (body', .prepend (.declareTemps temps) body.2)) range
      (by grind [Shape.children]) v E
  | method name parameters body =>
    refine (builds_prependToBody _ body hd (by simp [Shape.children])).bind fun body' => ?_
    exact builds_append
      (.method name parameters (body', .prepend (.declareTemps temps) body.2)) range
      (by grind [Shape.children]) v E
  | getter name body =>
    refine (builds_prependToBody _ body hd (by simp [Shape.children])).bind fun body' => ?_
    exact builds_append (.getter name (body', .prepend (.declareTemps temps) body.2)) range
      (by grind [Shape.children]) v E
  | setter name incoming body =>
    refine (builds_prependToBody _ body hd (by simp [Shape.children])).bind fun body' => ?_
    exact builds_append (.setter name incoming (body', .prepend (.declareTemps temps) body.2)) range
      (by grind [Shape.children]) v E
  | _ => cases howner

/-! ### Scopes -/

/-- What happens in a scope of temporaries of its own. -/
theorem yields_inTempScope {lower : Lowering NodeId} {P : View → Tree → Prop}
    {E F : Fault → View → Prop}
    (hlower : Yields n Γ v.openScope lower
      (fun id v' Δ => ∃ t, Δ = [(id, t)] ∧ t.shape.ownsTemps = true ∧ P v' t) F)
    (hE : ∀ fault v', F fault v' → E fault v'.closeScope) :
    Yields n Γ v (inTempScope lower)
      (fun id v' Δ => ∃ t v₁, Δ = [(id, t.declaring v₁.held)] ∧ v' = v₁.closeScope ∧ P v₁ t) E := by
  refine yields_modifyState_bind v.openScope (by rintro state rfl; rfl) ?_
  refine yields_attempt_bind hlower ?_ ?_
  · rintro id v₁ _ ⟨t, rfl, howner, hP⟩
    refine yields_modifyGetState_bind v₁.held v₁.closeScope
      (by rintro state rfl; exact ⟨rfl, rfl⟩) ?_
    refine yields_settle_bind ?_
    split
    case isTrue hnone =>
      have hdeclaring : t.declaring v₁.held = t := if_pos (List.isEmpty_iff.mp hnone)
      exact yields_return (id, t) (by simp) ⟨t, v₁, by rw [hdeclaring], rfl, hP⟩
    case isFalse hsome =>
      refine (builds_declareTemps (by simp) howner (by simpa using hsome) v₁.closeScope E).imp ?_
        (fun _ _ hf => hf)
      rintro id' _ _ ⟨rfl, rfl⟩
      exact ⟨t, v₁, rfl, rfl, hP⟩
  · intro fault v₁ hfault
    refine yields_modifyGetState_bind v₁.held v₁.closeScope
      (by rintro state rfl; exact ⟨rfl, rfl⟩) ?_
    exact yields_throw_bind (hE fault v₁ hfault)

end Declass
