import Declass.Code.Text
import Declass.Proofs.Drafts
import Declass.Proofs.Findings

/-!
# Programs with the same tree

Lowering works on a store, where nodes may be shared and stand in any order among others. What comes
of a program depends only on the tree that it denotes: two stores that hold the same tree are
lowered to the same tree, with the same reports, or not lowered with the same fault. If temporaries
are left over from before, then the result has other numbers in the places of temporaries, and is
otherwise the same. So is the text of the result, which can be read off its tree.

## Main definitions

* `LoweringState.Ready` — no class is being lowered and no scope is open
* `Agree` — two outcomes, either both with results or both with the same fault
* `Tree.textAt` — the text of a tree

## Main results

* `lowerProgram_agree` — two lowerings of a tree, one of them fresh
* `Store.Grounded.text_eq` — the text of a node is that of its tree
* `lowerProgram_layout` — two stores with the same tree
-/

namespace Declass

open Edit Lowering

/-! ### Two lowerings of a tree -/

/-- No class is being lowered and no scope of temporaries is open. Numbers may have been given back
or lost. -/
structure LoweringState.Ready (state : LoweringState) : Prop where
  classes : state.classes = []
  scopes : state.temps.scopes = []
  ordered : state.temps.Ordered

/-- A new state is ready. -/
theorem LoweringState.ready_new (journal : Journal) : ({ journal } : LoweringState).Ready :=
  ⟨rfl, rfl, Temps.ordered_default⟩

/-- An account of a state that is ready differs from that of a new one by the numbers of
temporaries. -/
theorem LoweringState.Ready.mirrors {state : LoweringState} (ready : state.Ready)
    (journal : Journal) : Account.Mirrors ready.ordered.supply
      ({ journal } : LoweringState).view.account state.view.account where
  temps := (ready.ordered.serve_default ready.scopes).symm
  used := by simp [LoweringState.view, View.account, ready.classes]

/-- Two outcomes, both with results that are related, or both with the same fault. -/
inductive Agree {α β : Type} (R : α → β → Prop) : Except Fault α → Except Fault β → Prop where
  | ok {a : α} {b : β} (h : R a b) : Agree R (.ok a) (.ok b)
  | error (fault : Fault) : Agree R (.error fault) (.error fault)

theorem Agree.imp {α β : Type} {R S : α → β → Prop} (hRS : ∀ a b, R a b → S a b)
    {x : Except Fault α} {y : Except Fault β} (h : Agree R x y) : Agree S x y := by
  cases h with
  | ok h => exact .ok (hRS _ _ h)
  | error fault => exact .error fault

/-- **Two lowerings of a tree.** The first one is fresh, the second one may have temporaries at
hand. -/
theorem lowerProgram_agree {s₁ s₂ : Store} {root₁ root₂ : NodeId} {n₁ n₂ : Nat}
    (hg₁ : s₁.Grounded root₁) (hg₂ : s₂.Grounded root₂) (hn₁ : n₁ ≤ s₁.size) (hn₂ : n₂ ≤ s₂.size)
    (same : s₂.tree n₂ root₂ = s₁.tree n₁ root₁) (options : Options) {P : String → Prop}
    (hnames : (s₁.tree n₁ root₁).Everywhere fun u => ∀ name ∈ u.name?, P name)
    (hruntime : P options.runtimeName) (hargs : P "args") (journal : Journal)
    {state : LoweringState} (ready : state.Ready) :
    let out₁ := exec (lowerProgram options root₁) ⟨s₁, { journal }⟩
    let out₂ := exec (lowerProgram options root₂) ⟨s₂, state⟩
    (∃ reports, out₁.2.state.journal.bag = journal.bag.reportAll reports ∧
      out₂.2.state.journal.bag = state.journal.bag.reportAll reports) ∧
    Agree (fun id₁ id₂ => out₂.2.state.temps = ready.ordered.supply.serve out₁.2.state.temps ∧
      ∃ d : Draft, d.Uniform P ∧ out₁.2.store.Denotes n₁ id₁ (d id) ∧
        out₂.2.store.Denotes n₂ id₂ (d ready.ordered.supply.nth)) out₁.1 out₂.1 := by
  have hrun₁ := lowerProgram_runs hg₁ options n₁ hn₁ { journal }
  have hrun₂ := lowerProgram_runs hg₂ options n₂ hn₂ state
  have hmirrors := ready.mirrors journal
  rw [same] at hrun₂
  generalize s₁.tree n₁ root₁ = t at hrun₁ hrun₂ hnames
  dsimp only
  generalize exec (lowerProgram options root₁) ⟨s₁, { journal }⟩ = out₁ at hrun₁ ⊢
  generalize exec (lowerProgram options root₂) ⟨s₂, state⟩ = out₂ at hrun₂ ⊢
  obtain ⟨fault₁ | id₁, session₁⟩ := out₁ <;> obtain ⟨fault₂ | id₂, session₂⟩ := out₂
  · obtain ⟨-, -, hhalts₁⟩ := hrun₁
    obtain ⟨-, -, hhalts₂⟩ := hrun₂
    obtain ⟨rfl, reports⟩ := hhalts₁.stopsAt.unique hhalts₂.stopsAt
    exact ⟨reports, .error _⟩
  · obtain ⟨-, -, hhalts⟩ := hrun₁
    obtain ⟨-, -, _, -, hlowers⟩ := hrun₂
    exact (hhalts.not_lowers hlowers).elim
  · obtain ⟨-, -, _, -, hlowers⟩ := hrun₁
    obtain ⟨-, -, hhalts⟩ := hrun₂
    exact (hhalts.not_lowers hlowers).elim
  · obtain ⟨-, -, t₁, hden₁, hlowers₁⟩ := hrun₁
    obtain ⟨-, -, t₂, hden₂, hlowers₂⟩ := hrun₂
    have hfixed : ∀ d ∈ [fun _ => t], Draft.Uniform P d :=
      List.forall_mem_singleton.mpr (Draft.uniform_fixed hnames)
    obtain ⟨ds, hdraws⟩ :=
      hlowers₁.draws Temps.ordered_default hruntime hargs (C := none) nofun rfl hfixed rfl
    obtain ⟨d, rfl, rfl⟩ := List.map_eq_singleton_iff.mp (hdraws.first hlowers₁).symm
    obtain ⟨heq, hafter⟩ := hdraws.run hmirrors hlowers₂
    obtain rfl := List.singleton_inj.mp heq
    exact ⟨⟨_, hlowers₁.bag_eq, hlowers₂.bag_eq⟩,
      .ok ⟨hafter.temps, d, List.forall_mem_singleton.mp hdraws.uniform, hden₁, hden₂⟩⟩

/-! ### Text -/

namespace Shape

variable {α β : Type}

theorem text_map (f : α → β) (emit : Nat → β → String) (depth : Nat) (s : Shape α) :
    (s.map f).text emit depth = s.text (fun depth a => emit depth (f a)) depth := by
  have hoptional (depth : Nat) (lead : String) (o : Option α) :
      optional (emit depth) lead (o.map f) = optional (fun a => emit depth (f a)) lead o := by
    cases o <;> rfl
  unfold text
  cases s <;> simp only [map, hoptional, List.map_map] <;> rfl

theorem text_congr {s : Shape α} {emit emit' : Nat → α → String}
    (h : ∀ a ∈ s.children, ∀ depth, emit depth a = emit' depth a) (depth : Nat) :
    s.text emit depth = s.text emit' depth := by
  have hmap := text_map (fun a depth => emit depth a) (fun depth emitted => emitted depth) depth s
  rw [Shape.map_congr (g := fun a depth => emit' depth a) fun a ha => funext (h a ha),
    text_map] at hmap
  exact hmap.symm

end Shape

/-- The text of a tree that stands at some indentation. -/
def Tree.textAt : Tree → Nat → String :=
  para fun _ shape _ depth => shape.text (fun depth c => c.2 depth) depth

theorem Tree.textAt_node (o : Option NodeId) (s : Shape Tree) (r : Option Range) (depth : Nat) :
    (Tree.node o s r).textAt depth = s.text (fun depth c => c.textAt depth) depth := by
  rw [textAt, para_node, Shape.text_map]

/-- **The text of a node is that of its tree.** -/
theorem Store.Grounded.text_eq {s : Store} {id : NodeId} (hg : s.Grounded id) (n : Nat) :
    s.text id = (s.tree n id).textAt 0 := by
  suffices ∀ (height : Nat) (id : NodeId) (depth : Nat), s.Fits height id →
      s.textTo height depth id = (s.tree n id).textAt depth from
    this _ id 0 hg.fits.succ
  intro height
  induction height with
  | zero => exact fun _ _ hfits => hfits.elim
  | succ height ih =>
    rintro id depth ⟨node, found, below⟩
    have hg : s.Grounded id := .node found fun c hc => (below c hc).grounded
    rw [hg.tree_eq found, Tree.textAt_node, Shape.text_map]
    rw [Option.mem_def] at found
    simp only [textTo, found]
    exact Shape.text_congr (fun c hc depth => ih c depth (below c hc)) depth

/-- The text of a node is the text of its tree. -/
theorem Store.Denotes.text_eq {s : Store} {n : Nat} {id : NodeId} {t : Tree}
    (h : s.Denotes n id t) : s.text id = t.textAt 0 := by
  rw [h.grounded.text_eq n, h.tree_eq]

/-! ### Two stores -/

/-- **Lowering depends on the tree alone.** Of two stores that hold the same program, neither the
order of the nodes nor their sharing nor what else is there makes a difference. -/
theorem lowerProgram_layout {s₁ s₂ : Store} {root₁ root₂ : NodeId} (closed₁ : s₁.Closed root₁)
    (acyclic₁ : s₁.Acyclic root₁) (closed₂ : s₂.Closed root₂) (acyclic₂ : s₂.Acyclic root₂)
    (same : s₁.tree 0 root₁ = s₂.tree 0 root₂) (options : Options) (journal₁ journal₂ : Journal) :
    let out₁ := (lowerProgram options root₁).runOn ⟨s₁, { journal := journal₁ }⟩
    let out₂ := (lowerProgram options root₂).runOn ⟨s₂, { journal := journal₂ }⟩
    (∃ reports, out₁.2.state.journal.bag = journal₁.bag.reportAll reports ∧
      out₂.2.state.journal.bag = journal₂.bag.reportAll reports) ∧
    Agree (fun id₁ id₂ =>
      (∃ t, out₁.2.store.Denotes 0 id₁ t ∧ out₂.2.store.Denotes 0 id₂ t) ∧
        out₁.2.store.text id₁ = out₂.2.store.text id₂) out₁.1 out₂.1 := by
  have hg₁ : s₁.Grounded root₁ := Store.grounded_iff.mpr ⟨closed₁, acyclic₁⟩
  have hg₂ : s₂.Grounded root₂ := Store.grounded_iff.mpr ⟨closed₂, acyclic₂⟩
  have hnames : (s₁.tree 0 root₁).Everywhere fun u => ∀ name ∈ u.name?, True :=
    hg₁.everywhere fun _ _ _ _ _ _ => trivial
  obtain ⟨hreports, hagree⟩ := lowerProgram_agree hg₁ hg₂ (Nat.zero_le _) (Nat.zero_le _) same.symm
    options hnames trivial trivial journal₁ (LoweringState.ready_new journal₂)
  refine ⟨hreports, hagree.imp ?_⟩
  rintro id₁ id₂ ⟨-, d, -, hden₁, hden₂⟩
  change Store.Denotes _ 0 id₂ (d Supply.initial.nth) at hden₂
  rw [Supply.nth_initial] at hden₂
  refine ⟨⟨_, hden₁, hden₂⟩, ?_⟩
  exact hden₁.text_eq.trans hden₂.text_eq.symm

/-- The program `class { m() { super.a; } }; class { m() { super.a; } };`, with one class. -/
def sharedStore : Store where
  nodes := #[⟨.superExpr, none⟩, ⟨.member ⟨0⟩ "a", none⟩, ⟨.exprStatement ⟨1⟩, none⟩,
    ⟨.block [⟨2⟩], none⟩, ⟨.method (.identifier "m") [] ⟨3⟩, none⟩,
    ⟨.classExpr none none [⟨4⟩], none⟩, ⟨.exprStatement ⟨5⟩, none⟩, ⟨.program [⟨6⟩, ⟨6⟩], none⟩]

/-- The same program with two classes, in another order. The last node does not belong to it. -/
def spreadStore : Store where
  nodes := #[⟨.program [⟨1⟩, ⟨8⟩], none⟩, ⟨.exprStatement ⟨2⟩, none⟩,
    ⟨.classExpr none none [⟨3⟩], none⟩, ⟨.method (.identifier "m") [] ⟨4⟩, none⟩,
    ⟨.block [⟨5⟩], none⟩, ⟨.exprStatement ⟨6⟩, none⟩, ⟨.member ⟨7⟩ "a", none⟩, ⟨.superExpr, none⟩,
    ⟨.exprStatement ⟨9⟩, none⟩, ⟨.classExpr none none [⟨10⟩], none⟩,
    ⟨.method (.identifier "m") [] ⟨11⟩, none⟩, ⟨.block [⟨12⟩], none⟩, ⟨.exprStatement ⟨13⟩, none⟩,
    ⟨.member ⟨14⟩ "a", none⟩, ⟨.superExpr, none⟩, ⟨.spread ⟨99⟩, none⟩]

open Declass.Tree in
/-- The tree that both hold. -/
def twinTree : Tree :=
  let access := gen (.exprStatement (gen (.member (gen .superExpr) "a")))
  let method := gen (.method (.identifier "m") [] (gen (.block [access])))
  let statement := gen (.exprStatement (gen (.classExpr none none [method])))
  gen (.program [statement, statement])

/-- A class that is shared is lowered like two classes. -/
theorem lowerProgram_layout_shared :
    (sharedStore.Closed ⟨7⟩ ∧ sharedStore.Acyclic ⟨7⟩ ∧ spreadStore.Closed ⟨0⟩ ∧
      spreadStore.Acyclic ⟨0⟩ ∧ sharedStore.tree 0 ⟨7⟩ = spreadStore.tree 0 ⟨0⟩) ∧
    let out₁ := (lowerProgram {} ⟨7⟩).runOn ⟨sharedStore, {}⟩
    let out₂ := (lowerProgram {} ⟨0⟩).runOn ⟨spreadStore, {}⟩
    ∃ id₁ id₂, out₁.1 = .ok id₁ ∧ out₂.1 = .ok id₂ ∧
      out₁.2.store.text id₁ = out₂.2.store.text id₂ := by
  have shared : sharedStore.Fits 8 ⟨7⟩ := by decide +kernel
  have spread : spreadStore.Fits 8 ⟨0⟩ := by decide +kernel
  obtain ⟨closed₁, acyclic₁⟩ := Store.grounded_iff.mp shared.grounded
  obtain ⟨closed₂, acyclic₂⟩ := Store.grounded_iff.mp spread.grounded
  have same : sharedStore.tree 0 ⟨7⟩ = spreadStore.tree 0 ⟨0⟩ :=
    calc sharedStore.tree 0 ⟨7⟩
      _ = twinTree := rfl
      _ = spreadStore.tree 0 ⟨0⟩ := rfl
  have ok : ((lowerProgram {} ⟨7⟩).runOn ⟨sharedStore, {}⟩).1.isOk = true := by decide +kernel
  refine ⟨⟨closed₁, acyclic₁, closed₂, acyclic₂, same⟩, ?_⟩
  have hlayout := (lowerProgram_layout closed₁ acyclic₁ closed₂ acyclic₂ same {} {} {}).2
  dsimp only at hlayout ⊢
  generalize (lowerProgram {} ⟨7⟩).runOn ⟨sharedStore, {}⟩ = out₁ at hlayout ok ⊢
  generalize (lowerProgram {} ⟨0⟩).runOn ⟨spreadStore, {}⟩ = out₂ at hlayout ⊢
  obtain ⟨_, session₁⟩ := out₁
  obtain ⟨_, session₂⟩ := out₂
  cases hlayout with
  | ok h => exact ⟨_, _, rfl, rfl, h.2⟩
  | error => cases ok

end Declass
