import Declass.Proofs.CheckLayout
import Declass.Proofs.Compilation
import Declass.Proofs.Layout

/-!
# The keyword of lowered classes

A class declaration becomes a `let` or a `var` statement, as the options have it. That is all that
the choice does: a pass that turns `let` into `var` brings the two results together again, range by
range, so that neither the check nor the text can tell them apart. If there is a fault, it is the
same one in the same step.

The two lowered trees differ at every class declaration. `Tree.asVar` is the tree with `var` in all
statements, and the two are compared through it.

## Main definitions

* `Tree.asVar` — the tree with `var` in place of `let` and `const`
* `Makes` — an edit that succeeds with a given tree
* `Compiler.finish` — what is left of a compilation after its passes

## Main results

* `Lowers.exists_asVar_eq`, `lowerProgram_blockBinding` — lowering with the other keyword
* `Edit.makes_walk`, `Edit.makes_letToVar` — what the pass makes of a tree
* `Compiler.compile_blockBinding` — compiling with the one and with the other keyword
-/

namespace Declass

/-! ### Trees without `let` -/

/-- The shape with `var` as its keyword, if it is a variable statement. -/
def Shape.asVar {α : Type} : Shape α → Shape α
  | .varStatement _ declarators => .varStatement .varWord declarators
  | shape => shape

namespace Shape

variable {α β : Type}

theorem asVar_map (f : α → β) (s : Shape α) : (s.map f).asVar = s.asVar.map f := by
  cases s <;> rfl

theorem asVar_refill [Inhabited β] (s : Shape α) (bs : List β) :
    (s.refill bs).asVar = s.asVar.refill bs := by
  cases s with
  | classDecl _ heritage _ => cases heritage <;> rfl
  | classExpr name heritage _ => cases name <;> cases heritage <;> rfl
  | functionExpr name _ _ => cases name <;> rfl
  | _ => rfl

theorem children_asVar (s : Shape α) : s.asVar.children = s.children := by
  cases s <;> rfl

end Shape

namespace Tree

/-- The tree with `var` in all variable statements. Marks are dropped. -/
def asVar : Tree → Tree :=
  para fun _ shape range => .node none (shape.asVar.map Prod.snd) range

theorem asVar_node (o : Option NodeId) (s : Shape Tree) (r : Option Range) :
    (Tree.node o s r).asVar = .node none (s.asVar.map asVar) r := by
  rw [asVar, para_node, Shape.asVar_map, Shape.map_map]
  rfl

theorem asVar_withChildren {t : Tree} {cs : List Tree}
    (hlength : cs.length = t.shape.children.length) :
    (t.withChildren cs).asVar = .node none (t.shape.asVar.refill (cs.map asVar)) t.range := by
  rw [withChildren, asVar_node, Shape.asVar_refill, Shape.map_refill]
  rw [hlength, Shape.children_asVar]

/-! ### Generated code -/

theorem asVar_declareTemps (temps : List Nat) :
    (declareTemps temps).asVar = declareTemps temps := by
  simp [declareTemps, gen, asVar_node, Shape.asVar, Shape.map]

theorem asVar_statements (body : Tree) : body.statements.map asVar = body.asVar.statements := by
  obtain ⟨o, s, r⟩ := body
  rw [asVar_node]
  cases s <;> simp [statements, asVar_node, Shape.asVar, Shape.map]

theorem asVar_prepend {declaration : Tree} (h : declaration.asVar = declaration) (body : Tree) :
    (prepend declaration body).asVar = prepend declaration body.asVar := by
  have hrange : body.asVar.range = body.range := by
    obtain ⟨o, s, r⟩ := body
    rw [asVar_node]
    rfl
  rw [prepend, prepend, asVar_node, hrange, ← asVar_statements]
  simp [Shape.asVar, Shape.map, h]

theorem asVar_declaring (t : Tree) (temps : List Nat) :
    (t.declaring temps).asVar = t.asVar.declaring temps := by
  obtain ⟨o, s, r⟩ := t
  have hprepend := asVar_prepend (asVar_declareTemps temps)
  cases temps with
  | nil => rfl
  | cons number temps =>
    cases s <;> simp [declaring, asVar_node, Shape.asVar, Shape.map, Shape.declaring,
      Shape.mapBody, asVar_declareTemps, hprepend]

theorem asVar_asProperty (kind : MemberKind) (t : Tree) :
    (asProperty kind t).asVar = asProperty kind t.asVar := by
  unfold asProperty
  split
  · obtain ⟨o, s, r⟩ := t
    cases s <;> simp [constructorProperty, asVar_node, Shape.asVar, Shape.map]
  · rfl

theorem asVar_createClass (options : Options) (properties : List Tree) (hasConstructor : Bool)
    (base : Option Tree) (range : Option Range) :
    (createClass options properties hasConstructor base range).asVar =
      createClass options (properties.map asVar) hasConstructor (base.map asVar) range := by
  cases base <;>
    simp [createClass, helper, gen, boolean, ident, asVar_node, Shape.asVar, Shape.map]

theorem asVar_declareClass (options : Options) (name call : Tree) (range : Option Range) :
    (declareClass options name call range).asVar =
      declareClass { options with blockBinding := false } name.asVar call.asVar range := by
  simp [declareClass, asVar_node, Shape.asVar, Shape.map]

end Tree

/-! ### Lowering with the other keyword -/

open Declass.Tree

/-- The parts of a class that are lowered with the other keyword, and the call made of them. -/
theorem exists_createClass_asVar_eq (options : Options) {blockBinding : Bool}
    {a a₁ a₂ a₃ : Account} {heritage base : Option Tree} {c : String}
    {members properties : List Tree}
    (above : ∃ bs, Lowers { options with blockBinding } none a heritage.toList bs a₁ ∧
      bs.map asVar = base.toList.map asVar)
    (below : ∃ ps, Lowers { options with blockBinding } (some c) a₂
      (withConstructor members base.isSome) ps a₃ ∧ ps.map asVar = properties.map asVar) :
    ∃ base' ps, Lowers { options with blockBinding } none a heritage.toList
        (Option.toList base') a₁ ∧
      Lowers { options with blockBinding } (some c) a₂
        (withConstructor members base'.isSome) ps a₃ ∧
      ∀ range, (createClass { options with blockBinding } ps (hasConstructor members) base'
          range).asVar =
        (createClass options properties (hasConstructor members) base range).asVar := by
  obtain ⟨bs, habove, hbs⟩ := above
  obtain ⟨ps, hbelow, hps⟩ := below
  rw [← Option.toList_map] at hbs
  obtain ⟨base', rfl⟩ := exists_toList_eq hbs
  rw [← Option.toList_map] at hbs
  have hbase : base'.map asVar = base.map asVar := toList_injective hbs
  have hsome : base.isSome = base'.isSome := by
    simpa using (congrArg Option.isSome hbase).symm
  refine ⟨base', ps, habove, hsome ▸ hbelow, fun range => ?_⟩
  rw [asVar_createClass, asVar_createClass, hps, hbase]
  rfl

/-- **The keyword of lowered classes is free.** Each lowering has a twin with either keyword. The
accounts are the same, and so are the trees but for the keywords. -/
theorem Lowers.exists_asVar_eq {options : Options} {c : Option String} {a a' : Account}
    {ts ts' : List Tree} (h : Lowers options c a ts ts' a') (blockBinding : Bool) :
    ∃ us, Lowers { options with blockBinding } c a ts us a' ∧ us.map asVar = ts'.map asVar := by
  induction h with
  | nil => exact ⟨[], .nil, rfl⟩
  | cons _ _ ihHead ihTail =>
    obtain ⟨us, hhead, heq⟩ := ihHead
    obtain ⟨u, rfl, hu⟩ := List.map_eq_singleton_iff.mp heq
    obtain ⟨us, htail, hus⟩ := ihTail
    exact ⟨u :: us, .cons hhead htail, by rw [List.map_cons, List.map_cons, hu, hus]⟩
  | walk plain shared below ih =>
    obtain ⟨us, hus, heq⟩ := ih
    refine ⟨_, .walk plain shared hus, congrArg ([·]) ?_⟩
    rw [asVar_withChildren hus.length_eq, asVar_withChildren below.length_eq, heq]
  | scope owner below ih =>
    obtain ⟨us, hus, heq⟩ := ih
    refine ⟨_, .scope owner hus, congrArg ([·]) ?_⟩
    rw [asVar_declaring, asVar_declaring, asVar_withChildren hus.length_eq,
      asVar_withChildren below.length_eq, heq]
  | classDecl named _ _ ihAbove ihBelow =>
    obtain ⟨base, ps, habove, hbelow, hcall⟩ := exists_createClass_asVar_eq options ihAbove ihBelow
    refine ⟨_, .classDecl named habove hbelow, congrArg ([·]) ?_⟩
    rw [asVar_declareClass, asVar_declareClass, hcall]
  | classExprBound _ _ used ihAbove ihBelow =>
    obtain ⟨base, ps, habove, hbelow, hcall⟩ := exists_createClass_asVar_eq options ihAbove ihBelow
    refine ⟨_, .classExprBound habove hbelow used, congrArg ([·]) ?_⟩
    simp only [assign, gen, asVar_node, Shape.asVar, Shape.map, hcall]
  | classExprFree _ _ unused ihAbove ihBelow =>
    obtain ⟨base, ps, habove, hbelow, hcall⟩ := exists_createClass_asVar_eq options ihAbove ihBelow
    exact ⟨_, .classExprFree habove hbelow unused, congrArg ([·]) (hcall _)⟩
  | member legal expanded below ih =>
    obtain ⟨us, hus, heq⟩ := ih
    refine ⟨_, .member legal expanded hus, congrArg ([·]) ?_⟩
    rw [asVar_asProperty, asVar_asProperty, asVar_declaring, asVar_declaring,
      asVar_withChildren (hus.length_eq.trans expanded.length_eq),
      asVar_withChildren (below.length_eq.trans expanded.length_eq), heq]

/-! ### The pass -/

/-- After whatever is appended to `s`, the edit makes the tree `t` and leaves the state as it is. -/
def Makes {σ : Type} (s : Store) (edit : Edit σ NodeId) (t : Tree) : Prop :=
  ∀ s₁, s ≤ s₁ → ∀ state, ∃ id s₂, exec edit ⟨s₁, state⟩ = (.ok id, ⟨s₂, state⟩) ∧ s₁ ≤ s₂ ∧
    s₂.Denotes 0 id t

namespace Edit

open Store

variable {σ : Type} {s : Store} {visit : NodeId → Edit σ NodeId} {goal : NodeId → Tree}

/-- A visit of one node after the other. -/
theorem exists_mapM {ids : List NodeId} (h : ∀ c ∈ ids, Makes s (visit c) (goal c)) {s₁ : Store}
    (hle : s ≤ s₁) (state : σ) :
    ∃ ids' s₂, exec (ids.mapM visit) ⟨s₁, state⟩ = (.ok ids', ⟨s₂, state⟩) ∧ s₁ ≤ s₂ ∧
      (∀ c ∈ ids', s₂.Grounded c) ∧ ids'.map (s₂.tree 0) = ids.map goal := by
  induction ids generalizing s₁ with
  | nil => exact ⟨[], s₁, rfl, le_refl s₁, List.forall_mem_nil _, rfl⟩
  | cons c ids ih =>
    obtain ⟨hhead, htail⟩ := List.forall_mem_cons.mp h
    obtain ⟨c', s₂, hc, hle₂, hdenotes⟩ := hhead s₁ hle state
    obtain ⟨ids', s₃, hids, hle₃, hgrounded, heq⟩ := ih htail (hle.trans hle₂)
    have hdenotes := hdenotes.mono hle₃
    refine ⟨c' :: ids', s₃, ?_, hle₂.trans hle₃,
      List.forall_mem_cons.mpr ⟨hdenotes.grounded, hgrounded⟩, ?_⟩
    · rw [exec_mapM_eq_ok_iff] at hids ⊢
      exact .cons hc hids
    · rw [List.map_cons, List.map_cons, hdenotes.tree_eq, heq]

/-- A walk makes the node with the trees that the visits make, whether it is built anew or not. -/
theorem makes_walk {id : NodeId} {node : Node} (found : s.get? id = some node)
    (h : ∀ c ∈ node.shape.children, Makes s (visit c) (goal c)) :
    Makes s (walk visit id) (.node none (node.shape.map goal) node.range) := by
  intro s₁ hle state
  obtain ⟨ids, s₂, hids, hle₂, hgrounded, heq⟩ := exists_mapM h hle state
  have hlength : ids.length = node.shape.children.length := by
    simpa using congrArg List.length heq
  have hchildren := Shape.children_refill hlength
  have hmap : (node.shape.refill ids).map (s₂.tree 0) = node.shape.map goal := by
    rw [Shape.map_refill _ hlength, heq, ← Shape.map_eq_refill]
  have hshape : exec (node.shape.mapM visit) ⟨s₁, state⟩ =
      (.ok (node.shape.refill ids), ⟨s₂, state⟩) := by
    rw [Shape.mapM_eq_refill, exec_map, hids]
    rfl
  rw [walk, exec_bind_of_ok (exec_node (hle _ _ found) state), exec_bind_of_ok hshape, hchildren]
  split
  · -- The children are the old ones, so that the node is found below the new trees as well.
    next same =>
    subst same
    rw [Shape.refill_children] at hmap
    have hg : s₂.Grounded id := .node ((hle.trans hle₂) _ _ found) hgrounded
    refine ⟨id, s₂, rfl, hle₂, hg, ?_⟩
    rw [hg.tree_eq ((hle.trans hle₂) _ _ found), hmap]
    simp [originOf]
  · refine ⟨s₂.nextId, s₂.push ⟨node.shape.refill ids, node.range⟩, rfl,
      hle₂.trans (le_push s₂ _), ?_⟩
    rw [← hmap]
    exact denotes_push _ s₂.size.zero_le (by rwa [hchildren])

/-- **The pass makes the tree without `let`.** -/
theorem makes_letToVar {height : Nat} {id : NodeId} (fits : s.Fits height id) :
    Makes s (letToVar height id : Edit σ NodeId) (s.tree 0 id).asVar := by
  induction height generalizing id with
  | zero => exact fits.elim
  | succ height ih =>
    have hg := fits.grounded
    obtain ⟨node, found, below⟩ := fits
    intro s₁ hle state
    obtain ⟨id', s₂, hwalk, hle₂, hdenotes⟩ :=
      makes_walk found (fun c hc => ih (below c hc)) s₁ hle state
    obtain ⟨⟨shape, range⟩, found', hbelow, heq⟩ := hdenotes.exists_node
    obtain ⟨-, hshape, hrange⟩ := Tree.node.inj heq
    -- The walk keeps the construct, so the keyword can be read off the node that it returns.
    have htree : (s.tree 0 id).asVar = .node none (shape.asVar.map (s₂.tree 0)) range := by
      rw [hg.tree_eq found, asVar_node, Shape.asVar_map, Shape.map_map, ← Shape.asVar_map,
        ← Shape.asVar_map, ← hshape, hrange]
      rfl
    have hkept (h : shape.asVar = shape) : s₂.Denotes 0 id' (s.tree 0 id).asVar := by
      rwa [hshape, hrange, ← h, ← htree] at hdenotes
    have hbuilt := denotes_push ⟨shape.asVar, range⟩ s₂.size.zero_le
      (by rwa [Shape.children_asVar])
    rw [← htree] at hbuilt
    rw [letToVar, exec_bind_of_ok hwalk, exec_bind_of_ok (exec_node found' state)]
    cases shape with
    | varStatement keyword declarators =>
      cases keyword with
      | varWord => exact ⟨id', s₂, rfl, hle₂, hkept rfl⟩
      | letWord | constWord => exact ⟨s₂.nextId, _, rfl, hle₂.trans (le_push s₂ _), hbuilt⟩
    | _ => exact ⟨id', s₂, rfl, hle₂, hkept rfl⟩

end Edit

/-! ### Two compilations -/

open Lowering

/-- What a lowering makes of a tree is determined if the temporaries are. -/
theorem Lowers.unique {options : Options} {a a₁ a₂ : Account} {t t₁ t₂ : Tree}
    (ordered : a.temps.Ordered) (h₁ : Lowers options none a [t] [t₁] a₁)
    (h₂ : Lowers options none a [t] [t₂] a₂) : t₁ = t₂ := by
  have hnames (t : Tree) : t.Everywhere fun u => ∀ name ∈ u.name?, True := by
    induction t with
    | node o s r ih => exact .node (fun _ _ => trivial) ih
  have hfixed : ∀ d ∈ [fun _ => t], Draft.Uniform (fun _ => True) d :=
    List.forall_mem_singleton.mpr (Draft.uniform_fixed (hnames t))
  obtain ⟨ds, hdraws⟩ := h₁.draws ordered trivial trivial (C := none) nofun rfl hfixed rfl
  exact List.singleton_inj.mp ((hdraws.first h₁).trans (hdraws.first h₂).symm)

/-- **Two lowerings with different keywords.** They report the same, and they both fail with the
same fault or they return the same tree but for the keywords. -/
theorem lowerProgram_blockBinding {s : Store} {root : NodeId} (hg : s.Grounded root)
    (options : Options) (blockBinding : Bool) {journal journal' : Journal}
    (hbag : journal.bag = journal'.bag) :
    let out := exec (lowerProgram options root) ⟨s, { journal }⟩
    let out' := exec (lowerProgram { options with blockBinding } root) ⟨s, { journal := journal' }⟩
    out.2.state.journal.bag = out'.2.state.journal.bag ∧
      Agree (fun id id' => ∃ t t', out.2.store.Denotes 0 id t ∧ out'.2.store.Denotes 0 id' t' ∧
        t'.asVar = t.asVar) out.1 out'.1 := by
  have hrun := lowerProgram_runs hg options 0 s.size.zero_le { journal }
  have hrun' := lowerProgram_runs hg { options with blockBinding } 0 s.size.zero_le
    { journal := journal' }
  have haccount : ({ journal := journal' } : LoweringState).view.account =
      ({ journal } : LoweringState).view.account := by
    simp [LoweringState.view, View.account, hbag]
  rw [haccount] at hrun'
  dsimp only
  generalize exec (lowerProgram options root) ⟨s, { journal }⟩ = out at hrun ⊢
  generalize exec (lowerProgram { options with blockBinding } root) ⟨s, { journal := journal' }⟩ =
    out' at hrun' ⊢
  obtain ⟨fault | id, session⟩ := out <;> obtain ⟨fault' | id', session'⟩ := out'
  · obtain ⟨-, -, hhalts⟩ := hrun
    obtain ⟨-, -, hhalts'⟩ := hrun'
    obtain ⟨rfl, reports, hreports, hreports'⟩ := hhalts.stopsAt.unique hhalts'.stopsAt
    exact ⟨hreports.trans hreports'.symm, .error _⟩
  · -- A fault with one keyword only is ruled out by the twin of the other lowering.
    obtain ⟨-, -, hhalts⟩ := hrun
    obtain ⟨-, -, _, -, hlowers⟩ := hrun'
    obtain ⟨us, hus, -⟩ := hlowers.exists_asVar_eq options.blockBinding
    exact (hhalts.not_lowers hus).elim
  · obtain ⟨-, -, _, -, hlowers⟩ := hrun
    obtain ⟨-, -, hhalts⟩ := hrun'
    obtain ⟨us, hus, -⟩ := hlowers.exists_asVar_eq blockBinding
    exact (hhalts.not_lowers hus).elim
  · obtain ⟨-, -, t, hdenotes, hlowers⟩ := hrun
    obtain ⟨-, -, t', hdenotes', hlowers'⟩ := hrun'
    obtain ⟨us, hus, heq⟩ := hlowers.exists_asVar_eq blockBinding
    obtain ⟨u, rfl, hu⟩ := List.map_eq_singleton_iff.mp heq
    obtain rfl := hus.unique Temps.ordered_default hlowers'
    exact ⟨hlowers.bag_eq.trans hlowers'.bag_eq.symm, .ok ⟨t, u, hdenotes, hdenotes', hu⟩⟩

namespace Compiler

open Edit

variable {compiler : Compiler} {s : Store} {root : NodeId} {log : Log}

theorem compile_eq_error {error : CompileError} {session : Session Journal}
    (hlowered : exec (compiler.runPass .classLowering root) ⟨s, compiler.startJournal log⟩ =
      (.error error, session)) : (compiler.compile root s log).1 = .error error := by
  change (exec (compiler.steps root) ⟨s, compiler.startJournal log⟩).1 = _
  rw [steps, exec_bind, hlowered]

/-- The run of a further pass is noted before it starts. -/
theorem exists_exec_runFurtherPass (compiler : Compiler) (pass : Pass) (id : NodeId)
    (store : Store) (journal : Journal) :
    ∃ event, exec (compiler.runFurtherPass id pass) ⟨store, journal⟩ =
      exec (compiler.runPass pass id) ⟨store, journal.record event⟩ :=
  ⟨_, rfl⟩

/-- What is left to do for a compilation once all the passes have run. -/
def finish (ambient : List String) (s : Store) (program : NodeId) (journal : Journal) :
    Except CompileError Compiled :=
  match Check.program ambient s program journal with
  | (.ok (), journal') => .ok ⟨program, s.text program, journal'.bag⟩
  | (.error fault, _) => .error (.check fault)

/-- The end of a compilation depends on the tree and on the diagnostics so far. -/
theorem finish_layout {ambient : List String} {s' : Store} {id id' : NodeId}
    (h : s.Twins s' (id, id')) {journal journal' : Journal} (hbag : journal.bag = journal'.bag) :
    (finish ambient s id journal).map (fun c => (c.text, c.diagnostics)) =
      (finish ambient s' id' journal').map (fun c => (c.text, c.diagnostics)) := by
  obtain ⟨t, hdenotes, hdenotes'⟩ := h
  obtain ⟨houtcome, hbags⟩ := Check.program_layout ambient ⟨t, hdenotes, hdenotes'⟩ hbag
  rw [finish, finish, hdenotes.text_eq, hdenotes'.text_eq]
  generalize Check.program ambient s id journal = out at houtcome hbags ⊢
  generalize Check.program ambient s' id' journal' = out' at houtcome hbags ⊢
  obtain ⟨outcome, final⟩ := out
  obtain ⟨outcome', final'⟩ := out'
  obtain rfl : outcome = outcome' := houtcome
  cases outcome with
  | error fault => rfl
  | ok => exact congrArg (fun bag => Except.ok (t.textAt 0, bag)) hbags

/-- With the pass after it, a lowering goes on to a check of the tree without `let`. -/
theorem exists_compile_letToVar {lowered : NodeId} {store : Store} {journal : Journal}
    (passes : compiler.passes = [.letToVar])
    (hlowered : exec (compiler.runPass .classLowering root) ⟨s, compiler.startJournal log⟩ =
      (.ok lowered, ⟨store, journal⟩)) {t : Tree} (hdenotes : store.Denotes 0 lowered t) :
    ∃ program store' journal', store'.Denotes 0 program t.asVar ∧ journal'.bag = journal.bag ∧
      (compiler.compile root s log).1 =
        finish compiler.ambientNames store' program journal' := by
  obtain ⟨hg, rfl⟩ := hdenotes
  obtain ⟨event, hfurther⟩ :=
    exists_exec_runFurtherPass compiler .letToVar lowered store journal
  have hfits := hg.fits.mono store.size_le_walkBound
  obtain ⟨program, store', hpass, -, hprogram⟩ :=
    makes_letToVar hfits store (le_refl store) (journal.record event)
  have hrun : exec (compiler.runPass .letToVar lowered) ⟨store, journal.record event⟩ =
      (.ok program, ⟨store', journal.record event⟩) := by
    change ((exec (letToVar store.walkBound lowered) ⟨store, journal.record event⟩).1.mapError _,
      (exec (letToVar store.walkBound lowered) ⟨store, journal.record event⟩).2) = _
    rw [hpass]
    rfl
  refine ⟨program, store', journal.record event, hprogram, rfl, ?_⟩
  change (exec (compiler.steps root) ⟨s, compiler.startJournal log⟩).1 = _
  rw [steps, exec_bind_of_ok hlowered, passes, List.foldlM_cons, bind_assoc,
    exec_bind_of_ok (hfurther.trans hrun), List.foldlM_nil, pure_bind, exec_bind, check, exec_mk,
    finish]
  dsimp only
  obtain ⟨_ | ⟨⟩, journal'⟩ :=
    Check.program compiler.ambientNames store' program (journal.record event) <;> rfl

/-- The compiler that lowers classes with either keyword and has the pass after that. -/
def withKeyword (config : Config) (blockBinding : Bool) : Compiler where
  config := { config with options := { config.options with blockBinding } }
  passes := [.letToVar]

/-- **The choice of the keyword is a choice of the keyword only.** With the pass that turns `let`
into `var`, a program compiles to the same text with the same diagnostics either way, or it fails
in the same step with the same fault. -/
theorem compile_blockBinding (closed : s.Closed root) (acyclic : s.Acyclic root) (config : Config)
    (log log' : Log) :
    ((withKeyword config true).compile root s log).1.map (fun c => (c.text, c.diagnostics)) =
      ((withKeyword config false).compile root s log').1.map
        (fun c => (c.text, c.diagnostics)) := by
  have hg : s.Grounded root := Store.grounded_iff.mpr ⟨closed, acyclic⟩
  have hlet := exec_runPass_classLowering_eq (withKeyword config true) s root
    ((withKeyword config true).startJournal log)
  have hvar := exec_runPass_classLowering_eq (withKeyword config false) s root
    ((withKeyword config false).startJournal log')
  have hpair := lowerProgram_blockBinding hg (withKeyword config true).config.options false
    (show ((withKeyword config true).startJournal log).bag =
      ((withKeyword config false).startJournal log').bag from rfl)
  rw [show { (withKeyword config true).config.options with blockBinding := false } =
    (withKeyword config false).config.options from rfl] at hpair
  generalize exec (lowerProgram (withKeyword config true).config.options root) _ = out
    at hlet hpair
  generalize exec (lowerProgram (withKeyword config false).config.options root) _ = out'
    at hvar hpair
  obtain ⟨outcome, session⟩ := out
  obtain ⟨outcome', session'⟩ := out'
  obtain ⟨hbag, hagree⟩ := hpair
  dsimp only at hlet hvar hbag hagree
  cases hagree with
  | error fault => rw [compile_eq_error hlet, compile_eq_error hvar]
  | ok h =>
    obtain ⟨t, t', hdenotes, hdenotes', heq⟩ := h
    obtain ⟨id, store, journal, hid, hjournal, hcompile⟩ :=
      exists_compile_letToVar rfl hlet hdenotes
    obtain ⟨id', store', journal', hid', hjournal', hcompile'⟩ :=
      exists_compile_letToVar rfl hvar hdenotes'
    rw [hcompile, hcompile']
    exact finish_layout ⟨t.asVar, hid, heq ▸ hid'⟩ (hjournal.trans (hbag.trans hjournal'.symm))

/-- `class C { m() { class D {} } } const x = B;` -/
def innerStore : Store where
  nodes := #[⟨.binding "D", none⟩, ⟨.classDecl ⟨0⟩ none [], none⟩, ⟨.block [⟨1⟩], none⟩,
    ⟨.method (.identifier "m") [] ⟨2⟩, none⟩, ⟨.binding "C", none⟩,
    ⟨.classDecl ⟨4⟩ none [⟨3⟩], none⟩, ⟨.binding "x", none⟩,
    ⟨.identifier "B", some (.onLine 0 0 1)⟩, ⟨.declarator ⟨6⟩ (some ⟨7⟩), none⟩,
    ⟨.varStatement .constWord [⟨8⟩], none⟩, ⟨.program [⟨5⟩, ⟨9⟩], none⟩]

/-- Either way, `B` is reported. -/
theorem compile_blockBinding_inner : ∃ text bag,
    ((withKeyword {} true).compile ⟨10⟩ innerStore {}).1.map (fun c => (c.text, c.diagnostics)) =
        .ok (text, bag) ∧
      ((withKeyword {} false).compile ⟨10⟩ innerStore {}).1.map
        (fun c => (c.text, c.diagnostics)) = .ok (text, bag) ∧
      bag.diagnostics.toList.map (fun d => (d.code, d.range)) =
        [(Message.nameNotDefined.code, some (.onLine 0 0 1))] := by
  have fits : innerStore.Fits 11 ⟨10⟩ := by decide +kernel
  obtain ⟨closed, acyclic⟩ := Store.grounded_iff.mp fits.grounded
  have hreported : (((withKeyword {} true).compile ⟨10⟩ innerStore {}).1.map fun c =>
      c.diagnostics.diagnostics.toList.map (fun d => (d.code, d.range))) =
        .ok [(Message.nameNotDefined.code, some (.onLine 0 0 1))] := by
    decide +kernel
  rw [← compile_blockBinding closed acyclic {} {} {}]
  generalize ((withKeyword {} true).compile ⟨10⟩ innerStore {}).1 = outcome at hreported ⊢
  cases outcome with
  | error error => cases hreported
  | ok compiled => exact ⟨_, _, rfl, rfl, Except.ok.inj hreported⟩

end Compiler

end Declass
