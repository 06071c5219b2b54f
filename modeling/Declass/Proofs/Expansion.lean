import Declass.Proofs.SuperRole

/-!
# The expansion of `super` in a store

The edits that expand `super` in a member make nodes that denote what `Expands` says, and they never
fail on trees. The depth to which they go is no limit: any bound that is not below the height of the
tree does.

## Main results

* `expandNode_follows` — the expansion of a node follows `Expands`
* `yields_expandMember` — the expansion of a member
-/

namespace Declass

open Edit Lowering

variable {n : Nat} {Γ Γ₀ : Known} {v : View} {E : Fault → View → Prop}

/-- The view after `super` has been used. -/
def View.use (v : View) : View :=
  { v with usedSuper := true }

/-- The view after a problem of the program has been reported. -/
def View.report (v : View) (range : Option Range) (message : Message) : View :=
  { v with bag := v.bag.report range message [] }

/-- The account of the expansion of a member. An earlier member of the class may have used `super`
`before`. -/
def View.memberAccount (before : Bool) (v : View) : Account :=
  ⟨v.temps, before || v.usedSuper, v.bag⟩

@[simp] theorem View.memberAccount_use (before : Bool) (v : View) :
    v.use.memberAccount before = (v.memberAccount before).withUsed true := by
  simp [memberAccount, use, Account.withUsed]

@[simp] theorem View.use_use (v : View) : v.use.use = v.use := rfl

/-- The site with its class given by a name. -/
def SuperSite.named (site : SuperSite) (c : String) : Site :=
  ⟨c, site.runtimeName, site.kind⟩

/-- Expansions in a row. -/
theorem Expands.of_cons {site : Site} {nested : Bool} {a a₁ a' : Account} {t t' : Tree}
    {ts ts' : List Tree} (head : Expands site nested a [t] [t'] a₁)
    (tail : Expands site nested a₁ ts ts' a') :
    Expands site nested a (t :: ts) (t' :: ts') a' := by
  cases ts with
  | nil =>
    cases tail
    exact head
  | cons u ts => exact .cons head tail

/-- Expansion as what a visit of nodes follows. It cannot fail. -/
def Expands.judgement (site : Site) (nested before : Bool) (classes : List ClassContext) :
    Judgement where
  inv v := v.classes = classes
  account := View.memberAccount before
  rel := Expands site nested
  fails _ _ _ _ := False
  nil _ := .nil
  cons := Expands.of_cons
  fails_head := id
  fails_tail _ := id

/-! ### Helper calls -/

/-- The lowering makes a node that denotes `t` and calls helpers. -/
def Calls (n : Nat) (Γ : Known) (e : Lowering NodeId) (t : Tree) : Prop :=
  ∀ v E, Yields n Γ v e (fun id v' Δ => v' = v.use ∧ Δ = [(id, t)]) E

theorem Calls.bind {β : Type} {S : β → View → Known → Prop} {e : Lowering NodeId} {t : Tree}
    {g : NodeId → Lowering β} (h : Calls n Γ e t)
    (hg : ∀ id, Yields n ((id, t) :: Γ) v.use (g id) S E) : Yields n Γ v (e >>= g) S E := by
  refine Yields.bind (h v E) ?_
  rintro id _ _ ⟨rfl, rfl⟩
  exact hg id

theorem Builds.andCall {e : Lowering NodeId} {t u : Tree} {g : NodeId → Lowering NodeId}
    (h : Builds n Γ e t) (hg : ∀ id, Calls n ((id, t) :: Γ) (g id) u) : Calls n Γ (e >>= g) u :=
  fun v E => h.bind fun id => hg id v E

theorem Shape.eq_identifier_of_map {α β : Type} {f : α → β} {s : Shape α} {name : String}
    (h : s.map f = .identifier name) : s = .identifier name := by
  cases s <;> simp_all [Shape.map]

/-- The node `id` is known to be the name `c`. -/
def Names (Γ : Known) (id : NodeId) (c : String) : Prop :=
  ∃ t : Tree, (id, t) ∈ Γ ∧ t.shape = .identifier c

theorem Names.mono {id : NodeId} {c : String} (h : Names Γ id c) (hsub : Γ ⊆ Γ₀) :
    Names Γ₀ id c := by
  obtain ⟨t, ht, hshape⟩ := h
  exact ⟨t, hsub ht, hshape⟩

section Site

variable {site : SuperSite} {c : String}

theorem calls_helperCall (hc : Names Γ site.classRef c) (helper : Helper)
    (key : NodeId × Tree) (rest : Known) (range : Option Range)
    (hkey : key ∈ Γ) (hrest : rest ⊆ Γ) :
    Calls n Γ (helperCall site helper key.1 (rest.map Prod.fst) range)
      ((site.named c).helperCall helper (key.2 :: rest.map Prod.snd) range) := by
  refine (builds_helper site.runtimeName helper).andCall fun callee => ?_
  refine (builds_synth .thisExpr (by simp [Shape.children])).andCall fun receiver => ?_
  intro v E
  obtain ⟨name, hname, hshape⟩ := hc
  refine yields_node_bind (t := name) (by simp [hname]) fun z r hz => ?_
  obtain rfl : z = .identifier c := by
    rw [hz, Tree.shape_node] at hshape
    exact Shape.eq_identifier_of_map hshape
  refine (builds_synth (.identifier c) (by simp [Shape.children])).bind fun classRef => ?_
  refine yields_modifyState_bind v.use (by rintro state rfl; rfl) ?_
  refine builds_append (.call (callee, .helper site.runtimeName helper)
    ((receiver, .gen .thisExpr) :: (classRef, .ident c) :: key :: rest)) range ?_ v.use E
  intro p hp
  simp only [Shape.children, List.mem_cons] at hp
  have := @hrest p
  grind [Tree.ident, Shape.map]

theorem calls_superGet (hc : Names Γ site.classRef c) (key : NodeId × Tree)
    (range : Option Range) (hkey : key ∈ Γ) :
    Calls n Γ (superGet site key.1 range) ((site.named c).superGet key.2 range) :=
  calls_helperCall hc .superGet key [] range hkey (List.nil_subset _)

theorem calls_superSet (hc : Names Γ site.classRef c) (key value : NodeId × Tree)
    (range : Option Range) (hkey : key ∈ Γ) (hvalue : value ∈ Γ) :
    Calls n Γ (superSet site key.1 value.1 range) ((site.named c).superSet key.2 value.2 range) :=
  calls_helperCall hc .superSet key [value] range hkey (by simpa using hvalue)

/-! ### Uses

All lemmas from here on are about a `visit` that follows the expansion of the parts of a use. -/

variable {before : Bool} {classes : List ClassContext} {D : Tree → Prop}
  {visit : NodeId → Lowering NodeId}

theorem yields_visit
    (h : (Expands.judgement (site.named c) false before classes).Follows n Γ₀ D visit)
    (hΓ₀ : Γ₀ ⊆ Γ) {p : NodeId × Tree} (hp : p ∈ Γ) (hD : D p.2) (hv : v.classes = classes) :
    Yields n Γ v (visit p.1)
      (fun id v' Δ => ∃ t, Δ = [(id, t)] ∧ v'.classes = classes ∧
        Expands (site.named c) false (v.memberAccount before) [p.2] [t] (v'.memberAccount before))
      E := by
  refine (h Γ v p.1 p.2 hΓ₀ hp hD hv).imp ?_ (fun _ _ hf => hf.2.elim)
  rintro id v' Δ ⟨-, t, rfl, hv', hrel⟩
  exact ⟨t, rfl, hv', hrel⟩

theorem yields_superCall
    (h : (Expands.judgement (site.named c) false before classes).Follows n Γ₀ D visit)
    (hc : Names Γ site.classRef c) (hΓ₀ : Γ₀ ⊆ Γ) (key : NodeId × Tree) {ps : Known}
    (range : Option Range) (hkey : key ∈ Γ) (hps : ps ⊆ Γ) (hD : ∀ p ∈ ps, D p.2)
    (hv : v.classes = classes) :
    Yields n Γ v (superCall site visit key.1 (ps.map Prod.fst) range)
      (fun id v' Δ => ∃ (ts : List Tree) (v₁ : View), v' = v₁.use ∧ v₁.classes = classes ∧
        Δ = [(id, (site.named c).superCall key.2 ts range)] ∧
        Expands (site.named c) false (v.memberAccount before) (ps.map Prod.snd) ts
          (v₁.memberAccount before))
      E := by
  refine Yields.bind ((h.mapM hΓ₀ hps hD hv).imp (fun _ _ _ hq => hq) fun _ _ hf => hf.2.elim) ?_
  rintro _ v₁ Δ ⟨rfl, -, hv₁, hrel⟩
  refine (builds_synth (.array Δ) (by simp +contextual [Shape.children])).bind fun array => ?_
  refine (calls_helperCall (c := c) (hc.mono (by grind)) .superCall key
    [(array, .gen (.array (Δ.map Prod.snd)))] range (by simp [hkey])
    (by simp [Shape.map]) v₁ E).imp ?_ (fun _ _ hf => hf)
  rintro id _ _ ⟨rfl, rfl⟩
  exact ⟨_, _, rfl, hv₁, rfl, hrel⟩

theorem yields_expandKey
    (h : (Expands.judgement (site.named c) false before classes).Follows n Γ₀ D visit)
    (hΓ₀ : Γ₀ ⊆ Γ) {key : MemberKey (NodeId × Tree)} (hkey : key.operands ⊆ Γ)
    (hD : ∀ p ∈ key.operands, D p.2) (hv : v.classes = classes) :
    Yields n Γ v (expandKey visit (key.map Prod.fst))
      (fun id v' Δ => ∃ keys k, Δ = [(id, k)] ∧ v'.classes = classes ∧
        Site.Key (key.map Prod.snd) keys k ∧ ∀ ts ts' a',
          Expands (site.named c) false (v'.memberAccount before) ts ts' a' →
          Expands (site.named c) false (v.memberAccount before)
            (key.operands.map Prod.snd ++ ts) (keys ++ ts') a')
      E := by
  cases key with
  | named name =>
    refine (builds_string name v E).imp ?_ (fun _ _ hf => hf)
    rintro id _ _ ⟨rfl, rfl⟩
    exact ⟨[], _, rfl, hv, .named, fun _ _ _ hrel => hrel⟩
  | computed p =>
    refine (yields_visit h hΓ₀ (hkey (by simp [MemberKey.operands]))
      (hD p (by simp [MemberKey.operands])) hv).imp ?_ (fun _ _ hf => hf)
    rintro id v' _ ⟨t, rfl, hv', hrel⟩
    exact ⟨[t], t, rfl, hv', .computed, fun _ _ _ hrel' => hrel.of_cons hrel'⟩

/-- The tree of a key that can be written down several times. -/
def Lowering.StableKey.tree : StableKey → Tree
  | .named name => .text name
  | .temp number => .temp number

theorem builds_emit (key : StableKey) : Builds n Γ key.emit key.tree := by
  cases key with
  | named name => exact builds_string name
  | temp number => exact builds_identifier (Temps.name number)

/-- The part of a compound assignment that follows the evaluation of its key and its value. -/
theorem yields_compound {S : NodeId → View → Known → Prop} (hc : Names Γ site.classRef c)
    (key : StableKey) (operator : String) (value : NodeId × Tree) (inner : Option Range)
    {g : NodeId → Lowering NodeId} (hvalue : value ∈ Γ)
    (hg : ∀ id Δ, Γ ⊆ Δ → Yields n
      ((id, (site.named c).compound key.tree operator value.2 inner) :: Δ) v.use (g id) S E) :
    Yields n Γ v (do
      let current ← superGet site (← key.emit) none
      let target ← key.emit
      if isLogical operator then do
        let set ← superSet site target value.1 none
        let expression ← append (.binary current operator set) inner
        g expression
      else do
        let next ← Build.binary current operator value.1
        let expression ← superSet site target next inner
        g expression) S E := by
  refine (builds_emit key).bind fun k => ?_
  refine (calls_superGet (c := c) (hc.mono (by grind)) (k, key.tree) none (by simp)).bind
    fun current => ?_
  refine (builds_emit key).bind fun target => ?_
  let get := (site.named c).superGet key.tree none
  rw [Site.compound] at hg
  split
  case isTrue hlogical =>
    let set := (site.named c).superSet key.tree value.2 none
    refine (calls_superSet (c := c) (hc.mono (by grind)) (target, key.tree) value none (by simp)
      (by simp [hvalue])).bind fun set' => ?_
    refine (builds_append (.binary (current, get) operator (set', set)) inner
      (by simp [Shape.children, get, set])).bind fun id => ?_
    simpa [hlogical, Shape.map, get, set] using hg id _ (by grind)
  case isFalse hstrict =>
    refine (builds_synth (.binary (current, get) operator value)
      (by simp [Shape.children, hvalue, get])).bind fun next => ?_
    refine (calls_superSet (c := c) (hc.mono (by grind)) (target, key.tree)
      (next, .gen (.binary get operator value.2)) inner (by simp) (by simp [Shape.map])).bind
      fun id => ?_
    simpa [hstrict, Shape.map, get] using hg id _ (by grind)

/-- The part of an update that follows the evaluation of its key. -/
theorem yields_update {S : NodeId → View → Known → Prop} (hc : Names Γ site.classRef c)
    (key : StableKey) (operator : String) (inner : Option Range) {g : NodeId → Lowering NodeId}
    (hg : ∀ id Δ, Γ ⊆ Δ → Yields n
      ((id, (site.named c).update key.tree operator inner) :: Δ) v.use (g id) S E) :
    Yields n Γ v (do
      let current ← superGet site (← key.emit) none
      let numeric ← synth (.unary "+" current)
      let one ← Build.number "1"
      let next ← Build.binary numeric operator one
      let expression ← superSet site (← key.emit) next inner
      g expression) S E := by
  refine (builds_emit key).bind fun k => ?_
  refine (calls_superGet (c := c) (hc.mono (by grind)) (k, key.tree) none (by simp)).bind
    fun current => ?_
  let numeric : Tree := .gen (.unary "+" ((site.named c).superGet key.tree none))
  let one : Tree := .gen (.literal (.number "1"))
  refine (builds_synth (.unary "+" (current, (site.named c).superGet key.tree none))
    (by simp [Shape.children])).bind fun numeric' => ?_
  refine (builds_synth (.literal (.number "1")) (by simp [Shape.children])).bind fun one' => ?_
  refine (builds_synth (.binary (numeric', numeric) operator (one', one))
    (by simp [Shape.children, Shape.map, numeric, one])).bind fun next => ?_
  refine (builds_emit key).bind fun target => ?_
  refine (calls_superSet (c := c) (hc.mono (by grind)) (target, key.tree)
    (next, .gen (.binary numeric operator one)) inner (by simp) (by simp [Shape.map])).bind
    fun id => ?_
  exact hg id _ (by grind)

/-- What holds after a use of `super` at `t` was expanded. -/
def Expanded (site : Site) (before : Bool) (classes : List ClassContext) (v : View) (t : Tree)
    (id : NodeId) (v' : View) (Δ : Known) : Prop :=
  ∃ t', Δ = [(id, t')] ∧ v'.classes = classes ∧
    Expands site false (v.memberAccount before) [t] [t'] (v'.memberAccount before)

/-- The next number is taken from the view. -/
theorem yields_allocate_bind {β : Type} {S : β → View → Known → Prop} {g : Nat → Lowering β}
    (hg : Yields n Γ { v with temps := v.temps.allocate.2 } (g v.temps.allocate.1) S E) :
    Yields n Γ v (allocate >>= g) S E := by
  simp only [allocate, bind_assoc, pure_bind]
  refine yields_modifyGetState_bind v.temps.allocate.1 { v with temps := v.temps.allocate.2 } ?_ ?_
  · rintro state rfl
    exact ⟨rfl, rfl⟩
  · exact yields_state_bind fun _ _ => yields_record_bind hg

theorem builds_sequence (init expression : NodeId × Tree) (range : Option Range) (hinit : init ∈ Γ)
    (hexpression : expression ∈ Γ) :
    Builds n Γ (sequence (some init.1) expression.1 range)
      (.node none (.paren (.gen (.comma [init.2, expression.2]))) range) := by
  refine (builds_synth (.comma [init, expression])
    (by simp [Shape.children, hinit, hexpression])).andThen fun comma => ?_
  exact builds_append (.paren (comma, .gen (.comma [init.2, expression.2]))) range
    (by simp [Shape.children, Shape.map])

theorem yields_expandCompound
    (h : (Expands.judgement (site.named c) false before classes).Follows n Γ₀ D visit)
    (hc : Names Γ₀ site.classRef c) (hΓ₀ : Γ₀ ⊆ Γ) {access : SuperAccess (NodeId × Tree)}
    {operator : String} {value : NodeId × Tree} {t : Tree}
    (role : t.superRole = .use (.compound (access.map Prod.snd) operator value.2))
    (hparts : access.key.operands ++ [value] ⊆ Γ)
    (hD : ∀ p ∈ access.key.operands ++ [value], D p.2) (hv : v.classes = classes) :
    Yields n Γ v (expandCompound site visit (access.map Prod.fst) operator value.1 t.range)
      (Expanded (site.named c) before classes v t) E := by
  obtain ⟨word, key⟩ := access
  cases key with
  | named name =>
    simp only [expandCompound, SuperAccess.map, MemberKey.map, bindKey, pure_bind]
    refine Yields.bind (yields_visit h hΓ₀ (hparts (by simp)) (hD value (by simp)) hv) ?_
    rintro value' v₁ _ ⟨u, rfl, hv₁, hrel⟩
    refine yields_compound (c := c) (hc.mono (by grind)) (.named name) operator (value', u) t.range
      (by simp) fun id Δ hΔ => ?_
    refine yields_return (id, (site.named c).compound (.text name) operator u t.range)
      List.mem_cons_self ⟨_, rfl, hv₁, ?_⟩
    rw [View.memberAccount_use]
    exact .direct role hrel .compound
  | computed index =>
    simp only [expandCompound, SuperAccess.map, MemberKey.map, bindKey, pure_bind, bind_assoc]
    refine Yields.bind (yields_visit h hΓ₀ (hparts (by simp [MemberKey.operands]))
      (hD index (by simp [MemberKey.operands])) hv) ?_
    rintro index' v₁ _ ⟨key, rfl, hv₁, hkey⟩
    refine yields_allocate_bind ?_
    let number := v₁.temps.allocate.1
    refine (builds_identifier (Temps.name number)).bind fun target => ?_
    refine (builds_assign (target, .temp number) (index', key) (by simp [Tree.temp]) (by simp)).bind
      fun init => ?_
    have hvalue : value ∈ Γ := hparts (by simp)
    refine Yields.bind (yields_visit h (by grind) (by simp [hvalue]) (hD value (by simp)) hv₁) ?_
    rintro value' v₂ _ ⟨u, rfl, hv₂, hrest⟩
    refine yields_compound (c := c) (hc.mono (by grind)) (.temp number) operator (value', u) none
      (by simp) fun expression Δ hΔ => ?_
    refine (builds_sequence (init, .assign (.temp number) key) (expression, _) t.range
      (by simp [hΔ (List.mem_append_right _ List.mem_cons_self)]) List.mem_cons_self _ E).imp ?_
      (fun _ _ hf => hf)
    rintro id _ _ ⟨rfl, rfl⟩
    refine ⟨_, rfl, hv₂, ?_⟩
    rw [View.memberAccount_use]
    exact .bound role rfl hkey hrest .compound

theorem yields_expandUpdate
    (h : (Expands.judgement (site.named c) false before classes).Follows n Γ₀ D visit)
    (hc : Names Γ₀ site.classRef c) (hΓ₀ : Γ₀ ⊆ Γ) {access : SuperAccess (NodeId × Tree)}
    {operator : String} {t : Tree}
    (role : t.superRole = .use (.update (access.map Prod.snd) operator))
    (hparts : access.key.operands ⊆ Γ) (hD : ∀ p ∈ access.key.operands, D p.2)
    (hv : v.classes = classes) :
    Yields n Γ v (expandUpdate site visit (access.map Prod.fst) operator t.range)
      (Expanded (site.named c) before classes v t) E := by
  obtain ⟨word, key⟩ := access
  cases key with
  | named name =>
    simp only [expandUpdate, SuperAccess.map, MemberKey.map, bindKey, pure_bind]
    refine yields_update (hc.mono hΓ₀) (.named name) operator t.range fun id Δ hΔ => ?_
    refine yields_return (id, (site.named c).update (.text name) operator t.range)
      List.mem_cons_self ⟨_, rfl, hv, ?_⟩
    rw [View.memberAccount_use]
    exact .direct role .nil .update
  | computed index =>
    simp only [expandUpdate, SuperAccess.map, MemberKey.map, bindKey, pure_bind, bind_assoc]
    refine Yields.bind (yields_visit h hΓ₀ (hparts (by simp [MemberKey.operands]))
      (hD index (by simp [MemberKey.operands])) hv) ?_
    rintro index' v₁ _ ⟨key, rfl, hv₁, hkey⟩
    refine yields_allocate_bind ?_
    let number := v₁.temps.allocate.1
    refine (builds_identifier (Temps.name number)).bind fun target => ?_
    refine (builds_assign (target, .temp number) (index', key) (by simp [Tree.temp]) (by simp)).bind
      fun init => ?_
    refine yields_update (c := c) (hc.mono (by grind)) (.temp number) operator none
      fun expression Δ hΔ => ?_
    refine (builds_sequence (init, .assign (.temp number) key) (expression, _) t.range
      (by simp [hΔ List.mem_cons_self]) List.mem_cons_self _ E).imp ?_ (fun _ _ hf => hf)
    rintro id _ _ ⟨rfl, rfl⟩
    refine ⟨_, rfl, hv₁, ?_⟩
    rw [View.memberAccount_use]
    exact .bound role rfl hkey .nil .update

theorem yields_reportSuper_bind {β : Type} {S : β → View → Known → Prop} {g : Unit → Lowering β}
    {range : Option Range} {message : Message}
    (hg : Yields n Γ (v.report range message) (g ()) S E) :
    Yields n Γ v (reportSuper range message >>= g) S E := by
  simp only [reportSuper, bind_assoc]
  refine yields_record_bind (yields_modifyState_bind (v.report range message) ?_ hg)
  rintro state rfl
  rfl

theorem yields_expandStrayCall
    (h : (Expands.judgement (site.named c) false before classes).Follows n Γ₀ D visit)
    (hΓ₀ : Γ₀ ⊆ Γ) {id : NodeId} {t : Tree} {word : NodeId × Tree} {ps : Known} (hid : (id, t) ∈ Γ)
    (ht : t = .node none (.call word.2 (ps.map Prod.snd)) t.range)
    (role : t.superRole = .use (.call word.2 (ps.map Prod.snd)))
    (kind : site.kind ≠ .constructor) (hword : word ∈ Γ) (hps : ps ⊆ Γ) (hD : ∀ p ∈ ps, D p.2)
    (hv : v.classes = classes) :
    Yields n Γ v (expandStrayCall visit id word.1 (ps.map Prod.fst) t.range)
      (Expanded (site.named c) before classes v t) E := by
  refine yields_range?_bind hword (yields_reportSuper_bind ?_)
  refine Yields.bind ((h.mapM (v := v.report _ _) hΓ₀ hps hD hv).imp (fun _ _ _ hq => hq)
    fun _ _ hf => hf.2.elim) ?_
  rintro _ v' Δ ⟨rfl, -, hv', hrel⟩
  refine (builds_unless_same ps Δ (.call word Δ) t.range (t := t) (by simp [hid]) (by grind)
    (by grind) (by grind [Shape.children]) (fun hsame => hsame) ?_ v' E).imp ?_ (fun _ _ hf => hf)
  · intro htrees
    rw [Shape.map, htrees]
    exact ht
  · rintro id' _ _ ⟨rfl, rfl⟩
    exact ⟨_, rfl, hv', .stray role kind hrel⟩

theorem yields_expandUse
    (h : (Expands.judgement (site.named c) false before classes).Follows n Γ₀ D visit)
    (hc : Names Γ₀ site.classRef c) (hΓ₀ : Γ₀ ⊆ Γ) {id : NodeId} {t : Tree}
    {use : SuperUse (NodeId × Tree)} (hid : (id, t) ∈ Γ) (horigin : t.origin = none)
    (role : t.superRole = .use (use.map Prod.snd)) (hword : use.word ∈ Γ)
    (hparts : use.operands ⊆ Γ) (hD : ∀ p ∈ use.operands, D p.2) (hv : v.classes = classes) :
    Yields n Γ v (expandUse site visit id t.range (use.map Prod.fst))
      (Expanded (site.named c) before classes v t) E := by
  cases use with
  | call word ps =>
    simp only [SuperUse.map, expandUse]
    split
    case isTrue kind =>
      refine (builds_string "constructor").bind fun key => ?_
      refine (yields_superCall h (hc.mono (by grind)) (by grind) (key, .text "constructor") t.range
        (by simp) (by grind [SuperUse.operands]) hD hv).imp ?_ (fun _ _ hf => hf)
      rintro id' _ _ ⟨ts, v₁, rfl, hv₁, rfl, hrel⟩
      refine ⟨_, rfl, hv₁, ?_⟩
      rw [View.memberAccount_use]
      exact .direct role hrel (.call kind)
    case isFalse kind =>
      refine yields_expandStrayCall h hΓ₀ hid ?_ role kind hword hparts hD hv
      rw [← Shape.eq_call_of_superRole role, ← horigin, Tree.node_eta]
  | methodCall access ps =>
    obtain ⟨hkey, hps⟩ := List.append_subset.mp hparts
    have hD' := List.forall_mem_append.mp hD
    refine Yields.bind (yields_expandKey h hΓ₀ hkey hD'.1 hv) ?_
    rintro key v₁ _ ⟨keys, k, rfl, hv₁, written, hkeys⟩
    refine (yields_superCall h (hc.mono (by grind)) (by grind) (key, k) t.range (by simp)
      (List.subset_append_of_subset_right _ hps) hD'.2 hv₁).imp ?_ (fun _ _ hf => hf)
    rintro id' _ _ ⟨ts, v₂, rfl, hv₂, rfl, hrel⟩
    refine ⟨_, rfl, hv₂, ?_⟩
    rw [View.memberAccount_use]
    refine .direct role ?_ (.methodCall written)
    rw [SuperUse.operands_map]
    simpa [SuperUse.operands] using hkeys _ _ _ hrel
  | assign access value =>
    obtain ⟨hkey, hvalue⟩ := List.append_subset.mp hparts
    have hD' := List.forall_mem_append.mp hD
    refine Yields.bind (yields_expandKey h hΓ₀ hkey hD'.1 hv) ?_
    rintro key v₁ _ ⟨keys, k, rfl, hv₁, written, hkeys⟩
    refine Yields.bind (yields_visit h (by grind) (p := value) (by grind) (hD'.2 value (by simp))
      hv₁) ?_
    rintro value' v₂ _ ⟨u, rfl, hv₂, hrel⟩
    refine (calls_superSet (c := c) (hc.mono (by grind)) (key, k) (value', u) t.range (by simp)
      (by simp) v₂ E).imp ?_ (fun _ _ hf => hf)
    rintro id' _ _ ⟨rfl, rfl⟩
    refine ⟨_, rfl, hv₂, ?_⟩
    rw [View.memberAccount_use]
    refine .direct role ?_ (.assign written)
    rw [SuperUse.operands_map]
    simpa [SuperUse.operands] using hkeys _ _ _ hrel
  | compound access operator value => exact yields_expandCompound h hc hΓ₀ role hparts hD hv
  | update access operator => exact yields_expandUpdate h hc hΓ₀ role hparts hD hv
  | get access =>
    refine Yields.bind (yields_expandKey h hΓ₀ hparts hD hv) ?_
    rintro key v₁ _ ⟨keys, k, rfl, hv₁, written, hkeys⟩
    refine (calls_superGet (c := c) (hc.mono (by grind)) (key, k) t.range (by simp) v₁ E).imp ?_
      (fun _ _ hf => hf)
    rintro id' _ _ ⟨rfl, rfl⟩
    refine ⟨_, rfl, hv₁, ?_⟩
    rw [View.memberAccount_use]
    refine .direct role ?_ (.get written)
    rw [SuperUse.operands_map]
    simpa [SuperUse.operands] using hkeys [] [] _ .nil
  | bare word =>
    refine yields_reportSuper_bind (yields_return (id, t) hid ⟨t, rfl, hv, ?_⟩)
    exact .bare role

/-! ### Trees -/

theorem yields_expandHeritage {nested : Bool}
    (h : (Expands.judgement (site.named c) nested before classes).Follows n Γ₀ D visit)
    (hΓ₀ : Γ₀ ⊆ Γ) {id : NodeId} {z : Shape (NodeId × Tree)} {range : Option Range}
    (hclass : z.isClass = true) (hid : (id, .node none (z.map Prod.snd) range) ∈ Γ)
    (hz : z.children ⊆ Γ) (hD : ∀ p ∈ z.children, D p.2) (hv : v.classes = classes) :
    Yields n Γ v (expandHeritage visit id ⟨z.map Prod.fst, range⟩)
      (fun id' v' Δ => ∃ t', Δ = [(id', t')] ∧ v'.classes = classes ∧
        Expands (site.named c) nested (v.memberAccount before) [.node none (z.map Prod.snd) range]
          [t'] (v'.memberAccount before))
      E := by
  cases z with
  | classDecl name heritage members =>
    cases heritage with
    | none => exact yields_return _ hid ⟨_, rfl, hv, .classDecl .nil⟩
    | some p =>
      have hp : p ∈ Γ := hz (by simp [Shape.children])
      refine Yields.bind ((h Γ v p.1 p.2 hΓ₀ hp (hD p (by simp [Shape.children])) hv).imp
        (fun _ _ _ hq => hq) fun _ _ hf => hf.2.elim) ?_
      rintro expanded v' _ ⟨-, u, rfl, hv', hrel⟩
      refine (builds_unless_same [p] [(expanded, u)]
        (.classDecl name (some (expanded, u)) members) range (List.mem_append_right _ hid)
        (by simp [hp]) (by simp) (by grind [Shape.children]) (by simp) ?_ v' E).imp ?_
        (fun _ _ hf => hf)
      · simp +contextual [Shape.map]
      · rintro id' _ _ ⟨rfl, rfl⟩
        have hrel : Expands _ nested _ (some p.2).toList (some u).toList _ := hrel
        exact ⟨_, rfl, hv', .classDecl hrel⟩
  | classExpr name heritage members =>
    cases heritage with
    | none => exact yields_return _ hid ⟨_, rfl, hv, .classExpr .nil⟩
    | some p =>
      have hp : p ∈ Γ := hz (by simp [Shape.children])
      refine Yields.bind ((h Γ v p.1 p.2 hΓ₀ hp (hD p (by simp [Shape.children])) hv).imp
        (fun _ _ _ hq => hq) fun _ _ hf => hf.2.elim) ?_
      rintro expanded v' _ ⟨-, u, rfl, hv', hrel⟩
      refine (builds_unless_same [p] [(expanded, u)]
        (.classExpr name (some (expanded, u)) members) range (List.mem_append_right _ hid)
        (by simp [hp]) (by simp) (by grind [Shape.children]) (by simp) ?_ v' E).imp ?_
        (fun _ _ hf => hf)
      · simp +contextual [Shape.map]
      · rintro id' _ _ ⟨rfl, rfl⟩
        have hrel : Expands _ nested _ (some p.2).toList (some u).toList _ := hrel
        exact ⟨_, rfl, hv', .classExpr hrel⟩
  | _ => cases hclass

/-- **The expansion of a node follows the expansion of its tree.** -/
theorem expandNode_follows (site : SuperSite) (hc : Names Γ₀ site.classRef c) (before : Bool)
    (classes : List ClassContext) : ∀ (height : Nat) (nested : Bool),
    (Expands.judgement (site.named c) nested before classes).Follows n Γ₀
      (fun t => t.height ≤ height)
      (expandNode site height nested) := by
  intro height
  induction height with
  | zero =>
    intro nested Γ v id t _ _ ht
    exact absurd ht (Nat.not_le.mpr t.height_pos)
  | succ height ih =>
    intro nested Γ v id t hΓ₀ hid ht hv
    refine yields_node_bind hid fun z range htree => ?_
    refine yields_store_bind fun s hs => ?_
    obtain ⟨hz, hs⟩ := Store.knows_append.mp hs
    have hshape : t.shape = z.map Prod.snd := by rw [htree, Tree.shape_node]
    have hd : s.Denotes n id t := hs _ hid
    obtain ⟨role, hfst, hsnd, hparts⟩ := Store.exists_superRole hd hz hshape
    refine ⟨role.parts, hparts, ?_⟩
    rw [hfst]
    have hbelow : ∀ c ∈ t.shape.children, c.height ≤ height := by
      rw [htree] at ht ⊢
      exact Tree.height_le_succ_iff.mp ht
    have horigin (hrole : t.superRole ≠ .other) : Store.originOf n id z = none := by
      refine if_neg fun hleaf => hrole ?_
      rw [Tree.superRole, hshape]
      exact Shape.superRole_of_isLeaf ((isLeaf_map _ z).trans hleaf.2)
    cases role with
    | use u =>
      have hword : (u.word.1, u.word.2) ∈ SuperRole.parts (.use u) ++ (z.children ++ Γ) := by
        simp [SuperRole.parts]
      have hspell : (u.map Prod.snd).word.range = u.word.2.range := by rw [SuperUse.word_map]
      cases nested with
      | true =>
        simp only [SuperRole.map, if_true, SuperUse.word_map]
        refine yields_range?_bind hword (yields_reportSuper_bind ?_)
        refine yields_return (id, t) (by simp [hid]) ⟨trivial, t, rfl, hv, ?_⟩
        rw [← hspell]
        exact .misplaced hsnd
      | false =>
        have hrange : t.range = range := by rw [htree, Tree.range_node]
        have hoperands : ∀ p ∈ u.operands, p.2.height ≤ height := by
          intro p hp
          have := Tree.height_operand_lt hsnd (SuperUse.operands_map _ u ▸ List.mem_map_of_mem hp)
          omega
        simp only [SuperRole.map, Bool.false_eq_true, if_false]
        rw [← hrange]
        refine (yields_expandUse (ih false) hc (by grind) (by simp [hid])
          (by rw [htree, Tree.origin_node, horigin (by simp [hsnd, SuperRole.map])]) hsnd hword
          (by simp [SuperRole.parts]) hoperands hv).imp ?_ (fun _ _ hf => hf)
        rintro id' v' _ ⟨t', rfl, hv', hrel⟩
        exact ⟨trivial, t', rfl, hv', hrel⟩
    | nestedFunction =>
      refine ((ih true).walk (by grind) (by simp [hid]) hbelow hv).imp ?_ (fun _ _ hf => hf)
      rintro id' v' _ ⟨cs, rfl, hv', hrel⟩
      exact ⟨trivial, _, rfl, hv', .enter hsnd hrel⟩
    | nestedClass =>
      have hclass : z.isClass = true := by
        have := Shape.isClass_of_superRole hsnd
        rwa [hshape, Shape.isClass_map] at this
      rw [horigin (by simp [hsnd, SuperRole.map])] at htree
      subst htree
      refine (yields_expandHeritage (ih nested) (by grind) hclass (by simp [hid]) (by simp)
        (fun p hp => hbelow p.2 (by simpa using ⟨p.1, hp⟩)) hv).imp ?_ (fun _ _ hf => hf)
      rintro id' v' _ ⟨t', rfl, hv', hrel⟩
      exact ⟨trivial, t', rfl, hv', hrel⟩
    | other =>
      refine ((ih nested).walk (by grind) (by simp [hid]) hbelow hv).imp ?_ (fun _ _ hf => hf)
      rintro id' v' _ ⟨cs, rfl, hv', hrel⟩
      exact ⟨trivial, _, rfl, hv', .walk hsnd hrel⟩

end Site

/-! ### Members -/

/-- The account of a lowering: `super` has been used if the class at hand is marked so. -/
def View.account (v : View) : Account :=
  ⟨v.temps, v.classes.head?.any ClassContext.usesSuper, v.bag⟩

theorem Store.size_le_walkBound (s : Store) : s.size ≤ s.walkBound :=
  (Nat.le_add_right _ 8).trans (Nat.le_mul_self _)

/-- No tree is higher than the bound of a walk. -/
theorem Store.Denotes.height_le {s : Store} {id : NodeId} {t : Tree} (h : s.Denotes n id t) :
    t.height ≤ s.walkBound := by
  obtain ⟨hg, rfl⟩ := h
  exact hg.height_tree_le.trans s.size_le_walkBound

theorem Store.Denotes.height_le_of_mem_children {s : Store} {id : NodeId} {t c : Tree}
    (h : s.Denotes n id t) (hc : c ∈ t.shape.children) : c.height ≤ s.walkBound := by
  rw [← t.node_eta] at h
  exact (Tree.height_lt_of_mem_children hc).le.trans h.height_le

theorem yields_currentClass_bind {β : Type} {S : β → View → Known → Prop} {context : ClassContext}
    {rest : List ClassContext} {g : ClassContext → Lowering β} (hv : v.classes = context :: rest)
    (hg : Yields n Γ v (g context) S E) : Yields n Γ v (currentClass >>= g) S E := by
  simp only [currentClass, bind_assoc]
  refine yields_state_bind fun state hstate => ?_
  have hclasses : state.classes = context :: rest := by rw [← hv, ← hstate]; rfl
  rw [hclasses]
  exact hg

/-- **The expansion of `super` in a member** of a class whose name is `c`. -/
theorem yields_expandMember {site : SuperSite} {id : NodeId} {t : Tree} {c : String}
    (hid : (id, t) ∈ Γ) (hc : Names Γ site.classRef c) (before : Bool) :
    Yields n Γ v (expandMember site id)
      (fun out v' Δ => ∃ cs, Δ = [(out.1, t.withChildren cs)] ∧ out.2 = v'.usedSuper ∧
        v'.classes = v.classes ∧
        Expands (site.named c) false ⟨v.temps, before, v.bag⟩ t.shape.children cs
          (v'.memberAccount before)) E := by
  refine yields_modifyState_bind { v with usedSuper := false } (by rintro state rfl; rfl) ?_
  refine yields_store_bind fun s hs => ⟨[], Store.knows_nil, ?_⟩
  have hbelow (c : Tree) (hc : c ∈ t.shape.children) : c.height ≤ s.walkBound :=
    (hs _ hid).height_le_of_mem_children hc
  have hvisit := expandNode_follows (n := n) site hc before v.classes s.walkBound false
  refine Yields.bind ((hvisit.walk (v := { v with usedSuper := false })
    (List.subset_append_right _ _) (by simp [hid]) hbelow rfl).imp (fun _ _ _ hq => hq)
    fun _ _ hf => hf.2.elim) ?_
  rintro member v₁ _ ⟨cs, rfl, hv₁, hrel⟩
  refine yields_state_bind fun state hstate => ?_
  have hused : state.usedSuper = v₁.usedSuper := by rw [← hstate]; rfl
  have hbefore : View.memberAccount before { v with usedSuper := false } =
      ⟨v.temps, before, v.bag⟩ := by
    simp [View.memberAccount]
  exact yields_pure [(member, t.withChildren cs)] (by simp) ⟨cs, rfl, hused, hv₁, hbefore ▸ hrel⟩

/-- **The run of an expansion.** It does not fail, and makes what `Expands` says. -/
theorem expandMember_spec {s : Store} {site : SuperSite} {id : NodeId} {c : String}
    {r : Option Range} (hg : s.Grounded id)
    (named : s.get? site.classRef = some ⟨.identifier c, r⟩) (n : Nat)
    (hn : n ≤ s.size) (state : LoweringState) :
    ∃ member used session, exec (expandMember site id) ⟨s, state⟩ = (.ok (member, used), session) ∧
      ∃ cs, session.store.Denotes n member ((s.tree n id).withChildren cs) ∧
        Expands (site.named c) false ⟨state.view.temps, false, state.view.bag⟩
          (s.tree n id).shape.children cs (session.state.view.memberAccount false) := by
  have hname : s.Grounded site.classRef := ⟨named, by simp [Shape.children]⟩
  have hclass : (s.tree n site.classRef).shape = .identifier c := by
    rw [hname.tree_eq named]
    rfl
  let Γ : Known := [(id, s.tree n id), (site.classRef, s.tree n site.classRef)]
  have hΓ : s.Knows n Γ :=
    Store.knows_cons.mpr ⟨hg.denotes, Store.knows_cons.mpr ⟨hname.denotes, Store.knows_nil⟩⟩
  have hyields : Yields n Γ state.view (expandMember site id) _ fun _ _ => False :=
    yields_expandMember List.mem_cons_self ⟨_, by simp, hclass⟩ false
  have hspec := hyields ⟨s, state⟩ hn hΓ rfl
  generalize exec (expandMember site id) ⟨s, state⟩ = out at hspec ⊢
  obtain ⟨_ | ⟨member, used⟩, session⟩ := out
  · exact hspec.2.elim
  · obtain ⟨-, _, hmember, cs, rfl, -, -, hexpands⟩ := hspec
    exact ⟨member, used, session, rfl, cs, hmember _ List.mem_cons_self, hexpands⟩

/-- **The expansion of `super` in a member of the class at hand,** whose name is `c`. -/
theorem yields_expandOwnMember {options : Options} {kind : MemberKind} {id cls nameExpr : NodeId}
    {t : Tree} {c : String} {used : Bool} {rest : List ClassContext} (hid : (id, t) ∈ Γ)
    (hname : (nameExpr, .ident c) ∈ Γ) (hv : v.classes = ⟨cls, nameExpr, used⟩ :: rest) :
    Yields n Γ v (expandOwnMember options kind id)
      (fun id' v' Δ => ∃ cs, Δ = [(id', t.withChildren cs)] ∧
        (∃ used', v'.classes = ⟨cls, nameExpr, used'⟩ :: rest) ∧
        Expands ⟨c, options.runtimeName, kind⟩ false
          v.account t.shape.children cs v'.account) E := by
  refine yields_currentClass_bind hv ?_
  refine Yields.bind (yields_expandMember hid ⟨.ident c, hname, rfl⟩ used) ?_
  rintro ⟨member, usedSuper⟩ v₁ _ ⟨cs, rfl, hused, hv₁, hrel⟩
  replace hrel : Expands ⟨c, options.runtimeName, kind⟩ false v.account t.shape.children cs
      (v₁.memberAccount used) := by
    simpa [SuperSite.named, View.account, hv] using hrel
  replace hv₁ : v₁.classes = ⟨cls, nameExpr, used⟩ :: rest := hv₁.trans hv
  dsimp only at hused ⊢
  split
  case isTrue huse =>
    refine yields_modifyState_bind { v₁ with classes := ⟨cls, nameExpr, true⟩ :: rest } ?_ ?_
    · rintro state rfl
      have hclasses : state.classes = ⟨cls, nameExpr, used⟩ :: rest := hv₁
      simp [LoweringState.view, hclasses]
    · refine yields_return (member, t.withChildren cs) (by simp) ⟨cs, rfl, ⟨true, rfl⟩, ?_⟩
      simpa [View.memberAccount, View.account, ← hused, huse] using hrel
  case isFalse huse =>
    refine yields_return (member, t.withChildren cs) (by simp) ⟨cs, rfl, ⟨used, hv₁⟩, ?_⟩
    simpa [View.memberAccount, View.account, hv₁, ← hused, huse] using hrel

end Declass
