import Declass.Code.Text
import Declass.Proofs.Operators
import Declass.Proofs.SuperUses

/-!
# Grouping in expanded assignments

`super.x *= v` becomes `superSet(this, C, "x", superGet(this, C, "x") * v)`. An assignment takes any
expression on its right, a product does not, and nothing puts parentheses around `v` on the way. So
the new operator has the right operand it should have iff `v` could have stood there in the first
place, or is an assignment to `super` itself, which becomes a call.

## Main definitions

* `Tree.Within`, `Tree.Exposes` — the parts of a tree, and those that its expansion comes to
* `Tree.isEnclosed` — assignments that become calls

## Main results

* `Expands.standsRightOf_iff` — what an expansion does to the grouping of a tree
* `expandMember_groups` — when the operands of an expanded compound assignment are grouped
* `expandMember_ungrouped` — a product whose right operand falls apart
-/

namespace Declass

open Edit Lowering

theorem operatorLevel_of_mem_arithmetic : ∀ operator ∈ arithmeticOperators.map Prod.fst,
    4 < operatorLevel operator ∧ operatorLevel operator < 14 := by
  decide

theorem isLogical_of_mem_arithmetic : ∀ operator ∈ arithmeticOperators.map Prod.fst,
    isLogical operator = false := by
  decide

theorem operatorLevel_of_isLogical {operator : String} (h : isLogical operator = true) :
    operatorLevel operator ≤ 4 ∧ operatorLevel (operator ++ "=") ≤ 4 := by
  have hmem : operator ∈ ["&&", "||", "??"] := by simpa [isLogical] using h
  have hall : ∀ o ∈ ["&&", "||", "??"], operatorLevel o ≤ 4 ∧ operatorLevel (o ++ "=") ≤ 4 := by
    decide
  exact hall operator hmem

namespace Shape

variable {α : Type} {s : Shape α} {operator : String}
  (arithmetic : operator ∈ arithmeticOperators.map Prod.fst)

include arithmetic

theorem standsRightOf_of_le (h : 14 ≤ s.level) : s.standsRightOf operator = true := by
  have hlevel := (operatorLevel_of_mem_arithmetic operator arithmetic).2
  simp only [standsRightOf, Bool.or_eq_true, decide_eq_true_eq]
  omega

theorem standsRightOf_of_level_le (h : s.level ≤ 4) : s.standsRightOf operator = false := by
  have hlevel := (operatorLevel_of_mem_arithmetic operator arithmetic).1
  simp only [standsRightOf, Bool.or_eq_false_iff, Bool.and_eq_false_iff, decide_eq_false_iff_not]
  omega

end Shape

/-! ### Assignments to members of `super` -/

/-- Whether a use of `super` is a logical assignment with a plain key. The operator of such an
assignment stays outside of the call. -/
def SuperUse.isGuarded {α : Type} : SuperUse α → Bool
  | .compound ⟨_, .named _⟩ operator _ => isLogical operator
  | _ => false

/-- Whether a use of `super` is an assignment that becomes a call or is put in parentheses. -/
def SuperUse.isEnclosed {α : Type} (use : SuperUse α) : Bool :=
  match use with
  | .assign .. => true
  | .compound .. => !use.isGuarded
  | _ => false

namespace Tree

/-- Whether the tree is an assignment to a member of `super` that becomes a call or is put in
parentheses. -/
def isEnclosed (t : Tree) : Bool :=
  match t.superRole with
  | .use use => use.isEnclosed
  | _ => false

theorem level_of_isGuarded {t : Tree} {use : SuperUse Tree} (role : t.superRole = .use use)
    (h : use.isGuarded = true) : t.shape.level ≤ 4 := by
  have huse := Shape.isUse_of_superRole role
  generalize t.shape = s at huse
  cases huse with
  | @compound _ _ access _ _ _ applied =>
    obtain ⟨word, key⟩ := access
    cases key with
    | named =>
      obtain rfl := eq_of_compoundOperator? applied
      exact (operatorLevel_of_isLogical h).2
    | computed => cases h
  | _ => cases h

theorem le_level_or_isEnclosed {t : Tree} {use : SuperUse Tree} (role : t.superRole = .use use)
    (h : use.isGuarded = false) : 14 ≤ t.shape.level ∨ use.isEnclosed = true := by
  have huse := Shape.isUse_of_superRole role
  generalize t.shape = s at huse
  cases huse with
  | assign => exact .inr rfl
  | compound => exact .inr (by simp [SuperUse.isEnclosed, h])
  | get target =>
    left
    cases s <;> first | cases target | simp [Shape.level]
  | call | methodCall | update | bare => exact .inl (by simp [Shape.level])

/-! ### Parts -/

/-- `u` is `t` or a part of it. -/
inductive Within (u : Tree) : Tree → Prop where
  | self : Within u u
  | part {t c : Tree} (child : c ∈ t.shape.children) (h : Within u c) : Within u t

/-- What is within a part is within the whole. -/
theorem Within.trans {t u v : Tree} (huv : Within u v) (hvt : Within v t) : Within u t := by
  induction hvt with
  | self => exact huv
  | part child _ ih => exact .part child ih

/-- The expansion of `super` in `t` comes to `u`. -/
inductive Exposes : Tree → Tree → Prop where
  | self {t : Tree} : Exposes t t
  | visit {t u : Tree} {v : Tree × ScopeChain} (listed : v ∈ t.visits) (h : Exposes v.1 u) :
      Exposes t u

end Tree

namespace Site

open Declass.Tree

variable {site : Site}

theorem within_superSet {key value u : Tree} {range : Option Range}
    (h : u.Within key ∨ u.Within value) : u.Within (site.superSet key value range) := by
  rcases h with h | h <;> exact .part (by simp [superSet, helperCall, Shape.children]) h

theorem within_superCall {key u : Tree} {arguments : List Tree} {range : Option Range}
    (h : u = key ∨ u ∈ arguments) : u.Within (site.superCall key arguments range) := by
  rcases h with rfl | h
  · exact .part (by simp [superCall, helperCall, Shape.children]) .self
  · refine .part (c := gen (.array arguments)) (by simp [superCall, helperCall, Shape.children]) ?_
    exact .part h .self

theorem within_compound (key : Tree) (operator : String) (value : Tree) (range : Option Range) :
    value.Within (site.compound key operator value range) := by
  rw [compound]
  split
  · exact .part (c := site.superSet key value none) (by simp [Shape.children])
      (within_superSet (.inr .self))
  · exact within_superSet (.inr (.part (by simp [gen, Shape.children]) .self))

theorem within_sequence {number : Nat} {key expression u : Tree} {range : Option Range}
    (h : u = key ∨ u.Within expression) : u.Within (sequence number key expression range) := by
  refine .part (List.mem_singleton.mpr rfl) ?_
  rcases h with rfl | h
  · exact .part (c := assign (temp number) u) (by simp [gen, Shape.children])
      (.part (by simp [assign, gen, Shape.children]) .self)
  · exact .part (by simp [gen, Shape.children]) h

theorem Key.eq_of_mem {key : MemberKey Tree} {keys : List Tree} {k u : Tree} (h : Key key keys k)
    (hu : u ∈ keys) : u = k := by
  cases h with
  | named => cases hu
  | computed => exact List.mem_singleton.mp hu

/-- The operands of a use are parts of the code that it becomes. -/
theorem Direct.within {range : Option Range} {use : SuperUse Tree} {operands : List Tree}
    {t u : Tree} (code : site.Direct range use operands t) (hu : u ∈ operands) : u.Within t := by
  cases code with
  | call => exact within_superCall (.inr hu)
  | methodCall written =>
    exact within_superCall ((List.mem_append.mp hu).imp_left written.eq_of_mem)
  | assign written =>
    refine within_superSet ((List.mem_append.mp hu).imp (fun h => ?_) fun h => ?_)
    · exact written.eq_of_mem h ▸ .self
    · exact List.mem_singleton.mp h ▸ .self
  | get written =>
    obtain rfl := written.eq_of_mem hu
    exact .part (by simp [superGet, helperCall, Shape.children]) .self
  | compound => exact List.mem_singleton.mp hu ▸ within_compound _ _ _ _
  | update => cases hu

theorem Bound.within {range : Option Range} {number : Nat} {use : SuperUse Tree} {key t u : Tree}
    {rest : List Tree} (code : site.Bound range number use key rest t) (hu : u ∈ key :: rest) :
    u.Within t := by
  cases code with
  | compound =>
    refine within_sequence ((List.mem_cons.mp hu).imp_right fun h => ?_)
    exact List.mem_singleton.mp h ▸ within_compound _ _ _ _
  | update => exact within_sequence (.inl (List.mem_singleton.mp hu))

/-- How tightly the code binds that a use becomes. -/
theorem Direct.level {range : Option Range} {use : SuperUse Tree} {operands : List Tree} {t : Tree}
    (code : site.Direct range use operands t) :
    if use.isGuarded then t.shape.level ≤ 4 else 14 ≤ t.shape.level := by
  cases code with
  | call | methodCall | assign | get | update =>
    simp [SuperUse.isGuarded, superCall, superSet, superGet, Site.update, helperCall, Shape.level]
  | @compound _ _ _ _ operator =>
    rw [SuperUse.isGuarded, Site.compound]
    split
    case isTrue hlogical => exact (operatorLevel_of_isLogical hlogical).1
    case isFalse => simp [superSet, helperCall, Shape.level]

theorem Bound.level {range : Option Range} {number : Nat} {use : SuperUse Tree} {key t : Tree}
    {rest : List Tree} (code : site.Bound range number use key rest t) :
    use.isGuarded = false ∧ 14 ≤ t.shape.level := by
  cases code <;> exact ⟨rfl, by simp [sequence, Shape.level]⟩

end Site

namespace Expands

open Declass.Tree

variable {site : Site} {nested : Bool} {a a' : Account} {ts ts' : List Tree} {t t' : Tree}

/-! ### Steps -/

/-- Somewhere in `ts'` stands code that `u` is expanded to. -/
def Shows (site : Site) (u : Tree) (ts' : List Tree) : Prop :=
  ∃ b u' b', Expands site false b [u] [u'] b' ∧ ∃ t' ∈ ts', u'.Within t'

theorem Shows.within {u : Tree} (h : Shows site u ts) (hts : ∀ t ∈ ts, ∃ t' ∈ ts', t.Within t') :
    Shows site u ts' := by
  obtain ⟨b, u', b', hexpands, t, ht, hwithin⟩ := h
  obtain ⟨t', ht', hpart⟩ := hts t ht
  exact ⟨b, u', b', hexpands, t', ht', hwithin.trans hpart⟩

/-- A step is looked at twice: at the tree itself and at what lies below it. -/
theorem shows_of_step {u : Tree} (step : Expands site false a [t] [t'] a')
    (below : ∀ v ∈ t.visits, v.1.Exposes u → ∃ ts, Shows site u ts ∧ ∀ c ∈ ts, c.Within t')
    (hu : t.Exposes u) : Shows site u [t'] := by
  cases hu with
  | self => exact ⟨_, t', _, step, t', List.mem_cons_self, .self⟩
  | visit listed hu =>
    obtain ⟨ts, hshows, hts⟩ := below _ listed hu
    exact hshows.within fun c hc => ⟨t', List.mem_cons_self, hts c hc⟩

/-- Of a class only the heritage is expanded. -/
theorem shows_of_class {u : Tree} {parts : ClassParts Tree} {heritage' : Option Tree}
    (step : Expands site false a [t] [t'] a') (hparts : t.shape.classParts? = some parts)
    (hchildren : ∀ c ∈ heritage'.toList, c ∈ t'.shape.children)
    (ih : ∀ c ∈ parts.heritage.toList, c.Exposes u → Shows site u heritage'.toList)
    (hu : t.Exposes u) : Shows site u [t'] := by
  refine shows_of_step step (fun v hv hexposes => ?_) hu
  rw [visits_class hparts] at hv
  obtain ⟨c, hc, rfl⟩ := List.mem_map.mp hv
  exact ⟨_, ih c hc hexposes, fun c' hc' => .part (hchildren c' hc') .self⟩

/-- Whatever an expansion comes to has been expanded, and the code that it has become is part of the
result. -/
theorem shows_of_exposes (h : Expands site nested a ts ts' a') (direct : nested = false)
    (ht : t ∈ ts) {u : Tree} (hu : t.Exposes u) : Shows site u ts' := by
  induction h generalizing t with
  | nil => cases ht
  | cons _ _ ihHead ihTail =>
    rcases List.mem_cons.mp ht with rfl | ht
    · refine (ihHead direct List.mem_cons_self hu).within fun t' ht' => ⟨t', ?_, .self⟩
      exact List.mem_singleton.mp ht' ▸ List.mem_cons_self
    · exact (ihTail direct ht hu).within fun t' ht' => ⟨t', List.mem_cons_of_mem _ ht', .self⟩
  | walk role below ih =>
    subst direct
    obtain rfl := List.mem_singleton.mp ht
    refine shows_of_step (.walk role below) (fun v hv hexposes => ?_) hu
    rw [visits, role] at hv
    refine ⟨_, ih rfl (Shape.mem_children_of_mem_placed hv) hexposes, fun c hc => .part ?_ .self⟩
    rwa [withChildren, shape_node, Shape.children_refill below.length_eq]
  | enter role below _ =>
    subst direct
    obtain rfl := List.mem_singleton.mp ht
    refine shows_of_step (.enter role below) (fun v hv _ => ?_) hu
    rw [visits, role] at hv
    cases hv
  | classDecl below ih =>
    subst direct
    obtain rfl := List.mem_singleton.mp ht
    exact shows_of_class (.classDecl below) rfl (by simp +contextual [Shape.children])
      (fun _ => ih rfl) hu
  | classExpr below ih =>
    subst direct
    obtain rfl := List.mem_singleton.mp ht
    exact shows_of_class (.classExpr below) rfl (by simp +contextual [Shape.children])
      (fun _ => ih rfl) hu
  | misplaced => cases direct
  | @bare a _ _ role =>
    obtain rfl := List.mem_singleton.mp ht
    refine shows_of_step (.bare (a := a) role) (fun v hv _ => ?_) hu
    rw [visits, role] at hv
    cases hv
  | stray role kind below ih =>
    obtain rfl := List.mem_singleton.mp ht
    refine shows_of_step (.stray role kind below) (fun v hv hexposes => ?_) hu
    rw [visits, role] at hv
    obtain ⟨o, ho, rfl⟩ := List.mem_map.mp hv
    exact ⟨_, ih rfl ho hexposes, fun c hc => .part (by simp [Shape.children, hc]) .self⟩
  | direct role below code ih =>
    obtain rfl := List.mem_singleton.mp ht
    refine shows_of_step (.direct role below code) (fun v hv hexposes => ?_) hu
    rw [visits, role] at hv
    obtain ⟨o, ho, rfl⟩ := List.mem_map.mp hv
    exact ⟨_, ih rfl ho hexposes, fun _ => code.within⟩
  | bound role operands keyed below code ihKey ihRest =>
    obtain rfl := List.mem_singleton.mp ht
    refine shows_of_step (.bound role operands keyed below code) (fun v hv hexposes => ?_) hu
    rw [visits, role] at hv
    dsimp only at hv
    rw [operands] at hv
    obtain ⟨o, ho, rfl⟩ := List.mem_map.mp hv
    rcases List.mem_cons.mp ho with rfl | ho
    · refine ⟨_, ihKey rfl List.mem_cons_self hexposes, fun c hc => code.within ?_⟩
      exact List.mem_singleton.mp hc ▸ List.mem_cons_self
    · exact ⟨_, ihRest rfl ho hexposes, fun c hc => code.within (List.mem_cons_of_mem _ hc)⟩

/-! ### Grouping -/

variable {operator : String} (arithmetic : operator ∈ arithmeticOperators.map Prod.fst)

include arithmetic in
/-- **What an expansion does to the grouping of a tree:** an assignment to `super` that becomes a
call can stand where it could not before; any other tree can stand where it could before. -/
theorem standsRightOf_iff (h : Expands site false a [t] [t'] a') :
    t'.shape.standsRightOf operator ↔ t.shape.standsRightOf operator ∨ t.isEnclosed := by
  have kept {s : Shape Tree} (hstands : s.standsRightOf operator = t.shape.standsRightOf operator)
      (role : ∀ use, t.superRole ≠ .use use) :
      s.standsRightOf operator ↔ t.shape.standsRightOf operator ∨ t.isEnclosed := by
    have henclosed : t.isEnclosed = false := by
      rw [isEnclosed]
      split <;> simp_all
    simp [hstands, henclosed]
  have refilled {cs : List Tree} (hlength : cs.length = t.shape.children.length) :
      (t.withChildren cs).shape.standsRightOf operator = t.shape.standsRightOf operator := by
    obtain ⟨z, hfst, hsnd, -⟩ := Shape.exists_pairs hlength
    rw [withChildren, shape_node, hsnd, hfst, Shape.standsRightOf_map, Shape.standsRightOf_map]
  -- The code of a use is tight unless the use is guarded, and so is the use, enclosed ones apart.
  have used {use : SuperUse Tree} (role : t.superRole = .use use)
      (hlevel : if use.isGuarded then t'.shape.level ≤ 4 else 14 ≤ t'.shape.level) :
      t'.shape.standsRightOf operator ↔ t.shape.standsRightOf operator ∨ t.isEnclosed := by
    rw [isEnclosed, role]
    split at hlevel
    case isTrue hguarded =>
      have henclosed : use.isEnclosed = false := by
        cases use <;> simp_all [SuperUse.isEnclosed, SuperUse.isGuarded]
      simp [Shape.standsRightOf_of_level_le arithmetic hlevel, henclosed,
        Shape.standsRightOf_of_level_le arithmetic (level_of_isGuarded role hguarded)]
    case isFalse hguarded =>
      refine iff_of_true (Shape.standsRightOf_of_le arithmetic hlevel) ?_
      exact (le_level_or_isEnclosed role (by simpa using hguarded)).imp_left
        (Shape.standsRightOf_of_le arithmetic)
  cases h with
  | walk role below => exact kept (refilled below.length_eq) (by simp [role])
  | enter role below => exact kept (refilled below.length_eq) (by simp [role])
  | classDecl | classExpr => exact kept rfl (by simp [superRole, Shape.superRole])
  | bare role => simp [isEnclosed, role, SuperUse.isEnclosed]
  | stray role => exact used role (by simp [SuperUse.isGuarded, Shape.level])
  | direct role _ code => exact used role code.level
  | bound role _ _ _ code => exact used role (by simp [code.level])

omit arithmetic in
/-- The code of a compound assignment that is not logical. Its right operand is what the value has
become, with nothing around it. -/
theorem exists_compound (h : Expands site false a [t] [t'] a') {access : SuperAccess Tree}
    {value : Tree} (role : t.superRole = .use (.compound access operator value))
    (strict : isLogical operator = false) :
    ∃ key right range, (∃ b b', Expands site false b [value] [right] b') ∧
      (site.superSet key (gen (.binary (site.superGet key none) operator right)) range).Within
        t' := by
  have code (key right : Tree) (range : Option Range) : site.compound key operator right range =
      site.superSet key (gen (.binary (site.superGet key none) operator right)) range := by
    rw [Site.compound, if_neg (by simp [strict])]
  cases h with
  | walk role' | enter role' | bare role' | stray role' =>
    rw [role] at role'
    cases role'
  | classDecl | classExpr => cases role
  | @direct _ _ _ _ use _ role' below made =>
    obtain rfl : SuperUse.compound access operator value = use := by simpa [role] using role'
    cases made with
    | @compound _ _ right name =>
      exact ⟨.text name, right, t.range, ⟨_, _, below⟩, code _ _ _ ▸ .self⟩
  | @bound _ a₁ _ _ _ _ _ use _ _ role' operands keyed below made =>
    obtain rfl : SuperUse.compound access operator value = use := by simpa [role] using role'
    cases made with
    | @compound _ _ _ _ right =>
      cases operands
      refine ⟨.temp a₁.fresh, right, none, ⟨_, _, below⟩, Site.within_sequence (.inr ?_)⟩
      rw [code]
      exact .self

end Expands

/-! ### Members -/

open Declass.Tree in
/-- **When the operands of an expanded compound assignment are grouped.** The expansion of a member
succeeds, and every assignment `super[key] op= value` with an arithmetic or bitwise operator that it
comes to is replaced by code in which what became of the value is the right operand of `op`. That
operand is in parentheses or binds tighter than `op` iff the value was or did, or is an assignment
to `super` that has become a call. -/
theorem expandMember_groups {s : Store} {site : SuperSite} {id : NodeId} {c : String}
    {r : Option Range} (closed : s.Closed id) (acyclic : s.Acyclic id)
    (named : s.get? site.classRef = some ⟨.identifier c, r⟩) (state : LoweringState) :
    ∃ member used session, (expandMember site id).runOn ⟨s, state⟩ = (.ok (member, used), session) ∧
      ∀ part ∈ (s.tree s.size id).shape.children, ∀ assignment, part.Exposes assignment →
        ∀ access operator value, assignment.superRole = .use (.compound access operator value) →
          operator ∈ arithmeticOperators.map Prod.fst →
          ∃ key right range, (∃ b b', Expands (site.named c) false b [value] [right] b') ∧
            ((site.named c).superSet key
              (gen (.binary ((site.named c).superGet key none) operator right)) range).Within
              (session.store.tree s.size member) ∧
            (right.shape.standsRightOf operator ↔
              value.shape.standsRightOf operator ∨ value.isEnclosed) := by
  have hg : s.Grounded id := Store.grounded_iff.mpr ⟨closed, acyclic⟩
  obtain ⟨member, used, session, run, cs, hmember, hexpands⟩ :=
    expandMember_spec hg named s.size le_rfl state
  refine ⟨member, used, session, run, ?_⟩
  intro part hpart assignment hexposes access operator value role arithmetic
  obtain ⟨b, assignment', b', hstep, c', hc', hwithin⟩ :=
    hexpands.shows_of_exposes rfl hpart hexposes
  obtain ⟨key, right, range, ⟨b₁, b₂, hvalue⟩, hcode⟩ :=
    hstep.exists_compound role (isLogical_of_mem_arithmetic operator arithmetic)
  refine ⟨key, right, range, ⟨b₁, b₂, hvalue⟩, ?_, hvalue.standsRightOf_iff arithmetic⟩
  rw [hmember.tree_eq]
  refine (hcode.trans hwithin).trans (.part ?_ .self)
  rwa [withChildren, shape_node, Shape.children_refill hexpands.length_eq]

/-- The member `m() { super[k] -= super.y = v; }` of a class `C`. -/
def chainedStore : Store where
  nodes := #[⟨.superExpr, none⟩, ⟨.identifier "k", none⟩, ⟨.lookup ⟨0⟩ ⟨1⟩, none⟩,
    ⟨.superExpr, none⟩, ⟨.member ⟨3⟩ "y", none⟩, ⟨.identifier "v", none⟩,
    ⟨.binary ⟨4⟩ "=" ⟨5⟩, none⟩, ⟨.binary ⟨2⟩ "-=" ⟨6⟩, none⟩,
    ⟨.exprStatement ⟨7⟩, none⟩, ⟨.block [⟨8⟩], none⟩,
    ⟨.method (.identifier "m") [] ⟨9⟩, none⟩, ⟨.identifier "C", none⟩]

open Declass.Tree in
/-- The inner assignment becomes a call, so it is grouped without parentheses. -/
theorem expandMember_groups_chained : ∃ member used session,
    (expandMember ⟨⟨11⟩, "$runtime", .method⟩ ⟨10⟩).runOn ⟨chainedStore, {}⟩ =
        (.ok (member, used), session) ∧
      ∃ key right range,
        (Site.superSet ⟨"C", "$runtime", .method⟩ key
          (gen (.binary (Site.superGet ⟨"C", "$runtime", .method⟩ key none) "-" right))
          range).Within (session.store.tree 12 member) ∧ right.shape.standsRightOf "-" = true := by
  have fits : ∀ i < 12, chainedStore.Fits 12 ⟨i⟩ := by decide +kernel
  have hg (i : Nat) (hi : i < 12) := (fits i hi).grounded
  obtain ⟨closed, acyclic⟩ := Store.grounded_iff.mp (hg 10 (by decide))
  let tree (i : Nat) : Tree := chainedStore.tree 12 ⟨i⟩
  have hword : tree 0 = gen .superExpr := (hg 0 (by decide)).tree_eq rfl
  have htarget : tree 2 = gen (.lookup (tree 0) (tree 1)) := (hg 2 (by decide)).tree_eq rfl
  have hword' : tree 3 = gen .superExpr := (hg 3 (by decide)).tree_eq rfl
  have htarget' : tree 4 = gen (.member (tree 3) "y") := (hg 4 (by decide)).tree_eq rfl
  have hvalue : tree 6 = gen (.binary (tree 4) "=" (tree 5)) := (hg 6 (by decide)).tree_eq rfl
  have hassignment : tree 7 = gen (.binary (tree 2) "-=" (tree 6)) := (hg 7 (by decide)).tree_eq rfl
  have hstatement : tree 8 = gen (.exprStatement (tree 7)) := (hg 8 (by decide)).tree_eq rfl
  have hbody : tree 9 = gen (.block [tree 8]) := (hg 9 (by decide)).tree_eq rfl
  have hmember : tree 10 = gen (.method (.identifier "m") [] (tree 9)) :=
    (hg 10 (by decide)).tree_eq rfl
  have hexposes : (tree 9).Exposes (tree 7) := by
    refine .visit (v := (tree 8, [])) ?_ (.visit (v := (tree 7, [])) ?_ .self)
    · rw [hbody]
      exact List.mem_singleton.mpr rfl
    · rw [hstatement]
      exact List.mem_singleton.mpr rfl
  have happlied : compoundOperator? "-=" = some "-" := by decide +kernel
  have hrole : (tree 7).superRole = .use (.compound ⟨tree 0, .computed (tree 1)⟩ "-" (tree 6)) := by
    rw [hassignment]
    simp [superRole, gen, Shape.superRole, Shape.superAccess?, htarget, hword, Shape.isSuper,
      happlied]
  have henclosed : (tree 6).isEnclosed = true := by
    rw [hvalue]
    simp [isEnclosed, superRole, gen, Shape.superRole, Shape.superAccess?, htarget', hword',
      Shape.isSuper, SuperUse.isEnclosed]
  obtain ⟨member, used, session, run, hall⟩ := @expandMember_groups chainedStore
    ⟨⟨11⟩, "$runtime", .method⟩ ⟨10⟩ "C" none closed acyclic rfl {}
  obtain ⟨key, right, range, -, hwithin, hstands⟩ := hall (tree 9)
    (by change _ ∈ (tree 10).shape.children; rw [hmember]; exact List.mem_singleton.mpr rfl)
    (tree 7) hexposes _ "-" _ hrole (by decide)
  exact ⟨member, used, session, run, key, right, range, hwithin, hstands.mpr (.inr henclosed)⟩

/-- The member `m() { super.x *= a + b; }` of a class `C`. -/
def productStore : Store where
  nodes := #[⟨.superExpr, none⟩, ⟨.member ⟨0⟩ "x", none⟩, ⟨.identifier "a", none⟩,
    ⟨.identifier "b", none⟩, ⟨.binary ⟨2⟩ "+" ⟨3⟩, none⟩, ⟨.binary ⟨1⟩ "*=" ⟨4⟩, none⟩,
    ⟨.exprStatement ⟨5⟩, none⟩, ⟨.block [⟨6⟩], none⟩, ⟨.method (.identifier "m") [] ⟨7⟩, none⟩,
    ⟨.identifier "C", none⟩]

/-- **A product whose right operand falls apart.** The sum that is multiplied with gets no
parentheses, and the product is written like the sum of another product and `b`. -/
theorem expandMember_ungrouped :
    let out := (expandMember ⟨⟨9⟩, "$runtime", .method⟩ ⟨8⟩).runOn ⟨productStore, {}⟩
    let store := (out.2.store.push ⟨.binary ⟨15⟩ "*" ⟨2⟩, none⟩).push ⟨.binary ⟨26⟩ "+" ⟨3⟩, none⟩
    out.1 = .ok (⟨25⟩, true) ∧
      store.text ⟨25⟩ = "m() \x7b\n    $runtime.superSet(this, C, \"x\", "
        ++ "$runtime.superGet(this, C, \"x\") * a + b);\n\x7d" ∧
      store.shape? ⟨17⟩ = some (.binary ⟨15⟩ "*" ⟨4⟩) ∧
      (store.shape? ⟨4⟩).any (·.standsRightOf "*") = false ∧
      store.text ⟨17⟩ = store.text ⟨27⟩ := by
  decide +kernel

end Declass
