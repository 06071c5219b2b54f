import Mathlib.Order.Monotone.Basic
import Declass.Proofs.Lowering

/-!
# Where the numbers of temporaries come from

A lowering that starts with numbers left over from earlier ones hands out other numbers than one
that starts afresh. The numbers that are there at the start, first those given back and then the new
ones, are a supply. What the fresh lowering calls `i` is the `i`-th number of the supply, from the
first number that is handed out to the last one that is given back: `Supply.serve` is the state of
the one allocation as a function of the state of the other, and it commutes with all that an
allocation does.

## Main definitions

* `Temps.Part` — what a part of a run does to the temporaries
* `Temps.Ordered` — the invariant of the allocation
* `Supply`, `Supply.nth`, `Supply.serve`
* `Account.Mirrors` — two accounts that are the same apart from the numbers of temporaries

## Main results

* `Lowers.part`, `Halts.part` — a lowering, whether it fails or not, closes what it opens
* `Supply.strictMono_nth`
* `Supply.serve_allocate`, `Supply.serve_release` — handing out and giving back
-/

namespace Declass

/-! ### Parts of a run -/

namespace Temps

/-- What a part of a run does to the temporaries. Scopes that it opens, it closes. -/
inductive Part : Temps → Temps → Prop where
  | refl {t : Temps} : Part t t
  | trans {t t₁ t' : Temps} (head : Part t t₁) (tail : Part t₁ t') : Part t t'
  | allocate {t : Temps} : Part t t.allocate.2
  | release {t : Temps} {n : Nat} : Part t (t.release n).2
  | scope {t t' : Temps} (below : Part t.push t') : Part t t'.pop.2

/-- The numbers given back ascend, and no number is about that has not been handed out. -/
structure Ordered (t : Temps) : Prop where
  ascending : t.free.Pairwise (· < ·)
  free_lt : ∀ n ∈ t.free, n < t.next
  held_lt : ∀ held ∈ t.scopes, ∀ n ∈ held, n < t.next

/-- A new allocator is ordered. -/
theorem ordered_default : ({} : Temps).Ordered :=
  ⟨.nil, List.forall_mem_nil _, List.forall_mem_nil _⟩

theorem mem_insertAscending {m n : Nat} {ms : List Nat} :
    m ∈ insertAscending n ms ↔ m = n ∨ m ∈ ms := by
  induction ms with
  | nil => simp [insertAscending]
  | cons k ms ih =>
    rw [insertAscending]
    split
    · exact List.mem_cons
    · split
      · subst n
        simp
      · rw [List.mem_cons, ih, List.mem_cons, or_left_comm]

theorem pairwise_insertAscending {n : Nat} {ms : List Nat} (h : ms.Pairwise (· < ·)) :
    (insertAscending n ms).Pairwise (· < ·) := by
  induction h with
  | nil => exact List.pairwise_singleton _ _
  | @cons k ms hk hms ih =>
    rw [insertAscending]
    split
    case isTrue hlt =>
      refine .cons (List.forall_mem_cons.mpr ⟨hlt, fun m hm => hlt.trans (hk m hm)⟩) (.cons hk hms)
    case isFalse hnlt =>
      split
      case isTrue => exact .cons hk hms
      case isFalse hne =>
        refine .cons (fun m hm => ?_) ih
        rcases mem_insertAscending.mp hm with rfl | hm
        · omega
        · exact hk m hm

theorem forall_mem_hold {p : Nat → Prop} {n : Nat} {scopes : List (List Nat)} (hn : p n)
    (h : ∀ held ∈ scopes, ∀ m ∈ held, p m) : ∀ held ∈ hold n scopes, ∀ m ∈ held, p m := by
  cases scopes with
  | nil => exact h
  | cons held scopes =>
    obtain ⟨hheld, hrest⟩ := List.forall_mem_cons.mp h
    refine List.forall_mem_cons.mpr ⟨List.forall_mem_append.mpr ⟨hheld, ?_⟩, hrest⟩
    exact List.forall_mem_singleton.mpr hn

namespace Ordered

variable {t : Temps}

theorem push (h : t.Ordered) : t.push.Ordered :=
  ⟨h.ascending, h.free_lt, List.forall_mem_cons.mpr ⟨List.forall_mem_nil _, h.held_lt⟩⟩

theorem pop (h : t.Ordered) : t.pop.2.Ordered := by
  unfold Temps.pop
  split
  case h_1 => exact h
  case h_2 held scopes hscopes =>
    have hlt := h.held_lt
    rw [hscopes] at hlt
    exact ⟨h.ascending, h.free_lt, (List.forall_mem_cons.mp hlt).2⟩

theorem allocate (h : t.Ordered) : t.allocate.2.Ordered := by
  obtain ⟨hascending, hfree, hheld⟩ := h
  unfold Temps.allocate
  split
  case h_1 number free heq =>
    rw [heq] at hascending hfree
    obtain ⟨hnumber, hfree⟩ := List.forall_mem_cons.mp hfree
    exact ⟨hascending.of_cons, hfree, forall_mem_hold hnumber hheld⟩
  case h_2 =>
    exact ⟨hascending, fun n hn => (hfree n hn).trans_le (Nat.le_succ _),
      forall_mem_hold (Nat.lt_succ_self _) fun held hh n hn =>
        (hheld held hh n hn).trans_le (Nat.le_succ _)⟩

theorem release (h : t.Ordered) (n : Nat) : (t.release n).2.Ordered := by
  obtain ⟨hascending, hfree, hheld⟩ := h
  unfold Temps.release
  split
  case h_1 held scopes heq =>
    rw [heq] at hheld
    obtain ⟨hinner, houter⟩ := List.forall_mem_cons.mp hheld
    split
    case isTrue hn =>
      refine ⟨pairwise_insertAscending hascending, fun m hm => ?_, ?_⟩
      · rcases mem_insertAscending.mp hm with rfl | hm
        · exact hinner _ hn
        · exact hfree m hm
      · exact List.forall_mem_cons.mpr ⟨fun m hm => hinner m (List.mem_of_mem_erase hm), houter⟩
    case isFalse => exact ⟨hascending, hfree, heq ▸ hheld⟩
  case h_2 => exact ⟨hascending, hfree, hheld⟩

end Ordered

theorem depth_release (t : Temps) (n : Nat) : (t.release n).2.depth = t.depth := by
  unfold release
  split
  case h_1 heq => split <;> simp [depth, heq]
  case h_2 => rfl

theorem depth_pop (t : Temps) : t.pop.2.depth = t.depth - 1 := by
  unfold pop
  split
  case h_1 heq => simp [depth, heq]
  case h_2 heq => simp [depth, heq]

namespace Part

variable {t t' : Temps}

theorem ordered (h : t.Part t') (ht : t.Ordered) : t'.Ordered := by
  induction h with
  | refl => exact ht
  | trans _ _ ihHead ihTail => exact ihTail (ihHead ht)
  | allocate => exact ht.allocate
  | release => exact ht.release _
  | scope _ ih => exact (ih ht.push).pop

/-- A part of a run leaves as many scopes open as it finds. -/
theorem depth_eq (h : t.Part t') : t'.depth = t.depth := by
  induction h with
  | refl => rfl
  | trans _ _ ihHead ihTail => exact ihTail.trans ihHead
  | allocate => exact depth_allocate _
  | release => exact depth_release _ _
  | scope _ ih => rw [depth_pop, ih, depth_push, Nat.add_sub_cancel]

end Part

end Temps

theorem Expands.part {site : Site} {nested : Bool} {a a' : Account} {ts ts' : List Tree}
    (h : Expands site nested a ts ts' a') : a.temps.Part a'.temps := by
  induction h with
  | nil | misplaced | bare => exact .refl
  | cons _ _ ihHead ihTail => exact ihHead.trans ihTail
  | walk _ _ ih | enter _ _ ih | classDecl _ ih
  | classExpr _ ih | stray _ _ _ ih | direct _ _ _ ih =>
    exact ih
  | bound _ _ _ _ _ ihKey ihRest => exact ihKey.trans (.trans .allocate ihRest)

theorem Lowers.part {options : Options} {c : Option String} {a a' : Account} {ts ts' : List Tree}
    (h : Lowers options c a ts ts' a') : a.temps.Part a'.temps := by
  induction h with
  | nil => exact .refl
  | cons _ _ ihHead ihTail => exact ihHead.trans ihTail
  | walk _ _ _ ih => exact ih
  | scope _ _ ih => exact .scope ih
  | classDecl _ _ _ ihAbove ihBelow => exact ihAbove.trans ihBelow
  | classExprBound _ _ _ ihAbove ihBelow => exact .trans .allocate (ihAbove.trans ihBelow)
  | classExprFree _ _ _ ihAbove ihBelow =>
    exact .trans .allocate (ihAbove.trans (ihBelow.trans .release))
  | member _ expanded _ ih => exact .scope (expanded.part.trans ih)

theorem Halts.part {options : Options} {c : Option String} {a a' : Account} {ts : List Tree}
    {fault : Fault} (h : Halts options c a ts fault a') : a.temps.Part a'.temps := by
  induction h with
  | declName | kind => exact .refl
  | head _ ih | walk _ _ _ ih | declHeritage _ _ ih => exact ih
  | tail done _ ih => exact done.part.trans ih
  | scope _ _ ih => exact .scope ih
  | declMember _ above _ ih => exact above.part.trans ih
  | exprHeritage _ ih => exact .trans .allocate ih
  | exprMember above _ ih => exact .trans .allocate (above.part.trans ih)
  | member _ expanded _ ih => exact .scope (expanded.part.trans ih)

/-! ### Supplies -/

/-- The numbers that there are to be handed out: those given back, and all from `next` on. -/
structure Supply where
  free : List Nat
  next : Nat
  ascending : free.Pairwise (· < ·)
  lt_next : ∀ n ∈ free, n < next

/-- What is there to be handed out. -/
def Temps.Ordered.supply {t : Temps} (h : t.Ordered) : Supply :=
  ⟨t.free, t.next, h.ascending, h.free_lt⟩

namespace Supply

/-- What is there at the very start. -/
def initial : Supply :=
  Temps.ordered_default.supply

variable (p : Supply) {t : Temps} {k : Nat}

/-- The number that is handed out after `i` others, if none is given back. -/
def nth (i : Nat) : Nat :=
  p.free.getD i (p.next + (i - p.free.length))

theorem nth_of_lt {i : Nat} (h : i < p.free.length) : p.nth i = p.free[i] := by
  simp [nth, h]

theorem nth_of_le {i : Nat} (h : p.free.length ≤ i) : p.nth i = p.next + (i - p.free.length) := by
  simp [nth, h]

/-- Numbers are handed out in ascending order. -/
theorem strictMono_nth : StrictMono p.nth := by
  refine strictMono_nat_of_lt_succ fun i => ?_
  rcases Nat.lt_trichotomy (i + 1) p.free.length with hlt | heq | hgt
  · rw [p.nth_of_lt hlt, p.nth_of_lt (Nat.lt_of_succ_lt hlt)]
    exact List.pairwise_iff_getElem.mp p.ascending _ _ _ _ (Nat.lt_succ_self i)
  · rw [p.nth_of_le heq.ge, p.nth_of_lt (by omega)]
    exact (p.lt_next _ (List.getElem_mem _)).trans_le (Nat.le_add_right _ _)
  · rw [p.nth_of_le hgt.le, p.nth_of_le (Nat.le_of_lt_succ hgt)]
    omega

/-- The supply of a new allocator is all numbers. -/
theorem nth_initial : initial.nth = id := by
  funext i
  simp [nth, initial, Temps.Ordered.supply]

/-- The state of an allocation that draws on the supply, from the state of one that started with
nothing. -/
def serve (t : Temps) : Temps where
  next := p.next + (t.next - p.free.length)
  free := t.free.map p.nth ++ p.free.drop t.next
  scopes := t.scopes.map (List.map p.nth)

theorem serve_pop : (p.serve t).pop = (t.pop.1.map p.nth, p.serve t.pop.2) := by
  obtain ⟨next, free, scopes⟩ := t
  cases scopes <;> rfl

theorem hold_map (n : Nat) (scopes : List (List Nat)) :
    Temps.hold (p.nth n) (scopes.map (List.map p.nth)) =
      (Temps.hold n scopes).map (List.map p.nth) := by
  cases scopes <;> simp [Temps.hold]

theorem serve_allocate :
    (p.serve t).allocate = (p.nth t.allocate.1, p.serve t.allocate.2) := by
  obtain ⟨next, free, scopes⟩ := t
  cases free with
  | cons n free => simp [Temps.allocate, serve, hold_map]
  | nil =>
    rcases Nat.lt_or_ge next p.free.length with hlt | hge
    · have hdrop : p.free.drop next = p.nth next :: p.free.drop (next + 1) := by
        rw [p.nth_of_lt hlt, List.drop_eq_getElem_cons hlt]
      have hnext : next + 1 - p.free.length = next - p.free.length := by omega
      simp [Temps.allocate, serve, hold_map, hdrop, hnext]
    · have hdrop : p.free.drop next = [] := List.drop_eq_nil_of_le hge
      have hdrop' : p.free.drop (next + 1) = [] := List.drop_eq_nil_of_le (by omega)
      have hnext : p.next + (next - p.free.length) = p.nth next := (p.nth_of_le hge).symm
      have hsucc : p.next + (next + 1 - p.free.length) = p.nth next + 1 := by
        rw [← hnext]
        omega
      simp [Temps.allocate, serve, ← hold_map, hdrop, hdrop', hnext, hsucc]

theorem insertAscending_map {ms rest : List Nat} (h : ∀ m ∈ rest, p.nth k < m) :
    Temps.insertAscending (p.nth k) (ms.map p.nth ++ rest) =
      (Temps.insertAscending k ms).map p.nth ++ rest := by
  induction ms with
  | nil =>
    cases rest with
    | nil => rfl
    | cons m rest => simp [Temps.insertAscending, h m]
  | cons m ms ih =>
    simp only [List.map_cons, List.cons_append, Temps.insertAscending, p.strictMono_nth.lt_iff_lt,
      p.strictMono_nth.injective.eq_iff, ih]
    split
    · rfl
    · split <;> rfl

/-- What has been handed out is below what is still there. -/
theorem lt_of_mem_drop (hk : k < t.next) : ∀ m ∈ p.free.drop t.next, p.nth k < m := by
  intro m hm
  obtain ⟨i, hi, rfl⟩ := List.mem_iff_getElem.mp hm
  rw [List.getElem_drop, ← p.nth_of_lt]
  exact p.strictMono_nth (by omega)

theorem serve_release (h : t.Ordered) :
    ((p.serve t).release (p.nth k)).2 = p.serve (t.release k).2 := by
  obtain ⟨next, free, scopes⟩ := t
  cases scopes with
  | nil => rfl
  | cons held scopes =>
    have hmem : p.nth k ∈ held.map p.nth ↔ k ∈ held :=
      List.mem_map_of_injective p.strictMono_nth.injective
    simp only [Temps.release, serve, List.map_cons, hmem]
    split
    case isTrue hk =>
      have hlt := p.lt_of_mem_drop (t := ⟨next, free, held :: scopes⟩)
        (h.held_lt held List.mem_cons_self k hk)
      simp only [p.insertAscending_map hlt, List.map_cons,
        List.map_erase p.strictMono_nth.injective]
    case isFalse => rfl

theorem serve_initial : initial.serve t = t := by
  have hfree : initial.free = [] := rfl
  have hnext : initial.next = 0 := rfl
  simp [serve, nth_initial, hfree, hnext]

end Supply

/-- An allocator is a new one that is served from its supply. -/
theorem Temps.Ordered.serve_default {t : Temps} (h : t.Ordered) (hscopes : t.scopes = []) :
    h.supply.serve {} = t := by
  obtain ⟨next, free, scopes⟩ := t
  cases hscopes
  simp [Supply.serve, supply]

/-! ### Accounts -/

namespace Account

/-- The account `b` is `a`, but its temporaries draw on the supply `p`. What has been reported is
left aside. -/
structure Mirrors (p : Supply) (a b : Account) : Prop where
  temps : b.temps = p.serve a.temps
  used : b.used = a.used

namespace Mirrors

variable {p : Supply} {a b : Account}

theorem report (h : Mirrors p a b) (r r' : Option Range) (m m' : Message) :
    Mirrors p (a.report r m) (b.report r' m') :=
  ⟨h.temps, h.used⟩

theorem withUsed (h : Mirrors p a b) (used : Bool) :
    Mirrors p (a.withUsed used) (b.withUsed used) :=
  ⟨h.temps, rfl⟩

theorem openScope (h : Mirrors p a b) : Mirrors p a.openScope b.openScope :=
  ⟨by rw [Account.openScope, h.temps]; rfl, h.used⟩

/-- What is held is renumbered. -/
theorem held_eq (h : Mirrors p a b) : b.held = a.held.map p.nth := by
  rw [Account.held, h.temps, p.serve_pop]
  rfl

theorem closeScope (h : Mirrors p a b) : Mirrors p a.closeScope b.closeScope :=
  ⟨by rw [Account.closeScope, h.temps, p.serve_pop]; rfl, h.used⟩

/-- The next number is renumbered. -/
theorem fresh_eq (h : Mirrors p a b) : b.fresh = p.nth a.fresh := by
  rw [Account.fresh, h.temps, p.serve_allocate]
  rfl

theorem allocate (h : Mirrors p a b) : Mirrors p a.allocate b.allocate :=
  ⟨by rw [Account.allocate, h.temps, p.serve_allocate]; rfl, h.used⟩

theorem release (h : Mirrors p a b) (ordered : a.temps.Ordered) (n : Nat) :
    Mirrors p (a.release n) (b.release (p.nth n)) :=
  ⟨by rw [Account.release, h.temps, p.serve_release ordered]; rfl, h.used⟩

theorem initial (a : Account) : Mirrors .initial a a :=
  ⟨Supply.serve_initial.symm, rfl⟩

end Mirrors

end Account

end Declass
