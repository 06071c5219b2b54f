import Declass.Proofs.Allocation
import Declass.Proofs.Supply

/-!
# Histories of temporaries

What scopes hold and which numbers are free can be read off from what has been answered so far: a
scope holds what was handed out while it was innermost and has not been taken back, and a number is
free if it was taken back and has not been handed out since. The laws of the allocation are stated
in these terms, for each answer against the answers before it. They hold in every history that
starts with nothing.

Names are read as numbers with 32 bits, so the laws are about histories that draw fewer numbers than
that.

## Main definitions

* `Temps.Request`, `Temps.Event`, `Temps.handle` — what is asked and what comes of it
* `Temps.holdings`, `Temps.Released`, `Temps.Gone` — what a history says about names and numbers
* `Temps.Lawful` — the law for one answer
* `Temps.Kept` — the invariant that ties the state to the history

## Main results

* `Temps.Kept.handle`, `Temps.kept_history` — each answer keeps the invariant, and so does a history
* `Temps.Kept.lawful` — an answer given while the invariant holds is lawful
* `Temps.history_lawful` — the laws of the allocation
-/

namespace Declass.Temps

/-! ### Names that are read back -/

theorem decimal?_toDigits (n : Nat) : Text.decimal? (Nat.toDigits 10 n) = some n := by
  have hempty : (Nat.toDigits 10 n).isEmpty = false := by
    simp [List.isEmpty_eq_false_iff, Nat.toDigits_ne_nil]
  have hdigits : (Nat.toDigits 10 n).all Char.isDigit = true :=
    List.all_eq_true.mpr fun c hc => Nat.isDigit_of_mem_toDigits (by decide) (by decide) hc
  rw [Text.decimal?, hempty, hdigits]
  exact congrArg some Nat.ofDigitChars_ten_toDigits

theorem unsigned?_toDigits (n : Nat) : Text.unsigned? (Nat.toDigits 10 n) = some n := by
  rw [← decimal?_toDigits n, Text.unsigned?.eq_2]
  intro digits hplus
  have hdigit := Nat.isDigit_of_mem_toDigits (b := 10) (n := n) (c := '+') (by decide) (by decide)
    (by rw [hplus]; exact List.mem_cons_self)
  exact absurd hdigit (by decide)

/-- The name of a number with 32 bits is read as that number. -/
theorem number?_name {n : Nat} (h : n < UInt32.size) : number? (name n) = some n := by
  have hlist : (name n).toList = '$' :: '_' :: '_' :: Nat.toDigits 10 n := by
    simp [name]
  simp [number?, hlist, unsigned?_toDigits, h]

/-! ### Requests -/

/-- What may be asked of the temporaries. -/
inductive Request where
  | push
  | pop
  | allocate
  | release (name : String)
  deriving DecidableEq, Repr

/-- What has come of a request. -/
inductive Event where
  | opened
  | closed (names : List String)
  | issued (name : String)
  | returned (name : String) (accepted : Bool)
  deriving DecidableEq, Repr

/-- The request that an event answers. -/
def Event.request : Event → Request
  | .opened => .push
  | .closed _ => .pop
  | .issued _ => .allocate
  | .returned name _ => .release name

/-- Answer a request. -/
def handle (t : Temps) : Request → Event × Temps
  | .push => (.opened, t.push)
  | .pop => (.closed (t.pop.1.map name), t.pop.2)
  | .allocate => (.issued (name t.allocate.1), t.allocate.2)
  | .release x => (.returned x (t.releaseNamed x).1, (t.releaseNamed x).2)

theorem request_handle (t : Temps) (request : Request) :
    (t.handle request).1.request = request := by
  cases request <;> rfl

/-! ### What a history says -/

/-- Whether an event takes the temporary `x` back. A number may be spelled in several ways. -/
def Event.takesBack (x : String) : Event → Bool
  | .returned y true => (number? y).map name = some x
  | _ => false

/-- The names that are handed out and not taken back later, in order. -/
def standing : List Event → List String
  | [] => []
  | .issued x :: later => if later.any (·.takesBack x) then standing later else x :: standing later
  | _ :: later => standing later

/-- The events of the open scopes, innermost scope first, after one more event. -/
def place (scopes : List (List Event)) : Event → List (List Event)
  | .opened => [] :: scopes
  | .closed _ => scopes.tail
  | event => scopes.modifyHead (· ++ [event])

/-- The open scopes, innermost scope first, each with the events while it was innermost. -/
def openScopes (past : List Event) : List (List Event) :=
  past.foldl place []

/-- The names that the open scopes hold, innermost scope first. -/
def holdings (past : List Event) : List (List String) :=
  (openScopes past).map standing

/-- The number has been taken back and not been handed out since. -/
def Released (past : List Event) (n : Nat) : Prop :=
  ∃ before x after, past = before ++ .returned x true :: after ∧ number? x = some n ∧
    .issued (name n) ∉ after

/-- The name was held by a scope when it was closed, or was handed out while no scope was open. -/
def Gone (past : List Event) (x : String) : Prop :=
  (∃ names, .closed names ∈ past ∧ x ∈ names) ∨
    ∃ before after, past = before ++ .issued x :: after ∧ openScopes before = []

/-- What may come next. A scope that is closed gives the names that it holds. A name that is handed
out is not held by any open scope and not gone; its number is the lowest one that has been given
back, if there is one. A name that was handed out is taken back iff the innermost scope holds it,
and then that scope holds its other names as before. -/
def Lawful (past : List Event) : Event → Prop
  | .opened => True
  | .closed names => names = (holdings past).headD []
  | .issued x =>
    (∀ names ∈ holdings past, x ∉ names) ∧ ¬ Gone past x ∧
      ∃ n, x = name n ∧ ∀ m, Released past m → Released past n ∧ n ≤ m
  | .returned x accepted =>
    .issued x ∈ past →
      (accepted = true ↔ x ∈ (holdings past).headD []) ∧
        holdings (past ++ [.returned x accepted]) =
          if accepted then (holdings past).modifyHead (·.filter (· ≠ x)) else holdings past

section Snoc

variable {past : List Event} {event : Event}

theorem standing_snoc (own : List Event) (event : Event) :
    standing (own ++ [event]) =
      (standing own).filter (fun x => !event.takesBack x) ++ standing [event] := by
  induction own with
  | nil => rfl
  | cons first own ih =>
    cases first with
    | issued x =>
      rw [List.cons_append, standing, standing, List.any_append, ih]
      cases own.any (·.takesBack x) <;> cases h : event.takesBack x <;> simp [h]
    | opened | closed | returned => exact ih

theorem openScopes_snoc : openScopes (past ++ [event]) = place (openScopes past) event := by
  simp [openScopes]

theorem holdings_opened : holdings (past ++ [.opened]) = [] :: holdings past := by
  rw [holdings, openScopes_snoc]
  rfl

theorem holdings_closed {names : List String} :
    holdings (past ++ [.closed names]) = (holdings past).tail := by
  rw [holdings, openScopes_snoc, holdings, place, List.map_tail]

theorem holdings_issued {x : String} :
    holdings (past ++ [.issued x]) = (holdings past).modifyHead (· ++ [x]) := by
  rw [holdings, openScopes_snoc, holdings]
  cases openScopes past <;> simp [place, standing_snoc, standing, Event.takesBack]

theorem holdings_returned {x : String} {accepted : Bool} :
    holdings (past ++ [.returned x accepted]) = (holdings past).modifyHead
      (·.filter fun y => !(Event.returned x accepted).takesBack y) := by
  rw [holdings, openScopes_snoc, holdings]
  cases openScopes past <;> simp [place, standing_snoc, standing]

theorem released_snoc {n : Nat} :
    Released (past ++ [event]) n ↔
      (∃ x, event = .returned x true ∧ number? x = some n) ∨
        Released past n ∧ event ≠ .issued (name n) := by
  constructor
  · rintro ⟨before, x, after, hsplit, hx, hafter⟩
    rcases snoc_eq_append_cons_iff.mp hsplit with ⟨-, rfl, -⟩ | ⟨rest, rfl, rfl⟩
    · exact .inl ⟨x, rfl, hx⟩
    · obtain ⟨hrest, hlast⟩ := not_or.mp (mt List.mem_append.mpr hafter)
      exact .inr ⟨⟨before, x, rest, rfl, hx, hrest⟩, fun h => hlast (h ▸ List.mem_singleton_self _)⟩
  · rintro (⟨x, rfl, hx⟩ | ⟨⟨before, x, after, rfl, hx, hafter⟩, hne⟩)
    · exact ⟨past, x, [], rfl, hx, List.not_mem_nil⟩
    · refine ⟨before, x, after ++ [event], by simp, hx, fun h => ?_⟩
      rcases List.mem_append.mp h with h | h
      · exact hafter h
      · exact hne (List.mem_singleton.mp h).symm

theorem gone_snoc {x : String} :
    Gone (past ++ [event]) x ↔
      Gone past x ∨ (∃ names, event = .closed names ∧ x ∈ names) ∨
        event = .issued x ∧ openScopes past = [] := by
  constructor
  · rintro (⟨names, hmem, hx⟩ | ⟨before, after, hsplit, hopen⟩)
    · rcases List.mem_append.mp hmem with hmem | hmem
      · exact .inl (.inl ⟨names, hmem, hx⟩)
      · exact .inr (.inl ⟨names, (List.mem_singleton.mp hmem).symm, hx⟩)
    · rcases snoc_eq_append_cons_iff.mp hsplit with ⟨rfl, rfl, -⟩ | ⟨rest, rfl, -⟩
      · exact .inr (.inr ⟨rfl, hopen⟩)
      · exact .inl (.inr ⟨before, rest, rfl, hopen⟩)
  · rintro ((⟨names, hmem, hx⟩ | ⟨before, after, rfl, hopen⟩) | ⟨names, rfl, hx⟩ | ⟨rfl, hopen⟩)
    · exact .inl ⟨names, List.mem_append_left _ hmem, hx⟩
    · exact .inr ⟨before, after ++ [event], by simp, hopen⟩
    · exact .inl ⟨names, by simp, hx⟩
    · exact .inr ⟨past, [], rfl, hopen⟩

end Snoc

/-! ### Parts of the state -/

variable {past : List Event} {t : Temps} {m n : Nat}

theorem Ordered.sound (h : t.Ordered) : t.Sound :=
  ⟨h.ascending.imp Nat.ne_of_lt, h.free_lt⟩

theorem scopes_allocate (t : Temps) : t.allocate.2.scopes = hold t.allocate.1 t.scopes := by
  unfold allocate
  split <;> rfl

theorem mem_free_allocate (h : t.Ordered) :
    n ∈ t.allocate.2.free ↔ n ∈ t.free ∧ n ≠ t.allocate.1 := by
  have hsound := h.sound
  unfold allocate
  split
  case h_1 number free heq =>
    have hnodup := hsound.nodup
    rw [heq] at hnodup ⊢
    have hnumber := (List.nodup_cons.mp hnodup).1
    grind
  case h_2 heq => simp [heq]

/-- A number that has been given back is handed out first, and the lowest one before the others. -/
theorem Ordered.allocate_le (h : t.Ordered) (hm : m ∈ t.free) :
    t.allocate.1 ∈ t.free ∧ t.allocate.1 ≤ m := by
  have hascending := h.ascending
  unfold Temps.allocate
  split
  case h_1 number free heq =>
    rw [heq] at hascending hm ⊢
    refine ⟨List.mem_cons_self, ?_⟩
    rcases List.mem_cons.mp hm with rfl | hm
    · exact le_rfl
    · exact (List.rel_of_pairwise_cons hascending hm).le
  case h_2 heq => simp [heq] at hm

theorem mem_flatten_hold {scopes : List (List Nat)} (h : m ∈ (hold n scopes).flatten) :
    m = n ∨ m ∈ scopes.flatten := by
  cases scopes with
  | nil => simp [hold] at h
  | cons held scopes =>
    simp only [hold, List.flatten_cons, List.mem_append, List.mem_singleton] at h ⊢
    tauto

theorem nodup_flatten_hold {scopes : List (List Nat)} (h : scopes.flatten.Nodup)
    (hn : n ∉ scopes.flatten) : (hold n scopes).flatten.Nodup := by
  cases scopes with
  | nil => exact h
  | cons held scopes =>
    have hperm : (hold n (held :: scopes)).flatten.Perm (n :: (held :: scopes).flatten) := by
      simp [hold, List.perm_middle]
    exact hperm.nodup_iff.mpr (List.nodup_cons.mpr ⟨hn, h⟩)

theorem map_hold (n : Nat) (scopes : List (List Nat)) :
    (hold n scopes).map (List.map name) =
      (scopes.map (List.map name)).modifyHead (· ++ [name n]) := by
  cases scopes <;> simp [hold]

theorem release_of_mem {held : List Nat} {rest : List (List Nat)}
    (hscopes : t.scopes = held :: rest) (hn : n ∈ held) :
    t.release n = (true, { t with
      free := insertAscending n t.free
      scopes := held.erase n :: rest }) := by
  simp [release, hscopes, hn]

theorem next_le_release (t : Temps) (n : Nat) : t.next ≤ (t.release n).2.next := by
  unfold release
  split
  · split <;> rfl
  · rfl

theorem next_le_allocate (t : Temps) : t.next ≤ t.allocate.2.next := by
  unfold allocate
  split
  · exact le_rfl
  · exact Nat.le_succ _

theorem next_le_handle (t : Temps) (request : Request) : t.next ≤ (t.handle request).2.next := by
  cases request with
  | push => exact le_rfl
  | pop =>
    simp only [handle, pop]
    split <;> rfl
  | allocate => exact t.next_le_allocate
  | release x =>
    simp only [handle, releaseNamed]
    split
    · exact t.next_le_release _
    · exact le_rfl

/-! ### The invariant -/

/-- The state is the one that the history says. -/
structure Kept (past : List Event) (t : Temps) : Prop where
  ordered : t.Ordered
  nodup : t.scopes.flatten.Nodup
  inUse : ∀ n ∈ t.scopes.flatten, t.InUse n
  held : t.scopes.map (List.map name) = holdings past
  free : ∀ n, n ∈ t.free ↔ Released past n
  gone : ∀ n, Gone past (name n) → t.InUse n ∧ n ∉ t.scopes.flatten
  issued : ∀ x, .issued x ∈ past → ∃ n < t.next, x = name n

theorem kept_nil : Kept [] {} where
  ordered := ordered_default
  nodup := List.nodup_nil
  inUse := List.forall_mem_nil _
  held := rfl
  free n := by simp [Released]
  gone n := by simp [Gone]
  issued := by simp

namespace Kept

variable (h : Kept past t)

include h

theorem scopes_eq_nil (hopen : openScopes past = []) : t.scopes = [] := by
  have hheld := h.held
  rw [holdings, hopen, List.map_nil] at hheld
  exact List.map_eq_nil_iff.mp hheld

theorem push : Kept (past ++ [.opened]) t.push where
  ordered := h.ordered.push
  nodup := h.nodup
  inUse := h.inUse
  held := by
    rw [holdings_opened, ← h.held]
    rfl
  free n := by
    rw [released_snoc, ← h.free]
    simp [Temps.push]
  gone n hgone := h.gone n (by simpa [gone_snoc] using hgone)
  issued x hx := h.issued x (by simpa using hx)

theorem pop : Kept (past ++ [.closed (t.pop.1.map name)]) t.pop.2 := by
  have hfree : t.pop.2.free = t.free := by
    unfold Temps.pop
    split <;> rfl
  have hnext : t.pop.2.next = t.next := by
    unfold Temps.pop
    split <;> rfl
  have hflatten : t.scopes.flatten = t.pop.1 ++ t.pop.2.scopes.flatten := by
    unfold Temps.pop
    split <;> simp [*]
  have hinUse (n : Nat) : t.pop.2.InUse n ↔ t.InUse n := by rw [InUse, InUse, hfree, hnext]
  have hnodup := h.nodup
  rw [hflatten, List.nodup_append] at hnodup
  have hkept := h.inUse
  rw [hflatten, List.forall_mem_append] at hkept
  refine { ordered := h.ordered.pop, nodup := hnodup.2.1
           inUse := fun n hn => (hinUse n).mpr (hkept.2 n hn), held := ?held
           free := fun n => ?free, gone := fun n hgone => ?gone, issued := fun x hx => ?issued }
  case held =>
    rw [holdings_closed, ← h.held]
    unfold Temps.pop
    split <;> simp [*]
  case free =>
    rw [released_snoc, hfree, h.free]
    simp
  case gone =>
    rw [hinUse]
    rcases gone_snoc.mp hgone with hgone | ⟨names, heq, hname⟩ | ⟨heq, -⟩
    · obtain ⟨huse, hn⟩ := h.gone n hgone
      rw [hflatten] at hn
      exact ⟨huse, fun hmem => hn (List.mem_append_right _ hmem)⟩
    · obtain rfl := Event.closed.inj heq
      have hn := (List.mem_map_of_injective name_injective).mp hname
      exact ⟨hkept.1 n hn, fun hmem => hnodup.2.2 n hn n hmem rfl⟩
    · cases heq
  case issued =>
    obtain ⟨n, hn, rfl⟩ := h.issued x (by simpa using hx)
    exact ⟨n, hnext ▸ hn, rfl⟩

theorem allocate : Kept (past ++ [.issued (name t.allocate.1)]) t.allocate.2 := by
  have hnot := t.not_inUse_allocate
  have hinUse (n : Nat) : t.allocate.2.InUse n ↔ t.InUse n ∨ n = t.allocate.1 :=
    inUse_allocate_iff h.ordered.sound
  refine { ordered := h.ordered.allocate, nodup := ?nodup, inUse := fun n hn => ?inUse
           held := ?held, free := fun n => ?free, gone := fun n hgone => ?gone
           issued := fun x hx => ?issued }
  case nodup =>
    rw [scopes_allocate]
    exact nodup_flatten_hold h.nodup fun hmem => hnot (h.inUse _ hmem)
  case inUse =>
    rw [scopes_allocate] at hn
    rcases mem_flatten_hold hn with rfl | hn
    · exact (hinUse _).mpr (.inr rfl)
    · exact (hinUse n).mpr (.inl (h.inUse n hn))
  case held => rw [scopes_allocate, map_hold, h.held, holdings_issued]
  case free =>
    rw [released_snoc, mem_free_allocate h.ordered, h.free]
    simp [name_injective.eq_iff, eq_comm]
  case gone =>
    rw [hinUse, scopes_allocate]
    rcases gone_snoc.mp hgone with hgone | ⟨names, heq, -⟩ | ⟨heq, hopen⟩
    · obtain ⟨huse, hn⟩ := h.gone n hgone
      refine ⟨.inl huse, fun hmem => ?_⟩
      rcases mem_flatten_hold hmem with rfl | hmem
      · exact hnot huse
      · exact hn hmem
    · cases heq
    · obtain rfl := name_injective (Event.issued.inj heq)
      rw [h.scopes_eq_nil hopen]
      exact ⟨.inr rfl, List.not_mem_nil⟩
  case issued =>
    rcases List.mem_append.mp hx with hx | hx
    · obtain ⟨n, hn, rfl⟩ := h.issued x hx
      exact ⟨n, hn.trans_le t.next_le_allocate, rfl⟩
    · obtain rfl := Event.issued.inj (List.mem_singleton.mp hx)
      exact ⟨_, ((hinUse _).mpr (.inr rfl)).1, rfl⟩

/-- Nothing changes when a name is not taken back. -/
theorem reject (x : String) : Kept (past ++ [.returned x false]) t where
  ordered := h.ordered
  nodup := h.nodup
  inUse := h.inUse
  held := by
    rw [holdings_returned, ← h.held]
    cases t.scopes <;> simp [Event.takesBack]
  free n := by
    rw [released_snoc, ← h.free]
    simp
  gone n hgone := h.gone n (by simpa [gone_snoc] using hgone)
  issued x hx := h.issued x (by simpa using hx)

theorem accept {held : List Nat} {rest : List (List Nat)} {x : String}
    (hscopes : t.scopes = held :: rest) (hn : n ∈ held) (hx : number? x = some n) :
    Kept (past ++ [.returned x true]) (t.release n).2 := by
  have hmem : n ∈ t.scopes.flatten := by
    rw [hscopes]
    exact List.mem_append_left _ hn
  have hinUse (m : Nat) : (t.release n).2.InUse m ↔ t.InUse m ∧ m ≠ n :=
    inUse_release_iff (h.inUse n hmem) hscopes hn
  have hnodup := h.nodup
  have hheld := h.held
  rw [hscopes] at hnodup hheld
  have hdistinct : held.Nodup := (List.nodup_append.mp hnodup).1
  have hsublist : (held.erase n :: rest).flatten.Sublist (held :: rest).flatten :=
    List.erase_sublist.append_right _
  -- The number that is given back is held once, so it is not held any more.
  have hgone : n ∉ (held.erase n :: rest).flatten := by
    rw [List.flatten_cons, List.mem_append, not_or]
    exact ⟨hdistinct.not_mem_erase, fun hrest => (List.nodup_append.mp hnodup).2.2 n hn n hrest rfl⟩
  have hscopes' : (t.release n).2.scopes = held.erase n :: rest := by
    rw [release_of_mem hscopes hn]
  refine { ordered := h.ordered.release n, nodup := ?nodup, inUse := fun m hm => ?inUse
           held := ?held, free := fun m => ?free, gone := fun m hm => ?gone
           issued := fun y hy => ?issued }
  case nodup =>
    rw [hscopes']
    exact hnodup.sublist hsublist
  case inUse =>
    rw [hscopes'] at hm
    have hold := h.inUse m (hscopes ▸ hsublist.subset hm)
    exact (hinUse m).mpr ⟨hold, fun heq => hgone (heq ▸ hm)⟩
  case held =>
    rw [hscopes', holdings_returned, ← hheld]
    simp only [List.map_cons, List.modifyHead_cons, hdistinct.erase_eq_filter, List.filter_map]
    congr 3
    funext m
    simp [Event.takesBack, hx, name_injective.eq_iff, bne, beq_eq_decide, eq_comm]
  case free =>
    rw [released_snoc, ← h.free, release_of_mem hscopes hn]
    simp [mem_insertAscending, hx, eq_comm]
  case gone =>
    obtain ⟨huse, hnot⟩ := h.gone m (by simpa [gone_snoc] using hm)
    rw [hinUse, hscopes']
    refine ⟨⟨huse, fun heq => hnot (heq ▸ hmem)⟩, fun hin => ?_⟩
    exact hnot (hscopes ▸ hsublist.subset hin)
  case issued =>
    obtain ⟨m, hm, rfl⟩ := h.issued y (by simpa using hy)
    exact ⟨m, hm.trans_le (t.next_le_release n), rfl⟩

theorem release (x : String) :
    Kept (past ++ [.returned x (t.releaseNamed x).1]) (t.releaseNamed x).2 := by
  unfold releaseNamed
  split
  case h_1 n hx =>
    by_cases hheld : ∃ held rest, t.scopes = held :: rest ∧ n ∈ held
    · obtain ⟨held, rest, hscopes, hn⟩ := hheld
      have haccept := h.accept hscopes hn hx
      rwa [release_of_mem hscopes hn] at haccept ⊢
    · have hreject : t.release n = (false, t) := by
        unfold Temps.release
        split
        case h_1 held rest hscopes => exact if_neg fun hn => hheld ⟨held, rest, hscopes, hn⟩
        case h_2 => rfl
      rw [hreject]
      exact h.reject x
  case h_2 => exact h.reject x

/-- **Each answer keeps the invariant.** -/
theorem handle (request : Request) :
    Kept (past ++ [(t.handle request).1]) (t.handle request).2 := by
  cases request with
  | push => exact h.push
  | pop => exact h.pop
  | allocate => exact h.allocate
  | release x => exact h.release x

/-! ### Lawful answers -/

theorem headD_holdings : (holdings past).headD [] = t.pop.1.map name := by
  rw [← h.held, Temps.pop]
  cases t.scopes <;> rfl

theorem lawful_allocate : Lawful past (.issued (name t.allocate.1)) := by
  have hnot := t.not_inUse_allocate
  refine ⟨fun names hnames hmem => ?_, fun hgone => hnot (h.gone _ hgone).1, _, rfl, fun m hm => ?_⟩
  · rw [← h.held] at hnames
    obtain ⟨held, hheld, rfl⟩ := List.mem_map.mp hnames
    have hn := (List.mem_map_of_injective name_injective).mp hmem
    exact hnot (h.inUse _ (List.mem_flatten_of_mem hheld hn))
  · rw [← h.free] at hm ⊢
    exact h.ordered.allocate_le hm

theorem lawful_release (few : t.next < UInt32.size) (x : String) :
    Lawful past (.returned x (t.releaseNamed x).1) := by
  intro hissued
  obtain ⟨n, hn, rfl⟩ := h.issued x hissued
  have hx : number? (name n) = some n := number?_name (hn.trans few)
  have haccepted : (t.releaseNamed (name n)).1 = true ↔ n ∈ t.pop.1 := by
    rw [releaseNamed, hx]
    simp only [Temps.release, Temps.pop]
    cases t.scopes with
    | nil => simp
    | cons held rest => by_cases hmem : n ∈ held <;> simp [hmem]
  refine ⟨?_, ?_⟩
  · rw [haccepted, h.headD_holdings, List.mem_map_of_injective name_injective]
  · rw [holdings_returned]
    cases (t.releaseNamed (name n)).1 with
    | false => cases holdings past <;> simp [Event.takesBack]
    | true => simp [Event.takesBack, hx, eq_comm]

/-- **An answer given while the invariant holds is lawful.** -/
theorem lawful (few : t.next < UInt32.size) (request : Request) :
    Lawful past (t.handle request).1 := by
  cases request with
  | push => exact trivial
  | pop => exact h.headD_holdings.symm
  | allocate => exact h.lawful_allocate
  | release x => exact h.lawful_release few x

end Kept

/-! ### Whole histories -/

theorem request_history (t : Temps) (requests : List Request) :
    (history Temps.handle t requests).1.map Event.request = requests := by
  induction requests generalizing t with
  | nil => rfl
  | cons request requests ih => simp [history, ih, request_handle]

/-- **A history keeps the invariant and is lawful.** The numbers drawn never get fewer, so if there
are not too many in the end, there never were. -/
theorem kept_history (requests : List Request) :
    Kept (history Temps.handle {} requests).1 (history Temps.handle {} requests).2 ∧
      ((history Temps.handle {} requests).2.next < UInt32.size →
        Throughout Lawful (history Temps.handle {} requests).1) := by
  refine history_induction (P := fun past t => Kept past t ∧
    (t.next < UInt32.size → Throughout Lawful past)) ⟨kept_nil, fun _ => throughout_nil _⟩ ?_
    requests
  rintro past t request ⟨hkept, hlawful⟩
  refine ⟨hkept.handle request, fun few => ?_⟩
  have few' := (t.next_le_handle request).trans_lt few
  exact (hlawful few').snoc (hkept.lawful few' request)

/-- **The laws of the allocation.** In every history that starts with nothing and draws fewer than
`2 ^ 32` numbers, the numbers that the open scopes hold differ from each other, have been drawn and
are not free. The state is what the history says, and every answer is lawful. -/
theorem history_lawful (requests : List Request)
    (few : (history Temps.handle {} requests).2.next < UInt32.size) :
    let events := (history Temps.handle {} requests).1
    let t := (history Temps.handle {} requests).2
    events.map Event.request = requests ∧
      (t.scopes.flatten.Nodup ∧ t.scopes.flatten.Disjoint t.free ∧
        ∀ n ∈ t.scopes.flatten, n < t.next) ∧
      (t.scopes.map (List.map name) = holdings events ∧ ∀ n, n ∈ t.free ↔ Released events n) ∧
      Throughout Lawful events := by
  obtain ⟨hkept, hlawful⟩ := kept_history requests
  exact ⟨request_history _ _, ⟨hkept.nodup, fun n hheld => (hkept.inUse n hheld).2,
    fun n hheld => (hkept.inUse n hheld).1⟩, ⟨hkept.held, hkept.free⟩, hlawful few⟩

/-- A name of an outer scope is not taken back, another spelling of the name is, and what was given
back is handed out again. What a closed scope held is not. -/
theorem history_lawful_nested :
    let requests : List Request := [.push, .allocate, .allocate, .push, .allocate,
      .release "$__0", .pop, .release "$__00", .allocate, .release "$__2", .pop, .allocate]
    let events : List Event := [.opened, .issued "$__0", .issued "$__1", .opened, .issued "$__2",
      .returned "$__0" false, .closed ["$__2"], .returned "$__00" true, .issued "$__0",
      .returned "$__2" false, .closed ["$__1", "$__0"], .issued "$__3"]
    (history Temps.handle {} requests).2.next < UInt32.size ∧
      (history Temps.handle {} requests).1 = events ∧ Throughout Lawful events := by
  intro requests events
  have few : (history Temps.handle {} requests).2.next < UInt32.size := by decide +kernel
  have hevents : (history Temps.handle {} requests).1 = events := by decide +kernel
  exact ⟨few, hevents, hevents ▸ (history_lawful requests few).2.2.2⟩

end Declass.Temps
