import Declass.Proofs.Resolving

/-!
# The allocation of temporaries

A number is in use from when it is handed out until it is given back. A number that is in use is not
handed out again, so what is handed out and kept in one part of a run differs from what is in use
before it and from what is handed out and kept in the next part. `Account.Ledger` says this of a
part of a run. It tells the numbers that the innermost scope has come to hold from those whose
scopes were opened and closed on the way.

## Main definitions

* `Temps.InUse`, `Temps.Sound`
* `Account.Ledger` — the numbers that have been handed out and kept

## Main results

* `Account.Ledger.trans`, `Account.Ledger.allocate`, `Account.Ledger.release`,
  `Account.Ledger.close` — one part of a run after another, and each step that there is
-/

namespace Declass

namespace Temps

/-- Temporaries are told apart by their names. -/
theorem name_injective : Function.Injective name := by
  intro m n h
  have hdigits : (toString m).toList = (toString n).toList := by
    have hlist := congrArg String.toList h
    rw [name, name, String.toList_append, String.toList_append] at hlist
    exact List.append_cancel_left hlist
  have hnumber := congrArg (Nat.ofDigitChars 10 · 0) hdigits
  simpa [Nat.toString_eq_ofList_toDigits] using hnumber

/-- A number that has been handed out and not been given back. -/
def InUse (t : Temps) (n : Nat) : Prop :=
  n < t.next ∧ n ∉ t.free

/-- The numbers given back differ from each other, and all of them have been handed out. -/
structure Sound (t : Temps) : Prop where
  nodup : t.free.Nodup
  lt_next : ∀ n ∈ t.free, n < t.next

theorem sound_default : ({} : Temps).Sound :=
  ⟨List.nodup_nil, List.forall_mem_nil _⟩

theorem insertAscending_perm {n : Nat} {ms : List Nat} (h : n ∉ ms) :
    (insertAscending n ms).Perm (n :: ms) := by
  induction ms with
  | nil => exact .refl _
  | cons m ms ih =>
    obtain ⟨hne, hms⟩ := not_or.mp (mt List.mem_cons.mpr h)
    rw [insertAscending, if_neg hne]
    split
    · exact .refl _
    · exact ((ih hms).cons m).trans (.swap n m ms)

variable {t : Temps} {m n : Nat}

/-! ### Handing out -/

theorem Sound.allocate (h : t.Sound) : t.allocate.2.Sound := by
  obtain ⟨hnodup, hlt⟩ := h
  rw [Temps.allocate]
  split
  case h_1 number free hfree =>
    rw [hfree] at hnodup hlt
    exact ⟨hnodup.of_cons, (List.forall_mem_cons.mp hlt).2⟩
  case h_2 hfree => exact ⟨hnodup, fun n hn => Nat.lt_succ_of_lt (hlt n hn)⟩

/-- The next number is not in use. -/
theorem not_inUse_allocate (t : Temps) : ¬ t.InUse t.allocate.1 := by
  rintro ⟨hlt, hmem⟩
  rw [Temps.allocate] at hlt hmem
  split at hlt
  case h_1 hfree => simp [hfree] at hmem
  case h_2 => exact hlt.false

/-- An allocation brings one number into use. -/
theorem inUse_allocate_iff (h : t.Sound) :
    t.allocate.2.InUse n ↔ t.InUse n ∨ n = t.allocate.1 := by
  obtain ⟨hnodup, hlt⟩ := h
  rw [Temps.allocate]
  split
  case h_1 number free hfree =>
    rw [hfree] at hnodup hlt
    have hnumber := (List.nodup_cons.mp hnodup).1
    have hnext := hlt number List.mem_cons_self
    simp only [InUse, hfree, List.mem_cons, not_or]
    by_cases heq : n = number
    · simp [heq, hnumber, hnext]
    · simp [heq]
  case h_2 hfree =>
    simp only [InUse, hfree, List.not_mem_nil, not_false_eq_true, and_true]
    omega

/-! ### Giving back -/

/-- What is given back is free. -/
theorem free_release_perm (hn : n ∉ t.free) {held : List Nat} {rest : List (List Nat)}
    (hscopes : t.scopes = held :: rest) (hheld : n ∈ held) :
    (t.release n).2.free.Perm (n :: t.free) ∧ (t.release n).2.next = t.next := by
  rw [release, hscopes]
  simp only [hheld, if_true, and_true]
  exact insertAscending_perm hn

variable (h : t.Sound) (hn : t.InUse n) {held : List Nat} {rest : List (List Nat)}
  (hscopes : t.scopes = held :: rest) (hheld : n ∈ held)

include h hn hscopes hheld

theorem Sound.release : (t.release n).2.Sound := by
  obtain ⟨hperm, hnext⟩ := free_release_perm hn.2 hscopes hheld
  refine ⟨hperm.nodup_iff.mpr (List.nodup_cons.mpr ⟨hn.2, h.nodup⟩), fun m hm => ?_⟩
  rw [hnext]
  rcases List.mem_cons.mp (hperm.mem_iff.mp hm) with rfl | hm
  · exact hn.1
  · exact h.lt_next m hm

omit h in

/-- What is given back is in use no longer. -/
theorem inUse_release_iff : (t.release n).2.InUse m ↔ t.InUse m ∧ m ≠ n := by
  obtain ⟨hperm, hnext⟩ := free_release_perm hn.2 hscopes hheld
  rw [InUse, InUse, hnext, hperm.mem_iff, List.mem_cons, not_or]
  exact ⟨fun ⟨hlt, hne, hfree⟩ => ⟨⟨hlt, hfree⟩, hne⟩, fun ⟨⟨hlt, hfree⟩, hne⟩ => ⟨hlt, hne, hfree⟩⟩

end Temps

namespace Account

/-! ### Scopes -/

/-- A new scope holds what was gained in it. -/
theorem Gains.held_perm {a a' : Account} {new : List Nat} (h : a.openScope.Gains a' new) :
    a'.held.Perm new := by
  obtain ⟨held, held', rest, hscopes, hscopes', hperm⟩ := h
  obtain ⟨rfl, rfl⟩ := List.cons.inj hscopes
  have hheld : a'.held = held' := by simp [Account.held, Temps.pop, hscopes']
  rw [hheld]
  exact hperm

theorem inUse_closeScope {a : Account} {n : Nat} :
    a.closeScope.temps.InUse n ↔ a.temps.InUse n := by
  rw [closeScope, Temps.pop]
  split <;> rfl

theorem sound_closeScope {a : Account} (h : a.temps.Sound) : a.closeScope.temps.Sound := by
  rw [closeScope, Temps.pop]
  split
  · exact h
  · exact ⟨h.nodup, h.lt_next⟩

/-! ### Parts of a run -/

/-- What a part of a run has done to the temporaries. It has handed out and kept those in `held`,
for the innermost scope, and those in `closed`, for scopes that it opened and closed. -/
structure Ledger (a a' : Account) (held closed : List Nat) : Prop where
  gains : a.temps.scopes ≠ [] → a.Gains a' held
  sound : a'.temps.Sound
  nodup : (held ++ closed).Nodup
  fresh : ∀ n ∈ held ++ closed, ¬ a.temps.InUse n
  inUse_iff : ∀ n, a'.temps.InUse n ↔ a.temps.InUse n ∨ n ∈ held ++ closed

namespace Ledger

variable {a a₁ a' : Account} {n : Nat} {held held' closed closed' : List Nat}

theorem refl (sound : a.temps.Sound) : Ledger a a [] [] where
  gains hscopes := .of_scopes_eq hscopes rfl
  sound := sound
  nodup := List.nodup_nil
  fresh := List.forall_mem_nil _
  inUse_iff n := by simp

theorem congr {b b' : Account} (h : Ledger a a' held closed) (hb : b.temps = a.temps)
    (hb' : b'.temps = a'.temps) : Ledger b b' held closed where
  gains hscopes := by
    rw [hb] at hscopes
    simpa only [Gains, hb, hb'] using h.gains hscopes
  sound := hb' ▸ h.sound
  nodup := h.nodup
  fresh := hb ▸ h.fresh
  inUse_iff := by simpa only [hb, hb'] using h.inUse_iff

/-- What is in use stays in use. -/
theorem inUse_of_inUse (h : Ledger a a' held closed) (hn : a.temps.InUse n) : a'.temps.InUse n :=
  (h.inUse_iff n).mpr (.inl hn)

/-- What is entered is in use. -/
theorem inUse_of_mem (h : Ledger a a' held closed) (hn : n ∈ held ++ closed) : a'.temps.InUse n :=
  (h.inUse_iff n).mpr (.inr hn)

/-- Where a scope is open, one stays open. -/
theorem scopes_ne_nil (h : Ledger a a' held closed) (hscopes : a.temps.scopes ≠ []) :
    a'.temps.scopes ≠ [] :=
  (h.gains hscopes).scopes_ne_nil

/-- **One part of a run after another.** -/
theorem trans (h₁ : Ledger a a₁ held closed) (h₂ : Ledger a₁ a' held' closed') :
    Ledger a a' (held ++ held') (closed ++ closed') := by
  have hperm : ((held ++ held') ++ (closed ++ closed')).Perm
      ((held ++ closed) ++ (held' ++ closed')) := by
    rw [List.perm_iff_count]
    intro n
    simp only [List.count_append]
    omega
  refine ⟨fun hscopes => ?_, h₂.sound, ?_, fun n hn => ?_, fun n => ?_⟩
  · exact (h₁.gains hscopes).trans (h₂.gains (h₁.scopes_ne_nil hscopes))
  · rw [hperm.nodup_iff, List.nodup_append]
    refine ⟨h₁.nodup, h₂.nodup, fun n hn m hm => ?_⟩
    rintro rfl
    exact h₂.fresh n hm (h₁.inUse_of_mem hn)
  · rcases List.mem_append.mp (hperm.mem_iff.mp hn) with hn | hn
    · exact h₁.fresh n hn
    · exact fun hinUse => h₂.fresh n hn (h₁.inUse_of_inUse hinUse)
  · rw [h₂.inUse_iff, h₁.inUse_iff, hperm.mem_iff, or_assoc, ← List.mem_append]

theorem allocate (sound : a.temps.Sound) : Ledger a a.allocate [a.fresh] [] where
  gains := .allocate
  sound := sound.allocate
  nodup := List.nodup_singleton _
  fresh := List.forall_mem_singleton.mpr a.temps.not_inUse_allocate
  inUse_iff n := by
    rw [List.append_nil, List.mem_singleton]
    exact Temps.inUse_allocate_iff sound

/-- A number that is given back is as it was before it was handed out. -/
theorem release (h : Ledger a a' (n :: held) closed) (hscopes : a.temps.scopes ≠ []) :
    Ledger a (a'.release n) held closed := by
  obtain ⟨hnot, hnodup⟩ := List.nodup_cons.mp h.nodup
  have hfresh := List.forall_mem_cons.mp h.fresh
  have hinUse : a'.temps.InUse n := h.inUse_of_mem List.mem_cons_self
  obtain ⟨old, new, rest, -, hnew, hperm⟩ := h.gains hscopes
  have hheld : n ∈ new :=
    hperm.mem_iff.mpr (List.mem_append_right _ List.mem_cons_self)
  refine ⟨fun hscopes => (h.gains hscopes).release, h.sound.release hinUse hnew hheld, hnodup,
    hfresh.2, fun m => ?_⟩
  change (a'.temps.release n).2.InUse m ↔ _
  rw [Temps.inUse_release_iff hinUse hnew hheld, h.inUse_iff, List.cons_append, List.mem_cons]
  constructor
  · rintro ⟨hm | rfl | hm, hne⟩
    · exact .inl hm
    · exact absurd rfl hne
    · exact .inr hm
  · rintro (hm | hm)
    · exact ⟨.inl hm, fun heq => hfresh.1 (heq ▸ hm)⟩
    · exact ⟨.inr (.inr hm), fun heq => hnot (heq ▸ hm)⟩

/-- What is held at the end of a scope was taken in it. -/
theorem held_perm (h : Ledger a.openScope a' held closed) : a'.held.Perm held :=
  (h.gains (List.cons_ne_nil _ _)).held_perm

/-- What a scope holds when it is closed is not given back any more. -/
theorem close (h : Ledger a.openScope a' held closed) :
    Ledger a a'.closeScope [] (a'.held ++ closed) := by
  have hperm : (a'.held ++ closed).Perm (held ++ closed) := h.held_perm.append_right closed
  refine ⟨fun hscopes => ?_, sound_closeScope h.sound, hperm.nodup_iff.mpr h.nodup,
    fun n hn => h.fresh n (hperm.mem_iff.mp hn), fun n => ?_⟩
  · exact .of_scopes_eq hscopes (h.gains (List.cons_ne_nil _ _)).scopes_closeScope
  · rw [inUse_closeScope, h.inUse_iff, List.nil_append, hperm.mem_iff]
    rfl

end Ledger

end Account

end Declass
