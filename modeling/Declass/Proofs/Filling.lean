import Mathlib.Data.List.Infix
import Declass.Diagnostic.Bag

/-!
# Filling templates

A template is filled in rounds, one for each argument, and every round looks at the whole text as it
stands. What a round replaces may therefore stem from an earlier argument. Substitution at once is
another matter: each placeholder of the template is replaced, and what is put in its place is not
looked at again.

The two agree as long as no round comes upon a placeholder that the template does not have. Whether
it does is decided by the text around an argument as much as by the argument: an argument `1`
between braces of the template is a placeholder, and so are two halves of a placeholder around an
empty argument. If the arguments do not interlock with the placeholders of later ones, then no
template makes a difference. No name interlocks with a placeholder.

## Main definitions

* `Text.Substituted` — all placeholders replaced at once
* `Text.occurrences` — how often a pattern occurs in a text
* `Text.Interlocks` — two texts that can share characters of a third

## Main results

* `Text.Round.replaceAll_eq_iff` — what one round makes of a text
* `Text.fill_substitutes` — when a filled template is the template with its placeholders replaced
-/

namespace Declass.Text

/-! ### Placeholders -/

theorem placeholder_eq (i : Nat) : placeholder i = '\x7b' :: (Nat.toDigits 10 i ++ ['\x7d']) := by
  simp [placeholder]

theorem isDigit_of_mem_toDigits {i : Nat} {c : Char} (h : c ∈ Nat.toDigits 10 i) : c.isDigit :=
  Nat.isDigit_of_mem_toDigits (by decide) (by decide) h

theorem placeholder_ne_nil (i : Nat) : placeholder i ≠ [] := by
  simp [placeholder_eq]

/-- A placeholder is read in one way only. -/
theorem placeholder_prefix_iff {i j : Nat} {rest : List Char} :
    placeholder i <+: placeholder j ++ rest ↔ i = j := by
  constructor
  · rintro ⟨after, heq⟩
    rw [placeholder_eq, placeholder_eq] at heq
    have htake (k : Nat) (after : List Char) :
        (Nat.toDigits 10 k ++ '\x7d' :: after).takeWhile Char.isDigit = Nat.toDigits 10 k := by
      rw [List.takeWhile_append_of_pos fun c hc => isDigit_of_mem_toDigits hc]
      simp [show Char.isDigit '\x7d' = false by decide]
    have hdigits : Nat.toDigits 10 i = Nat.toDigits 10 j := by
      have := congrArg (fun text => text.tail.takeWhile Char.isDigit) heq
      simpa [htake] using this
    rw [← Nat.ofDigitChars_ten_toDigits (n := i), hdigits, Nat.ofDigitChars_ten_toDigits]
  · rintro rfl
    exact List.prefix_append _ _

/-- A placeholder has its opening brace in front and nowhere else. -/
theorem eq_placeholder_of_suffix {j : Nat} {s : List Char} (h : '\x7b' :: s <:+ placeholder j) :
    '\x7b' :: s = placeholder j := by
  rw [placeholder_eq] at h ⊢
  refine (List.suffix_cons_iff.mp h).resolve_right fun hinner => ?_
  rcases List.mem_append.mp (hinner.mem List.mem_cons_self) with hdigit | hlast
  · exact absurd (isDigit_of_mem_toDigits hdigit) (by decide)
  · simp at hlast

/-- Within a placeholder only its first character is one where a placeholder can start. -/
theorem eq_of_prefix_of_suffix {i j : Nat} {s rest : List Char} (hs : s ≠ [])
    (hsuffix : s <:+ placeholder j) (h : placeholder i <+: s ++ rest) :
    s = placeholder j ∧ i = j := by
  obtain ⟨c, s, rfl⟩ := List.exists_cons_of_ne_nil hs
  obtain rfl : '\x7b' = c := by
    rw [placeholder_eq, List.cons_append] at h
    exact (List.cons_prefix_cons.mp h).1
  have hself := eq_placeholder_of_suffix hsuffix
  exact ⟨hself, placeholder_prefix_iff.mp (hself ▸ h)⟩

/-! ### Occurrences -/

/-- How often `pattern` occurs in a text. -/
def occurrences (pattern text : List Char) : Nat :=
  text.tails.countP fun rest => pattern.isPrefixOf rest

/-- No occurrence of `pattern` starts in `text` if `rest` follows it. -/
def Clear (pattern text rest : List Char) : Prop :=
  ∀ s, s ≠ [] → s <:+ text → ¬ pattern <+: s ++ rest

section Pattern

variable {p : List Char} {c : Char} {text rest : List Char}

theorem clear_cons_iff : Clear p (c :: text) rest ↔
    ¬ p <+: c :: (text ++ rest) ∧ Clear p text rest := by
  constructor
  · intro h
    exact ⟨h (c :: text) (by simp) List.suffix_rfl, fun s hs hsuffix =>
      h s hs (hsuffix.trans (List.suffix_cons c text))⟩
  · rintro ⟨hhead, htail⟩ s hs hsuffix
    rcases List.suffix_cons_iff.mp hsuffix with rfl | hsuffix
    · exact hhead
    · exact htail s hs hsuffix

theorem occurrences_nil (hp : p ≠ []) : occurrences p [] = 0 := by
  simp [occurrences, hp]

theorem occurrences_cons_of_start (h : p <+: c :: text) :
    occurrences p (c :: text) = occurrences p text + 1 := by
  simp [occurrences, h]

theorem occurrences_cons_of_not (h : ¬ p <+: c :: text) :
    occurrences p (c :: text) = occurrences p text := by
  simp [occurrences, h]

theorem occurrences_le_cons : occurrences p text ≤ occurrences p (c :: text) := by
  simp [occurrences, List.countP_cons]

theorem occurrences_le_append : occurrences p rest ≤ occurrences p (text ++ rest) := by
  induction text with
  | nil => exact Nat.le_refl _
  | cons c text ih => exact ih.trans occurrences_le_cons

theorem occurrences_append_eq_iff :
    occurrences p (text ++ rest) = occurrences p rest ↔ Clear p text rest := by
  induction text with
  | nil => exact ⟨fun _ s hs hsuffix => (hs (List.suffix_nil.mp hsuffix)).elim, fun _ => rfl⟩
  | cons c text ih =>
    rw [clear_cons_iff, ← ih, List.cons_append]
    have hle : occurrences p rest ≤ occurrences p (text ++ rest) := occurrences_le_append
    by_cases h : p <+: c :: (text ++ rest)
    · rw [occurrences_cons_of_start h]
      exact ⟨fun heq => absurd heq (by omega), fun hnot => (hnot.1 h).elim⟩
    · rw [occurrences_cons_of_not h]
      exact ⟨fun heq => ⟨h, heq⟩, fun hnot => hnot.2⟩

/-! ### Replacement -/

variable {r : List Char}

private theorem replaceFrom_skip (skipped : List Char) :
    replaceFrom p r skipped.length (skipped ++ rest) = replaceAll p r rest := by
  induction skipped with
  | nil => rfl
  | cons c skipped ih => simpa [replaceFrom] using ih

theorem replaceAll_cons_of_not (h : ¬ p <+: c :: text) :
    replaceAll p r (c :: text) = c :: replaceAll p r text := by
  simp [replaceAll, replaceFrom, h]

theorem replaceAll_append_self (hp : p ≠ []) :
    replaceAll p r (p ++ rest) = r ++ replaceAll p r rest := by
  obtain ⟨c, p, rfl⟩ := List.exists_cons_of_ne_nil hp
  simp [replaceAll, replaceFrom, replaceFrom_skip]

theorem replaceAll_append_of_clear (h : Clear p text rest) :
    replaceAll p r (text ++ rest) = text ++ replaceAll p r rest := by
  induction text with
  | nil => rfl
  | cons c text ih =>
    obtain ⟨hhead, htail⟩ := clear_cons_iff.mp h
    rw [List.cons_append, replaceAll_cons_of_not hhead, ih htail, List.cons_append]

/-- Induction over a text from one occurrence of `p` to the next. -/
theorem occurrence_induction (hp : p ≠ []) {P : List Char → Prop} (nil : P [])
    (here : ∀ rest, P rest → P (p ++ rest))
    (next : ∀ c text, ¬ p <+: c :: text → P text → P (c :: text)) (text : List Char) : P text := by
  induction hlength : text.length using Nat.strong_induction_on generalizing text with
  | _ n ih =>
    subst hlength
    cases text with
    | nil => exact nil
    | cons c text =>
      by_cases h : p <+: c :: text
      · obtain ⟨rest, hrest⟩ := h
        have hshorter : rest.length < (c :: text).length := by
          have := List.length_pos_iff.mpr hp
          rw [← hrest, List.length_append]
          omega
        exact hrest ▸ here rest (ih _ hshorter rest rfl)
      · exact next c text h (ih _ (Nat.lt_succ_self _) text rfl)

end Pattern

theorem clear_placeholder {i j : Nat} (h : i ≠ j) (rest : List Char) :
    Clear (placeholder i) (placeholder j) rest :=
  fun _ hs hsuffix hstart => h (eq_of_prefix_of_suffix hs hsuffix hstart).2

theorem occurrences_placeholder_append (i : Nat) (rest : List Char) :
    occurrences (placeholder i) (placeholder i ++ rest) = occurrences (placeholder i) rest + 1 := by
  obtain ⟨c, tail, heq⟩ := List.exists_cons_of_ne_nil (placeholder_ne_nil i)
  have hclear : Clear (placeholder i) tail rest := by
    intro s hs hsuffix hstart
    have hwhole :=
      (eq_of_prefix_of_suffix hs (hsuffix.trans (heq ▸ List.suffix_cons c tail)) hstart).1
    have := hsuffix.length_le
    simp only [hwhole, heq, List.length_cons] at this
    omega
  have hhead : placeholder i <+: c :: (tail ++ rest) := by
    rw [← List.cons_append, ← heq]
    exact List.prefix_append _ _
  conv_lhs => arg 2; rw [heq, List.cons_append]
  rw [occurrences_cons_of_start hhead, occurrences_append_eq_iff.mpr hclear]

/-! ### What a round changes

A round that replaces `p` by another text leaves a trace that tells how many occurrences it has met:
the length changes with each of them, or else, if the two are equally long, the characters do. -/

/-- In how many places two texts differ. -/
def differences (text text' : List Char) : Nat :=
  (text.zip text').countP fun place => place.1 ≠ place.2

theorem differences_append {a b c d : List Char} (h : a.length = b.length) :
    differences (a ++ c) (b ++ d) = differences a b + differences c d := by
  rw [differences, List.zip_append h, List.countP_append]
  rfl

theorem differences_self (text : List Char) : differences text text = 0 := by
  induction text with
  | nil => rfl
  | cons c text ih => simpa [differences] using ih

theorem eq_of_differences_eq_zero {text text' : List Char} (hlength : text.length = text'.length)
    (h : differences text text' = 0) : text = text' := by
  induction text generalizing text' with
  | nil => exact (List.length_eq_zero_iff.mp hlength.symm).symm
  | cons c text ih =>
    obtain ⟨c', text', rfl⟩ := List.exists_cons_of_length_eq_add_one hlength.symm
    obtain ⟨htail, hhead⟩ : differences text text' = 0 ∧ c = c' := by
      simpa [differences, List.countP_cons] using h
    rw [hhead, ih (Nat.succ.inj hlength) htail]

theorem length_replaceAll (i : Nat) (r text : List Char) :
    (replaceAll (placeholder i) r text).length
        + occurrences (placeholder i) text * (placeholder i).length =
      text.length + occurrences (placeholder i) text * r.length := by
  induction text using occurrence_induction (placeholder_ne_nil i) with
  | nil => simp [occurrences_nil (placeholder_ne_nil i), replaceAll, replaceFrom]
  | here rest ih =>
    simp only [replaceAll_append_self (placeholder_ne_nil i), occurrences_placeholder_append,
      List.length_append, Nat.add_mul]
    omega
  | next c text h ih =>
    simp only [replaceAll_cons_of_not h, occurrences_cons_of_not h, List.length_cons]
    omega

theorem differences_replaceAll (i : Nat) {r : List Char} (hr : r.length = (placeholder i).length)
    (text : List Char) :
    differences (replaceAll (placeholder i) r text) text =
      occurrences (placeholder i) text * differences r (placeholder i) := by
  induction text using occurrence_induction (placeholder_ne_nil i) with
  | nil => simp [occurrences_nil (placeholder_ne_nil i), differences]
  | here rest ih =>
    simp only [replaceAll_append_self (placeholder_ne_nil i), occurrences_placeholder_append,
      differences_append hr, Nat.add_mul]
    omega
  | next c text h ih =>
    rw [replaceAll_cons_of_not h, occurrences_cons_of_not h, ← ih]
    simp [differences]

/-! ### Substitution at once -/

/-- `result` is `template` with each placeholder that has an argument replaced by it. All other
characters are kept, and what an argument brings in is not looked at. -/
inductive Substituted (arguments : List String) : List Char → List Char → Prop where
  | nil : Substituted arguments [] []
  | hole {i : Nat} {argument : String} {text result : List Char}
      (given : arguments[i]? = some argument) (rest : Substituted arguments text result) :
      Substituted arguments (placeholder i ++ text) (argument.toList ++ result)
  | keep {c : Char} {text result : List Char}
      (plain : ∀ i < arguments.length, ¬ placeholder i <+: c :: text)
      (rest : Substituted arguments text result) :
      Substituted arguments (c :: text) (c :: result)

namespace Substituted

variable {arguments : List String} {text result result' : List Char}

theorem of_hole {i : Nat} {argument : String} (given : arguments[i]? = some argument)
    (h : Substituted arguments (placeholder i ++ text) result) :
    ∃ rest, result = argument.toList ++ rest ∧ Substituted arguments text rest := by
  generalize htext : placeholder i ++ text = whole at h
  cases h with
  | nil => exact (placeholder_ne_nil i (List.append_eq_nil_iff.mp htext).1).elim
  | @hole j _ _ _ given' rest =>
    obtain rfl : i = j := placeholder_prefix_iff.mp (htext ▸ List.prefix_append _ _)
    obtain rfl := List.append_cancel_left htext
    obtain rfl := Option.some.inj (given.symm.trans given')
    exact ⟨_, rfl, rest⟩
  | keep plain =>
    have hlt := (List.getElem?_eq_some_iff.mp given).1
    exact (plain i hlt (htext ▸ List.prefix_append _ _)).elim

theorem of_keep {c : Char} (plain : ∀ i < arguments.length, ¬ placeholder i <+: c :: text)
    (h : Substituted arguments (c :: text) result) :
    ∃ rest, result = c :: rest ∧ Substituted arguments text rest := by
  generalize htext : c :: text = whole at h
  cases h with
  | nil => cases htext
  | @hole i _ _ _ given =>
    have hlt := (List.getElem?_eq_some_iff.mp given).1
    exact (plain i hlt (htext ▸ List.prefix_append _ _)).elim
  | keep _ rest =>
    obtain ⟨rfl, rfl⟩ := List.cons_eq_cons.mp htext
    exact ⟨_, rfl, rest⟩

/-- There is one result at most. -/
theorem unique (h : Substituted arguments text result) (h' : Substituted arguments text result') :
    result = result' := by
  induction h generalizing result' with
  | nil =>
    generalize htext : ([] : List Char) = whole at h'
    cases h' with
    | nil => rfl
    | hole => exact (placeholder_ne_nil _ (List.append_eq_nil_iff.mp htext.symm).1).elim
    | keep => cases htext
  | hole given _ ih =>
    obtain ⟨rest, rfl, hrest⟩ := h'.of_hole given
    rw [ih hrest]
  | keep plain _ ih =>
    obtain ⟨rest, rfl, hrest⟩ := h'.of_keep plain
    rw [ih hrest]

/-- Without arguments nothing is replaced. -/
theorem without_arguments (text : List Char) : Substituted [] text text := by
  induction text with
  | nil => exact .nil
  | cons c text ih => exact .keep nofun ih

/-- A text in which no placeholder starts is kept. -/
theorem append_of_clear {before : List Char}
    (clear : ∀ i < arguments.length, Clear (placeholder i) before text)
    (h : Substituted arguments text result) :
    Substituted arguments (before ++ text) (before ++ result) := by
  induction before with
  | nil => exact h
  | cons c before ih =>
    refine .keep (fun i hi => (clear_cons_iff.mp (clear i hi)).1) (ih fun i hi => ?_)
    exact (clear_cons_iff.mp (clear i hi)).2

end Substituted

/-! ### Rounds -/

/-- The round of argument `r`, after those of `arguments`: a template, what it should be before the
round, and what it should be after it. -/
inductive Round (arguments : List String) (r : String) :
    List Char → List Char → List Char → Prop where
  | nil : Round arguments r [] [] []
  | keep {c : Char} {text before after : List Char}
      (plain : ∀ i ≤ arguments.length, ¬ placeholder i <+: c :: text)
      (rest : Round arguments r text before after) :
      Round arguments r (c :: text) (c :: before) (c :: after)
  | earlier {i : Nat} {argument : String} {text before after : List Char}
      (given : arguments[i]? = some argument) (rest : Round arguments r text before after) :
      Round arguments r (placeholder i ++ text) (argument.toList ++ before)
        (argument.toList ++ after)
  | now {text before after : List Char} (rest : Round arguments r text before after) :
      Round arguments r (placeholder arguments.length ++ text)
        (placeholder arguments.length ++ before) (r.toList ++ after)

namespace Round

variable {arguments : List String} {r : String} {text before after : List Char}

theorem substituted_before (h : Round arguments r text before after) :
    Substituted arguments text before := by
  induction h with
  | nil => exact .nil
  | keep plain _ ih => exact .keep (fun i hi => plain i hi.le) ih
  | earlier given _ ih => exact .hole given ih
  | now _ ih => exact ih.append_of_clear fun i hi => clear_placeholder hi.ne _

theorem substituted_after (h : Round arguments r text before after) :
    Substituted (arguments ++ [r]) text after := by
  induction h with
  | nil => exact .nil
  | keep plain _ ih => exact .keep (fun i hi => plain i (by simp at hi; omega)) ih
  | earlier given _ ih =>
    have hlt := (List.getElem?_eq_some_iff.mp given).1
    exact .hole (by rw [List.getElem?_append_left hlt, given]) ih
  | now _ ih => exact .hole (by simp) ih

theorem exists_round (arguments : List String) (r : String) (text : List Char) :
    ∃ before after, Round arguments r text before after := by
  induction hlength : text.length using Nat.strong_induction_on generalizing text with
  | _ n ih =>
    subst hlength
    cases text with
    | nil => exact ⟨[], [], .nil⟩
    | cons c text =>
      by_cases hplain : ∀ i ≤ arguments.length, ¬ placeholder i <+: c :: text
      · obtain ⟨before, after, h⟩ := ih _ (Nat.lt_succ_self _) text rfl
        exact ⟨_, _, .keep hplain h⟩
      · push Not at hplain
        obtain ⟨i, hi, rest, hrest⟩ := hplain
        have hshorter : rest.length < (c :: text).length := by
          have := List.length_pos_iff.mpr (placeholder_ne_nil i)
          rw [← hrest, List.length_append]
          omega
        obtain ⟨before, after, h⟩ := ih _ hshorter rest rfl
        rw [← hrest]
        rcases hi.lt_or_eq with hlt | rfl
        · exact ⟨_, _, .earlier (List.getElem?_eq_getElem hlt) h⟩
        · exact ⟨_, _, .now h⟩

/-- Before a round the text has all the placeholders of the round that the template has. -/
theorem occurrences_le (h : Round arguments r text before after) :
    occurrences (placeholder arguments.length) text ≤
      occurrences (placeholder arguments.length) before := by
  induction h with
  | nil => exact Nat.le_refl _
  | keep plain _ ih =>
    rw [occurrences_cons_of_not (plain _ le_rfl)]
    exact ih.trans occurrences_le_cons
  | earlier given _ ih =>
    have hlt := (List.getElem?_eq_some_iff.mp given).1
    rw [occurrences_append_eq_iff.mpr (clear_placeholder hlt.ne' _)]
    exact ih.trans occurrences_le_append
  | now _ ih =>
    rw [occurrences_placeholder_append, occurrences_placeholder_append]
    exact Nat.succ_le_succ ih

/-- If it has no more than these, then the round does what it should. -/
theorem replaceAll_eq (h : Round arguments r text before after)
    (hoccurrences : occurrences (placeholder arguments.length) before =
      occurrences (placeholder arguments.length) text) :
    replaceAll (placeholder arguments.length) r.toList before = after := by
  induction h with
  | nil => rfl
  | @keep c text before after plain rest ih =>
    have hle := rest.occurrences_le
    rw [occurrences_cons_of_not (plain _ le_rfl)] at hoccurrences
    have hnot : ¬ placeholder arguments.length <+: c :: before := by
      intro hstart
      rw [occurrences_cons_of_start hstart] at hoccurrences
      omega
    rw [occurrences_cons_of_not hnot] at hoccurrences
    rw [replaceAll_cons_of_not hnot, ih hoccurrences]
  | @earlier i argument text before after given rest ih =>
    have hlt := (List.getElem?_eq_some_iff.mp given).1
    have hle := rest.occurrences_le
    have hle' : occurrences (placeholder arguments.length) before ≤
      occurrences (placeholder arguments.length) (argument.toList ++ before) :=
      occurrences_le_append
    rw [occurrences_append_eq_iff.mpr (clear_placeholder hlt.ne' _)] at hoccurrences
    have hsame : occurrences (placeholder arguments.length) before =
      occurrences (placeholder arguments.length) text := by omega
    rw [← hsame] at hoccurrences
    rw [replaceAll_append_of_clear (occurrences_append_eq_iff.mp hoccurrences), ih hsame]
  | now _ ih =>
    rw [occurrences_placeholder_append, occurrences_placeholder_append] at hoccurrences
    rw [replaceAll_append_self (placeholder_ne_nil _), ih (Nat.succ.inj hoccurrences)]

theorem length_eq (h : Round arguments r text before after) :
    after.length + occurrences (placeholder arguments.length) text
        * (placeholder arguments.length).length =
      before.length + occurrences (placeholder arguments.length) text * r.toList.length := by
  induction h with
  | nil => simp [occurrences_nil (placeholder_ne_nil _)]
  | keep plain _ ih =>
    simp only [occurrences_cons_of_not (plain _ le_rfl), List.length_cons]
    omega
  | earlier given _ ih =>
    have hlt := (List.getElem?_eq_some_iff.mp given).1
    rw [occurrences_append_eq_iff.mpr (clear_placeholder hlt.ne' _)]
    simp only [List.length_append]
    omega
  | now _ ih =>
    simp only [occurrences_placeholder_append, List.length_append, Nat.add_mul]
    omega

theorem differences_eq (h : Round arguments r text before after)
    (hr : r.toList.length = (placeholder arguments.length).length) :
    differences after before = occurrences (placeholder arguments.length) text
      * differences r.toList (placeholder arguments.length) := by
  induction h with
  | nil => simp [occurrences_nil (placeholder_ne_nil _), differences]
  | keep plain _ ih =>
    rw [occurrences_cons_of_not (plain _ le_rfl), ← ih]
    simp [differences]
  | earlier given _ ih =>
    have hlt := (List.getElem?_eq_some_iff.mp given).1
    rw [occurrences_append_eq_iff.mpr (clear_placeholder hlt.ne' _), differences_append rfl,
      differences_self, Nat.zero_add, ih]
  | now _ ih =>
    rw [occurrences_placeholder_append, differences_append hr, ih, Nat.add_mul]
    omega

/-- **What a round makes of a text.** It replaces the placeholders of the template and nothing else
iff the text has no others, or the argument is the placeholder itself. -/
theorem replaceAll_eq_iff (h : Round arguments r text before after) :
    replaceAll (placeholder arguments.length) r.toList before = after ↔
      r.toList = placeholder arguments.length ∨
        occurrences (placeholder arguments.length) before =
          occurrences (placeholder arguments.length) text := by
  have hlength := length_replaceAll arguments.length r.toList before
  have hlength' := h.length_eq
  constructor
  · intro hround
    rw [hround] at hlength
    refine or_iff_not_imp_left.mpr fun hne => ?_
    by_cases hr : r.toList.length = (placeholder arguments.length).length
    · have hdiffer : 0 < differences r.toList (placeholder arguments.length) :=
        Nat.pos_of_ne_zero fun hzero => hne (eq_of_differences_eq_zero hr hzero)
      have hsame := differences_replaceAll arguments.length hr before
      rw [hround, h.differences_eq hr] at hsame
      exact (Nat.eq_of_mul_eq_mul_right hdiffer hsame).symm
    · obtain ⟨more, hmore⟩ := Nat.exists_eq_add_of_le h.occurrences_le
      rw [hmore, Nat.add_mul, Nat.add_mul] at hlength
      have hgrown : more * r.toList.length = more * (placeholder arguments.length).length := by
        omega
      rcases Nat.eq_zero_or_pos more with rfl | hpos
      · exact hmore
      · exact (hr (Nat.eq_of_mul_eq_mul_left hpos hgrown)).elim
  · rintro (hself | hoccurrences)
    · have hr := congrArg List.length hself
      have hzero : differences r.toList (placeholder arguments.length) = 0 := by
        rw [hself, differences_self]
      rw [hr] at hlength hlength'
      have hbefore : replaceAll (placeholder arguments.length) r.toList before = before :=
        eq_of_differences_eq_zero (by omega)
        (by rw [differences_replaceAll _ hr, hzero, Nat.mul_zero])
      have hafter : after = before :=
        eq_of_differences_eq_zero (by omega) (by rw [h.differences_eq hr, hzero, Nat.mul_zero])
      rw [hbefore, hafter]
    · exact h.replaceAll_eq hoccurrences

end Round

theorem toList_fill_concat (template : String) (arguments : List String) (r : String) :
    (fill template (arguments ++ [r])).toList =
      replaceAll (placeholder arguments.length) r.toList (fill template arguments).toList := by
  simp [fill, List.zipIdx_append, List.foldl_append]

/-- One more argument, after rounds that have done what they should. -/
theorem substituted_concat_iff {template : String} {arguments : List String}
    (h : Substituted arguments template.toList (fill template arguments).toList) (r : String) :
    Substituted (arguments ++ [r]) template.toList (fill template (arguments ++ [r])).toList ↔
      r.toList = placeholder arguments.length ∨
        occurrences (placeholder arguments.length) (fill template arguments).toList =
          occurrences (placeholder arguments.length) template.toList := by
  obtain ⟨before, after, hround⟩ := Round.exists_round arguments r template.toList
  obtain rfl := hround.substituted_before.unique h
  rw [toList_fill_concat, ← hround.replaceAll_eq_iff]
  constructor
  · exact fun hfilled => hfilled.unique hround.substituted_after
  · exact fun heq => heq ▸ hround.substituted_after

/-! ### Texts that interlock -/

/-- Two texts can share characters of a third one: one of them lies in the other, or one ends as the
other begins. -/
def Interlocks (text p : List Char) : Prop :=
  text <:+: p ∨ p <:+: text ∨
    (∃ s, s ≠ [] ∧ s <:+ text ∧ s <+: p) ∨ ∃ s, s ≠ [] ∧ s <+: text ∧ s <:+ p

theorem clear_of_not_interlocks {text p : List Char} (h : ¬ Interlocks text p) (rest : List Char) :
    Clear p text rest := by
  intro s hs hsuffix hstart
  rcases List.prefix_or_prefix_of_prefix hstart (List.prefix_append s rest) with hp | hp
  · exact h (.inr (.inl (hp.isInfix.trans hsuffix.isInfix)))
  · exact h (.inr (.inr (.inl ⟨s, hs, hsuffix, hp⟩)))

/-- No part of `p` ends in a text in front of which it starts. -/
theorem not_prefix_of_not_interlocks {text p : List Char} (h : ¬ Interlocks text p) {s : List Char}
    (hs : s ≠ []) (hsuffix : s <:+ p) (rest : List Char) : ¬ s <+: text ++ rest := by
  intro hstart
  rcases List.prefix_or_prefix_of_prefix hstart (List.prefix_append text rest) with hp | hp
  · exact h (.inr (.inr (.inr ⟨s, hs, hp, hsuffix⟩)))
  · exact h (.inl (hp.isInfix.trans hsuffix.isInfix))

/-- A text without braces that is not a number does not interlock with any placeholder. -/
theorem not_interlocks_of_name {text : List Char}
    (opening : '\x7b' ∉ text) (closing : '\x7d' ∉ text)
    (name : ∃ c ∈ text, c.isDigit = false) (i : Nat) : ¬ Interlocks text (placeholder i) := by
  rw [placeholder_eq]
  rintro (hinside | hinside | ⟨s, hs, hsuffix, hstart⟩ | ⟨s, hs, hstart, hsuffix⟩)
  · obtain ⟨c, hc, hdigit⟩ := name
    rcases List.mem_cons.mp (hinside.mem hc) with rfl | hmem
    · exact opening hc
    · rcases List.mem_append.mp hmem with hmem | hmem
      · simp [isDigit_of_mem_toDigits hmem] at hdigit
      · exact closing (List.mem_singleton.mp hmem ▸ hc)
  · exact opening (hinside.mem List.mem_cons_self)
  · obtain ⟨c, s, rfl⟩ := List.exists_cons_of_ne_nil hs
    obtain ⟨rfl, -⟩ := List.cons_prefix_cons.mp hstart
    exact opening (hsuffix.mem List.mem_cons_self)
  · obtain ⟨before, hbefore⟩ := hsuffix
    obtain ⟨s, c, rfl⟩ := (List.eq_nil_or_concat s).resolve_left hs
    have hlast : c = '\x7d' := by
      rw [← List.cons_append, List.concat_eq_append, ← List.append_assoc] at hbefore
      exact List.singleton_inj.mp (List.append_inj_right' hbefore rfl)
    exact closing (hstart.mem (by simp [hlast]))

section Independent

variable {arguments : List String} {n : Nat} {text result : List Char}

/-- If no argument interlocks with a placeholder, then an end of the placeholder stands in front of
the result only if it stands in front of the template. -/
theorem Substituted.prefix_iff (h : Substituted arguments text result)
    (free : ∀ argument ∈ arguments, ¬ Interlocks argument.toList (placeholder n))
    (hn : arguments.length ≤ n) {s : List Char} (hsuffix : s <:+ placeholder n) :
    s <+: result ↔ s <+: text := by
  induction h generalizing s with
  | nil => rfl
  | @hole i argument text result given _ _ =>
    rcases eq_or_ne s [] with rfl | hs
    · simp
    have hlt := (List.getElem?_eq_some_iff.mp given).1
    have hfree := free argument (List.mem_of_getElem? given)
    refine iff_of_false (not_prefix_of_not_interlocks hfree hs hsuffix _) fun hstart => ?_
    obtain ⟨c, s, rfl⟩ := List.exists_cons_of_ne_nil hs
    obtain rfl : c = '\x7b' := by
      rw [placeholder_eq, List.cons_append] at hstart
      exact (List.cons_prefix_cons.mp hstart).1
    rw [eq_placeholder_of_suffix hsuffix] at hstart
    exact (hlt.trans_le hn).ne' (placeholder_prefix_iff.mp hstart)
  | @keep c text result _ _ ih =>
    cases s with
    | nil => simp
    | cons c' s =>
      rw [List.cons_prefix_cons, List.cons_prefix_cons, ih ((List.suffix_cons c' s).trans hsuffix)]

theorem Substituted.occurrences_eq (h : Substituted arguments text result)
    (free : ∀ argument ∈ arguments, ¬ Interlocks argument.toList (placeholder n))
    (hn : arguments.length ≤ n) :
    occurrences (placeholder n) result = occurrences (placeholder n) text := by
  induction h with
  | nil => rfl
  | @hole i argument text result given _ ih =>
    have hlt := (List.getElem?_eq_some_iff.mp given).1
    have hfree := free argument (List.mem_of_getElem? given)
    rw [occurrences_append_eq_iff.mpr (clear_of_not_interlocks hfree _), ih,
      occurrences_append_eq_iff.mpr (clear_placeholder (hlt.trans_le hn).ne' _)]
  | @keep c text result plain rest ih =>
    have hiff := (Substituted.keep plain rest).prefix_iff free hn List.suffix_rfl
    by_cases hstart : placeholder n <+: c :: text
    · rw [occurrences_cons_of_start hstart, occurrences_cons_of_start (hiff.mpr hstart), ih]
    · rw [occurrences_cons_of_not hstart, occurrences_cons_of_not (mt hiff.mp hstart), ih]

end Independent

/-! ### Templates -/

/-- The rounds up to `m` have done what they should. -/
def FilledTo (template : String) (arguments : List String) (m : Nat) : Prop :=
  Substituted (arguments.take m) template.toList (fill template (arguments.take m)).toList

section FilledTo

variable {template : String} {arguments : List String}

theorem filledTo_zero : FilledTo template arguments 0 := by
  simpa [FilledTo, fill] using Substituted.without_arguments template.toList

theorem FilledTo.succ_iff {m : Nat} {argument : String} (h : FilledTo template arguments m)
    (given : arguments[m]? = some argument) : FilledTo template arguments (m + 1) ↔
      argument.toList = placeholder m ∨
        occurrences (placeholder m) (fill template (arguments.take m)).toList =
          occurrences (placeholder m) template.toList := by
  obtain ⟨hlt, rfl⟩ := List.getElem?_eq_some_iff.mp given
  have hstep := substituted_concat_iff h arguments[m]
  rwa [List.take_append_getElem, List.length_take_of_le hlt.le] at hstep

/-- If no argument interlocks with the placeholder of a later one, then all rounds do what they
should. -/
theorem filledTo_of_independent
    (free : ∀ i j argument, arguments[i]? = some argument → i < j → j < arguments.length →
      ¬ Interlocks argument.toList (placeholder j)) {m : Nat} (hm : m ≤ arguments.length) :
    FilledTo template arguments m := by
  induction m with
  | zero => exact filledTo_zero
  | succ m ih =>
    have h := ih (Nat.le_of_succ_le hm)
    refine (h.succ_iff (List.getElem?_eq_getElem hm)).mpr (.inr ?_)
    refine h.occurrences_eq (fun argument hmem => ?_) (List.length_take_le m arguments)
    obtain ⟨i, hi, rfl⟩ := List.mem_take_iff_getElem.mp hmem
    have him : i < m := hi.trans_le (Nat.min_le_left _ _)
    exact free i m _ (List.getElem?_eq_getElem (him.trans hm)) him hm

end FilledTo

/-- **When a filled template is the template with its placeholders replaced.** All along the rounds
it is, iff no round comes upon a placeholder that the template does not have, rounds aside whose
argument is their own placeholder. In particular it is if no argument interlocks with the
placeholder of a later one, whatever the template, and if there is only one argument, as in all
messages. -/
theorem fill_substitutes (arguments : List String) :
    (∀ template : String,
      (∀ m ≤ arguments.length, Substituted (arguments.take m) template.toList
        (fill template (arguments.take m)).toList) ↔
      ∀ j argument, arguments[j]? = some argument → argument.toList = placeholder j ∨
        occurrences (placeholder j) (fill template (arguments.take j)).toList =
          occurrences (placeholder j) template.toList) ∧
    ((∀ i j argument, arguments[i]? = some argument → i < j → j < arguments.length →
        ¬ Interlocks argument.toList (placeholder j)) →
      ∀ template : String,
        Substituted arguments template.toList (fill template arguments).toList) ∧
    ∀ (bag : Bag) (range : Option Range) (message : Message) (argument : String),
      Substituted [argument] message.template.toList
        (bag.diagnostic range message [argument]).text.toList := by
  refine ⟨fun template => ⟨fun h j argument given => ?_, fun h m hm => ?_⟩, fun free template => ?_,
    fun bag range message argument => ?_⟩
  · have hlt := (List.getElem?_eq_some_iff.mp given).1
    exact (FilledTo.succ_iff (h j hlt.le) given).mp (h (j + 1) hlt)
  · induction m with
    | zero => exact filledTo_zero
    | succ m ih =>
      have given := List.getElem?_eq_getElem hm
      exact (FilledTo.succ_iff (ih (Nat.le_of_succ_le hm)) given).mpr (h m _ given)
  · have hfilled : FilledTo template arguments arguments.length :=
      filledTo_of_independent free le_rfl
    simpa [FilledTo] using hfilled
  · have hfilled : FilledTo message.template [argument] 1 := by
      refine filledTo_of_independent (fun i j _ _ hij hj => ?_) le_rfl
      rw [List.length_singleton] at hj
      omega
    exact hfilled

/-- Names as arguments, with a template that has a placeholder between braces. -/
theorem fill_substitutes_names :
    (∀ i j argument, ["value", "x1"][i]? = some argument → i < j → j < 2 →
      ¬ Interlocks argument.toList (placeholder j)) ∧
    fill "\x7b\x7b0\x7d\x7d is not \x7b1\x7d, \x7b2\x7d" ["value", "x1"] =
      "\x7bvalue\x7d is not x1, \x7b2\x7d" ∧
    Substituted ["value", "x1"] "\x7b\x7b0\x7d\x7d is not \x7b1\x7d, \x7b2\x7d".toList
      "\x7bvalue\x7d is not x1, \x7b2\x7d".toList := by
  have free : ∀ i j argument, ["value", "x1"][i]? = some argument → i < j → j < 2 →
      ¬ Interlocks argument.toList (placeholder j) := by
    intro i j argument given hij hj
    obtain rfl : i = 0 := by omega
    obtain rfl : "value" = argument := Option.some.inj given
    exact not_interlocks_of_name (by decide) (by decide) ⟨'v', by decide, rfl⟩ j
  have hfill : fill "\x7b\x7b0\x7d\x7d is not \x7b1\x7d, \x7b2\x7d" ["value", "x1"] =
      "\x7bvalue\x7d is not x1, \x7b2\x7d" := by decide +kernel
  refine ⟨free, hfill, ?_⟩
  rw [← hfill]
  exact (fill_substitutes ["value", "x1"]).2.1 free _

/-- **An argument that is taken for a placeholder.** What the first argument brings in is replaced
by the second one. The braces may also be those of the template. -/
theorem fill_not_substituted :
    (fill "\x7b0\x7d" ["\x7b1\x7d", "x"] = "x" ∧
      Substituted ["\x7b1\x7d", "x"] "\x7b0\x7d".toList "\x7b1\x7d".toList ∧
      ¬ Substituted ["\x7b1\x7d", "x"] "\x7b0\x7d".toList "x".toList) ∧
    fill "\x7b\x7b0\x7d\x7d" ["1", "x"] = "x" ∧
      Substituted ["1", "x"] "\x7b\x7b0\x7d\x7d".toList "\x7b1\x7d".toList ∧
      ¬ Substituted ["1", "x"] "\x7b\x7b0\x7d\x7d".toList "x".toList := by
  have hbrought : Substituted ["\x7b1\x7d", "x"] (placeholder 0 ++ []) ("\x7b1\x7d".toList ++ []) :=
    .hole rfl .nil
  have hbetween : Substituted ["1", "x"] ('\x7b' :: (placeholder 0 ++ ['\x7d']))
      ('\x7b' :: ("1".toList ++ ['\x7d'])) :=
    .keep (by decide) (.hole rfl (.keep (by decide) .nil))
  refine ⟨⟨by decide +kernel, hbrought, fun h => ?_⟩, by decide +kernel, hbetween, fun h => ?_⟩
  · exact absurd (h.unique hbrought) (by decide)
  · exact absurd (h.unique hbetween) (by decide)

end Declass.Text
