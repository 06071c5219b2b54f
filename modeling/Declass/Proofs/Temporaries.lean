import Declass.Proofs.Allocation
import Declass.Proofs.Checking
import Declass.Proofs.Marks

/-!
# Temporaries in lowered programs

A class expression whose members use `super` is kept in a temporary, and so is a computed key that
is both read and written. The numbers of temporaries are handed out by one allocator for nested
programs and functions, and those that turn out not to be needed are handed out again. Still each
temporary in a lowered program stands for one value: it is declared once, assigned to once, and not
seen outside of the function that declares it.

What carries this is a ledger of the numbers that a part of the run hands out (`Account.Ledger`),
side by side with the marks that are found in its code. The names that occur in the code before the
part is run are in use then, so what is handed out is new to the code around it.

## Main definitions

* `Balances` — what a part of a run does to the names in its code and to the temporaries
* `Allowed` — the names that generated code uses without declaring them
* `Store.Mentions` — the names in a program

## Main results

* `Expands.exists_balances`, `Lowers.balanced` — temporaries in expanded and in lowered code
* `lowerProgram_temporaries` — temporaries in a lowered program
-/

namespace Declass

open Edit Lowering

/-! ### Parts of a run -/

/-- The temporaries that are named somewhere are in use. -/
def Account.Knows (a : Account) (allowed : String → Prop) (marks : List Mark) : Prop :=
  ∀ n, allowed (Temps.name n) ∨ .occurrence (Temps.name n) ∈ marks → a.temps.InUse n

namespace Account.Knows

variable {a a' : Account} {allowed allowed' : String → Prop} {marks marks' : List Mark}

theorem anti (h : a.Knows allowed marks)
    (hallowed : ∀ name, allowed' name → allowed name ∨ .occurrence name ∈ marks)
    (hmarks : ∀ name, .occurrence name ∈ marks' → allowed name ∨ .occurrence name ∈ marks) :
    a.Knows allowed' marks' := by
  rintro n (hn | hn)
  · exact h n (hallowed _ hn)
  · exact h n (hmarks _ hn)

theorem of_subset (h : a.Knows allowed marks) (hsubset : marks' ⊆ marks) : a.Knows allowed marks' :=
  h.anti (fun _ => .inl) fun _ hname => .inr (hsubset hname)

theorem after (h : a.Knows allowed marks) {held closed : List Nat}
    (ledger : a.Ledger a' held closed) : a'.Knows allowed marks :=
  fun n hn => ledger.inUse_of_inUse (h n hn)

end Account.Knows

/-- What a part of a run does to the marks of the code, and to the temporaries. Names come from the
code before or are allowed, or else are those of temporaries that were handed out. A temporary that
was handed out is assigned to once. One whose scope was closed is also declared once, at the top of
the body of a program or function in which all its occurrences are. -/
structure Balances (allowed : String → Prop) (a a' : Account) (marks marks' : List Mark)
    (owners : List Tree) (held closed : List Nat) : Prop where
  ledger : a.Ledger a' held closed
  occurrence : ∀ name, .occurrence name ∈ marks' → .occurrence name ∈ marks ∨ allowed name ∨
    ∃ n ∈ held ++ closed, name = Temps.name n
  declaration : ∀ n, marks'.count (.declaration (Temps.name n)) =
    marks.count (.declaration (Temps.name n)) + closed.count n
  assignment : ∀ n, marks'.count (.assignment (Temps.name n)) =
    marks.count (.assignment (Temps.name n)) + (held ++ closed).count n
  owned : ∀ n ∈ closed, ∃ owner ∈ owners, Temps.name n ∈ owner.openingNames ∧
    owner.marks.count (.occurrence (Temps.name n)) = marks'.count (.occurrence (Temps.name n))

namespace Balances

variable {allowed allowed' : String → Prop} {a a₁ a' b b' : Account}
  {marks marks₁ marks₂ marks' marks₁' marks₂' : List Mark} {owners owners₁ owners₂ : List Tree}
  {held held₁ held₂ closed closed₁ closed₂ : List Nat}

theorem refl (allowed : String → Prop) (sound : a.temps.Sound) (marks : List Mark) :
    Balances allowed a a marks marks [] [] [] where
  ledger := .refl sound
  occurrence _ := .inl
  declaration _ := rfl
  assignment _ := rfl
  owned := List.forall_mem_nil _

theorem congr (h : Balances allowed a a' marks marks' owners held closed) (hb : b.temps = a.temps)
    (hb' : b'.temps = a'.temps) : Balances allowed b b' marks marks' owners held closed :=
  { h with ledger := h.ledger.congr hb hb' }

theorem mono_owners (h : Balances allowed a a' marks marks' owners₁ held closed)
    (howners : owners₁ ⊆ owners₂) : Balances allowed a a' marks marks' owners₂ held closed where
  ledger := h.ledger
  occurrence := h.occurrence
  declaration := h.declaration
  assignment := h.assignment
  owned n hn := by
    obtain ⟨owner, howner, hopens, hcount⟩ := h.owned n hn
    exact ⟨owner, howners howner, hopens, hcount⟩

/-- A temporary that is named in the code after is in use. -/
theorem knows (h : Balances allowed a a' marks marks' owners held closed)
    (known : a.Knows allowed marks) : a'.Knows allowed marks' := by
  have hbefore (n : Nat) (hn : a.temps.InUse n) := h.ledger.inUse_of_inUse hn
  rintro n (hn | hn)
  · exact hbefore n (known n (.inl hn))
  · rcases h.occurrence _ hn with hn | hn | ⟨m, hm, hname⟩
    · exact hbefore n (known n (.inr hn))
    · exact hbefore n (known n (.inl hn))
    · exact Temps.name_injective hname ▸ h.ledger.inUse_of_mem hm

/-- **One part of a run after another,** on other code. -/
theorem append (h₁ : Balances allowed a a₁ marks₁ marks₁' owners₁ held₁ closed₁)
    (h₂ : Balances allowed a₁ a' marks₂ marks₂' owners₂ held₂ closed₂)
    (known : a.Knows allowed (marks₁ ++ marks₂)) :
    Balances allowed a a' (marks₁ ++ marks₂) (marks₁' ++ marks₂') (owners₁ ++ owners₂)
      (held₁ ++ held₂) (closed₁ ++ closed₂) where
  ledger := h₁.ledger.trans h₂.ledger
  occurrence name hname := by
    rcases List.mem_append.mp hname with hname | hname
    · rcases h₁.occurrence name hname with hname | hname | ⟨n, hn, rfl⟩
      · exact .inl (List.mem_append_left _ hname)
      · exact .inr (.inl hname)
      · exact .inr (.inr ⟨n, by grind, rfl⟩)
    · rcases h₂.occurrence name hname with hname | hname | ⟨n, hn, rfl⟩
      · exact .inl (List.mem_append_right _ hname)
      · exact .inr (.inl hname)
      · exact .inr (.inr ⟨n, by grind, rfl⟩)
  declaration n := by
    simp only [List.count_append, h₁.declaration, h₂.declaration]
    omega
  assignment n := by
    simp only [List.count_append, h₁.assignment, h₂.assignment]
    omega
  owned n hn := by
    have known₁ : a.Knows allowed marks₁ :=
      known.of_subset (List.subset_append_left _ _)
    -- A temporary whose scope was closed in one part does not occur in the code of the other.
    rcases List.mem_append.mp hn with hn | hn
    · have hused := h₁.ledger.inUse_of_mem (List.mem_append_right _ hn)
      have habsent : .occurrence (Temps.name n) ∉ marks₂' := fun hmem => by
        have hfresh := h₁.ledger.fresh n (List.mem_append_right _ hn)
        rcases h₂.occurrence _ hmem with hmem | hallowed | ⟨m, hm, hname⟩
        · exact hfresh (known n (.inr (List.mem_append_right _ hmem)))
        · exact hfresh (known n (.inl hallowed))
        · exact h₂.ledger.fresh m hm (Temps.name_injective hname ▸ hused)
      obtain ⟨owner, howner, hopens, hcount⟩ := h₁.owned n hn
      refine ⟨owner, List.mem_append_left _ howner, hopens, ?_⟩
      rw [hcount, List.count_append, List.count_eq_zero_of_not_mem habsent, Nat.add_zero]
    · have hfresh := h₂.ledger.fresh n (List.mem_append_right _ hn)
      have habsent : .occurrence (Temps.name n) ∉ marks₁' := fun hmem =>
        hfresh (h₁.knows known₁ n (.inr hmem))
      obtain ⟨owner, howner, hopens, hcount⟩ := h₂.owned n hn
      refine ⟨owner, List.mem_append_right _ howner, hopens, ?_⟩
      rw [hcount, List.count_append, List.count_eq_zero_of_not_mem habsent, Nat.zero_add]

/-- One part of a run after another, on what has become of the same code. -/
theorem trans (h₁ : Balances allowed a a₁ marks marks₁ owners₁ held₁ [])
    (h₂ : Balances allowed a₁ a' marks₁ marks' owners held₂ closed) :
    Balances allowed a a' marks marks' owners (held₁ ++ held₂) closed where
  ledger := h₁.ledger.trans h₂.ledger
  occurrence name hname := by
    rcases h₂.occurrence name hname with hname | hname | ⟨n, hn, rfl⟩
    · rcases h₁.occurrence name hname with hname | hname | ⟨n, hn, rfl⟩
      · exact .inl hname
      · exact .inr (.inl hname)
      · exact .inr (.inr ⟨n, by grind, rfl⟩)
    · exact .inr (.inl hname)
    · exact .inr (.inr ⟨n, by grind, rfl⟩)
  declaration n := by simp [h₂.declaration, h₁.declaration]
  assignment n := by
    simp only [h₂.assignment, h₁.assignment, List.count_append, List.count_nil]
    omega
  owned := h₂.owned

/-- The same part of a run, on code of which the code at hand is a part. What is found around that
is the same before and after, save for names. -/
theorem adjust (h : Balances allowed a a' marks marks' owners held closed)
    {outer outer' around : List Mark} (known : a.Knows allowed' outer)
    (hallowed : ∀ name, allowed name → .occurrence name ∈ outer ∨ allowed' name)
    (hmarks : ∀ name, .occurrence name ∈ marks → .occurrence name ∈ outer ∨ allowed' name)
    (hafter : outer'.Perm (around ++ marks'))
    (haround : ∀ name, .occurrence name ∈ around →
      .occurrence name ∈ outer ∨ allowed' name ∨ ∃ n ∈ held, name = Temps.name n)
    (hdeclaration : ∀ name, outer.count (.declaration name) =
      around.count (.declaration name) + marks.count (.declaration name))
    (hassignment : ∀ name, outer.count (.assignment name) =
      around.count (.assignment name) + marks.count (.assignment name)) :
    Balances allowed' a a' outer outer' owners held closed where
  ledger := h.ledger
  occurrence name hname := by
    rcases List.mem_append.mp (hafter.mem_iff.mp hname) with hname | hname
    · rcases haround name hname with hname | hname | ⟨n, hn, rfl⟩
      · exact .inl hname
      · exact .inr (.inl hname)
      · exact .inr (.inr ⟨n, List.mem_append_left _ hn, rfl⟩)
    · rcases h.occurrence name hname with hname | hname | hname
      · exact (hmarks name hname).imp_right .inl
      · exact (hallowed name hname).imp_right .inl
      · exact .inr (.inr hname)
  declaration n := by
    rw [hafter.count_eq, List.count_append, h.declaration, hdeclaration]
    omega
  assignment n := by
    rw [hafter.count_eq, List.count_append, h.assignment, hassignment]
    omega
  owned n hn := by
    have habsent : .occurrence (Temps.name n) ∉ around := fun hmem => by
      have hfresh := h.ledger.fresh n (List.mem_append_right _ hn)
      rcases haround _ hmem with hmem | hmem | ⟨m, hm, hname⟩
      · exact hfresh (known n (.inr hmem))
      · exact hfresh (known n (.inl hmem))
      · exact (List.nodup_append.mp h.ledger.nodup).2.2 m hm n hn (Temps.name_injective hname).symm
    obtain ⟨owner, howner, hopens, hcount⟩ := h.owned n hn
    refine ⟨owner, howner, hopens, ?_⟩
    rw [hcount, hafter.count_eq, List.count_append, List.count_eq_zero_of_not_mem habsent,
      Nat.zero_add]

/-- What is allowed may be more. -/
theorem mono (h : Balances allowed a a' marks marks' owners held closed)
    (hallowed : ∀ name, allowed name → allowed' name) :
    Balances allowed' a a' marks marks' owners held closed where
  ledger := h.ledger
  occurrence name hname := (h.occurrence name hname).imp_right (.imp_left (hallowed name))
  declaration := h.declaration
  assignment := h.assignment
  owned := h.owned

/-! ### Steps -/

/-- A temporary is allocated for a value, and the value is assigned to it. In what comes after it
may be named. -/
theorem bind (h : Balances allowed a.allocate a' marks marks' owners held closed)
    (sound : a.temps.Sound)
    (hallowed : ∀ name, allowed name → allowed' name ∨ name = Temps.name a.fresh) :
    Balances allowed' a a' marks
      (.assignment (Temps.name a.fresh) :: .occurrence (Temps.name a.fresh) :: marks') owners
      (a.fresh :: held) closed := by
  have ledger : a.Ledger a' (a.fresh :: held) closed :=
    (Account.Ledger.allocate sound).trans h.ledger
  have hfresh : ∃ n ∈ a.fresh :: held ++ closed, Temps.name a.fresh = Temps.name n :=
    ⟨a.fresh, List.mem_cons_self, rfl⟩
  refine ⟨ledger, fun name hname => ?_, fun n => ?_, fun n => ?_, fun n hn => ?_⟩
  · rcases List.mem_cons.mp hname with hname | hname
    · cases hname
    rcases List.mem_cons.mp hname with hname | hname
    · cases hname
      exact .inr (.inr hfresh)
    rcases h.occurrence name hname with hname | hname | ⟨n, hn, rfl⟩
    · exact .inl hname
    · rcases hallowed name hname with hname | rfl
      · exact .inr (.inl hname)
      · exact .inr (.inr hfresh)
    · exact .inr (.inr ⟨n, List.mem_cons_of_mem _ hn, rfl⟩)
  · simpa using h.declaration n
  · simp only [List.cons_append, List.count_cons, h.assignment, beq_iff_eq, Mark.assignment.injEq,
      Temps.name_injective.eq_iff, reduceCtorEq, if_false]
    omega
  · have hne : a.fresh ≠ n := by
      rintro rfl
      exact (List.nodup_cons.mp ledger.nodup).1 (List.mem_append_right _ hn)
    obtain ⟨owner, howner, hopens, hcount⟩ := h.owned n hn
    refine ⟨owner, howner, hopens, ?_⟩
    simp [hcount, Temps.name_injective.eq_iff, hne]

/-- A temporary is allocated and given back, and not named in between. -/
theorem free (h : Balances allowed a.allocate a' marks marks' owners held closed)
    (sound : a.temps.Sound) (hscopes : a.temps.scopes ≠ []) :
    Balances allowed a (a'.release a.fresh) marks marks' owners held closed :=
  { h with ledger := ((Account.Ledger.allocate sound).trans h.ledger).release hscopes }

theorem count_declareTemps (temps : List Nat) (n : Nat) :
    let marks := (Tree.declareTemps temps).marks
    marks.count (.declaration (Temps.name n)) = temps.count n ∧
      marks.count (.occurrence (Temps.name n)) = temps.count n ∧
      marks.count (.assignment (Temps.name n)) = 0 := by
  rw [Tree.marks_declareTemps]
  induction temps with
  | nil => exact ⟨rfl, rfl, rfl⟩
  | cons m temps ih =>
    simp [List.flatMap_cons, List.count_cons, Temps.name_injective.eq_iff] at ih ⊢
    omega

/-- A scope of temporaries is closed, and what it holds is declared at the top of a body. -/
theorem close (h : Balances allowed a.openScope a' marks marks' owners₁ held closed)
    {owner : Tree} {outer : List Mark}
    (hafter : outer.Perm ((Tree.declareTemps a'.held).marks ++ marks'))
    (hopens : ∀ n ∈ a'.held, Temps.name n ∈ owner.openingNames) (hmarks : owner.marks = outer)
    (howner : owner ∈ owners₂) (howners : owners₁ ⊆ owners₂) :
    Balances allowed a a'.closeScope marks outer owners₂ [] (a'.held ++ closed) := by
  have hcount (n : Nat) := count_declareTemps a'.held n
  have hperm := h.ledger.held_perm
  refine ⟨h.ledger.close, fun name hname => ?_, fun n => ?_, fun n => ?_, fun n hn => ?_⟩
  · rcases List.mem_append.mp (hafter.mem_iff.mp hname) with hname | hname
    · rw [Tree.marks_declareTemps] at hname
      obtain ⟨n, hn, hname⟩ := List.mem_flatMap.mp hname
      obtain rfl : name = Temps.name n := by simpa using hname
      exact .inr (.inr ⟨n, List.mem_append_left closed hn, rfl⟩)
    · rcases h.occurrence name hname with hname | hname | ⟨n, hn, rfl⟩
      · exact .inl hname
      · exact .inr (.inl hname)
      · exact .inr (.inr ⟨n, (hperm.append_right closed).mem_iff.mpr hn, rfl⟩)
  · rw [hafter.count_eq, List.count_append, (hcount n).1, h.declaration, List.count_append]
    omega
  · rw [hafter.count_eq, List.count_append, (hcount n).2.2, h.assignment, List.nil_append,
      (hperm.append_right closed).count_eq]
    omega
  · rcases List.mem_append.mp hn with hn | hn
    · exact ⟨owner, howner, hopens n hn, by rw [hmarks]⟩
    · have hne : n ∉ a'.held := fun hmem =>
        (List.nodup_append.mp h.ledger.nodup).2.2 n (hperm.mem_iff.mp hmem) n hn rfl
      obtain ⟨inner, hinner, hopens, hinnerCount⟩ := h.owned n hn
      refine ⟨inner, howners hinner, hopens, ?_⟩
      rw [hinnerCount, hafter.count_eq, List.count_append, (hcount n).2.1,
        List.count_eq_zero_of_not_mem hne, Nat.zero_add]

/-- Code around the code at hand that stays as it is. -/
theorem between (h : Balances allowed a a' marks marks' owners held closed) (pre post : List Mark)
    (known : a.Knows allowed (pre ++ (marks ++ post))) :
    Balances allowed a a' (pre ++ (marks ++ post))
      (pre ++ (marks' ++ post)) owners held closed := by
  have hperm (marks : List Mark) : (pre ++ (marks ++ post)).Perm ((pre ++ post) ++ marks) := by
    rw [List.append_assoc]
    exact List.perm_append_comm.append_left pre
  have hcount (mark : Mark) : (pre ++ (marks ++ post)).count mark =
      (pre ++ post).count mark + marks.count mark := by
    rw [(hperm marks).count_eq, List.count_append]
  refine h.adjust known (fun _ => .inr) (fun name hname => .inl ?_) (hperm marks')
    (fun name hname => .inl ?_) (fun _ => hcount _) fun _ => hcount _
  · exact (hperm marks).mem_iff.mpr (List.mem_append_right _ hname)
  · exact (hperm marks).mem_iff.mpr (List.mem_append_left _ hname)

/-- A construct whose parts have been rewritten. -/
theorem withChildren {t : Tree} {cs : List Tree}
    (h : Balances allowed a a' (t.shape.children.flatMap Tree.marks) (cs.flatMap Tree.marks)
      (cs.flatMap Tree.owners) held closed) (sound : a.temps.Sound)
    (known : a.Knows allowed t.marks) (plain : t.shape.isClass = false)
    (same : List.Forall₂ Tree.SameNames t.shape.children cs) :
    Balances allowed a a' t.marks (t.withChildren cs).marks (t.withChildren cs).owners held
      closed := by
  rw [Tree.marks_withChildren same plain, Tree.marks_of_plain plain]
  rw [Tree.marks_of_plain plain] at known
  refine ((refl allowed sound _).append h known).mono_owners ?_
  exact Tree.owners_withChildren plain same.length_eq.symm

end Balances

/-! ### The expansion of `super` -/

section Expansion

open Declass.Tree

theorem Tree.marks_strayCall {t word : Tree} {arguments : List Tree}
    (role : t.superRole = .use (.call word arguments)) (arguments' : List Tree) (r : Option Range) :
    (node none (.call word arguments') r).marks = arguments'.flatMap marks := by
  have hword : word.marks = [] := by
    have huse := Shape.isUse_of_superRole role
    rw [Shape.eq_call_of_superRole role] at huse
    cases huse with
    | call hword =>
      have hs := shape_eq_superExpr (t := word) (by simpa using hword)
      rw [marks_of_isUnmarked (by rw [hs]; rfl), hs]
      rfl
  rw [marks_node rfl, Shape.children, List.flatMap_cons, hword, List.nil_append]

variable {allowed : String → Prop} {a a' : Account}

/-- The code of a use of `super`, with the generated leaves in it. -/
theorem Balances.pieces {pieces : List Tree} {before after after' : List Mark} {owners : List Tree}
    {held : List Nat} {names : String → Prop}
    (h : Balances allowed a a' before after owners held [])
    (known : a.Knows allowed before) (hpieces : ∀ leaf ∈ pieces, leaf.IsPiece names)
    (hnames : ∀ name, names name → allowed name ∨ ∃ n ∈ held, name = Temps.name n)
    (hafter : after'.Perm (pieces.flatMap marks ++ after)) :
    Balances allowed a a' before after' owners held [] := by
  have hzero {mark : Mark} (hmark : ∀ name, mark ≠ .occurrence name) :
      (pieces.flatMap marks).count mark = 0 :=
    List.count_eq_zero_of_not_mem fun hmem => by
      obtain ⟨name, rfl, -⟩ := marks_pieces hpieces mark hmem
      exact hmark name rfl
  refine h.adjust known (fun _ => .inr) (fun _ => .inl) hafter (fun name hname => ?_)
    (fun name => ?_) fun name => ?_
  · obtain ⟨_, heq, hname⟩ := marks_pieces hpieces _ hname
    cases heq
    exact .inr (hnames name hname)
  · rw [hzero (by simp), Nat.zero_add]
  · rw [hzero (by simp), Nat.zero_add]

variable {site : Site} {range : Option Range} {use : SuperUse Tree}

/-- A use of `super` that needs no temporary. -/
theorem Balances.direct {before : List Mark} {operands : List Tree} {t : Tree} {held : List Nat}
    (below : Balances allowed a a' before
    (operands.flatMap marks) (operands.flatMap owners) held [])
    (known : a.Knows allowed before) (names : ∀ name, site.Names name → allowed name)
    (code : site.Direct range use operands t) :
    Balances allowed a a' before t.marks t.owners held [] := by
  obtain ⟨pieces, hpieces, hcode⟩ := code.exists_pieces
  have hdone := below.pieces known hpieces (fun name h => .inl (names name h))
    (by rw [← hcode passes_marks])
  rw [hcode passes_owners]
  exact hdone.mono_owners (List.subset_append_right _ _)

/-- A use of `super` that keeps its key in a temporary. -/
theorem Balances.bound {a₁ : Account}
    {before₁ before₂ : List Mark} {key t : Tree} {rest : List Tree}
    {held₁ held₂ : List Nat}
    (keyed : Balances allowed a a₁ before₁ key.marks key.owners held₁ [])
    (rested : Balances allowed a₁.allocate a' before₂ (rest.flatMap marks) (rest.flatMap owners)
      held₂ [])
    (known : a.Knows allowed (before₁ ++ before₂)) (names : ∀ name, site.Names name → allowed name)
    (code : site.Bound range a₁.fresh use key rest t) :
    Balances allowed a a' (before₁ ++ before₂) t.marks t.owners
      (held₁ ++ a₁.fresh :: held₂) [] := by
  obtain ⟨pieces, hpieces, hcode⟩ := code.exists_pieces
  have hall := keyed.append (rested.bind keyed.ledger.sound fun _ => .inl) known
  have hnames : ∀ name, site.Names name ∨ name = Temps.name a₁.fresh →
      allowed name ∨ ∃ n ∈ held₁ ++ a₁.fresh :: held₂, name = Temps.name n := by
    rintro name (h | rfl)
    · exact .inl (names name h)
    · exact .inr ⟨a₁.fresh, List.mem_append_right _ List.mem_cons_self, rfl⟩
  have hafter : t.marks.Perm (pieces.flatMap marks ++ (key.marks ++
      .assignment (Temps.name a₁.fresh) :: .occurrence (Temps.name a₁.fresh) ::
        rest.flatMap marks)) := by
    rw [hcode passes_marks, marks_assign, List.perm_iff_count]
    intro mark
    simp only [List.count_append, List.count_cons]
    omega
  have howners : key.owners ++ rest.flatMap owners ⊆ t.owners := by
    rw [hcode passes_owners]
    refine List.append_subset.mpr ⟨?_, ?_⟩
    · refine List.Subset.trans ?_ (List.subset_append_left _ _)
      exact sweep_subset_of_mem rfl (by simp [assign, gen, Shape.children])
    · exact List.Subset.trans (List.subset_append_right _ _) (List.subset_append_right _ _)
  exact (hall.pieces known hpieces hnames hafter).mono_owners howners

/-- **What the expansion of `super` does to temporaries.** -/
theorem Expands.exists_balances {nested : Bool} {ts ts' : List Tree}
    (h : Expands site nested a ts ts' a') (hscopes : a.temps.scopes ≠ []) (sound : a.temps.Sound)
    (known : a.Knows allowed (ts.flatMap marks)) (runtime : allowed site.runtimeName)
    (className : a'.used = true → allowed site.className) :
    ∃ held, Balances allowed a a' (ts.flatMap marks) (ts'.flatMap marks) (ts'.flatMap owners)
      held [] := by
  have hnames (hclass : allowed site.className) : ∀ name, site.Names name → allowed name := by
    rintro name (rfl | rfl)
    · exact runtime
    · exact hclass
  induction h with
  | nil => exact ⟨[], .refl allowed sound _⟩
  | @cons _ a a₁ a' t t' u ts ts' _ tail ihHead ihTail =>
    rw [List.flatMap_cons] at known
    obtain ⟨held₁, head⟩ := ihHead hscopes sound (known.of_subset (by simp))
      fun hused => className (tail.extends.used hused)
    obtain ⟨held₂, rest⟩ := ihTail (head.ledger.scopes_ne_nil hscopes) head.ledger.sound
      ((known.of_subset (List.subset_append_right _ _)).after head.ledger) className
    rw [List.flatMap_singleton, List.flatMap_singleton, List.flatMap_singleton] at head
    exact ⟨held₁ ++ held₂, head.append rest known⟩
  | walk role below ih | enter role below ih =>
    have plain := isClass_of_superRole_ne (by rw [role]; simp)
    rw [List.flatMap_singleton] at known
    obtain ⟨held, below'⟩ := ih hscopes sound (known.of_subset (flatMap_children_subset plain))
      className
    rw [List.flatMap_singleton, List.flatMap_singleton, List.flatMap_singleton]
    exact ⟨held, below'.withChildren sound known plain below.sameNames⟩
  | classDecl _ ih =>
    rw [List.flatMap_singleton, marks_classDecl] at known ⊢
    obtain ⟨held, below⟩ := ih hscopes sound (known.of_subset (List.Subset.trans
      (List.subset_append_left _ _) (List.subset_append_right _ _))) className
    rw [List.flatMap_singleton, List.flatMap_singleton, marks_classDecl]
    exact ⟨held, (below.between _ _ known).mono_owners (owners_classDecl _ _ _ _ _)⟩
  | classExpr _ ih =>
    rw [List.flatMap_singleton, marks_classExpr] at known ⊢
    obtain ⟨held, below⟩ := ih hscopes sound
      (known.of_subset (List.subset_append_left _ _)) className
    rw [List.flatMap_singleton, List.flatMap_singleton, marks_classExpr]
    exact ⟨held, (below.between [] _ known).mono_owners (owners_classExpr _ _ _ _ _)⟩
  | misplaced _ | bare _ =>
    exact ⟨[], ((Balances.refl allowed sound _).mono_owners (List.nil_subset _)).congr rfl rfl⟩
  | @stray a a' t word arguments arguments' role _ _ ih =>
    have ht := marks_of_superRole role
    rw [List.flatMap_singleton, ht] at known ⊢
    obtain ⟨held, below⟩ := ih hscopes sound known className
    refine ⟨held, ?_⟩
    rw [List.flatMap_singleton, List.flatMap_singleton, marks_strayCall role]
    refine Balances.mono_owners (Balances.congr below rfl rfl) ?_
    refine List.Subset.trans ?_ (flatMap_owners_subset rfl)
    exact List.subset_append_right _ _
  | @direct a a' t t' use operands role _ code ih =>
    have hclass := className rfl
    rw [List.flatMap_singleton, marks_of_superRole role] at known ⊢
    obtain ⟨held, below⟩ := ih hscopes sound known fun _ => hclass
    rw [List.flatMap_singleton, List.flatMap_singleton]
    exact ⟨held, (below.direct known (hnames hclass) code).congr rfl rfl⟩
  | @bound a a₁ a' t t' index key use rest rest' role operands _ below code ihKey ihRest =>
    have hclass := className rfl
    rw [List.flatMap_singleton, marks_of_superRole role, operands] at known ⊢
    rw [List.flatMap_cons] at known
    obtain ⟨held₁, keyed⟩ := ihKey hscopes sound (known.of_subset (by simp)) fun _ => hclass
    have hfresh := Account.Ledger.allocate keyed.ledger.sound
    have known₁ : a₁.Knows allowed (rest.flatMap marks) :=
      (known.of_subset (List.subset_append_right _ _)).after keyed.ledger
    obtain ⟨held₂, rested⟩ := ihRest (hfresh.scopes_ne_nil (keyed.ledger.scopes_ne_nil hscopes))
      hfresh.sound (known₁.after hfresh) fun _ => hclass
    rw [List.flatMap_singleton, List.flatMap_singleton, List.flatMap_singleton] at keyed
    rw [List.flatMap_singleton, List.flatMap_singleton]
    exact ⟨_, (keyed.bound rested known (hnames hclass) code).congr rfl rfl⟩

end Expansion

/-! ### Lowering -/

/-- The names that generated code may use without declaring them: that of the class at hand if
`super` was used in it, and those that are the same everywhere. -/
def Allowed (runtime : String) (c : Option String) (used : Bool) (name : String) : Prop :=
  name = runtime ∨ name = "args" ∨ (used = true ∧ name ∈ c)

namespace Allowed

variable {runtime name : String} {c : Option String} {used used' : Bool}

theorem mono (h : Allowed runtime c used name) (hused : used = true → used' = true) :
    Allowed runtime c used' name :=
  h.imp_right (.imp_right (.imp_left hused))

theorem of_none (h : Allowed runtime none used name) : Allowed runtime c used' name := by
  rcases h with h | h | ⟨-, ⟨⟩⟩
  · exact .inl h
  · exact .inr (.inl h)

theorem not_isTemp (h : Allowed runtime none used name) (hruntime : ¬ IsTemp runtime) :
    ¬ IsTemp name := by
  rcases h with rfl | rfl | ⟨-, ⟨⟩⟩
  · exact hruntime
  · exact fun htemp => absurd htemp.take_toList (by decide +kernel)

/-- What is allowed in a class is allowed anywhere, or it is the name of the class. -/
theorem of_some {d : String} (h : Allowed runtime (some d) used name) :
    Allowed runtime c used' name ∨ (used = true ∧ name = d) := by
  rcases h with h | h | ⟨hused, hname⟩
  · exact .inl (.inl h)
  · exact .inl (.inr (.inl h))
  · exact .inr ⟨hused, (Option.some.inj hname).symm⟩

end Allowed

section Lowering

open Declass.Tree

variable {allowed : String → Prop} {options : Options} {a a₁ a' : Account}

/-- The temporary for a class is known when it has been allocated. -/
theorem Account.Knows.allocate {runtime : String} {marks : List Mark}
    (h : a.Knows (Allowed runtime none true) marks) (sound : a.temps.Sound) :
    a.allocate.Knows (Allowed runtime (some (Temps.name a.fresh)) true) marks := by
  have ledger := Account.Ledger.allocate sound
  have hafter := h.after ledger
  rintro n (hn | hn)
  · rcases hn.of_some with hn | ⟨-, hname⟩
    · exact hafter n (.inl hn)
    · exact Temps.name_injective hname ▸ ledger.inUse_of_mem List.mem_cons_self
  · exact hafter n (.inr hn)

/-- Marks and temporaries balance when trees are lowered, if the temporaries in them are known. -/
def Lowers.Balanced (options : Options) (c : Option String) (a a' : Account) (ts ts' : List Tree) :
    Prop :=
  a.temps.scopes ≠ [] → a.temps.Sound →
    a.Knows (Allowed options.runtimeName c true) (ts.flatMap marks) →
    ∃ held closed, Balances (Allowed options.runtimeName c a'.used) a a' (ts.flatMap marks)
      (ts'.flatMap marks) (ts'.flatMap owners) held closed

theorem occurrence_withConstructor {members : List Tree} {hasBase : Bool} {name : String}
    (h : .occurrence name ∈ (withConstructor members hasBase).flatMap marks) :
    .occurrence name ∈ members.flatMap marks ∨ name = "args" := by
  obtain ⟨extra, hextra, hmembers⟩ := marks_withConstructor members hasBase
  rw [hmembers] at h
  exact (List.mem_append.mp h).imp_right fun h => Mark.occurrence.inj (hextra _ h)

theorem occurrence_append_withConstructor {before : List Mark} {members : List Tree}
    {hasBase : Bool} {name : String}
    (h : .occurrence name ∈ before ++ (withConstructor members hasBase).flatMap marks) :
    .occurrence name ∈ before ++ members.flatMap marks ∨ name = "args" := by
  rw [List.mem_append] at h ⊢
  rcases h with h | h
  · exact .inl (.inl h)
  · exact (occurrence_withConstructor h).imp_left .inr

/-- A default constructor has no temporaries in it. -/
theorem Account.Knows.withConstructor {runtime : String} {c : Option String} {before : List Mark}
    {members : List Tree}
    (h : a.Knows (Allowed runtime c true) (before ++ members.flatMap marks)) (hasBase : Bool) :
    a.Knows (Allowed runtime c true)
      (before ++ (Tree.withConstructor members hasBase).flatMap marks) := by
  refine h.anti (fun _ => .inl) fun name hname => ?_
  rcases occurrence_append_withConstructor hname with hname | hname
  · exact .inr hname
  · exact .inl (.inr (.inl hname))

theorem count_withConstructor (members : List Tree) (hasBase : Bool) {mark : Mark}
    (h : ∀ name, mark ≠ .occurrence name) :
    ((withConstructor members hasBase).flatMap marks).count mark =
      (members.flatMap marks).count mark := by
  obtain ⟨extra, hextra, hmembers⟩ := marks_withConstructor members hasBase
  have hzero : extra.count mark = 0 :=
    List.count_eq_zero_of_not_mem fun hmem => h _ (hextra mark hmem)
  rw [hmembers, List.count_append, hzero, Nat.add_zero]

/-- The call that makes a class, from what its heritage and its members have become. -/
theorem Lowers.Balanced.createClass {a₂ : Account} {c : String} {heritage base : Option Tree}
    {members properties : List Tree}
    (above : Lowers.Balanced options none a a₁ heritage.toList base.toList)
    (below : Lowers.Balanced options (some c) (a₁.withUsed false) a₂
      (withConstructor members base.isSome) properties)
    (hscopes : a.temps.scopes ≠ []) (sound : a.temps.Sound)
    (known : a.Knows (Allowed options.runtimeName (some c) true)
      (heritage.toList.flatMap marks ++ members.flatMap marks))
    (hasConstructor : Bool) (r : Option Range) :
    let call := Tree.createClass options properties hasConstructor base r
    ∃ held closed, Balances (Allowed options.runtimeName (some c) a₂.used) a a₂
      (heritage.toList.flatMap marks ++ members.flatMap marks) call.marks call.owners held
      closed := by
  intro call
  let around : List Mark := [.occurrence options.runtimeName]
  have known' := known.withConstructor base.isSome
  obtain ⟨held₁, closed₁, above⟩ := above hscopes sound
    (known.anti (fun _ h => .inl h.of_none) fun _ h => .inr (List.mem_append_left _ h))
  have known₁ := (known'.of_subset (List.subset_append_right _ _)).after above.ledger
  obtain ⟨held₂, closed₂, below⟩ := below (above.ledger.scopes_ne_nil hscopes) above.ledger.sound
    known₁
  have hparts := (above.mono fun _ h => h.of_none).append (below.congr rfl rfl)
    (known'.anti (fun _ h => .inl (h.mono fun _ => rfl)) fun _ => .inr)
  have hafter : call.marks.Perm
      (around ++ (base.toList.flatMap marks ++ properties.flatMap marks)) := by
    rw [marks_createClass]
    exact List.perm_append_comm.cons _
  have hcount {mark : Mark} (h : ∀ name, mark ≠ .occurrence name) :
      (heritage.toList.flatMap marks ++ members.flatMap marks).count mark =
        around.count mark + (heritage.toList.flatMap marks ++
          (withConstructor members base.isSome).flatMap marks).count mark := by
    have hzero : around.count mark = 0 :=
      List.count_eq_zero_of_not_mem fun hmem => h _ (List.mem_singleton.mp hmem)
    rw [List.count_append, List.count_append, count_withConstructor _ _ h, hzero, Nat.zero_add]
  refine ⟨held₁ ++ held₂, closed₁ ++ closed₂, (hparts.adjust (known.anti
    (fun _ h => .inl (h.mono fun _ => rfl)) fun _ => .inr) (fun _ => .inr)
    (fun _ h => (occurrence_append_withConstructor h).imp_right fun h => .inr (.inl h)) hafter
    (fun name h => ?_) (fun _ => hcount (by simp)) fun _ => hcount (by simp)).mono_owners ?_⟩
  · obtain rfl : name = options.runtimeName := Mark.occurrence.inj (List.mem_singleton.mp h)
    exact .inr (.inl (.inl rfl))
  · exact List.Subset.trans (List.append_subset.mpr
      ⟨List.subset_append_right _ _, List.subset_append_left _ _⟩)
      (owners_createClass options properties hasConstructor base r ▸ List.Subset.refl _)

/-- A program or a function whose parts have been lowered. It may have been wrapped up further. -/
theorem Balances.declaring {t u f : Tree} {cs : List Tree} {before : List Mark}
    {held closed : List Nat}
    (h : Balances allowed a.openScope a' before (cs.flatMap marks) (cs.flatMap owners) held closed)
    (owner : t.shape.ownsTemps = true) (same : List.Forall₂ SameNames t.shape.children cs)
    (wraps : Wraps u f t cs a'.held) :
    Balances allowed a a'.closeScope before u.marks u.owners [] (a'.held ++ closed) := by
  have howner := (ownsTemps_withChildren t cs).trans owner
  have hcs : (t.withChildren cs).marks = cs.flatMap marks := by
    rw [marks_of_isUnmarked (isUnmarked_of_ownsTemps howner),
      children_withChildren same.length_eq.symm]
  rw [wraps.owners_eq]
  refine h.close ?_ (fun n hn => ?_) wraps.self_eq List.mem_cons_self (List.subset_cons_self _ _)
  · rw [wraps.marks_eq, ← hcs]
    exact marks_declaring howner a'.held
  · rw [wraps.openingNames_eq]
    exact openingNames_declaring howner hn

/-- A program, or a function that is no member, whose parts have been lowered. -/
theorem Lowers.Balanced.scope {t : Tree} {cs : List Tree}
    (balanced : Lowers.Balanced options none a.openScope a' t.shape.children cs)
    (owner : t.shape.ownsTemps = true)
    (below : Lowers options none a.openScope t.shape.children cs a') (sound : a.temps.Sound)
    (known : a.Knows (Allowed options.runtimeName none true) t.marks) :
    let t' := (t.withChildren cs).declaring a'.held
    ∃ closed, Balances (Allowed options.runtimeName none a'.used) a a'.closeScope t.marks t'.marks
      t'.owners [] closed := by
  intro t'
  rw [marks_of_isUnmarked (isUnmarked_of_ownsTemps owner)] at known ⊢
  obtain ⟨held, closed, below'⟩ :=
    balanced (List.cons_ne_nil _ _) ⟨sound.nodup, sound.lt_next⟩ known
  exact ⟨a'.held ++ closed, below'.declaring owner below.sameNames
    (wraps_declaring below.length_eq a'.held owner)⟩

/-- A class declaration, whose name occurs in the class itself. -/
theorem Lowers.Balanced.declareClass {a₂ : Account} {o : Option NodeId} {name : Tree}
    {heritage base : Option Tree} {members properties : List Tree} {r : Option Range} {c : String}
    (named : name.name? = some c)
    (above : Lowers.Balanced options none a a₁ heritage.toList base.toList)
    (below : Lowers.Balanced options (some c) (a₁.withUsed false) a₂
      (withConstructor members base.isSome) properties) :
    Lowers.Balanced options none a (a₂.withUsed a₁.used)
      [.node o (.classDecl name heritage members) r]
      [.declareClass options name
        (.createClass options properties (hasConstructor members) base r) r] := by
  intro hscopes sound known
  rw [List.flatMap_singleton, marks_classDecl, named, marks_of_name? named, Option.toList_some,
    List.map_singleton, List.singleton_append] at known ⊢
  let outer : List Mark := [.declaration c, .occurrence c] ++
    (heritage.toList.flatMap marks ++ members.flatMap marks)
  have hclass {used : Bool} {d : String} (h : Allowed options.runtimeName (some c) used d) :
      .occurrence d ∈ outer ∨ Allowed options.runtimeName none true d := by
    rcases h.of_some with h | ⟨-, rfl⟩
    · exact .inr h
    · exact .inl (by simp [outer])
  obtain ⟨held, closed, call⟩ := above.createClass below hscopes sound
    (known.anti (fun _ h => (hclass h).symm) fun _ h => .inr (List.mem_append_right _ h))
    (hasConstructor members) r
  have hdone := call.adjust known (fun _ => hclass)
    (fun _ h => .inl (List.mem_append_right _ h)) (.refl ([.declaration c, .occurrence c] ++ _))
    (fun _ h => .inl (List.mem_append_left _ h)) (fun _ => List.count_append)
    fun _ => List.count_append
  rw [List.flatMap_singleton, List.flatMap_singleton, marks_declareClass options named,
    owners_declareClass options named]
  exact ⟨held, closed, (hdone.mono fun _ => Allowed.of_none).congr rfl rfl⟩

/-- A member, which is expanded and then lowered in a scope of its own. -/
theorem Lowers.Balanced.member {c : String} {t : Tree} {cs cs' : List Tree} {kind : MemberKind}
    (legal : MemberKind.ofShape? t.shape = some kind)
    (expanded : Expands ⟨c, options.runtimeName, kind⟩ false a.openScope t.shape.children cs a₁)
    (below : Lowers options none a₁ cs cs' a')
    (balanced : Lowers.Balanced options none a₁ a' cs cs') :
    Lowers.Balanced options (some c) a a'.closeScope [t]
      [asProperty kind ((t.withChildren cs').declaring a'.held)] := by
  intro hscopes sound known
  have owner := ownsTemps_of_ofShape? legal
  rw [List.flatMap_singleton, marks_of_isUnmarked (isUnmarked_of_ownsTemps owner)] at known ⊢
  have hopen : a.openScope.temps.Sound := ⟨sound.nodup, sound.lt_next⟩
  have hknown : a.openScope.Knows (Allowed options.runtimeName (some c) a'.used)
      (t.shape.children.flatMap marks) :=
    Account.Knows.anti (a := a.openScope) known (fun _ hname => .inl (hname.mono fun _ => rfl))
      fun _ => .inr
  obtain ⟨held₁, expanded'⟩ := expanded.exists_balances (List.cons_ne_nil _ _) hopen hknown
    (.inl rfl) fun hused => .inr (.inr ⟨below.used_eq.2 hused, rfl⟩)
  obtain ⟨held₂, closed, below'⟩ := balanced (expanded'.ledger.scopes_ne_nil (List.cons_ne_nil _ _))
    expanded'.ledger.sound ((expanded'.knows hknown).anti (fun _ hname => .inl hname.of_none)
      fun _ => .inr)
  have hboth := expanded'.trans (below'.mono fun _ => Allowed.of_none)
  have hsame : List.Forall₂ SameNames t.shape.children cs' :=
    forall₂_comp .trans expanded.sameNames below.sameNames
  rw [List.flatMap_singleton, List.flatMap_singleton]
  obtain ⟨f, wraps⟩ := exists_wraps_asProperty hsame.length_eq.symm a'.held legal
  exact ⟨[], a'.held ++ closed, hboth.declaring owner hsame wraps⟩

/-- **What the lowering of classes does to temporaries.** -/
theorem Lowers.balanced {c : Option String} {ts ts' : List Tree}
    (h : Lowers options c a ts ts' a') :
    Lowers.Balanced options c a a' ts ts' := by
  induction h with
  | nil => exact fun _ sound _ => ⟨[], [], .refl _ sound _⟩
  | @cons c a a₁ a' t t' u ts ts' _ tail ihHead ihTail =>
    intro hscopes sound known
    rw [List.flatMap_cons] at known
    obtain ⟨held₁, closed₁, head⟩ := ihHead hscopes sound (known.of_subset (by simp))
    obtain ⟨held₂, closed₂, rest⟩ := ihTail (head.ledger.scopes_ne_nil hscopes) head.ledger.sound
      ((known.of_subset (List.subset_append_right _ _)).after head.ledger)
    rw [List.flatMap_singleton, List.flatMap_singleton, List.flatMap_singleton] at head
    refine ⟨held₁ ++ held₂, closed₁ ++ closed₂, (head.mono fun name hname => ?_).append rest
      (known.anti (fun name hname => .inl ?_) fun _ => .inr)⟩
    · exact hname.mono tail.used_eq.2
    · exact hname.mono fun _ => rfl
  | @walk a a' t cs plain _ below ih =>
    intro hscopes sound known
    rw [List.flatMap_singleton] at known
    obtain ⟨held, closed, below'⟩ := ih hscopes sound
      (known.of_subset (flatMap_children_subset plain))
    rw [List.flatMap_singleton, List.flatMap_singleton, List.flatMap_singleton]
    refine ⟨held, closed, below'.withChildren sound ?_ plain below.sameNames⟩
    exact known.anti (fun _ hname => .inl hname.of_none) fun _ => .inr
  | @scope a a' t cs owner below ih =>
    intro _ sound known
    rw [List.flatMap_singleton] at known
    obtain ⟨closed, hscope⟩ := ih.scope owner below sound known
    rw [List.flatMap_singleton, List.flatMap_singleton, List.flatMap_singleton]
    exact ⟨[], closed, hscope⟩
  | classDecl named _ _ ihAbove ihBelow => exact ihAbove.declareClass named ihBelow
  | @classExprBound a a₁ a₂ o name heritage base members properties r _ _ used ihAbove ihBelow =>
    intro hscopes sound known
    rw [List.flatMap_singleton, marks_classExpr] at known ⊢
    have hfresh := Account.Ledger.allocate sound
    obtain ⟨held, closed, call⟩ := ihAbove.createClass ihBelow (hfresh.scopes_ne_nil hscopes)
      hfresh.sound (known.allocate sound) (hasConstructor members) r
    rw [List.flatMap_singleton, List.flatMap_singleton, marks_assignTemp, owners_assignTemp]
    exact ⟨a.fresh :: held, closed, Balances.congr (call.bind sound fun _ h =>
      h.of_some.imp_right And.right) rfl rfl⟩
  | @classExprFree a a₁ a₂ o name heritage base members properties r _ _ unused ihAbove ihBelow =>
    intro hscopes sound known
    rw [List.flatMap_singleton, marks_classExpr] at known ⊢
    have hfresh := Account.Ledger.allocate sound
    obtain ⟨held, closed, call⟩ := ihAbove.createClass ihBelow (hfresh.scopes_ne_nil hscopes)
      hfresh.sound (known.allocate sound) (hasConstructor members) r
    rw [List.flatMap_singleton, List.flatMap_singleton]
    refine ⟨held, closed, Balances.congr ((call.mono fun d h => ?_).free sound hscopes) rfl rfl⟩
    rcases h.of_some with h | ⟨hused, -⟩
    · exact h
    · rw [unused] at hused
      cases hused
  | member legal expanded below ih => exact ih.member legal expanded below

/-- In a lowered program all temporaries belong to scopes that are closed. -/
theorem Lowers.exists_balances_program {t t' : Tree} (owner : t.shape.ownsTemps = true)
    (h : Lowers options none a [t] [t'] a') (sound : a.temps.Sound)
    (known : a.Knows (Allowed options.runtimeName none true) t.marks) :
    ∃ closed, Balances (Allowed options.runtimeName none a'.used) a a' t.marks t'.marks t'.owners []
      closed := by
  cases h with
  | walk _ shared _ =>
    rw [owner] at shared
    cases shared
  | scope _ below => exact below.balanced.scope owner below sound known
  | classDecl | classExprBound | classExprFree => cases owner

/-- A temporary that is not in the code before is declared and assigned to once, and there is one
body that has it. -/
theorem Balances.single {t : Tree} {marks : List Mark} {closed : List Nat}
    (h : Balances allowed a a' marks t.marks t.owners [] closed) {n : Nat} (hn : n ∈ closed)
    (absent : ∀ mark ∈ marks, mark.name ≠ Temps.name n) :
    t.marks.count (.declaration (Temps.name n)) = 1 ∧
      t.marks.count (.assignment (Temps.name n)) = 1 ∧
      ∃ owner, t.owners.filter (fun u => Temps.name n ∈ u.openingNames) = [owner] ∧
        owner.marks.count (.occurrence (Temps.name n)) =
          t.marks.count (.occurrence (Temps.name n)) := by
  have hzero {mark : Mark} (hmark : mark.name = Temps.name n) : marks.count mark = 0 :=
    List.count_eq_zero_of_not_mem fun hmem => absent mark hmem hmark
  have hone : closed.count n = 1 := List.count_eq_one_of_mem h.ledger.nodup hn
  have hdeclared : t.marks.count (.declaration (Temps.name n)) = 1 := by
    rw [h.declaration, hzero rfl, hone]
  refine ⟨hdeclared, by rw [h.assignment, hzero rfl, List.nil_append, hone], ?_⟩
  obtain ⟨owner, howner, hopens, hcount⟩ := h.owned n hn
  have hmem : owner ∈ t.owners.filter fun u => Temps.name n ∈ u.openingNames :=
    List.mem_filter.mpr ⟨howner, decide_eq_true hopens⟩
  have hle : (t.owners.filter fun u => Temps.name n ∈ u.openingNames).length ≤ 1 := by
    have hbound := countP_owners_add_le (Temps.name n) t
    rw [List.countP_eq_length_filter] at hbound
    omega
  have hlength := Nat.le_antisymm hle (List.length_pos_of_mem hmem)
  obtain ⟨only, honly⟩ := List.length_eq_one_iff.mp hlength
  rw [honly, List.mem_singleton] at hmem
  exact ⟨owner, by rw [honly, hmem], hcount⟩

end Lowering

/-! ### Programs -/

/-- The name stands somewhere in a program, declared or used. -/
def Store.Mentions (s : Store) (root : NodeId) (name : String) : Prop :=
  ∃ id node, s.Reaches root id ∧ s.get? id = some node ∧ node.shape.name? = some name

namespace Store.Grounded

variable {s : Store} {root id : NodeId} {n : Nat} {name : String}

theorem everywhere_mentions (hg : s.Grounded root) :
    (s.tree n root).Everywhere fun u => ∀ name, u.name? = some name → s.Mentions root name :=
  hg.everywhere fun id node hreach found _ hname =>
    ⟨id, node, hreach, found, ((hg.reaches hreach).name?_tree found).symm.trans hname⟩

/-- What occurs in the tree is mentioned in the program. -/
theorem mentions_of_occurrence (hg : s.Grounded root)
    (h : .occurrence name ∈ (s.tree n root).marks) : s.Mentions root name :=
  Tree.of_occurrence hg.everywhere_mentions h

/-- Without classes, what is mentioned occurs in the tree. -/
theorem occurrence_of_mentions (hg : s.Grounded root) (classFree : (s.tree n root).ClassFree)
    (h : s.Mentions root name) : .occurrence name ∈ (s.tree n root).marks := by
  obtain ⟨id, node, hreach, found, hname⟩ := h
  exact (hg.everywhere_of_reaches classFree.everywhere_occurrence hreach).root name
    (((hg.reaches hreach).name?_tree found).trans hname)

end Store.Grounded

/-- A store none of whose nodes is spelled like a temporary. -/
theorem Store.not_isTemp_of_all {s : Store} {root : NodeId} {name : String}
    (hall : ∀ node ∈ s.nodes.toList, ∀ name ∈ node.shape.name?,
      name.toList.take 3 ≠ ['$', '_', '_']) (h : s.Mentions root name) : ¬ IsTemp name := by
  obtain ⟨id, node, -, found, hname⟩ := h
  exact fun htemp => hall node (mem_nodes_of_get? found) name hname htemp.take_toList

/-- **Temporaries are declared once and assigned to once.** The names in a lowered program are those
of the source, that of the runtime, that of the rest parameter of default constructors, and those of
temporaries. If neither the source nor the runtime has a name that is spelled like a temporary, then
each temporary in the lowered program is declared in one place and assigned to in one place. There
is one program or function that declares it in the first statement of its body, and all its
occurrences are in there. -/
theorem lowerProgram_temporaries {s : Store} {root lowered : NodeId} {options : Options}
    {state : LoweringState} {session : Session LoweringState} (closed : s.Closed root)
    (acyclic : s.Acyclic root)
    (isProgram : ∃ statements range, s.get? root = some ⟨.program statements, range⟩)
    (names : ∀ name, s.Mentions root name → ¬ IsTemp name)
    (runtime : ¬ IsTemp options.runtimeName) (sound : state.temps.Sound)
    (run : (lowerProgram options root).runOn ⟨s, state⟩ = (.ok lowered, session)) :
    let program := session.store.tree s.size lowered
    session.state.temps.Sound ∧
      (∀ name, session.store.Mentions lowered name →
        s.Mentions root name ∨ name = options.runtimeName ∨ name = "args" ∨ IsTemp name) ∧
      ∀ n, session.store.Mentions lowered (Temps.name n) →
        program.marks.count (.declaration (Temps.name n)) = 1 ∧
          program.marks.count (.assignment (Temps.name n)) = 1 ∧
          ∃ owner, program.owners.filter (fun u => Temps.name n ∈ u.openingNames) = [owner] ∧
            owner.marks.count (.occurrence (Temps.name n)) =
              program.marks.count (.occurrence (Temps.name n)) := by
  intro program
  have hg : s.Grounded root := Store.grounded_iff.mpr ⟨closed, acyclic⟩
  obtain ⟨hlowered, hlowers⟩ := hg.lowers run
  have hsource (name : String) (h : .occurrence name ∈ (s.tree s.size root).marks) :
      s.Mentions root name :=
    hg.mentions_of_occurrence h
  have known : state.view.account.Knows (Allowed options.runtimeName none true)
      (s.tree s.size root).marks := by
    rintro n (hname | hname)
    · exact absurd ⟨n, rfl⟩ (hname.not_isTemp runtime)
    · exact absurd ⟨n, rfl⟩ (names _ (hsource _ hname))
  obtain ⟨numbers, hbalances⟩ :=
    hlowers.exists_balances_program (hg.ownsTemps_tree isProgram s.size) sound known
  have hoccurrence (name : String) (h : session.store.Mentions lowered name) :=
    hbalances.occurrence name
      (hlowered.occurrence_of_mentions (hlowers.classFree _ List.mem_cons_self) h)
  refine ⟨hbalances.ledger.sound, fun name hname => ?_, fun n hn => ?_⟩
  · rcases hoccurrence name hname with h | (h | h | ⟨-, ⟨⟩⟩) | ⟨n, -, rfl⟩
    · exact .inl (hsource name h)
    · exact .inr (.inl h)
    · exact .inr (.inr (.inl h))
    · exact .inr (.inr (.inr ⟨n, rfl⟩))
  · refine hbalances.single ?_ fun mark hmark hname => ?_
    · rcases hoccurrence _ hn with h | h | ⟨m, hm, hname⟩
      · exact absurd ⟨n, rfl⟩ (names _ (hsource _ h))
      · exact absurd ⟨n, rfl⟩ (h.not_isTemp runtime)
      · exact Temps.name_injective hname ▸ hm
    · exact names _ (hsource _ (Tree.occurrence_of_mem_marks hmark)) ⟨n, hname⟩

/-- `class {}; class { m() { () => super[k] += v; } };`: the first class needs no temporary after
all. -/
def reuseStore : Store where
  nodes := #[⟨.classExpr none none [], none⟩, ⟨.exprStatement ⟨0⟩, none⟩, ⟨.superExpr, none⟩,
    ⟨.identifier "k", none⟩, ⟨.lookup ⟨2⟩ ⟨3⟩, none⟩, ⟨.identifier "v", none⟩,
    ⟨.binary ⟨4⟩ "+=" ⟨5⟩, none⟩, ⟨.arrow [] ⟨6⟩, none⟩, ⟨.exprStatement ⟨7⟩, none⟩,
    ⟨.block [⟨8⟩], none⟩, ⟨.method (.identifier "m") [] ⟨9⟩, none⟩,
    ⟨.classExpr none none [⟨10⟩], none⟩, ⟨.exprStatement ⟨11⟩, none⟩, ⟨.program [⟨1⟩, ⟨12⟩], none⟩]

/-- `$__0` is handed out for the first class and again for the second, and `$__1` is for the key. -/
theorem lowerProgram_temporaries_reuse : ∃ lowered session,
    (lowerProgram {} ⟨13⟩).runOn ⟨reuseStore, {}⟩ = (.ok lowered, session) ∧
      session.state.temps.Sound ∧
      ∀ n ∈ [0, 1], session.store.Mentions lowered (Temps.name n) ∧
        let program := session.store.tree reuseStore.size lowered
        program.marks.count (.declaration (Temps.name n)) = 1 ∧
          program.marks.count (.assignment (Temps.name n)) = 1 ∧
          ∃ owner, program.owners.filter (fun u => Temps.name n ∈ u.openingNames) = [owner] ∧
            owner.marks.count (.occurrence (Temps.name n)) =
              program.marks.count (.occurrence (Temps.name n)) := by
  have fits : reuseStore.Fits 14 ⟨13⟩ := by decide +kernel
  obtain ⟨closed, acyclic⟩ := Store.grounded_iff.mp fits.grounded
  have names : ∀ name, reuseStore.Mentions ⟨13⟩ name → ¬ IsTemp name :=
    fun _ => Store.not_isTemp_of_all (by decide +kernel)
  have runtime : ¬ IsTemp ({} : Options).runtimeName := fun h =>
    absurd h.take_toList (by decide +kernel)
  have ok : ((lowerProgram {} ⟨13⟩).runOn ⟨reuseStore, {}⟩).1.isOk ∧
      ∀ lowered ∈ ((lowerProgram {} ⟨13⟩).runOn ⟨reuseStore, {}⟩).1.toOption,
        let store := ((lowerProgram {} ⟨13⟩).runOn ⟨reuseStore, {}⟩).2.store
        store.Fits store.size lowered ∧ ∀ n ∈ [0, 1],
          .occurrence (Temps.name n) ∈ (store.tree reuseStore.size lowered).marks := by
    decide +kernel
  generalize run : (lowerProgram {} ⟨13⟩).runOn ⟨reuseStore, {}⟩ = out at ok ⊢
  obtain ⟨_ | lowered, session⟩ := out
  · cases ok.1
  · obtain ⟨hfits, hoccurs⟩ := ok.2 lowered rfl
    obtain ⟨sound, -, single⟩ := lowerProgram_temporaries closed acyclic ⟨_, _, rfl⟩ names runtime
      Temps.sound_default run
    refine ⟨lowered, session, rfl, sound, fun n hn => ?_⟩
    have hmentions := hfits.grounded.mentions_of_occurrence (hoccurs n hn)
    exact ⟨hmentions, single n hmentions⟩

/-- `class C {}` -/
def emptyClassStore : Store where
  nodes := #[⟨.binding "C", none⟩, ⟨.classDecl ⟨0⟩ none [], none⟩, ⟨.program [⟨1⟩], none⟩]

/-- A runtime that is named like a temporary. -/
def mimicOptions : Options where
  runtimeName := "$__0"

/-- **A runtime that is named like a temporary is taken for one,** though nothing declares it. -/
theorem lowerProgram_temporaries_runtime : ∃ lowered session,
    (lowerProgram mimicOptions ⟨2⟩).runOn ⟨emptyClassStore, {}⟩ = (.ok lowered, session) ∧
      (∀ name, emptyClassStore.Mentions ⟨2⟩ name → ¬ IsTemp name) ∧
      session.store.Mentions lowered (Temps.name 0) ∧
      let program := session.store.tree emptyClassStore.size lowered
      program.marks.count (.declaration (Temps.name 0)) = 0 ∧
        program.marks.count (.assignment (Temps.name 0)) = 0 := by
  have names : ∀ name, emptyClassStore.Mentions ⟨2⟩ name → ¬ IsTemp name :=
    fun _ => Store.not_isTemp_of_all (by decide +kernel)
  have ok : ((lowerProgram mimicOptions ⟨2⟩).runOn ⟨emptyClassStore, {}⟩).1.isOk ∧
      ∀ lowered ∈ ((lowerProgram mimicOptions ⟨2⟩).runOn ⟨emptyClassStore, {}⟩).1.toOption,
        let store := ((lowerProgram mimicOptions ⟨2⟩).runOn ⟨emptyClassStore, {}⟩).2.store
        let program := store.tree emptyClassStore.size lowered
        store.Fits store.size lowered ∧ .occurrence (Temps.name 0) ∈ program.marks ∧
          program.marks.count (.declaration (Temps.name 0)) = 0 ∧
          program.marks.count (.assignment (Temps.name 0)) = 0 := by
    decide +kernel
  generalize run : (lowerProgram mimicOptions ⟨2⟩).runOn ⟨emptyClassStore, {}⟩ = out
    at ok ⊢
  obtain ⟨_ | lowered, session⟩ := out
  · cases ok.1
  · obtain ⟨fits, hoccurs, hcounts⟩ := ok.2 lowered rfl
    exact ⟨lowered, session, rfl, names, fits.grounded.mentions_of_occurrence hoccurs, hcounts⟩

end Declass
