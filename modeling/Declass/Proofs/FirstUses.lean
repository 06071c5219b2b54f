import Mathlib.Data.List.Flatten
import Mathlib.Data.List.Pairwise
import Declass.Proofs.Accepted
import Declass.Proofs.Emission

/-!
# Where undefined names are reported

An undefined name is reported where it is used first. First in the order of emission, that is, for
the check reads lowered code. In the order of the text the same use comes first, unless some class
has it in its heritage and another undefined use of the name in its members: the members are emitted
before the heritage, so a use in them overtakes the one that is written before it.

## Main definitions

* `Tree.references` — the uses of names in the order of the nodes of a tree
* `Tree.Overtakes` — a class whose members overtake its heritage

## Main results

* `Tree.find?_emittedRefs_iff` — when the first use in the text is the first one emitted
* `Compiler.compile_reports_first` — where undefined names are reported
-/

namespace Declass

/-! ### References in the order of the text -/

/-- The children in which uses of names are looked for. -/
def ScopeRule.seen {α : Type} (rule : ScopeRule α) : List α :=
  rule.parts ++ rule.inner.toList.flatMap InnerScope.parts

theorem Shape.sublist_children_seen {α : Type} (s : Shape α) :
    s.scopeRule.seen.Sublist s.children := by
  cases s <;> simp [ScopeRule.seen, scopeRule, children]

namespace Tree

/-- The uses of names in a tree, in the order of its nodes. -/
def references : Tree → List Reference :=
  para fun _ shape range => (shape.use? range).toList ++ shape.children.flatMap Prod.snd

theorem references_node (o : Option NodeId) (s : Shape Tree) (r : Option Range) :
    references (.node o s r) = (s.use? r).toList ++ s.children.flatMap references := by
  rw [references, para_node, ← references, Shape.use?_map, Shape.children_map, List.flatMap_map]

/-- The references of the uses that are written in a tree. -/
def textRefs (t : Tree) : List Reference :=
  t.written.map Use.reference

/-- The references of the uses that a tree emits. -/
def emittedRefs (t : Tree) : List Reference :=
  t.emissions.map Use.reference

end Tree

theorem ScopeRule.map_reference_collect {α : Type} (tree : α → Tree) (f : α → List Use)
    (rule : ScopeRule α) : (rule.collect tree f).map Use.reference =
      rule.seen.flatMap fun c => (f c).map Use.reference := by
  obtain ⟨hoisted, declared, parts, inner⟩ := rule
  cases inner <;>
    simp [collect, seen, List.map_flatMap, Function.comp_def]

namespace Tree

variable {t : Tree} {p : Reference → Bool} {first : Reference}

theorem textRefs_eq (t : Tree) :
    t.textRefs = (ownUses t.shape t.range).map Use.reference ++
      t.shape.scopeRule.seen.flatMap textRefs := by
  rw [textRefs, written_eq, List.map_append, ScopeRule.map_reference_collect]
  rfl

theorem textRefs_of_class {parts : ClassParts Tree} (h : t.shape.classParts? = some parts) :
    t.textRefs = parts.heritage.toList.flatMap textRefs ++ parts.members.flatMap textRefs := by
  rw [textRefs, written_of_class h, List.map_append, List.map_flatMap, List.map_flatMap]
  rfl

theorem emittedRefs_of_class {parts : ClassParts Tree} (h : t.shape.classParts? = some parts) :
    t.emittedRefs =
      parts.members.flatMap emittedRefs ++ parts.heritage.toList.flatMap emittedRefs := by
  rw [emittedRefs, emissions_of_class h, List.map_append, List.map_flatMap, List.map_flatMap]
  rfl

theorem emittedRefs_of_plain (h : t.shape.isClass = false) :
    t.emittedRefs = (ownUses t.shape t.range).map Use.reference ++
      t.shape.scopeRule.seen.flatMap emittedRefs := by
  rw [emittedRefs, emissions_of_plain h, List.map_append, ScopeRule.map_reference_collect]
  rfl

theorem emittedRefs_perm (t : Tree) : t.emittedRefs.Perm t.textRefs :=
  t.emissions_perm.map _

theorem uses_eq (t : Tree) :
    t.uses = (t.shape.use? t.range).toList.map (fun reference => ⟨reference, []⟩) ++
      t.shape.scopeRule.collect id uses := by
  obtain ⟨o, s, r⟩ := t
  rw [uses_node]
  simp only [ScopeRule.collect, InnerScope.map_id, shape_node, range_node]

/-- What is used in a tree is found among its nodes. -/
theorem uses_sublist (t : Tree) : (t.uses.map Use.reference).Sublist t.references := by
  induction t with
  | node o s r ih =>
    rw [uses_eq, references_node, List.map_append, ScopeRule.map_reference_collect, List.map_map,
      shape_node, range_node]
    refine .append (by simp [Function.comp_def]) ?_
    exact (s.sublist_children_seen.flatMap _).trans (.flatMap_right _ ih)

theorem textRefs_sublist (t : Tree) : t.textRefs.Sublist t.references :=
  (List.filter_sublist.map _).trans t.uses_sublist

/-- The uses of names in the tree stand in the text one after the other. -/
def InOrder (t : Tree) : Prop :=
  ∃ ranges : List Range, t.references.map Reference.range = ranges.map some ∧
    ranges.Pairwise fun r r' => compare r r' = .lt

namespace InOrder

variable (h : t.InOrder)

include h

theorem pairwise : t.references.Pairwise fun a b =>
    ∃ r r', a.range = some r ∧ b.range = some r' ∧ compare r r' = .lt := by
  obtain ⟨ranges, hranges, hlt⟩ := h
  have hsome : (ranges.map some).Pairwise fun x y => ∃ r r', x = some r ∧ y = some r' ∧
      compare r r' = .lt :=
    List.pairwise_map.mpr (hlt.imp fun hcompare => ⟨_, _, rfl, rfl, hcompare⟩)
  rw [← hranges] at hsome
  exact List.pairwise_map.mp hsome

theorem nodup : t.references.Nodup := by
  refine h.pairwise.imp fun ⟨r, r', hr, hr', hlt⟩ heq => ?_
  rw [heq, hr'] at hr
  cases hr
  have hself : compare r r = .eq := Std.ReflCmp.compare_self
  rw [hself] at hlt
  cases hlt

theorem isSome_range {use : Reference} (huse : use ∈ t.references) : use.range.isSome := by
  obtain ⟨ranges, hranges, -⟩ := h
  have hmem : use.range ∈ ranges.map some := hranges ▸ List.mem_map_of_mem huse
  obtain ⟨r, -, hr⟩ := List.mem_map.mp hmem
  rw [← hr]
  rfl

theorem written_eq_uses : t.written = t.uses :=
  List.filter_eq_self.mpr fun _ hu =>
    h.isSome_range (t.uses_sublist.subset (List.mem_map_of_mem hu))

theorem isSome_range_of_mem_undefined {ambient : List String} {use : Reference}
    (huse : use ∈ t.undefined ambient) : use.range.isSome := by
  obtain ⟨u, hu, rfl⟩ := List.mem_map.mp (mem_undefined.mp huse).1
  exact h.isSome_range (t.uses_sublist.subset (List.mem_map_of_mem (List.mem_of_mem_filter hu)))

end InOrder

/-! ### Overtaking -/

/-- The tree is a class with `first` in its heritage and a use that `p` holds of in its members. -/
def Overtakes (p : Reference → Bool) (first : Reference) (t : Tree) : Prop :=
  ∃ parts ∈ t.shape.classParts?, first ∈ parts.heritage.toList.flatMap textRefs ∧
    ∃ other ∈ parts.members.flatMap textRefs, p other = true

instance (p : Reference → Bool) (first : Reference) (t : Tree) : Decidable (t.Overtakes p first) :=
  inferInstanceAs (Decidable (∃ parts ∈ t.shape.classParts?, _ ∧ ∃ other ∈ _, _))

theorem everywhere_not_overtakes (h : first ∉ t.references) :
    t.Everywhere fun u => ¬ u.Overtakes p first := by
  induction t with
  | node o s r ih =>
    rw [references_node, List.mem_append, not_or] at h
    refine .node ?_ fun c hc => ih c hc fun hmem => h.2 (List.mem_flatMap.mpr ⟨c, hc, hmem⟩)
    rintro ⟨parts, hparts, hfirst, -⟩
    obtain ⟨c, hc, hmem⟩ := List.mem_flatMap.mp hfirst
    refine h.2 (List.mem_flatMap.mpr ⟨c, ?_, (textRefs_sublist c).subset hmem⟩)
    exact Shape.mem_children_of_mem_heritage hparts (Option.mem_toList.mp hc)

/-- Where references are not repeated, only the child that holds the first one matters. -/
theorem forall_children_iff {s : Shape Tree}
    (nodup : (s.children.flatMap references).Nodup) {c : Tree}
    (hc : c ∈ s.children) (hfirst : first ∈ c.textRefs) :
    (∀ d ∈ s.children, d.Everywhere fun u => ¬ u.Overtakes p first) ↔
      c.Everywhere fun u => ¬ u.Overtakes p first := by
  refine ⟨fun h => h c hc, fun h d hd => ?_⟩
  by_cases heq : d = c
  · exact heq ▸ h
  · have : Std.Symm (Function.onFun List.Disjoint references) := ⟨fun _ _ h => h.symm⟩
    have hdisjoint : List.Disjoint d.references c.references :=
      (List.nodup_flatMap.mp nodup).2.forall hd hc heq
    exact everywhere_not_overtakes fun hmem => hdisjoint hmem ((textRefs_sublist c).subset hfirst)

theorem find?_emittedRefs_eq_none_iff :
    t.emittedRefs.find? p = none ↔ t.textRefs.find? p = none := by
  simp only [List.find?_eq_none, t.emittedRefs_perm.mem_iff]

/-- The tree of a list that holds what is found first in the order of the text also holds what is
found first in the order of emission. -/
theorem exists_find?_flatMap {cs : List Tree} (h : (cs.flatMap textRefs).find? p = some first) :
    ∃ c ∈ cs, c.textRefs.find? p = some first ∧
      (cs.flatMap emittedRefs).find? p = c.emittedRefs.find? p := by
  rw [List.find?_flatMap] at h ⊢
  obtain ⟨before, c, after, rfl, hc, hbefore⟩ := List.findSome?_eq_some_iff.mp h
  refine ⟨c, by simp, hc, ?_⟩
  have hnone : before.findSome? (fun c => c.emittedRefs.find? p) = none :=
    List.findSome?_eq_none_iff.mpr fun d hd => find?_emittedRefs_eq_none_iff.mpr (hbefore d hd)
  rw [List.findSome?_append, hnone, Option.none_or, List.findSome?_cons]
  cases hemitted : c.emittedRefs.find? p with
  | some _ => rfl
  | none =>
    rw [find?_emittedRefs_eq_none_iff, hc] at hemitted
    cases hemitted

theorem find?_flatMap_emittedRefs_eq_none_iff {cs : List Tree} :
    (cs.flatMap emittedRefs).find? p = none ↔ (cs.flatMap textRefs).find? p = none := by
  simp only [List.find?_flatMap, List.findSome?_eq_none_iff, find?_emittedRefs_eq_none_iff]

/-- When two lists of trees are emitted the other way round, what is found first stays the first iff
it is not in the one list while the other has something to be found too. -/
theorem exists_find?_append {cs ms : List Tree}
    (nodup : (cs.flatMap textRefs ++ ms.flatMap textRefs).Nodup)
    (h : (cs.flatMap textRefs ++ ms.flatMap textRefs).find? p = some first) :
    ∃ c ∈ cs ++ ms, c.textRefs.find? p = some first ∧
      ((ms.flatMap emittedRefs ++ cs.flatMap emittedRefs).find? p = some first ↔
        ¬ (first ∈ cs.flatMap textRefs ∧ ∃ other ∈ ms.flatMap textRefs, p other = true) ∧
          c.emittedRefs.find? p = some first) := by
  have hdisjoint := (List.nodup_append'.mp nodup).2.2
  rw [List.find?_append] at h
  simp only [List.find?_append]
  cases hcs : (cs.flatMap textRefs).find? p with
  | none =>
    rw [hcs, Option.none_or] at h
    obtain ⟨c, hc, hfound, hemitted⟩ := exists_find?_flatMap h
    refine ⟨c, List.mem_append_right _ hc, hfound, ?_⟩
    have hnot : first ∉ cs.flatMap textRefs := fun hmem =>
      hdisjoint hmem (List.mem_of_find?_eq_some h)
    rw [hemitted, find?_flatMap_emittedRefs_eq_none_iff.mpr hcs, Option.or_none,
      and_iff_right fun hover => hnot hover.1]
  | some _ =>
    rw [hcs, Option.some_or] at h
    cases h
    obtain ⟨c, hc, hfound, hemitted⟩ := exists_find?_flatMap hcs
    refine ⟨c, List.mem_append_left _ hc, hfound, ?_⟩
    have hmem : first ∈ cs.flatMap textRefs := List.mem_of_find?_eq_some hcs
    cases hms : (ms.flatMap emittedRefs).find? p with
    | none =>
      have hnot : ¬ ∃ other ∈ ms.flatMap textRefs, p other = true := by
        have hnone := List.find?_eq_none.mp (find?_flatMap_emittedRefs_eq_none_iff.mp hms)
        exact fun ⟨other, hother, hp⟩ => hnone other hother hp
      rw [Option.none_or, hemitted, and_iff_right fun hover => hnot hover.2]
    | some other =>
      have hperm : (ms.flatMap emittedRefs).Perm (ms.flatMap textRefs) :=
        .flatMap_left _ fun m _ => m.emittedRefs_perm
      have hother : other ∈ ms.flatMap textRefs :=
        hperm.mem_iff.mp (List.mem_of_find?_eq_some hms)
      have hne : other ≠ first := fun heq => hdisjoint hmem (heq ▸ hother)
      rw [Option.some_or]
      exact iff_of_false (by simpa using hne) fun hover =>
        hover.1 ⟨hmem, other, hother, List.find?_some hms⟩

theorem sublist_use? {s : Shape Tree} {r : Option Range} :
    ((ownUses s r).map Use.reference).Sublist (s.use? r).toList := by
  rw [ownUses, List.map_map]
  exact (List.map_id'' (fun _ => rfl) _).symm ▸ List.filter_sublist

/-- **The first use in the text is the first one emitted** iff no class overtakes it. -/
theorem find?_emittedRefs_iff (nodup : t.references.Nodup)
    (hfirst : t.textRefs.find? p = some first) :
    t.emittedRefs.find? p = some first ↔ t.Everywhere fun u => ¬ u.Overtakes p first := by
  induction t with
  | node o s r ih =>
    have hnodup : (node o s r).textRefs.Nodup := nodup.sublist (textRefs_sublist _)
    rw [references_node, List.nodup_append'] at nodup
    obtain ⟨-, hchildren, hown⟩ := nodup
    have hstep {c : Tree} (hc : c ∈ s.children) (hfound : c.textRefs.find? p = some first) :
        c.emittedRefs.find? p = some first ↔
          ∀ d ∈ s.children, d.Everywhere fun u => ¬ u.Overtakes p first := by
      rw [forall_children_iff hchildren hc (List.mem_of_find?_eq_some hfound)]
      exact ih c hc ((List.nodup_flatMap.mp hchildren).1 c hc) hfound
    rw [everywhere_node]
    cases hparts : s.classParts? with
    | none =>
      have plain : s.isClass = false := by cases s <;> first | rfl | cases hparts
      have hroot : ¬ (node o s r).Overtakes p first := by
        rintro ⟨parts, hsome, -⟩
        rw [shape_node, hparts] at hsome
        cases hsome
      rw [textRefs_eq, List.find?_append] at hfirst
      rw [emittedRefs_of_plain (t := node o s r) plain, List.find?_append, and_iff_right hroot]
      cases hfound : ((ownUses s r).map Use.reference).find? p with
      | some own =>
        rw [shape_node, range_node, hfound, Option.some_or] at hfirst
        simp only [shape_node, range_node, hfound, Option.some_or, hfirst, true_iff]
        have hmem : first ∈ (s.use? r).toList := by
          cases hfirst
          exact sublist_use?.subset (List.mem_of_find?_eq_some hfound)
        exact fun c hc => everywhere_not_overtakes fun h =>
          hown hmem (List.mem_flatMap.mpr ⟨c, hc, h⟩)
      | none =>
        rw [shape_node, range_node, hfound, Option.none_or] at hfirst
        obtain ⟨c, hc, hfound', hemitted⟩ := exists_find?_flatMap hfirst
        rw [shape_node, range_node, hfound, Option.none_or, hemitted]
        exact hstep (s.sublist_children_seen.subset hc) hfound'
    | some parts =>
      have hsub := (Shape.sublist_children_of_classParts? hparts).subset
      rw [textRefs_of_class (t := node o s r) hparts] at hnodup hfirst
      rw [emittedRefs_of_class (t := node o s r) hparts]
      have hroot : (node o s r).Overtakes p first ↔
          first ∈ parts.heritage.toList.flatMap textRefs ∧
            ∃ other ∈ parts.members.flatMap textRefs, p other = true := by
        simp [Overtakes, hparts]
      obtain ⟨c, hc, hfound, hiff⟩ := exists_find?_append hnodup hfirst
      rw [hiff, hroot, hstep (hsub hc) hfound]

/-! ### Undefined uses -/

/-- The uses of names in a program that no scope binds, in the order of emission. -/
def emittedUndefined (ambient : List String) (t : Tree) : List Reference :=
  unbound (t.emissions.map (Use.within (ambient ++ (t.vars ++ t.locals))))

theorem unbound_cons (u : Use) (us : List Use) :
    unbound (u :: us) = if u.isBound then unbound us else u.reference :: unbound us := by
  cases h : u.isBound <;> simp [unbound, h]

theorem firstUse_unbound {us : List Use} {name : String} {p : Reference → Bool}
    (hp : ∀ u ∈ us, p u.reference = (!u.isBound && u.reference.name == name)) :
    firstUse (unbound us) name = (us.map Use.reference).find? p := by
  induction us with
  | nil => rfl
  | cons u us ih =>
    obtain ⟨hu, hus⟩ := List.forall_mem_cons.mp hp
    have htail := ih hus
    rw [firstUse] at htail
    rw [unbound_cons, List.map_cons, List.find?_cons, hu]
    cases u.isBound with
    | true => simpa [firstUse] using htail
    | false => cases hname : u.reference.name == name <;> simp [firstUse, hname, htail]

/-- The undefined uses that come from the text. -/
theorem unbound_filter_isLocated (us : List Use) :
    unbound (us.filter Use.isLocated) = (unbound us).filter fun use => use.range.isSome := by
  rw [unbound, unbound, List.filter_map, List.filter_filter, List.filter_filter]
  refine congrArg _ (List.filter_congr fun u _ => Bool.and_comm _ _)

/-- Uses that match are undefined together. -/
theorem firstUse_unbound_of_matches {us us' : List Use} (h : List.Forall₂ Use.Matches us us')
    {names names' : List String} (hnames : AgreeOnNames names names') {name : String}
    (hname : ¬ IsTemp name) :
    firstUse (unbound (us'.map (Use.within names'))) name =
      firstUse (unbound (us.map (Use.within names))) name := by
  induction h with
  | nil => rfl
  | @cons u u' us us' head _ ih =>
    have hmatches := head.within hnames
    rw [firstUse, firstUse] at ih
    rw [List.map_cons, List.map_cons, unbound_cons, unbound_cons, hmatches.reference_eq]
    by_cases heq : u.reference.name = name
    · rw [hmatches.isBound_eq (by rwa [Use.reference_within, heq])]
      cases (u.within names).isBound <;> simp [firstUse, ih, heq]
    · cases (u.within names).isBound <;> cases (u'.within names').isBound <;>
        simp [firstUse, ih, heq]

section Lookup

variable {ambient : List String} {name : String}

/-- Where references are not repeated, a use is told by its reference. -/
theorem mem_undefined_iff_isBound (nodup : (t.uses.map Use.reference).Nodup) {u : Use}
    (hu : u ∈ t.uses) : u.reference ∈ t.undefined ambient ↔
      (u.within (ambient ++ (t.vars ++ t.locals))).isBound = false := by
  rw [undefined, unbound, List.mem_map]
  constructor
  · rintro ⟨v, hv, heq⟩
    obtain ⟨hv, hbound⟩ := List.mem_filter.mp hv
    obtain ⟨w, hw, rfl⟩ := List.mem_map.mp hv
    obtain rfl := List.inj_on_of_nodup_map nodup hw hu heq
    simpa using hbound
  · intro hbound
    exact ⟨_, List.mem_filter.mpr ⟨List.mem_map_of_mem hu, by simpa using hbound⟩, rfl⟩

theorem firstUse_eq_find? (nodup : (t.uses.map Use.reference).Nodup) {us : List Use}
    (hus : ∀ u ∈ us, u ∈ t.uses) :
    firstUse (unbound (us.map (Use.within (ambient ++ (t.vars ++ t.locals))))) name =
      (us.map Use.reference).find? fun use =>
        decide (use ∈ t.undefined ambient ∧ use.name = name) := by
  rw [firstUse_unbound (p := fun use => decide (use ∈ t.undefined ambient ∧ use.name = name)),
    List.map_map]
  · rfl
  · intro u hu
    obtain ⟨v, hv, rfl⟩ := List.mem_map.mp hu
    have hmem : v.reference ∈ t.undefined ambient ↔ _ := mem_undefined_iff_isBound nodup (hus v hv)
    rw [Use.reference_within, Bool.eq_iff_iff]
    simp only [decide_eq_true_eq, hmem, Bool.and_eq_true, Bool.not_eq_true', beq_iff_eq]

/-- What is found first in the order of the text has the smallest range. -/
theorem InOrder.ble_of_find? (ordered : t.InOrder) (hfirst : t.textRefs.find? p = some first)
    {other : Reference} (hother : other ∈ t.textRefs) (hp : p other = true) :
    ∃ r ∈ first.range, ∃ r' ∈ other.range, r.ble r' = true := by
  have hpairwise := ordered.pairwise.sublist t.textRefs_sublist
  have hsome := ordered.isSome_range (t.textRefs_sublist.subset (List.mem_of_find?_eq_some hfirst))
  obtain ⟨-, before, after, heq, hbefore⟩ := List.find?_eq_some_iff_append.mp hfirst
  rw [heq] at hpairwise hother
  rcases List.mem_append.mp hother with hmem | hmem
  · have hnot := hbefore other hmem
    rw [hp] at hnot
    cases hnot
  · rcases List.mem_cons.mp hmem with rfl | hmem
    · obtain ⟨r, hr⟩ := Option.isSome_iff_exists.mp hsome
      have hself : compare r r = .eq := Std.ReflCmp.compare_self
      exact ⟨r, hr, r, hr, by rw [Range.ble, hself]; rfl⟩
    · obtain ⟨-, hafter, -⟩ := List.pairwise_append.mp hpairwise
      obtain ⟨r, r', hr, hr', hlt⟩ := (List.pairwise_cons.mp hafter).1 other hmem
      exact ⟨r, hr, r', hr', by rw [Range.ble, hlt]; rfl⟩

/-- **What is emitted first and what is written first,** of the undefined uses of a name. -/
theorem InOrder.exists_first (ordered : t.InOrder) {use : Reference}
    (h : firstUse (t.emittedUndefined ambient) use.name = some use) :
    ∃ first ∈ t.undefined ambient, first.name = use.name ∧
      (∀ other ∈ t.undefined ambient, other.name = use.name →
        ∃ r ∈ first.range, ∃ r' ∈ other.range, r.ble r' = true) ∧
      (use = first ↔ t.Everywhere fun u => ¬ u.Overtakes
        (fun other => decide (other ∈ t.undefined ambient ∧ other.name = use.name)) first) := by
  have huses := ordered.written_eq_uses
  have hnodup : (t.uses.map Use.reference).Nodup := ordered.nodup.sublist t.uses_sublist
  have hmem : ∀ u ∈ t.emissions, u ∈ t.uses := fun u hu =>
    huses ▸ t.emissions_perm.mem_iff.mp hu
  rw [emittedUndefined, firstUse_eq_find? hnodup hmem] at h
  change t.emittedRefs.find? _ = _ at h
  obtain ⟨first, hfirst⟩ : ∃ first, t.textRefs.find?
      (fun other => decide (other ∈ t.undefined ambient ∧ other.name = use.name)) = some first := by
    rw [← Option.isSome_iff_exists, ← Option.ne_none_iff_isSome, Ne,
      ← find?_emittedRefs_eq_none_iff, h]
    exact Option.some_ne_none use
  have hfound : first ∈ t.undefined ambient ∧ first.name = use.name := by
    simpa using List.find?_some hfirst
  refine ⟨first, hfound.1, hfound.2, fun other hother hname => ?_, ?_⟩
  · have hother' : other ∈ t.textRefs := by
      obtain ⟨v, hv, rfl⟩ := List.mem_map.mp hother
      obtain ⟨u, hu, rfl⟩ := List.mem_map.mp (List.mem_filter.mp hv).1
      exact List.mem_map.mpr ⟨u, huses ▸ hu, rfl⟩
    exact ordered.ble_of_find? hfirst hother' (by simp [hother, hname])
  · rw [← find?_emittedRefs_iff ordered.nodup hfirst, h, Option.some_inj]

end Lookup

end Tree

theorem firstUse_filter_of_eq_some {uses : List Reference} {name : String} {use : Reference}
    (h : firstUse uses name = some use) {q : Reference → Bool} (hq : q use = true) :
    firstUse (uses.filter q) name = some use := by
  rw [firstUse, List.find?_eq_some_iff_append] at h
  obtain ⟨hname, before, after, rfl, hbefore⟩ := h
  rw [firstUse, List.find?_eq_some_iff_append]
  refine ⟨hname, before.filter q, after.filter q, by simp [hq], fun a ha => ?_⟩
  exact hbefore a (List.mem_filter.mp ha).1

/-! ### Lowered programs -/

namespace Lowers

variable {options : Options} {a a' : Account} {t t' : Tree}

/-- The scope of a program binds the same names as before, save temporaries. -/
theorem agreeOnNames_program (owner : t.shape.ownsTemps = true)
    (h : Lowers options none a [t] [t'] a') (ambient : List String) :
    AgreeOnNames (ambient ++ (t.vars ++ t.locals)) (ambient ++ (t'.vars ++ t'.locals)) := by
  intro c hc
  have heffect := (h.renders_program owner).effect
  have hvars := heffect.mem_vars_iff hc
  have hlocals := heffect.locals_eq
  simp only [Tree.effect, List.mem_toFinset] at hvars
  simp only [Tree.effect, List.toFinset.ext_iff] at hlocals
  rw [List.mem_append, List.mem_append, List.mem_append, List.mem_append, hvars, hlocals c]

/-- **What is undefined in a lowered program** is first used where it is first emitted. -/
theorem firstUse_emittedUndefined (owner : t.shape.ownsTemps = true)
    (h : Lowers options none a [t] [t'] a') {ambient : List String} {use : Reference}
    (hfirst : firstUse (t'.undefined ambient) use.name = some use) (located : use.range.isSome)
    (notTemp : ¬ IsTemp use.name) : firstUse (t.emittedUndefined ambient) use.name = some use := by
  have hclassFree := h.classFree t' List.mem_cons_self
  have hwritten := firstUse_filter_of_eq_some hfirst (q := fun use => use.range.isSome) located
  rw [Tree.undefined, ← Tree.unbound_filter_isLocated, List.filter_map] at hwritten
  change firstUse (Tree.unbound (t'.written.map (Use.within _))) _ = _ at hwritten
  rw [← hclassFree.emissions_eq, Tree.firstUse_unbound_of_matches (h.corresponds_program owner)
    (h.agreeOnNames_program owner ambient) notTemp] at hwritten
  exact hwritten

end Lowers

namespace Compiler

variable {compiler : Compiler} {s store' : Store} {root : NodeId} {log log' : Log}
  {compiled : Compiled}

/-- Every undefined name is found. -/
theorem exists_mem_found {t t' : Tree} {a a' : Account} {found : List Reference}
    (hlowers : Lowers compiler.config.options none a [t] [t'] a') (owner : t.shape.ownsTemps = true)
    (hfirsts : Firsts found (t'.undefined compiler.ambientNames)) {use : Reference}
    (huse : use ∈ t.undefined compiler.ambientNames) (located : use.range.isSome)
    (notTemp : ¬ IsTemp use.name) : ∃ v ∈ found, v.name = use.name := by
  have hrenders := (hlowers.renders_program owner).mono fun name hname =>
    hname ▸ compiler.runtimeName_mem_ambientNames
  exact List.mem_map.mp
    (hfirsts.mem_names_iff.mpr ⟨use, hrenders.mem_undefined huse ⟨located, notTemp⟩, rfl⟩)

/-- **Undefined names are reported where they are first emitted.** Each of them that is not spelled
like a temporary is reported. This is at the first place in the text where it is used without being
bound, iff no class has that place in its heritage and uses the name in its members as well. -/
theorem compile_reports_first (closed : s.Closed root) (acyclic : s.Acyclic root)
    (isProgram : ∃ statements range, s.get? root = some ⟨.program statements, range⟩)
    (ordered : (s.tree s.size root).InOrder)
    (noPasses : compiler.passes = [])
    (compiles : compiler.compile root s log = (.ok compiled, store', log')) :
    let t := s.tree s.size root
    let undefined := t.undefined compiler.ambientNames
    ∃ found : List Reference,
      compiled.diagnostics.diagnostics.toList.filter (·.code == Message.nameNotDefined.code) =
        found.map (fun use =>
          compiled.diagnostics.diagnostic use.range .nameNotDefined [use.name]) ∧
      (∀ use ∈ undefined, ¬ IsTemp use.name → ∃ v ∈ found, v.name = use.name) ∧
      ∀ use ∈ found, ¬ IsTemp use.name →
        firstUse (t.emittedUndefined compiler.ambientNames) use.name = some use ∧
        ∃ first ∈ undefined, first.name = use.name ∧
          (∀ other ∈ undefined, other.name = use.name →
            ∃ r ∈ first.range, ∃ r' ∈ other.range, r.ble r' = true) ∧
          (use = first ↔ t.Everywhere fun u => ¬ u.Overtakes
            (fun other => decide (other ∈ undefined ∧ other.name = use.name)) first) := by
  intro t undefined
  have hg : s.Grounded root := Store.grounded_iff.mpr ⟨closed, acyclic⟩
  obtain ⟨t', a, a', found, hlowers, -, hfirsts, hlocated, hdiagnostics⟩ :=
    exists_of_compile_eq hg noPasses compiles
  have owner : t.shape.ownsTemps = true := hg.ownsTemps_tree isProgram s.size
  refine ⟨found, hdiagnostics, fun use huse notTemp => ?_, fun use huse notTemp => ?_⟩
  · exact exists_mem_found hlowers owner hfirsts huse (ordered.isSome_range_of_mem_undefined huse)
      notTemp
  have hemitted := hlowers.firstUse_emittedUndefined owner ((hfirsts.mem_iff use).mp huse)
    (hlocated use huse) notTemp
  exact ⟨hemitted, ordered.exists_first hemitted⟩

/-- `class C extends X { m() { Y; } } X;`, with each node on a line of its own. -/
def loneHeirStore : Store where
  nodes := #[⟨.binding "C", some (.onLine 2 0 1)⟩, ⟨.identifier "X", some (.onLine 3 0 1)⟩,
    ⟨.identifier "Y", some (.onLine 7 0 1)⟩, ⟨.exprStatement ⟨2⟩, some (.onLine 6 0 1)⟩,
    ⟨.block [⟨3⟩], some (.onLine 5 0 1)⟩, ⟨.method (.identifier "m") [] ⟨4⟩, some (.onLine 4 0 1)⟩,
    ⟨.classDecl ⟨0⟩ (some ⟨1⟩) [⟨5⟩], some (.onLine 1 0 1)⟩,
    ⟨.identifier "X", some (.onLine 9 0 1)⟩, ⟨.exprStatement ⟨7⟩, some (.onLine 8 0 1)⟩,
    ⟨.program [⟨6⟩, ⟨8⟩], some (.onLine 0 0 1)⟩]

/-- `X` is reported in the heritage, where it is used first, and nowhere else. -/
theorem compile_reports_first_loneHeir : ∃ compiled store' log',
    ({} : Compiler).compile ⟨9⟩ loneHeirStore {} = (.ok compiled, store', log') ∧
      ∃ found : List Reference,
        compiled.diagnostics.diagnostics.toList.filter (·.code == Message.nameNotDefined.code) =
          found.map (fun use =>
            compiled.diagnostics.diagnostic use.range .nameNotDefined [use.name]) ∧
        ⟨"X", some (.onLine 3 0 1)⟩ ∈ found ∧
        ∀ use ∈ found, use.name = "X" → use.range = some (.onLine 3 0 1) := by
  have fits : loneHeirStore.Fits 10 ⟨9⟩ := by decide +kernel
  have source : loneHeirStore.PlainSource ⟨9⟩ :=
    Store.plainSource_of_all (Store.wellFormed_of_all fits (by decide +kernel)) rfl
      (by decide +kernel) (by decide +kernel) (by decide +kernel)
  let t := loneHeirStore.tree loneHeirStore.size ⟨9⟩
  have ordered : t.InOrder :=
    ⟨[.onLine 3 0 1, .onLine 7 0 1, .onLine 9 0 1], by decide +kernel, by decide +kernel⟩
  have hundefined : t.undefined ({} : Compiler).ambientNames =
      [⟨"X", some (.onLine 3 0 1)⟩, ⟨"Y", some (.onLine 7 0 1)⟩, ⟨"X", some (.onLine 9 0 1)⟩] := by
    decide +kernel
  have notTemp : ¬ IsTemp "X" := fun h => absurd h.take_toList (by decide +kernel)
  obtain ⟨compiled, store', log', compiles⟩ := exists_compiles {} source.toSource rfl rfl {}
  obtain ⟨found, hdiagnostics, hall, hfound⟩ :=
    compile_reports_first source.closed source.acyclic source.isProgram ordered rfl compiles
  have hrange (use : Reference) (huse : use ∈ found) (hname : use.name = "X") :
      use.range = some (.onLine 3 0 1) := by
    obtain ⟨-, first, hfirst, hsame, hsmallest, hiff⟩ := hfound use huse (hname ▸ notTemp)
    rw [hundefined] at hfirst hsmallest hiff
    rw [hname] at hsame hsmallest hiff
    simp only [List.mem_cons, List.not_mem_nil, or_false] at hfirst
    rcases hfirst with rfl | rfl | rfl
    · rw [hiff.mpr (by decide +kernel)]
    · exact absurd hsame (by decide)
    · obtain ⟨r, hr, r', hr', hble⟩ := hsmallest _ List.mem_cons_self rfl
      cases hr
      cases hr'
      exact absurd hble (by decide)
  obtain ⟨⟨name, range⟩, hmem, rfl⟩ := hall ⟨"X", some (.onLine 3 0 1)⟩
    (by rw [hundefined]; exact List.mem_cons_self) notTemp
  exact ⟨compiled, store', log', compiles, found, hdiagnostics, hrange _ hmem rfl ▸ hmem, hrange⟩

/-- Where a single name is undefined, there is one diagnostic, on the use that is emitted first. -/
theorem exists_compiles_reporting (compiler : Compiler) (source : s.Source root)
    (noPasses : compiler.passes = [])
    (varBinding : compiler.config.options.blockBinding = false) (log : Log) (use : Reference)
    (single : ∀ other ∈ (s.tree s.size root).undefined compiler.ambientNames, other.name = use.name)
    (mem : use ∈ (s.tree s.size root).undefined compiler.ambientNames)
    (first : firstUse ((s.tree s.size root).emittedUndefined compiler.ambientNames)
      use.name = some use)
    (notTemp : ¬ IsTemp use.name) :
    ∃ compiled store' log', compiler.compile root s log = (.ok compiled, store', log') ∧
      compiled.diagnostics.diagnostics.toList.filter (·.code == Message.nameNotDefined.code) =
        [compiled.diagnostics.diagnostic use.range .nameNotDefined [use.name]] := by
  obtain ⟨compiled, store', log', compiles⟩ :=
    exists_compiles compiler source noPasses varBinding log
  obtain ⟨t', a, a', found, hlowers, -, hfirsts, hlocated, hdiagnostics⟩ :=
    exists_of_compile_eq source.grounded noPasses compiles
  have owner := source.grounded.ownsTemps_tree source.isProgram s.size
  have hrenders := (hlowers.renders_program owner).mono fun name hname =>
    hname ▸ compiler.runtimeName_mem_ambientNames
  have hall (v : Reference) (hv : v ∈ found) : v = use := by
    have hfirst := (hfirsts.mem_iff v).mp hv
    have hname := single v (hrenders.mem_undefined_of_mem (List.mem_of_find?_eq_some hfirst))
    have hemitted := hlowers.firstUse_emittedUndefined owner hfirst
      (hlocated v hv) (hname ▸ notTemp)
    rw [hname, first] at hemitted
    exact (Option.some.inj hemitted).symm
  have hfound : use ∈ found := by
    have hlocated : use.range.isSome := source.located_undefined s.size mem
    obtain ⟨v, hv, -⟩ := exists_mem_found hlowers owner hfirsts mem hlocated notTemp
    exact hall v hv ▸ hv
  have hsingleton : found = [use] := by
    have hnodup : found.Nodup := hfirsts.nodup.of_map
    rw [List.eq_replicate_of_mem hall] at hnodup hfound ⊢
    have hlength := List.nodup_replicate.mp hnodup
    have hpos := List.length_pos_of_mem hfound
    rw [List.length_replicate] at hpos
    rw [le_antisymm hlength hpos, List.replicate_one]
  exact ⟨compiled, store', log', compiles, by rw [hdiagnostics, hsingleton, List.map_singleton]⟩

/-- `class C extends X { m() { X; } }`, with each node on a line of its own. -/
def overtakenStore : Store where
  nodes := #[⟨.binding "C", some (.onLine 2 0 1)⟩, ⟨.identifier "X", some (.onLine 3 0 1)⟩,
    ⟨.identifier "X", some (.onLine 7 0 1)⟩, ⟨.exprStatement ⟨2⟩, some (.onLine 6 0 1)⟩,
    ⟨.block [⟨3⟩], some (.onLine 5 0 1)⟩, ⟨.method (.identifier "m") [] ⟨4⟩, some (.onLine 4 0 1)⟩,
    ⟨.classDecl ⟨0⟩ (some ⟨1⟩) [⟨5⟩], some (.onLine 1 0 1)⟩,
    ⟨.program [⟨6⟩], some (.onLine 0 0 1)⟩]

/-- **A use that is overtaken:** `X` is undefined in the heritage, and reported in the member. -/
theorem compile_reports_overtaken :
    ⟨"X", some (.onLine 3 0 1)⟩ ∈ (overtakenStore.tree 8 ⟨7⟩).undefined
      ({} : Compiler).ambientNames ∧
    ∃ compiled store' log', ({} : Compiler).compile ⟨7⟩ overtakenStore {} =
      (.ok compiled, store', log') ∧
      compiled.diagnostics.diagnostics.toList.filter (·.code == Message.nameNotDefined.code) =
        [compiled.diagnostics.diagnostic (some (.onLine 7 0 1)) .nameNotDefined ["X"]] := by
  have fits : overtakenStore.Fits 8 ⟨7⟩ := by decide +kernel
  have source : overtakenStore.PlainSource ⟨7⟩ :=
    Store.plainSource_of_all (Store.wellFormed_of_all fits (by decide +kernel)) rfl
      (by decide +kernel) (by decide +kernel) (by decide +kernel)
  have notTemp : ¬ IsTemp "X" := fun h => absurd h.take_toList (by decide +kernel)
  refine ⟨by decide +kernel, ?_⟩
  exact exists_compiles_reporting {} source.toSource rfl rfl {} ⟨"X", some (.onLine 7 0 1)⟩
    (by decide +kernel) (by decide +kernel) (by decide +kernel) notTemp

end Compiler

end Declass
