import Declass.Proofs.Misuses

/-!
# What a lowering comes upon

A lowering reports uses of `super` and goes on; at a fault it stops, and what it would have reported
later is not reported. The reports and the faults of a tree, in the order in which a lowering comes
upon them, are its findings. A lowering reports those before the first fault. This holds of failing
lowerings too, and depends on nothing but the tree.

## Main definitions

* `Finding`, `Tree.findings`

## Main results

* `Lowers.findings_eq`, `Halts.stopsAt` — what is reported, without and with a fault
* `StopsAt.unique` — the fault and the reports before it are given by the findings
-/

namespace Declass

/-- Something that a lowering comes upon: a use of `super` to be reported, or a fault. -/
inductive Finding where
  | report (misuse : Misuse)
  | fault (fault : Fault)

namespace Tree

/-- The findings of a tree, in the order in which a lowering would come upon them. -/
def findings : Tree → List Finding :=
  gather (fun _ _ => []) fun parts =>
    parts.name.toList.flatMap (fun name => (nameFaults name.1).map .fault) ++
      (parts.heritage.toList.flatMap Prod.snd ++ parts.members.flatMap fun member =>
        (memberFaults member.1).map .fault ++ ((memberMisuses member.1).map .report ++ member.2))

/-- The findings of a member of a class. -/
def memberFindings (t : Tree) : List Finding :=
  t.memberFaults.map .fault ++ (t.memberMisuses.map .report ++ t.findings)

/-- The findings of code, or of a member of a class. -/
def findingsAs : Option String → Tree → List Finding
  | none, t => t.findings
  | some _, t => t.memberFindings

theorem findings_of_not_isClass {t : Tree} (h : t.shape.isClass = false) :
    t.findings = t.shape.children.flatMap findings := by
  rw [findings, gather_of_not_isClass h, List.nil_append]

theorem findings_of_class {t : Tree} {parts : ClassParts Tree}
    (h : t.shape.classParts? = some parts) :
    t.findings = parts.name.toList.flatMap (fun name => name.nameFaults.map .fault) ++
      (parts.heritage.toList.flatMap findings ++ parts.members.flatMap memberFindings) := by
  obtain ⟨o, s, r⟩ := t
  rw [shape_node] at h
  rw [findings, gather_node, h]
  cases hname : parts.name <;> cases hheritage : parts.heritage <;>
    simp [ClassParts.map, hname, hheritage, List.flatMap_map] <;> rfl

theorem findings_classDecl (o : Option NodeId) (name : Tree) (heritage : Option Tree)
    (members : List Tree) (r : Option Range) :
    findings (.node o (.classDecl name heritage members) r) = name.nameFaults.map .fault ++
      (heritage.toList.flatMap findings ++ members.flatMap memberFindings) := by
  rw [findings_of_class rfl, Option.toList_some, List.flatMap_singleton]

theorem flatMap_findings_eq {ts : List Tree}
    (h : ∀ t ∈ ts, t.faults = [] → t.findings = t.misuses.map .report)
    (hfaults : ts.flatMap faults = []) :
    ts.flatMap findings = (ts.flatMap misuses).map .report := by
  rw [List.map_flatMap]
  exact List.flatMap_congr fun t ht => h t ht (List.flatMap_eq_nil_iff.mp hfaults t ht)

/-- Without faults there are only reports. -/
theorem findings_eq_of_faults {t : Tree} (h : t.faults = []) :
    t.findings = t.misuses.map .report := by
  induction t with
  | node o s r ih =>
    cases hparts : s.classParts? with
    | none =>
      have plain : (Tree.node o s r).shape.isClass = false :=
        Shape.isClass_of_classParts?_eq_none hparts
      rw [faults_of_not_isClass plain] at h
      rw [findings_of_not_isClass plain, misuses_of_not_isClass plain]
      exact flatMap_findings_eq ih h
    | some parts =>
      have hclass : (Tree.node o s r).shape.classParts? = some parts := hparts
      have hsub := (Shape.sublist_children_of_classParts? hparts).subset
      rw [faults_of_class hclass, List.append_eq_nil_iff, List.append_eq_nil_iff] at h
      obtain ⟨hname, hheritage, hmembers⟩ := h
      rw [findings_of_class hclass, misuses_of_class hclass, List.map_append, List.map_flatMap,
        ← List.map_flatMap, hname, List.map_nil, List.nil_append]
      congr 1
      · rw [flatMap_findings_eq (fun c hc => ih c (hsub (List.mem_append_left _ hc))) hheritage,
          List.map_flatMap]
      · rw [List.map_flatMap]
        refine List.flatMap_congr fun m hm => ?_
        obtain ⟨hmember, hbelow⟩ :=
          List.append_eq_nil_iff.mp (List.flatMap_eq_nil_iff.mp hmembers m hm)
        rw [memberFindings, hmember, ih m (hsub (List.mem_append_right _ hm)) hbelow,
          List.map_append]
        rfl

end Tree

theorem Expands.findings_eq {site : Site} {nested : Bool} {a a' : Account} {ts ts' : List Tree}
    (h : Expands site nested a ts ts' a') :
    ts'.flatMap Tree.findings = ts.flatMap Tree.findings := by
  refine flatMap_eq_of_forall₂ (h.gather_eq (fun _ _ _ => rfl) (fun _ => rfl) (fun _ _ _ => rfl) ?_)
  intro name h h' ms hh
  cases h <;> cases h' <;> simp_all

/-! ### Lowerings -/

section

variable {options : Options} {c : Option String} {a a₁ a' : Account} {t : Tree} {ts ts' : List Tree}
  {fs : List Finding} {fault fault' : Fault}

open Declass.Tree

/-- A lowering that succeeds comes upon no fault. -/
theorem Lowers.findings_eq (h : Lowers options c a ts ts' a') :
    ts.flatMap (findingsAs c) = (ts.flatMap (misusesAs c)).map .report := by
  have hfaults := List.flatMap_eq_nil_iff.mp h.faults_eq_nil
  rw [List.map_flatMap]
  refine List.flatMap_congr fun t ht => ?_
  cases c with
  | none => exact findings_eq_of_faults (hfaults t ht)
  | some c =>
    obtain ⟨hmember, hbelow⟩ := List.append_eq_nil_iff.mp (hfaults t ht)
    rw [findingsAs, memberFindings, hmember, findings_eq_of_faults hbelow, misusesAs,
      List.map_append]
    rfl

/-- Of these findings, `fault` is the first fault, and `a'` is `a` after the reports before it. -/
def StopsAt (a : Account) (fs : List Finding) (fault : Fault) (a' : Account) : Prop :=
  ∃ misuses rest, fs = misuses.map .report ++ .fault fault :: rest ∧
    a'.bag = a.bag.reportAll misuses

namespace StopsAt

theorem here (fault : Fault) (a : Account) (fs : List Finding) :
    StopsAt a (.fault fault :: fs) fault a :=
  ⟨[], fs, rfl, by simp⟩

theorem append (h : StopsAt a fs fault a') (gs : List Finding) : StopsAt a (fs ++ gs) fault a' := by
  obtain ⟨misuses, rest, rfl, hbag⟩ := h
  exact ⟨misuses, rest ++ gs, by simp, hbag⟩

theorem after {misuses : List Misuse} (h : StopsAt a₁ fs fault a')
    (hbag : a₁.bag = a.bag.reportAll misuses) :
    StopsAt a (misuses.map .report ++ fs) fault a' := by
  obtain ⟨later, rest, rfl, hbag'⟩ := h
  exact ⟨misuses ++ later, rest, by simp, by rw [hbag', hbag, Bag.reportAll_append]⟩

/-- The findings say which fault is met, and what is reported before. -/
theorem unique {b b' : Account} (h : StopsAt a fs fault a') (h' : StopsAt b fs fault' b') :
    fault = fault' ∧ ∃ misuses, a'.bag = a.bag.reportAll misuses ∧
      b'.bag = b.bag.reportAll misuses := by
  obtain ⟨misuses, rest, rfl, hbag⟩ := h
  obtain ⟨misuses', rest', heq, hbag'⟩ := h'
  suffices fault = fault' ∧ misuses = misuses' by
    obtain ⟨rfl, rfl⟩ := this
    exact ⟨rfl, misuses, hbag, hbag'⟩
  clear hbag hbag'
  induction misuses generalizing misuses' with
  | nil =>
    cases misuses' with
    | nil =>
      cases heq
      exact ⟨rfl, rfl⟩
    | cons => cases heq
  | cons m misuses ih =>
    cases misuses' with
    | nil => cases heq
    | cons m' misuses' =>
      obtain ⟨hhead, htail⟩ := List.cons.inj heq
      obtain ⟨rfl, rfl⟩ := ih misuses' htail
      exact ⟨rfl, congrArg (· :: misuses) (Finding.report.inj hhead)⟩

end StopsAt

/-- What is lowered before the fault comes with its reports. -/
theorem Lowers.stopsAt {us us' : List Tree} (done : Lowers options c a us us' a₁)
    (h : StopsAt a₁ fs fault a') : StopsAt a (us.flatMap (findingsAs c) ++ fs) fault a' := by
  rw [done.findings_eq]
  exact h.after done.bag_eq

/-- **A lowering that fails reports what comes before the first fault.** -/
theorem Halts.stopsAt (h : Halts options c a ts fault a') :
    StopsAt a (ts.flatMap (findingsAs c)) fault a' := by
  have singleton (c : Option String) (t : Tree) : [t].flatMap (findingsAs c) = t.findingsAs c :=
    List.flatMap_singleton _ _
  induction h with
  | head _ ih =>
    rw [singleton] at ih
    exact ih.append _
  | tail done _ ih =>
    rw [List.flatMap_cons, ← singleton]
    exact done.stopsAt ih
  | walk plain _ _ ih => rwa [singleton, findingsAs, findings_of_not_isClass plain]
  | scope owner _ ih =>
    rwa [singleton, findingsAs, findings_of_not_isClass (isClass_of_ownsTemps owner)]
  | @declName a _ name _ _ _ nameless =>
    have hname : name.nameFaults = [.unexpectedNode "identifier" name.shape.kind] :=
      if_neg (by simp [nameless])
    rw [singleton, findingsAs, findings_classDecl, hname]
    exact .here _ a _
  | declHeritage named _ ih =>
    have hname : nameFaults _ = [] := if_pos (Option.isSome_of_eq_some named)
    rw [singleton, findingsAs, findings_classDecl, hname]
    exact ih.append _
  | declMember named above _ ih =>
    have hname : nameFaults _ = [] := if_pos (Option.isSome_of_eq_some named)
    rw [singleton, findingsAs, findings_classDecl, hname]
    exact above.stopsAt ih
  | exprHeritage _ ih =>
    rw [singleton, findingsAs, findings_of_class rfl]
    exact ih.append _
  | exprMember above _ ih =>
    rw [singleton, findingsAs, findings_of_class rfl]
    exact above.stopsAt ih
  | @kind _ a t illegal =>
    have hmember : t.memberFaults = [.unexpectedMember t.shape.kind t.range] :=
      if_neg (by simp [illegal])
    rw [singleton, findingsAs, memberFindings, hmember]
    exact .here _ a _
  | member legal expanded _ ih =>
    have hmember : memberFaults _ = [] := if_pos (Option.isSome_of_eq_some legal)
    have plain := isClass_of_ownsTemps (ownsTemps_of_ofShape? legal)
    rw [singleton, findingsAs, memberFindings, hmember, memberMisuses, legal,
      findings_of_not_isClass plain, ← expanded.findings_eq]
    exact ih.after expanded.bag_eq

end

end Declass
