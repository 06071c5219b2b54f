import Declass.Proofs.FirstUses

/-!
# The names of class expressions

A class expression may have a name, for its members to refer to the class by. The lowering drops the
name and declares nothing in its place. So a use of the name in a member is bound by whatever binds
it around the class expression, if anything does.

## Main definitions

* `Tree.selfUses` — the uses of the names of class expressions in their members

## Main results

* `Lowers.findIdx?_selfUse` — what binds such a use in lowered code
* `lowerProgram_selfUses` — for all such uses of a program
-/

namespace Declass

open Edit Lowering

/-- A use of the name of a class expression in one of its members. Of the scopes around the use, the
first `inner` ones lie in the member. -/
structure SelfUse where
  use : Use
  inner : Nat
  deriving DecidableEq

namespace SelfUse

/-- The name used. -/
def name (self : SelfUse) : String :=
  self.use.reference.name

/-- The use inside one more scope. -/
def within (names : List String) (self : SelfUse) : SelfUse :=
  { self with use := self.use.within names }

/-- The scopes around the class in a program, that of the program last. -/
def around (self : SelfUse) (program : Tree) : List (List String) :=
  self.use.scopes.drop self.inner ++ [program.vars ++ program.locals]

end SelfUse

namespace Tree

/-- The uses of the name of a class expression in its members, where no scope in the member binds
it. -/
def ownSelfUses : Shape Tree → List SelfUse
  | .classExpr (some name) _ members =>
    name.name?.toList.flatMap fun c =>
      ((members.flatMap uses).filter (Use.RefersTo c)).map fun u => ⟨u, u.scopes.length⟩
  | _ => []

/-- The uses of the names of class expressions in their members. -/
def selfUses : Tree → List SelfUse :=
  para fun _ shape _ =>
    ownSelfUses (shape.map Prod.fst) ++
      (shape.scopeRule.parts.flatMap Prod.snd ++ shape.scopeRule.inner.toList.flatMap fun scope =>
        (scope.parts.flatMap Prod.snd).map (SelfUse.within (scope.map Prod.fst).bound))

theorem selfUses_node (o : Option NodeId) (s : Shape Tree) (r : Option Range) :
    selfUses (.node o s r) = ownSelfUses s ++
      (s.scopeRule.parts.flatMap selfUses ++ s.scopeRule.inner.toList.flatMap fun scope =>
        (scope.parts.flatMap selfUses).map (SelfUse.within scope.bound)) := by
  have hself : (s.map fun c => (c, selfUses c)).map Prod.fst = s := by
    rw [Shape.map_map]
    exact Shape.map_id s
  rw [selfUses, para_node, ← selfUses, hself, Shape.scopeRule_map]
  obtain ⟨hoisted, declared, parts, inner⟩ := s.scopeRule
  cases inner <;> simp [ScopeRule.map, InnerScope.map, List.flatMap_map, Function.comp_def]

/-- What is known of a use of the name of a class expression: it is a use of the tree, and no scope
in the member binds the name. -/
structure IsSelfUse (t : Tree) (u : SelfUse) : Prop where
  mem_uses : u.use ∈ t.uses
  inner_le : u.inner ≤ u.use.scopes.length
  notBound : ∀ names ∈ u.use.scopes.take u.inner, u.name ∉ names

theorem isSelfUse_of_mem_ownSelfUses {o : Option NodeId} {s : Shape Tree} {r : Option Range}
    {self : SelfUse} (h : self ∈ ownSelfUses s) : IsSelfUse (.node o s r) self := by
  cases s with
  | classExpr name heritage members =>
    cases name with
    | none => cases h
    | some name =>
      obtain ⟨c, -, hself⟩ := List.mem_flatMap.mp h
      obtain ⟨u, hu, rfl⟩ := List.mem_map.mp hself
      obtain ⟨hmem, hrefers⟩ := List.mem_filter.mp hu
      obtain ⟨-, hbound⟩ : u.RefersTo c := of_decide_eq_true hrefers
      refine ⟨?_, le_rfl, ?_⟩
      · rw [uses_node]
        simp only [Shape.scopeRule, List.flatMap_append, List.mem_append]
        exact .inr (.inl (.inr hmem))
      · rw [List.take_length]
        simpa [SelfUse.name, Use.isBound] using hbound
  | _ => cases h

theorem isSelfUse_of_mem_selfUses {t : Tree} {self : SelfUse} (h : self ∈ t.selfUses) :
    t.IsSelfUse self := by
  induction t generalizing self with
  | node o s r ih =>
    rw [selfUses_node, List.mem_append, List.mem_append] at h
    rcases h with hown | hpart | hinner
    · exact isSelfUse_of_mem_ownSelfUses hown
    · obtain ⟨c, hc, hself⟩ := List.mem_flatMap.mp hpart
      obtain ⟨hmem, hle, hbound⟩ := ih c (Shape.mem_children_of_mem_parts hc) hself
      refine ⟨?_, hle, hbound⟩
      rw [uses_node]
      exact List.mem_append_right _ (List.mem_append_left _ (List.mem_flatMap.mpr ⟨c, hc, hmem⟩))
    · obtain ⟨scope, hscope, hself⟩ := List.mem_flatMap.mp hinner
      obtain ⟨self, hpart, rfl⟩ := List.mem_map.mp hself
      obtain ⟨c, hc, hself⟩ := List.mem_flatMap.mp hpart
      obtain ⟨hmem, hle, hbound⟩ :=
        ih c (Shape.mem_children_of_mem_inner (Option.mem_toList.mp hscope) hc) hself
      refine ⟨?_, hle.trans (by simp [SelfUse.within, Use.within]), ?_⟩
      · rw [uses_node]
        refine List.mem_append_right _
          (List.mem_append_right _ (List.mem_flatMap.mpr ⟨scope, hscope, ?_⟩))
        exact List.mem_map_of_mem (List.mem_flatMap.mpr ⟨c, hc, hmem⟩)
      · change ∀ names ∈ (self.use.scopes ++ [scope.bound]).take self.inner, self.name ∉ names
        rwa [List.take_append_of_le_length hle]

/-- A use of the name of a class expression is undefined, if nothing around the class binds the
name. -/
theorem mem_undefined_of_selfUse {t : Tree} {self : SelfUse} {ambient : List String}
    (hself : self ∈ t.selfUses) (hambient : self.name ∉ ambient)
    (haround : ∀ names ∈ self.around t, self.name ∉ names) :
    self.use.reference ∈ t.undefined ambient := by
  obtain ⟨hmem, -, hinner⟩ := isSelfUse_of_mem_selfUses hself
  obtain ⟨houter, hprogram⟩ := List.forall_mem_append.mp haround
  have hbound : (self.use.within (ambient ++ (t.vars ++ t.locals))).isBound = false := by
    rw [Use.isBound_within, Bool.or_eq_false_iff]
    constructor
    · rw [Use.isBound, ← List.take_append_drop self.inner self.use.scopes, List.any_eq_false]
      intro names hnames
      rw [decide_eq_true_eq]
      rcases List.mem_append.mp hnames with hnames | hnames
      · exact hinner names hnames
      · exact houter names hnames
    · rw [decide_eq_false_iff_not, List.mem_append, not_or]
      exact ⟨hambient, hprogram _ List.mem_cons_self⟩
  rw [undefined, unbound, List.mem_map]
  exact ⟨_, List.mem_filter.mpr ⟨List.mem_map_of_mem hmem, by rw [hbound]; rfl⟩, rfl⟩

end Tree

namespace Lowers

variable {options : Options} {a a' : Account} {t t' : Tree} {self : SelfUse} {use : Use}

/-- **A use of the name of a class expression is bound by what binds the name around the class.** -/
theorem findIdx?_selfUse (owner : t.shape.ownsTemps = true) (h : Lowers options none a [t] [t'] a')
    (hself : self ∈ t.selfUses) (notTemp : ¬ IsTemp self.name) (hmatches : self.use.Matches use) :
    (use.scopes ++ [t'.vars ++ t'.locals]).findIdx? (self.name ∈ ·) =
      ((self.around t).findIdx? (self.name ∈ ·)).map (· + self.inner) := by
  obtain ⟨-, hle, hbound⟩ := Tree.isSelfUse_of_mem_selfUses hself
  have hnone : (self.use.scopes.take self.inner).findIdx? (self.name ∈ ·) = none := by
    rw [List.findIdx?_eq_none_iff]
    exact fun names hnames => decide_eq_false (hbound names hnames)
  have hsame := (hmatches.within (h.agreeOnNames_program owner [])).findIdx?_eq notTemp
  change (use.scopes ++ [t'.vars ++ t'.locals]).findIdx? _ =
    (self.use.scopes ++ [t.vars ++ t.locals]).findIdx? _ at hsame
  rw [hsame, SelfUse.around]
  nth_rewrite 1 [← List.take_append_drop self.inner self.use.scopes]
  rw [List.append_assoc, List.findIdx?_append, hnone, Option.none_or, List.length_take,
    Nat.min_eq_left hle]

end Lowers

/-- A name that is undefined in a program is reported where its first undefined use is emitted. -/
theorem Compiler.exists_report {compiler : Compiler} {s store' : Store} {root : NodeId}
    {log log' : Log} {compiled : Compiled} (hg : s.Grounded root)
    (isProgram : ∃ statements range, s.get? root = some ⟨.program statements, range⟩)
    (noPasses : compiler.passes = [])
    (compiles : compiler.compile root s log = (.ok compiled, store', log')) {use : Reference}
    (huse : use ∈ (s.tree s.size root).undefined compiler.ambientNames)
    (located : use.range.isSome) (notTemp : ¬ IsTemp use.name) :
    ∃ first, firstUse ((s.tree s.size root).emittedUndefined compiler.ambientNames) use.name =
        some first ∧
      compiled.diagnostics.diagnostic first.range .nameNotDefined [use.name] ∈
        compiled.diagnostics.diagnostics := by
  have owner := hg.ownsTemps_tree isProgram s.size
  obtain ⟨t', a, a', found, hlowers, -, hfirsts, hlocated, hdiagnostics⟩ :=
    exists_of_compile_eq hg noPasses compiles
  obtain ⟨first, hfirst, hname⟩ := exists_mem_found hlowers owner hfirsts huse located notTemp
  have hemitted := hlowers.firstUse_emittedUndefined owner ((hfirsts.mem_iff first).mp hfirst)
    (hlocated first hfirst) (hname ▸ notTemp)
  have hreport := List.mem_map_of_mem hfirst
    (f := fun use => compiled.diagnostics.diagnostic use.range .nameNotDefined [use.name])
  rw [← hdiagnostics] at hreport
  rw [← hname]
  exact ⟨first, hemitted, Array.mem_toList_iff.mp (List.mem_filter.mp hreport).1⟩

/-- **The name of a class expression is dropped.** A use of it in a member is kept, and is bound by
what binds the name around the class: no declaration of it is emitted for the class. If nothing
around the class binds the name, it is reported as undefined. -/
theorem lowerProgram_selfUses {s : Store} {root lowered : NodeId} {options : Options}
    {state : LoweringState} {session : Session LoweringState} (closed : s.Closed root)
    (acyclic : s.Acyclic root)
    (isProgram : ∃ statements range, s.get? root = some ⟨.program statements, range⟩)
    (run : (lowerProgram options root).runOn ⟨s, state⟩ = (.ok lowered, session)) :
    let t := s.tree s.size root
    let t' := session.store.tree s.size lowered
    List.Forall₂ Use.Matches t.emissions (t'.uses.filter Use.isLocated) ∧
      ∀ self ∈ t.selfUses, self.use.isLocated = true → ¬ IsTemp self.name →
        self.use ∈ t.emissions ∧
        (∀ use, self.use.Matches use →
          (use.scopes ++ [t'.vars ++ t'.locals]).findIdx? (self.name ∈ ·) =
            ((self.around t).findIdx? (self.name ∈ ·)).map (· + self.inner)) ∧
        ∀ (compiler : Compiler) (log log' : Log) (compiled : Compiled) (store' : Store),
          compiler.passes = [] → compiler.compile root s log = (.ok compiled, store', log') →
          self.name ∉ compiler.ambientNames → (∀ names ∈ self.around t, self.name ∉ names) →
          ∃ first, firstUse (t.emittedUndefined compiler.ambientNames) self.name = some first ∧
            compiled.diagnostics.diagnostic first.range .nameNotDefined [self.name] ∈
              compiled.diagnostics.diagnostics := by
  intro t t'
  have hg : s.Grounded root := Store.grounded_iff.mpr ⟨closed, acyclic⟩
  have owner : t.shape.ownsTemps = true := hg.ownsTemps_tree isProgram s.size
  have hlowers := (hg.lowers run).2
  have hwritten : t'.emissions = t'.written :=
    (hlowers.classFree t' List.mem_cons_self).emissions_eq
  have hcorresponds : List.Forall₂ Use.Matches t.emissions t'.emissions :=
    hlowers.corresponds_program owner
  rw [hwritten] at hcorresponds
  refine ⟨hcorresponds, fun self hself located notTemp => ⟨?_,
    fun use hmatches => hlowers.findIdx?_selfUse owner hself notTemp hmatches, ?_⟩⟩
  · rw [t.emissions_perm.mem_iff, Tree.written, List.mem_filter]
    exact ⟨(Tree.isSelfUse_of_mem_selfUses hself).mem_uses, located⟩
  · intro compiler log log' compiled store' noPasses compiles hambient haround
    exact Compiler.exists_report hg isProgram noPasses compiles
      (Tree.mem_undefined_of_selfUse hself hambient haround) located notTemp

/-- `function g(F) { (class F { m() { F; } }); } (class G { m() { G; } });` -/
def selfNamedStore : Store where
  nodes := #[⟨.binding "g", none⟩, ⟨.binding "F", none⟩, ⟨.parameter ⟨1⟩ none false, none⟩,
    ⟨.binding "F", none⟩, ⟨.identifier "F", some (.onLine 0 0 1)⟩, ⟨.exprStatement ⟨4⟩, none⟩,
    ⟨.block [⟨5⟩], none⟩, ⟨.method (.identifier "m") [] ⟨6⟩, none⟩,
    ⟨.classExpr (some ⟨3⟩) none [⟨7⟩], none⟩, ⟨.paren ⟨8⟩, none⟩, ⟨.exprStatement ⟨9⟩, none⟩,
    ⟨.block [⟨10⟩], none⟩, ⟨.functionDecl ⟨0⟩ [⟨2⟩] ⟨11⟩, none⟩,
    ⟨.binding "G", none⟩, ⟨.identifier "G", some (.onLine 1 0 1)⟩, ⟨.exprStatement ⟨14⟩, none⟩,
    ⟨.block [⟨15⟩], none⟩, ⟨.method (.identifier "m") [] ⟨16⟩, none⟩,
    ⟨.classExpr (some ⟨13⟩) none [⟨17⟩], none⟩, ⟨.paren ⟨18⟩, none⟩, ⟨.exprStatement ⟨19⟩, none⟩,
    ⟨.program [⟨12⟩, ⟨20⟩], none⟩]

/-- `F` comes to be bound by the parameter of the function around the class, and `G` is reported. -/
theorem lowerProgram_selfUses_selfNamed : ∃ lowered session,
    (lowerProgram {} ⟨21⟩).runOn ⟨selfNamedStore, {}⟩ = (.ok lowered, session) ∧
      (∀ use : Use, Use.Matches
          ⟨⟨"F", some (.onLine 0 0 1)⟩, [["arguments"], ["g", "arguments", "F"]]⟩
          use →
        let t' := session.store.tree 22 lowered
        (use.scopes ++ [t'.vars ++ t'.locals]).findIdx? ("F" ∈ ·) = some 1) ∧
      ∃ compiled store' log',
        ({} : Compiler).compile ⟨21⟩ selfNamedStore {} = (.ok compiled, store', log') ∧
        compiled.diagnostics.diagnostic (some (.onLine 1 0 1)) .nameNotDefined ["G"] ∈
          compiled.diagnostics.diagnostics := by
  have fits : selfNamedStore.Fits 22 ⟨21⟩ := by decide +kernel
  have source : selfNamedStore.Source ⟨21⟩ :=
    Store.source_of_all (Store.wellFormed_of_all fits (by decide +kernel)) rfl (by decide +kernel)
  have ok : ((lowerProgram {} ⟨21⟩).runOn ⟨selfNamedStore, {}⟩).1.isOk := by decide +kernel
  generalize run : (lowerProgram {} ⟨21⟩).runOn ⟨selfNamedStore, {}⟩ = out at ok ⊢
  obtain ⟨_ | lowered, session⟩ := out
  · cases ok
  have hself := (lowerProgram_selfUses source.closed source.acyclic source.isProgram run).2
  have notTemp {name : String} (h : name.toList.take 3 ≠ ['$', '_', '_']) : ¬ IsTemp name :=
    fun htemp => h htemp.take_toList
  obtain ⟨-, hcaptured, -⟩ := hself
    ⟨⟨⟨"F", some (.onLine 0 0 1)⟩, [["arguments"], ["g", "arguments", "F"]]⟩, 1⟩
    (by decide +kernel) rfl (notTemp (by decide +kernel))
  obtain ⟨-, -, hreported⟩ := hself ⟨⟨⟨"G", some (.onLine 1 0 1)⟩, [["arguments"]]⟩, 1⟩
    (by decide +kernel) rfl (notTemp (by decide +kernel))
  obtain ⟨compiled, store', log', compiles⟩ := Compiler.exists_compiles {} source rfl rfl {}
  refine ⟨lowered, session, rfl, fun use hmatches => ?_, compiled, store', log', compiles, ?_⟩
  · exact (hcaptured use hmatches).trans (by decide +kernel)
  · obtain ⟨first, hfirst, hreport⟩ := hreported {} {} log' compiled store' rfl compiles
      (by decide +kernel) (by decide +kernel)
    have hg : firstUse ((selfNamedStore.tree selfNamedStore.size ⟨21⟩).emittedUndefined
        ({} : Compiler).ambientNames) "G" = some ⟨"G", some (.onLine 1 0 1)⟩ := by
      decide +kernel
    obtain rfl := Option.some.inj (hfirst.symm.trans hg)
    exact hreport

/-- `(class F { m() { F; } });`, with each node on a line of its own. -/
def ownNameStore : Store where
  nodes := #[⟨.binding "F", some (.onLine 4 0 1)⟩, ⟨.identifier "F", some (.onLine 8 0 1)⟩,
    ⟨.exprStatement ⟨1⟩, some (.onLine 7 0 1)⟩, ⟨.block [⟨2⟩], some (.onLine 6 0 1)⟩,
    ⟨.method (.identifier "m") [] ⟨3⟩, some (.onLine 5 0 1)⟩,
    ⟨.classExpr (some ⟨0⟩) none [⟨4⟩], some (.onLine 3 0 1)⟩, ⟨.paren ⟨5⟩, some (.onLine 2 0 1)⟩,
    ⟨.exprStatement ⟨6⟩, some (.onLine 1 0 1)⟩, ⟨.program [⟨7⟩], some (.onLine 0 0 1)⟩]

/-- **A class that cannot see its own name:** the use of `F` in the member of the class `F` is
reported. -/
theorem compile_reports_ownName :
    (⟨⟨⟨"F", some (.onLine 8 0 1)⟩, [["arguments"]]⟩, 1⟩ : SelfUse) ∈
        (ownNameStore.tree 9 ⟨8⟩).selfUses ∧
      ∃ compiled store' log', ({} : Compiler).compile ⟨8⟩ ownNameStore {} =
        (.ok compiled, store', log') ∧
        compiled.diagnostics.diagnostics.toList.filter (·.code == Message.nameNotDefined.code) =
          [compiled.diagnostics.diagnostic (some (.onLine 8 0 1)) .nameNotDefined ["F"]] := by
  have fits : ownNameStore.Fits 9 ⟨8⟩ := by decide +kernel
  have source : ownNameStore.Source ⟨8⟩ :=
    Store.source_of_all (Store.wellFormed_of_all fits (by decide +kernel)) rfl (by decide +kernel)
  have notTemp : ¬ IsTemp "F" := fun h => absurd h.take_toList (by decide +kernel)
  refine ⟨by decide +kernel, ?_⟩
  exact Compiler.exists_compiles_reporting {} source rfl rfl {} ⟨"F", some (.onLine 8 0 1)⟩
    (by decide +kernel) (by decide +kernel) (by decide +kernel) notTemp

end Declass
