import FishLang.Proofs.Analysis.Account
import FishLang.Proofs.Analysis.Run

namespace FishLang

open Node Grammar

-- The binder is of the name, it is before the use, and the use is within its scope.
structure Sees (root : Node) (use : Place) (name : String) (binder : Place) : Prop where
  binds : ∃ node, root.at? binder = some node ∧ node.binds name = true
  before : binder < use
  around : ∃ scope ∈ root.scopesAround use, root.scopeOf binder = some scope

-- Of all that the use sees it stands for the latest one of the innermost scope.
structure StandsFor (root : Node) (use : Place) (name : String) (binder : Place) : Prop where
  sees : Sees root use name binder
  innermost : ∀ other, Sees root use name other → ∃ scope outer, root.scopeOf binder = some scope ∧
    root.scopeOf other = some outer ∧ outer <+: scope
  latest : ∀ other, Sees root use name other → root.scopeOf other = root.scopeOf binder → ¬ binder < other

section
variable {root node : Node} {use binder scope : Place} {name : String}

theorem sees_iff : Sees root use name binder ↔
    ∃ scope ∈ root.scopesAround use, binder ∈ root.bindersBefore use scope name := by
  constructor
  · intro sees
    obtain ⟨scope, around, own⟩ := sees.around
    exact ⟨scope, around, mem_bindersBefore.mpr ⟨sees.binds, own, sees.before⟩⟩
  · intro ⟨scope, around, member⟩
    obtain ⟨binds, own, before⟩ := mem_bindersBefore.mp member
    exact ⟨binds, before, scope, around, own⟩

theorem resolve_eq_none_iff : root.resolve use name = none ↔ ¬ ∃ binder, Sees root use name binder := by
  simp only [resolve, List.findSome?_eq_none_iff, List.getLast?_eq_none_iff, sees_iff, not_exists, not_and]
  constructor
  · intro none binder scope around member
    rw [none scope around] at member
    cases member
  · intro none scope around
    exact List.eq_nil_iff_forall_not_mem.mpr fun binder => none binder scope around

theorem bindersBefore_sorted (root : Node) (cut scope : Place) (name : String) :
    (root.bindersBefore cut scope name).Pairwise (· < ·) := ((places_sorted root).filter _).filter _

theorem not_getLast_lt {list : List Place} (sorted : list.Pairwise (· < ·)) (last : list.getLast? = some greatest)
    (member : place ∈ list) : ¬ greatest < place := by
  obtain ⟨front, rfl⟩ := List.getLast?_eq_some_iff.mp last
  rcases List.mem_append.mp member with earlier | same
  · exact List.lt_asymm ((List.pairwise_append.mp sorted).2.2 place earlier greatest (by simp))
  · rw [List.mem_singleton.mp same]
    exact List.lt_irrefl greatest

theorem StandsFor.of_resolve (resolves : root.resolve use name = some binder) : StandsFor root use name binder := by
  obtain ⟨inner, scope, outer, around, last, passed⟩ := List.findSome?_eq_some_iff.mp resolves
  have member : binder ∈ root.bindersBefore use scope name := List.mem_of_getLast? last
  have own : root.scopeOf binder = some scope := (mem_bindersBefore.mp member).2.1
  refine ⟨sees_iff.mpr ⟨scope, by rw [around]; simp, member⟩, ?_, ?_⟩
  · intro other sees
    obtain ⟨place, among, there⟩ := sees_iff.mp sees
    refine ⟨scope, place, own, (mem_bindersBefore.mp there).2.1, ?_⟩
    rw [around, List.mem_append, List.mem_cons] at among
    have prefixes := (Place.above_prefixes use).filter (root.holds (·.kind.opensScope))
    change (root.scopesAround use).Pairwise _ at prefixes
    rw [around] at prefixes
    rcases among with nearer | rfl | further
    · rw [List.getLast?_eq_none_iff.mp (passed place nearer)] at there
      cases there
    · exact List.prefix_rfl
    · exact (List.pairwise_cons.mp (List.pairwise_append.mp prefixes).2.1).1 place further
  · intro other sees same
    obtain ⟨place, _, there⟩ := sees_iff.mp sees
    have there' := (mem_bindersBefore.mp there).2.1
    rw [same, own] at there'
    cases there'
    exact not_getLast_lt (bindersBefore_sorted root use scope name) last there

theorem StandsFor.unique (one : StandsFor root use name binder) (two : StandsFor root use name other) :
    binder = other := by
  obtain ⟨scope, outer, own, own', above⟩ := one.innermost other two.sees
  obtain ⟨scope', outer', same', same, below⟩ := two.innermost binder one.sees
  cases own.symm.trans same
  cases own'.symm.trans same'
  obtain rfl := above.eq_of_length_le below.length_le
  exact Place.eq_of_not_lt (one.latest other two.sees (own'.trans own.symm)) (two.latest binder one.sees (own.trans own'.symm))

theorem resolve_eq_some_iff : root.resolve use name = some binder ↔ StandsFor root use name binder := by
  constructor
  · exact StandsFor.of_resolve
  · intro stands
    cases resolves : root.resolve use name with
    | none => exact absurd ⟨binder, stands.sees⟩ (resolve_eq_none_iff.mp resolves)
    | some found => rw [stands.unique (.of_resolve resolves)]

end

-- What is due at a use that sees no binder.
inductive Undeclared (root : Node) : Place → Report → Prop
  | of {place : Place} {node : Node} : root.at? place = some node → node.kind = .var ∨ node.kind = .assign →
      (¬ ∃ binder, Sees root place node.text binder) → Undeclared root place ⟨.undeclaredVariable node.text, node.line⟩

-- What is due at a binder of a scope that has an earlier one of its name.
inductive Redeclared (root : Node) : Place → Report → Prop
  | of {place earlier : Place} {node other : Node} : root.at? place = some node →
      node.kind = .declaration ∨ node.kind = .param → root.at? earlier = some other →
      other.binds node.text = true → root.scopeOf earlier = root.scopeOf place → earlier < place →
      Redeclared root place ⟨.redeclaration node.text, node.line⟩

def Finding.isAssignment : Finding → Bool
  | .assignment .. => true
  | _ => false

-- What is due where a variable is set to a value of another type than that of the binder it stands for.
inductive Misassigned (root : Node) : Place → Report → Prop
  | of {place binder : Place} {node : Node} : root.at? place = some node → node.kind = .assign →
      StandsFor root place node.text binder →
      compatible (root.declaredTyAt binder) (root.typeAt (place ++ [0])) = false →
      Misassigned root place
        ⟨.assignment node.text (root.declaredTyAt binder) (root.typeAt (place ++ [0])), node.line⟩

-- Variables are scoped lexically: what is reported of them is what is due, and a use that sees a binder is visited,
-- once, with the type of the binder it stands for.
structure Node.LexicallyScoped (root : Node) : Prop where
  undeclared : root.Diagnoses .undeclaredVariable (Undeclared root)
  redeclared : root.Diagnoses .redeclaration (Redeclared root)
  assigned : OnePer (Misassigned root) (root.reports.filter (·.finding.isAssignment))
  resolved : ∀ place node, root.at? place = some node → node.kind = .var ∨ node.kind = .assign →
    (∃ binder, Sees root place node.text binder) →
    ∃ binder made, StandsFor root place node.text binder ∧ root.visitsOf place = [made] ∧ made.node = node ∧
      made.before.lookup node.text = some (root.declaredTyAt binder) ∧
      (node.kind = .var → made.ty = root.declaredTyAt binder)

section
variable {root : Node}

theorem onePer_undeclared (program : Shaped .program root) :
    OnePer (Undeclared root) (root.reports.filter (Report.of .undeclaredVariable)) := by
  refine onePer_of_faults program _ (fun _ => Report.about_of) ?_ fun place node present kinds => ?_
  · rintro place report ⟨present, uses, _⟩
    exact ⟨_, present, by simpa [Diagnostic.Kind.about] using uses⟩
  have uses : node.kind = .var ∨ node.kind = .assign := by simpa [Diagnostic.Kind.about] using kinds
  cases resolves : root.resolve place node.text with
  | none =>
    refine owes_one (.of present uses (resolve_eq_none_iff.mp resolves)) ?_ ?_
    · rintro _ ⟨present', _, _⟩
      cases present.symm.trans present'
      rfl
    · rcases uses with kind | kind <;>
        simp [faults, kind, resolves, reportUnless, Context.assignmentReports, Report.of, Finding.kind]
  | some binder =>
    refine owes_none ?_ ?_
    · rintro _ ⟨present', _, unseen⟩
      cases present.symm.trans present'
      exact unseen ⟨binder, (resolve_eq_some_iff.mp resolves).sees⟩
    · rcases uses with kind | kind <;>
        simp [faults, kind, resolves, reportUnless, Context.assignmentReports, Report.of, Finding.kind]

theorem unbound_eq_false {scope : Place} {name : String} (own : root.scopeOf place = some scope) :
    root.unbound place name = false ↔ ∃ earlier other, root.at? earlier = some other ∧ other.binds name = true ∧
      root.scopeOf earlier = root.scopeOf place ∧ earlier < place := by
  rw [← Bool.not_eq_true, unbound_iff own, own]
  push Not
  rfl

theorem onePer_redeclared (program : Shaped .program root) :
    OnePer (Redeclared root) (root.reports.filter (Report.of .redeclaration)) := by
  refine onePer_of_faults program _ (fun _ => Report.about_of) ?_ fun place node present kinds => ?_
  · rintro place report ⟨present, introduces, _⟩
    exact ⟨_, present, by simpa [Diagnostic.Kind.about] using introduces⟩
  have introduces : node.kind = .declaration ∨ node.kind = .param := by simpa [Diagnostic.Kind.about] using kinds
  have binds : node.binds node.text = true := by simpa [Node.binds] using introduces
  obtain ⟨scope, own⟩ := scopeOf_known program present binds
  have paid : (root.faults place node).filter (Report.of .redeclaration) =
      reportUnless (root.unbound place node.text) (.redeclaration node.text) node.line := by
    rcases introduces with kind | kind <;> cases found : node.child? 1 <;>
      simp [faults, kind, found, filter_reportUnless, Report.of, Finding.kind]
  rw [paid]
  cases new : root.unbound place node.text with
  | true =>
    refine owes_none ?_ rfl
    rintro _ ⟨present', _, there, binds', same, before⟩
    cases present.symm.trans present'
    have old := (unbound_eq_false own).mpr ⟨_, _, there, binds', same, before⟩
    cases new.symm.trans old
  | false =>
    obtain ⟨earlier, other, there, binds', same, before⟩ := (unbound_eq_false own).mp new
    refine owes_one (.of present introduces there binds' same before) ?_ rfl
    rintro _ ⟨present', _, _, _, _, _⟩
    cases present.symm.trans present'
    rfl

theorem onePer_misassigned (program : Shaped .program root) :
    OnePer (Misassigned root) (root.reports.filter (·.finding.isAssignment)) := by
  refine onePer_of_kind program .assign ?_ ?_ fun place node present kind => ?_
  · intro ⟨finding, line⟩ here
    cases finding <;> simp_all [Finding.isAssignment, Finding.about]
  · rintro place report ⟨present, kind, _⟩
    exact ⟨_, present, kind⟩
  cases resolves : root.resolve place node.text with
  | none =>
    refine owes_none ?_ (by simp [faults, kind, resolves, Context.assignmentReports, Finding.isAssignment])
    rintro _ ⟨present', _, stands, _⟩
    cases present.symm.trans present'
    exact resolve_eq_none_iff.mp resolves ⟨_, stands.sees⟩
  | some binder =>
    have stands := resolve_eq_some_iff.mp resolves
    cases fits : compatible (root.declaredTyAt binder) (root.typeAt (place ++ [0])) with
    | true =>
      refine owes_none ?_ (by simp [faults, kind, resolves, Context.assignmentReports, fits, reportUnless])
      rintro _ ⟨present', _, stands', unfit⟩
      cases present.symm.trans present'
      cases stands.unique stands'
      cases fits.symm.trans unfit
    | false =>
      refine owes_one (.of present kind stands fits) ?_ ?_
      · rintro _ ⟨present', _, stands', _⟩
        cases present.symm.trans present'
        cases stands.unique stands'
        rfl
      · simp [faults, kind, resolves, Context.assignmentReports, fits, reportUnless, Finding.isAssignment]

-- A use is visited, and what the pass knows there of its name is the type of the binder it stands for.
theorem run_resolved {place binder : Place} {node : Node} (program : Shaped .program root)
    (present : root.at? place = some node) (uses : node.kind = .var ∨ node.kind = .assign)
    (stands : StandsFor root place node.text binder) :
    ∃ made, root.visitsOf place = [made] ∧ made.node = node ∧
      made.before.lookup node.text = some (root.declaredTyAt binder) ∧
      (node.kind = .var → made.ty = root.declaredTyAt binder) := by
  have own : node.visitable = true := by
    rcases uses with kind | kind <;> simp [visitable, passedOver, kind]
  have resolves := resolve_eq_some_iff.mpr stands
  obtain ⟨made, only, same, agrees, typed⟩ := run_known program present own
  refine ⟨made, only, same, ?_, fun kind => ?_⟩
  · rw [agrees.lookup, resolves, Option.map_some]
  · obtain ⟨_, content, _, _⟩ := node
    cases kind
    rw [typed, typeAt_eq present]
    show (root.resolve place (content.getD "")).bind root.declaredTyAt = _
    rw [show root.resolve place (content.getD "") = some binder from resolves]
    rfl

end

-- Variables of accepted programs are scoped lexically.
theorem Node.ofTokens_lexicallyScoped {root : Node} (accepted : Node.ofTokens tokens = .ok root) :
    root.LexicallyScoped := by
  have program := Node.ofTokens_shaped accepted
  refine ⟨diagnoses_of_onePer (onePer_undeclared program), diagnoses_of_onePer (onePer_redeclared program),
    onePer_misassigned program, ?_⟩
  intro place node present uses ⟨seen, sees⟩
  cases resolves : root.resolve place node.text with
  | none => exact absurd ⟨seen, sees⟩ (resolve_eq_none_iff.mp resolves)
  | some binder =>
    have stands := resolve_eq_some_iff.mp resolves
    obtain ⟨made, visited⟩ := run_resolved program present uses stands
    exact ⟨binder, made, stands, visited⟩

def rebinding : List Token :=
  [(.word .fish, "fish"), (.mark .leftBrace, "\x7b"), (.type .int, "<int"), (.identifier, "n"), (.delimiter, "<D"),
    (.type .float, "<bubble"), (.identifier, "n"), (.delimiter, "<D"), (.identifier, "n"), (.assign, "<="),
    (.identifier, "m"), (.delimiter, "<D"), (.mark .rightBrace, "\x7d")].map fun (kind, lexeme) =>
      ⟨kind, .unplaced, lexeme⟩

theorem rebinding_lexicallyScoped : ∃ root, Node.ofTokens rebinding = .ok root ∧
    root.diagnostics.map Diagnostic.kind = [.redeclaration, .undeclaredVariable] ∧ root.LexicallyScoped := by
  have accepted : Node.ofTokens rebinding = .ok _ := rfl
  exact ⟨_, accepted, by decide, Node.ofTokens_lexicallyScoped accepted⟩

end FishLang
