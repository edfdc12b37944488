import Mathlib.Data.List.Nodup
import FishLang.Proofs.Analysis.WellFormed

namespace FishLang

open Node Grammar

-- The entries are the ones due, in some order, no two of them for one key.
def OnePer {Key Entry : Type} (due : Key → Entry → Prop) (entries : List Entry) : Prop :=
  ∃ owed : List (Key × Entry), (owed.map Prod.fst).Nodup ∧ (∀ key entry, (key, entry) ∈ owed ↔ due key entry) ∧
    entries.Perm (owed.map Prod.snd)

-- Whether a report is of the kind.
def Report.of (kind : Diagnostic.Kind) (report : Report) : Bool := report.finding.kind == kind

-- The diagnostics of the kind are those of the reports due.
def Node.Diagnoses (root : Node) (kind : Diagnostic.Kind) (due : Place → Report → Prop) : Prop :=
  OnePer (fun place diagnostic => ∃ report, due place report ∧ report.diagnostic = diagnostic)
    (root.diagnostics.filter (·.kind == kind))

theorem OnePer.map {Key Entry Other : Type} {due : Key → Entry → Prop} {entries : List Entry}
    (one : OnePer due entries) (make : Entry → Other) :
    OnePer (fun key other => ∃ entry, due key entry ∧ make entry = other) (entries.map make) := by
  obtain ⟨owed, distinct, members, perm⟩ := one
  refine ⟨owed.map fun (key, entry) => (key, make entry), ?_, ?_, ?_⟩
  · rw [List.map_map]
    exact distinct
  · simp [members]
  · rw [List.map_map]
    refine (perm.map make).trans (.of_eq ?_)
    rw [List.map_map]
    rfl

def Finding.about : Finding → List Node.Kind
  | .undeclaredVariable _ => [.var, .assign]
  | .undeclaredFunction _ | .arity .. | .argument .. => [.call]
  | .redeclaration _ | .initializer .. => [.declaration, .param]
  | .duplicateFunction _ => [.functionDef]
  | .assignment .. => [.assign]
  | .result .. | .returnOutsideFunction => [.emerge]
  | .operands .. => [.binary]

def Finding.name? : Finding → Option String
  | .undeclaredVariable name | .undeclaredFunction name | .redeclaration name | .duplicateFunction name
  | .arity name .. | .initializer name .. | .assignment name .. | .argument name .. | .result name ..
  | .operands name .. => some name
  | .returnOutsideFunction => none

-- The node has the name, or a function of the tree does.
def Node.Tells (root node : Node) (name : String) : Prop :=
  name = node.text ∨ ∃ place function, root.at? place = some function ∧ function.kind = .functionDef ∧
    name = function.text

def Diagnostic.Kind.about : Diagnostic.Kind → List Node.Kind
  | .undeclaredVariable => [.var, .assign]
  | .undeclaredFunction | .arityMismatch => [.call]
  | .redeclaration => [.declaration, .param]
  | .duplicateFunction => [.functionDef]
  | .typeMismatch => [.declaration, .param, .assign, .call, .emerge, .binary]
  | .returnOutsideFunction => [.emerge]

theorem Finding.about_subset (finding : Finding) : finding.about ⊆ finding.kind.about := by
  cases finding <;> simp [Finding.about, Finding.kind, Diagnostic.Kind.about]

theorem Report.about_of {kind : Diagnostic.Kind} {report : Report} (here : report.of kind = true) :
    report.finding.about ⊆ kind.about := by
  obtain rfl : report.finding.kind = kind := eq_of_beq here
  exact report.finding.about_subset

def Concern (kind : Node.Kind) (reports : List Report) : Prop := ∀ report ∈ reports, kind ∈ report.finding.about

section
variable {kind : Node.Kind} {line : Nat}

theorem mem_reportUnless {report : Report} {condition : Bool} :
    report ∈ reportUnless condition finding line ↔ condition = false ∧ report = ⟨finding, line⟩ := by
  cases condition <;> simp [reportUnless]

theorem mem_argumentReports {report : Report} (name : String) (position : Nat) (expected given : List (Option Ty)) :
    report ∈ Context.argumentReports name line position expected given ↔
      ∃ index one two, expected[index]? = some one ∧ given[index]? = some two ∧ compatible one two = false ∧
        report = ⟨.argument name (position + index) one two, line⟩ := by
  induction expected generalizing position given with
  | nil => simp [Context.argumentReports]
  | cons ty tys ih =>
    cases given with
    | nil => simp [Context.argumentReports]
    | cons ty' others =>
      rw [Context.argumentReports, List.mem_append, mem_reportUnless, ih]
      constructor
      · rintro (⟨unfit, rfl⟩ | ⟨index, one, two, left, right, unfit, rfl⟩)
        · exact ⟨0, ty, ty', rfl, rfl, unfit, rfl⟩
        · exact ⟨index + 1, one, two, left, right, unfit, by rw [Nat.add_right_comm]; rfl⟩
      · rintro ⟨index, one, two, left, right, unfit, rfl⟩
        cases index with
        | zero =>
          cases left
          cases right
          exact .inl ⟨unfit, rfl⟩
        | succ index => exact .inr ⟨index, one, two, left, right, unfit, by rw [Nat.add_right_comm]; rfl⟩

theorem forall_reportUnless {holds : Report → Prop} (condition : Bool) (here : holds ⟨finding, line⟩) :
    ∀ report ∈ reportUnless condition finding line, holds report := by
  intro report member
  exact (mem_reportUnless.mp member).2 ▸ here

-- What holds of every finding about nodes of the kind that names what the node does, on the line of the node, holds of
-- what there is to report of the node.
theorem forall_faults {holds : Report → Prop} (root : Node) (place : Place) (node : Node)
    (each : ∀ finding : Finding, node.kind ∈ finding.about → (∀ name ∈ finding.name?, root.Tells node name) →
      holds ⟨finding, node.line⟩) :
    ∀ report ∈ root.faults place node, holds report := by
  have own (finding : Finding) (about : node.kind ∈ finding.about) (named : finding.name? = some node.text) :
      holds ⟨finding, node.line⟩ := by
    refine each finding about fun name told => .inl ?_
    rw [named] at told
    exact (Option.mem_some_iff.mp told).symm
  unfold faults
  generalize node.kind = kind at each own ⊢
  cases kind with
  | var | functionDef => exact forall_reportUnless _ (own _ (by simp [Finding.about]) rfl)
  | declaration | param =>
    refine List.forall_mem_append.mpr ⟨forall_reportUnless _ (own _ (by simp [Finding.about]) rfl), ?_⟩
    cases node.child? 1 with
    | none => simp
    | some _ => exact forall_reportUnless _ (own _ (by simp [Finding.about]) rfl)
  | assign =>
    cases root.resolve place node.text with
    | none => exact List.forall_mem_singleton.mpr (own _ (by simp [Finding.about]) rfl)
    | some binder => exact forall_reportUnless _ (own _ (by simp [Finding.about]) rfl)
  | call =>
    cases (root.callee place node.text).bind root.signatureAt with
    | none => exact List.forall_mem_singleton.mpr (own _ (by simp [Finding.about]) rfl)
    | some signature =>
      simp only [Context.callReports]
      split
      · intro report member
        obtain ⟨_, _, _, _, _, _, rfl⟩ := (mem_argumentReports _ _ _ _).mp member
        exact own _ (by simp [Finding.about]) rfl
      · exact List.forall_mem_singleton.mpr (own _ (by simp [Finding.about]) rfl)
  | emerge =>
    refine List.forall_mem_append.mpr ⟨forall_reportUnless _ (each _ (by simp [Finding.about]) (by simp [Finding.name?])), ?_⟩
    cases around : root.functionAround place with
    | none => simp [Context.resultReports]
    | some function =>
      obtain ⟨definition, present, kind⟩ := functionAround_present around
      rw [Option.bind_some, signatureAt_eq present]
      refine forall_reportUnless _ (each _ (by simp [Finding.about]) ?_)
      rintro _ ⟨⟩
      exact .inr ⟨function, definition, present, kind, rfl⟩
  | binary =>
    cases root.typeAt (place ++ [0]) with
    | none => simp [Context.operandReports]
    | some left =>
      cases root.typeAt (place ++ [1]) with
      | none => simp [Context.operandReports]
      | some right => exact forall_reportUnless _ (own _ (by simp [Finding.about]) rfl)
  | _ => simp

theorem concern_faults (root : Node) (place : Place) (node : Node) : Concern node.kind (root.faults place node) :=
  forall_faults root place node fun _ among _ => among

theorem line_faults (root : Node) (place : Place) (node : Node) :
    ∀ report ∈ root.faults place node, report.line = node.line :=
  forall_faults root place node fun _ _ _ => rfl

theorem names_faults (root : Node) (place : Place) (node : Node) :
    ∀ report ∈ root.faults place node, node.kind ∈ report.finding.about ∧
      ∀ name ∈ report.finding.name?, root.Tells node name :=
  forall_faults root place node fun _ among named => ⟨among, named⟩

end

theorem mem_reports {root : Node} (program : Shaped .program root) (reported : report ∈ root.reports) :
    ∃ place node, root.at? place = some node ∧ report ∈ root.faults place node := by
  obtain ⟨place, _, due⟩ := List.mem_flatMap.mp ((reports_perm program).mem_iff.mp reported)
  cases present : root.at? place with
  | none =>
    rw [faultsAt, present] at due
    cases due
  | some node =>
    rw [faultsAt, present] at due
    exact ⟨place, node, present, due⟩

theorem filter_faults_eq_nil {root node : Node} {test : Report → Bool}
    (other : ∀ report, test report = true → node.kind ∉ report.finding.about) :
    (root.faults place node).filter test = [] := by
  rw [List.filter_eq_nil_iff]
  exact fun report member here => other report here (concern_faults root place node report member)

section
variable {root : Node} {due : Place → Report → Prop} {test : Report → Bool}

theorem Node.diagnoses_of_onePer {kind : Diagnostic.Kind} (one : OnePer due (root.reports.filter (Report.of kind))) :
    root.Diagnoses kind due := by
  have same : root.diagnostics.filter (·.kind == kind) = (root.reports.filter (Report.of kind)).map Report.diagnostic := by
    rw [Node.diagnostics, List.filter_map]
    rfl
  rw [Diagnoses, same]
  exact one.map Report.diagnostic

-- Every report has a key, which tells the node that it is of.
theorem onePer_of_keys (program : Shaped .program root) (key : Place → Report → Place) (owner : Place → Place)
    (owned : ∀ place report, test report = true → owner (key place report) = place)
    (distinct : ∀ place node, root.at? place = some node →
      (((root.faults place node).filter test).map (key place)).Nodup)
    (members : ∀ other report, (∃ place node, root.at? place = some node ∧
      report ∈ (root.faults place node).filter test ∧ key place report = other) ↔ due other report) :
    OnePer due (root.reports.filter test) := by
  let found (place : Place) : List Report := (root.faultsAt place).filter test
  have all : ∀ place node, root.at? place = some node → found place = (root.faults place node).filter test := by
    intro place node present
    simp [found, faultsAt, present]
  have perm : (root.reports.filter test).Perm (root.places.flatMap found) := by
    rw [← List.filter_flatMap]
    exact (reports_perm program).filter test
  refine ⟨root.places.flatMap fun place => (found place).map fun report => (key place report, report), ?_, ?_, ?_⟩
  · have keys : ((root.places.flatMap fun place => (found place).map fun report => (key place report, report)).map
        Prod.fst) = root.places.flatMap fun place => (found place).map (key place) := by
      simp [List.map_flatMap, Function.comp_def]
    rw [keys, List.nodup_flatMap]
    constructor
    · intro place member
      obtain ⟨node, present⟩ := mem_places.mp member
      rw [all place node present]
      exact distinct place node present
    · refine (places_nodup root).imp fun {one other} apart here first second => apart ?_
      have own : ∀ place, here ∈ (found place).map (key place) → owner here = place := by
        intro place among
        obtain ⟨report, member, rfl⟩ := List.mem_map.mp among
        exact owned place report (List.mem_filter.mp member).2
      exact (own one first).symm.trans (own other second)
  · intro other report
    rw [← members, List.mem_flatMap]
    simp only [List.mem_map, Prod.mk.injEq]
    constructor
    · rintro ⟨place, among, _, member, same, rfl⟩
      obtain ⟨node, present⟩ := mem_places.mp among
      exact ⟨place, node, present, all place node present ▸ member, same⟩
    · rintro ⟨place, node, present, member, same⟩
      exact ⟨place, mem_places.mpr ⟨node, present⟩, report, all place node present ▸ member, same, rfl⟩
  · simpa [List.map_flatMap, Function.comp_def] using perm

def Owes (due : Report → Prop) (found : List Report) : Prop :=
  ∃ owed : Option Report, found = owed.toList ∧ ∀ report, due report ↔ owed = some report

theorem owes_one {due : Report → Prop} {found : List Report} {report : Report} (here : due report)
    (only : ∀ other, due other → other = report) (single : found = [report]) : Owes due found := by
  refine ⟨some report, single, fun other => ⟨fun there => by rw [only other there], ?_⟩⟩
  rintro ⟨⟩
  exact here

theorem owes_none {due : Report → Prop} {found : List Report} (never : ∀ report, ¬ due report) (empty : found = []) :
    Owes due found :=
  ⟨none, empty, fun report => ⟨fun here => absurd here (never report), nofun⟩⟩

-- A node that owes no more than one report is the key of it; only nodes of the kinds that the report is about owe any.
theorem onePer_of_faults (program : Shaped .program root) (kinds : List Node.Kind)
    (about : ∀ report, test report = true → report.finding.about ⊆ kinds)
    (there : ∀ place report, due place report → ∃ node, root.at? place = some node ∧ node.kind ∈ kinds)
    (one : ∀ place node, root.at? place = some node → node.kind ∈ kinds →
      Owes (due place) ((root.faults place node).filter test)) :
    OnePer due (root.reports.filter test) := by
  have all : ∀ place node, root.at? place = some node → Owes (due place) ((root.faults place node).filter test) := by
    intro place node present
    by_cases among : node.kind ∈ kinds
    · exact one place node present among
    · refine owes_none (fun report here => ?_) (filter_faults_eq_nil fun report here => mt (@about report here node.kind) among)
      obtain ⟨found, same, among'⟩ := there place report here
      cases present.symm.trans same
      exact among among'
  refine onePer_of_keys program (fun place _ => place) id (fun _ _ _ => rfl) ?_ ?_
  · intro place node present
    obtain ⟨owed, paid, _⟩ := all place node present
    rw [paid]
    cases owed <;> simp
  · intro place report
    constructor
    · rintro ⟨_, node, present, member, rfl⟩
      obtain ⟨owed, paid, due⟩ := all _ node present
      rw [paid] at member
      exact (due report).mpr (Option.mem_toList.mp member)
    · intro here
      obtain ⟨node, present, _⟩ := there place report here
      obtain ⟨owed, paid, due⟩ := all place node present
      refine ⟨place, node, present, ?_, rfl⟩
      rw [paid, (due report).mp here]
      simp

theorem onePer_of_kind (program : Shaped .program root) (own : Node.Kind)
    (about : ∀ report, test report = true → report.finding.about ⊆ [own])
    (there : ∀ place report, due place report → ∃ node, root.at? place = some node ∧ node.kind = own)
    (one : ∀ place node, root.at? place = some node → node.kind = own →
      Owes (due place) ((root.faults place node).filter test)) :
    OnePer due (root.reports.filter test) := by
  refine onePer_of_faults program [own] about ?_ ?_
  · intro place report here
    obtain ⟨node, present, kind⟩ := there place report here
    exact ⟨node, present, List.mem_singleton.mpr kind⟩
  · intro place node present kinds
    exact one place node present (List.mem_singleton.mp kinds)

theorem filter_reportUnless (condition : Bool) (finding : Finding) (line : Nat) :
    (reportUnless condition finding line).filter test =
      if test ⟨finding, line⟩ then reportUnless condition finding line else [] := by
  cases condition <;> simp [reportUnless, List.filter_cons]

end

end FishLang
