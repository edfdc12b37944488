import FishLang.Proofs.CommandLine.Log
import FishLang.Proofs.CommandLine.Texts

namespace FishLang

-- What is delivered is the document, if there is one, and it goes to one place alone: to the output file if the
-- options name one, and to standard output if not.
def Outcome.Delivers (outcome : Outcome) (output document : Option String) : Prop :=
  match output with
  | some _ => outcome.stdout = "" ∧ outcome.file = document
  | none => outcome.stdout = document.elim "" (· ++ "\n") ∧ outcome.file = none

theorem Outcome.Delivers.unique (one : Delivers outcome output document) (two : Delivers outcome output other) :
    document = other := by
  cases output with
  | some path => exact one.2.symm.trans two.2
  | none =>
    have printed : document.elim "" (· ++ "\n") = other.elim "" (· ++ "\n") := one.1.symm.trans two.1
    have full (text : String) : text ++ "\n" ≠ "" := by simp
    cases document with
    | none =>
      cases other with
      | none => rfl
      | some text => exact absurd printed.symm (full text)
    | some text =>
      cases other with
      | none => exact absurd printed (full text)
      | some text' => simpa using printed

namespace Plan

theorem run_eq (options : Options) (plan : Plan) :
    plan.run options none =
      { stdout := if options.output.isSome then "" else plan.document.elim "" (· ++ "\n")
        stderr := said options (plan.before ++ plan.after) plan.problem
        file := if options.output.isSome then plan.document else none
        success := plan.problem.isNone } := by
  unfold run
  cases plan.document with
  | none => cases options.output <;> rfl
  | some document => cases options.output <;> rfl

theorem run_delivers (options : Options) (plan : Plan) :
    (plan.run options none).Delivers options.output plan.document := by
  rw [run_eq]
  unfold Outcome.Delivers
  cases options.output with
  | none => exact ⟨rfl, rfl⟩
  | some path => exact ⟨rfl, rfl⟩

end Plan

theorem check_ok_iff {layout : Layout} {source : String} :
    (∃ node, check layout source = .ok node) ↔ ∃ node, parse layout source = .ok node ∧ node.diagnostics = [] := by
  unfold check
  cases parse layout source with
  | error error => simp
  | ok node =>
    dsimp only
    split
    · next none => simpa using none
    · next some => simpa using some

theorem check_flawless {layout : Layout} {source : String} (accepted : parse layout source = .ok node)
    (none : node.diagnostics = []) : check layout source = .ok node := by
  rw [check, accepted]
  exact if_pos (List.isEmpty_iff.mpr none)

theorem check_faulty {layout : Layout} {source : String} (accepted : parse layout source = .ok node)
    (some : node.diagnostics ≠ []) : check layout source = .error (.semantic node.diagnostics) := by
  rw [check, accepted]
  exact if_neg (List.isEmpty_iff.not.mpr some)

theorem check_parse {layout : Layout} {source : String} (failed : parse layout source = .error error) :
    check layout source = .error (.parse error) := by
  rw [check, failed]

namespace Options

variable (options : Options) (source : String)

def plan : Plan := Plan.of options (.ok source)

-- What a run comes to when its source can be read and its document written.
def outcome : Outcome := (options.plan source).run options none

def opened : List Entry := Entry.opening options ++ Entry.ofTokens (tokenize (clean options.layout source))

-- The courses of a run, with what is said, the document and the problem.
inductive Course : List Entry → Option String → Option Problem → Prop where
  | scanned (asked : options.emit = .tokens) :
      Course (options.opened source) (some (options.tokensText (tokenize (clean options.layout source)))) none
  | unparsed (entries : List Entry) (asked : options.emit ≠ .tokens)
      (failed : parse options.layout source = .error error) :
      Course entries (if options.json then some error.document.render else none) (some (.noProgram options.input))
  | parsed (asked : options.emit = .ast) (accepted : parse options.layout source = .ok node) :
      Course (options.opened source ++ Entry.parsing (tokenize (clean options.layout source)))
        (some (options.treeText node)) none
  | flawless (asked : options.emit = .check) (accepted : parse options.layout source = .ok node)
      (none : node.diagnostics = []) :
      Course (options.opened source ++ Entry.parsing (tokenize (clean options.layout source)) ++ Entry.checking node ++
          [.log .info .command "No semantic errors found"])
        (if options.json || options.output.isSome then some (options.diagnosticsText []) else .none) .none
  | faulty (asked : options.emit = .check) (accepted : parse options.layout source = .ok node)
      (some : node.diagnostics ≠ []) :
      Course (options.opened source ++ Entry.parsing (tokenize (clean options.layout source)) ++ Entry.checking node ++
          node.diagnostics.flatMap (Entry.ofDiagnostic (clean options.layout source)))
        (if options.json || options.output.isSome then .some (options.diagnosticsText node.diagnostics) else none)
        (.some (.faulty node.diagnostics.length))

theorem course : options.Course source ((options.plan source).before ++ (options.plan source).after)
    (options.plan source).document (options.plan source).problem := by
  unfold plan Plan.of Plan.ofSource
  dsimp only
  split
  · next asked =>
    rw [List.append_nil]
    exact .scanned asked
  · next asked =>
    split
    · next error failed => exact .unparsed _ asked failed
    · next node accepted =>
      split
      · next ast =>
        rw [List.append_nil]
        exact .parsed ast accepted
      · next ast =>
        have check : options.emit = .check := by
          cases emit : options.emit with
          | tokens => exact absurd emit asked
          | ast => exact absurd emit ast
          | check => rfl
        by_cases none : node.diagnostics = []
        · rw [none]
          exact .flawless check accepted none
        · rw [Bool.eq_false_iff.mpr (List.isEmpty_iff.not.mpr none)]
          exact .faulty check accepted none

-- When a document is asked for.
def Documents : Prop :=
  options.emit = .tokens ∨ options.json = true ∨ (∃ node, parse options.layout source = .ok node) ∧
    (options.emit = .ast ∨ options.emit = .check ∧ options.output.isSome = true)

-- The texts of documents, by what the library answers: with JSON what can be read from a text, without it the text
-- itself, line by line.
inductive Renders (text : String) : Prop where
  | tokens (asked : options.emit = .tokens)
      (coded : options.json = true →
        Document.read? text = some (.list ((tokenize (clean options.layout source)).map Token.document)))
      (plain : options.json = false →
        ∃ rows, List.Forall₂ Token.Row (tokenize (clean options.layout source)) rows ∧ text = "\n".intercalate rows)
  | error (asked : options.emit ≠ .tokens) (json : options.json = true)
      (failed : parse options.layout source = .error error)
      (coded : Document.read? text = some (.record [("expected", .list (error.expected.map .text)),
        ("found", error.found.elim .null .text), ("line", error.line?.elim .null .number),
        ("message", .text error.message)]))
  | tree (asked : options.emit = .ast) (accepted : parse options.layout source = .ok node)
      (coded : options.json = true → Document.read? text = some node.document)
      (plain : options.json = false → text = node.pretty)
  | nothing (asked : options.emit = .check) (accepted : check options.layout source = .ok node)
      (coded : options.json = true → Document.read? text = some (.list []))
      (plain : options.json = false → text = "")
  | diagnostics (asked : options.emit = .check)
      (failed : check options.layout source = .error (.semantic diagnostics))
      (coded : options.json = true → Document.read? text = some (.list (diagnostics.map fun diagnostic =>
        .record [("message", .text diagnostic.message), ("line", .number diagnostic.line),
          ("kind", .text diagnostic.kind.label)])))
      (plain : options.json = false → splitLines text.toList = diagnostics.map fun diagnostic =>
        ("[line " ++ toString diagnostic.line ++ "] " ++ diagnostic.message).toList)

-- A run says and writes what the library's answers ask for.
structure Agrees : Prop where
  scans : options.emit = .tokens → (options.outcome source).success = true
  parses : options.emit = .ast →
    ((options.outcome source).success = true ↔ ∃ node, parse options.layout source = .ok node)
  checks : options.emit = .check →
    ((options.outcome source).success = true ↔ ∃ node, check options.layout source = .ok node)
  -- What standard error tells as errors, when a check fails: the diagnostics, whatever else is logged.
  logs : options.emit = .check → ∀ diagnostics, check options.layout source = .error (.semantic diagnostics) →
    logged (options.outcome source).stderr.toList = diagnostics.map fun diagnostic =>
      "[line " ++ toString diagnostic.line ++ "] " ++ diagnostic.message
  silent : (options.outcome source).success = true → logged (options.outcome source).stderr.toList = []
  delivers : ∀ document,
    (options.outcome source).Delivers options.output document ↔ (options.plan source).document = document
  documents : (options.plan source).document.isSome = true ↔ options.Documents source
  renders : ∀ text ∈ (options.plan source).document, options.Renders source text
  -- What JSON texts are read as stands for one token, tree or diagnostic alone.
  apart : Function.Injective Token.document ∧ Function.Injective Node.document ∧
    Function.Injective fun diagnostic : Diagnostic => Document.record [("message", .text diagnostic.message),
      ("line", .number diagnostic.line), ("kind", .text diagnostic.kind.label)]
  -- Verbosity does not change the plan, of which only the log is shown by level.
  verbosity : ∀ verbose quiet,
    let other := { options with verbose := verbose, quiet := quiet }
    other.plan source = options.plan source ∧
      other.outcome source = { options.outcome source with stderr := (other.outcome source).stderr }

variable {options source}

theorem success_iff : (options.outcome source).success = true ↔ (options.plan source).problem = none := by
  rw [outcome, Plan.run_eq, Option.isNone_iff_eq_none]

theorem outcome_stderr : (options.outcome source).stderr =
    Plan.said options ((options.plan source).before ++ (options.plan source).after) (options.plan source).problem := by
  rw [outcome, Plan.run_eq]

namespace Course

theorem scans (course : options.Course source entries document problem) (asked : options.emit = .tokens) :
    problem = none := by
  cases course with
  | scanned => rfl
  | unparsed _ other => exact absurd asked other
  | parsed ast => cases asked.symm.trans ast
  | flawless check | faulty check => cases asked.symm.trans check

theorem parses (course : options.Course source entries document problem) (asked : options.emit = .ast) :
    problem = none ↔ ∃ node, parse options.layout source = .ok node := by
  cases course with
  | scanned tokens => cases asked.symm.trans tokens
  | unparsed _ _ failed => simp [failed]
  | parsed _ accepted => simp [accepted]
  | flawless check | faulty check => cases asked.symm.trans check

theorem checks (course : options.Course source entries document problem) (asked : options.emit = .check) :
    problem = none ↔ ∃ node, check options.layout source = .ok node := by
  rw [check_ok_iff]
  cases course with
  | scanned tokens => cases asked.symm.trans tokens
  | unparsed _ _ failed => simp [failed]
  | parsed ast => cases asked.symm.trans ast
  | flawless _ accepted none => simp [accepted, none]
  | faulty _ accepted some => simp [accepted, some]

theorem logs (course : options.Course source entries document problem) (asked : options.emit = .check)
    (failed : check options.layout source = .error (.semantic diagnostics)) :
    logged (Plan.said options entries problem).toList = diagnostics.map Diagnostic.render := by
  cases course with
  | scanned tokens => cases asked.symm.trans tokens
  | unparsed _ _ unread => cases (check_parse unread).symm.trans failed
  | parsed ast => cases asked.symm.trans ast
  | flawless _ accepted none => cases (check_flawless accepted none).symm.trans failed
  | @faulty node _ accepted some =>
    cases (check_faulty accepted some).symm.trans failed
    have printed : ∀ diagnostic ∈ node.diagnostics, Printed diagnostic.render.toList := fun diagnostic among =>
      Diagnostic.printed_render (Node.ofText_printed accepted diagnostic among)
    exact Plan.logged_faults options (Entry.asides_front options _ node) (Entry.ended_front options _ node _) _ printed

theorem silent (course : options.Course source entries document none) :
    logged (Plan.said options entries none).toList = [] := by
  refine Plan.logged_asides options ?_
  cases course with
  | scanned => exact Entry.asides_opened options _
  | parsed => exact List.forall_mem_append.mpr ⟨Entry.asides_opened options _, Entry.asides_parsing _⟩
  | @flawless node =>
    refine List.forall_mem_append.mpr ⟨Entry.asides_front options _ node, ?_⟩
    simp [Entry.Aside, Level.rank]

theorem renders (course : options.Course source entries document problem) :
    ∀ text ∈ document, options.Renders source text := by
  intro text rendered
  cases course with
  | scanned asked =>
    cases rendered
    exact .tokens asked (tokensText_coded · _) (tokensText_plain · _)
  | unparsed _ asked failed =>
    split at rendered
    · next json =>
      cases rendered
      exact .error asked json failed (Document.read?_render _)
    · cases rendered
  | parsed asked accepted =>
    cases rendered
    exact .tree asked accepted (treeText_coded · _) (treeText_plain · _)
  | flawless asked accepted none =>
    split at rendered
    · cases rendered
      exact .nothing asked (check_flawless accepted none) (diagnosticsText_coded · _) diagnosticsText_nil
    · cases rendered
  | faulty asked accepted some =>
    split at rendered
    · cases rendered
      exact .diagnostics asked (check_faulty accepted some) (diagnosticsText_coded · _)
        (diagnosticsText_plain · (Node.ofText_printed accepted) some)
    · cases rendered

theorem documents (course : options.Course source entries document problem) :
    document.isSome = true ↔ options.Documents source := by
  unfold Documents
  cases course with
  | scanned asked => simp [asked]
  | unparsed _ asked failed => simp [asked, failed]
  | parsed asked accepted => simp [asked, accepted]
  | flawless asked accepted | faulty asked accepted => simp [asked, accepted]

end Course

-- The run goes through the stages by itself, and still comes to what the library comes to, on every source and
-- whatever is asked for.
theorem outcome_agrees (options : Options) (source : String) : options.Agrees source where
  scans asked := by
    rw [success_iff]
    exact (options.course source).scans asked
  parses asked := by
    rw [success_iff]
    exact (options.course source).parses asked
  checks asked := by
    rw [success_iff]
    exact (options.course source).checks asked
  logs asked diagnostics failed := by
    rw [outcome_stderr]
    exact (options.course source).logs asked failed
  silent success := by
    have course := options.course source
    rw [success_iff.mp success] at course
    rw [outcome_stderr, success_iff.mp success]
    exact course.silent
  delivers document :=
    ⟨fun delivers => (Plan.run_delivers options _).unique delivers, fun same => same ▸ Plan.run_delivers options _⟩
  documents := (options.course source).documents
  renders := (options.course source).renders
  apart := ⟨Token.document_injective, Node.document_injective, Diagnostic.document_injective⟩
  verbosity verbose quiet := by
    refine ⟨rfl, ?_⟩
    rw [outcome, outcome, Plan.run_eq, Plan.run_eq]
    rfl

end Options

end FishLang
