import FishLang.Proofs.Analysis.Functions

namespace FishLang

open Node Grammar

-- A function that the place is in, not itself the place.
structure Around (root : Node) (place function : Place) : Prop where
  isFunction : ∃ node, root.at? function = some node ∧ node.kind = .functionDef
  above : function <+: place ∧ function ≠ place

-- Of all functions around the place it is the innermost.
structure Within (root : Node) (place function : Place) : Prop where
  around : Around root place function
  nearest : ∀ other, Around root place other → other <+: function

-- What is due at a return that no function is around.
inductive Misplaced (root : Node) : Place → Report → Prop
  | of {place : Place} {node : Node} : root.at? place = some node → node.kind = .emerge →
      (∀ function, ¬ Around root place function) → Misplaced root place ⟨.returnOutsideFunction, node.line⟩

-- What is due at a return of another type than the one that is written for the results of its function.
inductive Misreturned (root : Node) : Place → Report → Prop
  | of {place function : Place} {node definition : Node} {declared given : Ty} {line : Nat} :
      root.at? place = some node → node.kind = .emerge → Within root place function →
      root.at? function = some definition → root.at? (function ++ [1]) = some (.ofTy declared line) →
      root.typeAt (place ++ [0]) = some given → declared ≠ given →
      Misreturned root place ⟨.result definition.text (some declared) (some given), node.line⟩

def Finding.isResult : Finding → Bool
  | .result .. => true
  | _ => false

-- Returns are judged by the function they are in: what is reported of them is what is due, the expression is
-- visited, once, wherever the return is, and the type it is judged with is the one that the visit yields. When a
-- run comes to a return with functions around it, the function it knows itself in is the innermost one.
structure Node.ReturnsJudged (root : Node) : Prop where
  misplaced : root.Diagnoses .returnOutsideFunction (Misplaced root)
  misreturned : OnePer (Misreturned root) (root.reports.filter (·.finding.isResult))
  visited : ∀ place node, root.at? place = some node → node.kind = .emerge →
    ∃ given made, root.at? (place ++ [0]) = some given ∧ root.visitsOf (place ++ [0]) = [made] ∧
      made.node = given ∧ made.ty = root.typeAt (place ++ [0])
  enclosed : ∀ place node other, root.at? place = some node → node.kind = .emerge → Around root place other →
    ∃ function definition declared line made, Within root place function ∧ root.at? function = some definition ∧
      root.at? (function ++ [1]) = some (.ofTy declared line) ∧ root.visitsOf place = [made] ∧ made.node = node ∧
      made.before.enclosing = some (.ofNode definition) ∧ (Signature.ofNode definition).result = some declared

section
variable {root node definition : Node} {place function : Place}

theorem around_iff : Around root place function ↔
    function ∈ place.above ∧ root.holds (·.kind == .functionDef) function = true := by
  rw [Place.mem_above, holds_iff]
  simp only [beq_iff_eq]
  exact ⟨fun around => ⟨around.above, around.isFunction⟩, fun ⟨above, isFunction⟩ => ⟨isFunction, above⟩⟩

theorem functionAround_eq_none_iff : root.functionAround place = none ↔ ∀ function, ¬ Around root place function := by
  simp only [functionAround, List.find?_eq_none, around_iff, not_and]

theorem Within.unique {other : Place} (one : Within root place function) (two : Within root place other) :
    function = other :=
  (two.nearest function one.around).eq_of_length_le (one.nearest other two.around).length_le

theorem Within.of_functionAround (found : root.functionAround place = some function) : Within root place function := by
  have holds := List.find?_some found
  refine ⟨around_iff.mpr ⟨List.mem_of_find?_eq_some found, holds⟩, fun other around => ?_⟩
  obtain ⟨member, isFunction⟩ := around_iff.mp around
  rcases find?_first (Place.above_prefixes place) found member isFunction with rfl | outer
  · exact List.prefix_rfl
  · exact outer

theorem functionAround_eq_some_iff : root.functionAround place = some function ↔ Within root place function := by
  constructor
  · exact .of_functionAround
  · intro within
    cases found : root.functionAround place with
    | none => exact absurd within.around (functionAround_eq_none_iff.mp found function)
    | some other => rw [within.unique (.of_functionAround found)]

theorem outside_or_within (root : Node) (place : Place) : (∀ function, ¬ Around root place function) ∨
    ∃ function definition, Within root place function ∧ root.at? function = some definition := by
  cases found : root.functionAround place with
  | none => exact .inl (functionAround_eq_none_iff.mp found)
  | some function =>
    obtain ⟨definition, present, _⟩ := functionAround_present found
    exact .inr ⟨function, definition, .of_functionAround found, present⟩

theorem result_of_written {declared : Ty} {line : Nat} (present : root.at? function = some definition)
    (typed : root.at? (function ++ [1]) = some (.ofTy declared line)) :
    (Signature.ofNode definition).result = some declared := by
  have child : definition.child? 1 = some (.ofTy declared line) := (at?_child present 1).symm.trans typed
  show (definition.child? 1).bind ty? = some declared
  rw [child]
  exact Ty.ofName?_name declared

-- The type of the results is there to be read, whatever the table of functions has for the name.
theorem Within.written (program : Shaped .program root) (within : Within root place function)
    (present : root.at? function = some definition) :
    ∃ declared line, root.at? (function ++ [1]) = some (.ofTy declared line) := by
  obtain ⟨_, present', kind⟩ := within.around.isFunction
  cases present.symm.trans present'
  obtain ⟨_, shaped⟩ := program.at? present
  obtain ⟨_, _, _, result, _, _, rfl, _, typed⟩ := shaped.of_functionDef kind
  obtain ⟨declared, line, rfl⟩ := typed.typeName_eq
  exact ⟨declared, line, at?_child present 1⟩

theorem faults_of_outside (kind : node.kind = .emerge) (outside : ∀ function, ¬ Around root place function) :
    root.faults place node = [⟨.returnOutsideFunction, node.line⟩] := by
  simp [faults, kind, functionAround_eq_none_iff.mpr outside, Context.resultReports, reportUnless]

theorem faults_of_within {declared : Ty} (kind : node.kind = .emerge) (within : Within root place function)
    (present : root.at? function = some definition) (written : (Signature.ofNode definition).result = some declared) :
    root.faults place node = reportUnless (compatible (some declared) (root.typeAt (place ++ [0])))
      (.result definition.text (some declared) (root.typeAt (place ++ [0]))) node.line := by
  simp only [faults, kind, functionAround_eq_some_iff.mpr within, Option.bind_some, signatureAt_eq present,
    Context.resultReports, written]
  rfl

theorem onePer_misplaced (program : Shaped .program root) :
    OnePer (Misplaced root) (root.reports.filter (Report.of .returnOutsideFunction)) := by
  refine onePer_of_kind program .emerge (fun _ => Report.about_of) ?_ fun place node present kind => ?_
  · rintro place report ⟨present, kind, _⟩
    exact ⟨_, present, kind⟩
  rcases outside_or_within root place with outside | ⟨function, definition, within, there⟩
  · refine owes_one (.of present kind outside) ?_ (by simp [faults_of_outside kind outside, Report.of, Finding.kind])
    rintro _ ⟨present', _, _⟩
    cases present.symm.trans present'
    rfl
  · obtain ⟨declared, line, typed⟩ := within.written program there
    refine owes_none ?_ ?_
    · rintro _ ⟨_, _, outside⟩
      exact outside function within.around
    · rw [faults_of_within kind within there (result_of_written there typed), filter_reportUnless]
      rfl

theorem onePer_misreturned (program : Shaped .program root) :
    OnePer (Misreturned root) (root.reports.filter (·.finding.isResult)) := by
  refine onePer_of_kind program .emerge ?_ ?_ fun place node present kind => ?_
  · rintro ⟨finding, _⟩ isResult
    cases finding with
    | result => simp [Finding.about]
    | _ => cases isResult
  · rintro place report ⟨present, kind, _⟩
    exact ⟨_, present, kind⟩
  rcases outside_or_within root place with outside | ⟨function, definition, within, there⟩
  · refine owes_none ?_ (by simp [faults_of_outside kind outside, Finding.isResult])
    rintro _ ⟨_, _, within, _⟩
    exact outside _ within.around
  obtain ⟨declared, line, typed⟩ := within.written program there
  have written := result_of_written there typed
  have due : ∀ report, Misreturned root place report → ∃ given, root.typeAt (place ++ [0]) = some given ∧
      declared ≠ given ∧ report = ⟨.result definition.text (some declared) (some given), node.line⟩ := by
    rintro _ ⟨present', _, within', there', typed', known, apart⟩
    cases present.symm.trans present'
    cases within.unique within'
    cases there.symm.trans there'
    cases written.symm.trans (result_of_written there typed')
    exact ⟨_, known, apart, rfl⟩
  rw [faults_of_within kind within there written]
  cases known : root.typeAt (place ++ [0]) with
  | none =>
    refine owes_none (fun report here => ?_) rfl
    obtain ⟨_, known', _⟩ := due report here
    cases known.symm.trans known'
  | some given =>
    by_cases same : declared = given
    · refine owes_none (fun report here => ?_) (by simp [reportUnless, compatible, same])
      obtain ⟨_, known', apart, _⟩ := due report here
      cases known.symm.trans known'
      exact apart same
    · refine owes_one (.of present kind within there typed known same) (fun report here => ?_) ?_
      · obtain ⟨_, known', _, told⟩ := due report here
        cases known.symm.trans known'
        exact told
      · simp [reportUnless, compatible, same, Finding.isResult]

theorem run_returned (program : Shaped .program root) (present : root.at? place = some node)
    (kind : node.kind = .emerge) : ∃ given made, root.at? (place ++ [0]) = some given ∧
      root.visitsOf (place ++ [0]) = [made] ∧ made.node = given ∧ made.ty = root.typeAt (place ++ [0]) := by
  obtain ⟨_, shaped⟩ := program.at? present
  obtain ⟨given, _, rfl, inner⟩ := shaped.of_emerge kind
  have there : root.at? (place ++ [0]) = some given := at?_child present 0
  obtain ⟨made, only, same, _, typed⟩ := run_known program there (visitable_of_expression inner)
  exact ⟨given, made, there, only, same, typed⟩

theorem run_enclosed (program : Shaped .program root) (present : root.at? place = some node)
    (own : node.visitable = true) (within : Within root place function)
    (there : root.at? function = some definition) : ∃ made, root.visitsOf place = [made] ∧ made.node = node ∧
      made.before.enclosing = some (.ofNode definition) := by
  obtain ⟨made, only, same, agrees, _⟩ := run_known program present own
  refine ⟨made, only, same, ?_⟩
  rw [agrees.enclosing, functionAround_eq_some_iff.mpr within, Option.bind_some, signatureAt_eq there]

end

-- Returns of accepted programs are judged by the function they are in.
theorem Node.ofTokens_returnsJudged {root : Node} (accepted : Node.ofTokens tokens = .ok root) :
    root.ReturnsJudged := by
  have program := Node.ofTokens_shaped accepted
  refine ⟨diagnoses_of_onePer (onePer_misplaced program), onePer_misreturned program, ?_, ?_⟩
  · intro place node present kind
    exact run_returned program present kind
  · intro place node other present kind around
    rcases outside_or_within root place with outside | ⟨function, definition, within, there⟩
    · exact absurd around (outside other)
    obtain ⟨declared, line, typed⟩ := within.written program there
    obtain ⟨made, only, same, enclosed⟩ :=
      run_enclosed program present (by simp [visitable, passedOver, kind]) within there
    exact ⟨function, definition, declared, line, made, within, there, typed, only, same, enclosed,
      result_of_written there typed⟩

def entangled : List Token :=
  [(.word .fish, "fish"), (.mark .leftBrace, "\x7b"), (.word .emerge, "emerge"), (.number, "1"), (.delimiter, "<D"),
    (.word .fishtion, "fishtion"), (.identifier, "same"), (.mark .leftParen, "("), (.mark .rightParen, ")"),
    (.type .int, "<int"), (.mark .leftBrace, "\x7b"), (.word .fishtion, "fishtion"), (.identifier, "same"),
    (.mark .leftParen, "("), (.mark .rightParen, ")"), (.type .string, "<string"), (.mark .leftBrace, "\x7b"),
    (.word .emerge, "emerge"), (.number, "1"), (.delimiter, "<D"), (.mark .rightBrace, "\x7d"),
    (.word .emerge, "emerge"), (.string, "\"one\""), (.delimiter, "<D"), (.mark .rightBrace, "\x7d"),
    (.mark .rightBrace, "\x7d")].map fun (kind, lexeme) => ⟨kind, .unplaced, lexeme⟩

theorem entangled_returnsJudged : ∃ root, Node.ofTokens entangled = .ok root ∧
    root.reports.map Report.finding = [.returnOutsideFunction, .duplicateFunction "same",
      .result "same" (some .string) (some .int), .result "same" (some .int) (some .string)] ∧
    root.ReturnsJudged := by
  have accepted : Node.ofTokens entangled = .ok _ := rfl
  exact ⟨_, accepted, by decide, Node.ofTokens_returnsJudged accepted⟩

end FishLang
