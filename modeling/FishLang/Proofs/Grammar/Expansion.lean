import FishLang.Proofs.Grammar.First

namespace FishLang.Grammar

inductive Reaches (symbol : Symbol) : Form → List Kind → Form → Prop where
  | here : Reaches symbol (.phrase symbol) [] .done
  | phrase (body : Reaches symbol (rule other) front behind) : Reaches symbol (.phrase other) front behind
  | first (one : Reaches symbol first front behind) : Reaches symbol (.and first second) front (.and behind second)
  | second (one : Generates first front) (two : Reaches symbol second back behind) :
      Reaches symbol (.and first second) (front ++ back) behind
  | left (one : Reaches symbol first front behind) : Reaches symbol (.or first second) front behind
  | right (two : Reaches symbol second front behind) : Reaches symbol (.or first second) front behind
  | turn (one : Reaches symbol form front behind) : Reaches symbol (.many form) front (.and behind (.many form))
  | later (one : Generates form front) (others : Reaches symbol (.many form) back behind) :
      Reaches symbol (.many form) (front ++ back) behind

-- Behind these kinds of a program the symbol is expanded.
def Expands (symbol : Symbol) (front : List Kind) : Prop := ∃ behind, Reaches symbol (.phrase .program) front behind

def Begins (symbol : Symbol) (kind : Kind) : Prop := ∃ run, Generates (.phrase symbol) (kind :: run)

def Follows (symbol : Symbol) (kind : Kind) : Prop :=
  ∃ front behind run, Reaches symbol (.phrase .program) front behind ∧ Generates behind (kind :: run)

def Admits (symbol : Symbol) (kind : Kind) : Prop :=
  Begins symbol kind ∨ Generates (.phrase symbol) [] ∧ Follows symbol kind

-- The symbols at which the token at hand chooses whether, or how, a part is there at all.
inductive Choice where
  | items | declarationTail | params | otherwise | lastly | forkInitializer | forkCondition | forkStep | arguments
deriving DecidableEq, Repr

def Choice.symbol : Choice → Symbol
  | .items => .items
  | .declarationTail => .declarationTail
  | .params => .params
  | .otherwise => .otherwise
  | .lastly => .lastly
  | .forkInitializer => .forkInitializer
  | .forkCondition => .forkCondition
  | .forkStep => .forkStep
  | .arguments => .arguments

theorem Choice.symbol_injective {one two : Choice} (same : one.symbol = two.symbol) : one = two := by
  cases one <;> cases two <;> first | rfl | cases same

def Choice.all : List Choice :=
  [.items, .declarationTail, .params, .otherwise, .lastly, .forkInitializer, .forkCondition, .forkStep, .arguments]

theorem Choice.mem_all (choice : Choice) : choice ∈ all := by cases choice <;> decide

theorem exists_spelled (kinds : List Kind) : ∃ run : List Token, run.map Token.kind = kinds :=
  ⟨kinds.map fun kind => ⟨kind, .unplaced, ""⟩, by simp [Function.comp_def]⟩

theorem Generates.starts (generates : Generates form kinds) :
    (kinds = [] → form.nullable = true) ∧ ∀ kind ∈ kinds.head?, kind ∈ form.first := by
  obtain ⟨run, rfl⟩ := exists_spelled kinds
  obtain ⟨parts, reads⟩ := generates.reads rfl
  refine ⟨fun empty => reads.starts.1 (List.map_eq_nil_iff.mp empty), fun kind head => ?_⟩
  rw [List.head?_map] at head
  obtain ⟨token, first, rfl⟩ := Option.map_eq_some_iff.mp head
  exact reads.starts.2 token first

def itemFollow : List Kind := .mark .rightBrace :: itemKinds

def expressionFollow : List Kind := [.mark .rightParen, .mark .comma, .delimiter]

def Symbol.follow : Symbol → List Kind
  | .program => []
  | .block => [.word .otherwise, .word .rescue, .word .lastly, .endOfInput] ++ itemFollow
  | .items => [.mark .rightBrace]
  | .item | .declaration | .declarationTail | .functionDef | .statement | .nameStatement | .when | .otherwise
  | .whale | .fork | .attempt | .lastly | .splash | .emerge => itemFollow
  | .typeName => [.identifier, .mark .leftBrace]
  | .params | .moreParams | .forkStep | .arguments => [.mark .rightParen]
  | .param => [.mark .comma, .mark .rightParen]
  | .forkInitializer | .forkCondition => [.delimiter]
  | .expression => expressionFollow
  | .level _ | .signed | .suffixed | .primary => Operator.all.map .operator ++ expressionFollow

-- Whether each symbol of the form has in its table what may stand behind it, where the kinds given may stand
-- behind the form.
def Form.hands (after : List Kind) : Form → Bool
  | .token _ | .done => true
  | .phrase symbol => after.all (· ∈ symbol.follow)
  | .and first second =>
    first.hands (second.first ++ if second.nullable then after else []) && second.hands after
  | .or first second => first.hands after && second.hands after
  | .many form => form.hands (form.first ++ after)

theorem rule_hands (symbol : Symbol) : (rule symbol).hands symbol.follow = true := by
  cases symbol with
  | level level => cases level <;> decide
  | _ => decide

theorem Form.leads_and {first second : Form} {after : List Kind}
    (leads : (Form.and first second).Leads (· ∈ after) kind) :
    first.Leads (· ∈ second.first ++ if second.nullable then after else []) kind := by
  rcases leads with starting | ⟨empty, follows⟩
  · rcases List.mem_append.mp starting with one | two
    · exact .inl one
    · split at two
      · next nullable => exact .inr ⟨nullable, List.mem_append_left _ two⟩
      · cases two
  · obtain ⟨one, two⟩ := Bool.and_eq_true_iff.mp empty
    exact .inr ⟨one, by simp [two, follows]⟩

theorem Reaches.follows (reaches : Reaches symbol form front behind) (hands : form.hands after = true)
    (leads : behind.Leads (· ∈ after) kind) : kind ∈ symbol.follow := by
  induction reaches generalizing after with
  | here => exact of_decide_eq_true (List.all_eq_true.mp hands _ (Form.leads_done kind leads))
  | @phrase other _ _ _ ih =>
    refine ih (rule_hands other) (leads.imp_right fun ⟨empty, follows⟩ => ⟨empty, ?_⟩)
    exact of_decide_eq_true (List.all_eq_true.mp hands _ follows)
  | first _ ih => exact ih (Bool.and_eq_true_iff.mp hands).1 (Form.leads_and leads)
  | second _ _ ih => exact ih (Bool.and_eq_true_iff.mp hands).2 leads
  | left _ ih => exact ih (Bool.and_eq_true_iff.mp hands).1 leads
  | right _ ih => exact ih (Bool.and_eq_true_iff.mp hands).2 leads
  | turn _ ih => exact ih hands (Form.leads_and leads)
  | later _ _ ih => exact ih hands leads

def Symbol.admitted (symbol : Symbol) : List Kind :=
  symbol.first ++ if symbol.nullable then symbol.follow else []

theorem Admits.mem_admitted (admits : Admits symbol kind) : kind ∈ symbol.admitted := by
  rcases admits with ⟨run, generates⟩ | ⟨empty, front, behind, run, reaches, generates⟩
  · exact List.mem_append_left _ (generates.starts.2 kind rfl)
  · have nullable : symbol.nullable = true := empty.starts.1 rfl
    have hands : (Form.phrase .program).hands [] = true := rfl
    have follows := reaches.follows hands (.inl (generates.starts.2 kind rfl))
    simp [Symbol.admitted, nullable, follows]

-- Whether a choice may stand at the very start of the form.
def Form.opens : Form → Bool
  | .token _ | .done => false
  | .phrase symbol => Choice.all.any (·.symbol = symbol)
  | .and first second => first.opens || first.nullable && second.opens
  | .or first second => first.opens || second.opens
  | .many form => form.opens

theorem rule_opens (symbol : Symbol) : (rule symbol).opens = false := by
  cases symbol with
  | level level => cases level <;> decide
  | _ => decide

theorem Reaches.starts {choice : Choice} (reaches : Reaches choice.symbol form front behind) :
    (front = [] → form.opens = true) ∧ ∀ kind ∈ front.head?, kind ∈ form.first := by
  induction reaches with
  | here =>
    have opens : (Form.phrase choice.symbol).opens = true :=
      List.any_eq_true.mpr ⟨choice, choice.mem_all, decide_eq_true rfl⟩
    exact ⟨fun _ => opens, fun _ head => by cases head⟩
  | @phrase other _ _ _ ih =>
    refine ⟨fun empty => ?_, fun kind head => other.closed.2 kind (ih.2 kind head)⟩
    cases (rule_opens other).symm.trans (ih.1 empty)
  | first _ ih =>
    exact ⟨fun empty => by simp [Form.opens, ih.1 empty],
      fun kind head => List.mem_append_left _ (ih.2 kind head)⟩
  | @second first front second back _ one _ ih =>
    cases front with
    | nil =>
      have nullable := one.starts.1 rfl
      exact ⟨fun empty => by simp [Form.opens, nullable, ih.1 empty],
        fun kind head => List.mem_append_right _ (by simpa [nullable] using ih.2 kind head)⟩
    | cons =>
      exact ⟨fun empty => (by cases empty), fun kind head => List.mem_append_left _ (one.starts.2 kind head)⟩
  | left _ ih =>
    exact ⟨fun empty => by simp [Form.opens, ih.1 empty], fun kind head => List.mem_append_left _ (ih.2 kind head)⟩
  | right _ ih =>
    exact ⟨fun empty => by simp [Form.opens, ih.1 empty], fun kind head => List.mem_append_right _ (ih.2 kind head)⟩
  | turn _ ih => exact ih
  | @later _ front back _ one _ ih =>
    cases front with
    | nil => exact ih
    | cons => exact ⟨fun empty => (by cases empty), one.starts.2⟩

theorem Symbol.reads_nil {symbol : Symbol} (nullable : symbol.nullable = true) :
    ∃ parts, Reads (.phrase symbol) [] parts := by
  cases symbol with
  | forkInitializer => exact ⟨_, .phrase (.right (.right .done))⟩
  | items | params | moreParams | otherwise | forkCondition | forkStep | lastly | arguments =>
    exact ⟨_, .phrase (.right .done)⟩
  | _ => cases nullable

theorem Form.reads_nil {form : Form} (nullable : form.nullable = true) : ∃ parts, Reads form [] parts := by
  induction form with
  | token => cases nullable
  | phrase symbol => exact Symbol.reads_nil nullable
  | done => exact ⟨_, .done⟩
  | many => exact ⟨_, .stop⟩
  | and first second ihOne ihTwo =>
    obtain ⟨one, two⟩ := Bool.and_eq_true_iff.mp nullable
    obtain ⟨parts, readsOne⟩ := ihOne one
    obtain ⟨others, readsTwo⟩ := ihTwo two
    exact ⟨_, .and readsOne readsTwo⟩
  | or first second ihOne ihTwo =>
    rcases Bool.or_eq_true_iff.mp nullable with one | two
    · obtain ⟨parts, reads⟩ := ihOne one
      exact ⟨_, .left reads⟩
    · obtain ⟨parts, reads⟩ := ihTwo two
      exact ⟨_, .right reads⟩

-- Whether some run of the form starts with the kind, given which kinds are known to start symbols.
def Form.startsGiven (known : Symbol → Kind → Bool) (kind : Kind) : Form → Bool
  | .token kinds => kind ∈ kinds
  | .phrase symbol => known symbol kind
  | .done => false
  | .and first second =>
    first.startsGiven known kind && second.inhabited || first.nullable && second.startsGiven known kind
  | .or first second => first.startsGiven known kind || second.startsGiven known kind
  | .many form => form.startsGiven known kind

def Symbol.startsWithin : Nat → Symbol → Kind → Bool
  | 0, _, _ => false
  | bound + 1, symbol, kind => (rule symbol).startsGiven (Symbol.startsWithin bound) kind

theorem Form.reads_of_startsGiven {form : Form} {token : Token}
    (symbols : ∀ symbol, known symbol token.kind = true →
      ∃ more parts, Reads (.phrase symbol) (token :: more) parts)
    (given : form.startsGiven known token.kind = true) : ∃ more parts, Reads form (token :: more) parts := by
  induction form with
  | token kinds => exact ⟨_, _, .token (of_decide_eq_true given)⟩
  | phrase symbol => exact symbols symbol given
  | done => cases given
  | many form ih =>
    obtain ⟨more, parts, reads⟩ := ih given
    exact ⟨more, parts, by simpa using Reads.more reads .stop⟩
  | and first second ihOne ihTwo =>
    rcases Bool.or_eq_true_iff.mp given with starting | behind
    · obtain ⟨one, two⟩ := Bool.and_eq_true_iff.mp starting
      obtain ⟨more, parts, readsOne⟩ := ihOne one
      obtain ⟨back, others, readsTwo⟩ := Form.exists_reads two
      exact ⟨more ++ back, _, .and readsOne readsTwo⟩
    · obtain ⟨one, two⟩ := Bool.and_eq_true_iff.mp behind
      obtain ⟨parts, readsOne⟩ := Form.reads_nil one
      obtain ⟨more, others, readsTwo⟩ := ihTwo two
      exact ⟨more, _, .and readsOne readsTwo⟩
  | or first second ihOne ihTwo =>
    rcases Bool.or_eq_true_iff.mp given with one | two
    · obtain ⟨more, parts, reads⟩ := ihOne one
      exact ⟨more, _, .left reads⟩
    · obtain ⟨more, parts, reads⟩ := ihTwo two
      exact ⟨more, _, .right reads⟩

theorem Symbol.reads_of_first {symbol : Symbol} {token : Token} (starting : token.kind ∈ symbol.first) :
    ∃ more parts, Reads (.phrase symbol) (token :: more) parts := by
  have within : ∀ bound symbol, Symbol.startsWithin bound symbol token.kind = true →
      ∃ more parts, Reads (.phrase symbol) (token :: more) parts := by
    intro bound
    induction bound with
    | zero => simp [Symbol.startsWithin]
    | succ bound ih =>
      intro symbol found
      obtain ⟨more, parts, reads⟩ := Form.reads_of_startsGiven ih found
      exact ⟨more, _, .phrase reads⟩
  have each : ∀ kind ∈ symbol.first, Symbol.startsWithin 10 symbol kind = true := by
    cases symbol with
    | level level => cases level <;> decide +kernel
    | _ => decide +kernel
  exact within 10 symbol (each _ starting)

def Form.starts (kind : Kind) (form : Form) : Bool := form.startsGiven (fun symbol kind => kind ∈ symbol.first) kind

theorem Form.reads_of_starts {form : Form} {token : Token} (starting : form.starts token.kind = true) :
    ∃ more parts, Reads form (token :: more) parts :=
  Form.reads_of_startsGiven (fun _ known => Symbol.reads_of_first (of_decide_eq_true known)) starting

theorem Begins.of_first {symbol : Symbol} (starting : kind ∈ symbol.first) : Begins symbol kind := by
  let token : Token := ⟨kind, .unplaced, ""⟩
  have starting : token.kind ∈ symbol.first := starting
  obtain ⟨more, parts, reads⟩ := Symbol.reads_of_first starting
  exact ⟨_, reads.generates⟩

-- Behind these tokens of the form the symbol is expanded.
def Awaits (symbol : Symbol) (form : Form) (front : List Token) : Prop :=
  ∃ behind, Reaches symbol form (front.map Token.kind) behind

section Awaits

variable {symbol other : Symbol} {form first second : Form} {front : List Token}

theorem not_awaits_token : ¬ Awaits symbol (.token kinds) front := by
  intro ⟨_, reaches⟩
  cases reaches

theorem not_awaits_done : ¬ Awaits symbol .done front := by
  intro ⟨_, reaches⟩
  cases reaches

theorem awaits_phrase :
    Awaits symbol (.phrase other) front ↔ symbol = other ∧ front = [] ∨ Awaits symbol (rule other) front := by
  constructor
  · intro ⟨_, reaches⟩
    generalize passed : front.map Token.kind = kinds at reaches
    cases reaches with
    | here => exact .inl ⟨rfl, List.map_eq_nil_iff.mp passed⟩
    | phrase body => exact .inr ⟨_, passed ▸ body⟩
  · rintro (⟨rfl, rfl⟩ | ⟨_, body⟩)
    · exact ⟨_, .here⟩
    · exact ⟨_, .phrase body⟩

theorem awaits_and : Awaits symbol (.and first second) front ↔ Awaits symbol first front ∨
    ∃ one two parts, front = one ++ two ∧ Reads first one parts ∧ Awaits symbol second two := by
  constructor
  · intro ⟨_, reaches⟩
    generalize passed : front.map Token.kind = kinds at reaches
    cases reaches with
    | first one => exact .inl ⟨_, passed ▸ one⟩
    | second one two =>
      obtain ⟨ahead, back, rfl, rfl, rfl⟩ := List.map_eq_append_iff.mp passed
      obtain ⟨parts, reads⟩ := one.reads rfl
      exact .inr ⟨ahead, back, parts, rfl, reads, _, two⟩
  · rintro (⟨_, one⟩ | ⟨one, two, parts, rfl, reads, _, reaches⟩)
    · exact ⟨_, .first one⟩
    · rw [Awaits, List.map_append]
      exact ⟨_, .second reads.generates reaches⟩

theorem awaits_or : Awaits symbol (.or first second) front ↔
    Awaits symbol first front ∨ Awaits symbol second front := by
  constructor
  · intro ⟨_, reaches⟩
    cases reaches with
    | left one => exact .inl ⟨_, one⟩
    | right two => exact .inr ⟨_, two⟩
  · rintro (⟨_, one⟩ | ⟨_, two⟩)
    · exact ⟨_, .left one⟩
    · exact ⟨_, .right two⟩

theorem awaits_many : Awaits symbol (.many form) front ↔ Awaits symbol (.and form (.many form)) front := by
  rw [awaits_and]
  constructor
  · intro ⟨_, reaches⟩
    generalize passed : front.map Token.kind = kinds at reaches
    cases reaches with
    | turn one => exact .inl ⟨_, passed ▸ one⟩
    | later one others =>
      obtain ⟨ahead, back, rfl, rfl, rfl⟩ := List.map_eq_append_iff.mp passed
      obtain ⟨parts, reads⟩ := one.reads rfl
      exact .inr ⟨ahead, back, parts, rfl, reads, _, others⟩
  · rintro (⟨_, one⟩ | ⟨one, two, parts, rfl, reads, _, reaches⟩)
    · exact ⟨_, .turn one⟩
    · rw [Awaits, List.map_append]
      exact ⟨_, .later reads.generates reaches⟩

theorem awaits_and_done : Awaits symbol (.and form .done) front ↔ Awaits symbol form front := by
  refine awaits_and.trans ⟨fun either => either.resolve_right ?_, .inl⟩
  rintro ⟨_, _, _, _, _, never⟩
  exact not_awaits_done never

theorem awaits_and_right {third : Form} (same : ∀ {front}, Awaits symbol second front ↔ Awaits symbol third front) :
    Awaits symbol (.and first second) front ↔ Awaits symbol (.and first third) front := by
  simp only [awaits_and, same]

theorem awaits_and_left {third : Form} (same : ∀ {front}, Awaits symbol first front ↔ Awaits symbol third front)
    (alike : ∀ {run parts}, Reads first run parts ↔ Reads third run parts) :
    Awaits symbol (.and first second) front ↔ Awaits symbol (.and third second) front := by
  simp only [awaits_and, same, alike]

theorem awaits_assoc {third : Form} : Awaits symbol (.and (.and first second) third) front ↔
    Awaits symbol (.and first (.and second third)) front := by
  simp only [awaits_and]
  constructor
  · rintro ((one | ⟨ahead, back, parts, rfl, reads, two⟩) | ⟨_, back, _, rfl, reads, three⟩)
    · exact .inl one
    · exact .inr ⟨ahead, back, parts, rfl, reads, .inl two⟩
    · obtain ⟨ahead, middle, parts, others, rfl, rfl, one, two⟩ := reads_and.mp reads
      exact .inr ⟨ahead, middle ++ back, parts, List.append_assoc .., one, .inr ⟨middle, back, others, rfl, two, three⟩⟩
  · rintro (one | ⟨ahead, _, parts, rfl, reads, two | ⟨middle, back, others, rfl, between, three⟩⟩)
    · exact .inl (.inl one)
    · exact .inl (.inr ⟨ahead, _, parts, rfl, reads, two⟩)
    · exact .inr ⟨ahead ++ middle, back, parts ++ others, (List.append_assoc ..).symm, .and reads between, three⟩

theorem awaits_any {forms : List Form} :
    Awaits symbol (.any forms) front ↔ ∃ form ∈ forms, Awaits symbol form front := by
  induction forms with
  | nil => exact ⟨fun never => absurd never not_awaits_token, fun ⟨_, member, _⟩ => by cases member⟩
  | cons form others ih =>
    cases others with
    | nil => simp [Form.any]
    | cons second others =>
      refine (awaits_or.trans (or_congr_right ih)).trans ?_
      simp

theorem Awaits.starts {choice : Choice} (awaits : Awaits choice.symbol form front) :
    (front = [] → form.opens = true) ∧ ∀ token ∈ front.head?, token.kind ∈ form.first := by
  obtain ⟨_, reaches⟩ := awaits
  refine ⟨fun empty => reaches.starts.1 (List.map_eq_nil_iff.mpr empty), fun token head => ?_⟩
  refine reaches.starts.2 token.kind ?_
  rw [List.head?_map, head]
  rfl

end Awaits

def Form.plain : Form → Bool
  | .token _ | .done => true
  | .phrase symbol => symbol ∈ [.typeName, .param, .moreParams]
  | .and first second | .or first second => first.plain && second.plain
  | .many form => form.plain

theorem rule_plain {symbol : Symbol} (plain : (Form.phrase symbol).plain = true) : (rule symbol).plain = true := by
  cases symbol <;> first | rfl | cases plain

theorem Form.not_awaits {choice : Choice} {form : Form} (plain : form.plain = true) {front : List Token} :
    ¬ Awaits choice.symbol form front := by
  intro ⟨_, reaches⟩
  generalize front.map Token.kind = kinds at reaches
  induction reaches with
  | here => cases choice <;> cases plain
  | phrase _ ih => exact ih (rule_plain plain)
  | first _ ih | left _ ih => exact ih (Bool.and_eq_true_iff.mp plain).1
  | second _ _ ih | right _ ih => exact ih (Bool.and_eq_true_iff.mp plain).2
  | turn _ ih | later _ _ ih => exact ih plain

theorem awaits_and_plain {choice : Choice} {first second : Form} {front : List Token} (plain : second.plain = true) :
    Awaits choice.symbol (.and first second) front ↔ Awaits choice.symbol first front :=
  awaits_and.trans ⟨fun either => either.resolve_right fun ⟨_, _, _, _, _, never⟩ => Form.not_awaits plain never, .inl⟩

end FishLang.Grammar
