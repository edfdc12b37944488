import FishLang.Proofs.Grammar.Tree

namespace FishLang.Grammar

def Symbol.nullable : Symbol → Bool
  | .items | .params | .moreParams | .otherwise | .forkInitializer | .forkCondition | .forkStep | .lastly
  | .arguments => true
  | _ => false

def primaryKinds : List Kind := [.identifier, .number, .string, .char, .mark .leftParen]

def expressionKinds : List Kind := [.operator .add, .operator .sub] ++ primaryKinds

def typeKinds : List Kind := Ty.all.map .type

def statementKinds : List Kind :=
  [.word .when, .word .whale, .word .fork, .word .attempt, .word .splash, .word .emerge, .mark .leftBrace,
    .identifier]

def itemKinds : List Kind := typeKinds ++ .word .fishtion :: statementKinds

-- The kinds that a run of the symbol may start with.
def Symbol.first : Symbol → List Kind
  | .program => [.word .fish]
  | .block => [.mark .leftBrace]
  | .items | .item => itemKinds
  | .declaration | .typeName | .params | .param => typeKinds
  | .declarationTail => [.assign, .delimiter]
  | .functionDef => [.word .fishtion]
  | .moreParams => [.mark .comma]
  | .statement => statementKinds
  | .nameStatement | .forkStep => [.identifier]
  | .when => [.word .when]
  | .otherwise => [.word .otherwise]
  | .whale => [.word .whale]
  | .fork => [.word .fork]
  | .forkInitializer => typeKinds ++ [.identifier]
  | .forkCondition | .arguments | .expression | .level _ | .signed => expressionKinds
  | .attempt => [.word .attempt]
  | .lastly => [.word .lastly]
  | .splash => [.word .splash]
  | .emerge => [.word .emerge]
  | .suffixed | .primary => primaryKinds

namespace Form

def nullable : Form → Bool
  | .token _ => false
  | .phrase symbol => symbol.nullable
  | .done | .many _ => true
  | .and first second => first.nullable && second.nullable
  | .or first second => first.nullable || second.nullable

def first : Form → List Kind
  | .token kinds => kinds
  | .phrase symbol => symbol.first
  | .done => []
  | .and one two => one.first ++ if one.nullable then two.first else []
  | .or one two => one.first ++ two.first
  | .many form => form.first

end Form

theorem Symbol.closed (symbol : Symbol) :
    (rule symbol).nullable = symbol.nullable ∧ ∀ kind ∈ (rule symbol).first, kind ∈ symbol.first := by
  cases symbol with
  | level level => cases level <;> decide
  | _ => decide

-- A run is empty only where the form allows it, and else starts as the form may.
theorem Reads.starts (reads : Reads form run parts) :
    (run = [] → form.nullable = true) ∧ ∀ token ∈ run.head?, token.kind ∈ form.first := by
  induction reads with
  | token allowed => simpa [Form.first] using allowed
  | @phrase symbol _ _ _ ih =>
    obtain ⟨nullable, first⟩ := symbol.closed
    exact ⟨fun empty => nullable.symm.trans (ih.1 empty), fun token head => first _ (ih.2 token head)⟩
  | done => simp [Form.nullable]
  | @and _ front _ _ back _ _ _ ihOne ihTwo =>
    cases front with
    | nil => simpa [Form.nullable, Form.first, ihOne.1] using ⟨ihTwo.1, fun t h => .inr (ihTwo.2 t h)⟩
    | cons => simpa [Form.first] using .inl (ihOne.2 _ rfl)
  | left _ ih =>
    exact ⟨fun empty => by simp [Form.nullable, ih.1 empty],
      fun token head => List.mem_append_left _ (ih.2 token head)⟩
  | right _ ih =>
    exact ⟨fun empty => by simp [Form.nullable, ih.1 empty],
      fun token head => List.mem_append_right _ (ih.2 token head)⟩
  | stop => simp [Form.nullable]
  | @more _ front _ back _ _ _ ihOne ihOthers =>
    refine ⟨fun _ => rfl, ?_⟩
    cases front with
    | nil => exact ihOthers.2
    | cons => simpa [Form.first] using ihOne.2 _ rfl

-- A kind that may stand where a form starts: it starts the form, or follows it where the form is empty.
def Form.Leads (form : Form) (follow : Kind → Prop) (kind : Kind) : Prop :=
  kind ∈ form.first ∨ form.nullable = true ∧ follow kind

theorem Form.not_leads {form : Form} (apart : kind ∉ form.first) (full : form.nullable = false) :
    ¬ form.Leads follow kind := by
  simp [Form.Leads, apart, full]

theorem Form.leads_done (kind : Kind) (leads : Form.done.Leads follow kind) : follow kind := by
  rcases leads with starting | ⟨_, follows⟩
  · cases starting
  · exact follows

theorem Form.leads_token {seen : Kind → Prop} (allowed : ∀ kind ∈ kinds, seen kind) (kind : Kind)
    (leads : (Form.and (.token kinds) rest).Leads follow kind) : seen kind := by
  rcases leads with starting | ⟨empty, _⟩
  · exact allowed kind (by simpa [Form.first, Form.nullable] using starting)
  · cases empty

theorem Reads.leads (reads : Reads form run parts) (follows : follow (current rest).kind) :
    form.Leads follow (current (run ++ rest)).kind := by
  cases run with
  | nil => exact .inr ⟨reads.starts.1 rfl, follows⟩
  | cons token run => exact .inl (reads.starts.2 token rfl)

-- Whether a form has a run, given of which symbols it is known that they have one.
def Form.inhabitedGiven (known : Symbol → Bool) : Form → Bool
  | .token kinds => !kinds.isEmpty
  | .phrase symbol => known symbol
  | .done | .many _ => true
  | .and first second => first.inhabitedGiven known && second.inhabitedGiven known
  | .or first second => first.inhabitedGiven known || second.inhabitedGiven known

def Symbol.inhabitedWithin : Nat → Symbol → Bool
  | 0, _ => false
  | bound + 1, symbol => (rule symbol).inhabitedGiven (Symbol.inhabitedWithin bound)

theorem Form.inhabited_of_given {form : Form}
    (symbols : ∀ symbol, known symbol = true → ∃ run parts, Reads (.phrase symbol) run parts)
    (given : form.inhabitedGiven known = true) : ∃ run parts, Reads form run parts := by
  induction form with
  | token kinds =>
    obtain ⟨kind, others, rfl⟩ := List.exists_cons_of_ne_nil (by simpa [inhabitedGiven] using given)
    exact ⟨[⟨kind, .unplaced, ""⟩], _, .token (by simp)⟩
  | phrase symbol => exact symbols symbol given
  | done => exact ⟨_, _, .done⟩
  | many form => exact ⟨_, _, .stop⟩
  | and first second ihOne ihTwo =>
    obtain ⟨one, two⟩ := Bool.and_eq_true_iff.mp given
    obtain ⟨front, parts, readsOne⟩ := ihOne one
    obtain ⟨back, others, readsTwo⟩ := ihTwo two
    exact ⟨_, _, .and readsOne readsTwo⟩
  | or first second ihOne ihTwo =>
    rcases Bool.or_eq_true_iff.mp given with one | two
    · obtain ⟨run, parts, reads⟩ := ihOne one
      exact ⟨_, _, .left reads⟩
    · obtain ⟨run, parts, reads⟩ := ihTwo two
      exact ⟨_, _, .right reads⟩

theorem Symbol.inhabited (symbol : Symbol) : ∃ run parts, Reads (.phrase symbol) run parts := by
  have within : ∀ bound symbol, Symbol.inhabitedWithin bound symbol = true →
      ∃ run parts, Reads (.phrase symbol) run parts := by
    intro bound
    induction bound with
    | zero => simp [Symbol.inhabitedWithin]
    | succ bound ih =>
      intro symbol found
      obtain ⟨run, parts, reads⟩ := Form.inhabited_of_given ih found
      exact ⟨run, _, .phrase reads⟩
  refine within 14 symbol ?_
  cases symbol with
  | level level => cases level <;> decide
  | _ => decide

def Form.inhabited (form : Form) : Bool := form.inhabitedGiven fun _ => true

theorem Form.exists_reads {form : Form} (inhabited : form.inhabited = true) :
    ∃ run parts, Reads form run parts :=
  Form.inhabited_of_given (fun symbol _ => symbol.inhabited) inhabited

end FishLang.Grammar
