import FishLang.Parse.Expression
import FishLang.Proofs.Parse.Refines

namespace FishLang.Parse

open Grammar

variable {limit : Nat} {starts follow : Kind → Prop} {inner operand : Parse Node}

-- What ends an expression, and what may come behind an operand of each level.
def enders : List Kind := [.mark .rightParen, .mark .comma, .delimiter]

def behind : Grammar.Level → List Kind
  | .equality => enders
  | .relation => equalityOperators.map .operator ++ enders
  | .sum => relationOperators.map .operator ++ (equalityOperators.map .operator ++ enders)
  | .product =>
    sumOperators.map .operator ++ (relationOperators.map .operator ++ (equalityOperators.map .operator ++ enders))

def behindOperand (level : Grammar.Level) : List Kind := level.operators.map .operator ++ behind level

def behindPrimary : List Kind := [.operator .increment, .operator .decrement] ++ behindOperand .product

theorem endsExpression_iff (kind : Kind) : endsExpression kind = true ↔ kind ∈ enders := by
  unfold endsExpression
  split <;> simp_all [enders]

theorem not_mem_operators_of_behind (level : Grammar.Level) : ∀ kind ∈ behind level,
    kind ∉ level.operators.map Kind.operator := by
  cases level <;> decide

def turn (level : Grammar.Level) : Form := .seq [.operators level.operators, .phrase level.operand]

theorem mem_first_turn (level : Grammar.Level) (kind : Kind) :
    kind ∈ (turn level).first ↔ ∃ op ∈ level.operators, kind = .operator op := by
  simp [turn, Form.seq, Form.operators, Form.first, Form.nullable, eq_comm]

theorem end_not_mem (operators : List Operator) : Kind.endOfInput ∉ operators.map Kind.operator := by simp

theorem reads_turn {level : Grammar.Level} {rest : Form} : Reads (.and (turn level) rest) run parts ↔
    Reads (.and (.operators level.operators) (.and (.phrase level.operand) rest)) run parts := by
  constructor
  · intro reads
    refine reads_and_mono id (reads_and_mono (fun inner => reads_and_done.mp inner) id) ?_
    exact reads_and_mono id (fun inner => inner) (reads_assoc.mp reads)
  · intro reads
    refine reads_assoc.mpr (reads_and_mono id ?_ reads)
    exact reads_and_mono (fun inner => reads_and_done.mpr inner) id

theorem chain_stops {level : Grammar.Level} {kind : Kind} (left : Node)
    (other : ∀ op ∈ level.operators, kind ≠ .operator op) :
    Refines limit (· = kind) follow (pure left) (.many (turn level))
      (fun parts value => value = chained left parts) := by
  refine (Refines.noMore left rfl ?_).view ?_
  · intro _ rfl starting
    obtain ⟨op, member, same⟩ := (mem_first_turn level _).mp starting
    exact other op member same
  · intro _ _ laid
    obtain ⟨rfl, rfl⟩ := laid
    rfl

theorem chain_refines {level : Grammar.Level} {bound : List Token}
    (read : Refines limit anything (· ∈ behindOperand level) operand (.phrase level.operand) node)
    (enough : bound.length ≤ limit) (left : Node) :
    Refines bound.length anything (· ∈ behind level) (chain level.operators operand bound left)
      (.many (turn level)) (fun parts value => value = chained left parts) := by
  induction bound generalizing left with
  | nil => exact .of_end (chain_stops left (by simp))
  | cons _ bound ih =>
    have shorter : bound.length ≤ limit := Nat.le_of_succ_le enough
    have right : Refines bound.length anything (· ∈ behindOperand level) operand (.phrase level.operand) node :=
      read.weaken shorter (fun _ start => start) (fun _ follows => follows)
    refine .peek fun kind _ => ?_
    split
    · next op _ =>
      split
      · next member =>
        have op_next : Refines (bound.length + 1) (· = Kind.operator op) anything Parse.next
            (.operators level.operators) _ := next_refines (by simpa using member) (end_not_mem _)
        have apart : .operator op ∉ behind level := fun inside =>
          not_mem_operators_of_behind level _ inside (List.mem_map_of_mem member)
        refine .oneMore (.reform (op_next.tokenThen (fun _ => right.bind (fun value => ih shorter _)
          (fun _ => Nat.le_add_left ..) ?_ rfl) rfl) reads_turn.mpr (fun _ _ => reads_turn.mp) ?_) ?_
        · intro kind either
          obtain starting | ⟨_, follows⟩ := either
          · obtain ⟨op, member, rfl⟩ := (mem_first_turn level _).mp starting
            exact List.mem_append_left _ (List.mem_map_of_mem member)
          · exact List.mem_append_right _ follows
        · intro _ _ laid
          obtain ⟨_, token, _, rfl, ⟨rfl, kind⟩, _, value, others, rfl, rfl, rfl⟩ := laid
          simp [chained, kind, Kind.symbol?, Node.binary]
        · intro _ rfl
          exact apart
      · next other => exact chain_stops left (by rintro _ member ⟨⟩; exact other member)
    · next other => exact chain_stops left (fun op _ => other op)

theorem behindOperand_of_leads {level : Grammar.Level} (kind : Kind)
    (leads : (Form.and (.many (turn level)) .done).Leads (· ∈ behind level) kind) :
    kind ∈ behindOperand level := by
  rcases leads with starting | ⟨_, follows⟩
  · have starting : kind ∈ (turn level).first := by simpa [Form.first, Form.nullable] using starting
    obtain ⟨op, member, rfl⟩ := (mem_first_turn level _).mp starting
    exact List.mem_append_left _ (List.mem_map_of_mem member)
  · exact List.mem_append_right _ follows

theorem level_refines (level : Grammar.Level)
    (read : Refines limit anything (· ∈ behindOperand level) operand (.phrase level.operand) node) :
    Refines limit anything (· ∈ behind level) (Parse.level level.operators operand) (.phrase (.level level))
      node := by
  refine .phrase (.bind read
    (fun left => (Refines.bounded fun _ enough => chain_refines read enough left).last)
    (fun _ => Nat.le_add_left ..) behindOperand_of_leads rfl) ?_
  intro _ _ laid
  obtain ⟨_, left, others, rfl, rfl, rfl⟩ := laid
  cases level <;> rfl

def moreArguments : Form := .many (.seq [.mark .comma, .expression])

def argumentForm : Form := .seq [.expression, moreArguments]

def appended (values : List Node) (parts : List Part) (result : List Node) : Prop :=
  result = values ++ parts.flatMap Part.nodeList

theorem reads_moreArguments (reads : Reads (.and (.mark .comma) (.and argumentForm .done)) run parts) :
    Reads (.and (.seq [.mark .comma, .expression]) moreArguments) run parts := by
  refine reads_assoc.mpr (reads_and_mono id (fun inner => ?_) reads)
  refine reads_and_mono (fun inner => reads_and_done.mpr inner) (fun inner => reads_and_done.mp inner) ?_
  exact reads_and_done.mp inner

theorem argumentForm_reads (reads : Reads (.and (.seq [.mark .comma, .expression]) moreArguments) run parts) :
    Reads (.and (.mark .comma) (.and argumentForm .done)) run parts := by
  refine reads_and_mono id (fun inner => ?_) (reads_assoc.mp reads)
  refine reads_and_done.mpr (reads_and_mono (fun inner => reads_and_done.mp inner) ?_ inner)
  exact fun inner => reads_and_done.mpr inner

theorem argumentList_refines {bound : List Token}
    (read : Refines limit anything (endsExpression · = true) inner .expression node)
    (enough : bound.length ≤ limit) :
    Refines bound.length anything (· = .mark .rightParen) (argumentList inner bound) argumentForm
      (appended []) := by
  induction bound with
  | nil =>
    refine .of_end (.fail ?_ rfl)
    intro _ rfl
    exact Form.not_leads (by decide) rfl
  | cons _ bound ih =>
    have value := read.weaken enough (fun _ start => start) (fun _ follows => follows)
    have more (first : Node) : Refines (bound.length + 1) anything (· = .mark .rightParen)
        (Parse.peek >>= fun kind => if kind = .mark .comma then do
          let _ ← Parse.next
          let rest ← argumentList inner bound
          Pure.pure (first :: rest)
        else Pure.pure [first]) moreArguments (appended [first]) := by
      refine .peek fun kind _ => ?_
      split
      · next comma =>
        have next : Refines (bound.length + 1) (· = kind) anything Parse.next (.mark .comma) _ :=
          next_refines (by simp [comma]) (by decide)
        refine .oneMore (.reform (next.tokenThen (fun _ => (ih (Nat.le_of_succ_le enough)).bind
          (fun rest => .pure (first :: rest)) (fun _ => Nat.le_add_left ..) Form.leads_done rfl) rfl)
          reads_moreArguments (fun _ _ => argumentForm_reads) ?_) ?_
        · intro _ _ laid
          obtain ⟨_, token, _, rfl, ⟨rfl, _⟩, parts, rest, _, rfl, rfl, rfl, rfl⟩ := laid
          simp [appended, Part.nodeList]
        · intro _ rfl
          simp [comma]
      · next apart =>
        refine (Refines.noMore [first] rfl ?_).view ?_
        · intro _ rfl
          simpa [Form.seq, Form.first, Form.mark, Form.nullable] using apart
        · intro _ _ laid
          obtain ⟨rfl, rfl⟩ := laid
          simp [appended]
    refine (value.bind (fun first => (more first).last) (fun _ => Nat.le_add_left ..) ?_ rfl).view ?_
    · intro kind either
      obtain starting | ⟨_, rfl⟩ := either
      · have comma : kind = .mark .comma := by
          simpa [moreArguments, Form.seq, Form.first, Form.mark, Form.nullable] using starting
        rw [comma]
        rfl
      · rfl
    · intro _ _ laid
      obtain ⟨_, first, others, rfl, rfl, rfl⟩ := laid
      simp [appended, Part.nodeList]

theorem arguments_refines (read : Refines limit anything (endsExpression · = true) inner .expression node) :
    Refines limit anything (· = .mark .rightParen) (arguments inner) (.phrase .arguments) nodes := by
  have some : Refines limit (· ≠ .mark .rightParen) (· = .mark .rightParen)
      (Parse.bounded (argumentList inner)) (rule .arguments) (appended []) :=
    .left ((Refines.bounded fun _ enough => argumentList_refines read enough).weaken (Nat.le_refl _)
      (fun _ _ => trivial) (fun _ follows => follows)) (by
        intro kind apart either
        obtain starting | ⟨_, follows⟩ := either
        · cases starting
        · exact apart follows)
  have none : Refines limit (· = .mark .rightParen) (· = .mark .rightParen) (Pure.pure [])
      (rule .arguments) (appended []) :=
    .right ((Refines.pure []).view (by rintro _ _ ⟨rfl, rfl⟩; rfl))
      (by intro _ rfl; exact Form.not_leads (by decide) rfl)
  suffices Refines limit anything (· = .mark .rightParen) (arguments inner) (rule .arguments) (appended []) from
    .phrase this (by intro parts _ rfl; rfl)
  refine .peek fun kind _ => ?_
  split
  · next closing => exact closing ▸ none
  · next apart =>
    exact some.weaken (Nat.le_refl _) (by intro _ rfl; exact apart) (fun _ follows => follows)

theorem call_refines (read : Refines limit anything (endsExpression · = true) inner .expression node)
    (name : Token) : Refines (limit + 1) anything anything (call inner name) .call
      (fun parts value => ∃ opening given closing,
        parts = [.token opening, .nodes given, .token closing] ∧ value = invocation name opening given) := by
  refine (Refines.tokenThen (expect_refines (by decide)) (fun opening => .bind (arguments_refines read)
    (fun given => .andThen (expect_refines (by decide)) (fun closing => .pure _) rfl)
    (fun _ => Nat.le_add_left ..) (Form.leads_token (by decide)) rfl) rfl).view ?_
  intro _ _ laid
  obtain ⟨_, opening, _, rfl, rfl, _, given, _, rfl, rfl, _, closing, _, rfl, rfl, rfl, rfl⟩ := laid
  exact ⟨opening, given, closing, rfl, rfl⟩

def enclosed (parts : List Part) (value : Node) : Prop :=
  ∃ opening closing, parts = [.token opening, .nodes [value], .token closing]

theorem parenthesized_refines {phrase : Phrase}
    (read : Refines limit anything (endsExpression · = true) inner .expression node) :
    Refines (limit + 1) anything anything (parenthesized inner phrase) .parenthesized enclosed := by
  refine (Refines.tokenThen (expect_refines (by decide)) (fun opening => .bind read
    (fun value => .andThen (expect_refines (by decide)) (fun closing => .pure _) rfl)
    (fun _ => Nat.le_add_left ..) (Form.leads_token (by decide)) rfl) rfl).view ?_
  intro _ _ laid
  obtain ⟨_, opening, _, rfl, rfl, _, value, _, rfl, rfl, _, closing, _, rfl, rfl, rfl, rfl⟩ := laid
  exact ⟨opening, closing, rfl⟩

theorem named_refines (read : Refines limit anything (endsExpression · = true) inner .expression node)
    (name : Token) : Refines limit anything (· ∈ behindPrimary)
      (Parse.peek >>= fun kind => if kind = .mark .leftParen then call inner name
        else Pure.pure (.leaf .var name.lexeme name.line)) (.optional .call)
      (fun parts value => name.kind = .identifier → node [.nodes (build .primary (.token name :: parts))] value) := by
  refine .peek fun kind _ => ?_
  split
  · next opening =>
    have called : Refines limit (· = kind) (· ∈ behindPrimary) (call inner name) .call _ :=
      (call_refines read name).weaken (Nat.le_succ limit) (fun _ _ => trivial) (fun _ _ => trivial)
    refine (called.left ?_).view ?_
    · intro _ rfl either
      obtain starting | ⟨_, follows⟩ := either
      · cases starting
      · revert follows
        rw [opening]
        decide
    · intro _ _ laid _
      obtain ⟨opening, given, closing, rfl, rfl⟩ := laid
      rfl
  · next apart =>
    refine ((Refines.pure _).right ?_).view ?_
    · intro _ rfl
      refine Form.not_leads ?_ rfl
      simpa [Form.call, Form.seq, Form.first, Form.mark, Form.nullable] using apart
    · intro _ _ laid named
      obtain ⟨rfl, rfl⟩ := laid
      have same : single name = .leaf .var name.lexeme name.line := by simp [single, named]
      exact congrArg (fun value => [Part.nodes [value]]) same

def primaryForms : List Form :=
  [.seq [.name, .optional .call], .token [.number], .token [.string], .token [.char], .parenthesized]

theorem literal_refines {kinds : List Kind} (inside : ∀ kind, starts kind → kind ∈ kinds)
    (live : .endOfInput ∉ kinds) (make : Token → Node) :
    Refines limit starts follow (Parse.next >>= fun token => Pure.pure (make token)) (.token kinds)
      (fun parts value => ∃ token, parts = [.token token] ∧ starts token.kind ∧ value = make token) := by
  have next : Refines limit starts anything Parse.next (.token kinds) _ := next_refines inside live
  refine ((next.map make).weaken (Nat.le_refl _) (fun _ start => start) (fun _ _ => trivial)).view ?_
  intro _ _ laid
  obtain ⟨token, ⟨rfl, same⟩, rfl⟩ := laid
  exact ⟨token, rfl, same, rfl⟩

def primaryNode (parts : List Part) (value : Node) : Prop := node [.nodes (build .primary parts)] value

theorem literal_primary {kind : Kind} (live : .endOfInput ∉ [kind]) (member : .token [kind] ∈ primaryForms)
    (alone : ∀ other ∈ primaryForms, other = .token [kind] ∨ kind ∉ other.first) (make : Token → Node)
    (made : ∀ token : Token, token.kind = kind → single token = make token) :
    Refines limit (· = kind) follow (Parse.next >>= fun token => Pure.pure (make token)) (.any primaryForms)
      primaryNode := by
  refine ((literal_refines (by simp) live make).pick member alone (.inl (by decide))).view ?_
  intro _ _ laid
  obtain ⟨token, rfl, same, rfl⟩ := laid
  exact congrArg (fun value => [Part.nodes [value]]) (made token same)

theorem primary_refines (read : Refines limit anything (endsExpression · = true) inner .expression node) :
    Refines (limit + 1) anything (· ∈ behindPrimary) (primary inner) (.phrase .primary) node := by
  have named : Refines (limit + 1) (· = .identifier) (· ∈ behindPrimary)
      (Parse.next >>= fun name => Parse.peek >>= fun kind =>
        if kind = .mark .leftParen then call inner name else Pure.pure (.leaf .var name.lexeme name.line))
      (.any primaryForms) primaryNode := by
    have name : Refines (limit + 1) (· = .identifier) anything Parse.next .name _ :=
      next_refines (by simp) (by decide)
    refine ((name.tokenThen (fun name => (named_refines read name).last) rfl).pick (by decide) (by decide)
      (.inl (by decide))).view ?_
    intro _ _ laid
    obtain ⟨_, name, parts, rfl, ⟨rfl, named⟩, made⟩ := laid
    exact made named
  have inParens : Refines (limit + 1) (· = .mark .leftParen) (· ∈ behindPrimary)
      (parenthesized inner .parenthesized) (.any primaryForms) primaryNode := by
    refine ((parenthesized_refines read).anywhere.pick (by decide) (by decide) (.inl (by decide))).view ?_
    intro _ _ laid
    obtain ⟨opening, closing, rfl⟩ := laid
    rfl
  suffices Refines (limit + 1) anything (· ∈ behindPrimary) (primary inner) (.any primaryForms) primaryNode from
    .phrase this id
  refine .peek fun kind _ => ?_
  split
  · exact named
  · exact literal_primary (by decide) (by decide) (by decide) _ (fun token same => by simp [single, same])
  · exact literal_primary (by decide) (by decide) (by decide) _ (fun token same => by simp [single, same])
  · exact literal_primary (by decide) (by decide) (by decide) _ (fun token same => by simp [single, same])
  · exact inParens
  · next identifier number string char opening =>
    refine .fail ?_ rfl
    intro found rfl
    refine Form.not_leads ?_ rfl
    show found ∉ primaryKinds
    simp only [primaryKinds, List.mem_cons, List.not_mem_nil, or_false, not_or]
    exact ⟨identifier, number, string, char, opening⟩

def tail (operand : Node) : Parse Node := fun tokens => .ok (suffixes operand tokens)

theorem tail_eq (operand : Node) (tokens : List Token) : tail operand tokens = (do
    match ← Parse.peek with
    | .operator op =>
      if op = .increment ∨ op = .decrement then
        let _ ← Parse.next
        tail ⟨.suffix, some op.symbol, [operand], operand.line⟩
      else Pure.pure operand
    | _ => Pure.pure operand : Parse Node) tokens := by
  rcases tokens with _ | ⟨⟨kind, span, lexeme⟩, rest⟩
  · rfl
  · cases kind with
    | operator op =>
      change Except.ok (if op = .increment ∨ op = .decrement then suffixes _ rest else (operand, _ :: rest)) =
        (if op = .increment ∨ op = .decrement then _ else _ : Parse Node) _
      by_cases member : op = .increment ∨ op = .decrement
      · rw [if_pos member, if_pos member]
        rfl
      · rw [if_neg member, if_neg member]
        rfl
    | _ => rfl

theorem tail_stops {kind : Kind} (operand : Node) (other : kind ∉ Form.counts.first) :
    Refines limit (· = kind) follow (Pure.pure operand) (.many .counts)
      (fun parts value => value = counted operand parts) := by
  refine (Refines.noMore operand rfl ?_).view ?_
  · intro _ rfl
    exact other
  · intro _ _ laid
    obtain ⟨rfl, rfl⟩ := laid
    rfl

theorem mem_counts (kind : Kind) :
    kind ∈ Form.counts.first ↔ ∃ op, kind = .operator op ∧ (op = .increment ∨ op = .decrement) := by
  simp [Form.counts, Form.operators, Form.first, and_or_left, exists_or]

theorem tail_refines (operand : Node) :
    Refines limit anything (· ∈ behindOperand .product) (tail operand) (.many .counts)
      (fun parts value => value = counted operand parts) := by
  induction limit generalizing operand with
  | zero =>
    refine .of_end (.congr (tail_stops operand (by decide)) ?_)
    intro tokens short _
    obtain rfl := List.eq_nil_of_length_eq_zero (Nat.le_zero.mp short)
    rfl
  | succ limit ih =>
    refine .congr (.peek fun kind _ => ?_) (fun tokens _ _ => tail_eq operand tokens)
    split
    · next op _ =>
      split
      · next member =>
        have next : Refines (limit + 1) (· = Kind.operator op) anything Parse.next .counts _ :=
          next_refines (by intro _ rfl; exact (mem_counts _).mpr ⟨op, rfl, member⟩) (by decide)
        refine .oneMore ((next.tokenThen (fun _ => ih _) rfl).view ?_) ?_
        · intro _ _ laid
          obtain ⟨_, token, others, rfl, ⟨rfl, kind⟩, rfl⟩ := laid
          simp [counted, kind, Kind.symbol?]
        · intro _ rfl
          rcases member with rfl | rfl <;> decide
      · next apart =>
        refine tail_stops operand (fun inside => ?_)
        obtain ⟨_, ⟨⟩, member⟩ := (mem_counts _).mp inside
        exact apart member
    · next other =>
      refine tail_stops operand (fun inside => ?_)
      obtain ⟨op, same, _⟩ := (mem_counts _).mp inside
      exact other op same

theorem suffixed_refines (read : Refines limit anything (· ∈ behindPrimary) inner (.phrase .primary) node) :
    Refines limit anything (· ∈ behindOperand .product) (suffixed inner) (.phrase .suffixed) node := by
  refine .phrase (.bind read (fun operand => (tail_refines operand).last) (fun _ => Nat.le_add_left ..) ?_ rfl) ?_
  · intro kind either
    obtain starting | ⟨_, follows⟩ := either
    · exact List.mem_append_left _ (by simpa [Form.first, Form.nullable, Form.counts, Form.operators] using starting)
    · exact List.mem_append_right _ follows
  · intro _ _ laid
    obtain ⟨_, operand, others, rfl, rfl, rfl⟩ := laid
    rfl

theorem signed_eq (inner : Parse Node) (tokens : List Token) : signed inner tokens = (do
    match ← Parse.peek with
    | .operator op =>
      if op = .add ∨ op = .sub then
        let token ← Parse.next
        let operand ← signed inner
        Pure.pure ⟨.unary, some op.symbol, [operand], token.line⟩
      else suffixed inner
    | _ => suffixed inner : Parse Node) tokens := by
  rcases tokens with _ | ⟨⟨kind, span, lexeme⟩, rest⟩
  · rfl
  · cases kind with
    | operator op =>
      change (if op = .add ∨ op = .sub then _ else _) = (if op = .add ∨ op = .sub then _ else _ : Parse Node) _
      by_cases member : op = .add ∨ op = .sub
      · rw [if_pos member, if_pos member]
        change _ = (signed inner >>= fun operand => Pure.pure
          ⟨.unary, some op.symbol, [operand], Token.line ⟨.operator op, span, lexeme⟩⟩ : Parse Node) rest
        rw [bind_run]
        cases signed inner rest <;> rfl
      · rw [if_neg member, if_neg member]
    | _ => rfl

def signedForms : List Form := [.seq [.operators [.add, .sub], .phrase .signed], .phrase .suffixed]

theorem mem_signs (kind : Kind) :
    kind ∈ (Form.seq [.operators [.add, .sub], .phrase .signed]).first ↔
      ∃ op, kind = .operator op ∧ (op = .add ∨ op = .sub) := by
  simp [Form.seq, Form.operators, Form.first, Form.nullable, and_or_left, exists_or]

theorem unsigned_refines {kind : Kind} (other : ∀ op, kind = .operator op → ¬ (op = .add ∨ op = .sub))
    (read : Refines limit anything (· ∈ behindPrimary) inner (.phrase .primary) node) :
    Refines limit (· = kind) (· ∈ behindOperand .product) (suffixed inner) (.any signedForms) node := by
  have suffix : Refines limit (· = kind) (· ∈ behindOperand .product) (suffixed inner) (.phrase .suffixed) node :=
    (suffixed_refines read).weaken (Nat.le_refl _) (fun _ _ => trivial) (fun _ follows => follows)
  refine suffix.right ?_
  intro _ rfl
  refine Form.not_leads (fun inside => ?_) rfl
  obtain ⟨op, same, member⟩ := (mem_signs _).mp inside
  exact other op same member

theorem signed_refines (read : Refines limit anything (· ∈ behindPrimary) inner (.phrase .primary) node) :
    Refines limit anything (· ∈ behindOperand .product) (signed inner) (.phrase .signed) node := by
  suffices Refines limit anything (· ∈ behindOperand .product) (signed inner) (.any signedForms)
      (fun parts value => node [.nodes (build .signed parts)] value) from .phrase this id
  have unary {limit : Nat} {kind : Kind} (other : ∀ op, kind = .operator op → ¬ (op = .add ∨ op = .sub))
      (read : Refines limit anything (· ∈ behindPrimary) inner (.phrase .primary) node) :
      Refines limit (· = kind) (· ∈ behindOperand .product) (suffixed inner) (.any signedForms)
        (fun parts value => node [.nodes (build .signed parts)] value) :=
    (unsigned_refines other read).view (by intro _ _ rfl; rfl)
  induction limit with
  | zero =>
    refine .of_end (.congr (unary (by simp) read) ?_)
    intro tokens short _
    obtain rfl := List.eq_nil_of_length_eq_zero (Nat.le_zero.mp short)
    rfl
  | succ limit ih =>
    refine .congr (.peek fun kind _ => ?_) (fun tokens _ _ => signed_eq inner tokens)
    split
    · next op _ =>
      split
      · next member =>
        have next : Refines (limit + 1) (· = Kind.operator op) anything Parse.next (.operators [.add, .sub]) _ :=
          next_refines (by intro _ rfl; simpa using member) (by decide)
        have operand : Refines limit anything (· ∈ behindOperand .product) (signed inner) (.phrase .signed) node :=
          .phrase (ih (read.weaken (Nat.le_succ _) (fun _ start => start) (fun _ follows => follows))) id
        have row : Refines (limit + 1) (· = Kind.operator op) (· ∈ behindOperand .product) _
            (.seq [.operators [.add, .sub], .phrase .signed]) _ :=
          next.tokenThen (fun token => operand.bind
            (fun operand => .pure (⟨.unary, some op.symbol, [operand], token.line⟩ : Node))
            (fun _ => Nat.le_add_left ..) Form.leads_done rfl) rfl
        refine (row.left ?_).view ?_
        · intro _ rfl
          refine Form.not_leads ?_ rfl
          rcases member with rfl | rfl <;> decide
        · intro _ _ laid
          obtain ⟨_, token, _, rfl, ⟨rfl, kind⟩, _, operand, _, rfl, rfl, rfl, rfl⟩ := laid
          have symbol : token.kind.symbol? = some op.symbol := by rw [kind]; rfl
          exact congrArg (fun symbol => [Part.nodes [⟨.unary, symbol, [operand], token.line⟩]]) symbol
      · next apart => exact unary (by rintro _ ⟨⟩; exact apart) read
    · next other => exact unary (fun op same => absurd same (other op)) read

theorem operation_refines (read : Refines limit anything (· ∈ behindPrimary) inner (.phrase .primary) node) :
    Refines limit anything (endsExpression · = true) (operation inner) (.phrase (.level .equality)) node :=
  have product := level_refines .product (signed_refines read)
  have sum := level_refines .sum product
  have relation := level_refines .relation sum
  (level_refines .equality relation).weaken (Nat.le_refl _) (fun _ start => start)
    (fun kind => (endsExpression_iff kind).mp)

theorem ended_refines {form : Form} {result : List Part → Node → Prop}
    (read : Refines limit anything (endsExpression · = true) inner form result) :
    Refines limit anything (endsExpression · = true) (ended inner) form result := by
  have checked (value : Node) : Refines limit anything (endsExpression · = true)
      (Parse.peek >>= fun kind => if endsExpression kind then Pure.pure value else Parse.fail .afterExpression)
      .done (gives value) := by
    refine .peek fun kind _ => ?_
    split
    · exact .pure value
    · next apart =>
      refine .fail ?_ rfl
      intro _ rfl leads
      exact apart (Form.leads_done _ leads)
  refine (read.bind checked (fun _ => Nat.le_add_left ..) Form.leads_done rfl).reform
    (fun reads => reads_and_done.mp reads) (fun _ _ reads => reads_and_done.mpr reads) ?_
  intro _ _ laid
  obtain ⟨parts, value, _, rfl, made, rfl, rfl⟩ := laid
  simpa using made

theorem expressionTo_refines (bound : List Token) :
    Refines bound.length anything (endsExpression · = true) (expressionTo bound) .expression node := by
  induction bound with
  | nil =>
    refine .of_end (.fail ?_ rfl)
    intro _ rfl
    exact Form.not_leads (by decide) rfl
  | cons _ bound ih =>
    exact .phrase (ended_refines (operation_refines (primary_refines ih))) (by intro _ _ rfl; rfl)

theorem expression_refines :
    Refines limit anything (endsExpression · = true) expression .expression node :=
  .bounded fun bound _ => expressionTo_refines bound

end FishLang.Parse
