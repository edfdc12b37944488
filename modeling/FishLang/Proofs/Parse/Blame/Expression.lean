import FishLang.Proofs.Parse.Blame.Basic
import FishLang.Proofs.Parse.Expression

namespace FishLang.Parse

open Grammar

variable {limit smaller : Nat} {starts after : Kind → Prop} {inner operand : Parse Node} {tokens : List Token}

theorem peek_run {α : Type} (next : Kind → Parse α) (tokens : List Token) :
    (Parse.peek >>= next) tokens = next (current tokens).kind tokens := rfl

theorem primary_refuses (other : (current tokens).kind ∉ primaryKinds) :
    primary inner tokens = .error ⟨.noExpression, tokens⟩ := by
  rw [primary, peek_run]
  generalize (current tokens).kind = kind at other
  split
  case h_6 => rfl
  all_goals exact absurd (by decide) other

theorem suffixed_refuses (other : (current tokens).kind ∉ primaryKinds) :
    suffixed (primary inner) tokens = .error ⟨.noExpression, tokens⟩ :=
  bind_eq_error_iff.mpr (.inl (primary_refuses other))

theorem signed_refuses (other : (current tokens).kind ∉ expressionKinds) :
    signed (primary inner) tokens = .error ⟨.noExpression, tokens⟩ := by
  have bare : suffixed (primary inner) tokens = .error ⟨.noExpression, tokens⟩ :=
    suffixed_refuses fun inside => other (List.mem_append_right _ inside)
  rw [signed_eq, peek_run]
  generalize (current tokens).kind = kind at other
  split
  · next op =>
    rw [if_neg]
    · exact bare
    · rintro (rfl | rfl) <;> exact other (by decide)
  · exact bare

theorem level_refuses {operators : List Operator} (refused : operand tokens = .error stop) :
    Parse.level operators operand tokens = .error stop :=
  bind_eq_error_iff.mpr (.inl refused)

theorem expressionTo_refuses (bound : List Token) (other : (current tokens).kind ∉ expressionKinds) :
    expressionTo bound tokens = .error ⟨.noExpression, tokens⟩ := by
  cases bound with
  | nil => rfl
  | cons _ bound =>
    have operand : signed (primary (expressionTo bound)) tokens = .error ⟨.noExpression, tokens⟩ :=
      signed_refuses other
    exact bind_eq_error_iff.mpr (.inl (level_refuses (level_refuses (level_refuses (level_refuses operand)))))

-- What is known of the reader of the expressions that stand inside another one.
structure Nested (limit : Nat) (inner : Parse Node) : Prop where
  reads : Refines limit anything (endsExpression · = true) inner .expression node
  blames : Blames limit anything nothing inner .expression
  refuses : ∀ {tokens}, (current tokens).kind ∉ expressionKinds → inner tokens = .error ⟨.noExpression, tokens⟩

theorem Nested.shorten (nested : Nested limit inner) (shorter : smaller ≤ limit) : Nested smaller inner where
  reads := nested.reads.weaken shorter (fun _ start => start) (fun _ follows => follows)
  blames := nested.blames.weaken shorter (fun _ start => start) (fun _ never => never)
  refuses := nested.refuses

theorem argumentForm_awaited {symbol : Symbol} {front : List Token} :
    Awaits symbol (.and (.seq [.mark .comma, .expression]) moreArguments) front ↔
      Awaits symbol (.and (.mark .comma) (.and argumentForm .done)) front := by
  have turn : Awaits symbol (.and (.seq [.mark .comma, .expression]) moreArguments) front ↔
      Awaits symbol (.and (.mark .comma) (.and .expression moreArguments)) front :=
    awaits_assoc.trans (awaits_and_right (awaits_and_left awaits_and_done reads_and_done))
  have list : Awaits symbol (.and (.mark .comma) (.and argumentForm .done)) front ↔
      Awaits symbol (.and (.mark .comma) (.and .expression moreArguments)) front :=
    awaits_and_right (awaits_and_done.trans (awaits_and_right awaits_and_done))
  exact turn.trans list.symm

theorem argumentList_blames {bound : List Token} (nested : Nested limit inner) (enough : bound.length ≤ limit) :
    Blames bound.length anything nothing (argumentList inner bound) argumentForm := by
  induction bound with
  | nil => exact .of_end (.idle rfl (by decide))
  | cons _ bound ih =>
    have more (first : Node) : Blames (bound.length + 1) anything nothing
        (Parse.peek >>= fun kind => if kind = .mark .comma then do
          let _ ← Parse.next
          let rest ← argumentList inner bound
          Pure.pure (first :: rest)
        else Pure.pure [first]) moreArguments := by
      refine .peek fun kind _ => ?_
      split
      · next comma =>
        have next : Refines (bound.length + 1) (· = kind) anything Parse.next (.mark .comma) _ :=
          next_refines (by simp [comma]) (by decide)
        have others := (ih (Nat.le_of_succ_le enough)).before fun rest => Pure.pure (first :: rest)
        exact .oneMore ((Blames.tokenThen next (fun _ => others.last) rfl).reform argumentForm_awaited
          reads_moreArguments)
      · next apart =>
        refine .idle rfl ?_
        simpa [moreArguments, Form.seq, Form.first, Form.mark, Form.nullable] using apart
    have short := nested.shorten enough
    exact .closedThen short.reads short.blames (fun first => (more first).last) (by decide) rfl
      (fun _ never => never.elim) rfl

theorem arguments_blames (nested : Nested limit inner) :
    Blames limit anything (· ∈ Symbol.arguments.follow) (arguments inner) (.phrase .arguments) := by
  refine .choose .arguments (.peek fun kind _ => ?_) fun tokens refused => ?_
  · split
    · next closing => exact .idle rfl (closing ▸ by decide)
    · have list : Blames limit (· = kind) (· ∈ Symbol.arguments.follow) (Parse.bounded (argumentList inner))
          argumentForm := .bounded fun bound enough => (argumentList_blames nested enough).anywhere
      exact list.left rfl List.not_mem_nil
  · have going : (current tokens).kind ≠ .mark .rightParen := fun closing => refused (closing ▸ by decide)
    have other : (current tokens).kind ∉ expressionKinds := fun starting => refused (List.mem_append_left _ starting)
    rw [arguments, peek_run, if_neg going]
    cases tokens with
    | nil => rfl
    | cons token tokens => exact bind_eq_error_iff.mpr (.inl (nested.refuses other))

theorem call_blames (nested : Nested limit inner) (name : Token) :
    Blames (limit + 1) anything nothing (call inner name) .call :=
  .tokenThen (expect_refines (by decide)) (fun _ => (arguments_blames nested).thenPlain _ rfl (by decide) rfl) rfl

theorem parenthesized_blames {phrase : Phrase} (nested : Nested limit inner) :
    Blames (limit + 1) anything nothing (parenthesized inner phrase) .parenthesized :=
  .tokenThen (expect_refines (by decide))
    (fun _ => nested.blames.thenPlain _ rfl (fun _ never => never.elim) rfl) rfl

theorem named_blames (nested : Nested limit inner) (name : Token) : Blames limit anything nothing
    (Parse.peek >>= fun kind => if kind = .mark .leftParen then call inner name
      else Pure.pure (.leaf .var name.lexeme name.line)) (.optional .call) := by
  refine .peek fun kind _ => ?_
  split
  · have called : Blames limit (· = kind) nothing (call inner name) .call :=
      (call_blames nested name).weaken (Nat.le_succ limit) (fun _ _ => trivial) (fun _ never => never)
    exact called.left rfl List.not_mem_nil
  · next apart =>
    refine .idle rfl ?_
    simpa [Form.optional, Form.call, Form.seq, Form.first, Form.mark, Form.nullable] using apart

theorem primary_blames (nested : Nested limit inner) :
    Blames (limit + 1) anything nothing (primary inner) (.phrase .primary) := by
  suffices Blames (limit + 1) anything nothing (primary inner) (.any primaryForms) from .phrase this rfl
  refine .peek fun kind _ => ?_
  split
  · have name : Refines (limit + 1) (· = .identifier) anything Parse.next .name _ :=
      next_refines (by simp) (by decide)
    exact .pick (.seq [.name, .optional .call]) (.tokenThen name (fun name => (named_blames nested name).last) rfl)
      (by decide) (by decide) (by decide)
  · exact .pick (.token [.number]) (.plain rfl) (by decide) (by decide) (by decide)
  · exact .pick (.token [.string]) (.plain rfl) (by decide) (by decide) (by decide)
  · exact .pick (.token [.char]) (.plain rfl) (by decide) (by decide) (by decide)
  · exact .pick .parenthesized (parenthesized_blames nested).anywhere (by decide) (by decide) (by decide)
  · next identifier number string char opening =>
    refine .idle rfl ?_
    show kind ∉ primaryKinds
    simp only [primaryKinds, List.mem_cons, List.not_mem_nil, or_false, not_or]
    exact ⟨identifier, number, string, char, opening⟩

theorem suffixed_blames (blames : Blames limit anything nothing inner (.phrase .primary)) :
    Blames limit anything nothing (suffixed inner) (.phrase .suffixed) :=
  .phrase (blames.thenPlain _ rfl (fun _ never => never.elim) rfl) rfl

theorem unsigned_blames {kind : Kind} (other : ∀ op, kind = .operator op → ¬ (op = .add ∨ op = .sub))
    (blames : Blames limit anything nothing inner (.phrase .primary)) :
    Blames limit (· = kind) nothing (suffixed inner) (.any signedForms) := by
  refine (suffixed_blames blames).anywhere.right rfl fun inside => ?_
  obtain ⟨op, same, member⟩ := (mem_signs _).mp inside
  exact other op same member

theorem signed_blames (blames : Blames limit anything nothing inner (.phrase .primary)) :
    Blames limit anything nothing (signed inner) (.phrase .signed) := by
  suffices Blames limit anything nothing (signed inner) (.any signedForms) from .phrase this rfl
  induction limit with
  | zero =>
    refine .of_end (.congr (unsigned_blames (by simp) blames) ?_)
    intro tokens short _
    obtain rfl := List.eq_nil_of_length_eq_zero (Nat.le_zero.mp short)
    rfl
  | succ limit ih =>
    refine .congr (.peek fun kind _ => ?_) (fun tokens _ _ => signed_eq inner tokens)
    split
    · next op _ =>
      split
      · next member =>
        have next : Refines (limit + 1) (· = Kind.operator op) anything Parse.next (.operators [.add, .sub]) _ :=
          next_refines (by intro _ rfl; simpa using member) (by decide)
        have operand : Blames limit anything nothing (signed inner) (.phrase .signed) :=
          .phrase (ih (blames.weaken (Nat.le_succ _) (fun _ start => start) (fun _ never => never))) rfl
        have row : Blames (limit + 1) (· = Kind.operator op) nothing _
            (.seq [.operators [.add, .sub], .phrase .signed]) :=
          .tokenThen next (fun token => (operand.before fun operand =>
            Pure.pure (⟨.unary, some op.symbol, [operand], token.line⟩ : Node)).last) rfl
        refine row.left rfl ?_
        rcases member with rfl | rfl <;> decide
      · next apart => exact unsigned_blames (by rintro _ ⟨⟩; exact apart) blames
    · next other => exact unsigned_blames (fun op same => absurd same (other op)) blames

theorem turn_awaited {level : Grammar.Level} {rest : Form} {symbol : Symbol} {front : List Token} :
    Awaits symbol (.and (turn level) rest) front ↔
      Awaits symbol (.and (.operators level.operators) (.and (.phrase level.operand) rest)) front :=
  awaits_assoc.trans (awaits_and_right (awaits_and_left awaits_and_done reads_and_done))

theorem turns_blames {level : Grammar.Level} {kind : Kind} {parse : Parse Node}
    (other : ∀ op ∈ level.operators, kind ≠ .operator op) :
    Blames limit (· = kind) after parse (.many (turn level)) := by
  refine .idle rfl fun starting => ?_
  obtain ⟨op, member, same⟩ := (mem_first_turn level _).mp starting
  exact other op member same

theorem chain_blames {level : Grammar.Level} {bound : List Token}
    (read : Refines limit anything (· ∈ behindOperand level) operand (.phrase level.operand) node)
    (blames : Blames limit anything nothing operand (.phrase level.operand)) (enough : bound.length ≤ limit)
    (left : Node) :
    Blames bound.length anything nothing (chain level.operators operand bound left) (.many (turn level)) := by
  induction bound generalizing left with
  | nil => exact .of_end (turns_blames (by simp))
  | cons _ bound ih =>
    have shorter : bound.length ≤ limit := Nat.le_of_succ_le enough
    refine .peek fun kind _ => ?_
    split
    · next op _ =>
      split
      · next member =>
        have op_next : Refines (bound.length + 1) (· = Kind.operator op) anything Parse.next
            (.operators level.operators) _ := next_refines (by simpa using member) (end_not_mem _)
        have right : Refines bound.length anything (· ∈ behindOperand level) operand (.phrase level.operand) node :=
          read.weaken shorter (fun _ start => start) (fun _ follows => follows)
        refine .oneMore (.reform (.tokenThen op_next (fun _ => .closedThen right
          (blames.weaken shorter (fun _ start => start) (fun _ never => never)) (fun value => ih shorter _) ?_ rfl
          (fun _ never => never.elim) rfl) rfl) turn_awaited reads_turn.mpr)
        intro kind starting
        obtain ⟨op, member, rfl⟩ := (mem_first_turn level _).mp starting
        exact List.mem_append_left _ (List.mem_map_of_mem member)
      · next other => exact turns_blames (by rintro _ member ⟨⟩; exact other member)
    · next other => exact turns_blames (fun op _ => other op)

theorem level_blames (level : Grammar.Level)
    (read : Refines limit anything (· ∈ behindOperand level) operand (.phrase level.operand) node)
    (blames : Blames limit anything nothing operand (.phrase level.operand)) :
    Blames limit anything nothing (Parse.level level.operators operand) (.phrase (.level level)) := by
  refine .phrase (.closedThen read blames
    (fun left => (Blames.bounded fun _ enough => chain_blames read blames enough left).last)
    (fun kind starting => behindOperand_of_leads kind (.inl starting)) rfl (fun _ never => never.elim) rfl) ?_
  cases level <;> rfl

theorem operation_blames (read : Refines limit anything (· ∈ behindPrimary) inner (.phrase .primary) node)
    (blames : Blames limit anything nothing inner (.phrase .primary)) :
    Blames limit anything nothing (operation inner) (.phrase (.level .equality)) :=
  have signed := signed_refines read
  have product := level_refines .product signed
  have sum := level_refines .sum product
  have relation := level_refines .relation sum
  level_blames .equality relation (level_blames .relation sum (level_blames .sum product
    (level_blames .product signed (signed_blames blames))))

theorem expressionTo_nested (bound : List Token) : Nested bound.length (expressionTo bound) := by
  refine ⟨expressionTo_refines bound, ?_, fun other => expressionTo_refuses bound other⟩
  induction bound with
  | nil => exact .of_end (.idle rfl (by decide))
  | cons _ bound ih =>
    have nested : Nested bound.length (expressionTo bound) :=
      ⟨expressionTo_refines bound, ih, fun other => expressionTo_refuses bound other⟩
    exact .phrase ((operation_blames (primary_refines nested.reads) (primary_blames nested)).before _) rfl

theorem expression_nested : Nested limit expression where
  reads := expression_refines
  blames := .bounded fun bound _ => (expressionTo_nested bound).blames
  refuses other := expressionTo_refuses _ other

end FishLang.Parse
