import FishLang.Proofs.Parse.Alike.Basic
import FishLang.Proofs.Parse.Expression

namespace FishLang.Parse

open Node

variable {limit limit' : Nat} {starts : Kind → Prop} {inner inner' operand operand' : Parse Node} {left left' : Node}

theorem peek_bind_run {α : Type} (next : Kind → Parse α) (tokens : List Token) :
    (Parse.peek >>= next) tokens = next (current tokens).kind tokens := rfl

theorem chain_ends (operators : List Operator) (operand : Parse Node) (bound : List Token) (left : Node) :
    chain operators operand bound left [] = .ok (left, []) := by
  cases bound <;> rfl

theorem chain_alike {operators : List Operator} (read : Alike limit limit' anything bare operand operand')
    (bound bound' : List Token) (enough : bound.length ≤ limit) (enough' : bound'.length ≤ limit')
    (same : left.bare = left'.bare) :
    Alike bound.length bound'.length anything bare (chain operators operand bound left)
      (chain operators operand' bound' left') := by
  refine Alike.loop (fun left left' : Node => left.bare = left'.bare) (chain operators operand)
    (chain operators operand') ?_ ?_ bound bound' enough enough' left left' same
  · intro bound bound' left left' same
    rw [chain_ends, chain_ends]
    exact ⟨rfl, left', same, rfl⟩
  · intro token bound token' bound' smaller' fits _ large rest left left' same
    refine .peek fun kind _ => ?_
    split
    · next op =>
      split
      · next member =>
        have right : Alike bound.length (smaller' - 1) anything bare operand operand' :=
          read.weaken (Nat.le_of_lt fits) (Nat.le_trans (Nat.sub_le ..) large) fun _ start => start
        refine .take (by rintro _ rfl; simp) fun _ _ _ _ => right.bind fun right right' same' => rest _ _ ?_
        simp [same, same']
      · exact .pure same
    · exact .pure same

theorem level_alike {operators : List Operator} (read : Alike limit limit' anything bare operand operand') :
    Alike limit limit' anything bare (level operators operand) (level operators operand') :=
  read.bind fun _ _ same => .bounded fun bound bound' enough enough' =>
    chain_alike read bound bound' enough enough' same

theorem tail_alike (same : left.bare = left'.bare) : Alike limit limit' anything bare (tail left) (tail left') := by
  induction limit generalizing limit' left left' with
  | zero =>
    have stops (left : Node) (tokens : List Token) (ended : (current tokens).kind = .endOfInput) :
        tail left tokens = (Pure.pure left : Parse Node) tokens := by
      rw [tail_eq, peek_bind_run, ended]
    exact .of_end (.congr (.pure same) (stops left) (stops left'))
  | succ limit ih =>
    refine .congr (.peek fun kind _ => ?_) (fun tokens _ => tail_eq left tokens) (fun tokens _ => tail_eq left' tokens)
    split
    · split
      · exact .take (by rintro _ rfl; simp) fun _ _ _ _ => ih (by simp [same])
      · exact .pure same
    · exact .pure same

theorem suffixed_alike (read : Alike limit limit' anything bare inner inner') :
    Alike limit limit' anything bare (suffixed inner) (suffixed inner') :=
  read.bind fun _ _ same => tail_alike same

theorem signed_alike (read : Alike limit limit' anything bare inner inner') :
    Alike limit limit' anything bare (signed inner) (signed inner') := by
  induction limit generalizing limit' with
  | zero =>
    have stops (inner : Parse Node) (tokens : List Token) (ended : (current tokens).kind = .endOfInput) :
        signed inner tokens = suffixed inner tokens := by
      rw [signed_eq, peek_bind_run, ended]
    exact .of_end (.congr (suffixed_alike read).anywhere (stops inner) (stops inner'))
  | succ limit ih =>
    refine .congr (.peek fun kind _ => ?_) (fun tokens _ => signed_eq inner tokens)
      (fun tokens _ => signed_eq inner' tokens)
    split
    · split
      · exact .take (by rintro _ rfl; simp) fun _ _ _ _ => (ih read.less).bind fun _ _ same => .pure (by simp [same])
      · exact (suffixed_alike read).anywhere
    · exact (suffixed_alike read).anywhere

theorem operation_alike (read : Alike limit limit' anything bare inner inner') :
    Alike limit limit' anything bare (operation inner) (operation inner') :=
  level_alike (level_alike (level_alike (level_alike (signed_alike read))))

theorem ended_alike (read : Alike limit limit' anything bare inner inner') :
    Alike limit limit' anything bare (ended inner) (ended inner') := by
  refine read.bind fun _ _ same => .peek fun kind _ => ?_
  split
  · exact .pure same
  · exact .fail

theorem parenthesized_alike {phrase : Phrase} (read : Alike (limit - 1) (limit' - 1) anything bare inner inner') :
    Alike limit limit' starts bare (parenthesized inner phrase) (parenthesized inner' phrase) :=
  .takeKind (by decide) fun _ _ _ => read.bind fun _ _ same => .expect (by decide) fun _ _ _ => .pure same

def Starves (inner : Parse Node) : Prop := inner [] = .error ⟨.noExpression, []⟩

theorem argumentList_ends (starves : Starves inner) (bound : List Token) :
    argumentList inner bound [] = .error ⟨.noExpression, []⟩ := by
  cases bound with
  | nil => rfl
  | cons token bound =>
    show (inner >>= _ : Parse (List Node)) [] = _
    rw [bind_run, starves]

theorem argumentList_alike (read : Alike limit limit' anything bare inner inner') (starves : Starves inner)
    (starves' : Starves inner') (bound bound' : List Token) (enough : bound.length ≤ limit)
    (enough' : bound'.length ≤ limit') :
    Alike bound.length bound'.length anything (List.map bare) (argumentList inner bound)
      (argumentList inner' bound') := by
  refine Alike.turns ?_ ?_ bound bound' enough enough'
  · intro bound bound'
    rw [argumentList_ends starves, argumentList_ends starves']
    exact ⟨rfl, rfl⟩
  · intro token bound token' bound' smaller' fits _ large rest
    have first : Alike (bound.length + 1) smaller' anything bare inner inner' :=
      read.weaken fits large fun _ start => start
    refine first.bind fun _ _ same => .peek fun kind _ => ?_
    split
    · next comma =>
      refine .take (by rintro _ rfl; simp [comma]) fun _ _ _ _ => rest.bind fun _ _ others => .pure ?_
      simp [same, others]
    · exact .pure (by simp [same])

theorem arguments_alike (read : Alike limit limit' anything bare inner inner') (starves : Starves inner)
    (starves' : Starves inner') :
    Alike limit limit' anything (List.map bare) (arguments inner) (arguments inner') := by
  refine .peek fun kind _ => ?_
  split
  · exact .pure rfl
  · exact .bounded fun bound bound' enough enough' => argumentList_alike read starves starves' bound bound' enough enough'

theorem call_alike {name name' : Token} (read : Alike (limit - 1) (limit' - 1) anything bare inner inner')
    (starves : Starves inner) (starves' : Starves inner') (named : name.entry = name'.entry) :
    Alike limit limit' starts bare (call inner name) (call inner' name') := by
  refine .takeKind (by decide) fun _ _ _ => (arguments_alike read starves starves').bind fun _ _ same =>
    .expect (by decide) fun _ _ _ => .pure ?_
  simp [same, Spells.lexeme named]

theorem primary_alike (read : Alike (limit - 1) (limit' - 1) anything bare inner inner') (starves : Starves inner)
    (starves' : Starves inner') : Alike limit limit' anything bare (primary inner) (primary inner') := by
  have literal {kind : Kind} (live : kind ≠ .endOfInput) {make : Token → Node}
      (made : ∀ token token' : Token, token.entry = token'.entry → (make token).bare = (make token').bare) :
      Alike limit limit' (· = kind) bare (Parse.next >>= fun token => Pure.pure (make token))
        (Parse.next >>= fun token => Pure.pure (make token)) :=
    .next (by rintro _ rfl; exact live) fun _ _ same _ => .pure (made _ _ same)
  refine .peek fun kind _ => ?_
  split
  · refine .next (by rintro _ rfl; simp) fun name name' named _ => .peek fun kind _ => ?_
    split
    · exact call_alike read starves starves' named
    · exact .pure (by simp [Spells.lexeme named])
  · exact literal (by simp) fun _ _ same => by simp [Spells.lexeme same]
  · exact literal (by simp) fun _ _ same => by simp [Spells.lexeme same]
  · exact literal (by simp) fun _ _ same => by simp [Spells.lexeme same]
  · exact parenthesized_alike read
  · exact .fail

theorem expressionTo_starves (bound : List Token) : Starves (expressionTo bound) := by
  cases bound <;> rfl

theorem expressionTo_alike (bound bound' : List Token) :
    Alike bound.length bound'.length anything bare (expressionTo bound) (expressionTo bound') := by
  refine Alike.turns ?_ ?_ bound bound' (Nat.le_refl _) (Nat.le_refl _)
  · intro bound bound'
    rw [expressionTo_starves, expressionTo_starves]
    exact ⟨rfl, rfl⟩
  · intro token bound token' bound' smaller' _ _ _ rest
    exact ended_alike (operation_alike (primary_alike rest (expressionTo_starves bound) (expressionTo_starves bound')))

theorem expression_alike : Alike limit limit' starts bare expression expression :=
  .bounded fun bound bound' _ _ => expressionTo_alike bound bound'

theorem expression_starves : Starves expression := rfl

end FishLang.Parse
