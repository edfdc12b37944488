import FishLang.Node.Basic
import FishLang.Parse.Error

namespace FishLang

-- A violation, and the tokens left where it was found.
structure Stop where
  violation : Violation
  rest : List Token
deriving DecidableEq, Repr

def current : List Token → Token
  | [] => .endOfInput
  | token :: _ => token

-- The tokens behind the one at hand; a token that ends the input stays.
def advance : List Token → List Token
  | [] => []
  | token :: rest => if token.isEnd then token :: rest else rest

def Stop.error (stop : Stop) : ParseError := stop.violation.report (current stop.rest)

def Parse (α : Type) : Type := List Token → Except Stop (α × List Token)

namespace Parse

instance : Monad Parse where
  pure value := fun tokens => .ok (value, tokens)
  bind parse next := fun tokens =>
    match parse tokens with
    | .ok (value, rest) => next value rest
    | .error stop => .error stop

theorem bind_eq_ok_iff {α β : Type} {parse : Parse α} {next : α → Parse β} {tokens rest : List Token}
    {value : β} : (parse >>= next) tokens = .ok (value, rest) ↔
      ∃ middle between, parse tokens = .ok (middle, between) ∧ next middle between = .ok (value, rest) := by
  change (match parse tokens with
    | .ok (value, rest) => next value rest
    | .error stop => .error stop) = _ ↔ _
  rcases parse tokens with stop | ⟨middle, between⟩ <;> simp [and_assoc]

theorem bind_eq_error_iff {α β : Type} {parse : Parse α} {next : α → Parse β} {tokens : List Token}
    {stop : Stop} : (parse >>= next) tokens = .error stop ↔ parse tokens = .error stop ∨
      ∃ middle between, parse tokens = .ok (middle, between) ∧ next middle between = .error stop := by
  change (match parse tokens with
    | .ok (value, rest) => next value rest
    | .error stop => .error stop) = _ ↔ _
  rcases parse tokens with stop | ⟨middle, between⟩ <;> simp [and_assoc]

def fail {α : Type} (violation : Violation) : Parse α := fun tokens => .error ⟨violation, tokens⟩

def peek : Parse Kind := fun tokens => .ok ((current tokens).kind, tokens)

def peekSecond : Parse Kind := fun tokens => .ok ((current tokens.tail).kind, tokens)

def next : Parse Token := fun tokens => .ok (current tokens, advance tokens)

def expect (kind : Kind) (phrase : Phrase) : Parse Token := do
  if (← peek) = kind then next else fail (.missing kind phrase)

-- Loops and nested constructs are bounded by a list that is counted and not read, an element for every turn or
-- level. Every turn and every level takes a token, so the tokens that are left are bound enough.

def bounded {α : Type} (loop : List Token → Parse α) : Parse α := fun tokens => loop tokens tokens

end Parse

def Token.line (token : Token) : Nat := token.span.start.line

-- The text between a literal's quotes; a lexeme that lacks one of them is taken as it is.
def unquote (quote : Char) (lexeme : String) : String :=
  match lexeme.toList with
  | first :: rest =>
    if first = quote ∧ rest.getLast? = some quote then .ofList rest.dropLast else lexeme
  | [] => lexeme

end FishLang
