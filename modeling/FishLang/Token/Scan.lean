import FishLang.Automaton.Fish
import FishLang.Text.Blank
import FishLang.Text.Letter
import FishLang.Token.Basic

namespace FishLang

inductive Reading where
  -- A token, so far as the automaton has followed it.
  | state (state : State)
  -- The rest of a numeral that ran into a letter.
  | brokenNumeral
deriving DecidableEq, Repr

structure Scanner where
  reading : Reading
  -- The characters taken since the last token, newest first.
  pending : List Char
  -- Where the pending characters start.
  origin : Location
  here : Location
  -- The tokens given out, newest first.
  emitted : List Token
deriving DecidableEq, Repr

namespace Scanner

def initial : Scanner := ⟨.state .start, [], .start, .start, []⟩

def lexeme (scanner : Scanner) : List Char := scanner.pending.reverse

def take (scanner : Scanner) (c : Char) : Scanner :=
  { scanner with pending := c :: scanner.pending, here := scanner.here.next c }

def skip (scanner : Scanner) (c : Char) : Scanner :=
  let past := scanner.here.next c
  { scanner with origin := past, here := past }

def emit (scanner : Scanner) (kind : Kind) : Scanner where
  reading := .state .start
  pending := []
  origin := scanner.here
  here := scanner.here
  emitted := ⟨kind, ⟨scanner.origin, scanner.here⟩, .ofList scanner.lexeme⟩ :: scanner.emitted

-- End the token that has reached a state: as what the state accepts, else as unrecognized.
def flush (scanner : Scanner) (automaton : Automaton) (state : State) : Scanner :=
  if scanner.pending.isEmpty then { scanner with reading := .state .start }
  else scanner.emit ((automaton.classify state).getD .unrecognized)

end Scanner

namespace Automaton

-- The category under which a state looks a character up. A literal swallows almost everything, and a letter
-- counts as itself only where a reserved spelling goes on with it.
def categorize (automaton : Automaton) (state : State) (c : Char) : Category :=
  if state.isEscape then .literal
  else if state.isLiteralBody then
    if c = (if state = .stringBody then '"' else '\'') ∨ c = '\\' then .exact c else .literal
  else if c.isDigit then .digit
  else if isLetter c then
    if (state == .start || automaton.onReservedPath state) && automaton.hasEdge state (.exact c) then .exact c
    else .letter
  else .exact c

-- A reserved spelling broken off before its end goes on as a name, if it is a word and the character can
-- continue one.
def becomesName (automaton : Automaton) (state : State) (lexeme : List Char) (c : Char) : Bool :=
  automaton.onReservedPath state && !automaton.endsReserved state && lexeme.head?.any isLetter && isWordChar c

end Automaton

namespace Scanner

inductive Reply where
  | taken (scanner : Scanner)
  -- The character still stands; it is to be offered to this scanner.
  | retry (scanner : Scanner)
deriving DecidableEq, Repr

def offer (automaton : Automaton) (scanner : Scanner) (c : Char) : Reply :=
  match scanner.reading with
  | .brokenNumeral => if isWordChar c then .taken (scanner.take c) else .retry (scanner.emit .invalid)
  | .state state =>
    if isBlank c && !state.isLiteralBody then .taken ((scanner.flush automaton state).skip c)
    else match automaton.step state (automaton.categorize state c) with
      | some next => .taken { scanner.take c with reading := .state next }
      | none =>
        if automaton.becomesName state scanner.lexeme c then .retry { scanner with reading := .state .ident }
        else if state.isNumeral && isLetter c then .taken { scanner.take c with reading := .brokenNumeral }
        else if scanner.pending.isEmpty then .taken ((scanner.take c).emit .unrecognized)
        else .retry (scanner.flush automaton state)

def offerUpTo (automaton : Automaton) : Nat → Scanner → Char → Option Scanner
  | 0, _, _ => none
  | n + 1, scanner, c =>
    match scanner.offer automaton c with
    | .taken next => some next
    | .retry next => offerUpTo automaton n next c

-- A scanner that gives out a token is fresh and takes what comes; before that it may turn into a name once.
-- So a character not taken at the third offer finds the scanner as it left it, and is never taken.
def accept? (automaton : Automaton) (scanner : Scanner) (c : Char) : Option Scanner :=
  offerUpTo automaton 3 scanner c

def read? (automaton : Automaton) : Scanner → List Char → Option Scanner
  | scanner, [] => some scanner
  | scanner, c :: rest =>
    match scanner.accept? automaton c with
    | none => none
    | some next => read? automaton next rest

def finish (automaton : Automaton) (scanner : Scanner) : Scanner :=
  match scanner.reading with
  | .brokenNumeral => scanner.emit .invalid
  | .state state => scanner.flush automaton state

end Scanner

-- The tokens of a text, in order; none if the table leaves a character that is never taken.
def Automaton.scan? (automaton : Automaton) (text : String) : Option (List Token) :=
  (Scanner.initial.read? automaton text.toList).map fun scanner =>
    (scanner.finish automaton).emitted.reverse

-- The tokens of a text of the language. Its automaton takes every character, so the fall-back is never used.
def tokenize (text : String) : List Token := (fishAutomaton.scan? text).getD []

end FishLang
