import FishLang.CommandLine.Options
import FishLang.Text.Terminal

namespace FishLang

-- The part of the program that an entry comes from.
inductive Origin where
  | command | automaton | lexer | parser | analyzer
deriving DecidableEq, Repr

def Origin.path : Origin → String
  | .command => "fishc"
  | .automaton => "fishc::frontend::automaton"
  | .lexer => "fishc::frontend::lexer"
  | .parser => "fishc::frontend::parser"
  | .analyzer => "fishc::frontend::semantic"

inductive Entry where
  | log (level : Level) (origin : Origin) (message : String)
  | echo (line : Nat) (text : String)
deriving DecidableEq, Repr

namespace Entry

def shown (last : Level) : Entry → Bool
  | .log level _ _ => level.rank ≤ last.rank
  | .echo .. => true

def padLeft (width : Nat) (text : String) : String :=
  .ofList (.replicate (width - text.length) ' ') ++ text

def padRight (width : Nat) (text : String) : String :=
  text ++ .ofList (.replicate (width - text.length) ' ')

-- A message of several lines goes on four blanks in.
def hang (message : String) : String :=
  .ofList <| message.toList.flatMap fun c => if c = '\n' then '\n' :: List.replicate 4 ' ' else [c]

-- An entry with its line end. Of a log entry only what a terminal shows is written; the source line stays as it is.
def render : Entry → String
  | .log level origin message =>
    .ofList <| Terminal.plain .text ("[" ++ level.tag ++ " " ++ origin.path ++ "] " ++ hang message ++ "\n").toList
  | .echo line text => padLeft 5 (toString line) ++ " | " ++ text ++ "\n"

end Entry

inductive Fault where
  | absent | denied | directory | notDirectory
  -- The bytes of a source are no text.
  | notText
  | other (reason : String)
deriving DecidableEq, Repr

def Fault.reason : Fault → String
  | .absent => "No such file or directory (os error 2)"
  | .denied => "Permission denied (os error 13)"
  | .directory => "Is a directory (os error 21)"
  | .notDirectory => "Not a directory (os error 20)"
  | .notText => "stream did not contain valid UTF-8"
  | .other reason => reason

inductive Problem where
  | unreadable (path : String) (fault : Fault)
  | unwritable (path : String) (fault : Fault)
  | noProgram (path : String)
  | faulty (diagnostics : Nat)
deriving DecidableEq, Repr

namespace Problem

-- A path between quotes, with what would hide its extent escaped.
def quotePath (path : String) : String :=
  let escape (c : Char) : List Char :=
    if c = '"' then ['\\', '"']
    else if c = '\\' then ['\\', '\\']
    else if c = '\n' then ['\\', 'n']
    else if c = '\r' then ['\\', 'r']
    else if c = '\t' then ['\\', 't']
    else if c.toNat = 0 then ['\\', '0']
    else if c.toNat < 32 ∨ (127 ≤ c.toNat ∧ c.toNat < 160) then
      '\\' :: 'u' :: '\x7b' :: Nat.toDigits 16 c.toNat ++ ['\x7d']
    else [c]
  .ofList ('"' :: path.toList.flatMap escape ++ ['"'])

def message : Problem → String
  | .unreadable path _ => "Failed to read input file: " ++ quotePath path
  | .unwritable path _ => "Failed to write output file: " ++ quotePath path
  | .noProgram path => "Failed to parse " ++ quotePath path
  | .faulty diagnostics => s!"{diagnostics} semantic error(s) found"

def cause? : Problem → Option Fault
  | .unreadable _ fault | .unwritable _ fault => some fault
  | _ => none

def render (problem : Problem) : String :=
  "Error: " ++ problem.message ++
    (problem.cause?.elim "" fun fault => "\n\nCaused by:\n    " ++ fault.reason) ++ "\n"

end Problem

end FishLang
