namespace FishLang

inductive Document where
  | null
  | number (value : Nat)
  | text (value : String)
  | list (items : List Document)
  | record (fields : List (String × Document))
deriving Repr

namespace Document

def hexDigits (n : Nat) : List Char :=
  ['0', '0', Nat.digitChar (n / 16), Nat.digitChar (n % 16)]

def escape (c : Char) : List Char :=
  if c = '"' then ['\\', '"']
  else if c = '\\' then ['\\', '\\']
  else if c = '\n' then ['\\', 'n']
  else if c = '\r' then ['\\', 'r']
  else if c = '\t' then ['\\', 't']
  else if c.toNat = 8 then ['\\', 'b']
  else if c.toNat = 12 then ['\\', 'f']
  else if c.toNat < 32 then '\\' :: 'u' :: hexDigits c.toNat
  else [c]

def quoted (text : String) : String := .ofList ('"' :: text.toList.flatMap escape ++ ['"'])

def indent (level : Nat) : String := .ofList (.replicate (2 * level) ' ')

-- Parts between brackets, each on a line one level further in; without parts the brackets stand alone.
def bracketed (level : Nat) (left right : String) (parts : List String) : String :=
  if parts.isEmpty then left ++ right
  else left ++ "\n" ++ ",\n".intercalate (parts.map (indent (level + 1) ++ ·)) ++ "\n" ++ indent level ++ right

mutual

-- The text of a document that starts on a line of the given level.
def write (level : Nat) : Document → String
  | .null => "null"
  | .number value => toString value
  | .text value => quoted value
  | .list items => bracketed level "[" "]" (writeItems (level + 1) items)
  | .record fields => bracketed level "\x7b" "\x7d" (writeFields (level + 1) fields)

def writeItems (level : Nat) : List Document → List String
  | [] => []
  | item :: rest => write level item :: writeItems level rest

def writeFields (level : Nat) : List (String × Document) → List String
  | [] => []
  | (key, value) :: rest => (quoted key ++ ": " ++ write level value) :: writeFields level rest

end

def render (document : Document) : String := document.write 0

end Document

end FishLang
