namespace FishLang

structure SourceMap where
  text : String
  -- One offset for every line, in order.
  starts : List Nat
deriving DecidableEq, Repr

namespace SourceMap

def startsFrom : Nat → List Char → List Nat
  | _, [] => []
  | offset, c :: cs =>
    if c = '\n' then (offset + c.utf8Size) :: startsFrom (offset + c.utf8Size) cs
    else startsFrom (offset + c.utf8Size) cs

def ofText (text : String) : SourceMap := ⟨text, 0 :: startsFrom 0 text.toList⟩

-- What is left of a text behind so many bytes. They end with a character; lines start nowhere else.
def dropBytes : Nat → List Char → List Char
  | 0, cs => cs
  | _, [] => []
  | n + 1, c :: cs => dropBytes (n + 1 - c.utf8Size) cs

def takeBytes : Nat → List Char → List Char
  | 0, _ => []
  | _, [] => []
  | n + 1, c :: cs => c :: takeBytes (n + 1 - c.utf8Size) cs

def slice (text : String) (start stop : Nat) : List Char := takeBytes (stop - start) (dropBytes start text.toList)

def chomp (cs : List Char) : List Char := (cs.reverse.dropWhile (· = '\n')).reverse

-- The text of a line, counted from one and without its newline.
def line? (map : SourceMap) : Nat → Option String
  | 0 => none
  | n + 1 => map.starts[n]?.map fun start =>
    .ofList (chomp (slice map.text start (map.starts[n + 1]?.getD map.text.utf8ByteSize)))

end SourceMap

def lineAt? (text : String) (line : Nat) : Option String := (SourceMap.ofText text).line? line

end FishLang
