namespace FishLang

structure Location where
  line : Nat
  column : Nat
  offset : Nat
deriving DecidableEq, Repr

namespace Location

def start : Location := ⟨1, 1, 0⟩

def next (here : Location) (c : Char) : Location :=
  if c = '\n' then ⟨here.line + 1, 1, here.offset + c.utf8Size⟩
  else ⟨here.line, here.column + 1, here.offset + c.utf8Size⟩

def after (here : Location) (cs : List Char) : Location := cs.foldl next here

@[simp] theorem after_nil (here : Location) : here.after [] = here := rfl

@[simp] theorem after_cons (here : Location) (c : Char) (cs : List Char) :
    here.after (c :: cs) = (here.next c).after cs := rfl

theorem after_append (here : Location) (cs ds : List Char) :
    here.after (cs ++ ds) = (here.after cs).after ds := List.foldl_append

end Location

-- A stretch of text: the place of its first character and the place after its last.
structure Span where
  start : Location
  stop : Location
deriving DecidableEq, Repr

namespace Span

-- The span of what stands nowhere in the text, such as the end of input.
def unplaced : Span := ⟨⟨0, 0, 0⟩, ⟨0, 0, 0⟩⟩

-- Lines alone decide: no character of a text has line zero, whatever its column and offset.
def isUnplaced (span : Span) : Bool := span.start.line == 0 && span.stop.line == 0

def line? (span : Span) : Option Nat := if span.isUnplaced then none else some span.start.line

def render (span : Span) : String :=
  if span.isUnplaced then "end of input"
  else if span.start.line = span.stop.line then
    s!"{span.start.line}:{span.start.column}-{span.stop.column}"
  else
    s!"{span.start.line}:{span.start.column}-{span.stop.line}:{span.stop.column}"

end Span

end FishLang
