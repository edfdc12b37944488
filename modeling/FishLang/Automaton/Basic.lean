import FishLang.Table
import FishLang.Token.Kind

namespace FishLang

-- A state is a sixteen-bit number. Twelve states have a fixed meaning; the others are numbered as made.
structure State where
  number : UInt16
deriving DecidableEq, Repr

namespace State

def start : State := ⟨0⟩
def ident : State := ⟨1⟩
def integer : State := ⟨2⟩
def point : State := ⟨3⟩
def fraction : State := ⟨4⟩
def stringBody : State := ⟨5⟩
def stringEscape : State := ⟨6⟩
def stringEnd : State := ⟨7⟩
def charOpen : State := ⟨8⟩
def charEscape : State := ⟨9⟩
def charBody : State := ⟨10⟩
def charEnd : State := ⟨11⟩

def firstFree : UInt16 := 12

def isNumeral (state : State) : Bool := state == integer || state == point || state == fraction

-- Inside a literal, where blanks are ordinary characters.
def isLiteralBody (state : State) : Bool :=
  state == stringBody || state == stringEscape || state == charOpen || state == charEscape ||
    state == charBody

-- Just after a backslash, where every character stands for itself.
def isEscape (state : State) : Bool := state == stringEscape || state == charEscape

end State

inductive Category where
  | letter
  | digit
  | exact (c : Char)
  -- A character of a literal that neither closes nor escapes.
  | literal
deriving DecidableEq, Repr

structure Automaton where
  edges : Table (State × Category) State
  accepting : Table State Kind
  -- The states on the way of a reserved spelling, its end included.
  reservedPath : List State
  -- The states at the end of a reserved spelling.
  reservedEnd : List State
deriving Repr

namespace Automaton

-- An automaton from its edges (from, to, on) and accepting states. Of two rows for one key the later wins.
def ofRows (edges : List (State × State × Category)) (accepting : List (State × Kind)) : Automaton where
  edges := .ofList (edges.map fun row => ((row.1, row.2.2), row.2.1))
  accepting := .ofList accepting
  reservedPath := []
  reservedEnd := []

def withReserved (automaton : Automaton) (path ends : List State) : Automaton :=
  { automaton with reservedPath := path, reservedEnd := ends }

def step (automaton : Automaton) (state : State) (category : Category) : Option State :=
  automaton.edges.find? (state, category)

def hasEdge (automaton : Automaton) (state : State) (category : Category) : Bool :=
  (automaton.step state category).isSome

def classify (automaton : Automaton) (state : State) : Option Kind := automaton.accepting.find? state

def isAccepting (automaton : Automaton) (state : State) : Bool := (automaton.classify state).isSome

def onReservedPath (automaton : Automaton) (state : State) : Bool := automaton.reservedPath.contains state

def endsReserved (automaton : Automaton) (state : State) : Bool := automaton.reservedEnd.contains state

def edgeCount (automaton : Automaton) : Nat := automaton.edges.size

end Automaton

end FishLang
