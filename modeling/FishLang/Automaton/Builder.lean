import FishLang.Automaton.Basic

namespace FishLang

structure Builder where
  edges : Table (State × Category) State
  accepting : Table State Kind
  reservedPath : List State
  reservedEnd : List State
  -- The number of the next state to be made. It wraps: more states than numbers cannot be told apart.
  next : UInt16
deriving Repr

namespace Builder

def empty : Builder := ⟨.empty, .empty, [], [], State.firstFree⟩

def build (builder : Builder) : Automaton :=
  ⟨builder.edges, builder.accepting, builder.reservedPath, builder.reservedEnd⟩

def edge (builder : Builder) (origin target : State) (category : Category) : Builder :=
  { builder with edges := builder.edges.insert (origin, category) target }

def accept (builder : Builder) (state : State) (kind : Kind) : Builder :=
  { builder with accepting := builder.accepting.insert state kind }

def acceptIfNew (builder : Builder) (state : State) (kind : Kind) : Builder :=
  if builder.accepting.contains state then builder else builder.accept state kind

def markPath (builder : Builder) (states : List State) : Builder :=
  { builder with reservedPath := states.foldl (fun marked state => marked.insert state) builder.reservedPath }

def markEnd (builder : Builder) (state : State) : Builder :=
  { builder with reservedEnd := builder.reservedEnd.insert state }

-- The state one exact character further, made if it is missing.
def extend (builder : Builder) (state : State) (c : Char) : Builder × State :=
  match builder.edges.find? (state, .exact c) with
  | some found => (builder, found)
  | none =>
    let fresh : State := ⟨builder.next⟩
    ({ builder.edge state fresh (.exact c) with next := builder.next + 1 }, fresh)

-- Follow a spelling from a state, making what is missing. Returns the states passed, the first one left out.
def follow (builder : Builder) (state : State) : List Char → Builder × List State
  | [] => (builder, [])
  | c :: rest =>
    let (extended, reached) := builder.extend state c
    let (done, path) := extended.follow reached rest
    (done, reached :: path)

-- A reserved word. Its beginnings are names, and a longer word that runs through its end is a name again.
def word (builder : Builder) (spelling : List Char) (kind : Kind) : Builder :=
  let (grown, path) := builder.follow .start spelling
  match path.getLast? with
  | none => grown
  | some last =>
    let named := path.dropLast.foldl (fun b state => b.acceptIfNew state .identifier) grown
    (((named.markPath path).accept last kind).markEnd last).edge last .ident .letter
      |>.edge last .ident .digit

-- A reserved spelling that is no word. Its beginnings are nothing.
def symbol (builder : Builder) (spelling : List Char) (kind : Kind) : Builder :=
  let (grown, path) := builder.follow .start spelling
  match path.getLast? with
  | none => grown
  | some last => ((grown.markPath path).markEnd last).accept last kind

-- A token of one character. It is not reserved: a broken longer spelling may end on it.
def mark (builder : Builder) (c : Char) (kind : Kind) : Builder :=
  let (grown, state) := builder.extend .start c
  grown.accept state kind

inductive Entry where
  | edge (origin target : State) (category : Category)
  | accept (state : State) (kind : Kind)
  | word (spelling : String) (kind : Kind)
  | symbol (spelling : String) (kind : Kind)
  | mark (c : Char) (kind : Kind)
deriving DecidableEq, Repr

def add (builder : Builder) : Entry → Builder
  | .edge origin target category => builder.edge origin target category
  | .accept state kind => builder.accept state kind
  | .word spelling kind => builder.word spelling.toList kind
  | .symbol spelling kind => builder.symbol spelling.toList kind
  | .mark c kind => builder.mark c kind

def addAll (builder : Builder) (entries : List Entry) : Builder := entries.foldl add builder

end Builder

def Automaton.ofEntries (entries : List Builder.Entry) : Automaton := (Builder.empty.addAll entries).build

end FishLang
