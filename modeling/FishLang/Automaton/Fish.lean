import FishLang.Automaton.Builder

namespace FishLang

open Builder.Entry

def identifierEntries : List Builder.Entry :=
  [.edge .start .ident .letter, .edge .ident .ident .letter, .edge .ident .ident .digit,
    .accept .ident .identifier]

-- Digits, and after them at most one point with more digits. A numeral that ends in its point is none.
def numeralEntries : List Builder.Entry :=
  [.edge .start .integer .digit, .edge .integer .integer .digit, .edge .integer .point (.exact '.'),
    .edge .point .fraction .digit, .edge .fraction .fraction .digit,
    .accept .integer .number, .accept .fraction .number]

def stringEntries : List Builder.Entry :=
  [.edge .start .stringBody (.exact '"'), .edge .stringBody .stringBody .literal,
    .edge .stringBody .stringEscape (.exact '\\'), .edge .stringEscape .stringBody .literal,
    .edge .stringBody .stringEnd (.exact '"'), .accept .stringEnd .string]

-- Exactly one character between the quotes, escaped or not.
def charEntries : List Builder.Entry :=
  [.edge .start .charOpen (.exact '\''), .edge .charOpen .charBody .literal,
    .edge .charOpen .charEscape (.exact '\\'), .edge .charEscape .charBody .literal,
    .edge .charBody .charEnd (.exact '\''), .accept .charEnd .char]

def baseEntries : List Builder.Entry := identifierEntries ++ numeralEntries ++ stringEntries ++ charEntries

def reservedEntries : List Builder.Entry :=
  wordSpellings.map (fun row => .word row.1 row.2) ++ angleSpellings.map (fun row => .symbol row.1 row.2) ++
    markSpellings.map (fun row => .mark row.1 row.2)

def fishAutomaton : Automaton := .ofEntries (baseEntries ++ reservedEntries)

end FishLang
