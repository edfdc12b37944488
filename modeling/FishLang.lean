import FishLang.Main
import FishLang.Proofs.Parse.Program
import FishLang.Proofs.Token.Cover
import FishLang.Proofs.Token.Scan
import FishLang.Proofs.Automaton.Fish
import FishLang.Proofs.Automaton.Faithful
import FishLang.Proofs.Token.Lexical
import FishLang.Proofs.Token.Reach
import FishLang.Proofs.Token.Tokenize
import FishLang.Proofs.Grammar.Shape
import FishLang.Proofs.Analysis.Place
import FishLang.Proofs.Analysis.Resolve
import FishLang.Proofs.Analysis.Agree
import FishLang.Proofs.Analysis.Fault
import FishLang.Proofs.Analysis.Simulate
import FishLang.Proofs.Analysis.WellFormed
import FishLang.Proofs.Node.Bare
import FishLang.Proofs.Node.Spell
import FishLang.Proofs.Grammar.Operand
import FishLang.Proofs.Grammar.Spelled
import FishLang.Proofs.Parse.Alike.Basic
import FishLang.Proofs.Parse.Alike.Expression
import FishLang.Proofs.Parse.Alike.Statement
import FishLang.Proofs.Parse.Earliest
import FishLang.Proofs.Parse.Written
import FishLang.Proofs.Analysis.Run
import FishLang.Proofs.Analysis.Account
import FishLang.Proofs.Analysis.Variables
import FishLang.Proofs.Analysis.Functions
import FishLang.Proofs.Analysis.Returns
import FishLang.Proofs.Analysis.Phases
import FishLang.Proofs.Analysis.Frame
import FishLang.Proofs.Analysis.Value
import FishLang.Proofs.Analysis.Unknown
import FishLang.Proofs.Analysis.Blur
import FishLang.Proofs.Analysis.Erase
import FishLang.Proofs.Analysis.Replace
import FishLang.Proofs.Token.Respace
import FishLang.Proofs.Analysis.Blanks
import FishLang.Proofs.Text.Lines
import FishLang.Proofs.Text.SourceMap
import FishLang.Proofs.Token.Located
import FishLang.Proofs.Token.Spelling
import FishLang.Proofs.Token.Joined
import FishLang.Proofs.Grammar.Kept
import FishLang.Proofs.Parse.Lines
import FishLang.Proofs.Source.Comment
import FishLang.Proofs.Source.Lines
import FishLang.Proofs.Source.Strip
import FishLang.Proofs.Source.Pieces
import FishLang.Proofs.Grammar.Placed
import FishLang.Proofs.Parse.Rising
import FishLang.Proofs.Analysis.Lines
import FishLang.Proofs.Parse.Resumed
import FishLang.Proofs.Parse.Expected
import FishLang.Proofs.Token.Keyword
import FishLang.Proofs.Token.Reordered
import FishLang.Proofs.Source.LineEnds
import FishLang.Proofs.Analysis.Rename
import FishLang.Proofs.Node.Label
import FishLang.Proofs.Node.Outline
import FishLang.Proofs.Node.Render
import FishLang.Proofs.Parse.Rendered
import FishLang.Proofs.Document.Read
import FishLang.Proofs.Document.Encode
import FishLang.Proofs.Text.Terminal
import FishLang.Proofs.Analysis.Message
import FishLang.Proofs.CommandLine.Log
import FishLang.Proofs.CommandLine.Texts
import FishLang.Proofs.CommandLine.Outcome
