import FishLang.Analysis.Diagnostic
import FishLang.Document.Basic
import FishLang.Node.Basic
import FishLang.Parse.Error

namespace FishLang

def Span.document (span : Span) : Document :=
  .record [("start_line", .number span.start.line), ("start_column", .number span.start.column),
    ("end_line", .number span.stop.line), ("end_column", .number span.stop.column),
    ("start_offset", .number span.start.offset), ("end_offset", .number span.stop.offset)]

-- A kind is its tag; a type keyword names its type under the tag.
def Kind.document : Kind → Document
  | .type ty => .record [("Type", .text ty.label)]
  | kind => .text kind.label

def Token.document (token : Token) : Document :=
  .record [("kind", token.kind.document), ("span", token.span.document), ("lexeme", .text token.lexeme)]

mutual

-- Text and children are left out where there are none.
def Node.document : Node → Document
  | ⟨kind, value, children, line⟩ =>
    .record <|
      ("kind", .text kind.label) ::
      value.toList.map (fun text => ("value", .text text)) ++
      (match Node.documents children with
        | [] => []
        | documents => [("children", .list documents)]) ++
      [("line", .number line)]

def Node.documents : List Node → List Document
  | [] => []
  | node :: rest => node.document :: Node.documents rest

end

def Diagnostic.document (diagnostic : Diagnostic) : Document :=
  .record [("message", .text diagnostic.message), ("line", .number diagnostic.line),
    ("kind", .text diagnostic.kind.label)]

def ParseError.document (error : ParseError) : Document :=
  .record [("expected", .list (error.expected.map .text)), ("found", error.found.elim .null .text),
    ("line", error.line?.elim .null .number), ("message", .text error.message)]

end FishLang
