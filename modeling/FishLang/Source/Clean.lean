import FishLang.Source.Comment
import FishLang.Text.Blank

namespace FishLang

-- Every line end becomes a newline: the pair of carriage return and newline, and a lone carriage return.
def unifyLineEnds : List Char → List Char
  | [] => []
  | '\r' :: '\n' :: rest => '\n' :: unifyLineEnds rest
  | '\r' :: rest => '\n' :: unifyLineEnds rest
  | c :: rest => c :: unifyLineEnds rest

def Layout.apply : Layout → List Char → List Char
  | .strip, text => text.filter (!isBlank ·)
  | .preserve, text => unifyLineEnds text

-- What the scanner reads of a source. Comments go first, so a stripped line comment still ends at its line.
def clean (layout : Layout) (source : String) : String :=
  .ofList (layout.apply (Comment.remove layout .code source.toList))

end FishLang
