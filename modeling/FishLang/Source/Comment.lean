import FishLang.Source.Layout

namespace FishLang

namespace Comment

inductive Place where
  | code
  -- Inside a block comment; the flag says that the last character of its body was `~`.
  | block (tilde : Bool)
  | line
deriving DecidableEq, Repr

-- What a block comment leaves behind of one of its characters: line numbers survive when the layout does.
def residue : Layout → Char → List Char
  | .preserve, '\n' => ['\n']
  | _, _ => []

def remove (layout : Layout) : Place → List Char → List Char
  | _, [] => []
  | .code, '<' :: '~' :: rest => remove layout (.block false) rest
  | .code, '~' :: '~' :: rest => remove layout .line rest
  | .code, c :: rest => c :: remove layout .code rest
  | .block tilde, c :: rest =>
    residue layout c ++ remove layout (if tilde && c == '>' then .code else .block (c == '~')) rest
  | .line, '\n' :: rest => '\n' :: remove layout .code rest
  | .line, _ :: rest => remove layout .line rest

end Comment

def removeComments (layout : Layout) (source : String) : String :=
  .ofList (Comment.remove layout .code source.toList)

end FishLang
