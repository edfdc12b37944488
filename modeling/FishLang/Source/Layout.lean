namespace FishLang

inductive Layout where
  -- Every blank goes; neighbouring words merge and all tokens stand on line one.
  | strip
  -- Blanks stay, and every line ends in a newline whatever the file used.
  | preserve
deriving DecidableEq, Repr

end FishLang
