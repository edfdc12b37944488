import FishLang.Text.LetterTable

namespace FishLang

def isLetter (c : Char) : Bool :=
  let n := c.toNat
  if n < 128 then n == 0x5F || (0x41 ≤ n && n ≤ 0x5A) || (0x61 ≤ n && n ≤ 0x7A)
  else letterRanges.any fun range => range.1 ≤ n && n ≤ range.2

def isWordChar (c : Char) : Bool := isLetter c || c.isDigit

-- The two classes are disjoint, so a word and a numeral never compete for their first character.
theorem not_isLetter_of_isDigit {c : Char} (digit : c.isDigit = true) : isLetter c = false := by
  have ⟨low, high⟩ := Char.isDigit_iff_toNat.1 digit
  change 48 ≤ c.toNat at low
  change c.toNat ≤ 57 at high
  have small : c.toNat < 128 := by omega
  simp [isLetter, small]
  omega

end FishLang
