import FishLang.Proofs.Token.Tokenize

namespace FishLang

def Kind.Spelled : Kind → List Char → Prop
  | .number, _ | .identifier, _ | .unrecognized, _ | .invalid, _ => True
  | .string, lexeme => ∃ text, lexeme = '"' :: (text ++ ['"'])
  | .char, lexeme => ∃ text, lexeme = '\'' :: (text ++ ['\''])
  | .endOfInput, _ => False
  | kind, lexeme => lexeme = kind.name.toList

def Kind.reserved : Kind → Bool
  | .word _ | .type _ | .operator _ | .assign | .delimiter | .mark _ => true
  | _ => false

theorem Kind.spelled_reserved {kind : Kind} (reserved : kind.reserved = true) :
    kind.Spelled lexeme ↔ lexeme = kind.name.toList := by
  cases kind with
  | word | type | operator | assign | delimiter | mark => exact Iff.rfl
  | _ => cases reserved

def Token.Spelled (token : Token) : Prop := token.kind.Spelled token.lexeme.toList

namespace Lexical

theorem kindOf?_spelled {rows : List (String × Kind)} (named : ∀ row ∈ rows, row.2.Spelled row.1.toList)
    (found : kindOf? rows run = some kind) : kind.Spelled run := by
  obtain ⟨row, first, rfl⟩ := Option.map_eq_some_iff.mp found
  have same : row.1.toList = run := by simpa using List.find?_some first
  rw [← same]
  exact named row (List.mem_of_find?_eq_some first)

theorem wordSpellings_spelled : ∀ row ∈ wordSpellings, row.2.Spelled row.1.toList := by
  intro row member
  obtain ⟨word, _, rfl⟩ := List.mem_map.mp member
  rfl

theorem angleSpellings_spelled : ∀ row ∈ angleSpellings, row.2.Spelled row.1.toList := by
  intro row member
  rcases List.mem_append.mp member with front | back
  · rcases List.mem_cons.mp front with rfl | operator
    · rfl
    · obtain ⟨op, _, rfl⟩ := List.mem_map.mp operator
      rfl
  · rcases List.mem_cons.mp back with rfl | type
    · rfl
    · obtain ⟨ty, _, rfl⟩ := List.mem_map.mp type
      rfl

theorem markSpellings_spelled : ∀ row ∈ markSpellings, row.2.Spelled [row.1] := by
  intro row member
  obtain ⟨mark, _, rfl⟩ := List.mem_map.mp member
  exact (String.toList_singleton mark.char).symm

theorem word_spelled (cs : List Char) : (word cs).1.Spelled (word cs).2 := by
  show ((kindOf? wordSpellings (cs.takeWhile isWordChar)).getD .identifier).Spelled (cs.takeWhile isWordChar)
  cases found : kindOf? wordSpellings (cs.takeWhile isWordChar) with
  | none => trivial
  | some kind => exact kindOf?_spelled wordSpellings_spelled found

theorem numeral_spelled (cs : List Char) : (numeral cs).1.Spelled (numeral cs).2 := by
  unfold numeral
  dsimp only
  split
  · trivial
  · split <;> trivial

theorem sign_spelled (cs : List Char) : (sign cs).1.Spelled (sign cs).2 := by
  unfold sign
  dsimp only
  generalize ((cs.inits.filter opensSign).getLast?).getD [] = run
  cases found : kindOf? angleSpellings run with
  | none => trivial
  | some kind => exact kindOf?_spelled angleSpellings_spelled found

theorem closed?_ends (closed : closed? cs = some body) : ∃ text, body = text ++ ['"'] := by
  induction cs using closed?.induct generalizing body with
  | case1 => cases closed
  | case2 rest =>
    cases closed
    exact ⟨[], rfl⟩
  | case3 c rest ih =>
    obtain ⟨body, inner, rfl⟩ := Option.map_eq_some_iff.mp closed
    obtain ⟨text, rfl⟩ := ih inner
    exact ⟨'\\' :: c :: text, rfl⟩
  | case4 c rest quote escape ih =>
    rw [closed?.eq_4 c rest quote escape] at closed
    obtain ⟨body, inner, rfl⟩ := Option.map_eq_some_iff.mp closed
    obtain ⟨text, rfl⟩ := ih inner
    exact ⟨c :: text, rfl⟩

theorem string_spelled (rest : List Char) : (string rest).1.Spelled (string rest).2 := by
  unfold string
  split
  · next body closed =>
    obtain ⟨text, rfl⟩ := closed?_ends closed
    exact ⟨text, rfl⟩
  · trivial

theorem char_spelled (rest : List Char) : (char rest).1.Spelled (char rest).2 := by
  unfold char
  split
  · next c _ => exact ⟨['\\', c], rfl⟩
  · trivial
  · trivial
  · trivial
  · next c _ _ _ _ => exact ⟨[c], rfl⟩
  · trivial
  · trivial

theorem first_spelled (c : Char) (rest : List Char) : (first c rest).1.Spelled (first c rest).2 := by
  unfold first
  split
  · exact word_spelled _
  · split
    · exact numeral_spelled _
    · split
      · exact sign_spelled _
      · split
        · exact string_spelled _
        · split
          · exact char_spelled _
          · cases found : markSpellings.find? fun row => row.1 = c with
            | none => trivial
            | some row =>
              obtain rfl : row.1 = c := by simpa using List.find?_some found
              exact markSpellings_spelled row (List.mem_of_find?_eq_some found)

theorem tokens_spelled : ∀ cut ∈ tokens cs, cut.1.Spelled cut.2 :=
  forall_mem_tokens fun c rest _ => first_spelled c rest

end Lexical

theorem tokenize_spelled {text : String} (member : token ∈ tokenize text) : token.Spelled :=
  Lexical.tokens_spelled _ (tokenize_cut member)

theorem endOfInput_not_mem_tokenize (text : String) : ∀ token ∈ tokenize text, token.kind ≠ .endOfInput := by
  intro token member ended
  have spelled : token.kind.Spelled token.lexeme.toList := tokenize_spelled member
  rw [ended] at spelled
  exact spelled

namespace Lexical

theorem digits_worded (cs : List Char) : ∀ c ∈ digits cs, isWordChar c = true ∨ c = '.' := by
  have digit {c : Char} {cs : List Char} (member : c ∈ cs.takeWhile Char.isDigit) : isWordChar c = true ∨ c = '.' :=
    .inl (by simp [isWordChar, List.mem_takeWhile_imp member])
  intro c member
  unfold digits at member
  rcases List.mem_append.mp member with front | back
  · exact digit front
  · split at back
    · rcases List.mem_cons.mp back with rfl | fraction
      · exact .inr rfl
      · exact digit fraction
    · cases back

-- A name or a numeral is written in word characters and points.
def Worded (cut : Kind × List Char) : Prop :=
  cut.1 = .identifier ∨ cut.1 = .number → ∀ c ∈ cut.2, isWordChar c = true ∨ c = '.'

theorem worded_of_reserved {kind : Kind} (reserved : kind.reserved = true) (run : List Char) :
    Worded (kind, run) := by
  rintro (rfl | rfl)
  · cases reserved
  · cases reserved

theorem kindOf?_worded {rows : List (String × Kind)} (each : ∀ row ∈ rows, row.2.reserved = true)
    (run : List Char) : Worded ((kindOf? rows run).getD .unrecognized, run) := by
  cases found : kindOf? rows run with
  | none => rintro (kind | kind) <;> cases kind
  | some kind =>
    obtain ⟨row, first, rfl⟩ := Option.map_eq_some_iff.mp found
    exact worded_of_reserved (each row (List.mem_of_find?_eq_some first)) run

theorem angleSpellings_reserved : ∀ row ∈ angleSpellings, row.2.reserved = true := by decide

theorem markSpellings_reserved : ∀ row ∈ markSpellings, row.2.reserved = true := by decide

theorem word_worded (cs : List Char) : Worded (word cs) := by
  intro _ c member
  exact .inl (List.mem_takeWhile_imp member)

theorem numeral_worded (cs : List Char) : Worded (numeral cs) := by
  unfold numeral
  dsimp only
  split
  · rintro (kind | kind) <;> cases kind
  · split
    · rintro (kind | kind) <;> cases kind
    · exact fun _ => digits_worded cs

theorem string_worded (rest : List Char) : Worded (string rest) := by
  unfold string
  split <;> rintro (kind | kind) <;> cases kind

theorem char_worded (rest : List Char) : Worded (char rest) := by
  unfold char
  split <;> rintro (kind | kind) <;> cases kind

theorem first_worded (c : Char) (rest : List Char) : Worded (first c rest) := by
  unfold first
  split
  · exact word_worded _
  · split
    · exact numeral_worded _
    · split
      · exact kindOf?_worded angleSpellings_reserved _
      · split
        · exact string_worded rest
        · split
          · exact char_worded rest
          · cases found : markSpellings.find? fun row => row.1 = c with
            | none => rintro (kind | kind) <;> cases kind
            | some row =>
              exact worded_of_reserved (markSpellings_reserved row (List.mem_of_find?_eq_some found)) [c]

end Lexical

theorem tokenize_worded {text : String} (member : token ∈ tokenize text)
    (named : token.kind = .identifier ∨ token.kind = .number) :
    ∀ c ∈ token.lexeme.toList, isWordChar c = true ∨ c = '.' :=
  Lexical.forall_mem_tokens (fun c rest _ => Lexical.first_worded c rest) _ (tokenize_cut member) named

end FishLang
