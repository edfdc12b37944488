import FishLang.Proofs.Source.Comment
import FishLang.Proofs.Text.Lines

namespace FishLang

namespace Comment

def Opens (cs : List Char) : Prop := ['<', '~'] <+: cs ∨ ['~', '~'] <+: cs

-- No comment starts within the front of a text that goes on with what is behind.
def Clear (front behind : List Char) : Prop := ∀ start, start ≠ [] → start <:+ front → ¬ Opens (start ++ behind)

inductive Piece where
  | code (text : List Char)
  | block (text : List Char)
  | line (text : List Char)
deriving DecidableEq, Repr

def Piece.text : Piece → List Char
  | .code text | .block text | .line text => text

def Piece.left : Layout → Piece → List Char
  | _, .code text => text
  | .preserve, .block text => text.filter (· == '\n')
  | _, _ => []

-- The comment ends where the rest of the text begins: a block comment behind the first closing sign that shares nothing
-- with its opening sign, or else with the text, and a line comment before the first newline or else with the text.
inductive Ends : Piece → List Char → Prop
  | closed : ¬ ['~', '>'] <:+: body ++ ['~'] → Ends (.block ('<' :: '~' :: (body ++ ['~', '>']))) rest
  | unclosed : ¬ ['~', '>'] <:+: body → Ends (.block ('<' :: '~' :: body)) []
  | line : '\n' ∉ body → (∀ c ∈ rest.head?, c = '\n') → Ends (.line ('~' :: '~' :: body)) rest

inductive Divides : List Char → List Piece → Prop
  | last : Clear cs [] → Divides cs [.code cs]
  | next : Clear front (comment.text ++ rest) → Ends comment rest → Divides rest pieces →
      Divides (front ++ (comment.text ++ rest)) (.code front :: comment :: pieces)

variable {front behind cs rest : List Char} {c : Char}

theorem Clear.nil (behind : List Char) : Clear [] behind :=
  fun _ some among => absurd (List.suffix_nil.mp among) some

theorem clear_cons : Clear (c :: front) behind ↔ ¬ Opens (c :: (front ++ behind)) ∧ Clear front behind := by
  constructor
  · intro clear
    exact ⟨clear (c :: front) (List.cons_ne_nil _ _) List.suffix_rfl,
      fun start some among => clear start some (among.trans (List.suffix_cons ..))⟩
  · rintro ⟨here, further⟩ start some among
    rcases List.suffix_cons_iff.mp among with rfl | later
    · exact here
    · exact further start some later

theorem Ends.opens (ends : Ends comment rest) : Opens (comment.text ++ rest) := by
  cases ends with
  | closed | unclosed => exact .inl ⟨_, rfl⟩
  | line => exact .inr ⟨_, rfl⟩

-- Every text can be cut up.
theorem clear_or_opens (cs : List Char) :
    Clear cs [] ∨ ∃ front behind, cs = front ++ behind ∧ Clear front behind ∧ Opens behind := by
  induction cs with
  | nil => exact .inl (.nil [])
  | cons c cs ih =>
    by_cases opens : Opens (c :: cs)
    · exact .inr ⟨[], c :: cs, rfl, .nil _, opens⟩
    · rcases ih with clear | ⟨front, behind, rfl, clear, later⟩
      · exact .inl (clear_cons.mpr ⟨by rwa [List.append_nil], clear⟩)
      · exact .inr ⟨c :: front, behind, rfl, clear_cons.mpr ⟨opens, clear⟩, later⟩

theorem closed_or_not (cs : List Char) : ¬ ['~', '>'] <:+: cs ∨
    ∃ body rest, cs = body ++ ['~', '>'] ++ rest ∧ ¬ ['~', '>'] <:+: body ++ ['~'] := by
  induction cs with
  | nil => exact .inl (by simp)
  | cons c cs ih =>
    by_cases here : ['~', '>'] <+: c :: cs
    · obtain ⟨rest, split⟩ := here
      exact .inr ⟨[], rest, split.symm, fun inside => absurd inside.length_le (by decide)⟩
    · rcases ih with none | ⟨body, rest, rfl, none⟩
      · exact .inl fun inside => (List.infix_cons_iff.mp inside).elim here none
      · refine .inr ⟨c :: body, rest, rfl, fun inside => ?_⟩
        rcases List.infix_cons_iff.mp inside with first | later
        · exact here (first.trans ⟨'>' :: rest, by simp⟩)
        · exact none later

theorem exists_ends (opens : Opens cs) : ∃ comment rest, cs = comment.text ++ rest ∧ Ends comment rest := by
  rcases opens with ⟨more, rfl⟩ | ⟨more, rfl⟩
  · rcases closed_or_not more with none | ⟨body, rest, rfl, none⟩
    · exact ⟨.block ('<' :: '~' :: more), [], (List.append_nil _).symm, .unclosed none⟩
    · exact ⟨.block ('<' :: '~' :: (body ++ ['~', '>'])), rest, rfl, .closed none⟩
  · rcases line_cases more with single | ⟨first, rest, rfl, single⟩
    · exact ⟨.line ('~' :: '~' :: more), [], (List.append_nil _).symm, .line single nofun⟩
    · exact ⟨.line ('~' :: '~' :: first), '\n' :: rest, rfl, .line single fun _ same => (Option.some.inj same).symm⟩

theorem Ends.shorter (ends : Ends comment rest) : rest.length < (comment.text ++ rest).length := by
  cases ends <;> simp [Piece.text] <;> omega

theorem exists_divides (cs : List Char) : ∃ pieces, Divides cs pieces := by
  rcases clear_or_opens cs with clear | ⟨front, behind, split, clear, opens⟩
  · exact ⟨_, .last clear⟩
  · obtain ⟨comment, rest, rfl, ends⟩ := exists_ends opens
    have shorter : rest.length < cs.length := by
      rw [split, List.length_append]
      exact Nat.lt_add_left _ ends.shorter
    obtain ⟨pieces, further⟩ := exists_divides rest
    refine ⟨.code front :: comment :: pieces, ?_⟩
    rw [split]
    exact .next clear ends further
termination_by cs.length

-- And in no two ways.
theorem clear_unique {front' behind' : List Char} (one : Clear front behind) (two : Clear front' behind')
    (opens : Opens behind) (opens' : Opens behind') (same : front ++ behind = front' ++ behind') :
    front = front' ∧ behind = behind' := by
  rcases List.append_eq_append_iff.mp same with ⟨start, rfl, rfl⟩ | ⟨start, rfl, rfl⟩
  · by_cases none : start = []
    · simp [none]
    · exact absurd opens (two start none (List.suffix_append ..))
  · by_cases none : start = []
    · simp [none]
    · exact absurd opens' (one start none (List.suffix_append ..))

theorem closed_first {body more rest rest' : List Char} (none : ¬ ['~', '>'] <:+: body ++ more ++ ['~'])
    (same : '~' :: '>' :: rest = more ++ '~' :: '>' :: rest') : more = [] := by
  match more, same with
  | [], _ => rfl
  | [_], same => cases same
  | c :: d :: more, same =>
    obtain ⟨rfl, inner⟩ := List.cons.inj same
    obtain ⟨rfl, _⟩ := List.cons.inj inner
    exact absurd ⟨body, more ++ ['~'], by simp⟩ none

theorem closed_unique {body body' rest rest' : List Char} (one : ¬ ['~', '>'] <:+: body ++ ['~'])
    (two : ¬ ['~', '>'] <:+: body' ++ ['~'])
    (same : body ++ '~' :: '>' :: rest = body' ++ '~' :: '>' :: rest') : body = body' ∧ rest = rest' := by
  rcases List.append_eq_append_iff.mp same with ⟨more, rfl, split⟩ | ⟨more, rfl, split⟩
  · obtain rfl := closed_first two split
    simpa using split
  · obtain rfl := closed_first one split
    simpa [eq_comm] using split

theorem line_unique {body body' rest rest' : List Char} (one : '\n' ∉ body) (two : '\n' ∉ body')
    (next : ∀ c ∈ rest.head?, c = '\n') (next' : ∀ c ∈ rest'.head?, c = '\n')
    (same : body ++ rest = body' ++ rest') : body = body' ∧ rest = rest' := by
  rcases List.append_eq_append_iff.mp same with ⟨more, rfl, rfl⟩ | ⟨more, rfl, rfl⟩
  · cases more with
    | nil => simp
    | cons c more =>
      obtain rfl := next c rfl
      simp at two
  · cases more with
    | nil => simp
    | cons c more =>
      obtain rfl := next' c rfl
      simp at one

theorem Ends.unique (one : Ends comment rest) (two : Ends comment' rest')
    (same : comment.text ++ rest = comment'.text ++ rest') : comment = comment' ∧ rest = rest' := by
  cases one with
  | @closed body rest none =>
    cases two with
    | closed none' =>
      obtain ⟨rfl, rfl⟩ := closed_unique none none' (by simpa [Piece.text] using same)
      exact ⟨rfl, rfl⟩
    | unclosed none' => exact absurd ⟨body, rest, by simpa [Piece.text] using same⟩ none'
    | line => cases same
  | unclosed none =>
    cases two with
    | @closed body' rest' none' => exact absurd ⟨body', rest', by simpa [Piece.text, eq_comm] using same⟩ none
    | unclosed none' => simpa [Piece.text] using same
    | line => cases same
  | line single next =>
    cases two with
    | closed | unclosed => cases same
    | line single' next' =>
      obtain ⟨rfl, rfl⟩ := line_unique single single' next next' (by simpa [Piece.text] using same)
      exact ⟨rfl, rfl⟩

theorem Clear.not_opens (clear : Clear (front ++ behind) []) : ¬ Opens behind := by
  intro opens
  have some : behind ≠ [] := by
    rintro rfl
    rcases opens with sign | sign <;> simp at sign
  exact clear behind some (List.suffix_append ..) (by rwa [List.append_nil])

theorem Divides.unique (one : Divides cs pieces) : ∀ others, Divides cs others → others = pieces := by
  induction one with
  | last clear =>
    intro others two
    cases two with
    | last => rfl
    | next _ ends _ => exact absurd ends.opens clear.not_opens
  | @next front rest comment pieces clear ends further ih =>
    intro others two
    generalize whole : front ++ (comment.text ++ rest) = cs at two
    cases two with
    | last clear' =>
      rw [← whole] at clear'
      exact absurd ends.opens clear'.not_opens
    | next clear' ends' further' =>
      obtain ⟨rfl, inner⟩ := clear_unique clear clear' ends.opens ends'.opens whole
      obtain ⟨rfl, rfl⟩ := ends.unique ends' inner
      rw [ih _ further']

theorem Divides.whole (divides : Divides cs pieces) : cs = pieces.flatMap Piece.text := by
  induction divides with
  | last => simp [Piece.text]
  | next _ _ _ ih => simp [Piece.text, ← ih]

section
variable (layout : Layout)

theorem remove_code_cons (plain : ¬ Opens (c :: cs)) :
    remove layout .code (c :: cs) = c :: remove layout .code cs := by
  refine remove.eq_4 layout c cs ?_ ?_
  · rintro rest rfl rfl
    exact plain (.inl ⟨rest, rfl⟩)
  · rintro rest rfl rfl
    exact plain (.inr ⟨rest, rfl⟩)

theorem remove_clear (clear : Clear front behind) :
    remove layout .code (front ++ behind) = front ++ remove layout .code behind := by
  induction front with
  | nil => rfl
  | cons c front ih =>
    obtain ⟨plain, clear⟩ := clear_cons.mp clear
    rw [List.cons_append, remove_code_cons layout plain, ih clear, List.cons_append]

-- What a body says of its rest, where it has no closing sign; the flag says that a `~` is before it.
theorem inside_cons {body : List Char} {tilde : Bool}
    (none : ¬ ['~', '>'] <:+: (if tilde then ['~'] else []) ++ c :: body) :
    (tilde && c == '>') = false ∧ ¬ ['~', '>'] <:+: (if c == '~' then ['~'] else []) ++ body := by
  constructor
  · rw [Bool.and_eq_false_iff, beq_eq_false_iff_ne]
    by_contra both
    simp only [not_or, Bool.not_eq_false, ne_eq, not_not] at both
    obtain ⟨rfl, rfl⟩ := both
    exact none ⟨[], body, rfl⟩
  · refine fun inside => none (inside.trans ?_)
    split
    · next same =>
      obtain rfl := eq_of_beq same
      exact (List.suffix_append ..).isInfix
    · exact (List.suffix_cons c body).isInfix.trans (List.suffix_append ..).isInfix

-- Without a closing sign the comment goes on, and remembers of its body whether it ends in `~`.
theorem remove_body {body : List Char} (behind : List Char) (tilde : Bool)
    (none : ¬ ['~', '>'] <:+: (if tilde then ['~'] else []) ++ body) :
    remove layout (.block tilde) (body ++ behind) = body.flatMap (residue layout) ++
      remove layout (.block (body.foldl (fun _ c => c == '~') tilde)) behind := by
  induction body generalizing tilde with
  | nil => rfl
  | cons c body ih =>
    obtain ⟨stays, further⟩ := inside_cons none
    rw [List.cons_append, remove, stays, if_neg Bool.false_ne_true, ih _ further]
    simp

theorem left_block (text : List Char) : (Piece.block text).left layout = text.flatMap (residue layout) := by
  induction text with
  | nil => cases layout <;> rfl
  | cons c text ih =>
    rw [List.flatMap_cons, ← ih]
    cases layout with
    | strip => rfl
    | preserve =>
      rw [residue_preserve, Piece.left, List.filter_cons]
      by_cases newline : c = '\n' <;> simp [newline, Piece.left]

theorem remove_line {body : List Char} (single : '\n' ∉ body) :
    remove layout .line (body ++ behind) = remove layout .line behind := by
  induction body with
  | nil => rfl
  | cons c body ih =>
    obtain ⟨other, single⟩ := not_or.mp (List.mem_cons.not.mp single)
    rw [List.cons_append, remove.eq_7 layout c _ fun newline => other newline.symm, ih single]

theorem remove_line_end (next : ∀ c ∈ rest.head?, c = '\n') : remove layout .line rest = remove layout .code rest := by
  cases rest with
  | nil => rfl
  | cons c rest =>
    obtain rfl := next c rfl
    rw [remove.eq_6, remove_code_cons]
    rintro (⟨_, sign⟩ | ⟨_, sign⟩) <;> cases sign

theorem remove_ends (ends : Ends comment rest) :
    remove layout .code (comment.text ++ rest) = comment.left layout ++ remove layout .code rest := by
  cases ends with
  | @closed body _ none =>
    have inside := remove_body layout ('>' :: rest) false none
    rw [left_block]
    simpa [Piece.text, remove, residue] using inside
  | @unclosed body none =>
    have inside := remove_body layout [] false none
    rw [left_block]
    simpa [Piece.text, remove, residue] using inside
  | @line body _ single next =>
    rw [← remove_line_end layout next, ← remove_line layout single]
    simp [Piece.text, Piece.left, remove]

theorem remove_divides (divides : Divides cs pieces) :
    remove layout .code cs = pieces.flatMap (Piece.left layout) := by
  induction divides with
  | @last cs clear =>
    have all := remove_clear layout clear
    simpa [Piece.left, remove] using all
  | next clear ends _ ih => simp [remove_clear layout clear, remove_ends layout ends, ih, Piece.left]

end

end Comment

-- A text is cut up in one way, and taking its comments out leaves of each piece what is to be left of it; blanks apart,
-- that does not hang on the layout.
theorem removeComments_pieces (source : String) : ∃ pieces, Comment.Divides source.toList pieces ∧
    (∀ others, Comment.Divides source.toList others → others = pieces) ∧
    source.toList = pieces.flatMap Comment.Piece.text ∧
    (∀ layout, (removeComments layout source).toList = pieces.flatMap (Comment.Piece.left layout)) ∧
    (clean .strip source).toList = (clean .preserve source).toList.filter (!isBlank ·) := by
  obtain ⟨pieces, divides⟩ := Comment.exists_divides source.toList
  refine ⟨pieces, divides, divides.unique, divides.whole, fun layout => ?_, clean_plain source⟩
  rw [removeComments, String.toList_ofList, Comment.remove_divides layout divides]

example : removeComments .strip "a<~>b~><~~>c~<~d" = "ac~" := by decide

end FishLang
