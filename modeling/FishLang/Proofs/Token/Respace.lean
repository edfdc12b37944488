import FishLang.Proofs.Text.Lines
import FishLang.Proofs.Token.Cover
import FishLang.Proofs.Token.Tokenize
import Mathlib.Data.List.Chain

namespace FishLang

namespace Lexical

-- What may stand behind a token in place of what is there.
def Meets (back other : List Char) : Prop := ∀ c ∈ other.head?, isBlank c = true ∨ c ∈ back.head?

section
variable {run back other : List Char}

theorem Meets.head {p : Char → Bool} (meets : Meets back other) (blanks : ∀ c, isBlank c = true → p c = false)
    (ends : ∀ c ∈ back.head?, p c = false) : ∀ c ∈ other.head?, p c = false := by
  intro c head
  rcases meets c head with blank | same
  · exact blanks c blank
  · exact ends c same

theorem of_takeWhile {p : Char → Bool} (taken : (run ++ back).takeWhile p = run) :
    (∀ c ∈ run, p c = true) ∧ ∀ c ∈ back.head?, p c = false := by
  have whole : (run ++ back).takeWhile p ++ (run ++ back).dropWhile p = run ++ back := List.takeWhile_append_dropWhile
  have past := not_of_head_dropWhile p (run ++ back)
  rw [taken] at whole
  rw [List.append_cancel_left whole] at past
  refine ⟨fun c member => ?_, past⟩
  rw [← taken] at member
  exact List.mem_takeWhile_imp member

theorem takeWhile_meets {p : Char → Bool} (taken : (run ++ back).takeWhile p = run)
    (blanks : ∀ c, isBlank c = true → p c = false) (meets : Meets back other) :
    (run ++ other).takeWhile p = run ∧ (run ++ other).dropWhile p = other := by
  obtain ⟨all, ends⟩ := of_takeWhile taken
  exact takeWhile_run all (meets.head blanks ends)

theorem blank_not_word {c : Char} (blank : isBlank c = true) : isWordChar c = false := by
  cases word : isWordChar c with
  | false => rfl
  | true => exact absurd blank (by simp [not_isBlank_of_isWordChar word])

theorem blank_not_digit {c : Char} (blank : isBlank c = true) : c.isDigit = false := by
  have word := blank_not_word blank
  simp only [isWordChar, Bool.or_eq_false_iff] at word
  exact word.2

theorem word_meets (cut : word (run ++ back) = (kind, run)) (meets : Meets back other) :
    word (run ++ other) = (kind, run) := by
  have taken : (run ++ back).takeWhile isWordChar = run := congrArg Prod.snd cut
  obtain ⟨same, _⟩ := takeWhile_meets taken (fun _ => blank_not_word) meets
  rw [← cut]
  unfold word
  rw [taken, same]

theorem digits_meets (cut : digits (run ++ back) = run) (meets : Meets back other) : digits (run ++ other) = run := by
  have whole : (run ++ back).takeWhile Char.isDigit ++ (run ++ back).dropWhile Char.isDigit = run ++ back :=
    List.takeWhile_append_dropWhile
  by_cases pointed : ∃ more, (run ++ back).dropWhile Char.isDigit = '.' :: more
  · obtain ⟨more, left⟩ := pointed
    have integer : ∀ c ∈ (run ++ back).takeWhile Char.isDigit, c.isDigit = true := fun _ => List.mem_takeWhile_imp
    rw [digits_pointed left] at cut
    rw [left] at whole
    generalize (run ++ back).takeWhile Char.isDigit = front at cut whole integer
    subst cut
    rw [List.append_assoc] at whole
    have behind : more.takeWhile Char.isDigit ++ back = more := (List.cons.inj (List.append_cancel_left whole)).2.symm
    have taken : (more.takeWhile Char.isDigit ++ back).takeWhile Char.isDigit = more.takeWhile Char.isDigit := by
      rw [behind]
    obtain ⟨same, _⟩ := takeWhile_meets taken (fun _ => blank_not_digit) meets
    generalize more.takeWhile Char.isDigit = decimals at same
    have goesOn : (front ++ '.' :: (decimals ++ other)).takeWhile Char.isDigit = front ∧ _ :=
      takeWhile_run integer (by rintro c ⟨⟩; decide)
    rw [List.append_assoc, List.cons_append, digits_pointed goesOn.2, goesOn.1, same]
  · have bare : ∀ more, (run ++ back).dropWhile Char.isDigit ≠ '.' :: more := fun more same => pointed ⟨more, same⟩
    rw [digits_whole bare] at cut
    rw [cut] at whole
    rw [List.append_cancel_left whole] at bare
    obtain ⟨same, behind⟩ := takeWhile_meets cut (fun _ => blank_not_digit) meets
    rw [digits_whole, same]
    rw [behind]
    rintro more rfl
    rcases meets '.' rfl with blank | point
    · exact absurd blank (by decide)
    · exact bare back.tail (List.cons_head?_tail point).symm

theorem digits_beginning (cs : List Char) : digits cs <+: cs := by
  by_cases pointed : ∃ more, cs.dropWhile Char.isDigit = '.' :: more
  · obtain ⟨more, left⟩ := pointed
    have whole : cs.takeWhile Char.isDigit ++ cs.dropWhile Char.isDigit = cs := List.takeWhile_append_dropWhile
    rw [digits_pointed left]
    rw [left] at whole
    conv_rhs => rw [← whole]
    exact (List.prefix_append_right_inj _).mpr (List.cons_prefix_cons.mpr ⟨rfl, List.takeWhile_prefix _⟩)
  · rw [digits_whole fun more same => pointed ⟨more, same⟩]
    exact List.takeWhile_prefix _

theorem numeral_eq {number rest : List Char} (cut : digits (number ++ rest) = number) : numeral (number ++ rest) =
    if rest.head?.any isLetter then (.invalid, number ++ rest.takeWhile isWordChar)
    else if number.getLast? = some '.' then (.unrecognized, number) else (.number, number) := by
  unfold numeral
  rw [cut]
  dsimp only
  rw [List.drop_left]

theorem numeral_meets (cut : numeral (run ++ back) = (kind, run)) (meets : Meets back other) :
    numeral (run ++ other) = (kind, run) := by
  obtain ⟨rest, split⟩ := digits_beginning (run ++ back)
  generalize read : digits (run ++ back) = number at split
  rw [← split] at read cut
  rw [numeral_eq read] at cut
  cases letter : rest.head?.any isLetter with
  | true =>
    rw [letter, if_pos rfl] at cut
    cases cut
    rw [List.append_assoc] at split
    have behind : rest.takeWhile isWordChar ++ back = rest := (List.append_cancel_left split).symm
    have taken : (rest.takeWhile isWordChar ++ back).takeWhile isWordChar = rest.takeWhile isWordChar := by rw [behind]
    obtain ⟨same, _⟩ := takeWhile_meets taken (fun _ => blank_not_word) meets
    have first : (rest.takeWhile isWordChar ++ other).head? = rest.head? := by
      cases rest with
      | nil => cases letter
      | cons c rest =>
        have word : isWordChar c = true := by rw [isWordChar, show isLetter c = true from letter, Bool.true_or]
        rw [List.takeWhile_cons, if_pos word]
        rfl
    have meets : Meets rest (rest.takeWhile isWordChar ++ other) := fun c head => .inr (first ▸ head)
    rw [List.append_assoc, numeral_eq (digits_meets read meets), first, letter, if_pos rfl, same]
  | false =>
    rw [letter, if_neg Bool.false_ne_true] at cut
    obtain rfl : number = run := by
      split at cut <;> exact congrArg Prod.snd cut
    obtain rfl : rest = back := List.append_cancel_left split
    have ends : ∀ c ∈ rest.head?, isLetter c = false := by
      intro c head
      rw [Option.mem_def.mp head] at letter
      exact letter
    have still : other.head?.any isLetter = false := by
      cases head : other.head? with
      | none => rfl
      | some c => exact meets.head (fun _ => not_isLetter_of_isBlank) ends c head
    rw [numeral_eq (digits_meets read meets), still, if_neg Bool.false_ne_true]
    exact cut

theorem opensSign_beginning (starts : run <+: other) (opens : opensSign other = true) : opensSign run = true := by
  obtain ⟨row, among, begins⟩ := List.any_eq_true.mp opens
  exact List.any_eq_true.mpr
    ⟨row, among, List.isPrefixOf_iff_prefix.mpr (starts.trans (List.isPrefixOf_iff_prefix.mp begins))⟩

theorem opensSign_plain (opens : opensSign run = true) : ∀ c ∈ run, isBlank c = false := by
  obtain ⟨row, among, begins⟩ := List.any_eq_true.mp opens
  exact fun c member => angleSpellings_plain row among c ((List.isPrefixOf_iff_prefix.mp begins).subset member)

theorem sign_longest (cs : List Char) : ∃ run, sign cs = ((kindOf? angleSpellings run).getD .unrecognized, run) ∧
    run <+: cs ∧ opensSign run = true ∧ ∀ other, other <+: cs → opensSign other = true → other <+: run := by
  have empty : [] ∈ cs.inits.filter opensSign := by
    rw [List.mem_filter, List.mem_inits]
    exact ⟨List.nil_prefix, by decide⟩
  obtain ⟨run, last⟩ := Option.isSome_iff_exists.mp (List.getLast?_isSome.mpr (List.ne_nil_of_mem empty))
  refine ⟨run, ?_, longest_of_getLast? last⟩
  unfold sign
  rw [last]
  rfl

theorem sign_meets (cut : sign (run ++ back) = (kind, run)) (meets : Meets back other) :
    sign (run ++ other) = (kind, run) := by
  obtain ⟨_, read, _, opens, most⟩ := sign_longest (run ++ back)
  rw [cut] at read
  cases read
  obtain ⟨longer, read, starts, further, best⟩ := sign_longest (run ++ other)
  suffices longer = run by rw [read, this]
  obtain ⟨more, rfl⟩ := best run (List.prefix_append ..) opens
  obtain ⟨left, split⟩ := starts
  rw [List.append_assoc] at split
  have behind := List.append_cancel_left split
  cases more with
  | nil => exact List.append_nil _
  | cons c more =>
    subst behind
    rcases meets c rfl with blank | same
    · have plain := opensSign_plain further c (by simp)
      rw [blank] at plain
      cases plain
    · -- The sign goes on in the same way behind the run that was the longest.
      have next : run ++ [c] <+: run ++ back := by
        rw [List.prefix_append_right_inj, ← List.cons_head?_tail same]
        exact List.cons_prefix_cons.mpr ⟨rfl, List.nil_prefix⟩
      have shorter : run ++ [c] <+: run ++ c :: more := by
        rw [List.prefix_append_right_inj]
        exact List.cons_prefix_cons.mpr ⟨rfl, List.nil_prefix⟩
      have fits := (most _ next (opensSign_beginning shorter further)).length_le
      rw [List.length_append] at fits
      exact absurd fits (Nat.not_succ_le_self _)

theorem closed?_front (closed : closed? cs = some body) (other : List Char) : closed? (body ++ other) = some body := by
  fun_induction closed? cs generalizing body with
  | case1 => cases closed
  | case2 rest =>
    cases closed
    rfl
  | case3 c rest ih =>
    obtain ⟨inner, found, rfl⟩ := Option.map_eq_some_iff.mp closed
    simp [closed?, ih found]
  | case4 c rest quote escape ih =>
    obtain ⟨inner, found, rfl⟩ := Option.map_eq_some_iff.mp closed
    have further := ih found
    have backslash : c ≠ '\\' := by
      intro same
      cases rest with
      | nil => cases found
      | cons d rest => exact escape d rest same rfl
    rw [List.cons_append, closed?, further]
    · rfl
    · exact quote
    · exact fun _ _ same => absurd same backslash

theorem string_meets (cut : string (run ++ back) = (kind, '"' :: run)) (closed : kind ≠ .unrecognized) :
    string (run ++ other) = (kind, '"' :: run) := by
  unfold string at cut ⊢
  cases found : closed? (run ++ back) with
  | none =>
    rw [found] at cut
    exact absurd (congrArg Prod.fst cut).symm closed
  | some body =>
    rw [found] at cut
    cases cut
    rw [closed?_front found]

theorem char_meets (cut : char (run ++ back) = (kind, '\'' :: run)) (closed : kind ≠ .unrecognized) :
    char (run ++ other) = (kind, '\'' :: run) := by
  unfold char at cut
  split at cut
  · next c rest whole =>
    cases cut
    rfl
  · exact absurd (congrArg Prod.fst cut).symm closed
  · exact absurd (congrArg Prod.fst cut).symm closed
  · exact absurd (congrArg Prod.fst cut).symm closed
  · next c rest _ backslash quote whole =>
    cases cut
    exact char.eq_5 c other (fun _ same _ => backslash same) backslash quote
  · exact absurd (congrArg Prod.fst cut).symm closed
  · exact absurd (congrArg Prod.fst cut).symm closed

-- Which token comes first is decided by what it is and by the next character.
theorem first_meets (cut : first c (run ++ back) = (kind, c :: run))
    (closed : kind = .unrecognized → c ≠ '"' ∧ c ≠ '\'') (meets : Meets back other) :
    first c (run ++ other) = (kind, c :: run) := by
  unfold first at cut ⊢
  split at cut
  · next letter =>
    rw [if_pos letter]
    have cut : word ((c :: run) ++ back) = (kind, c :: run) := cut
    exact word_meets cut meets
  · next letter =>
    rw [if_neg letter]
    split at cut
    · next digit =>
      rw [if_pos digit]
      have cut : numeral ((c :: run) ++ back) = (kind, c :: run) := cut
      exact numeral_meets cut meets
    · next digit =>
      rw [if_neg digit]
      split at cut
      · next angle =>
        rw [if_pos angle]
        have cut : sign ((c :: run) ++ back) = (kind, c :: run) := cut
        exact sign_meets cut meets
      · next angle =>
        rw [if_neg angle]
        split at cut
        · next quote =>
          subst quote
          exact string_meets cut fun unknown => (closed unknown).1 rfl
        · next quote =>
          rw [if_neg quote]
          split at cut
          · next quote =>
            subst quote
            exact char_meets cut fun unknown => (closed unknown).2 rfl
          · next quote =>
            rw [if_neg quote]
            exact cut

end

theorem tokens_blanks (blanks : ∀ c ∈ front, isBlank c = true) (cs : List Char) : tokens (front ++ cs) = tokens cs := by
  induction front with
  | nil => rfl
  | cons c front ih =>
    obtain ⟨blank, further⟩ := List.forall_mem_cons.mp blanks
    rw [List.cons_append, tokens, if_pos blank]
    exact ih further

theorem tokens_cut (plain : isBlank c = false) (cut : first c (run ++ back) = (kind, c :: run)) :
    tokens (c :: (run ++ back)) = (kind, c :: run) :: tokens back := by
  rw [tokens, plain, if_neg Bool.false_ne_true, cut, List.length_cons, Nat.add_sub_cancel, List.drop_left]

theorem first_head (plain : isBlank c = false) (rest : List Char) : ∃ run, (first c rest).2 = c :: run := by
  have fresh : Scanner.initial.Fresh := ⟨rfl, rfl⟩
  have yields : Scanner.initial.Yields (c :: rest) (first c rest) := yields_first fresh plain
  obtain ⟨back, full, whole, _⟩ := yields
  obtain ⟨d, run, cut⟩ := List.exists_cons_of_ne_nil full
  rw [cut] at whole
  exact ⟨run, by rw [cut, (List.cons.inj whole).1]⟩

theorem tokens_head (among : cut ∈ tokens cs) : ∀ c ∈ cut.2.head?, isBlank c = false := by
  induction cs using tokens.induct with
  | case1 =>
    rw [tokens] at among
    cases among
  | case2 c rest skipped ih =>
    rw [tokens, if_pos skipped] at among
    exact ih among
  | case3 c rest full ih =>
    rw [tokens, if_neg full] at among
    rcases List.mem_cons.mp among with rfl | later
    · have plain : isBlank c = false := by simpa using full
      obtain ⟨run, cut⟩ := first_head plain rest
      rw [cut]
      rintro _ ⟨⟩
      exact plain
    · exact ih later

theorem of_tokens_cons (read : tokens (c :: (run ++ back)) = (kind, c :: run) :: more) :
    isBlank c = false ∧ first c (run ++ back) = (kind, c :: run) ∧ more = tokens back := by
  have plain : isBlank c = false := tokens_head (read ▸ List.mem_cons_self ..) c rfl
  have cut : first c (run ++ back) = (kind, c :: run) := by
    rw [tokens, plain, if_neg Bool.false_ne_true] at read
    exact (List.cons.inj read).1
  rw [tokens_cut plain cut] at read
  exact ⟨plain, cut, (List.cons.inj read).2.symm⟩

end Lexical

-- A literal that was never closed, or a quote that nothing follows.
def Token.Unclosed (token : Token) : Prop :=
  token.kind = .unrecognized ∧ (token.lexeme.toList.head? = some '"' ∨ token.lexeme.toList.head? = some '\'')

instance (token : Token) : Decidable token.Unclosed := inferInstanceAs (Decidable (_ ∧ _))

-- The text that has something in front and then tokens, each with what stands behind it.
def weave (lead : String) : List (Token × String) → String
  | [] => lead
  | (token, gap) :: rows => lead ++ token.lexeme ++ weave gap rows

-- Tokens of a text with other blanks around them. Only tokens that touched each other may touch.
structure Respaces (tokens : List Token) (lead : String) (rows : List (Token × String)) : Prop where
  tokens : rows.map Prod.fst = tokens
  lead : ∀ c ∈ lead.toList, isBlank c = true
  gaps : ∀ row ∈ rows, ∀ c ∈ row.2.toList, isBlank c = true
  parted : rows.IsChain fun row next => row.1.span.stop.offset < next.1.span.start.offset → row.2 ≠ ""

theorem weave_lead (lead : String) (rows : List (Token × String)) : weave lead rows = lead ++ weave "" rows := by
  cases rows with
  | nil => exact (String.append_empty ..).symm
  | cons row rows => simp only [weave, String.empty_append, String.append_assoc]

theorem Respaces.behind {tokens : List Token} {lead : String} (respaces : Respaces (token :: tokens) lead rows) :
    ∃ gap later, rows = (token, gap) :: later ∧ Respaces tokens gap later ∧
    ∀ next ∈ later.head?, token.span.stop.offset < next.1.span.start.offset → gap ≠ "" := by
  obtain ⟨⟨_, gap⟩, later, rfl, rfl, same⟩ := List.map_eq_cons_iff.mp respaces.tokens
  obtain ⟨blank, blanks⟩ := List.forall_mem_cons.mp respaces.gaps
  obtain ⟨here, further⟩ := List.isChain_cons.mp respaces.parted
  exact ⟨gap, later, rfl, ⟨same, blank, blanks, further⟩, here⟩

namespace Covers

theorem meets (covers : Covers here cs tokens) (blanks : ∀ c ∈ gap.toList, isBlank c = true)
    (same : rows.map Prod.fst = tokens)
    (parted : ∀ next ∈ rows.head?, here.offset < next.1.span.start.offset → gap ≠ "") :
    Lexical.Meets cs (weave gap rows).toList := by
  intro c head
  rw [weave_lead, String.toList_append] at head
  cases front : gap.toList with
  | cons d ds =>
    rw [front] at head
    obtain rfl : d = c := by simpa using head
    exact .inl (blanks d (front ▸ List.mem_cons_self ..))
  | nil =>
    rw [front, List.nil_append] at head
    cases rows with
    | nil => cases head
    | cons row rows =>
      obtain ⟨token, behind⟩ := row
      have touching : ¬ here.offset < token.span.start.offset := fun apart =>
        parted (token, behind) rfl apart (String.toList_eq_nil_iff.mp front)
      rw [List.map_cons] at same
      subst same
      cases covers with
      | @skip d _ _ _ blank rest =>
        have further := rest.ordered.1 token (List.mem_cons_self ..)
        have wide := Char.utf8Size_pos d
        rw [Location.next_offset] at further
        omega
      | @cut lexeme _ _ _ kind full rest =>
        obtain ⟨d, run, rfl⟩ := List.exists_cons_of_ne_nil full
        refine .inr ?_
        simpa [weave] using head

-- The same tokens are cut from a text with other blanks between them.
theorem respaced (covers : Covers here cs tokens)
    (entries : tokens.map Token.entry = (Lexical.tokens cs).map fun cut => (cut.1, String.ofList cut.2))
    (closed : ∀ token ∈ tokens, ¬ token.Unclosed) (respaces : Respaces tokens lead rows) :
    Lexical.tokens (weave lead rows).toList = Lexical.tokens cs := by
  induction covers generalizing lead rows with
  | done =>
    obtain rfl := List.map_eq_nil_iff.mp respaces.tokens
    rw [weave, ← List.append_nil lead.toList, Lexical.tokens_blanks respaces.lead]
  | skip blank _ ih =>
    rw [Lexical.tokens, if_pos blank] at entries ⊢
    exact ih entries closed respaces
  | @cut lexeme cs tokens here kind full rest ih =>
    obtain ⟨c, run, rfl⟩ := List.exists_cons_of_ne_nil full
    obtain ⟨found, more, read, entry, others⟩ := List.map_eq_cons_iff.mp entries.symm
    obtain rfl : found = (kind, c :: run) := by
      obtain ⟨one, two⟩ := Prod.mk.inj entry
      exact Prod.ext one (String.ofList_injective two)
    obtain ⟨plain, cut, rfl⟩ := Lexical.of_tokens_cons read
    obtain ⟨gap, later, rfl, behind, parted⟩ := respaces.behind
    obtain ⟨unclosed, closed⟩ := List.forall_mem_cons.mp closed
    have plainOpening : kind = .unrecognized → c ≠ '"' ∧ c ≠ '\'' := by
      intro unknown
      refine ⟨fun quote => unclosed ⟨unknown, .inl ?_⟩, fun quote => unclosed ⟨unknown, .inr ?_⟩⟩
      · rw [String.toList_ofList, quote, List.head?_cons]
      · rw [String.toList_ofList, quote, List.head?_cons]
    -- The blanks behind the token end it, or it is followed by what it was followed by.
    have cut' := Lexical.first_meets cut plainOpening (rest.meets behind.lead behind.tokens parted)
    have whole : (weave lead ((⟨kind, ⟨here, here.after (c :: run)⟩, .ofList (c :: run)⟩, gap) :: later)).toList =
        lead.toList ++ c :: (run ++ (weave gap later).toList) := by
      simp [weave]
    rw [whole, Lexical.tokens_blanks respaces.lead, Lexical.tokens_cut plain cut', ih others.symm closed behind]
    exact read.symm

end Covers

theorem tokenize_weave {text : String} (closed : ∀ token ∈ tokenize text, ¬ token.Unclosed)
    (respaces : Respaces (tokenize text) lead rows) :
    (tokenize (weave lead rows)).map Token.entry = (tokenize text).map Token.entry := by
  have entries := (tokenize_scanned text).2
  rw [(tokenize_scanned (weave lead rows)).2, (tokenize_covers text).respaced entries closed respaces, entries]

def spaced : List Token → List (Token × String)
  | [] => []
  | [token] => [(token, "")]
  | token :: next :: rest => (token, " ") :: spaced (next :: rest)

theorem respaces_spaced (tokens : List Token) : Respaces tokens "" (spaced tokens) where
  tokens := by
    fun_induction spaced tokens with
    | case1 => rfl
    | case2 token => rfl
    | case3 token next rest ih => rw [List.map_cons, ih]
  lead := by simp
  gaps := by
    fun_induction spaced tokens with
    | case1 => simp
    | case2 token => simp
    | case3 token next rest ih => exact List.forall_mem_cons.mpr ⟨by simp [isBlank], ih⟩
  parted := by
    fun_induction spaced tokens with
    | case1 => exact .nil
    | case2 token => exact .singleton _
    | case3 token next rest ih => exact List.isChain_cons.mpr ⟨fun _ _ _ => by simp, ih⟩

theorem weave_spaced (tokens : List Token) : weave "" (spaced tokens) = " ".intercalate (tokens.map Token.lexeme) := by
  fun_induction spaced tokens with
  | case1 => rfl
  | case2 token => simp [weave]
  | case3 token next rest ih =>
    rw [weave, weave_lead, ih, String.empty_append, List.map_cons, List.map_cons, List.map_cons,
      String.intercalate_cons_cons, String.append_assoc]

end FishLang
