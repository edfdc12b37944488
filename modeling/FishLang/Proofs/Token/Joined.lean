import FishLang.Proofs.Token.Respace

namespace FishLang

namespace Lexical

section
variable {run back other : List Char}

-- The quote that opens a literal is not closed: what is told of other tokens by `first_meets` fails.
theorem string_unclosed (cut : string (run ++ back) = (.unrecognized, '"' :: run)) : back = [] := by
  unfold string at cut
  split at cut
  · cases cut
  · have whole : run ++ back = run := (List.cons.inj (congrArg Prod.snd cut)).2
    exact List.append_right_eq_self.mp whole

theorem char_unclosed (cut : char (run ++ back) = (.unrecognized, '\'' :: run))
    (same : other = [] ∨ back ≠ [] ∧ other.head? = back.head?) : char (run ++ other) = (.unrecognized, '\'' :: run) := by
  have open_ : ∀ more, (∀ rest, back = '\'' :: rest → False) → other = '\'' :: more → False := by
    rintro more apart rfl
    rcases same with none | ⟨_, first⟩
    · cases none
    · exact apart back.tail (List.cons_head?_tail first.symm).symm
  unfold char at cut
  split at cut
  · cases cut
  · next c rest apart whole =>
    obtain rfl : run = ['\\', c] := (List.cons.inj (congrArg Prod.snd cut)).2.symm
    obtain rfl : back = rest := (List.cons.inj (List.cons.inj whole).2).2
    exact char.eq_2 c other fun more => open_ more apart
  · next whole =>
    obtain rfl : run = ['\\'] := (List.cons.inj (congrArg Prod.snd cut)).2.symm
    obtain rfl : back = [] := (List.cons.inj whole).2
    obtain rfl : other = [] := same.resolve_right fun both => both.1 rfl
    rfl
  · next rest whole =>
    obtain rfl : run = [] := (List.cons.inj (congrArg Prod.snd cut)).2.symm
    rcases same with rfl | ⟨_, first⟩
    · rfl
    · obtain rfl : back = '\'' :: rest := whole
      rw [List.nil_append, ← List.cons_head?_tail (a := '\'') first]
      rfl
  · cases cut
  · next c rest _ escaped ended quote apart whole =>
    obtain rfl : run = [c] := (List.cons.inj (congrArg Prod.snd cut)).2.symm
    obtain rfl : back = rest := (List.cons.inj whole).2
    have backslash : c ≠ '\\' := by
      intro escape
      cases back with
      | nil => exact ended escape rfl
      | cons d back => exact escaped d back escape rfl
    exact char.eq_6 c other (fun _ _ same _ => backslash same) (fun _ _ same _ => backslash same)
      (fun same _ => backslash same) quote fun more => open_ more apart
  · next whole =>
    obtain ⟨rfl, rfl⟩ := List.append_eq_nil_iff.mp whole
    obtain rfl : other = [] := same.resolve_right fun both => both.1 rfl
    rfl

-- A token is cut off in the same way at the end of a text, and before anything that starts like what it was before.
theorem first_joined (cut : first c (run ++ back) = (kind, c :: run))
    (same : other = [] ∨ back ≠ [] ∧ other.head? = back.head?) : first c (run ++ other) = (kind, c :: run) := by
  have meets : Meets back other := by
    rcases same with rfl | ⟨_, first⟩
    · exact nofun
    · exact fun d head => .inr (first ▸ head)
  by_cases unclosed : kind = .unrecognized ∧ (c = '"' ∨ c = '\'')
  · obtain ⟨rfl, rfl | rfl⟩ := unclosed
    · obtain rfl : back = [] := string_unclosed cut
      obtain rfl : other = [] := same.resolve_right fun both => both.1 rfl
      exact cut
    · exact char_unclosed cut same
  · exact first_meets cut (fun unknown => not_or.mp fun quote => unclosed ⟨unknown, quote⟩) meets

end

theorem first_split (plain : isBlank c = false) (rest : List Char) :
    ∃ kind run back, rest = run ++ back ∧ first c rest = (kind, c :: run) := by
  have fresh : Scanner.initial.Fresh := ⟨rfl, rfl⟩
  have yields : Scanner.initial.Yields (c :: rest) (first c rest) := yields_first fresh plain
  obtain ⟨back, full, whole, _⟩ := yields
  obtain ⟨d, run, cut⟩ := List.exists_cons_of_ne_nil full
  rw [cut] at whole
  obtain ⟨rfl, rfl⟩ := List.cons.inj whole
  exact ⟨_, run, back, rfl, Prod.ext rfl cut⟩

theorem tokens_alone : ∀ cut ∈ tokens cs, tokens cut.2 = [cut] := by
  refine forall_mem_tokens fun c rest plain => ?_
  obtain ⟨kind, run, back, rfl, cut⟩ := first_split plain rest
  have alone := first_joined cut (.inl rfl)
  have whole := tokens_cut plain alone
  rw [List.append_nil, tokens] at whole
  rw [cut]
  exact whole

-- Tokens that can be joined two by two can all be joined.
theorem tokens_joined {cuts : List (Kind × List Char)} (alone : ∀ cut ∈ cuts, tokens cut.2 = [cut])
    (pairs : cuts.IsChain fun cut next => tokens (cut.2 ++ next.2) = [cut, next]) :
    tokens (cuts.flatMap Prod.snd) = cuts := by
  induction cuts with
  | nil => rw [List.flatMap_nil, tokens]
  | cons cut cuts ih =>
    obtain ⟨here, further⟩ := List.forall_mem_cons.mp alone
    obtain ⟨meets, later⟩ := List.isChain_cons.mp pairs
    have rest := ih further later
    cases cuts with
    | nil => rw [List.flatMap_singleton, here]
    | cons next cuts =>
      have pair := meets next rfl
      obtain ⟨kind, lexeme⟩ := cut
      cases lexeme with
      | nil =>
        rw [tokens] at here
        cases here
      | cons c run =>
        obtain ⟨plain, cut, _⟩ := of_tokens_cons pair
        have full : next.2 ≠ [] := by
          intro empty
          have one := further next (List.mem_cons_self ..)
          rw [empty, tokens] at one
          cases one
        have joined : first c (run ++ (next :: cuts).flatMap Prod.snd) = (kind, c :: run) := by
          refine first_joined cut (.inr ⟨full, ?_⟩)
          rw [List.flatMap_cons, List.head?_append_of_ne_nil _ full]
        rw [List.flatMap_cons, List.cons_append, tokens_cut plain joined, rest]

end Lexical

theorem Covers.filter_plain (covers : Covers here cs tokens)
    (solid : ∀ token ∈ tokens, ∀ c ∈ token.lexeme.toList, isBlank c = false) :
    cs.filter (!isBlank ·) = tokens.flatMap fun token => token.lexeme.toList := by
  induction covers with
  | done => rfl
  | skip blank _ ih => rw [List.filter_cons_of_neg (by simpa using blank), ih solid]
  | @cut lexeme cs tokens here kind _ _ ih =>
    obtain ⟨plain, further⟩ := List.forall_mem_cons.mp solid
    simp only [String.toList_ofList] at plain
    rw [List.filter_append, ih further, List.flatMap_cons, String.toList_ofList,
      List.filter_eq_self.mpr fun c member => by rw [plain c member]; rfl]

theorem tokens_tokenize (text : String) :
    Lexical.tokens text.toList = (tokenize text).map fun token => (token.kind, token.lexeme.toList) := by
  have entries := congrArg (List.map fun entry : Kind × String => (entry.1, entry.2.toList))
    (tokenize_scanned text).2
  simpa [Token.entry, Function.comp_def] using entries.symm

theorem tokenize_joined {text joined : String}
    (whole : joined.toList = (tokenize text).flatMap fun token => token.lexeme.toList)
    (apart : (tokenize text).IsChain fun token next =>
      (tokenize (token.lexeme ++ next.lexeme)).map Token.entry = [token.entry, next.entry]) :
    (tokenize joined).map Token.entry = (tokenize text).map Token.entry := by
  have pairs : (Lexical.tokens text.toList).IsChain fun cut next => Lexical.tokens (cut.2 ++ next.2) = [cut, next] := by
    rw [tokens_tokenize, List.isChain_map]
    refine apart.imp fun token next entries => ?_
    have read := tokens_tokenize (token.lexeme ++ next.lexeme)
    rw [String.toList_append] at read
    rw [read]
    have views := congrArg (List.map fun entry : Kind × String => (entry.1, entry.2.toList)) entries
    simpa [Token.entry, Function.comp_def] using views
  have lexemes : (Lexical.tokens text.toList).flatMap Prod.snd = joined.toList := by
    rw [whole, tokens_tokenize, List.flatMap_map]
  have joinable := Lexical.tokens_joined Lexical.tokens_alone pairs
  rw [lexemes] at joinable
  rw [(tokenize_scanned joined).2, (tokenize_scanned text).2, joinable]

end FishLang
