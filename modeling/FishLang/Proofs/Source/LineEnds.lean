import FishLang.Proofs.Source.Pieces

namespace FishLang

def unified (source : String) : String := .ofList (unifyLineEnds source.toList)

section
variable {c : Char} {cs : List Char}

theorem unifyLineEnds_cons (other : c ≠ '\r') : unifyLineEnds (c :: cs) = c :: unifyLineEnds cs :=
  unifyLineEnds.eq_4 c cs (fun _ same => absurd same other) other

theorem unifyLineEnds_pair (paired : cs.head? = some '\n') : unifyLineEnds ('\r' :: cs) = unifyLineEnds cs := by
  obtain ⟨rest, rfl⟩ := List.head?_eq_some_iff.mp paired
  rfl

theorem unifyLineEnds_lone (lone : cs.head? ≠ some '\n') : unifyLineEnds ('\r' :: cs) = '\n' :: unifyLineEnds cs := by
  refine unifyLineEnds.eq_3 cs ?_
  rintro rest rfl
  exact lone rfl

theorem unifyLineEnds_plain_text (plain : '\r' ∉ cs) : unifyLineEnds cs = cs := by
  induction cs with
  | nil => rfl
  | cons c cs ih =>
    obtain ⟨other, plain⟩ := not_or.mp (List.mem_cons.not.mp plain)
    rw [unifyLineEnds_cons (Ne.symm other), ih plain]

theorem head?_unifyLineEnds (first : c ≠ '\r') (other : c ≠ '\n') :
    (unifyLineEnds cs).head? = some c ↔ cs.head? = some c := by
  fun_cases unifyLineEnds cs with
  | case1 => rfl
  | case2 | case3 => simp [first.symm, other.symm]
  | case4 => rfl

theorem count_unifyLineEnds_le (c : Char) (cs : List Char) :
    (unifyLineEnds cs).count '\n' ≤ (unifyLineEnds (c :: cs)).count '\n' ∧
      (unifyLineEnds (c :: cs)).count '\n' ≤ (unifyLineEnds cs).count '\n' + 1 := by
  by_cases return_ : c = '\r'
  · subst return_
    by_cases paired : cs.head? = some '\n'
    · rw [unifyLineEnds_pair paired]
      omega
    · rw [unifyLineEnds_lone paired, List.count_cons_self]
      omega
  · rw [unifyLineEnds_cons return_, List.count_cons]
    split <;> omega

end

namespace Comment

section
variable {c : Char} {rest : List Char} {tilde : Bool}

-- Behind the place both ways round come to the same.
def Settles (place : Place) (cs : List Char) : Prop :=
  unifyLineEnds (remove .preserve place cs) = remove .preserve place (unifyLineEnds cs)

-- Taking out comments first may lose line ends, and never makes one.
theorem count_unify_remove_le (place : Place) (cs : List Char) :
    (unifyLineEnds (remove .preserve place cs)).count '\n' ≤ (unifyLineEnds cs).count '\n' := by
  fun_induction remove .preserve place cs with
  | case1 => exact Nat.le_refl _
  | case2 rest ih => simpa [unifyLineEnds_cons] using ih
  | case3 rest ih => simpa [unifyLineEnds_cons] using ih
  | case4 c rest _ _ ih =>
    by_cases return_ : c = '\r'
    · subst return_
      by_cases paired : rest.head? = some '\n'
      · obtain ⟨more, rfl⟩ := List.head?_eq_some_iff.mp paired
        rwa [unifyLineEnds_pair paired, unifyLineEnds_pair (by rw [remove_newline]; rfl)]
      · have one := (count_unifyLineEnds_le '\r' (remove .preserve .code rest)).2
        rw [unifyLineEnds_lone paired, List.count_cons_self]
        omega
    · rw [unifyLineEnds_cons return_, unifyLineEnds_cons return_, List.count_cons, List.count_cons]
      omega
  | case5 tilde c rest ih =>
    rw [residue_preserve]
    split
    · next newline =>
      subst newline
      rw [List.singleton_append, unifyLineEnds_cons (by decide), unifyLineEnds_cons (by decide), List.count_cons_self,
        List.count_cons_self]
      omega
    · exact ih.trans (count_unifyLineEnds_le c rest).1
  | case6 rest ih =>
    rw [unifyLineEnds_cons (by decide), unifyLineEnds_cons (by decide), List.count_cons_self, List.count_cons_self]
    omega
  | case7 c rest _ ih => exact ih.trans (count_unifyLineEnds_le c rest).1

theorem unify_remove_ne_newline (place other : Place) (cs : List Char) :
    unifyLineEnds (remove .preserve place cs) ≠ '\n' :: remove .preserve other (unifyLineEnds cs) := by
  intro same
  have fewer := count_unify_remove_le place cs
  rw [same, List.count_cons_self, count_remove] at fewer
  omega

theorem opens_cons : Opens (c :: rest) ↔ (c = '<' ∨ c = '~') ∧ rest.head? = some '~' := by
  cases rest <;> simp [Opens, eq_comm, or_and_right]

theorem settles_code_cons (other : c ≠ '\r') (plain : ¬ Opens (c :: rest)) :
    Settles .code (c :: rest) ↔ Settles .code rest := by
  have plain' : ¬ Opens (c :: unifyLineEnds rest) := by
    rwa [opens_cons, head?_unifyLineEnds (by decide) (by decide), ← opens_cons]
  rw [Settles, remove_code_cons .preserve plain, unifyLineEnds_cons other, unifyLineEnds_cons other,
    remove_code_cons .preserve plain', List.cons_inj_right, Settles]

theorem remove_return (rest : List Char) :
    remove .preserve .code ('\r' :: rest) = '\r' :: remove .preserve .code rest :=
  remove_code_cons .preserve fun opens => absurd (opens_cons.mp opens).1 (by decide)

theorem settles_code_return : Settles .code ('\r' :: rest) ↔
    (rest.head? = some '\n' ∨ (remove .preserve .code rest).head? ≠ some '\n') ∧ Settles .code rest := by
  by_cases paired : rest.head? = some '\n'
  · obtain ⟨more, rfl⟩ := List.head?_eq_some_iff.mp paired
    have next : (remove .preserve .code ('\n' :: more)).head? = some '\n' := by rw [remove_newline, List.head?_cons]
    rw [Settles, remove_return, unifyLineEnds_pair next, unifyLineEnds_pair paired, Settles]
    simp
  · rw [Settles, remove_return, unifyLineEnds_lone paired, remove_newline]
    by_cases joined : (remove .preserve .code rest).head? = some '\n'
    · rw [unifyLineEnds_pair joined]
      simp [paired, joined, unify_remove_ne_newline]
    · rw [unifyLineEnds_lone joined, List.cons_inj_right, Settles]
      simp [joined]

theorem settles_block_cons (other : c ≠ '\r') : Settles (.block tilde) (c :: rest) ↔
    Settles (if tilde && c == '>' then .code else .block (c == '~')) rest := by
  rw [Settles, Settles, unifyLineEnds_cons other, remove, remove, residue_preserve]
  split
  · rw [List.singleton_append, List.singleton_append, unifyLineEnds_cons (by decide), List.cons_inj_right]
  · rfl

theorem settles_comment_return {place next after : Place}
    (taken : ∀ cs, remove .preserve place ('\r' :: cs) = remove .preserve next cs)
    (kept : ∀ cs, remove .preserve place ('\n' :: cs) = '\n' :: remove .preserve after cs)
    (kept' : ∀ cs, remove .preserve next ('\n' :: cs) = '\n' :: remove .preserve after cs) :
    Settles place ('\r' :: rest) ↔ rest.head? = some '\n' ∧ Settles next rest := by
  rw [Settles, taken]
  by_cases paired : rest.head? = some '\n'
  · obtain ⟨more, rfl⟩ := List.head?_eq_some_iff.mp paired
    rw [unifyLineEnds_pair paired, Settles, unifyLineEnds_cons (by decide), kept, kept', kept']
    simp
  · rw [unifyLineEnds_lone paired, kept]
    simp [paired, unify_remove_ne_newline]

theorem settles_block_return : Settles (.block tilde) ('\r' :: rest) ↔
    rest.head? = some '\n' ∧ Settles (.block false) rest := by
  cases tilde <;> exact settles_comment_return (fun _ => rfl) (fun _ => rfl) fun _ => rfl

theorem settles_line_return : Settles .line ('\r' :: rest) ↔ rest.head? = some '\n' ∧ Settles .line rest :=
  settles_comment_return (fun _ => rfl) (fun _ => rfl) fun _ => rfl

theorem settles_line_cons (other : c ≠ '\n') (plain : c ≠ '\r') : Settles .line (c :: rest) ↔ Settles .line rest := by
  rw [Settles, unifyLineEnds_cons plain, remove.eq_7 .preserve c _ other, remove.eq_7 .preserve c _ other, Settles]

end

-- A return of the piece that has no newline at once behind it is spared if it stands in code and no newline is left at
-- once behind it.
def Piece.Spares (behind left : List Char) : Piece → Prop
  | .code text => EachReturn (fun after => (after ++ behind).head? = some '\n' ∨ (after ++ left).head? ≠ some '\n') text
  | .block text | .line text => EachReturn (fun after => (after ++ behind).head? = some '\n') text

def Spared : List Piece → Prop
  | [] => True
  | piece :: later => piece.Spares (later.flatMap Piece.text) (later.flatMap (Piece.left .preserve)) ∧ Spared later

section
variable {front behind body cs rest : List Char}

theorem eachReturn_nil {holds : List Char → Prop} : EachReturn holds [] := by simp [EachReturn]

theorem eachReturn_append {holds : List Char → Prop} {back : List Char} : EachReturn holds (front ++ back) ↔
    EachReturn (fun after => holds (after ++ back)) front ∧ EachReturn holds back := by
  induction front with
  | nil => simp [eachReturn_nil]
  | cons c front ih => rw [List.cons_append, eachReturn_cons, eachReturn_cons, ih, and_assoc]

theorem settles_nil (place : Place) : Settles place [] := by cases place <;> rfl

theorem settles_clear (clear : Clear front behind) : Settles .code (front ++ behind) ↔
    (Piece.code front).Spares behind (remove .preserve .code behind) ∧ Settles .code behind := by
  induction front with
  | nil => simp [Piece.Spares, eachReturn_nil]
  | cons c front ih =>
    obtain ⟨plain, further⟩ := clear_cons.mp clear
    rw [Piece.Spares, eachReturn_cons, List.cons_append]
    by_cases return_ : c = '\r'
    · subst return_
      rw [settles_code_return, ih further, remove_clear .preserve further]
      simp [Piece.Spares, and_assoc]
    · rw [settles_code_cons return_ plain, ih further]
      simp [return_, Piece.Spares]

theorem settles_body (behind : List Char) (tilde : Bool) (none : ¬ ['~', '>'] <:+: (if tilde then ['~'] else []) ++ body) :
    Settles (.block tilde) (body ++ behind) ↔ EachReturn (fun after => (after ++ behind).head? = some '\n') body ∧
      Settles (.block (body.foldl (fun _ c => c == '~') tilde)) behind := by
  induction body generalizing tilde with
  | nil => simp [eachReturn_nil]
  | cons c body ih =>
    obtain ⟨stays, further⟩ := inside_cons none
    rw [eachReturn_cons, List.cons_append, List.foldl_cons]
    by_cases return_ : c = '\r'
    · subst return_
      rw [settles_block_return, show Place.block false = .block ('\r' == '~') from rfl, ih _ further, and_assoc]
      simp
    · rw [settles_block_cons return_, stays, if_neg Bool.false_ne_true, ih _ further]
      simp [return_]

theorem settles_line (single : '\n' ∉ body) : Settles .line (body ++ behind) ↔
    EachReturn (fun after => (after ++ behind).head? = some '\n') body ∧ Settles .line behind := by
  induction body with
  | nil => simp [eachReturn_nil]
  | cons c body ih =>
    obtain ⟨other, further⟩ := not_or.mp (List.mem_cons.not.mp single)
    rw [eachReturn_cons, List.cons_append]
    by_cases return_ : c = '\r'
    · subst return_
      rw [settles_line_return, ih further, and_assoc]
      simp
    · rw [settles_line_cons (Ne.symm other) return_, ih further]
      simp [return_]

theorem settles_line_end (next : ∀ c ∈ rest.head?, c = '\n') : Settles .line rest ↔ Settles .code rest := by
  have next' : ∀ c ∈ (unifyLineEnds rest).head?, c = '\n' := by
    cases rest with
    | nil => exact next
    | cons c rest =>
      obtain rfl := next c rfl
      simp [unifyLineEnds_cons]
  rw [Settles, Settles, remove_line_end .preserve next, remove_line_end .preserve next']

theorem settles_opening : Settles .code ('<' :: '~' :: cs) ↔ Settles (.block false) cs := by
  rw [Settles, unifyLineEnds_cons (by decide), unifyLineEnds_cons (by decide), remove, remove, Settles]

theorem settles_line_opening : Settles .code ('~' :: '~' :: cs) ↔ Settles .line cs := by
  rw [Settles, unifyLineEnds_cons (by decide), unifyLineEnds_cons (by decide), remove, remove, Settles]

theorem settles_ends (ends : Ends comment rest) (left : List Char) :
    Settles .code (comment.text ++ rest) ↔ comment.Spares rest left ∧ Settles .code rest := by
  cases ends with
  | @closed body _ none =>
    have inside := settles_body ('>' :: rest) false none
    have closing : Settles (.block true) ('>' :: rest) ↔ Settles .code rest := settles_block_cons (by decide)
    have whole : body ++ ['~', '>'] = body ++ ['~'] ++ ['>'] := by simp
    rw [Piece.text, Piece.Spares, List.cons_append, List.cons_append, settles_opening, eachReturn_cons, eachReturn_cons,
      whole, eachReturn_append, eachReturn_cons]
    simpa [closing, eachReturn_nil] using inside
  | @unclosed body none =>
    have inside := settles_body [] false none
    rw [Piece.text, Piece.Spares, List.cons_append, List.cons_append, settles_opening, eachReturn_cons, eachReturn_cons]
    simpa [settles_nil] using inside
  | @line body _ single next =>
    rw [← settles_line_end next, Piece.text, Piece.Spares, List.cons_append, List.cons_append, settles_line_opening,
      settles_line single, eachReturn_cons, eachReturn_cons]
    simp

-- Both ways round come to the same where every return is spared.
theorem settles_divides (divides : Divides cs pieces) : Settles .code cs ↔ Spared pieces := by
  induction divides with
  | @last cs clear =>
    have all := settles_clear clear
    simpa [Spared, settles_nil, remove] using all
  | @next front rest comment pieces clear ends further ih =>
    have left : remove .preserve .code (comment.text ++ rest) =
        (comment :: pieces).flatMap (Piece.left .preserve) := by
      rw [remove_ends .preserve ends, remove_divides .preserve further, List.flatMap_cons]
    have behind : comment.text ++ rest = (comment :: pieces).flatMap Piece.text := by
      rw [List.flatMap_cons, ← further.whole]
    rw [settles_clear clear, settles_ends ends (pieces.flatMap (Piece.left .preserve)), ih, left, Spared, Spared,
      ← behind, ← further.whole]

theorem spared_of_paired {pieces : List Piece} (paired : PairedReturns (pieces.flatMap Piece.text)) :
    Spared pieces := by
  induction pieces with
  | nil => trivial
  | cons piece pieces ih =>
    obtain ⟨here, later⟩ := eachReturn_append.mp paired
    refine ⟨?_, ih later⟩
    cases piece with
    | code text => exact fun before after split => .inl (here before after split)
    | block text | line text => exact here

end

end Comment

section
variable {source : String}

theorem clean_unified_toList (source : String) :
    (clean .preserve (unified source)).toList = Comment.remove .preserve .code (unifyLineEnds source.toList) := by
  rw [clean_preserve_toList, unified, String.toList_ofList]
  refine unifyLineEnds_plain_text fun return_ => ?_
  exact unifyLineEnds_no_return _ ((Comment.remove_sublist ..).subset return_)

theorem clean_eq_unified : clean .preserve source = clean .preserve (unified source) ↔
    Comment.Settles .code source.toList := by
  rw [← String.toList_inj, clean_preserve_toList, clean_unified_toList, Comment.Settles]

theorem clean_eq_unified_of_paired (paired : PairedReturns source.toList) :
    clean .preserve source = clean .preserve (unified source) := by
  obtain ⟨pieces, divides⟩ := Comment.exists_divides source.toList
  rw [clean_eq_unified, Comment.settles_divides divides]
  rw [divides.whole] at paired
  exact Comment.spared_of_paired paired

end

-- A preserved layout does not hang on how a file ends its lines just where its carriage returns are spared.
theorem clean_preserve_unified_iff (source : String) : clean .preserve source = clean .preserve (unified source) ↔
    ∀ pieces, Comment.Divides source.toList pieces → Comment.Spared pieces := by
  obtain ⟨pieces, divides⟩ := Comment.exists_divides source.toList
  rw [clean_eq_unified, Comment.settles_divides divides]
  constructor
  · intro spared others other
    rwa [divides.unique others other]
  · intro each
    exact each pieces divides

-- A line comment in a file with carriage returns alone takes the next line with it.
def overrun : String := "a ~~ b\rc"

theorem overrun_differs : clean .preserve overrun ≠ clean .preserve (unified overrun) ∧
    clean .preserve overrun = "a " ∧ clean .preserve (unified overrun) = "a \nc" := by decide

-- A return right before a comment can become one with a newline of the comment.
example : clean .preserve "a\r<~\n~>b" = "a\nb" ∧ clean .preserve (unified "a\r<~\n~>b") = "a\n\nb" := by decide

end FishLang
