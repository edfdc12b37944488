import FishLang.Source.Clean
import Mathlib.Data.List.Basic

namespace FishLang

-- Of what is behind each carriage return it holds.
def EachReturn (holds : List Char → Prop) (cs : List Char) : Prop :=
  ∀ before after, cs = before ++ '\r' :: after → holds after

theorem eachReturn_cons {holds : List Char → Prop} {c : Char} {cs : List Char} :
    EachReturn holds (c :: cs) ↔ (c = '\r' → holds cs) ∧ EachReturn holds cs := by
  constructor
  · intro each
    refine ⟨?_, fun before after split => each (c :: before) after (congrArg (c :: ·) split)⟩
    rintro rfl
    exact each [] cs rfl
  · intro each before after split
    cases before with
    | nil =>
      obtain ⟨rfl, rfl⟩ := List.cons.inj split
      exact each.1 rfl
    | cons d before => exact each.2 before after (List.cons.inj split).2

-- Every carriage return has a newline at once behind it.
def PairedReturns (cs : List Char) : Prop := ∀ before after, cs = before ++ '\r' :: after → after.head? = some '\n'

theorem PairedReturns.cons_iff {c : Char} {cs : List Char} :
    PairedReturns (c :: cs) ↔ (c = '\r' → cs.head? = some '\n') ∧ PairedReturns cs := eachReturn_cons

instance PairedReturns.decidable : DecidablePred PairedReturns
  | [] => .isTrue fun before after split => by simp at split
  | _ :: cs =>
    have := PairedReturns.decidable cs
    decidable_of_iff _ PairedReturns.cons_iff.symm

theorem PairedReturns.append_left {front back : List Char} (paired : PairedReturns (front ++ back))
    (other : back.head? ≠ some '\n') : PairedReturns front := by
  rintro before after rfl
  have next := paired before (after ++ back) (List.append_assoc ..)
  cases after with
  | nil => exact absurd next other
  | cons c after => exact next

theorem cut_newline {c : Char} (other : c ≠ '\n') {cs before after : List Char}
    (cut : '\n' :: cs = before ++ c :: after) : ∃ ahead, before = '\n' :: ahead ∧ cs = ahead ++ c :: after := by
  rcases List.cons_eq_append_iff.mp cut with ⟨_, same⟩ | behind
  · exact absurd (List.cons.inj same).1 other
  · exact behind

namespace Comment

variable {before after : List Char} {c : Char}

theorem residue_preserve (c : Char) : residue .preserve c = if c = '\n' then ['\n'] else [] := by
  unfold residue
  split
  · rfl
  · next other => rw [if_neg fun newline => other rfl newline]

theorem residue_sublist (layout : Layout) (c : Char) : List.Sublist (residue layout c) [c] := by
  unfold residue
  split
  · exact List.Sublist.refl _
  · exact List.nil_sublist _

theorem remove_sublist (layout : Layout) (place : Place) (cs : List Char) :
    (remove layout place cs).Sublist cs := by
  fun_induction remove layout place cs with
  | case1 => exact .slnil
  | case2 rest ih => exact (ih.cons _).cons _
  | case3 rest ih => exact (ih.cons _).cons _
  | case4 c rest _ _ ih => exact ih.cons_cons c
  | case5 tilde c rest ih => exact (residue_sublist layout c).append ih
  | case6 rest ih => exact ih.cons_cons _
  | case7 c rest _ ih => exact ih.cons c

theorem count_remove (place : Place) (cs : List Char) : (remove .preserve place cs).count '\n' = cs.count '\n' := by
  fun_induction remove .preserve place cs with
  | case1 => rfl
  | case2 rest ih => rw [ih, List.count_cons_of_ne (by decide), List.count_cons_of_ne (by decide)]
  | case3 rest ih => rw [ih, List.count_cons_of_ne (by decide), List.count_cons_of_ne (by decide)]
  | case4 c rest _ _ ih => rw [List.count_cons, List.count_cons, ih]
  | case5 tilde c rest ih =>
    rw [residue_preserve, List.count_append, ih]
    split
    · next newline => rw [newline, List.count_singleton_self, List.count_cons_self, Nat.add_comm]
    · next other => rw [List.count_nil, Nat.zero_add, List.count_cons_of_ne other]
  | case6 rest ih => rw [List.count_cons_self, List.count_cons_self, ih]
  | case7 c rest other ih => rw [ih, List.count_cons_of_ne other]

-- A newline is never taken for a part of a comment sign.
theorem remove_newline (rest : List Char) :
    remove .preserve .code ('\n' :: rest) = '\n' :: remove .preserve .code rest :=
  remove.eq_4 .preserve '\n' rest nofun nofun

theorem remove_paired (place : Place) {cs : List Char} (paired : PairedReturns cs) :
    PairedReturns (remove .preserve place cs) := by
  fun_induction remove .preserve place cs with
  | case1 => exact paired
  | case2 rest ih => exact ih (PairedReturns.cons_iff.mp (PairedReturns.cons_iff.mp paired).2).2
  | case3 rest ih => exact ih (PairedReturns.cons_iff.mp (PairedReturns.cons_iff.mp paired).2).2
  | case4 c rest _ _ ih =>
    obtain ⟨here, further⟩ := PairedReturns.cons_iff.mp paired
    refine PairedReturns.cons_iff.mpr ⟨fun return_ => ?_, ih further⟩
    rw [← List.cons_head?_tail (here return_), remove_newline, List.head?_cons]
  | case5 tilde c rest ih =>
    have further := ih (PairedReturns.cons_iff.mp paired).2
    rw [residue_preserve]
    split
    · exact PairedReturns.cons_iff.mpr ⟨fun same => absurd same (by decide), further⟩
    · exact further
  | case6 rest ih =>
    have further := ih (PairedReturns.cons_iff.mp paired).2
    exact PairedReturns.cons_iff.mpr ⟨fun same => absurd same (by decide), further⟩
  | case7 c rest _ ih => exact ih (PairedReturns.cons_iff.mp paired).2

theorem remove_plain (place : Place) (cs : List Char) : (remove .preserve place cs).filter (!isBlank ·) =
    (remove .strip place cs).filter (!isBlank ·) := by
  fun_induction remove .preserve place cs with
  | case1 => rw [remove]
  | case2 rest ih => rw [remove, ih]
  | case3 rest ih => rw [remove, ih]
  | case4 c rest block line ih => rw [remove.eq_4 .strip c rest block line, List.filter_cons, List.filter_cons, ih]
  | case5 tilde c rest ih =>
    rw [remove, List.filter_append, ih, residue_preserve]
    split <;> rfl
  | case6 rest ih => rw [remove, List.filter_cons, List.filter_cons, ih]
  | case7 c rest other ih => rw [remove.eq_7 .strip c rest other, ih]

theorem remove_beginning {rest front back : List Char} {d : Char} (split : rest = front ++ c :: back)
    (block : ∀ more, d = '<' → rest = '~' :: more → False) (line : ∀ more, d = '~' → rest = '~' :: more → False) :
    remove .preserve .code (d :: front) = d :: remove .preserve .code front := by
  subst split
  refine remove.eq_4 .preserve d front (fun more opens same => ?_) (fun more opens same => ?_)
  · subst same
    exact block _ opens rfl
  · subst same
    exact line _ opens rfl

theorem remove_cut (other : c ≠ '\n') {place : Place} {cs : List Char}
    (cut : remove .preserve place cs = before ++ c :: after) : ∃ front back, cs = front ++ c :: back ∧
      remove .preserve place front = before ∧ remove .preserve .code (c :: back) = c :: after := by
  fun_induction remove .preserve place cs generalizing before with
  | case1 => simp at cut
  | case2 rest ih =>
    obtain ⟨front, back, rfl, left, behind⟩ := ih cut
    exact ⟨'<' :: '~' :: front, back, rfl, left, behind⟩
  | case3 rest ih =>
    obtain ⟨front, back, rfl, left, behind⟩ := ih cut
    exact ⟨'~' :: '~' :: front, back, rfl, left, behind⟩
  | case4 d rest block line ih =>
    cases before with
    | nil =>
      obtain ⟨rfl, rfl⟩ := List.cons.inj cut
      exact ⟨[], rest, rfl, rfl, remove.eq_4 .preserve d rest block line⟩
    | cons e before =>
      obtain ⟨rfl, inner⟩ := List.cons.inj cut
      obtain ⟨front, back, split, left, behind⟩ := ih inner
      refine ⟨d :: front, back, congrArg (d :: ·) split, ?_, behind⟩
      rw [remove_beginning split block line, left]
  | case5 tilde d rest ih =>
    rw [residue_preserve] at cut
    split at cut
    · next newline =>
      obtain ⟨ahead, rfl, inner⟩ := cut_newline other cut
      obtain ⟨front, back, rfl, left, behind⟩ := ih inner
      refine ⟨d :: front, back, rfl, ?_, behind⟩
      rw [remove, residue_preserve, if_pos newline, left]
      rfl
    · next different =>
      obtain ⟨front, back, rfl, left, behind⟩ := ih cut
      refine ⟨d :: front, back, rfl, ?_, behind⟩
      rw [remove, residue_preserve, if_neg different, left]
      rfl
  | case6 rest ih =>
    obtain ⟨ahead, rfl, inner⟩ := cut_newline other cut
    obtain ⟨front, back, rfl, left, behind⟩ := ih inner
    exact ⟨'\n' :: front, back, rfl, congrArg ('\n' :: ·) left, behind⟩
  | case7 d rest different ih =>
    obtain ⟨front, back, rfl, left, behind⟩ := ih cut
    refine ⟨d :: front, back, rfl, ?_, behind⟩
    rw [remove.eq_7 .preserve d front different, left]

end Comment

theorem unifyLineEnds_no_return (cs : List Char) : '\r' ∉ unifyLineEnds cs := by
  fun_induction unifyLineEnds cs with
  | case1 => simp
  | case2 rest ih => simpa using ih
  | case3 rest _ ih => simpa using ih
  | case4 c rest _ other ih => simpa using ⟨fun same => other same.symm, ih⟩

theorem unifyLineEnds_sublist {cs : List Char} (paired : PairedReturns cs) :
    (unifyLineEnds cs).Sublist cs ∧ (unifyLineEnds cs).count '\n' = cs.count '\n' := by
  fun_induction unifyLineEnds cs with
  | case1 => exact ⟨.slnil, rfl⟩
  | case2 rest ih =>
    obtain ⟨less, same⟩ := ih (PairedReturns.cons_iff.mp (PairedReturns.cons_iff.mp paired).2).2
    refine ⟨(less.cons_cons '\n').cons '\r', ?_⟩
    rw [List.count_cons_self, List.count_cons_of_ne (by decide), List.count_cons_self, same]
  | case3 rest alone ih =>
    have next := (PairedReturns.cons_iff.mp paired).1 rfl
    exact (alone _ (List.cons_head?_tail next).symm).elim
  | case4 c rest _ _ ih =>
    obtain ⟨less, same⟩ := ih (PairedReturns.cons_iff.mp paired).2
    exact ⟨less.cons_cons c, by rw [List.count_cons, List.count_cons, same]⟩

theorem unifyLineEnds_plain (cs : List Char) : (unifyLineEnds cs).filter (!isBlank ·) = cs.filter (!isBlank ·) := by
  have newline (rest : List Char) : ('\n' :: rest).filter (!isBlank ·) = rest.filter (!isBlank ·) :=
    List.filter_cons_of_neg (by decide)
  have return_ (rest : List Char) : ('\r' :: rest).filter (!isBlank ·) = rest.filter (!isBlank ·) :=
    List.filter_cons_of_neg (by decide)
  fun_induction unifyLineEnds cs with
  | case1 => rfl
  | case2 rest ih => rw [newline, return_, newline, ih]
  | case3 rest _ ih => rw [newline, return_, ih]
  | case4 c rest _ _ ih => rw [List.filter_cons, List.filter_cons, ih]

theorem unifyLineEnds_cut {c : Char} (other : c ≠ '\n') {cs before after : List Char}
    (cut : unifyLineEnds cs = before ++ c :: after) : ∃ front back, cs = front ++ c :: back ∧
      unifyLineEnds front = before ∧ unifyLineEnds (c :: back) = c :: after := by
  fun_induction unifyLineEnds cs generalizing before with
  | case1 => simp at cut
  | case2 rest ih =>
    obtain ⟨ahead, rfl, inner⟩ := cut_newline other cut
    obtain ⟨front, back, rfl, left, behind⟩ := ih inner
    exact ⟨'\r' :: '\n' :: front, back, rfl, congrArg ('\n' :: ·) left, behind⟩
  | case3 rest alone ih =>
    obtain ⟨ahead, rfl, inner⟩ := cut_newline other cut
    obtain ⟨front, back, rfl, left, behind⟩ := ih inner
    refine ⟨'\r' :: front, back, rfl, ?_, behind⟩
    rw [unifyLineEnds.eq_3, left]
    rintro more rfl
    exact alone _ rfl
  | case4 d rest pair return_ ih =>
    cases before with
    | nil =>
      obtain ⟨rfl, rfl⟩ := List.cons.inj cut
      exact ⟨[], rest, rfl, rfl, unifyLineEnds.eq_4 d rest pair return_⟩
    | cons e before =>
      obtain ⟨rfl, inner⟩ := List.cons.inj cut
      obtain ⟨front, back, rfl, left, behind⟩ := ih inner
      refine ⟨d :: front, back, rfl, ?_, behind⟩
      rw [unifyLineEnds.eq_4 d front (fun _ same => (return_ same).elim) return_, left]

theorem clean_preserve_toList (source : String) :
    (clean .preserve source).toList = unifyLineEnds (Comment.remove .preserve .code source.toList) :=
  String.toList_ofList

theorem clean_strip_toList (source : String) :
    (clean .strip source).toList = (Comment.remove .strip .code source.toList).filter (!isBlank ·) :=
  String.toList_ofList

theorem clean_plain (source : String) :
    (clean .strip source).toList = (clean .preserve source).toList.filter (!isBlank ·) := by
  rw [clean_strip_toList, clean_preserve_toList, unifyLineEnds_plain, Comment.remove_plain]

end FishLang
