import FishLang.Text.Lines
import FishLang.Text.Location
import Mathlib.Data.List.Forall2
import Mathlib.Data.List.Induction
import Mathlib.Data.String.Basic

namespace FishLang

section
variable {p : Char → Bool} {run run' back back' : List Char}

theorem takeWhile_run (all : ∀ c ∈ run, p c = true) (ends : ∀ c ∈ back.head?, p c = false) :
    (run ++ back).takeWhile p = run ∧ (run ++ back).dropWhile p = back := by
  rw [List.takeWhile_append_of_pos all, List.dropWhile_append_of_pos all]
  cases back with
  | nil => simp
  | cons c back => simp [ends c rfl]

theorem run_unique (all : ∀ c ∈ run, p c = true) (ends : ∀ c ∈ back.head?, p c = false)
    (all' : ∀ c ∈ run', p c = true) (ends' : ∀ c ∈ back'.head?, p c = false) (same : run ++ back = run' ++ back') :
    run = run' ∧ back = back' := by
  obtain ⟨taken, left⟩ := takeWhile_run all ends
  obtain ⟨taken', left'⟩ := takeWhile_run all' ends'
  rw [same] at taken left
  exact ⟨taken.symm.trans taken', left.symm.trans left'⟩

end

theorem line_cases (cs : List Char) : '\n' ∉ cs ∨ ∃ first rest, cs = first ++ '\n' :: rest ∧ '\n' ∉ first := by
  by_cases among : '\n' ∈ cs
  · exact .inr (List.eq_append_cons_of_mem among)
  · exact .inl among

theorem toList_newline : "\n".toList = ['\n'] := rfl

theorem splitLines_single {cs : List Char} (single : '\n' ∉ cs) : splitLines cs = [cs] := by
  induction cs with
  | nil => rfl
  | cons c cs ih =>
    obtain ⟨other, single⟩ := not_or.mp (List.mem_cons.not.mp single)
    rw [splitLines, if_neg (Ne.symm other), ih single]

theorem splitLines_eq_cons (cs : List Char) : ∃ first others, splitLines cs = first :: others :=
  List.exists_cons_of_ne_nil (splitLines_ne_nil cs)

theorem splitLines_cons {c : Char} (other : c ≠ '\n') {cs first : List Char} {others : List (List Char)}
    (lines : splitLines cs = first :: others) : splitLines (c :: cs) = (c :: first) :: others := by
  rw [splitLines, if_neg other, lines]

theorem splitLines_append_line (front back : List Char) :
    splitLines (front ++ '\n' :: back) = splitLines front ++ splitLines back := by
  induction front with
  | nil => rfl
  | cons c front ih =>
    by_cases newline : c = '\n'
    · rw [List.cons_append, splitLines, splitLines, if_pos newline, if_pos newline, ih, List.cons_append]
    · obtain ⟨first, others, split⟩ := splitLines_eq_cons front
      rw [List.cons_append, splitLines_cons newline split, splitLines_cons newline (ih.trans (by rw [split]; rfl))]
      rfl

theorem splitLines_append_newline {first : List Char} (single : '\n' ∉ first) (rest : List Char) :
    splitLines (first ++ '\n' :: rest) = first :: splitLines rest := by
  rw [splitLines_append_line, splitLines_single single, List.singleton_append]

theorem takeWhile_line {first : List Char} (single : '\n' ∉ first) (rest : List Char) :
    (first ++ rest).takeWhile (· ≠ '\n') = first ++ rest.takeWhile (· ≠ '\n') := by
  refine List.takeWhile_append_of_pos fun c member => decide_eq_true ?_
  rintro rfl
  exact single member

theorem takeWhile_single {cs : List Char} (single : '\n' ∉ cs) : cs.takeWhile (· ≠ '\n') = cs := by
  have line := takeWhile_line single []
  rwa [List.append_nil, List.takeWhile_nil, List.append_nil] at line

theorem takeWhile_first {first : List Char} (single : '\n' ∉ first) (rest : List Char) :
    (first ++ '\n' :: rest).takeWhile (· ≠ '\n') = first := by
  rw [takeWhile_line single, List.takeWhile_cons_of_neg (by simp), List.append_nil]

theorem splitLines_head? (cs : List Char) : (splitLines cs).head? = some (cs.takeWhile (· ≠ '\n')) := by
  rcases line_cases cs with single | ⟨first, rest, rfl, single⟩
  · rw [splitLines_single single, takeWhile_single single, List.head?_cons]
  · rw [splitLines_append_newline single, takeWhile_first single, List.head?_cons]

def lastLine (cs : List Char) : List Char := (cs.reverse.takeWhile (· ≠ '\n')).reverse

theorem lastLine_single {cs : List Char} (single : '\n' ∉ cs) : lastLine cs = cs := by
  rw [lastLine, takeWhile_single (by simpa using single), List.reverse_reverse]

theorem lastLine_append_newline (front rest : List Char) : lastLine (front ++ '\n' :: rest) = lastLine rest := by
  rw [lastLine, lastLine, List.reverse_append, List.reverse_cons, List.append_assoc, List.singleton_append]
  rcases line_cases rest.reverse with single | ⟨first, others, same, single⟩
  · rw [takeWhile_first single, takeWhile_single single]
  · rw [same, List.append_assoc, List.cons_append, takeWhile_first single, takeWhile_first single]

theorem lastLine_append {c : Char} (other : c ≠ '\n') (front : List Char) :
    lastLine (front ++ [c]) = lastLine front ++ [c] := by
  rw [lastLine, lastLine, List.reverse_append, List.reverse_singleton, List.singleton_append,
    List.takeWhile_cons_of_pos (by simpa using other), List.reverse_cons]

-- The line that a text goes on with behind its first part, counted by the newlines of that part.
theorem splitLines_append (front back : List Char) :
    (splitLines (front ++ back))[front.count '\n']? = some (lastLine front ++ back.takeWhile (· ≠ '\n')) := by
  induction lines : front.count '\n' generalizing front with
  | zero =>
    have single : '\n' ∉ front := List.count_eq_zero.mp lines
    rw [← List.head?_eq_getElem?, splitLines_head?, takeWhile_line single, lastLine_single single]
  | succ n ih =>
    have among : '\n' ∈ front := List.count_pos_iff.mp (by omega)
    obtain ⟨first, rest, rfl, single⟩ := List.eq_append_cons_of_mem among
    have fewer : rest.count '\n' = n := by
      rw [List.count_append, List.count_eq_zero.mpr single, List.count_cons_self] at lines
      omega
    rw [List.append_assoc, List.cons_append, splitLines_append_newline single, List.getElem?_cons_succ, ih rest fewer,
      lastLine_append_newline]

theorem single_of_mem_splitLines {cs line : List Char} (among : line ∈ splitLines cs) : '\n' ∉ line := by
  induction cs generalizing line with
  | nil => simp [List.mem_singleton.mp among]
  | cons c cs ih =>
    by_cases newline : c = '\n'
    · rw [splitLines, if_pos newline] at among
      rcases List.mem_cons.mp among with rfl | later
      · exact List.not_mem_nil
      · exact ih later
    · obtain ⟨first, others, lines⟩ := splitLines_eq_cons cs
      rw [splitLines_cons newline lines] at among
      rw [lines] at ih
      rcases List.mem_cons.mp among with rfl | later
      · exact List.not_mem_cons_of_ne_of_not_mem (Ne.symm newline) (ih (List.mem_cons_self ..))
      · exact ih (List.mem_cons_of_mem _ later)

theorem splitLines_intercalate {lines : List (List Char)} (single : ∀ line ∈ lines, '\n' ∉ line) (some : lines ≠ []) :
    splitLines (['\n'].intercalate lines) = lines := by
  induction lines with
  | nil => exact absurd rfl some
  | cons line rest ih =>
    obtain ⟨here, others⟩ := List.forall_mem_cons.mp single
    cases rest with
    | nil => rw [List.intercalate_singleton, splitLines_single here]
    | cons next rest =>
      have further := ih others (List.cons_ne_nil _ _)
      have split : ['\n'].intercalate (line :: next :: rest) = line ++ '\n' :: ['\n'].intercalate (next :: rest) := by
        simp [List.intercalate]
      rw [split, splitLines_append_newline here, further]

theorem sublist_of_mem_splitLines {cs line : List Char} (among : line ∈ splitLines cs) : line.Sublist cs := by
  induction cs generalizing line with
  | nil => exact List.mem_singleton.mp among ▸ .slnil
  | cons c cs ih =>
    by_cases newline : c = '\n'
    · rw [splitLines, if_pos newline] at among
      rcases List.mem_cons.mp among with rfl | later
      · exact List.nil_sublist _
      · exact (ih later).cons c
    · obtain ⟨first, others, lines⟩ := splitLines_eq_cons cs
      rw [splitLines_cons newline lines] at among
      rw [lines] at ih
      rcases List.mem_cons.mp among with rfl | later
      · exact (ih (List.mem_cons_self ..)).cons_cons c
      · exact (ih (List.mem_cons_of_mem _ later)).cons c

-- What is left of a text when no newline is taken out has as many lines, and each is what is left of a line.
theorem splitLines_sublist {less cs : List Char} (taken : less.Sublist cs) (same : less.count '\n' = cs.count '\n') :
    List.Forall₂ List.Sublist (splitLines less) (splitLines cs) := by
  induction taken with
  | slnil => exact .cons .slnil .nil
  | @cons less cs c taken ih =>
    have fewer := taken.count_le '\n'
    have other : c ≠ '\n' := by
      rintro rfl
      rw [List.count_cons_self] at same
      omega
    rw [List.count_cons_of_ne other] at same
    obtain ⟨first, others, lines⟩ := splitLines_eq_cons cs
    obtain ⟨shorter, rest, here, further, split⟩ := List.forall₂_cons_right_iff.mp (lines ▸ ih same)
    rw [split, splitLines_cons other lines]
    exact .cons (here.cons c) further
  | @cons_cons less cs c taken ih =>
    rw [List.count_cons, List.count_cons, Nat.add_right_cancel_iff] at same
    by_cases newline : c = '\n'
    · rw [splitLines, splitLines, if_pos newline, if_pos newline]
      exact .cons .slnil (ih same)
    · obtain ⟨first, others, lines⟩ := splitLines_eq_cons cs
      obtain ⟨shorter, rest, here, further, split⟩ := List.forall₂_cons_right_iff.mp (lines ▸ ih same)
      rw [splitLines_cons newline split, splitLines_cons newline lines]
      exact .cons (here.cons_cons c) further

-- A place stands in a text just behind its first part.
structure Location.Behind (place : Location) (before : List Char) : Prop where
  line : place.line = 1 + before.count '\n'
  column : place.column = 1 + (lastLine before).length
  offset : place.offset = (String.ofList before).utf8ByteSize

theorem Location.after_start (before : List Char) : (Location.start.after before).Behind before := by
  induction before using List.reverseRecOn with
  | nil => exact ⟨rfl, rfl, rfl⟩
  | append_singleton before c ih =>
    have size : (String.ofList (before ++ [c])).utf8ByteSize = (String.ofList before).utf8ByteSize + c.utf8Size := by
      simp [String.utf8ByteSize_ofList]
    rw [Location.after_append, Location.after_cons, Location.after_nil, Location.next]
    split
    · next newline =>
      subst newline
      refine ⟨?_, ?_, ?_⟩
      · rw [ih.line, List.count_append, List.count_singleton_self, Nat.add_assoc]
      · rw [lastLine_append_newline]
        rfl
      · rw [ih.offset, size]
    · next other =>
      refine ⟨?_, ?_, ?_⟩
      · rw [ih.line, List.count_append, List.count_singleton, if_neg (by simpa using other), Nat.add_zero]
      · rw [ih.column, lastLine_append other, List.length_append, List.length_singleton, Nat.add_assoc]
      · rw [ih.offset, size]

end FishLang
