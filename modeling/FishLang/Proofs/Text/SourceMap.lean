import FishLang.Proofs.Text.Lines
import FishLang.Text.SourceMap

namespace FishLang.SourceMap

open String (utf8Len utf8Len_nil utf8Len_cons utf8Len_append)

theorem utf8Len_cons_succ (c : Char) (cs : List Char) :
    ∃ n, utf8Len (c :: cs) = n + 1 ∧ n + 1 - c.utf8Size = utf8Len cs := by
  have wide := Char.utf8Size_pos c
  have size := utf8Len_cons c cs
  exact ⟨utf8Len (c :: cs) - 1, by omega, by omega⟩

theorem dropBytes_append (front back : List Char) : dropBytes (utf8Len front) (front ++ back) = back := by
  induction front with
  | nil =>
    rw [utf8Len_nil, List.nil_append]
    cases back <;> rfl
  | cons c front ih =>
    obtain ⟨n, size, rest⟩ := utf8Len_cons_succ c front
    rw [List.cons_append, size, dropBytes, rest, ih]

theorem takeBytes_append (front back : List Char) : takeBytes (utf8Len front) (front ++ back) = front := by
  induction front with
  | nil =>
    rw [utf8Len_nil, List.nil_append]
    cases back <;> rfl
  | cons c front ih =>
    obtain ⟨n, size, rest⟩ := utf8Len_cons_succ c front
    rw [List.cons_append, size, takeBytes, rest, ih]

theorem slice_append (before inner after : List Char) :
    slice (.ofList (before ++ (inner ++ after))) (utf8Len before) (utf8Len before + utf8Len inner) = inner := by
  rw [slice, String.toList_ofList, dropBytes_append, Nat.add_sub_cancel_left, takeBytes_append]

theorem chomp_single {line : List Char} (single : '\n' ∉ line) : chomp line = line := by
  rw [← List.mem_reverse] at single
  rw [chomp, ← List.reverse_inj, List.reverse_reverse]
  cases last : line.reverse with
  | nil => rfl
  | cons c rest =>
    rw [last] at single
    obtain ⟨other, _⟩ := not_or.mp (List.mem_cons.not.mp single)
    exact List.dropWhile_cons_of_neg (by simpa using Ne.symm other)

theorem chomp_append_newline {line : List Char} (single : '\n' ∉ line) : chomp (line ++ ['\n']) = line := by
  have whole := chomp_single single
  rw [chomp] at whole ⊢
  rw [List.reverse_append, List.reverse_singleton, List.singleton_append, List.dropWhile_cons_of_pos (by decide), whole]

theorem startsFrom_single {cs : List Char} (single : '\n' ∉ cs) (offset : Nat) : startsFrom offset cs = [] := by
  induction cs generalizing offset with
  | nil => rfl
  | cons c cs ih =>
    obtain ⟨other, single⟩ := not_or.mp (List.mem_cons.not.mp single)
    rw [startsFrom, if_neg (Ne.symm other), ih single]

theorem startsFrom_append_newline {first : List Char} (single : '\n' ∉ first) (rest : List Char) (offset : Nat) :
    startsFrom offset (first ++ '\n' :: rest) =
      (offset + utf8Len (first ++ ['\n'])) :: startsFrom (offset + utf8Len (first ++ ['\n'])) rest := by
  induction first generalizing offset with
  | nil => rw [List.nil_append, List.nil_append, startsFrom, if_pos rfl, utf8Len_cons, utf8Len_nil, Nat.zero_add]
  | cons c first ih =>
    obtain ⟨other, single⟩ := not_or.mp (List.mem_cons.not.mp single)
    have past : offset + c.utf8Size + utf8Len (first ++ ['\n']) = offset + utf8Len (c :: (first ++ ['\n'])) := by
      rw [utf8Len_cons]
      omega
    rw [List.cons_append, List.cons_append, startsFrom, if_neg (Ne.symm other), ih single, past]

-- From any line on, the lines of a map of the whole text are those of what is left of it.
theorem line?_behind (before cs : List Char) (n : Nat) :
    line? ⟨.ofList (before ++ cs), utf8Len before :: startsFrom (utf8Len before) cs⟩ (n + 1) =
      (splitLines cs)[n]?.map String.ofList := by
  induction n generalizing before cs with
  | zero =>
    rcases line_cases cs with single | ⟨first, rest, rfl, single⟩
    · have cut := slice_append before cs []
      rw [List.append_nil] at cut
      simp only [line?, startsFrom_single single, List.getElem?_cons_zero, List.getElem?_cons_succ, List.getElem?_nil,
        Option.map_some, Option.getD_none, String.utf8ByteSize_ofList, utf8Len_append, cut, chomp_single single,
        splitLines_single single]
    · have cut := slice_append before (first ++ ['\n']) rest
      rw [List.append_assoc, List.singleton_append] at cut
      simp only [line?, startsFrom_append_newline single, List.getElem?_cons_zero, List.getElem?_cons_succ,
        Option.map_some, Option.getD_some, cut, chomp_append_newline single, splitLines_append_newline single]
  | succ n ih =>
    rcases line_cases cs with single | ⟨first, rest, rfl, single⟩
    · simp [line?, startsFrom_single single, splitLines_single single]
    · have further := ih (before ++ (first ++ ['\n'])) rest
      rw [utf8Len_append] at further
      rw [startsFrom_append_newline single, splitLines_append_newline single, List.getElem?_cons_succ, ← further]
      simp only [line?, List.getElem?_cons_succ, List.append_assoc, List.singleton_append]

theorem line?_succ (text : String) (n : Nat) :
    (ofText text).line? (n + 1) = (splitLines text.toList)[n]?.map String.ofList := by
  have whole := line?_behind [] text.toList n
  rwa [List.nil_append, String.ofList_toList] at whole

theorem line?_isSome (text : String) (n : Nat) :
    ((ofText text).line? n).isSome ↔ 1 ≤ n ∧ n ≤ (splitLines text.toList).length := by
  cases n with
  | zero => simp [line?]
  | succ n =>
    rw [line?_succ, Option.isSome_map, isSome_getElem?]
    exact ⟨fun inside => ⟨n.succ_pos, inside⟩, And.right⟩

end FishLang.SourceMap
