import FishLang.Proofs.Parse.Earliest

namespace FishLang

open Grammar

namespace Grammar

def Form.inner : Form → Bool
  | .token kinds => .endOfInput ∉ kinds
  | .phrase symbol => symbol ≠ .program
  | .done => true
  | .and first second | .or first second => first.inner && second.inner
  | .many form => form.inner

theorem rule_inner (symbol : Symbol) (part : symbol ≠ .program) : (rule symbol).inner = true := by
  cases symbol with
  | program => exact absurd rfl part
  | level level => cases level <;> decide
  | _ => decide

theorem Reads.live (reads : Reads form run parts) (inner : form.inner = true) : ∀ token ∈ run, token.isEnd = false := by
  induction reads with
  | @token kinds _ allowed =>
    refine List.forall_mem_singleton.mpr (beq_eq_false_iff_ne.mpr fun ending => ?_)
    have spared : Kind.endOfInput ∉ kinds := by simpa [Form.inner] using inner
    exact spared (ending ▸ allowed)
  | @phrase symbol _ _ _ ih => exact ih (rule_inner symbol (by simpa [Form.inner] using inner))
  | done | stop => exact List.forall_mem_nil _
  | and _ _ ihOne ihTwo =>
    obtain ⟨one, two⟩ := Bool.and_eq_true_iff.mp inner
    exact List.forall_mem_append.mpr ⟨ihOne one, ihTwo two⟩
  | left _ ih => exact ih (Bool.and_eq_true_iff.mp inner).1
  | right _ ih => exact ih (Bool.and_eq_true_iff.mp inner).2
  | more _ _ ihOne ihOthers => exact List.forall_mem_append.mpr ⟨ihOne inner, ihOthers inner⟩

end Grammar

theorem current_head (tokens : List Token) : current tokens = tokens.head?.getD .endOfInput := by
  cases tokens <;> rfl

namespace Parse

-- What is left behind so many readings in a row.
def leftAfter (tokens : List Token) : Nat → List Token
  | 0 => tokens
  | times + 1 => leftAfter (remaining (program tokens)) times

-- How many tokens are passed by then.
def cursor (tokens : List Token) (times : Nat) : Nat := tokens.length - (leftAfter tokens times).length

def outcome (tokens : List Token) (times : Nat) : Except ParseError Node :=
  Node.ofTokens (tokens.drop (cursor tokens times))

-- How often the word that starts a program stands before the end of the input.
def starts (tokens : List Token) : Nat :=
  (tokens.takeWhile fun token => !token.isEnd).countP fun token => token.kind = .word .fish

-- What readings in a row are like, whatever the tokens. The end of the input is the first token that says so, or
-- else the one behind all tokens.
structure Settles (tokens : List Token) : Prop where
  -- The cursor never goes back, and it points at a token, at the latest at the end of the input.
  grows : ∀ times, cursor tokens times ≤ cursor tokens (times + 1)
  within : ∀ times, cursor tokens times ≤ tokens.findIdx Token.isEnd
  pointed : ∀ times, (tokens ++ [.endOfInput])[cursor tokens times]? = some (current (leftAfter tokens times))
  -- A reading is that of a list of its own, the tokens from the cursor on, and looks at none behind the token that
  -- it leaves the cursor at.
  readings : ∀ times, programs times tokens = (List.range times).map (outcome tokens)
  looked : ∀ times, Node.ofTokens ((tokens.take (cursor tokens (times + 1) + 1)).drop (cursor tokens times)) =
    outcome tokens times
  -- What stands behind the end of the input has no say.
  blind : ∀ front closing behind others, tokens = front ++ closing :: behind → closing.isEnd = true →
    ∀ times, programs times (front ++ closing :: others) = programs times tokens ∧
      cursor (front ++ closing :: others) times = cursor tokens times
  -- Behind a program the end of the input is at hand, where no program starts.
  ended : ∀ times root, outcome tokens times = .ok root →
    cursor tokens (times + 1) = tokens.findIdx Token.isEnd ∧
    ∃ closing error, (tokens ++ [.endOfInput])[tokens.findIdx Token.isEnd]? = some closing ∧ closing.isEnd = true ∧
      outcome tokens (times + 1) = .error error ∧ error.kind = .expectedToken ∧ error.span = closing.span ∧
      error = (Violation.missing (.word .fish) .program).report closing
  -- A reading that passes nothing fails, and so do all that follow; one of the first does.
  stays : ∀ times, cursor tokens (times + 1) = cursor tokens times → ∃ error, ∀ later ≥ times,
    outcome tokens later = .error error ∧ cursor tokens later = cursor tokens times
  soon : ∃ times ≤ starts tokens, cursor tokens (times + 1) = cursor tokens times

variable {tokens front behind : List Token} {closing : Token}

theorem program_takes (tokens : List Token) : ∃ run, tokens = run ++ remaining (program tokens) ∧
    ∀ token ∈ run, token.isEnd = false := by
  cases ran : program tokens with
  | ok read =>
    obtain ⟨run, parts, split, reads, _⟩ := program_refines.sound (Nat.le_refl _) trivial ran
    exact ⟨run, split, reads.live (by decide)⟩
  | error stop =>
    obtain ⟨run, more, parts, split, reads⟩ := program_refines.viable (Nat.le_refl _) trivial ran
    exact ⟨run, split, (List.forall_mem_append.mp (reads.live (by decide))).1⟩

-- The tokens that are passed and the one at hand behind them tell what is read, lines and places included.
theorem program_told {run rest : List Token} (split : tokens = run ++ remaining (program tokens))
    (shows : (remaining (program tokens)).head? = rest.head?) :
    Matches id rest (program tokens) (program (run ++ rest)) := by
  cases ran : program tokens with
  | error stop =>
    obtain ⟨again, split', same⟩ := program_matches tokens
    obtain rfl := List.append_cancel_right (split.symm.trans split')
    have stopped := same run rest rfl (congrArg _ shows)
    rw [ran] at stopped
    exact stopped
  | ok read =>
    obtain ⟨value, left⟩ := read
    rw [ran] at split shows
    obtain ⟨again, parts, split', reads, made⟩ := program_refines.sound (Nat.le_refl _) trivial ran
    obtain rfl := List.append_cancel_right (split.symm.trans split')
    have ended : (current rest).kind = .endOfInput := by
      have same : Shows left rest := congrArg _ shows
      rw [← same.current_kind]
      exact program_ends ran
    obtain ⟨value', made', ran'⟩ := program_refines.complete (Nat.le_refl _) trivial reads ended
    have same := (made .endOfInput).symm.trans (made' .endOfInput)
    refine ⟨value', ?_, ran'⟩
    simpa using same

theorem remaining_told {run rest : List Token} (split : tokens = run ++ remaining (program tokens))
    (shows : (remaining (program tokens)).head? = rest.head?) : remaining (program (run ++ rest)) = rest := by
  have told := program_told split shows
  cases ran : program tokens with
  | error stop =>
    rw [ran] at told
    rw [show program (run ++ rest) = _ from told]
    rfl
  | ok read =>
    rw [ran] at told
    obtain ⟨value, _, same⟩ := told
    rw [same]
    rfl

theorem ofTokens_told {run rest : List Token} (split : tokens = run ++ remaining (program tokens))
    (shows : (remaining (program tokens)).head? = rest.head?) : Node.ofTokens (run ++ rest) = Node.ofTokens tokens := by
  have told := program_told split shows
  rw [Node.ofTokens, Node.ofTokens]
  cases ran : program tokens with
  | error stop =>
    rw [ran] at told shows
    rw [show program (run ++ rest) = _ from told]
    have same : current stop.rest = current rest := by
      rw [current_head, current_head]
      exact congrArg (Option.getD · .endOfInput) shows
    simp only [Stop.error, same]
  | ok read =>
    rw [ran] at told
    obtain ⟨value, same, ran'⟩ := told
    rw [ran']
    exact congrArg Except.ok same.symm

theorem leftAfter_succ (tokens : List Token) (times : Nat) :
    leftAfter tokens (times + 1) = remaining (program (leftAfter tokens times)) := by
  induction times generalizing tokens with
  | zero => rfl
  | succ times ih => exact ih (remaining (program tokens))

theorem leftAfter_takes (tokens : List Token) (times : Nat) : ∃ passed, tokens = passed ++ leftAfter tokens times ∧
    ∀ token ∈ passed, token.isEnd = false := by
  induction times with
  | zero => exact ⟨[], rfl, List.forall_mem_nil _⟩
  | succ times ih =>
    obtain ⟨passed, split, live⟩ := ih
    obtain ⟨run, further, alive⟩ := program_takes (leftAfter tokens times)
    refine ⟨passed ++ run, ?_, List.forall_mem_append.mpr ⟨live, alive⟩⟩
    rw [leftAfter_succ, List.append_assoc, ← further]
    exact split

theorem cursor_of_split {passed : List Token} (split : tokens = passed ++ leftAfter tokens times) :
    cursor tokens times = passed.length := by
  have length := congrArg List.length split
  rw [List.length_append] at length
  exact Nat.sub_eq_of_eq_add length

theorem drop_cursor (tokens : List Token) (times : Nat) :
    tokens.drop (cursor tokens times) = leftAfter tokens times := by
  obtain ⟨passed, split, _⟩ := leftAfter_takes tokens times
  rw [cursor_of_split split]
  exact (congrArg (List.drop passed.length) split).trans List.drop_left

theorem outcome_eq (tokens : List Token) (times : Nat) :
    outcome tokens times = Node.ofTokens (leftAfter tokens times) := by
  rw [outcome, drop_cursor]

theorem cursor_succ {run : List Token}
    (split : leftAfter tokens times = run ++ remaining (program (leftAfter tokens times))) :
    cursor tokens (times + 1) = cursor tokens times + run.length := by
  obtain ⟨passed, whole, _⟩ := leftAfter_takes tokens times
  rw [cursor_of_split whole, ← List.length_append]
  refine cursor_of_split ?_
  rw [leftAfter_succ, List.append_assoc, ← split]
  exact whole

theorem programs_eq (tokens : List Token) (times : Nat) :
    programs times tokens = (List.range times).map fun n => Node.ofTokens (leftAfter tokens n) := by
  induction times generalizing tokens with
  | zero => rfl
  | succ times ih =>
    rw [List.range_succ_eq_map, List.map_cons, List.map_map, programs]
    have others := ih (remaining (program tokens))
    rw [leftAfter, Node.ofTokens]
    cases ran : program tokens with
    | error stop =>
      rw [ran] at others
      exact congrArg _ (others.trans (List.map_congr_left fun n _ => by simp [leftAfter, ran]))
    | ok read =>
      rw [ran] at others
      exact congrArg _ (others.trans (List.map_congr_left fun n _ => by simp [leftAfter, ran]))

theorem program_blind (front behind : List Token) {closing : Token} (ending : closing.isEnd = true) :
    ∃ left, remaining (program (front ++ closing :: behind)) = left ++ closing :: behind ∧ ∀ others,
      Node.ofTokens (front ++ closing :: others) = Node.ofTokens (front ++ closing :: behind) ∧
      remaining (program (front ++ closing :: others)) = left ++ closing :: others := by
  obtain ⟨run, split, live⟩ := program_takes (front ++ closing :: behind)
  obtain ⟨left, rfl, rest⟩ : ∃ left, front = run ++ left ∧
      remaining (program (front ++ closing :: behind)) = left ++ closing :: behind := by
    obtain ⟨left, rfl, rest⟩ | ⟨left, rfl, rest⟩ := List.append_eq_append_iff.mp split
    · cases left with
      | nil => exact ⟨[], by simp, by simpa using rest.symm⟩
      | cons first left =>
        obtain ⟨rfl, _⟩ := List.cons.inj rest
        have alive := live closing (by simp)
        rw [ending] at alive
        cases alive
    · exact ⟨left, rfl, rest⟩
  refine ⟨left, rest, fun others => ?_⟩
  have shows : (remaining (program (run ++ left ++ closing :: behind))).head? = (left ++ closing :: others).head? := by
    rw [rest]
    cases left <;> rfl
  rw [List.append_assoc run left (closing :: others)]
  exact ⟨ofTokens_told split shows, remaining_told split shows⟩

theorem leftAfter_blind (front behind : List Token) {closing : Token} (ending : closing.isEnd = true) (times : Nat) :
    ∃ left, leftAfter (front ++ closing :: behind) times = left ++ closing :: behind ∧ ∀ others,
      leftAfter (front ++ closing :: others) times = left ++ closing :: others := by
  induction times with
  | zero => exact ⟨front, rfl, fun _ => rfl⟩
  | succ times ih =>
    obtain ⟨left, here, there⟩ := ih
    obtain ⟨last, here', there'⟩ := program_blind left behind ending
    refine ⟨last, ?_, fun others => ?_⟩
    · rw [leftAfter_succ, here, here']
    · rw [leftAfter_succ, there, (there' others).2]

theorem ofTokens_blind (front behind others : List Token) {closing : Token} (ending : closing.isEnd = true) (times : Nat) :
    Node.ofTokens (leftAfter (front ++ closing :: others) times) =
      Node.ofTokens (leftAfter (front ++ closing :: behind) times) := by
  obtain ⟨left, here, there⟩ := leftAfter_blind front behind ending times
  obtain ⟨_, _, alike⟩ := program_blind left behind ending
  rw [here, there]
  exact (alike others).1

theorem cursor_blind (front behind others : List Token) {closing : Token} (ending : closing.isEnd = true) (times : Nat) :
    cursor (front ++ closing :: others) times = cursor (front ++ closing :: behind) times := by
  obtain ⟨left, here, there⟩ := leftAfter_blind front behind ending times
  rw [cursor, cursor, here, there]
  simp only [List.length_append, List.length_cons]
  omega

theorem findIdx_isEnd {passed : List Token} (live : ∀ token ∈ passed, token.isEnd = false) (rest : List Token) :
    (passed ++ rest).findIdx Token.isEnd = passed.length + rest.findIdx Token.isEnd := by
  have none : passed.findIdx Token.isEnd = passed.length := List.findIdx_eq_length_of_false live
  rw [List.findIdx_append, if_neg (by rw [none]; exact Nat.lt_irrefl _), Nat.add_comm]

theorem starts_append {run : List Token} (live : ∀ token ∈ run, token.isEnd = false) (rest : List Token) :
    starts (run ++ rest) = run.countP (fun token => token.kind = .word .fish) + starts rest := by
  have all : ∀ token ∈ run, (!token.isEnd) = true := fun token member => by simp [live token member]
  rw [starts, List.takeWhile_append_of_pos all, List.countP_append, starts]

theorem program_idle (other : (current tokens).kind ≠ .word .fish) :
    program tokens = .error ⟨.missing (.word .fish) .program, tokens⟩ := by
  have stopped : expect (.word .fish) .program tokens = .error ⟨.missing (.word .fish) .program, tokens⟩ :=
    bind_eq_error_iff.mpr (.inr ⟨_, _, rfl, by rw [if_neg other]; rfl⟩)
  exact bind_eq_error_iff.mpr (.inl stopped)

-- A reading that goes on passes a word that starts a program.
theorem starts_remaining (tokens : List Token) : remaining (program tokens) = tokens ∨
    starts (remaining (program tokens)) < starts tokens := by
  by_cases fish : (current tokens).kind = .word .fish
  · obtain ⟨run, split, live⟩ := program_takes tokens
    cases run with
    | nil => exact .inl split.symm
    | cons keyword run =>
      refine .inr ?_
      have found : keyword.kind = .word .fish := by
        rw [split] at fish
        exact fish
      have counted := starts_append live (remaining (program tokens))
      rw [← split, List.countP_cons_of_pos (by simpa using found)] at counted
      omega
  · refine .inl ?_
    rw [program_idle fish]
    rfl

-- So one of the first readings passes nothing.
theorem exists_still (tokens : List Token) :
    ∃ times ≤ starts tokens, leftAfter tokens (times + 1) = leftAfter tokens times := by
  generalize bound : starts tokens = most
  induction most using Nat.strongRecOn generalizing tokens with
  | _ most ih =>
    obtain still | fewer := starts_remaining tokens
    · exact ⟨0, Nat.zero_le _, still⟩
    · obtain ⟨times, few, still⟩ := ih _ (bound ▸ fewer) (remaining (program tokens)) rfl
      exact ⟨times + 1, by omega, still⟩

theorem error_of_still (still : remaining (program tokens) = tokens) : ∃ error, Node.ofTokens tokens = .error error := by
  cases read : Node.ofTokens tokens with
  | error error => exact ⟨error, rfl⟩
  | ok root =>
    by_cases fish : (current tokens).kind = .word .fish
    · cases ran : program tokens with
      | error stop => cases (ofTokens_error_iff.mpr ⟨stop, ran, rfl⟩).symm.trans read
      | ok value =>
        have ended := program_ends ran
        rw [ran] at still
        rw [show value.2 = tokens from still, fish] at ended
        cases ended
    · have failed := ofTokens_error_iff.mpr ⟨_, program_idle fish, rfl⟩
      cases failed.symm.trans read

theorem leftAfter_still (still : leftAfter tokens (times + 1) = leftAfter tokens times) {later : Nat}
    (behind : times ≤ later) : leftAfter tokens later = leftAfter tokens times := by
  induction behind with
  | refl => rfl
  | step _ ih => rw [leftAfter_succ, ih, ← leftAfter_succ, still]

theorem isEnd_of_ok {root : Node} (read : Node.ofTokens tokens = .ok root) :
    (current (remaining (program tokens))).isEnd = true := by
  rw [Node.ofTokens] at read
  cases ran : program tokens with
  | error stop =>
    rw [ran] at read
    cases read
  | ok value => exact beq_iff_eq.mpr (program_ends ran)

theorem getElem?_current (passed rest : List Token) :
    (passed ++ rest ++ [.endOfInput])[passed.length]? = some (current rest) := by
  rw [List.append_assoc, List.getElem?_append_right (Nat.le_refl _), Nat.sub_self]
  cases rest <;> rfl

theorem getElem?_cursor (tokens : List Token) (times : Nat) :
    (tokens ++ [.endOfInput])[cursor tokens times]? = some (current (leftAfter tokens times)) := by
  obtain ⟨passed, split, _⟩ := leftAfter_takes tokens times
  rw [cursor_of_split split]
  exact (congrArg (fun all => (all ++ [Token.endOfInput])[passed.length]?) split).trans (getElem?_current ..)

theorem drop_take_cursor {run : List Token}
    (split : leftAfter tokens times = run ++ remaining (program (leftAfter tokens times))) :
    (tokens.take (cursor tokens (times + 1) + 1)).drop (cursor tokens times) =
      run ++ (remaining (program (leftAfter tokens times))).take 1 := by
  obtain ⟨passed, whole, _⟩ := leftAfter_takes tokens times
  have all : tokens = passed ++ (run ++ remaining (program (leftAfter tokens times))) := split ▸ whole
  rw [cursor_succ split, cursor_of_split whole]
  rw [congrArg (List.take _) all, Nat.add_assoc, List.take_length_add_append, List.drop_left,
    List.take_length_add_append]

theorem findIdx_current {rest : List Token} (ending : (current rest).isEnd = true) :
    rest.findIdx Token.isEnd = 0 := by
  cases rest with
  | nil => rfl
  | cons token rest => exact by rw [List.findIdx_cons, show token.isEnd = true from ending]; rfl

-- Read again and again, every list of tokens is read to the end of the input or to where reading stays.
theorem programs_settle (tokens : List Token) : Settles tokens where
  grows times := by
    obtain ⟨run, split, _⟩ := program_takes (leftAfter tokens times)
    rw [cursor_succ split]
    exact Nat.le_add_right ..
  within times := by
    obtain ⟨passed, split, live⟩ := leftAfter_takes tokens times
    rw [cursor_of_split split, split, findIdx_isEnd live]
    exact Nat.le_add_right ..
  pointed times := getElem?_cursor tokens times
  readings times := by
    rw [programs_eq]
    exact List.map_congr_left fun n _ => (outcome_eq tokens n).symm
  looked times := by
    obtain ⟨run, split, _⟩ := program_takes (leftAfter tokens times)
    rw [outcome_eq, drop_take_cursor split]
    exact ofTokens_told split (by rw [List.head?_take, if_neg (by decide)])
  blind front closing behind others same ending times := by
    subst same
    refine ⟨?_, cursor_blind front behind others ending times⟩
    rw [programs_eq, programs_eq]
    exact List.map_congr_left fun n _ => ofTokens_blind front behind others ending n
  ended times root read := by
    rw [outcome_eq] at read
    have ending := isEnd_of_ok read
    rw [← leftAfter_succ] at ending
    have here : cursor tokens (times + 1) = tokens.findIdx Token.isEnd := by
      obtain ⟨passed, split, live⟩ := leftAfter_takes tokens (times + 1)
      rw [cursor_of_split split, split, findIdx_isEnd live, findIdx_current ending]
      rfl
    have other : (current (leftAfter tokens (times + 1))).kind ≠ .word .fish := by
      rw [beq_iff_eq.mp ending]
      decide
    refine ⟨here, current (leftAfter tokens (times + 1)), _, here ▸ getElem?_cursor tokens (times + 1), ending, ?_, rfl,
      rfl, rfl⟩
    rw [outcome_eq]
    exact ofTokens_error_iff.mpr ⟨_, program_idle other, rfl⟩
  stays times still := by
    obtain ⟨run, split, _⟩ := program_takes (leftAfter tokens times)
    have none : run = [] := List.eq_nil_of_length_eq_zero (by rw [cursor_succ split] at still; omega)
    rw [none, List.nil_append] at split
    obtain ⟨error, failed⟩ := error_of_still split.symm
    refine ⟨error, fun later behind => ?_⟩
    have same := leftAfter_still ((leftAfter_succ ..).trans split.symm) behind
    exact ⟨by rw [outcome_eq, same, failed], by rw [cursor, cursor, same]⟩
  soon := by
    obtain ⟨times, few, still⟩ := exists_still tokens
    exact ⟨times, few, by rw [cursor, cursor, still]⟩

end Parse

end FishLang
