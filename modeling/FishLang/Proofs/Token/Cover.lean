import FishLang.Text.Blank
import FishLang.Token.Basic

namespace FishLang

-- The tokens of a stretch of text that starts at a place.
inductive Covers : Location → List Char → List Token → Prop where
  | done : Covers here [] []
  | skip (blank : isBlank c = true) (rest : Covers (here.next c) cs tokens) : Covers here (c :: cs) tokens
  | cut (kind : Kind) (full : lexeme ≠ []) (rest : Covers (here.after lexeme) cs tokens) :
      Covers here (lexeme ++ cs) (⟨kind, ⟨here, here.after lexeme⟩, .ofList lexeme⟩ :: tokens)

-- What holds of a text and its tokens, in terms of offsets in bytes alone.
structure Partitions (text : String) (tokens : List Token) : Prop where
  cut : ∀ token ∈ tokens, token.lexeme ≠ "" ∧ ∃ before after, text = before ++ token.lexeme ++ after ∧
    token.span.start.offset = before.utf8ByteSize ∧
    token.span.stop.offset = (before ++ token.lexeme).utf8ByteSize
  ordered : tokens.Pairwise fun token later => token.span.stop.offset ≤ later.span.start.offset
  separated : ∀ before c after, text = before ++ String.singleton c ++ after →
    (∀ token ∈ tokens, ¬ (token.span.start.offset ≤ before.utf8ByteSize ∧
      before.utf8ByteSize < token.span.stop.offset)) → isBlank c = true

namespace Location

theorem next_offset (here : Location) (c : Char) : (here.next c).offset = here.offset + c.utf8Size := by
  unfold next
  split <;> rfl

theorem after_offset (here : Location) (cs : List Char) :
    (here.after cs).offset = here.offset + (String.ofList cs).utf8ByteSize := by
  induction cs generalizing here with
  | nil => rfl
  | cons c cs ih =>
    have split : String.ofList (c :: cs) = String.singleton c ++ .ofList cs := by
      apply String.toList_injective
      simp
    rw [after_cons, ih, next_offset, split, String.utf8ByteSize_append, String.utf8ByteSize_singleton]
    omega

end Location

namespace Covers

theorem append (front : Covers here cs tokens) (back : Covers (here.after cs) ds others) :
    Covers here (cs ++ ds) (tokens ++ others) := by
  induction front with
  | done => exact back
  | skip blank _ ih => exact .skip blank (ih back)
  | cut kind full _ ih =>
    rw [List.append_assoc]
    rw [Location.after_append] at back
    exact .cut kind full (ih back)

theorem placed (covers : Covers here cs tokens) (member : token ∈ tokens) :
    token.lexeme ≠ "" ∧ ∃ before after, cs = before ++ token.lexeme.toList ++ after ∧
      token.span = ⟨here.after before, here.after (before ++ token.lexeme.toList)⟩ := by
  induction covers with
  | done => cases member
  | @skip c _ _ _ _ _ ih =>
    obtain ⟨full, before, after, rfl, span⟩ := ih member
    exact ⟨full, c :: before, after, rfl, span⟩
  | @cut lexeme cs _ here kind full _ ih =>
    rcases List.mem_cons.mp member with rfl | later
    · exact ⟨by simpa using full, [], cs, by simp, by simp⟩
    · obtain ⟨nonempty, before, after, rfl, span⟩ := ih later
      refine ⟨nonempty, lexeme ++ before, after, by simp only [List.append_assoc], ?_⟩
      rw [span]
      simp only [Location.after_append]

theorem ordered (covers : Covers here cs tokens) :
    (∀ token ∈ tokens, here.offset ≤ token.span.start.offset) ∧
      tokens.Pairwise fun token later => token.span.stop.offset ≤ later.span.start.offset := by
  induction covers with
  | done => exact ⟨by simp, .nil⟩
  | @skip c here _ _ _ _ ih =>
    refine ⟨fun token member => ?_, ih.2⟩
    have further := ih.1 token member
    rw [Location.next_offset] at further
    omega
  | @cut lexeme _ _ here kind _ _ ih =>
    refine ⟨fun token member => ?_, .cons ih.1 ih.2⟩
    rcases List.mem_cons.mp member with rfl | later
    · exact Nat.le_refl _
    · have further := ih.1 token later
      rw [Location.after_offset] at further
      omega

theorem separated (covers : Covers here cs tokens) (before after : List Char) (split : cs = before ++ c :: after)
    (bare : ∀ token ∈ tokens, ¬ (token.span.start.offset ≤ (here.after before).offset ∧
      (here.after before).offset < token.span.stop.offset)) : isBlank c = true := by
  induction covers generalizing before with
  | done => simp at split
  | skip blank _ ih =>
    cases before with
    | nil =>
      cases split
      exact blank
    | cons _ before =>
      cases split
      exact ih before rfl bare
  | @cut _ _ _ here kind _ _ ih =>
    rcases List.append_eq_append_iff.mp split with ⟨middle, rfl, rest⟩ | ⟨middle, rfl, rest⟩
    · refine ih middle rest fun token member => ?_
      rw [← Location.after_append]
      exact bare token (List.mem_cons_of_mem _ member)
    · cases middle with
      | nil =>
        refine ih [] (by simpa using rest.symm) fun token member => ?_
        simpa using bare token (List.mem_cons_of_mem _ member)
      | cons first middle =>
        obtain ⟨rfl, -⟩ := List.cons.inj rest
        have within : ¬ (here.offset ≤ (here.after before).offset ∧
          (here.after before).offset < (here.after (before ++ c :: middle)).offset) := bare _ (List.mem_cons_self ..)
        have wide := Char.utf8Size_pos c
        have start := Location.after_offset here before
        have stop : (here.after (before ++ c :: middle)).offset = (here.after before).offset + c.utf8Size +
            (String.ofList middle).utf8ByteSize := by
          rw [Location.after_append, Location.after_cons, Location.after_offset, Location.next_offset]
        omega

theorem partitions {text : String} (covers : Covers .start text.toList tokens) : Partitions text tokens where
  cut token member := by
    obtain ⟨full, before, after, split, span⟩ := covers.placed member
    refine ⟨full, .ofList before, .ofList after, ?_, ?_, ?_⟩
    · apply String.toList_injective
      simpa using split
    · rw [span, Location.after_offset]
      exact Nat.zero_add _
    · rw [span, Location.after_offset, String.ofList_append, String.ofList_toList]
      exact Nat.zero_add _
  ordered := covers.ordered.2
  separated before c after split bare := by
    have here : (Location.start.after before.toList).offset = before.utf8ByteSize := by
      rw [Location.after_offset, String.ofList_toList]
      exact Nat.zero_add _
    refine covers.separated before.toList after.toList (by simp [split]) ?_
    rw [here]
    exact bare

end Covers

end FishLang
