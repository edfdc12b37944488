import FishLang.Proofs.Parse.Blame.Expression
import FishLang.Proofs.Parse.Statement

namespace FishLang.Parse

open Grammar

variable {limit : Nat} {starts after : Kind → Prop} {block : Parse Node} {tokens : List Token}

theorem declarationTail_blames (ty : Node) (name : Token) :
    Blames limit anything (· ∈ Symbol.declarationTail.follow)
      (do
        match ← Parse.peek with
        | .assign =>
          let _ ← Parse.next
          let value ← expression
          let _ ← expect .delimiter .declaration
          Pure.pure ⟨.declaration, some name.lexeme, [ty, initializer value], ty.line⟩
        | .delimiter =>
          let _ ← Parse.next
          Pure.pure ⟨.declaration, some name.lexeme, [ty], ty.line⟩
        | _ => Parse.fail .inDeclaration : Parse Node)
      (.phrase .declarationTail) := by
  refine .choose .declarationTail ?_ fun tokens refused => ?_
  · suffices Blames limit anything (· ∈ Symbol.declarationTail.follow) _ (.any declarationTailForms) from this
    refine .peek fun kind _ => ?_
    split
    · have sign : Refines limit (· = .assign) anything Parse.next .assign _ := next_refines (by simp) (by decide)
      exact .pick (.seq [.assign, .expression, .delimiter]) (.plainThen sign rfl (fun _ =>
        expression_nested.blames.thenPlain _ rfl (fun _ never => never.elim) rfl) rfl) (by decide) (by decide)
        (by decide)
    · exact .pick .delimiter (.plain rfl) (by decide) (by decide) (by decide)
    · next assign delimiter =>
      refine .idle rfl ?_
      simpa [declarationTailForms, Form.any, Form.seq, Form.first, Form.assign, Form.delimiter, Form.nullable] using
        ⟨assign, delimiter⟩
  · rw [peek_run]
    generalize (current tokens).kind = kind at refused
    split
    · exact absurd (by decide) refused
    · exact absurd (by decide) refused
    · rfl

theorem declaration_blames :
    Blames limit anything (· ∈ itemFollow) declaration (.phrase .declaration) :=
  .phrase (.plainThen typeName_refines rfl (fun ty => .plainThen (expect_refines (by decide)) rfl
    (fun name => (declarationTail_blames ty name).last) rfl) rfl) rfl

theorem parameters_blames (line : Nat) :
    Blames limit anything (· ∈ Symbol.params.follow) (parameters line) (.phrase .params) := by
  refine .choose .params (.plain rfl) fun tokens refused => ?_
  rw [parameters, peek_run]
  generalize (current tokens).kind = kind at refused
  split
  · exact absurd (by decide) refused
  · next ty => exact absurd (by cases ty <;> decide) refused
  · rfl

theorem condition_blames {phrase : Phrase} :
    Blames limit anything nothing (parenthesized expression phrase) .parenthesized :=
  (parenthesized_blames expression_nested).weaken (Nat.le_succ _) (fun _ _ => trivial) (fun _ never => never)

theorem optionalBlock_refuses {word : Word} {violation : Violation} (other : (current tokens).kind ≠ .word word)
    (barred : (current tokens).kind ∉ itemFollow) :
    optionalBlock word violation block tokens = .error ⟨violation, tokens⟩ := by
  have past : followsItem (current tokens).kind = false := by
    refine Bool.eq_false_iff.mpr fun follows => barred ?_
    rcases Bool.or_eq_true_iff.mp follows with starting | closing
    · exact List.mem_cons_of_mem _ ((startsItem_iff _).mp starting)
    · exact beq_iff_eq.mp closing ▸ List.mem_cons_self ..
  rw [optionalBlock, peek_run]
  simp only [if_neg other, past]
  rfl

theorem optionalBlock_blames {word : Word} {violation : Violation}
    (blames : Blames limit anything nothing block .block) :
    Blames limit anything after (optionalBlock word violation block) (.optional (.seq [.word word, .block])) := by
  refine .peek fun kind _ => ?_
  split
  · next same =>
    have keyword : Refines limit (· = kind) anything Parse.next (.word word) _ :=
      next_refines (by simp [same]) (by simp)
    exact (Blames.plainThen keyword rfl (fun _ => (blames.anywhere.before _).last) rfl).left rfl List.not_mem_nil
  · next other =>
    refine .idle rfl ?_
    simpa [Form.optional, Form.seq, Form.word, Form.first, Form.nullable] using other

theorem otherwise_blames (blames : Blames limit anything nothing block .block) :
    Blames limit anything (· ∈ itemFollow) (optionalBlock .otherwise .afterWhen block) (.phrase .otherwise) := by
  refine .choose .otherwise (optionalBlock_blames blames) fun tokens refused => ?_
  exact optionalBlock_refuses (fun same => refused (same ▸ by decide))
    fun follows => refused (List.mem_append_right _ follows)

theorem lastly_blames (blames : Blames limit anything nothing block .block) :
    Blames limit anything (· ∈ itemFollow) (optionalBlock .lastly .afterAttempt block) (.phrase .lastly) := by
  refine .choose .lastly (optionalBlock_blames blames) fun tokens refused => ?_
  exact optionalBlock_refuses (fun same => refused (same ▸ by decide))
    fun follows => refused (List.mem_append_right _ follows)

section Blocks

variable (read : Refines limit anything anything block .block node)
  (blames : Blames limit anything nothing block .block)

include blames in
theorem functionDef_blames : Blames limit anything nothing (functionDef block) (.phrase .functionDef) :=
  .phrase (.plainThen (expect_refines (by decide)) rfl (fun keyword => .plainThen (expect_refines (by decide)) rfl
    (fun name => .plainThen (expect_refines (by decide)) rfl (fun opening => .closedThen (parameters_refines _)
    (parameters_blames _) (fun params => .plainThen (expect_refines (by decide)) rfl (fun closing =>
    .plainThen typeName_refines rfl (fun ty => (blames.before _).last) rfl) rfl) (by decide) rfl (by decide) rfl)
    rfl) rfl) rfl) rfl

include blames in
theorem whale_blames : Blames limit anything nothing (whale block) (.phrase .whale) :=
  .phrase (.plainThen (expect_refines (by decide)) rfl (fun keyword => .andThen condition_refines condition_blames
    (fun condition => (blames.before _).last) rfl) rfl) rfl

include read blames

theorem when_blames : Blames limit anything (· ∈ itemFollow) (when block) (.phrase .when) :=
  .phrase (.plainThen (expect_refines (by decide)) rfl (fun keyword => .andThen condition_refines condition_blames
    (fun condition => .andThen read blames (fun body => ((otherwise_blames blames).before _).last) rfl) rfl) rfl) rfl

theorem attempt_blames : Blames limit anything (· ∈ itemFollow) (attempt block) (.phrase .attempt) :=
  .phrase (.plainThen (expect_refines (by decide)) rfl (fun keyword => .andThen read blames (fun body =>
    .plainThen (expect_refines (by decide)) rfl (fun _ => .andThen read blames
    (fun handler => ((lastly_blames blames).before _).last) rfl) rfl) rfl) rfl) rfl

end Blocks

theorem splash_blames : Blames limit anything nothing splash (.phrase .splash) :=
  .phrase (.plainThen (expect_refines (by decide)) rfl
    (fun keyword => condition_blames.thenPlain _ rfl (fun _ never => never.elim) rfl) rfl) rfl

theorem emerge_blames : Blames limit anything nothing emerge (.phrase .emerge) :=
  .phrase (.plainThen (expect_refines (by decide)) rfl
    (fun keyword => expression_nested.blames.thenPlain _ rfl (fun _ never => never.elim) rfl) rfl) rfl

theorem change_blames (name : Token) : Blames limit anything nothing (change name) (.any changeForms) := by
  have other {kind : Kind} {parse : Parse Node} (apart : kind ≠ .assign) :
      Blames limit (· = kind) nothing parse (.any changeForms) := by
    have counting : Blames limit (· = kind) nothing parse .counts := .plain rfl
    refine counting.right rfl ?_
    simpa [Form.seq, Form.assign, Form.first, Form.nullable] using apart
  refine .peek fun kind _ => ?_
  split
  · have sign : Refines limit (· = .assign) anything Parse.next .assign _ := next_refines (by simp) (by decide)
    exact .pick (.seq [.assign, .expression]) (.plainThen sign rfl
      (fun _ => (expression_nested.blames.before _).last) rfl) (by decide) (by decide) (by decide)
  · exact other (by simp)
  · next apart _ => exact other apart

theorem update_blames : Blames limit anything nothing update .update :=
  .plainThen (expect_refines (by decide)) rfl (fun name => (change_blames name).last) rfl

theorem action_blames (name : Token) : Blames limit anything nothing (action name) (.any actionForms) := by
  refine .peek fun kind _ => ?_
  split
  · next opening =>
    have called : Blames limit (· = kind) nothing (call expression name) .call :=
      (call_blames expression_nested name).weaken (Nat.le_succ limit) (fun _ _ => trivial) (fun _ never => never)
    exact called.left rfl (opening ▸ by decide)
  · next apart =>
    have uncalled : kind ∉ Form.call.first := by
      simpa [Form.call, Form.seq, Form.mark, Form.first, Form.nullable] using apart
    split
    · exact (change_blames name).anywhere.right rfl uncalled
    · next barred =>
      refine .idle rfl fun starting => ?_
      rcases List.mem_append.mp starting with calling | changing
      · exact uncalled calling
      · exact barred ((startsUpdate_iff _).mpr changing)

theorem nameStatement_blames : Blames limit (· = .identifier) nothing nameStatement (.phrase .nameStatement) := by
  have name : Refines limit (· = .identifier) anything Parse.next .name _ := next_refines (by simp) (by decide)
  have acting : Blames limit (· = .identifier) nothing nameAction (.and .name (.any actionForms)) :=
    .congr (.plainThen name rfl action_blames rfl) (fun _ _ named => nameAction_eq named)
  have row : Blames limit (· = .identifier) nothing nameStatement
      (.and (.and .name (.any actionForms)) (.seq [.delimiter])) :=
    acting.thenPlain _ rfl (fun _ never => never.elim) rfl
  exact .phrase (row.reform awaits_assoc.symm fun reads => reads_assoc.mp reads) rfl

theorem forkInitializer_blames (line : Nat) : Blames limit anything (· ∈ Symbol.forkInitializer.follow)
    (forkInitializer line) (.phrase .forkInitializer) := by
  refine .choose .forkInitializer ?_ fun tokens refused => ?_
  · suffices Blames limit anything (· ∈ Symbol.forkInitializer.follow) (forkInitializer line)
      (.any initializerForms) from this
    refine .peek fun kind _ => ?_
    split
    · next ty _ =>
      refine .pick (.seq [.typeName, .name, .assign, .expression]) (.plainThen typeName_refines rfl (fun ty =>
        .plainThen (expect_refines (by decide)) rfl (fun name => .plainThen (expect_refines (by decide)) rfl
        (fun sign => (expression_nested.blames.anywhere.before _).last) rfl) rfl) rfl) (by decide) ?_ (by decide)
      cases ty <;> decide
    · exact .pick .update update_blames.anywhere (by decide) (by decide) (by decide)
    · exact .idle rfl (by decide)
    · next ty name delimiter =>
      refine .idle rfl fun starting => ?_
      have inside : kind ∈ typeKinds ++ [.identifier] := starting
      rcases List.mem_append.mp inside with typed | named
      · obtain ⟨same, _, rfl⟩ := List.mem_map.mp typed
        exact ty same rfl
      · exact name (List.mem_singleton.mp named)
  · rw [forkInitializer, peek_run]
    generalize (current tokens).kind = kind at refused
    split
    · next ty => exact absurd (by cases ty <;> decide) refused
    · exact absurd (by decide) refused
    · exact absurd (by decide) refused
    · rfl

theorem forkCondition_blames (line : Nat) : Blames limit anything (· ∈ Symbol.forkCondition.follow)
    (forkCondition line) (.phrase .forkCondition) := by
  refine .choose .forkCondition (.peek fun kind _ => ?_) fun tokens refused => ?_
  · split
    · next past => exact .idle rfl (past ▸ by decide)
    · split
      · exact expression_nested.blames.anywhere.left rfl List.not_mem_nil
      · next barred =>
        refine .idle rfl fun starting => barred ((startsExpression_iff _).mpr ?_)
        have inside : kind ∈ expressionKinds ++ [] := starting
        rwa [List.append_nil] at inside
  · have going : (current tokens).kind ≠ .delimiter := fun past => refused (past ▸ by decide)
    have other : startsExpression (current tokens).kind = false := Bool.eq_false_iff.mpr fun starting =>
      refused (List.mem_append_left _ ((startsExpression_iff _).mp starting))
    rw [forkCondition, peek_run]
    simp only [if_neg going, other]
    rfl

theorem forkStep_blames (line : Nat) : Blames limit anything (· ∈ Symbol.forkStep.follow)
    (forkStep line) (.phrase .forkStep) := by
  refine .choose .forkStep (.peek fun kind _ => ?_) fun tokens refused => ?_
  · split
    · exact update_blames.anywhere.left rfl List.not_mem_nil
    · exact .idle rfl (by decide)
    · next name closing =>
      refine .idle rfl ?_
      simpa [Choice.symbol, rule, Form.optional, Form.update, Form.seq, Form.name, Form.first, Form.nullable] using name
  · rw [forkStep, peek_run]
    generalize (current tokens).kind = kind at refused
    split
    · exact absurd (by decide) refused
    · exact absurd (by decide) refused
    · rfl

theorem fork_blames (blames : Blames limit anything nothing block .block) :
    Blames limit anything nothing (fork block) (.phrase .fork) :=
  .phrase (.plainThen (expect_refines (by decide)) rfl (fun keyword => .plainThen (expect_refines (by decide)) rfl
    (fun opening => .closedThen (forkInitializer_refines _) (forkInitializer_blames _) (fun first =>
    .plainThen (expect_refines (by decide)) rfl (fun _ => .closedThen (forkCondition_refines _)
    (forkCondition_blames _) (fun condition => .plainThen (expect_refines (by decide)) rfl (fun _ =>
    .closedThen (forkStep_refines _) (forkStep_blames _) (fun step => .plainThen (expect_refines (by decide)) rfl
    (fun closing => (blames.before _).last) rfl) (by decide) rfl (by decide) rfl) rfl) (by decide) rfl (by decide)
    rfl) rfl) (by decide) rfl (by decide) rfl) rfl) rfl) rfl

end FishLang.Parse
