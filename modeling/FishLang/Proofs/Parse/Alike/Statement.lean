import FishLang.Parse.Program
import FishLang.Proofs.Parse.Alike.Expression
import FishLang.Proofs.Parse.Statement

namespace FishLang.Parse

open Node

variable {limit limit' line line' : Nat} {starts : Kind → Prop} {block block' : Parse Node}

theorem typeName_alike : Alike limit limit' starts bare typeName typeName := by
  refine .peek fun kind _ => ?_
  split
  · exact .next (by rintro _ rfl; simp) fun _ _ _ _ => .pure rfl
  · exact .fail

theorem declaration_alike : Alike limit limit' starts bare declaration declaration := by
  refine typeName_alike.bind fun _ _ same => .expect (by decide) fun _ _ named => .peek fun kind _ => ?_
  split
  · refine .next (by rintro _ rfl; simp) fun _ _ _ _ => expression_alike.bind fun _ _ given =>
      .expect (by decide) fun _ _ _ => .pure ?_
    simp [initializer, same, given, Spells.lexeme named]
  · exact .next (by rintro _ rfl; simp) fun _ _ _ _ => .pure (by simp [same, Spells.lexeme named])
  · exact .fail

theorem parameterList_ends (bound : List Token) : parameterList bound [] = .error ⟨.noType, []⟩ := by
  cases bound <;> rfl

theorem parameterList_alike (bound bound' : List Token) :
    Alike bound.length bound'.length anything (List.map bare) (parameterList bound) (parameterList bound') := by
  refine Alike.turns ?_ ?_ bound bound' (Nat.le_refl _) (Nat.le_refl _)
  · intro bound bound'
    rw [parameterList_ends, parameterList_ends]
    exact ⟨rfl, rfl⟩
  · intro token bound token' bound' smaller' _ _ _ rest
    refine typeName_alike.bind fun _ _ same => .expect (by decide) fun _ _ named => .peek fun kind _ => ?_
    split
    · refine .take (by rintro _ rfl; simp) fun _ _ _ _ => rest.bind fun _ _ others => .pure ?_
      simp [same, others, Spells.lexeme named]
    · exact .pure (by simp [same, Spells.lexeme named])
    · exact .fail

theorem parameters_alike : Alike limit limit' starts bare (parameters line) (parameters line') := by
  have list {starts : Kind → Prop} : Alike limit limit' starts (List.map bare) (Parse.bounded parameterList)
      (Parse.bounded parameterList) := .bounded fun bound bound' _ _ => parameterList_alike bound bound'
  refine .peek fun kind _ => ?_
  split
  · exact .pure rfl
  · exact list.bind fun _ _ same => .pure (by simp [same])
  · exact .fail

theorem functionDef_alike (read : Alike limit limit' anything bare block block') :
    Alike limit limit' starts bare (functionDef block) (functionDef block') := by
  refine .expect (by decide) fun _ _ _ => .expect (by decide) fun _ _ named => .expect (by decide) fun _ _ _ =>
    parameters_alike.bind fun _ _ taken => .expect (by decide) fun _ _ _ => typeName_alike.bind fun _ _ typed =>
    read.bind fun _ _ inner => .pure ?_
  simp [taken, typed, inner, Spells.lexeme named]

theorem optionalBlock_alike {word : Word} {otherwise : Violation}
    (read : Alike limit limit' anything bare block block') :
    Alike limit limit' starts (List.map bare) (optionalBlock word otherwise block)
      (optionalBlock word otherwise block') := by
  refine .peek fun kind _ => ?_
  split
  · next same =>
    refine .next (by rintro _ rfl; simp [same]) fun _ _ _ _ => read.bind fun _ _ last => .pure ?_
    simp [last]
  · split
    · exact .pure rfl
    · exact .fail

theorem condition_alike {phrase : Phrase} :
    Alike limit limit' starts bare (parenthesized expression phrase) (parenthesized expression phrase) :=
  parenthesized_alike expression_alike

theorem when_alike (read : Alike limit limit' anything bare block block') :
    Alike limit limit' starts bare (when block) (when block') := by
  refine .expect (by decide) fun _ _ _ => condition_alike.bind fun _ _ given => read.bind fun _ _ inner =>
    (optionalBlock_alike read).bind fun _ _ other => .pure ?_
  simp [given, inner, other]

theorem whale_alike (read : Alike limit limit' anything bare block block') :
    Alike limit limit' starts bare (whale block) (whale block') := by
  refine .expect (by decide) fun _ _ _ => condition_alike.bind fun _ _ given => read.bind fun _ _ inner => .pure ?_
  simp [given, inner]

theorem change_alike {name name' : Token} (named : name.entry = name'.entry) :
    Alike limit limit' starts bare (change name) (change name') := by
  refine .peek fun kind _ => ?_
  split
  · refine .next (by rintro _ rfl; simp) fun _ _ _ _ => expression_alike.bind fun _ _ given => .pure ?_
    simp [given, Spells.lexeme named]
  · split
    · exact .next (by rintro _ rfl; simp) fun _ _ _ _ => .pure (by simp [Spells.lexeme named])
    · exact .fail
  · exact .fail

theorem update_alike : Alike limit limit' starts bare update update :=
  .expect (by decide) fun _ _ named => change_alike named

theorem forkInitializer_alike : Alike limit limit' starts bare (forkInitializer line) (forkInitializer line') := by
  refine .peek fun kind _ => ?_
  split
  · refine typeName_alike.bind fun _ _ same => .expect (by decide) fun _ _ named => .expect (by decide) fun _ _ _ =>
      expression_alike.bind fun _ _ given => .pure ?_
    simp [initializer, same, given, Spells.lexeme named]
  · exact update_alike
  · exact .pure rfl
  · exact .fail

theorem forkCondition_alike : Alike limit limit' starts bare (forkCondition line) (forkCondition line') := by
  refine .peek fun kind _ => ?_
  split
  · exact .pure rfl
  · split
    · exact expression_alike
    · exact .fail

theorem forkStep_alike : Alike limit limit' starts bare (forkStep line) (forkStep line') := by
  refine .peek fun kind _ => ?_
  split
  · exact update_alike
  · exact .pure rfl
  · exact .fail

theorem fork_alike (read : Alike limit limit' anything bare block block') :
    Alike limit limit' starts bare (fork block) (fork block') := by
  refine .expect (by decide) fun _ _ _ => .expect (by decide) fun _ _ _ => forkInitializer_alike.bind fun _ _ first =>
    .expect (by decide) fun _ _ _ => forkCondition_alike.bind fun _ _ condition => .expect (by decide) fun _ _ _ =>
    forkStep_alike.bind fun _ _ step => .expect (by decide) fun _ _ _ => read.bind fun _ _ inner => .pure ?_
  simp [first, condition, step, inner]

theorem attempt_alike (read : Alike limit limit' anything bare block block') :
    Alike limit limit' starts bare (attempt block) (attempt block') := by
  refine .expect (by decide) fun _ _ _ => read.bind fun _ _ inner => .expect (by decide) fun _ _ _ =>
    read.bind fun _ _ handler => (optionalBlock_alike read).bind fun _ _ last => .pure ?_
  simp [inner, handler, last]

theorem splash_alike : Alike limit limit' starts bare splash splash := by
  refine .expect (by decide) fun _ _ _ => condition_alike.bind fun _ _ given => .expect (by decide) fun _ _ _ =>
    .pure ?_
  simp [given]

theorem emerge_alike : Alike limit limit' starts bare emerge emerge := by
  refine .expect (by decide) fun _ _ _ => expression_alike.bind fun _ _ given => .expect (by decide) fun _ _ _ =>
    .pure ?_
  simp [given]

theorem action_alike {name name' : Token} (named : name.entry = name'.entry) :
    Alike limit limit' starts bare (action name) (action name') := by
  refine .peek fun kind _ => ?_
  split
  · exact call_alike expression_alike expression_starves expression_starves named
  · split
    · exact change_alike named
    · exact .fail

-- The second token is looked at only where the first one is passed anyway.
theorem nameAction_alike : Alike limit limit' (· = .identifier) bare nameAction nameAction :=
  .congr (.next (by rintro _ rfl; decide) fun _ _ named _ => action_alike named) (fun _ named => nameAction_eq named)
    fun _ named => nameAction_eq named

theorem nameStatement_alike : Alike limit limit' (· = .identifier) bare nameStatement nameStatement :=
  nameAction_alike.bind fun _ _ same => .expect (by decide) fun _ _ _ => .pure same

theorem item_alike (read : Alike limit limit' anything bare block block') :
    Alike limit limit' starts bare (item block) (item block') := by
  refine .peek fun kind _ => ?_
  split
  · exact declaration_alike
  · exact functionDef_alike read
  · exact when_alike read
  · exact whale_alike read
  · exact fork_alike read
  · exact attempt_alike read
  · exact splash_alike
  · exact emerge_alike
  · exact read.anywhere
  · exact nameStatement_alike
  · exact .fail

theorem item_takes {run rest : List Token} {value : Node} (read : Refines limit anything anything block .block node)
    (enough : (run ++ rest).length ≤ limit) (ran : item block (run ++ rest) = .ok (value, rest)) :
    1 ≤ run.length := by
  obtain ⟨passed, parts, split, reads, _⟩ := (item_refines read).sound enough trivial ran
  obtain rfl := List.append_cancel_right split
  exact List.length_pos_iff.mpr fun empty => nomatch reads.starts.1 empty

theorem itemList_ends (item : Parse Node) (bound : List Token) : itemList item bound [] = .ok ([], []) := by
  cases bound <;> rfl

theorem itemList_alike (read : Alike limit limit' anything bare block block')
    (follows : Refines limit anything anything block .block node) (bound bound' : List Token)
    (enough : bound.length ≤ limit) (enough' : bound'.length ≤ limit') :
    Alike bound.length bound'.length anything (List.map bare) (itemList (item block) bound)
      (itemList (item block') bound') := by
  refine Alike.turns ?_ ?_ bound bound' enough enough'
  · intro bound bound'
    rw [itemList_ends, itemList_ends]
    exact ⟨rfl, [], rfl, rfl⟩
  · intro token bound token' bound' smaller' fits _ large rest
    refine .peek fun kind _ => ?_
    split
    · exact .pure rfl
    · have first : Alike (bound.length + 1) smaller' (· = kind) bare (item block) (item block') :=
        (item_alike read).weaken fits large fun _ start => start
      refine first.bindPast 1 (fun short ran => item_takes follows (Nat.le_trans short fits) ran) fun _ _ same =>
        rest.bind fun _ _ others => .pure ?_
      simp [same, others]

theorem braced_alike (read : Alike limit limit' anything bare block block')
    (follows : Refines limit anything anything block .block node) :
    Alike (limit + 1) (limit' + 1) starts bare (braced block) (braced block') := by
  have items : Alike limit limit' anything (List.map bare) (Parse.bounded (itemList (item block)))
      (Parse.bounded (itemList (item block'))) :=
    .bounded fun bound bound' enough enough' => itemList_alike read follows bound bound' enough enough'
  refine .takeKind (by decide) fun _ _ _ => items.bind fun _ _ same => .expect (by decide) fun _ _ _ => .pure ?_
  simp [same]

theorem blockTo_ends (bound : List Token) :
    blockTo bound [] = .error ⟨.missing (.mark .leftBrace) .block, []⟩ := by
  cases bound <;> rfl

theorem blockTo_alike (bound bound' : List Token) :
    Alike bound.length bound'.length anything bare (blockTo bound) (blockTo bound') := by
  refine Alike.turns ?_ ?_ bound bound' (Nat.le_refl _) (Nat.le_refl _)
  · intro bound bound'
    rw [blockTo_ends, blockTo_ends]
    exact ⟨rfl, rfl⟩
  · intro token bound token' bound' smaller' _ _ _ rest
    exact (braced_alike rest (blockTo_refines bound)).weaken (Nat.le_refl _) (by omega) fun _ start => start

theorem block_alike : Alike limit limit' starts bare Parse.block Parse.block :=
  .bounded fun bound bound' _ _ => blockTo_alike bound bound'

theorem program_alike : Alike limit limit' starts bare program program := by
  refine .expect (by decide) fun _ _ _ => block_alike.bind fun _ _ same => .peek fun kind _ => ?_
  split
  · exact .pure (by simp [same])
  · exact .fail

-- A program is read without bounds: what is passed and the token at hand say all of how it ends.
theorem program_matches (tokens : List Token) : ∃ run, tokens = run ++ remaining (program tokens) ∧
    ∀ run' rest', Spells run run' → Shows (remaining (program tokens)) rest' →
      Matches bare rest' (program tokens) (program (run' ++ rest')) := by
  have alike (limit' : Nat) : Alike tokens.length limit' anything bare program program := program_alike
  obtain ⟨run, split, _⟩ := alike 0 tokens (Nat.le_refl _) trivial
  refine ⟨run, split, fun run' rest' spells shows => ?_⟩
  obtain ⟨again, split', same⟩ := alike (run' ++ rest').length tokens (Nat.le_refl _) trivial
  obtain rfl := List.append_cancel_right (split.symm.trans split')
  exact same run' rest' (Nat.le_refl _) spells shows

end FishLang.Parse
