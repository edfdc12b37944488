import FishLang.Proofs.Grammar.Kept
import FishLang.Proofs.Grammar.Spelled
import FishLang.Proofs.Parse.Alike.Outcome
import FishLang.Proofs.Parse.Program

namespace FishLang

open Grammar

-- Tokens that spell the same are read alike.
theorem Node.ofTokens_spells {value : Node} (spells : Parse.Spells tokens other)
    (accepted : Node.ofTokens tokens = .ok value) :
    ∃ value', Node.ofTokens other = .ok value' ∧ value'.bare = value.bare := by
  have same := Node.ofTokens_outcome spells
  rw [accepted] at same
  cases read : Node.ofTokens other with
  | error error =>
    rw [read] at same
    cases same
  | ok value' =>
    rw [read] at same
    exact ⟨value', rfl, (Except.ok.inj same).symm⟩

-- The trees that are read are those of the shape of programs; and what is written of one is read as it, apart from
-- its lines.
theorem Node.ofTokens_spell :
    (∀ tokens root, Node.ofTokens tokens = .ok root → Shaped .program root) ∧
    ∀ root, Shaped .program root → ∀ tokens, Parse.Spells root.spell tokens →
      ∃ parsed, Node.ofTokens tokens = .ok parsed ∧ parsed.bare = root.bare := by
  refine ⟨fun _ _ accepted => Node.ofTokens_shaped accepted, fun root shaped tokens spells => ?_⟩
  have derives : Reads (.phrase .program) (root.spell ++ [Token.endOfInput]) [.nodes [root.bare]] := shaped.written
  obtain ⟨value, same, accepted⟩ := Node.ofTokens_complete derives
  cases same
  obtain ⟨parsed, accepted, bare⟩ := Node.ofTokens_spells spells accepted
  exact ⟨parsed, accepted, by rw [bare, Node.bare_bare]⟩

def remainder : Node :=
  let difference (left right : Node) : Node := .binary Operator.sub.symbol left right
  let printed : Node := .group .splash [difference (.leaf .var "a" 1) (difference (.leaf .var "b" 1) (.leaf .var "c" 1))] 1
  .group .program [.group .block [printed] 1] 1

theorem remainder_spell : Shaped .program remainder ∧
    ∃ parsed, Node.ofTokens remainder.spell = .ok parsed ∧ Shaped .program parsed ∧ parsed.bare = remainder.bare := by
  have shaped : Shaped .program remainder := by
    refine .program (.block fun node member => ?_)
    obtain rfl := List.mem_singleton.mp member
    exact .splash (.binary (by decide) .var (.binary (by decide) .var .var))
  obtain ⟨parsed, accepted, same⟩ := Node.ofTokens_spell.2 remainder shaped _ rfl
  exact ⟨shaped, parsed, accepted, Node.ofTokens_spell.1 _ _ accepted, same⟩

theorem Node.ofTokens_kept {root : Node} (spelled : ∀ token ∈ tokens, token.Spelled)
    (inside : ∀ token ∈ tokens, token.kind ≠ .endOfInput) (accepted : Node.ofTokens tokens = .ok root) :
    unparened root.spell = unparened tokens := by
  have each : ∀ token ∈ tokens ++ [Token.endOfInput], token.Spelled ∨ token = Token.endOfInput := by
    intro token member
    rcases List.mem_append.mp member with among | last
    · exact .inl (spelled token among)
    · exact .inr (List.mem_singleton.mp last)
  have kept := (Node.ofTokens_sound inside accepted).written each
  simpa using kept.symm

-- What is written of the tree of a text are the tokens of the text, in their order, parentheses apart.
theorem Node.ofText_unparened {text : String} {root : Node} (accepted : Node.ofText text = .ok root) :
    unparened root.spell = unparened (tokenize text) :=
  Node.ofTokens_kept (fun _ => tokenize_spelled) (endOfInput_not_mem_tokenize text) accepted

def grouped : String := "fish \x7b fork (<int n <= 1 <D n << (5) <D) \x7b splash (((n <+ 1)) <* \"a b\") <D \x7d \x7d"

theorem grouped_unparened : ∃ root, Node.ofText grouped = .ok root ∧
    " ".intercalate ((unparened root.spell).map Prod.snd) =
      "fish \x7b fork <int n <= 1 <D n << 5 <D \x7b splash n <+ 1 <* \"a b\" <D \x7d \x7d" ∧
    unparened root.spell = unparened (tokenize grouped) := by
  have read : (Node.ofText grouped).toOption.map (fun root => " ".intercalate ((unparened root.spell).map Prod.snd)) =
      some "fish \x7b fork <int n <= 1 <D n << 5 <D \x7b splash n <+ 1 <* \"a b\" <D \x7d \x7d" := by decide +kernel
  obtain ⟨root, found, spelled⟩ := Option.map_eq_some_iff.mp read
  cases accepted : Node.ofText grouped with
  | error error =>
    rw [accepted] at found
    cases found
  | ok parsed =>
    rw [accepted] at found
    cases found
    exact ⟨root, rfl, spelled, Node.ofText_unparened accepted⟩

end FishLang
