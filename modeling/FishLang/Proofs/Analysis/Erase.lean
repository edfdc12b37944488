import FishLang.Proofs.Analysis.Blur

namespace FishLang

namespace Node

mutual

-- The tree with other texts for the types at some places.
def erase (names : Place → Option String) : Node → Node
  | ⟨kind, value, children, line⟩ =>
    ⟨kind, if kind = .typeName then (names []).or value else value, eraseAll names 0 children, line⟩

def eraseAll (names : Place → Option String) (index : Nat) : List Node → List Node
  | [] => []
  | node :: rest => node.erase (fun place => names (index :: place)) :: eraseAll names (index + 1) rest

end

def Erases (node erased : Node) : Prop :=
  ∃ names : Place → Option String, (∀ place text, names place = some text → Ty.ofName? text = none) ∧
    erased = node.erase names

end Node

open Node Grammar

theorem eraseAll_erases {names : Place → Option String}
    (nameless : ∀ place text, names place = some text → Ty.ofName? text = none) (index : Nat) (nodes : List Node) :
    List.Forall₂ Erases nodes (eraseAll names index nodes) := by
  induction nodes generalizing index with
  | nil => exact .nil
  | cons node rest ih => exact .cons ⟨_, fun _ => nameless _, rfl⟩ (ih (index + 1))

theorem erases_fades : Fades Eq Erases where
  node := by
    rintro ⟨kind, value, children, line⟩ _ ⟨names, nameless, rfl⟩
    refine ⟨rfl, rfl, fun other => ?_, ?_⟩
    · simp [erase, Node.text, show kind ≠ .typeName from other]
    · cases kind with
      | typeName =>
        cases named : names [] with
        | none => exact .inr (by simp [erase, Node.ty?, named])
        | some text => exact .inl (by simp [erase, Node.ty?, named, nameless [] text named])
      | _ => exact .refl none
  children := by
    rintro ⟨kind, value, children, line⟩ _ ⟨names, nameless, rfl⟩
    exact eraseAll_erases nameless 0 children

-- Of a program with some of its types erased the same is reported, in the same order, but for mismatches left out.
theorem diagnostics_erase {root : Node} (program : Shaped .program root) (names : Place → Option String)
    (nameless : ∀ place text, names place = some text → Ty.ofName? text = none) :
    (root.erase names).diagnostics.Sublist root.diagnostics ∧
      (root.erase names).diagnostics.filter (·.kind != .typeMismatch) =
        root.diagnostics.filter (·.kind != .typeMismatch) := by
  have sheds := (erases_fades.together ⟨names, nameless, rfl⟩ program).sheds
  exact sheds.diagnostics

def mistyped : List Token :=
  [(.word .fish, "fish"), (.mark .leftBrace, "\x7b"), (.type .int, "<int"), (.identifier, "whole"), (.assign, "<="),
    (.string, "\"part\""), (.delimiter, "<D"), (.mark .rightBrace, "\x7d")].map
      fun (kind, lexeme) => ⟨kind, .unplaced, lexeme⟩

theorem mistyped_erase : ∃ root names, Node.ofTokens mistyped = .ok root ∧ Shaped .program root ∧
    (∀ place text, names place = some text → Ty.ofName? text = none) ∧
    root.diagnostics.map Diagnostic.kind = [.typeMismatch] ∧ (root.erase names).diagnostics = [] ∧
    (root.erase names).diagnostics.Sublist root.diagnostics ∧
      (root.erase names).diagnostics.filter (·.kind != .typeMismatch) =
        root.diagnostics.filter (·.kind != .typeMismatch) := by
  have accepted : Node.ofTokens mistyped = .ok _ := rfl
  have program := Node.ofTokens_shaped accepted
  let names : Place → Option String := fun place => if place = [0, 0, 0] then some "sardine" else none
  have nameless : ∀ place text, names place = some text → Ty.ofName? text = none := by
    intro place text named
    simp only [names, Option.ite_none_right_eq_some, Option.some.injEq] at named
    rw [← named.2]
    decide
  exact ⟨_, names, accepted, program, nameless, by decide, by decide, diagnostics_erase program names nameless⟩

end FishLang
