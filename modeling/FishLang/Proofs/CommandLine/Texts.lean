import FishLang.CommandLine.Plan
import FishLang.Proofs.Analysis.Message
import FishLang.Proofs.Document.Encode
import FishLang.Proofs.Document.Read

namespace FishLang

theorem Diagnostic.render_eq (diagnostic : Diagnostic) :
    diagnostic.render = "[line " ++ toString diagnostic.line ++ "] " ++ diagnostic.message := rfl

theorem Diagnostic.printed_render {diagnostic : Diagnostic} (printed : Printed diagnostic.message.toList) :
    Printed diagnostic.render.toList := by
  simp only [render_eq, String.toList_append, printed_append]
  exact ⟨⟨⟨by decide, printed_number _⟩, by decide⟩, printed⟩

-- The line on a token: where it is, set to the right, its kind, filled up with blanks, and its lexeme.
def Token.Row (token : Token) (row : String) : Prop :=
  let place := token.line?.elim "-" toString
  let name := token.kind.name
  ∃ before behind : Nat, before + place.length = max 4 place.length ∧ behind + name.length = max 18 name.length ∧
    row = .ofList (.replicate before ' ') ++ place ++ "  " ++ name ++ .ofList (.replicate behind ' ') ++ " " ++
      token.lexeme

namespace Options

variable {options : Options}

theorem tokensText_coded (json : options.json = true) (tokens : List Token) :
    Document.read? (options.tokensText tokens) = some (.list (tokens.map Token.document)) := by
  rw [tokensText, if_pos json, Document.read?_render]

theorem tokensText_plain (plain : options.json = false) (tokens : List Token) :
    ∃ rows, List.Forall₂ Token.Row tokens rows ∧ options.tokensText tokens = "\n".intercalate rows := by
  rw [tokensText, plain, if_neg Bool.false_ne_true]
  refine ⟨_, List.forall₂_map_right_iff.mpr (List.forall₂_same.mpr fun token _ => ?_), rfl⟩
  refine ⟨4 - _, 18 - _, Nat.sub_add_eq_max .., Nat.sub_add_eq_max .., ?_⟩
  simp only [Entry.padLeft, Entry.padRight, String.append_assoc]

theorem treeText_coded (json : options.json = true) (node : Node) :
    Document.read? (options.treeText node) = some node.document := by
  rw [treeText, if_pos json, Document.read?_render]

theorem treeText_plain (plain : options.json = false) (node : Node) : options.treeText node = node.pretty := by
  rw [treeText, plain, if_neg Bool.false_ne_true]

theorem diagnosticsText_coded (json : options.json = true) (diagnostics : List Diagnostic) :
    Document.read? (options.diagnosticsText diagnostics) =
      some (.list (diagnostics.map fun diagnostic => .record [("message", .text diagnostic.message),
        ("line", .number diagnostic.line), ("kind", .text diagnostic.kind.label)])) := by
  rw [diagnosticsText, if_pos json, Document.read?_render]
  rfl

theorem diagnosticsText_nil (plain : options.json = false) : options.diagnosticsText [] = "" := by
  rw [diagnosticsText, plain, if_neg Bool.false_ne_true]
  rfl

theorem diagnosticsText_plain (plain : options.json = false) {diagnostics : List Diagnostic}
    (printed : ∀ diagnostic ∈ diagnostics, Printed diagnostic.message.toList) (some : diagnostics ≠ []) :
    splitLines (options.diagnosticsText diagnostics).toList = diagnostics.map fun diagnostic =>
      ("[line " ++ toString diagnostic.line ++ "] " ++ diagnostic.message).toList := by
  have single : ∀ line ∈ (diagnostics.map Diagnostic.render).map String.toList, '\n' ∉ line := by
    simp only [List.forall_mem_map]
    exact fun diagnostic among => (Diagnostic.printed_render (printed diagnostic among)).single
  rw [diagnosticsText, plain, if_neg Bool.false_ne_true, String.toList_intercalate, toList_newline,
    splitLines_intercalate single (by simpa using some), List.map_map]
  rfl

end Options

end FishLang
