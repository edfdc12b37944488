import FishLang.Document.Encode
import FishLang.Proofs.Node.Label
import Mathlib.Logic.Function.Basic

namespace FishLang

theorem Diagnostic.Kind.label_injective : Function.Injective label := by
  intro kind other same
  have known : ∀ kind ∈ all, ∀ other ∈ all, kind.label = other.label → kind = other := by decide
  have mem (kind : Diagnostic.Kind) : kind ∈ all := by cases kind <;> decide
  exact known kind (mem kind) other (mem other) same

theorem Diagnostic.document_injective : Function.Injective document := by
  intro diagnostic other same
  obtain ⟨kind, line, message⟩ := diagnostic
  obtain ⟨kind', line', message'⟩ := other
  simp only [document, Document.record.injEq, List.cons.injEq, Prod.mk.injEq, Document.text.injEq,
    Document.number.injEq, true_and, and_true] at same
  obtain ⟨rfl, rfl, labels⟩ := same
  rw [Kind.label_injective labels]

def Document.kindLabel : Document → String
  | .text label => label
  | .record [(_, .text label)] => "Type(" ++ label ++ ")"
  | _ => ""

theorem Kind.document_injective : Function.Injective Kind.document := by
  intro kind other same
  have shown (kind : Kind) : kind.document.kindLabel = kind.label := by cases kind <;> rfl
  have labels : kind.label = other.label := by rw [← shown, ← shown, same]
  have known : ∀ kind ∈ all, ∀ other ∈ all, kind.label = other.label → kind = other := by decide +kernel
  exact known kind (mem_all kind) other (mem_all other) labels

theorem Span.document_injective : Function.Injective Span.document := by
  intro span other same
  obtain ⟨⟨_, _, _⟩, ⟨_, _, _⟩⟩ := span
  obtain ⟨⟨_, _, _⟩, ⟨_, _, _⟩⟩ := other
  simp_all [document]

theorem Token.document_injective : Function.Injective Token.document := by
  intro token other same
  obtain ⟨kind, span, lexeme⟩ := token
  obtain ⟨kind', span', lexeme'⟩ := other
  simp only [document, Document.record.injEq, List.cons.injEq, Prod.mk.injEq, Document.text.injEq, true_and,
    and_true] at same
  obtain ⟨kinds, spans, rfl⟩ := same
  rw [Kind.document_injective kinds, Span.document_injective spans]

namespace Node

theorem fields_injective {value value' : Option String} {documents documents' : List Document} {line line' : Nat}
    (same : value.toList.map (fun text => ("value", Document.text text)) ++
      (match documents with
        | [] => []
        | documents => [("children", .list documents)]) ++ [("line", .number line)] =
      value'.toList.map (fun text => ("value", .text text)) ++
      (match documents' with
        | [] => []
        | documents => [("children", .list documents)]) ++ [("line", .number line')]) :
    value = value' ∧ documents = documents' ∧ line = line' := by
  cases value <;> cases value' <;> cases documents <;> cases documents' <;> simp_all

mutual

theorem document_inj : (node other : Node) → node.document = other.document → node = other
  | ⟨kind, value, children, line⟩, ⟨kind', value', children', line'⟩, same => by
    simp only [document, List.cons_append, Document.record.injEq, List.cons.injEq, Prod.mk.injEq, Document.text.injEq,
      true_and] at same
    obtain ⟨labels, fields⟩ := same
    obtain ⟨rfl, below, rfl⟩ := fields_injective fields
    rw [Kind.label_injective labels, documents_inj children children' below]

theorem documents_inj : (nodes others : List Node) → documents nodes = documents others → nodes = others
  | [], [], _ => rfl
  | [], _ :: _, same => by cases same
  | _ :: _, [], same => by cases same
  | node :: nodes, other :: others, same => by
    obtain ⟨first, rest⟩ := List.cons.inj same
    rw [document_inj node other first, documents_inj nodes others rest]

end

theorem document_injective : Function.Injective document := document_inj

end Node

end FishLang
