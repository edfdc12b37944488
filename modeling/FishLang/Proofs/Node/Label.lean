import FishLang.Node.Basic
import FishLang.Proofs.Text.Lines

namespace FishLang.Node.Kind

theorem label_letters (kind : Node.Kind) : ∀ c ∈ kind.label.toList, c.isAlpha = true := by
  have known : (all.all fun kind => kind.label.toList.all Char.isAlpha) = true := by decide +kernel
  exact List.all_eq_true.mp (List.all_eq_true.mp known kind (mem_all kind))

theorem label_full (kind : Node.Kind) : kind.label.toList ≠ [] := by
  cases kind <;> decide

theorem label_injective {kind other : Node.Kind} (same : kind.label = other.label) : kind = other := by
  have known : ∀ kind ∈ all, ∀ other ∈ all, kind.label = other.label → kind = other := by decide +kernel
  exact known kind (mem_all kind) other (mem_all other) same

theorem label_unique {kind other : Node.Kind} {tail tail' : List Char} (ends : ∀ c ∈ tail.head?, c.isAlpha = false)
    (ends' : ∀ c ∈ tail'.head?, c.isAlpha = false) (same : kind.label.toList ++ tail = other.label.toList ++ tail') :
    kind = other ∧ tail = tail' := by
  obtain ⟨labels, tails⟩ := run_unique (label_letters kind) ends (label_letters other) ends' same
  exact ⟨label_injective (String.toList_inj.mp labels), tails⟩

end FishLang.Node.Kind
