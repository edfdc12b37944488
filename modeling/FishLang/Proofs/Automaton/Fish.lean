import FishLang.Automaton.Fish
import FishLang.Proofs.Automaton.Grown
import FishLang.Text.Blank
import FishLang.Text.Letter

namespace FishLang

open Builder

def fishBase : Builder := Builder.empty.addAll baseEntries

-- The beginnings of the reserved spellings, and their states.
def reservedRuns : List (List Char) := nodesOf reservedEntries

def spot (run : List Char) : State := place reservedRuns run

theorem fish_builder : fishAutomaton = (fishBase.addAll reservedEntries).build := by
  unfold fishAutomaton Automaton.ofEntries fishBase addAll
  rw [List.foldl_append]

theorem reservedEntries_full : ∀ entry ∈ reservedEntries, entry.spelling ≠ [] := by decide +kernel

theorem fishBase_edges_fixed : ∀ row ∈ fishBase.edges.entries, row.1.1.number.toNat < 12 := by decide +kernel

theorem fishBase_accepting_fixed : ∀ row ∈ fishBase.accepting.entries, row.1.number.toNat < 12 := by decide +kernel

theorem fishBase_start_exact (c : Char) : fishBase.edges.find? (.start, .exact c) =
    if c = '"' then some .stringBody else if c = '\'' then some .charOpen else none := by
  by_cases string : c = '"'
  · rw [string]
    rfl
  · by_cases char : c = '\''
    · rw [char]
      rfl
    · rw [if_neg string, if_neg char]
      cases found : fishBase.edges.find? (.start, .exact c) with
      | none => rfl
      | some target =>
        have row := Table.mem_of_find? found
        have known : ∀ row ∈ fishBase.edges.entries, row.1.1 = .start →
            row.1.2 ∈ [Category.letter, .digit, .exact '"', .exact '\''] := by decide +kernel
        have category := known _ row rfl
        simp [string, char] at category

-- Spellings that no quote starts do not touch the base.
theorem fishBase_bare_of_unquoted {all : List (List Char)} (full : [] ∉ all) (few : all.length ≤ 65524)
    (unquoted : ∀ run ∈ all, ∀ c ∈ run.head?, c ≠ '"' ∧ c ≠ '\'') : Bare fishBase all := by
  refine bare_of_fixed full few fishBase_edges_fixed ?_ fishBase_accepting_fixed rfl rfl rfl
  intro run member c head
  have ⟨string, char⟩ := unquoted run member c head
  rw [fishBase_start_exact, if_neg string, if_neg char]

theorem reservedRuns_unquoted : ∀ run ∈ reservedRuns, ∀ c ∈ run.head?, c ≠ '"' ∧ c ≠ '\'' := by
  have checked : (reservedRuns.all fun run => run.head?.all fun c => c != '"' && c != '\'') = true := by
    decide +kernel
  simpa only [List.all_eq_true, Option.all_eq_true, Bool.and_eq_true, bne_iff_ne, Option.mem_def] using checked

theorem reservedRuns_full : [] ∉ reservedRuns := nodesOf_full reservedEntries

theorem reservedRuns_few : reservedRuns.length ≤ 65524 := by decide +kernel

theorem fishBase_bare : Bare fishBase reservedRuns :=
  fishBase_bare_of_unquoted reservedRuns_full reservedRuns_few reservedRuns_unquoted

theorem fish_grown : Grown fishBase reservedEntries fishAutomaton :=
  ⟨fishBase_bare, reservedEntries_full, _, fish_builder, addAll_learned fishBase_bare reservedEntries_full⟩

section Edges

theorem step_run (member : run ∈ reservedRuns) (category : Category) :
    fishAutomaton.step (spot run) category = edgeAt reservedRuns reservedRuns reservedEntries run category :=
  fish_grown.step_run member category

theorem step_start (category : Category) : fishAutomaton.step .start category =
    (edgeAt reservedRuns reservedRuns reservedEntries [] category).or (fishBase.edges.find? (.start, category)) :=
  fish_grown.step_start category

theorem step_fixed {state : State} {category : Category} {target : Option State} (behind : state ≠ .start)
    (fixed : state.number.toNat < 12) (found : fishBase.edges.find? (state, category) = target) :
    fishAutomaton.step state category = target :=
  (fish_grown.step_fixed behind fixed).trans found

end Edges

section Marks

theorem classify_run (member : run ∈ reservedRuns) :
    fishAutomaton.classify (spot run) = kindAt reservedEntries run :=
  fish_grown.classify_run member

theorem classify_fixed {state : State} {kind : Option Kind} (fixed : state.number.toNat < 12)
    (found : fishBase.accepting.find? state = kind) : fishAutomaton.classify state = kind :=
  (fish_grown.classify_fixed fixed).trans found

theorem onReservedPath_fixed {state : State} (fixed : state.number.toNat < 12) :
    fishAutomaton.onReservedPath state = false :=
  fish_grown.onReservedPath_fixed fixed

end Marks

end FishLang
