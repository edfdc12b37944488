import FishLang.Proofs.Automaton.Fish
import FishLang.Proofs.Token.Similar

namespace FishLang

open Builder

-- The states of one run by two orders of its spellings, or one state with a fixed meaning.
def SameRun (entries others : List Builder.Entry) (state state' : State) : Prop :=
  state.number.toNat < 12 ∧ state = state' ∨
    ∃ run ∈ nodesOf entries, state = place (nodesOf entries) run ∧ state' = place (nodesOf others) run

section Permuted

variable {entries others : List Builder.Entry} (perm : entries.Perm others)
include perm

theorem mem_nodesOf_perm (run : List Char) : run ∈ nodesOf entries ↔ run ∈ nodesOf others := by
  rw [mem_nodesOf, mem_nodesOf]
  simp only [perm.mem_iff]

theorem beginningCount_perm : beginningCount entries = beginningCount others := by
  have same : (nodesOf entries).Perm (nodesOf others) :=
    (List.perm_ext_iff_of_nodup (nodup_nodesOf entries) (nodup_nodesOf others)).mpr (mem_nodesOf_perm perm)
  rw [← length_nodesOf, ← length_nodesOf, same.length_eq]

theorem kindAt_perm (distinct : (entries.map Builder.Entry.spelling).Nodup) (run : List Char) :
    kindAt entries run = kindAt others run := by
  rw [kindAt, kindAt, lastKind?_perm distinct perm]
  simp only [perm.mem_iff]

theorem edgeAt_perm (run : List Char) (category : Category) :
    Option.Rel (SameRun entries others) (edgeAt (nodesOf entries) (nodesOf entries) entries run category)
      (edgeAt (nodesOf others) (nodesOf others) others run category) := by
  cases category with
  | exact c =>
    rw [edgeAt, edgeAt]
    by_cases member : run ++ [c] ∈ nodesOf entries
    · rw [if_pos member, if_pos ((mem_nodesOf_perm perm _).mp member)]
      exact .some (.inr ⟨_, member, rfl, rfl⟩)
    · rw [if_neg member, if_neg fun other => member ((mem_nodesOf_perm perm _).mpr other)]
      exact .none
  | letter | digit =>
    rw [edgeAt, edgeAt]
    simp only [perm.mem_iff]
    split
    · exact .some (.inl ⟨by decide, rfl⟩)
    · exact .none
  | literal => exact .none

variable {base : Builder} {one other : Automaton}

theorem sameRun_similar (grown : Grown base entries one) (grown' : Grown base others other)
    (distinct : (entries.map Builder.Entry.spelling).Nodup)
    (targets : ∀ row ∈ base.edges.entries, row.2.number.toNat < 12) :
    one.Similar other (SameRun entries others) where
  start := .inl ⟨by decide, rfl⟩
  ident := .inl ⟨by decide, rfl⟩
  fixed related near := by
    obtain ⟨_, same⟩ | ⟨run, member, rfl, rfl⟩ := related
    · exact same
    · have far := grown.far member
      have far' := grown'.far ((mem_nodesOf_perm perm run).mp member)
      omega
  step related category := by
    have based (state : State) : Option.Rel (SameRun entries others) (base.edges.find? (state, category))
        (base.edges.find? (state, category)) := by
      cases found : base.edges.find? (state, category) with
      | none => exact .none
      | some target => exact .some (.inl ⟨targets _ (Table.mem_of_find? found), rfl⟩)
    obtain ⟨near, rfl⟩ | ⟨run, member, rfl, rfl⟩ := related
    · next state =>
      by_cases start : state = .start
      · have onward := edgeAt_perm perm [] category
        rw [start, grown.step_start, grown'.step_start]
        generalize edgeAt (nodesOf entries) (nodesOf entries) entries [] category = next,
          edgeAt (nodesOf others) (nodesOf others) others [] category = next' at onward
        cases onward with
        | some related => exact .some related
        | none => exact based .start
      · rw [grown.step_fixed start near, grown'.step_fixed start near]
        exact based state
    · rw [grown.step_run member, grown'.step_run ((mem_nodesOf_perm perm run).mp member)]
      exact edgeAt_perm perm run category
  classify related := by
    obtain ⟨near, rfl⟩ | ⟨run, member, rfl, rfl⟩ := related
    · rw [grown.classify_fixed near, grown'.classify_fixed near]
    · rw [grown.classify_run member, grown'.classify_run ((mem_nodesOf_perm perm run).mp member)]
      exact kindAt_perm perm distinct run
  path related := by
    obtain ⟨near, rfl⟩ | ⟨run, member, rfl, rfl⟩ := related
    · rw [grown.onReservedPath_fixed near, grown'.onReservedPath_fixed near]
    · rw [Bool.eq_iff_iff, grown.onReservedPath_run member,
        grown'.onReservedPath_run ((mem_nodesOf_perm perm run).mp member)]
      simp only [perm.mem_iff]
  ends related := by
    obtain ⟨near, rfl⟩ | ⟨run, member, rfl, rfl⟩ := related
    · rw [grown.endsReserved_fixed near, grown'.endsReserved_fixed near]
    · rw [Bool.eq_iff_iff, grown.endsReserved_run member,
        grown'.endsReserved_run ((mem_nodesOf_perm perm run).mp member)]
      simp only [perm.mem_iff]

end Permuted

theorem fishBase_targets_fixed : ∀ row ∈ fishBase.edges.entries, row.2.number.toNat < 12 := by decide +kernel

theorem fishBase_grown {entries : List Builder.Entry} (full : ∀ entry ∈ entries, entry.spelling ≠ [])
    (unquoted : ∀ entry ∈ entries, ∀ c ∈ entry.spelling, c ≠ '"' ∧ c ≠ '\'') (few : beginningCount entries ≤ 65524) :
    Grown fishBase entries (.ofEntries (baseEntries ++ entries)) := by
  have bare : Bare fishBase (nodesOf entries) := by
    refine fishBase_bare_of_unquoted (nodesOf_full entries) (by rwa [length_nodesOf]) fun run member c head => ?_
    obtain ⟨_, entry, among, starts⟩ := mem_nodesOf.mp member
    exact unquoted entry among c (starts.subset (List.mem_of_mem_head? head))
  refine ⟨bare, full, _, ?_, addAll_learned bare full⟩
  rw [Automaton.ofEntries, addAll_append]
  rfl

-- In whatever order spellings are learned, every text is cut into the same tokens.
theorem scan?_perm {entries others : List Builder.Entry} (full : ∀ entry ∈ entries, entry.spelling ≠ [])
    (unquoted : ∀ entry ∈ entries, ∀ c ∈ entry.spelling, c ≠ '"' ∧ c ≠ '\'')
    (distinct : (entries.map Builder.Entry.spelling).Nodup) (few : beginningCount entries < 65524)
    (perm : entries.Perm others) (text : String) :
    ∃ tokens, (Automaton.ofEntries (baseEntries ++ entries)).scan? text = some tokens ∧
      (Automaton.ofEntries (baseEntries ++ others)).scan? text = some tokens := by
  have grown := fishBase_grown full unquoted (Nat.le_of_lt few)
  have grown' := fishBase_grown (fun entry among => full entry (perm.mem_iff.mpr among))
    (fun entry among => unquoted entry (perm.mem_iff.mpr among))
    (beginningCount_perm perm ▸ Nat.le_of_lt few)
  have apart : (Automaton.ofEntries (baseEntries ++ entries)).onReservedPath .ident = false :=
    grown.onReservedPath_fixed (by decide)
  obtain ⟨tokens, scanned⟩ := Automaton.scan?_isSome (.inl fun both => by rw [apart] at both; cases both.1) text
  have similar := sameRun_similar perm grown grown' distinct fishBase_targets_fixed
  exact ⟨tokens, scanned, Automaton.scan?_similar similar text ▸ scanned⟩

def sharedSpellings : List Builder.Entry :=
  [.word "fi" (.word .when), .word "fish" (.word .fish), .mark '<' (.mark .comma), .symbol "<=" .assign,
    .symbol "<==" (.operator .equal)]

theorem sharedSpellings_perm : ((∀ entry ∈ sharedSpellings, entry.spelling ≠ []) ∧
      (∀ entry ∈ sharedSpellings, ∀ c ∈ entry.spelling, c ≠ '"' ∧ c ≠ '\'') ∧
      (sharedSpellings.map Builder.Entry.spelling).Nodup ∧ beginningCount sharedSpellings < 65524 ∧
      sharedSpellings.Perm sharedSpellings.reverse) ∧
    ∃ tokens, (Automaton.ofEntries (baseEntries ++ sharedSpellings)).scan? "fis<==fi<!" = some tokens ∧
      (Automaton.ofEntries (baseEntries ++ sharedSpellings.reverse)).scan? "fis<==fi<!" = some tokens := by
  have full : ∀ entry ∈ sharedSpellings, entry.spelling ≠ [] := by decide
  have checked : (sharedSpellings.all fun entry => entry.spelling.all fun c => c != '"' && c != '\'') = true := by decide
  have unquoted : ∀ entry ∈ sharedSpellings, ∀ c ∈ entry.spelling, c ≠ '"' ∧ c ≠ '\'' := by
    simpa only [List.all_eq_true, Bool.and_eq_true, bne_iff_ne] using checked
  have distinct : (sharedSpellings.map Builder.Entry.spelling).Nodup := by decide
  have few : beginningCount sharedSpellings < 65524 := by decide
  have perm : sharedSpellings.Perm sharedSpellings.reverse := by decide
  exact ⟨⟨full, unquoted, distinct, few, perm⟩, scan?_perm full unquoted distinct few perm _⟩

end FishLang
