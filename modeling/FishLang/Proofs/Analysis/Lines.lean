import FishLang.Check
import FishLang.Proofs.Analysis.Account
import FishLang.Proofs.Grammar.Placed
import FishLang.Proofs.Parse.Rising
import FishLang.Proofs.Token.Located
import FishLang.Proofs.Token.Spelling

namespace FishLang

namespace Node

variable {p : Nat → Prop} {root node : Node}

theorem On.at (on : root.On p) (present : root.at? place = some node) : node.On p := by
  induction place generalizing root with
  | nil =>
    cases present
    exact on
  | cons index place ih =>
    obtain ⟨child, among, below⟩ := Option.bind_eq_some_iff.mp present
    obtain ⟨kind, value, children, line⟩ := root
    exact ih (((on_mk ..).mp on).2 child (List.mem_of_getElem? among)) below

theorem On.reports (on : root.On p) (shaped : Grammar.Shaped .program root) :
    ∀ report ∈ root.reports, p report.line := by
  intro report member
  obtain ⟨place, node, present, due⟩ := mem_reports shaped member
  rw [line_faults root place node report due]
  exact (on.at present).line

end Node

open Grammar

-- The nodes of a text stand in its tokens, on the lines where their phrases start. Read from the front, the lines do
-- not fall, clauses left out apart, and all are lines of the text; so are those of the reports.
structure Node.Placed (text : String) (root : Node) : Prop where
  stands : ∀ around, Stands around (tokenize text ++ [Token.endOfInput]) root
  rising : ((root.preorder.filter (·.kind ≠ .empty)).map Node.line).Pairwise (· ≤ ·)
  counted : ∀ node ∈ root.preorder, 1 ≤ node.line ∧ node.line ≤ (splitLines text.toList).length
  shown : ∃ diagnostics, analyze text = .ok (root, diagnostics) ∧
    ∀ diagnostic ∈ diagnostics, ((SourceMap.ofText text).line? diagnostic.line).isSome

theorem Node.ofText_placed {text : String} {root : Node} (accepted : Node.ofText text = .ok root) :
    root.Placed text := by
  have covers := tokenize_covers text
  have on : root.On fun line => ((SourceMap.ofText text).line? line).isSome :=
    ofTokens_on accepted fun token member => covers.line?_isSome member
  constructor
  · exact (ofTokens_sound (endOfInput_not_mem_tokenize text) accepted).stands
  · have rising := ofTokens_rising accepted covers.rising.2
    rwa [Rising, lines, preorderAll, preorderAll, List.append_nil] at rising
  · intro node member
    exact (SourceMap.line?_isSome text node.line).mp (on node member)
  · refine ⟨root.diagnostics, by rw [analyze, accepted]; rfl, fun diagnostic member => ?_⟩
    obtain ⟨report, among, rfl⟩ := List.mem_map.mp member
    exact on.reports (ofTokens_shaped accepted) report among

-- Operands between parentheses over two lines, arguments below their function, and a loop with an open end whose
-- condition is left out behind a value that stands further down. Nothing is declared but the function.
def scattered : String :=
  "fish \x7b\nfishtion f\n(<int a)\n<int \x7b emerge ((a\n<+ 2)) <* 3 <D \x7d\nfork (x <=\n0 <D <D x\n<++) \x7b\n" ++
    "y <= f\n(4) <D\n\x7d\n\x7d\n"

theorem scattered_placed : ∃ root, Node.ofText scattered = .ok root ∧
    root.preorder.map Node.line = [1, 1, 2, 2, 3, 3, 4, 4, 4, 4, 4, 4, 5, 5, 6, 6, 7, 6, 7, 7, 8, 9, 9, 10, 10] ∧
    root.diagnostics.map Diagnostic.line = [6, 7, 9] ∧ root.Placed scattered := by
  have read : (Node.ofText scattered).toOption.map
      (fun root => (root.preorder.map Node.line, root.diagnostics.map Diagnostic.line)) =
      some ([1, 1, 2, 2, 3, 3, 4, 4, 4, 4, 4, 4, 5, 5, 6, 6, 7, 6, 7, 7, 8, 9, 9, 10, 10], [6, 7, 9]) := by
    decide +kernel
  obtain ⟨root, found, lines⟩ := Option.map_eq_some_iff.mp read
  cases accepted : Node.ofText scattered with
  | error error =>
    rw [accepted] at found
    cases found
  | ok parsed =>
    rw [accepted] at found
    cases found
    obtain ⟨nodes, reports⟩ := Prod.mk.inj lines
    exact ⟨root, rfl, nodes, reports, Node.ofText_placed accepted⟩

end FishLang
