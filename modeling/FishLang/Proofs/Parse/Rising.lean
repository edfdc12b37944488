import FishLang.Proofs.Parse.Lines
import FishLang.Proofs.Token.Cover

namespace FishLang

-- The lines of some nodes and of all below them, those of clauses left out apart.
def Node.lines (nodes : List Node) : List Nat := ((preorderAll nodes).filter (·.kind ≠ .empty)).map Node.line

def Rising (lines : List Nat) : Prop := lines.Pairwise (· ≤ ·)

namespace Node

theorem preorderAll_append (nodes others : List Node) :
    preorderAll (nodes ++ others) = preorderAll nodes ++ preorderAll others := by
  induction nodes with
  | nil => rfl
  | cons node nodes ih => rw [List.cons_append, preorderAll, preorderAll, ih, List.append_assoc]

@[simp] theorem lines_append (nodes others : List Node) : lines (nodes ++ others) = lines nodes ++ lines others := by
  simp [lines, preorderAll_append]

theorem lines_cons (node : Node) (nodes : List Node) : lines (node :: nodes) = lines [node] ++ lines nodes :=
  lines_append [node] nodes

theorem lines_full {node : Node} (full : node.kind ≠ .empty) : lines [node] = node.line :: lines node.children := by
  obtain ⟨kind, value, children, line⟩ := node
  simp [lines, preorderAll, preorder, show kind ≠ .empty from full]

theorem lines_sublist (node : Node) : (lines [node]).Sublist (node.line :: lines node.children) := by
  by_cases empty : node.kind = .empty
  · obtain ⟨kind, value, children, line⟩ := node
    simp [lines, preorderAll, preorder, show kind = .empty from empty]
  · simp [lines_full empty]

end Node

theorem Rising.sublist {lines less : List Nat} (rising : Rising lines) (fewer : less.Sublist lines) : Rising less :=
  List.Pairwise.sublist fewer rising

theorem rising_twice {front back : List Nat} {line : Nat} (rising : Rising (front ++ line :: back)) :
    Rising (front ++ line :: line :: back) := by
  simp only [Rising, List.pairwise_append, List.pairwise_cons, List.mem_cons] at rising ⊢
  grind

theorem Location.next_line (here : Location) (c : Char) : here.line ≤ (here.next c).line := by
  unfold next
  split <;> simp

theorem Location.after_line (here : Location) (cs : List Char) : here.line ≤ (here.after cs).line := by
  induction cs generalizing here with
  | nil => exact Nat.le_refl _
  | cons c cs ih => exact Nat.le_trans (here.next_line c) (ih (here.next c))

-- Tokens that cut a text up start on lines that never fall.
theorem Covers.rising (covers : Covers here cs tokens) :
    (∀ token ∈ tokens, here.line ≤ token.line) ∧ Rising (tokens.map Token.line) := by
  induction covers with
  | done => exact ⟨by simp, .nil⟩
  | @skip c _ _ here _ _ ih => exact ⟨fun token member => Nat.le_trans (here.next_line c) (ih.1 token member), ih.2⟩
  | @cut lexeme _ _ here kind _ _ ih =>
    have further := fun token member => Nat.le_trans (here.after_line lexeme) (ih.1 token member)
    exact ⟨List.forall_mem_cons.mpr ⟨Nat.le_refl _, further⟩, .cons (List.forall_mem_map.mpr further) ih.2⟩

open Node in
theorem rising_over {node : Node} (front : List Nat) {inner back : List Nat}
    (rising : Rising (front ++ (inner ++ back)))
    (children : (lines node.children).Sublist inner) (starts : inner.head? = some node.line) :
    Rising (front ++ (lines [node] ++ back)) := by
  obtain ⟨rest, rfl⟩ := List.head?_eq_some_iff.mp starts
  have twice : Rising (front ++ node.line :: node.line :: (rest ++ back)) := rising_twice rising
  have fewer : (lines [node]).Sublist (node.line :: node.line :: rest) :=
    (lines_sublist node).trans (children.cons_cons _)
  exact twice.sublist ((fewer.append_right back).append_left front)

theorem rising_first {node : Node} {inner back : List Nat} (rising : Rising (inner ++ back))
    (children : (Node.lines node.children).Sublist inner) (starts : inner.head? = some node.line) :
    Rising (Node.lines [node] ++ back) := rising_over [] rising children starts

theorem rising_node {node : Node} {inner : List Nat} (rising : Rising inner)
    (children : (Node.lines node.children).Sublist inner) (starts : inner.head? = some node.line) :
    Rising (Node.lines [node]) := by
  have alone := rising_first ((List.append_nil inner).symm ▸ rising) children starts
  rwa [List.append_nil] at alone

namespace Grammar

open Node

variable {run front back : List Token} {parts ahead behind : List Part}

def Part.lines : Part → List Nat
  | .token given => [given.line]
  | .nodes given => Node.lines given

-- No part holds a clause that is left out; a loop makes one of a part without nodes.
def Part.Full (part : Part) : Prop := ∀ node ∈ part.nodeList, node.kind ≠ .empty

theorem full_chained {left : Node} (parts : List Part) (full : left.kind ≠ .empty) :
    (chained left parts).kind ≠ .empty := by
  fun_induction chained left parts with
  | case1 left op right others ih => exact ih (by simp)
  | case2 => exact full

theorem full_counted {operand : Node} (parts : List Part) (full : operand.kind ≠ .empty) :
    (counted operand parts).kind ≠ .empty := by
  fun_induction counted operand parts with
  | case1 operand op others ih => exact ih (by simp)
  | case2 => exact full

theorem full_single (token : Token) : (single token).kind ≠ .empty := by
  unfold single
  split <;> nofun

theorem full_typeOf (token : Token) : ∀ node ∈ typeOf token, node.kind ≠ .empty := by
  unfold typeOf
  split <;> simp [Node.ofTy, Node.leaf]

theorem full_build (symbol : Symbol) (full : ∀ part ∈ parts, part.Full) :
    ∀ node ∈ build symbol parts, node.kind ≠ .empty := by
  unfold build
  split
  case h_5 token => exact full_typeOf token
  case h_27 =>
    intro node member
    obtain ⟨part, among, inside⟩ := List.mem_flatMap.mp member
    exact full part among node inside
  all_goals simp_all [Part.Full, Part.nodeList, declared, initialized, invocation, assignment, count, full_chained,
    full_counted, full_single, Node.group]

theorem rising_chained {left : Node} (full : left.kind ≠ .empty)
    (rising : Rising (Node.lines [left] ++ parts.flatMap Part.lines)) : Rising (Node.lines [chained left parts]) := by
  fun_induction chained left parts with
  | case1 left op right others ih =>
    have turn : Rising (Node.lines [left] ++ op.line :: Node.lines [right] ++ others.flatMap Part.lines) := by
      simpa [Part.lines] using rising
    have children : (Node.lines [left, right]).Sublist (Node.lines [left] ++ op.line :: Node.lines [right]) := by
      rw [lines_cons]
      exact (List.sublist_cons_self ..).append_left _
    exact ih (by simp) (rising_first turn children (by simp [lines_full full]))
  | case2 => exact rising.sublist (List.sublist_append_left ..)

theorem rising_counted {operand : Node} (full : operand.kind ≠ .empty)
    (rising : Rising (Node.lines [operand] ++ parts.flatMap Part.lines)) :
    Rising (Node.lines [counted operand parts]) := by
  fun_induction counted operand parts with
  | case1 operand op others ih =>
    have turn : Rising (Node.lines [operand] ++ [op.line] ++ others.flatMap Part.lines) := by
      simpa [Part.lines] using rising
    have children : (Node.lines [operand]).Sublist (Node.lines [operand] ++ [op.line]) :=
      List.sublist_append_left ..
    exact ih (by simp) (rising_first turn children (by simp [lines_full full]))
  | case2 => exact rising.sublist (List.sublist_append_left ..)

theorem nodeList_sublist (parts : List Part) :
    (Node.lines (parts.flatMap Part.nodeList)).Sublist (parts.flatMap Part.lines) := by
  induction parts with
  | nil => exact .refl _
  | cons part parts ih =>
    cases part with
    | token token => exact ih.cons token.line
    | nodes nodes => simpa [Part.lines, Part.nodeList] using ih

theorem rising_parts {node : Node} (rising : Rising (parts.flatMap Part.lines))
    (children : node.children = parts.flatMap Part.nodeList)
    (starts : (parts.flatMap Part.lines).head? = some node.line) : Rising (Node.lines [node]) :=
  rising_node rising (children ▸ nodeList_sublist parts) starts

theorem lines_clause (line : Nat) (nodes : List Node) :
    (Node.lines [clause line nodes]).Sublist (Node.lines nodes) := by
  cases nodes with
  | nil => exact .refl _
  | cons node others =>
    rw [lines_cons node]
    exact List.sublist_append_left ..

theorem rising_fork {keyword paren ending ending' closing : Token} {first condition step body : List Node}
    (rising : Rising ([Part.token keyword, .token paren, .nodes first, .token ending, .nodes condition, .token ending',
      .nodes step, .token closing, .nodes body].flatMap Part.lines)) :
    Rising (Node.lines [.group .fork ([first, condition, step].map (clause keyword.line) ++ body) keyword.line]) := by
  refine rising_node rising ?_ rfl
  have third := (lines_clause keyword.line step).append ((List.Sublist.refl (Node.lines body)).cons closing.line)
  have second := (lines_clause keyword.line condition).append (third.cons ending'.line)
  have front := (lines_clause keyword.line first).append (second.cons ending.line)
  have whole := (front.cons paren.line).cons keyword.line
  show (Node.lines ([clause _ first] ++ ([clause _ condition] ++ ([clause _ step] ++ body)))).Sublist _
  rw [lines_append, lines_append, lines_append]
  simpa [Part.lines] using whole

theorem rising_invocation {name paren : Token} {given : List Node} {others : List Part}
    (rising : Rising ((Part.token name :: .token paren :: .nodes given :: others).flatMap Part.lines)) :
    Rising (Node.lines [invocation name paren given]) := by
  refine rising_node rising ?_ rfl
  have args : Node.kind (.group .args given paren.line) ≠ .empty := nofun
  show (Node.lines [.group .args given paren.line]).Sublist _
  rw [lines_full args]
  exact ((List.sublist_append_left ..).cons_cons paren.line).cons name.line

theorem rising_count {name op : Token} {others : List Part}
    (rising : Rising ((Part.token name :: others).flatMap Part.lines)) : Rising (Node.lines [count name op]) :=
  rising_node rising ((List.nil_sublist _).cons_cons name.line) rfl

theorem rising_functionDef {keyword name paren closing : Token} {taken result body : List Node}
    (rising : Rising ([Part.token keyword, .token name, .token paren, .nodes taken, .token closing, .nodes result,
      .nodes body].flatMap Part.lines)) :
    Rising (Node.lines
      [⟨.functionDef, some name.lexeme, .group .params taken keyword.line :: result ++ body, keyword.line⟩]) := by
  refine rising_node rising ?_ rfl
  have params : Node.kind (.group .params taken keyword.line) ≠ .empty := nofun
  have others := (List.Sublist.refl (Node.lines result ++ Node.lines body)).cons closing.line
  have whole := ((others.append_left (Node.lines taken)).cons paren.line |>.cons name.line).cons_cons keyword.line
  show (Node.lines ([.group .params taken keyword.line] ++ (result ++ body))).Sublist _
  rw [lines_append, lines_append, lines_full params]
  simpa [Part.lines, Node.group] using whole

theorem rising_led {first node : Node} (full : first.kind ≠ .empty)
    (rising : Rising ((Part.nodes [first] :: parts).flatMap Part.lines))
    (children : node.children = (Part.nodes [first] :: parts).flatMap Part.nodeList) (same : first.line = node.line) :
    Rising (Node.lines [node]) :=
  rising_parts rising children (by simp [Part.lines, lines_full full, same])

theorem rising_initialized {value : Node} (full : value.kind ≠ .empty) (front : List Nat)
    (rising : Rising (front ++ Node.lines [value])) : Rising (front ++ Node.lines [initialized value]) := by
  rw [← List.append_nil (Node.lines _)] at rising ⊢
  exact rising_over front rising (.refl _) (by simp [lines_full full, initialized, Node.group])

theorem rising_forkInitializer {ty value : Node} {name sign : Token} (typed : ty.kind ≠ .empty)
    (given : value.kind ≠ .empty)
    (rising : Rising ([.nodes [ty], .token name, .token sign, .nodes [value]].flatMap Part.lines)) :
    Rising (Node.lines [declared ty name [initialized value]]) := by
  have settled : Rising ((Node.lines [ty] ++ [name.line, sign.line]) ++ Node.lines [initialized value]) :=
    rising_initialized given _ (by simpa [Part.lines] using rising)
  have laid : Rising ([.nodes [ty], .token name, .token sign, .nodes [initialized value]].flatMap Part.lines) := by
    simpa [Part.lines] using settled
  exact rising_led typed laid rfl rfl

theorem rising_typeOf (token : Token) : Rising (Node.lines (typeOf token)) := by
  unfold typeOf
  split
  · exact List.pairwise_singleton ..
  · exact List.Pairwise.nil

theorem rising_single (token : Token) : Rising (Node.lines [single token]) := by
  unfold single
  split <;> exact List.pairwise_singleton ..

theorem rising_build (symbol : Symbol) (full : ∀ part ∈ parts, part.Full)
    (rising : Rising (parts.flatMap Part.lines)) : Rising (Node.lines (build symbol parts)) := by
  have here {node : Node} (among : .nodes [node] ∈ parts) : node.kind ≠ .empty :=
    full _ among node (List.mem_singleton_self _)
  unfold build
  split
  -- A symbol that makes no node of its own.
  case h_27 => exact rising.sublist (nodeList_sublist _)
  -- Nodes on the line of what they stand over.
  case h_3 => exact rising_led (here (by simp)) rising (by simp [Part.nodeList, declared]) rfl
  case h_4 value _ =>
    have alone : Rising (Node.lines [value]) := rising.sublist (by simp [Part.lines])
    exact rising_initialized (here (by simp)) [] alone
  case h_7 => exact rising_led (here (by simp)) rising (by simp [Part.nodeList]) rfl
  case h_14 => exact rising_forkInitializer (here (by simp)) (here (by simp)) rising
  case h_22 => exact rising_chained (here (by simp)) rising
  case h_24 => exact rising_counted (here (by simp)) rising
  -- Nodes on the line of a token.
  case h_5 => exact rising_typeOf _
  case h_6 => exact rising_functionDef rising
  case h_13 => exact rising_fork rising
  case h_26 => exact rising_single _
  case h_8 | h_25 => exact rising_invocation rising
  case h_10 | h_16 | h_18 => exact rising_count rising
  all_goals exact rising_parts rising (by simp [Part.nodeList, assignment, Node.group]) rfl

theorem on_lines {p : Nat → Prop} (on : ∀ part ∈ parts, part.On p) :
    ∀ line ∈ parts.flatMap Part.lines, p line := by
  intro line member
  obtain ⟨part, among, inside⟩ := List.mem_flatMap.mp member
  cases part with
  | token token => exact List.mem_singleton.mp inside ▸ on _ among
  | nodes nodes =>
    simp only [Part.lines, Node.lines, List.mem_map, List.mem_filter, mem_preorderAll] at inside
    obtain ⟨inner, ⟨⟨node, given, below⟩, _⟩, rfl⟩ := inside
    exact on _ among node given inner below

-- What is read behind other tokens is not above what is read of those.
theorem Reads.rising_append (one : Reads first front ahead) (two : Reads second back behind)
    (rising : Rising ((front ++ back).map Token.line)) (above : Rising (ahead.flatMap Part.lines))
    (below : Rising (behind.flatMap Part.lines)) : Rising ((ahead ++ behind).flatMap Part.lines) := by
  rw [List.map_append] at rising
  obtain ⟨_, _, order⟩ := List.pairwise_append.mp rising
  rw [List.flatMap_append]
  refine List.pairwise_append.mpr ⟨above, below, fun line member line' member' => ?_⟩
  have early := on_lines (one.on fun token among => List.mem_map_of_mem among) line member
  have late := on_lines (two.on fun token among => List.mem_map_of_mem among) line' member'
  exact order line early line' late

theorem Reads.full (reads : Reads form run parts) : ∀ part ∈ parts, part.Full := by
  induction reads with
  | token _ => simp [Part.Full, Part.nodeList]
  | phrase _ ih => simpa [Part.Full, Part.nodeList] using full_build _ ih
  | done | stop => simp
  | and _ _ ihOne ihTwo => exact List.forall_mem_append.mpr ⟨ihOne, ihTwo⟩
  | left _ ih | right _ ih => exact ih
  | more _ _ ihOne ihOthers => exact List.forall_mem_append.mpr ⟨ihOne, ihOthers⟩

theorem Reads.rising (reads : Reads form run parts) (rising : Rising (run.map Token.line)) :
    Rising (parts.flatMap Part.lines) := by
  induction reads with
  | token _ => exact rising
  | phrase body ih => simpa [Part.lines] using rising_build _ body.full (ih rising)
  | done | stop => exact rising
  | left _ ih | right _ ih => exact ih rising
  | and one two ihOne ihTwo =>
    obtain ⟨above, below, _⟩ := List.pairwise_append.mp (List.map_append ▸ rising)
    exact one.rising_append two rising (ihOne above) (ihTwo below)
  | more one others ihOne ihOthers =>
    obtain ⟨above, below, _⟩ := List.pairwise_append.mp (List.map_append ▸ rising)
    exact one.rising_append others rising (ihOne above) (ihOthers below)

end Grammar

open Grammar in
theorem Node.ofTokens_rising {root : Node} (accepted : Node.ofTokens tokens = .ok root)
    (rising : Rising (tokens.map Token.line)) : Rising (lines [root]) := by
  obtain ⟨run, rest, keyword, body, rfl, reads, rfl⟩ := ofTokens_passed accepted
  have passed := reads.rising (rising.sublist ((List.sublist_append_left ..).map _))
  exact rising_parts passed (by simp [Part.nodeList, Node.group]) rfl

end FishLang
