import FishLang.Proofs.Parse.Program

namespace FishLang

def Node.On (p : Nat → Prop) (node : Node) : Prop := ∀ inner ∈ node.preorder, p inner.line

namespace Node

variable {p : Nat → Prop}

@[simp] theorem on_mk (kind : Node.Kind) (value : Option String) (children : List Node) (line : Nat) :
    On p ⟨kind, value, children, line⟩ ↔ p line ∧ ∀ child ∈ children, child.On p := by
  simp only [On, preorder, List.forall_mem_cons, mem_preorderAll]
  constructor
  · exact fun both => ⟨both.1, fun child member inner among => both.2 inner ⟨child, member, among⟩⟩
  · rintro ⟨own, others⟩
    refine ⟨own, ?_⟩
    rintro inner ⟨child, member, among⟩
    exact others child member inner among

@[simp] theorem on_leaf (kind : Node.Kind) (value : String) (line : Nat) : On p (leaf kind value line) ↔ p line := by
  simp [leaf]

@[simp] theorem on_group (kind : Node.Kind) (children : List Node) (line : Nat) :
    On p (group kind children line) ↔ p line ∧ ∀ child ∈ children, child.On p := on_mk ..

theorem On.line {node : Node} (on : On p node) : p node.line := by
  obtain ⟨kind, value, children, line⟩ := node
  exact ((on_mk ..).mp on).1

end Node

namespace Grammar

variable {p : Nat → Prop}

def Part.On (p : Nat → Prop) : Part → Prop
  | .token given => p given.line
  | .nodes given => ∀ node ∈ given, node.On p

@[simp] theorem on_token (token : Token) : Part.On p (.token token) ↔ p token.line := Iff.rfl

@[simp] theorem on_nodes (nodes : List Node) : Part.On p (.nodes nodes) ↔ ∀ node ∈ nodes, node.On p := Iff.rfl

theorem on_chained {left : Node} {parts : List Part} (on : left.On p) (each : ∀ part ∈ parts, part.On p) :
    (chained left parts).On p := by
  fun_induction chained left parts with
  | case1 left op right others ih =>
    obtain ⟨_, operand, further⟩ := by simpa using each
    refine ih ?_ further
    simpa using ⟨on.line, on, operand⟩
  | case2 => exact on

theorem on_counted {operand : Node} {parts : List Part} (on : operand.On p) (each : ∀ part ∈ parts, part.On p) :
    (counted operand parts).On p := by
  fun_induction counted operand parts with
  | case1 operand op others ih =>
    refine ih ?_ (List.forall_mem_cons.mp each).2
    simpa using ⟨on.line, on⟩
  | case2 => exact on

theorem on_clause {line : Nat} {nodes : List Node} (here : p line) (each : ∀ node ∈ nodes, node.On p) :
    (clause line nodes).On p := by
  cases nodes with
  | nil => simpa [clause, Node.absent] using here
  | cons node others => exact each node (List.mem_cons_self ..)

theorem on_typeOf {token : Token} (here : p token.line) : ∀ node ∈ typeOf token, node.On p := by
  unfold typeOf
  split
  · simpa [Node.ofTy] using here
  · simp

theorem on_single {token : Token} (here : p token.line) : (single token).On p := by
  unfold single
  split <;> simpa using here

theorem on_nodeList {parts : List Part} (each : ∀ part ∈ parts, part.On p) :
    ∀ node ∈ parts.flatMap Part.nodeList, node.On p := by
  intro node member
  obtain ⟨part, among, inside⟩ := List.mem_flatMap.mp member
  cases part with
  | token token => cases inside
  | nodes nodes => exact each _ among node inside

-- What is built of parts stands where they stand.
theorem on_build (symbol : Symbol) {parts : List Part} (each : ∀ part ∈ parts, part.On p) :
    ∀ node ∈ build symbol parts, node.On p := by
  unfold build
  split
  case h_5 token => exact on_typeOf (by simpa using each)
  case h_27 => exact on_nodeList each
  -- Everywhere else the nodes of the parts are put under a new one, on the line of a part.
  all_goals simp_all [declared, initialized, invocation, assignment, count, or_imp, forall_and, Node.On.line, on_chained,
    on_counted, on_clause, on_single]

theorem Reads.on (reads : Reads form run parts) (each : ∀ token ∈ run, p token.line) : ∀ part ∈ parts, part.On p := by
  induction reads with
  | token _ => simpa using each
  | phrase _ ih => simpa using on_build _ (ih each)
  | done => simp
  | and _ _ ihOne ihTwo =>
    obtain ⟨front, back⟩ := List.forall_mem_append.mp each
    exact List.forall_mem_append.mpr ⟨ihOne front, ihTwo back⟩
  | left _ ih => exact ih each
  | right _ ih => exact ih each
  | stop => simp
  | more _ _ ihOne ihOthers =>
    obtain ⟨front, back⟩ := List.forall_mem_append.mp each
    exact List.forall_mem_append.mpr ⟨ihOne front, ihOthers back⟩

end Grammar

open Grammar in
theorem Node.ofTokens_on {p : Nat → Prop} {root : Node} (accepted : Node.ofTokens tokens = .ok root)
    (each : ∀ token ∈ tokens, p token.line) : root.On p := by
  obtain ⟨run, rest, keyword, body, rfl, reads, rfl⟩ := ofTokens_passed accepted
  have on := reads.on (List.forall_mem_append.mp each).1
  simpa using on

end FishLang
