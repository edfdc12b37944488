import FishLang.Proofs.Grammar.Tree

namespace FishLang.Grammar

-- What a node is there for.
inductive Role where
  | program | block | item | expression
  | typeName | initializer | params | param | args
  -- What stands in several places: a variable with its value, a change of one, a call, a clause left out.
  | initialized | update | call | absent
  -- The clauses of a loop.
  | start | condition | step
deriving DecidableEq, Repr

def Role.admits : Role → List Role
  | .item => [.block, .initialized, .update, .call]
  | .expression => [.call]
  | .start => [.absent, .initialized, .update]
  | .condition => [.absent, .expression]
  | .step => [.absent, .update]
  | _ => []

def counts : List Operator := [.increment, .decrement]
def signs : List Operator := [.add, .sub]
def operations : List Operator :=
  [.equal, .unequal, .less, .greater, .lessEqual, .greaterEqual, .add, .sub, .mul, .div, .rem]

inductive Shaped : Role → Node → Prop where
  | program (inner : Shaped .block body) : Shaped .program (.group .program [body] line)
  | block (inner : ∀ node ∈ items, Shaped .item node) : Shaped .block (.group .block items line)
  | typeName : Shaped .typeName (.ofTy ty line)
  | declaration (typed : Shaped .typeName ty) : Shaped .item ⟨.declaration, some name, [ty], line⟩
  | initialized (typed : Shaped .typeName ty) (given : Shaped .initializer value) :
      Shaped .initialized ⟨.declaration, some name, [ty, value], line⟩
  | initializer (given : Shaped .expression value) : Shaped .initializer (.group .initializer [value] line)
  | functionDef (taken : Shaped .params params) (typed : Shaped .typeName result) (inner : Shaped .block body) :
      Shaped .item ⟨.functionDef, some name, [params, result, body], line⟩
  | params (taken : ∀ node ∈ params, Shaped .param node) : Shaped .params (.group .params params line)
  | param (typed : Shaped .typeName ty) : Shaped .param ⟨.param, some name, [ty], line⟩
  | when (given : Shaped .expression condition) (inner : Shaped .block body)
      (last : ∀ node ∈ other, Shaped .block node) (once : other.length ≤ 1) :
      Shaped .item (.group .when (condition :: body :: other) line)
  | whale (given : Shaped .expression condition) (inner : Shaped .block body) :
      Shaped .item (.group .whale [condition, body] line)
  | fork (first : Shaped .start start) (given : Shaped .condition condition) (next : Shaped .step step)
      (inner : Shaped .block body) : Shaped .item (.group .fork [start, condition, step, body] line)
  | attempt (inner : Shaped .block body) (rescue : Shaped .block handler)
      (last : ∀ node ∈ other, Shaped .block node) (once : other.length ≤ 1) :
      Shaped .item (.group .attempt (body :: handler :: other) line)
  | splash (given : Shaped .expression value) : Shaped .item (.group .splash [value] line)
  | emerge (given : Shaped .expression value) : Shaped .item (.group .emerge [value] line)
  | assign (given : Shaped .expression value) : Shaped .update ⟨.assign, some name, [value], line⟩
  | count (counts : op ∈ counts) :
      Shaped .update ⟨.suffix, some op.symbol, [.leaf .var name under], line⟩
  | call (taken : Shaped .args args) : Shaped .call ⟨.call, some name, [args], line⟩
  | args (taken : ∀ node ∈ given, Shaped .expression node) : Shaped .args (.group .args given line)
  | binary (operates : op ∈ operations) (one : Shaped .expression left) (two : Shaped .expression right) :
      Shaped .expression ⟨.binary, some op.symbol, [left, right], line⟩
  | unary (signs : op ∈ signs) (one : Shaped .expression operand) :
      Shaped .expression ⟨.unary, some op.symbol, [operand], line⟩
  | suffix (counts : op ∈ counts) (one : Shaped .expression operand) :
      Shaped .expression ⟨.suffix, some op.symbol, [operand], line⟩
  | var : Shaped .expression (.leaf .var name line)
  | num : Shaped .expression (.leaf .num text line)
  | string : Shaped .expression (.leaf .string text line)
  | char : Shaped .expression (.leaf .char text line)
  | absent : Shaped .absent (.absent line)
  | takes (among : other ∈ role.admits) (node : Shaped other value) : Shaped role value

theorem Shaped.typeName_eq (shaped : Shaped .typeName node) : ∃ ty line, node = .ofTy ty line := by
  cases shaped with
  | typeName => exact ⟨_, _, rfl⟩
  | takes among => cases among

theorem Shaped.initializer_eq (shaped : Shaped .initializer node) :
    ∃ value line, node = .group .initializer [value] line ∧ Shaped .expression value := by
  cases shaped with
  | initializer given => exact ⟨_, _, rfl, given⟩
  | takes among => cases among

theorem Shaped.params_eq (shaped : Shaped .params node) :
    ∃ params line, node = .group .params params line ∧ ∀ param ∈ params, Shaped .param param := by
  cases shaped with
  | params taken => exact ⟨_, _, rfl, taken⟩
  | takes among => cases among

theorem Shaped.param_eq (shaped : Shaped .param node) :
    ∃ name ty line, node = ⟨.param, some name, [ty], line⟩ ∧ Shaped .typeName ty := by
  cases shaped with
  | param typed => exact ⟨_, _, _, rfl, typed⟩
  | takes among => cases among

theorem Shaped.args_eq (shaped : Shaped .args node) :
    ∃ given line, node = .group .args given line ∧ ∀ value ∈ given, Shaped .expression value := by
  cases shaped with
  | args taken => exact ⟨_, _, rfl, taken⟩
  | takes among => cases among

theorem Shaped.of_binary (shaped : Shaped role node) (binary : node.kind = .binary) :
    ∃ op left right line, node = ⟨.binary, some op.symbol, [left, right], line⟩ ∧ op ∈ operations ∧
      Shaped .expression left ∧ Shaped .expression right := by
  induction shaped with
  | binary operates one two => exact ⟨_, _, _, _, rfl, operates, one, two⟩
  | takes _ _ ih => exact ih binary
  | _ => cases binary

theorem Shaped.of_declaration (shaped : Shaped role node) (declaration : node.kind = .declaration) :
    ∃ name ty line, Shaped .typeName ty ∧ (node = ⟨.declaration, some name, [ty], line⟩ ∨
      ∃ value below, node = ⟨.declaration, some name, [ty, .group .initializer [value] below], line⟩ ∧
        Shaped .expression value) := by
  induction shaped with
  | declaration typed => exact ⟨_, _, _, typed, .inl rfl⟩
  | initialized typed given =>
    obtain ⟨value, below, rfl, inner⟩ := given.initializer_eq
    exact ⟨_, _, _, typed, .inr ⟨value, below, rfl, inner⟩⟩
  | takes _ _ ih => exact ih declaration
  | _ => cases declaration

theorem Shaped.of_param (shaped : Shaped role node) (param : node.kind = .param) :
    ∃ name ty line, node = ⟨.param, some name, [ty], line⟩ ∧ Shaped .typeName ty := by
  induction shaped with
  | param typed => exact ⟨_, _, _, rfl, typed⟩
  | takes _ _ ih => exact ih param
  | _ => cases param

theorem Shaped.of_functionDef (shaped : Shaped role node) (function : node.kind = .functionDef) :
    ∃ name params below result body line,
      node = ⟨.functionDef, some name, [.group .params params below, result, body], line⟩ ∧
      (∀ param ∈ params, Shaped .param param) ∧ Shaped .typeName result := by
  induction shaped with
  | functionDef taken typed _ =>
    obtain ⟨params, below, rfl, each⟩ := taken.params_eq
    exact ⟨_, params, below, _, _, _, rfl, each, typed⟩
  | takes _ _ ih => exact ih function
  | _ => cases function

theorem Shaped.of_assign (shaped : Shaped role node) (assign : node.kind = .assign) :
    ∃ name value line, node = ⟨.assign, some name, [value], line⟩ ∧ Shaped .expression value := by
  induction shaped with
  | assign given => exact ⟨_, _, _, rfl, given⟩
  | takes _ _ ih => exact ih assign
  | _ => cases assign

theorem Shaped.of_emerge (shaped : Shaped role node) (emerge : node.kind = .emerge) :
    ∃ value line, node = .group .emerge [value] line ∧ Shaped .expression value := by
  induction shaped with
  | emerge given => exact ⟨_, _, rfl, given⟩
  | takes _ _ ih => exact ih emerge
  | _ => cases emerge

theorem Shaped.of_call (shaped : Shaped role node) (call : node.kind = .call) :
    ∃ name given below line, node = ⟨.call, some name, [.group .args given below], line⟩ ∧
      ∀ value ∈ given, Shaped .expression value := by
  induction shaped with
  | call taken =>
    obtain ⟨given, below, rfl, each⟩ := taken.args_eq
    exact ⟨_, given, below, _, rfl, each⟩
  | takes _ _ ih => exact ih call
  | _ => cases call

theorem Shaped.child (shaped : Shaped role node) : ∀ child ∈ node.children, ∃ role, Shaped role child := by
  induction shaped with
  | program inner | initializer inner | assign inner | splash inner | emerge inner | call inner | unary _ inner
  | suffix _ inner | declaration inner | param inner =>
    intro child member
    cases List.mem_singleton.mp member
    exact ⟨_, inner⟩
  | block inner | params inner | args inner =>
    intro child member
    exact ⟨_, inner child member⟩
  | takes _ _ ih => exact ih
  | typeName | var | num | string | char | absent => simp [Node.ofTy, Node.leaf, Node.absent, Node.group]
  | count _ =>
    intro child member
    cases List.mem_singleton.mp member
    exact ⟨_, .var⟩
  | initialized one two | binary _ one two | whale one two =>
    simpa [Node.group] using ⟨⟨_, one⟩, ⟨_, two⟩⟩
  | functionDef one two three => simpa using ⟨⟨_, one⟩, ⟨_, two⟩, ⟨_, three⟩⟩
  | fork one two three four => simpa [Node.group] using ⟨⟨_, one⟩, ⟨_, two⟩, ⟨_, three⟩, ⟨_, four⟩⟩
  | when one two others _ | attempt one two others _ =>
    simpa [Node.group] using ⟨⟨_, one⟩, ⟨_, two⟩, fun child member => ⟨_, others child member⟩⟩

def Each (role : Role) (nodes : List Node) : Prop := ∀ node ∈ nodes, Shaped role node
def One (role : Role) (nodes : List Node) : Prop := ∃ node, nodes = [node] ∧ Shaped role node
def Perhaps (role : Role) (nodes : List Node) : Prop := nodes.length ≤ 1 ∧ Each role nodes

theorem One.each (one : One role nodes) : Each role nodes := by
  obtain ⟨node, rfl, shaped⟩ := one
  simpa [Each] using shaped

theorem One.perhaps (one : One role nodes) : Perhaps role nodes := by
  obtain ⟨node, rfl, shaped⟩ := one
  simpa [Perhaps, Each] using shaped

theorem each_nil : Each role [] := by simp [Each]

theorem each_append : Each role (front ++ back) ↔ Each role front ∧ Each role back := by
  simp [Each, or_imp, forall_and]

theorem perhaps_nil : Perhaps role [] := ⟨by simp, each_nil⟩

theorem Perhaps.cases (perhaps : Perhaps role nodes) : nodes = [] ∨ One role nodes := by
  obtain ⟨short, each⟩ := perhaps
  match nodes with
  | [] => exact .inl rfl
  | [node] => exact .inr ⟨node, rfl, each node (by simp)⟩
  | _ :: _ :: _ => simp at short

-- What a symbol stands for, by roles.
def Fits : Symbol → List Node → Prop
  | .program => One .program
  | .block => One .block
  | .items => Each .item
  | .item | .declaration | .functionDef | .statement | .nameStatement => One .item
  | .when | .whale | .fork | .attempt | .splash | .emerge => One .item
  | .declarationTail => Perhaps .initializer
  | .typeName => One .typeName
  | .params | .moreParams => Each .param
  | .param => One .param
  | .otherwise | .lastly => Perhaps .block
  | .forkInitializer => fun nodes => ∀ line, Shaped .start (clause line nodes)
  | .forkCondition => fun nodes => ∀ line, Shaped .condition (clause line nodes)
  | .forkStep => fun nodes => ∀ line, Shaped .step (clause line nodes)
  | .expression | .level _ | .signed | .suffixed | .primary => One .expression
  | .arguments => Each .expression

theorem Fits.operand {level : Level} (fits : Fits level.operand nodes) : One .expression nodes := by
  cases level <;> exact fits

-- The goal holds however the form lays out its parts, as long as every symbol in it stands for nodes that fit.
-- Of the tokens only the kinds are known.
def Ensures : Form → (goal : List Part → Prop) → Prop
  | .token kinds, goal => ∀ token, token.kind ∈ kinds → goal [.token token]
  | .phrase symbol, goal => ∀ nodes, Fits symbol nodes → goal [.nodes nodes]
  | .done, goal => goal []
  | .and first second, goal => Ensures first fun ahead => Ensures second fun others => goal (ahead ++ others)
  | .or first second, goal => Ensures first goal ∧ Ensures second goal
  | .many form, goal =>
    ∀ turns : List (List Part), (∀ turn ∈ turns, ∀ within, Ensures form within → within turn) → goal turns.flatten

theorem each_then (first : Each role front) (others : Each role back) : Each role (front ++ (back ++ [])) := by
  rw [List.append_nil]
  exact each_append.mpr ⟨first, others⟩

theorem one_alone (one : One role nodes) : One role (nodes ++ []) := by
  rw [List.append_nil]
  exact one

theorem ensures_program : Ensures (rule .program) fun parts => Fits .program (build .program parts) := by
  intro keyword _ body inner ending _
  obtain ⟨block, rfl, shaped⟩ := inner
  exact ⟨_, rfl, .program shaped⟩

theorem ensures_block : Ensures (rule .block) fun parts => Fits .block (build .block parts) := by
  intro opening _ items inner closing _
  exact ⟨_, rfl, .block inner⟩

theorem ensures_items : Ensures (rule .items) fun parts => Fits .items (build .items parts) := by
  constructor
  · intro first one rest others
    exact each_then one.each others
  · exact each_nil

theorem ensures_item : Ensures (rule .item) fun parts => Fits .item (build .item parts) := by
  refine ⟨?_, ?_, ?_⟩
  · intro nodes one
    exact one_alone one
  · intro nodes one
    exact one_alone one
  · intro nodes one
    exact one_alone one

theorem ensures_declaration :
    Ensures (rule .declaration) fun parts => Fits .declaration (build .declaration parts) := by
  intro types typed name _ tail perhaps
  obtain ⟨ty, rfl, typed⟩ := typed
  cases Perhaps.cases perhaps with
  | inl none =>
    subst none
    exact ⟨_, rfl, .declaration typed⟩
  | inr one =>
    obtain ⟨value, rfl, given⟩ := one
    exact ⟨_, rfl, .takes (by decide) (.initialized typed given)⟩

theorem ensures_declarationTail :
    Ensures (rule .declarationTail) fun parts => Fits .declarationTail (build .declarationTail parts) := by
  constructor
  · intro sign _ nodes given ending _
    obtain ⟨value, rfl, given⟩ := given
    exact One.perhaps ⟨_, rfl, .initializer given⟩
  · intro ending _
    exact perhaps_nil

theorem ensures_typeName : Ensures (rule .typeName) fun parts => Fits .typeName (build .typeName parts) := by
  intro token allowed
  obtain ⟨ty, _, same⟩ := List.mem_map.mp allowed
  refine ⟨.ofTy ty token.line, ?_, .typeName⟩
  show typeOf token = _
  simp [typeOf, ← same]

theorem ensures_functionDef :
    Ensures (rule .functionDef) fun parts => Fits .functionDef (build .functionDef parts) := by
  intro keyword _ name _ opening _ params taken closing _ types typed body inner
  obtain ⟨ty, rfl, typed⟩ := typed
  obtain ⟨block, rfl, inner⟩ := inner
  exact ⟨_, rfl, .functionDef (.params taken) typed inner⟩

theorem ensures_params : Ensures (rule .params) fun parts => Fits .params (build .params parts) := by
  constructor
  · intro first one rest others
    exact each_then one.each others
  · exact each_nil

theorem ensures_moreParams : Ensures (rule .moreParams) fun parts => Fits .moreParams (build .moreParams parts) := by
  constructor
  · intro comma _ first one rest others
    exact each_then one.each others
  · exact each_nil

theorem ensures_param : Ensures (rule .param) fun parts => Fits .param (build .param parts) := by
  intro types typed name _
  obtain ⟨ty, rfl, typed⟩ := typed
  exact ⟨_, rfl, .param typed⟩

theorem symbol?_of_mem (operators : List Operator) (token : Token)
    (allowed : token.kind ∈ operators.map Kind.operator) :
    ∃ op ∈ operators, token.kind.symbol? = some op.symbol := by
  obtain ⟨op, among, same⟩ := List.mem_map.mp allowed
  exact ⟨op, among, by rw [← same]; rfl⟩

theorem shaped_count (name op : Token) (allowed : op.kind ∈ [Operator.increment, .decrement].map Kind.operator) :
    Shaped .update (Grammar.count name op) := by
  obtain ⟨sign, among, same⟩ := symbol?_of_mem _ op allowed
  rw [Grammar.count, same]
  exact .count among

theorem ensures_nameStatement :
    Ensures (rule .nameStatement) fun parts => Fits .nameStatement (build .nameStatement parts) := by
  intro name _
  refine ⟨?_, ?_, ?_⟩
  · intro opening _ given taken closing _ ending _
    exact ⟨_, rfl, .takes (by decide) (.call (.args taken))⟩
  · intro sign _ nodes given ending _
    obtain ⟨value, rfl, given⟩ := given
    exact ⟨_, rfl, .takes (by decide) (.assign given)⟩
  · intro op allowed ending _
    exact ⟨_, rfl, .takes (by decide) (shaped_count name op allowed)⟩

theorem ensures_when : Ensures (rule .when) fun parts => Fits .when (build .when parts) := by
  intro keyword _ opening _ conditions given closing _ body inner other last
  obtain ⟨condition, rfl, given⟩ := given
  obtain ⟨block, rfl, inner⟩ := inner
  exact ⟨_, rfl, .when given inner last.2 last.1⟩

theorem ensures_otherwise : Ensures (rule .otherwise) fun parts => Fits .otherwise (build .otherwise parts) := by
  constructor
  · intro keyword _ body inner
    obtain ⟨block, rfl, inner⟩ := inner
    exact One.perhaps ⟨_, rfl, inner⟩
  · exact perhaps_nil

theorem ensures_whale : Ensures (rule .whale) fun parts => Fits .whale (build .whale parts) := by
  intro keyword _ opening _ conditions given closing _ body inner
  obtain ⟨condition, rfl, given⟩ := given
  obtain ⟨block, rfl, inner⟩ := inner
  exact ⟨_, rfl, .whale given inner⟩

theorem ensures_fork : Ensures (rule .fork) fun parts => Fits .fork (build .fork parts) := by
  intro keyword _ opening _ start first _ _ condition given _ _ step next closing _ body inner
  obtain ⟨block, rfl, inner⟩ := inner
  exact ⟨_, rfl, .fork (first _) (given _) (next _) inner⟩

theorem ensures_forkInitializer :
    Ensures (rule .forkInitializer) fun parts => Fits .forkInitializer (build .forkInitializer parts) := by
  refine ⟨?_, ?_, ?_⟩
  · intro types typed name _ sign _ nodes given line
    obtain ⟨ty, rfl, typed⟩ := typed
    obtain ⟨value, rfl, given⟩ := given
    exact .takes (by decide) (.initialized typed (.initializer given))
  · intro name _
    constructor
    · intro sign _ nodes given line
      obtain ⟨value, rfl, given⟩ := given
      exact .takes (by decide) (.assign given)
    · intro op allowed line
      exact .takes (by decide) (shaped_count name op allowed)
  · intro line
    exact .takes (by decide) .absent

theorem ensures_forkCondition :
    Ensures (rule .forkCondition) fun parts => Fits .forkCondition (build .forkCondition parts) := by
  constructor
  · intro nodes given line
    obtain ⟨value, rfl, given⟩ := given
    exact .takes (by decide) given
  · intro line
    exact .takes (by decide) .absent

theorem ensures_forkStep : Ensures (rule .forkStep) fun parts => Fits .forkStep (build .forkStep parts) := by
  constructor
  · intro name _
    constructor
    · intro sign _ nodes given line
      obtain ⟨value, rfl, given⟩ := given
      exact .takes (by decide) (.assign given)
    · intro op allowed line
      exact .takes (by decide) (shaped_count name op allowed)
  · intro line
    exact .takes (by decide) .absent

theorem ensures_attempt : Ensures (rule .attempt) fun parts => Fits .attempt (build .attempt parts) := by
  intro keyword _ body inner _ _ handler rescue other last
  obtain ⟨block, rfl, inner⟩ := inner
  obtain ⟨saved, rfl, rescue⟩ := rescue
  exact ⟨_, rfl, .attempt inner rescue last.2 last.1⟩

theorem ensures_lastly : Ensures (rule .lastly) fun parts => Fits .lastly (build .lastly parts) := by
  constructor
  · intro keyword _ body inner
    obtain ⟨block, rfl, inner⟩ := inner
    exact One.perhaps ⟨_, rfl, inner⟩
  · exact perhaps_nil

theorem ensures_splash : Ensures (rule .splash) fun parts => Fits .splash (build .splash parts) := by
  intro keyword _ opening _ nodes given closing _ ending _
  obtain ⟨value, rfl, given⟩ := given
  exact ⟨_, rfl, .splash given⟩

theorem ensures_emerge : Ensures (rule .emerge) fun parts => Fits .emerge (build .emerge parts) := by
  intro keyword _ nodes given ending _
  obtain ⟨value, rfl, given⟩ := given
  exact ⟨_, rfl, .emerge given⟩

theorem turn_of_ensures {parts : List Part} (operators : List Operator) (operand : Symbol)
    (turn : ∀ within, Ensures (.seq [.operators operators, .phrase operand]) within → within parts) :
    ∃ token nodes, token.kind ∈ operators.map Kind.operator ∧ Fits operand nodes ∧
      parts = [.token token, .nodes nodes] := by
  apply turn
  intro token allowed nodes fits
  exact ⟨token, nodes, allowed, fits, rfl⟩

theorem operates (level : Level) : ∀ op ∈ level.operators, op ∈ operations := by
  cases level <;> decide

theorem shaped_chained (level : Level) {left : Node} (one : Shaped .expression left) (turns : List (List Part))
    (each : ∀ turn ∈ turns, ∀ within,
      Ensures (.seq [.operators level.operators, .phrase level.operand]) within → within turn) :
    Shaped .expression (chained left turns.flatten) := by
  induction turns generalizing left with
  | nil => exact one
  | cons turn turns ih =>
    obtain ⟨token, nodes, allowed, fits, rfl⟩ := turn_of_ensures _ _ (each turn (by simp))
    obtain ⟨op, among, same⟩ := symbol?_of_mem _ token allowed
    obtain ⟨operand, rfl, two⟩ := fits.operand
    show Shaped .expression (chained ⟨.binary, token.kind.symbol?, [left, operand], left.line⟩ turns.flatten)
    rw [same]
    apply ih (.binary (operates level op among) one two)
    intro other member
    exact each other (by simp [member])

theorem ensures_level (level : Level) :
    Ensures (rule (.level level)) fun parts => Fits (.level level) (build (.level level) parts) := by
  intro nodes fits turns each
  obtain ⟨operand, rfl, one⟩ := fits.operand
  refine ⟨chained operand turns.flatten, ?_, shaped_chained level one turns each⟩
  show [chained operand (turns.flatten ++ [])] = _
  rw [List.append_nil]

theorem ensures_signed : Ensures (rule .signed) fun parts => Fits .signed (build .signed parts) := by
  constructor
  · intro op allowed nodes given
    obtain ⟨operand, rfl, one⟩ := given
    obtain ⟨sign, among, same⟩ := symbol?_of_mem [.add, .sub] op allowed
    refine ⟨_, rfl, ?_⟩
    rw [same]
    exact .unary among one
  · intro nodes given
    exact one_alone given

theorem shaped_counted {operand : Node} (one : Shaped .expression operand) (turns : List (List Part))
    (each : ∀ turn ∈ turns, ∀ within, Ensures .counts within → within turn) :
    Shaped .expression (counted operand turns.flatten) := by
  induction turns generalizing operand with
  | nil => exact one
  | cons turn turns ih =>
    obtain ⟨token, allowed, rfl⟩ := each turn (by simp) (fun parts => ∃ token : Token,
      token.kind ∈ [Operator.increment, .decrement].map Kind.operator ∧ parts = [.token token])
      fun token allowed => ⟨token, allowed, rfl⟩
    obtain ⟨op, among, same⟩ := symbol?_of_mem _ token allowed
    show Shaped .expression (counted ⟨.suffix, token.kind.symbol?, [operand], operand.line⟩ turns.flatten)
    rw [same]
    apply ih (.suffix among one)
    intro other member
    exact each other (by simp [member])

theorem ensures_suffixed : Ensures (rule .suffixed) fun parts => Fits .suffixed (build .suffixed parts) := by
  intro nodes given turns each
  obtain ⟨operand, rfl, one⟩ := given
  refine ⟨counted operand turns.flatten, ?_, shaped_counted one turns each⟩
  show [counted operand (turns.flatten ++ [])] = _
  rw [List.append_nil]

theorem shaped_invocation (name opening : Token) (taken : Each .expression given) :
    Shaped .expression (invocation name opening given) :=
  .takes (by decide) (.call (.args taken))

theorem ensures_primary : Ensures (rule .primary) fun parts => Fits .primary (build .primary parts) := by
  refine ⟨?_, ?_, ?_, ?_, ?_⟩
  · intro name identifier
    constructor
    · intro opening _ given taken closing _
      exact ⟨_, rfl, shaped_invocation name opening taken⟩
    · refine ⟨_, rfl, ?_⟩
      simp only [List.mem_singleton] at identifier
      rw [single, identifier]
      exact .var
  · intro token number
    refine ⟨_, rfl, ?_⟩
    simp only [List.mem_singleton] at number
    rw [single, number]
    exact .num
  · intro token string
    refine ⟨_, rfl, ?_⟩
    simp only [List.mem_singleton] at string
    rw [single, string]
    exact .string
  · intro token char
    refine ⟨_, rfl, ?_⟩
    simp only [List.mem_singleton] at char
    rw [single, char]
    exact .char
  · intro opening _ nodes given closing _
    exact one_alone given

theorem ensures_arguments : Ensures (rule .arguments) fun parts => Fits .arguments (build .arguments parts) := by
  constructor
  · intro nodes one turns each
    have others : Each .expression (turns.flatten.flatMap Part.nodeList) := by
      intro node member
      simp only [List.mem_flatMap, List.mem_flatten] at member
      obtain ⟨part, ⟨turn, among, inside⟩, member⟩ := member
      apply each turn among fun parts => ∀ part ∈ parts, Each .expression part.nodeList
      · intro comma _ nodes given part member
        have either : part = .token comma ∨ part = .nodes nodes := by simpa using member
        cases either with
        | inl sign => exact sign ▸ each_nil
        | inr value => exact value ▸ given.each
      · exact inside
      · exact member
    show Each .expression (nodes ++ (turns.flatten ++ []).flatMap Part.nodeList)
    rw [List.append_nil]
    exact each_append.mpr ⟨one.each, others⟩
  · exact each_nil

theorem ensures_statement : Ensures (rule .statement) fun parts => Fits .statement (build .statement parts) := by
  have plain : ∀ symbol, Fits symbol = One .item → Ensures (.phrase symbol) fun parts =>
      Fits .statement (build .statement parts) := by
    intro symbol same nodes one
    rw [same] at one
    exact one_alone one
  refine ⟨plain _ rfl, plain _ rfl, plain _ rfl, plain _ rfl, plain _ rfl, plain _ rfl, ?_, plain _ rfl⟩
  intro nodes inner
  obtain ⟨block, rfl, inner⟩ := inner
  exact ⟨_, rfl, .takes (by decide) inner⟩

theorem ensures_expression :
    Ensures (rule .expression) fun parts => Fits .expression (build .expression parts) := by
  intro nodes given
  exact one_alone given

theorem ensures_rule (symbol : Symbol) : Ensures (rule symbol) fun parts => Fits symbol (build symbol parts) := by
  cases symbol with
  | program => exact ensures_program
  | block => exact ensures_block
  | items => exact ensures_items
  | item => exact ensures_item
  | declaration => exact ensures_declaration
  | declarationTail => exact ensures_declarationTail
  | typeName => exact ensures_typeName
  | functionDef => exact ensures_functionDef
  | params => exact ensures_params
  | moreParams => exact ensures_moreParams
  | param => exact ensures_param
  | statement => exact ensures_statement
  | nameStatement => exact ensures_nameStatement
  | when => exact ensures_when
  | otherwise => exact ensures_otherwise
  | whale => exact ensures_whale
  | fork => exact ensures_fork
  | forkInitializer => exact ensures_forkInitializer
  | forkCondition => exact ensures_forkCondition
  | forkStep => exact ensures_forkStep
  | attempt => exact ensures_attempt
  | lastly => exact ensures_lastly
  | splash => exact ensures_splash
  | emerge => exact ensures_emerge
  | expression => exact ensures_expression
  | level level => exact ensures_level level
  | signed => exact ensures_signed
  | suffixed => exact ensures_suffixed
  | primary => exact ensures_primary
  | arguments => exact ensures_arguments

theorem Reads.ensures (reads : Reads form run parts) : ∀ goal, Ensures form goal → goal parts := by
  induction reads with
  | token allowed =>
    intro goal ensures
    exact ensures _ allowed
  | @phrase symbol run parts body ih =>
    intro goal ensures
    exact ensures _ (ih _ (ensures_rule symbol))
  | done =>
    intro goal ensures
    exact ensures
  | and _ _ ihOne ihTwo =>
    intro goal ensures
    exact ihTwo _ (ihOne _ ensures)
  | left _ ih =>
    intro goal ensures
    exact ih _ ensures.1
  | right _ ih =>
    intro goal ensures
    exact ih _ ensures.2
  | stop =>
    intro goal ensures
    exact ensures [] (by simp)
  | @more form _ parts _ _ _ _ ihOne ihOthers =>
    intro goal ensures
    apply ihOthers fun rest => goal (parts ++ rest)
    intro turns each
    apply ensures (parts :: turns)
    intro turn member
    cases List.mem_cons.mp member with
    | inl first => exact first ▸ ihOne
    | inr later => exact each turn later

-- What a derivation of a symbol stands for fits the symbol.
theorem Reads.fits (reads : Reads (.phrase symbol) run [.nodes nodes]) : Fits symbol nodes := by
  apply reads.ensures fun parts => ∀ nodes, parts = [.nodes nodes] → Fits symbol nodes
  · intro nodes fits other same
    cases same
    exact fits
  · rfl

end FishLang.Grammar
