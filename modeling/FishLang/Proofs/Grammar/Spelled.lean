import FishLang.Proofs.Grammar.Operand

namespace FishLang.Grammar

open Node

@[simp] theorem bare_line (node : Node) : node.bare.line = 0 := by
  obtain ⟨kind, value, children, line⟩ := node
  rfl

-- What is written of a node is a run of the symbol, and stands for the bare node.
def Derives (symbol : Symbol) (run : List Token) (node : Node) : Prop :=
  Reads (.phrase symbol) run [.nodes [node.bare]]

-- A clause of a loop, which may be left out.
def DerivesClause (symbol : Symbol) (run : List Token) (node : Node) : Prop :=
  ∃ made, node.bare = clause 0 made ∧ Reads (.phrase symbol) run [.nodes made]

def Written : Role → Node → Prop
  | .program, node => Derives .program (node.spell ++ [Token.endOfInput]) node
  | .block, node => Derives .item (node.itemOf node.spell) node ∧ Derives .block node.spell node
  | .item, node => Derives .item (node.itemOf node.spell) node
  | .expression, node => Derives (operandAt node.tightness) node.spell node
  | .typeName, node => Derives .typeName node.spell node
  | .initializer, node => ∃ value, node.bare = initialized value ∧
    Reads (.and .assign .expression) node.spell [.token (.fixed .assign), .nodes [value]]
  | .params, node => ∃ params, node.bare = .group .params params 0 ∧ Reads (.phrase .params) node.spell [.nodes params]
  | .param, node => Derives .param node.spell node
  | .args, node => ∃ given, node.bare = .group .args given 0 ∧ Reads (.phrase .arguments) node.spell [.nodes given]
  | .initialized, node => Derives .item (node.itemOf node.spell) node ∧ Derives .forkInitializer node.spell node
  | .update, node => Derives .item (node.itemOf node.spell) node ∧ Derives .forkInitializer node.spell node ∧
    Derives .forkStep node.spell node
  | .call, node => Derives .item (node.itemOf node.spell) node ∧ Derives (operandAt node.tightness) node.spell node
  | .absent, node => node.spell = [] ∧ node.bare = .absent 0
  | .start, node => DerivesClause .forkInitializer node.spell node
  | .condition, node => DerivesClause .forkCondition node.spell node
  | .step, node => DerivesClause .forkStep node.spell node

section

variable {node body handler value ty result params args condition start step left right : Node}
  {items listed other : List Node} {line : Nat} {name text : String} {op : Operator}

theorem derives_operand (written : Written .expression node) (least : Nat) :
    Derives (operandAt least) (node.operand least node.spell) node := by
  have inner : Reads .expression node.spell [.nodes [node.bare]] := Reads.expression written
  rw [Node.operand]
  split
  · have around : Reads (rule .primary) (parenthesized node.spell)
        [.token (.mark .leftParen), .nodes [node.bare], .token (.mark .rightParen)] :=
      .right (.right (.right (.right (.and (.token (by decide)) (.and inner (.and (.token (by decide)) .done))))))
    have primary : Derives .primary (parenthesized node.spell) node := .of_rule around rfl rfl
    exact Reads.of_primary primary least
  · next tight => exact Reads.looser written (Nat.le_of_not_lt tight)

def statements : List Symbol := [.when, .whale, .fork, .attempt, .splash, .emerge, .block, .nameStatement]

theorem Derives.statement {symbol : Symbol} (reads : Derives symbol run node) (among : symbol ∈ statements) :
    Derives .item run node := by
  have statement : Reads (rule .statement) run [.nodes [node.bare]] :=
    reads_any.mpr ⟨_, List.mem_map_of_mem among, reads⟩
  have inner : Reads (.phrase .statement) run [.nodes [node.bare]] := .of_rule statement rfl rfl
  exact .of_rule (.right (.right inner)) rfl rfl

theorem reads_name (name : String) : Reads .name [.named name] [.token (.named name)] :=
  .token (List.mem_singleton.mpr rfl)

theorem reads_delimiter : Reads .delimiter [.delimiter] [.token .delimiter] := .token (by decide)

theorem written_program (inner : Written .block body) : Written .program (.group .program [body] line) := by
  have row : Reads (rule .program) (.word .fish :: (body.spell ++ [Token.endOfInput]))
      [.token (.word .fish), .nodes [body.bare], .token .endOfInput] :=
    .and (.token (by decide)) (.and inner.2 (.and (.token (by decide)) .done))
  exact .of_rule row rfl rfl

theorem reads_items (inner : ∀ node ∈ items, Written .item node) :
    Reads (.phrase .items) (spellItems items) [.nodes (items.map bare)] := by
  induction items with
  | nil => exact .of_rule (.right .done) rfl rfl
  | cons node items ih =>
    have first : Derives .item (node.itemOf node.spell) node := inner node (by simp)
    have rest := ih fun node member => inner node (by simp [member])
    exact .of_rule (.left (.and first (.and rest .done)))
      (congrArg (node.itemOf node.spell ++ ·) (List.append_nil (spellItems items)).symm)
      (congrArg (node.bare :: ·) (List.append_nil (items.map bare)))

theorem written_block (inner : ∀ node ∈ items, Written .item node) : Written .block (.group .block items line) := by
  have row : Reads (rule .block) (.mark .leftBrace :: (spellItems items ++ [.mark .rightBrace]))
      [.token (.mark .leftBrace), .nodes (items.map bare), .token (.mark .rightBrace)] :=
    .and (.token (by decide)) (.and (reads_items inner) (.and (.token (by decide)) .done))
  have made : .group .block (items.map bare) 0 = bare (.group .block items line) := (bare_group ..).symm
  have block : Derives .block (spell (.group .block items line)) (.group .block items line) :=
    .of_rule row rfl (congrArg ([·]) made)
  exact ⟨block.statement (by decide), block⟩

theorem written_typeName (ty : Ty) : Written .typeName (.ofTy ty line) := by
  have typed : (Token.fixed (.type ty)).kind ∈ Ty.all.map Kind.type := List.mem_map_of_mem (Ty.mem_all ty)
  exact .of_rule (.token typed) (spell_ofTy ty line) rfl

theorem written_declaration (typed : Written .typeName ty) :
    Written .item ⟨.declaration, some name, [ty], line⟩ := by
  have tail : Reads (.phrase .declarationTail) [.delimiter] [.nodes []] :=
    .of_rule (.right (.token (by decide))) rfl rfl
  have row : Reads (rule .declaration) (ty.spell ++ [.named name, .delimiter])
      [.nodes [ty.bare], .token (.named name), .nodes []] :=
    .and typed (.and (reads_name name) (.and tail .done))
  have made : declared ty.bare (.named name) [] = bare ⟨.declaration, some name, [ty], line⟩ := by simp [declared]
  have declaration : Derives .declaration (ty.spell ++ [.named name, .delimiter]) ⟨.declaration, some name, [ty], line⟩ :=
    .of_rule row rfl (congrArg ([·]) made)
  exact .of_rule (.left declaration) (List.append_assoc ..) rfl

theorem written_initializer (given : Written .expression value) :
    Written .initializer (.group .initializer [value] line) :=
  ⟨value.bare, by simp [initialized], .and (.token (by decide)) (Reads.expression given)⟩

theorem written_initialized (typed : Written .typeName ty) (given : Written .initializer value) :
    Written .initialized ⟨.declaration, some name, [ty, value], line⟩ := by
  obtain ⟨inner, same, reads⟩ := given
  have made : declared ty.bare (.named name) [initialized inner] =
      bare ⟨.declaration, some name, [ty, value], line⟩ := by simp [declared, same]
  have tail : Reads (.phrase .declarationTail) (value.spell ++ [.delimiter]) [.nodes [initialized inner]] :=
    .of_rule (.left (reads_assoc.mp (.and reads (.and (.token (by decide)) .done)))) rfl rfl
  have row : Reads (rule .declaration) (ty.spell ++ .named name :: (value.spell ++ [.delimiter]))
      [.nodes [ty.bare], .token (.named name), .nodes [initialized inner]] :=
    .and typed (.and (reads_name name) (reads_and_done.mpr tail))
  have declaration : Derives .declaration (ty.spell ++ .named name :: (value.spell ++ [.delimiter]))
      ⟨.declaration, some name, [ty, value], line⟩ := .of_rule row rfl (congrArg ([·]) made)
  have clause : Reads (rule .forkInitializer) (ty.spell ++ .named name :: value.spell)
      [.nodes [ty.bare], .token (.named name), .token (.fixed .assign), .nodes [inner]] :=
    .left (.and typed (.and (reads_name name) (reads_and_mono id (fun last => reads_and_done.mpr last) reads)))
  exact ⟨.of_rule (.left declaration) (List.append_assoc ..) rfl, .of_rule clause rfl (congrArg ([·]) made)⟩

theorem written_param (typed : Written .typeName ty) : Written .param ⟨.param, some name, [ty], line⟩ := by
  have row : Reads (rule .param) (ty.spell ++ [.named name]) [.nodes [ty.bare], .token (.named name)] :=
    .and typed (.and (reads_name name) .done)
  have made : ⟨.param, some name, [ty.bare], ty.bare.line⟩ = bare ⟨.param, some name, [ty], line⟩ := by simp
  exact .of_rule row rfl (congrArg ([·]) made)

theorem reads_moreParams (taken : ∀ node ∈ listed, Written .param node) :
    Reads (.phrase .moreParams) (spellOthers listed) [.nodes (listed.map bare)] := by
  induction listed with
  | nil => exact .of_rule (.right .done) rfl rfl
  | cons node listed ih =>
    have one : Derives .param node.spell node := taken node (by simp)
    have more := ih fun node member => taken node (by simp [member])
    have row : Reads (rule .moreParams) (.mark .comma :: (node.spell ++ (spellOthers listed ++ [])))
        [.token (.mark .comma), .nodes [node.bare], .nodes (listed.map bare)] :=
      .left (.and (.token (by decide)) (.and one (.and more .done)))
    exact .of_rule row (by simp [spellOthers]) (congrArg (node.bare :: ·) (List.append_nil (listed.map bare)))

theorem reads_params (taken : ∀ node ∈ listed, Written .param node) :
    Reads (.phrase .params) (spellListed listed) [.nodes (listed.map bare)] := by
  cases listed with
  | nil => exact .of_rule (.right .done) rfl rfl
  | cons node listed =>
    have one : Derives .param node.spell node := taken node (by simp)
    have more := reads_moreParams fun node member => taken node (List.mem_cons_of_mem _ member)
    exact .of_rule (.left (.and one (reads_and_done.mpr more))) (spellListed_cons ..)
      (congrArg (node.bare :: ·) (List.append_nil (listed.map bare)))

theorem written_params (taken : ∀ node ∈ listed, Written .param node) : Written .params (.group .params listed line) :=
  ⟨listed.map bare, by simp, reads_params taken⟩

theorem written_functionDef (taken : Written .params params) (typed : Written .typeName result)
    (inner : Written .block body) :
    Written .item ⟨.functionDef, some name, [params, result, body], line⟩ := by
  obtain ⟨listed, same, listedReads⟩ := taken
  have row : Reads (rule .functionDef) (.word .fishtion :: .named name :: .mark .leftParen ::
      (params.spell ++ .mark .rightParen :: (result.spell ++ body.spell)))
      [.token (.word .fishtion), .token (.named name), .token (.mark .leftParen), .nodes listed,
        .token (.mark .rightParen), .nodes [result.bare], .nodes [body.bare]] :=
    .and (.token (by decide)) (.and (reads_name name) (.and (.token (by decide)) (.and listedReads
      (.and (.token (by decide)) (.and typed (reads_and_done.mpr inner.2))))))
  have made : ⟨.functionDef, some name, [.group .params listed 0, result.bare, body.bare], 0⟩ =
      bare ⟨.functionDef, some name, [params, result, body], line⟩ := by simp [same]
  have function : Derives .functionDef (spell ⟨.functionDef, some name, [params, result, body], line⟩)
      ⟨.functionDef, some name, [params, result, body], line⟩ := .of_rule row rfl (congrArg ([·]) made)
  exact .of_rule (.right (.left function)) (by simp [itemOf, delimited]) rfl

theorem reads_parenthesized (given : Written .expression value) : Reads .parenthesized (parenthesized value.spell)
    [.token (.mark .leftParen), .nodes [value.bare], .token (.mark .rightParen)] :=
  .and (.token (by decide)) (.and (Reads.expression given) (.and (.token (by decide)) .done))

theorem written_whale (given : Written .expression condition) (inner : Written .block body) :
    Written .item (.group .whale [condition, body] line) := by
  have row : Reads (rule .whale) (.word .whale :: (parenthesized condition.spell ++ body.spell))
      [.token (.word .whale), .token (.mark .leftParen), .nodes [condition.bare], .token (.mark .rightParen),
        .nodes [body.bare]] :=
    .and (.token (by decide)) (.and (reads_parenthesized given) (reads_and_done.mpr inner.2))
  have whale : Derives .whale (spell (.group .whale [condition, body] line)) (.group .whale [condition, body] line) :=
    .of_rule row rfl rfl
  exact whale.statement (by decide)

theorem written_splash (given : Written .expression value) : Written .item (.group .splash [value] line) := by
  have row : Reads (rule .splash) (.word .splash :: (parenthesized value.spell ++ [.delimiter]))
      [.token (.word .splash), .token (.mark .leftParen), .nodes [value.bare], .token (.mark .rightParen),
        .token .delimiter] :=
    .and (.token (by decide)) (.and (reads_parenthesized given) (.and (.token (by decide)) .done))
  have splash : Derives .splash (spell (.group .splash [value] line)) (.group .splash [value] line) :=
    .of_rule row rfl rfl
  exact splash.statement (by decide)

theorem written_emerge (given : Written .expression value) : Written .item (.group .emerge [value] line) := by
  have row : Reads (rule .emerge) (.word .emerge :: (value.spell ++ [.delimiter]))
      [.token (.word .emerge), .nodes [value.bare], .token .delimiter] :=
    .and (.token (by decide)) (.and (Reads.expression given) (.and (.token (by decide)) .done))
  have emerge : Derives .emerge (spell (.group .emerge [value] line)) (.group .emerge [value] line) :=
    .of_rule row rfl rfl
  exact emerge.statement (by decide)

theorem reads_opened {symbol : Symbol} {word : Word} (optional : rule symbol = .optional (.seq [.word word, .block]))
    (built : ∀ parts, build symbol parts = parts.flatMap Part.nodeList) (last : ∀ node ∈ other, Written .block node)
    (once : other.length ≤ 1) : Reads (.phrase symbol) (spellOpened word other) [.nodes (other.map bare)] := by
  match other, once with
  | [], _ =>
    refine .of_rule ?_ rfl (built [])
    rw [optional]
    exact .right .done
  | [node], _ =>
    have block : Reads .block node.spell [.nodes [node.bare]] := (last node (by simp)).2
    have keyword : Reads (.word word) [.word word] [.token (.word word)] := .token (List.mem_singleton.mpr rfl)
    refine .of_rule ?_ (List.append_nil _) (built [.token (.word word), .nodes [node.bare]])
    rw [optional]
    exact .left (.and keyword (reads_and_done.mpr block))

theorem written_when (given : Written .expression condition) (inner : Written .block body)
    (last : ∀ node ∈ other, Written .block node) (once : other.length ≤ 1) :
    Written .item (.group .when (condition :: body :: other) line) := by
  have otherwise : Reads (.phrase .otherwise) _ _ := reads_opened rfl (fun _ => rfl) last once
  have row : Reads (rule .when) (.word .when :: (parenthesized condition.spell ++ (body.spell ++
      spellOpened .otherwise other)))
      [.token (.word .when), .token (.mark .leftParen), .nodes [condition.bare], .token (.mark .rightParen),
        .nodes [body.bare], .nodes (other.map bare)] :=
    .and (.token (by decide)) (.and (reads_parenthesized given) (.and inner.2 (reads_and_done.mpr otherwise)))
  have made : .group .when (condition.bare :: body.bare :: other.map bare) 0 =
      bare (.group .when (condition :: body :: other) line) := by simp
  have when : Derives .when (spell (.group .when (condition :: body :: other) line))
      (.group .when (condition :: body :: other) line) := .of_rule row (spell_when _ _ once _) (congrArg ([·]) made)
  exact when.statement (by decide)

theorem written_attempt (inner : Written .block body) (rescue : Written .block handler)
    (last : ∀ node ∈ other, Written .block node) (once : other.length ≤ 1) :
    Written .item (.group .attempt (body :: handler :: other) line) := by
  have lastly : Reads (.phrase .lastly) _ _ := reads_opened rfl (fun _ => rfl) last once
  have row : Reads (rule .attempt) (.word .attempt :: (body.spell ++ .word .rescue :: (handler.spell ++
      spellOpened .lastly other)))
      [.token (.word .attempt), .nodes [body.bare], .token (.word .rescue), .nodes [handler.bare],
        .nodes (other.map bare)] :=
    .and (.token (by decide)) (.and inner.2 (.and (.token (by decide)) (.and rescue.2 (reads_and_done.mpr lastly))))
  have made : .group .attempt (body.bare :: handler.bare :: other.map bare) 0 =
      bare (.group .attempt (body :: handler :: other) line) := by simp
  have attempt : Derives .attempt (spell (.group .attempt (body :: handler :: other) line))
      (.group .attempt (body :: handler :: other) line) :=
    .of_rule row (spell_attempt _ _ once _) (congrArg ([·]) made)
  exact attempt.statement (by decide)

theorem written_fork (first : Written .start start) (given : Written .condition condition)
    (next : Written .step step) (inner : Written .block body) :
    Written .item (.group .fork [start, condition, step, body] line) := by
  obtain ⟨one, first, oneReads⟩ := first
  obtain ⟨two, given, twoReads⟩ := given
  obtain ⟨three, next, threeReads⟩ := next
  have row : Reads (rule .fork) (spell (.group .fork [start, condition, step, body] line))
      [.token (.word .fork), .token (.mark .leftParen), .nodes one, .token .delimiter, .nodes two, .token .delimiter,
        .nodes three, .token (.mark .rightParen), .nodes [body.bare]] :=
    .and (.token (by decide)) (.and (.token (by decide)) (.and oneReads (.and (.token (by decide)) (.and twoReads
      (.and (.token (by decide)) (.and threeReads (.and (.token (by decide)) (reads_and_done.mpr inner.2))))))))
  have made : .group .fork [clause 0 one, clause 0 two, clause 0 three, body.bare] 0 =
      bare (.group .fork [start, condition, step, body] line) := by simp [first, given, next]
  have fork : Derives .fork (spell (.group .fork [start, condition, step, body] line))
      (.group .fork [start, condition, step, body] line) := .of_rule row rfl (congrArg ([·]) made)
  exact fork.statement (by decide)

def changed : Form := .any [.seq [.assign, .expression], .counts]

theorem written_update (closed : node.kind ∈ delimited)
    (reads : Reads (.and .name changed) node.spell parts)
    (item : build .nameStatement (parts ++ [.token .delimiter]) = [node.bare])
    (start : build .forkInitializer parts = [node.bare]) (step : build .forkStep parts = [node.bare]) :
    Written .update node := by
  have clause : Reads .update node.spell parts := reads_and_mono id (fun last => reads_and_done.mpr last) reads
  have row : Reads (rule .nameStatement) (node.spell ++ [.delimiter]) (parts ++ [.token .delimiter]) :=
    reads_and_mono id (reads_and_mono .right id) (reads_assoc.mp (.and reads (.and (.token (by decide)) .done)))
  have statement : Derives .nameStatement (node.spell ++ [.delimiter]) node := .of_rule row rfl item
  refine ⟨?_, .of_rule (.right (.left clause)) rfl start, .of_rule (.left clause) rfl step⟩
  rw [itemOf, if_pos closed]
  exact statement.statement (by decide)

theorem written_assign (given : Written .expression value) : Written .update ⟨.assign, some name, [value], line⟩ := by
  have row : Reads (.and .name changed) (.named name :: .fixed .assign :: value.spell)
      [.token (.named name), .token (.fixed .assign), .nodes [value.bare]] :=
    .and (reads_name name) (.left (.and (.token (by decide)) (reads_and_done.mpr (Reads.expression given))))
  have made : assignment (.named name) value.bare = bare ⟨.assign, some name, [value], line⟩ := by simp [assignment]
  exact written_update (by simp [delimited]) row (congrArg ([·]) made) (congrArg ([·]) made) (congrArg ([·]) made)

theorem mem_counts_kinds (counting : op ∈ counts) :
    (Token.fixed (.operator op)).kind ∈ [Operator.increment, .decrement].map Kind.operator :=
  List.mem_map_of_mem counting

theorem written_count (counting : op ∈ counts) :
    Written .update ⟨.suffix, some op.symbol, [.leaf .var name below], line⟩ := by
  have spelled : spell ⟨.suffix, some op.symbol, [.leaf .var name below], line⟩ =
      [.named name, .fixed (.operator op)] := spell_suffix ..
  have row : Reads (.and .name changed) [.named name, .fixed (.operator op)]
      [.token (.named name), .token (.fixed (.operator op))] :=
    .and (reads_name name) (.right (.token (mem_counts_kinds counting)))
  have made : count (.named name) (.fixed (.operator op)) =
      bare ⟨.suffix, some op.symbol, [.leaf .var name below], line⟩ := by
    simp [count, Token.fixed, Kind.symbol?]
  rw [← spelled] at row
  exact written_update (by simp [delimited]) row (congrArg ([·]) made) (congrArg ([·]) made) (congrArg ([·]) made)

theorem reads_moreArguments (taken : ∀ node ∈ listed, Written .expression node) :
    ∃ parts, parts.flatMap Part.nodeList = listed.map bare ∧
      Reads (.many (.seq [.mark .comma, .expression])) (spellOthers listed) parts := by
  induction listed with
  | nil => exact ⟨[], rfl, .stop⟩
  | cons node listed ih =>
    obtain ⟨parts, made, reads⟩ := ih fun node member => taken node (by simp [member])
    have one : Reads .expression node.spell [.nodes [node.bare]] := Reads.expression (taken node (by simp))
    have turn : Reads (.seq [.mark .comma, .expression]) (.mark .comma :: node.spell)
        [.token (.mark .comma), .nodes [node.bare]] := .and (.token (by decide)) (reads_and_done.mpr one)
    exact ⟨_, by simp [Part.nodeList, made], .more turn reads⟩

theorem written_args (taken : ∀ node ∈ listed, Written .expression node) :
    Written .args (.group .args listed line) := by
  refine ⟨listed.map bare, by simp, ?_⟩
  cases listed with
  | nil => exact .of_rule (.right .done) rfl rfl
  | cons node listed =>
    obtain ⟨parts, made, more⟩ := reads_moreArguments fun node member => taken node (List.mem_cons_of_mem _ member)
    have one : Reads .expression node.spell [.nodes [node.bare]] := Reads.expression (taken node (by simp))
    exact .of_rule (.left (.and one (reads_and_done.mpr more))) (spellListed_cons ..)
      (congrArg (node.bare :: ·) made)

theorem written_call (taken : Written .args args) : Written .call ⟨.call, some name, [args], line⟩ := by
  obtain ⟨given, same, reads⟩ := taken
  have call : Reads .call (.mark .leftParen :: (args.spell ++ [.mark .rightParen]))
      [.token (.mark .leftParen), .nodes given, .token (.mark .rightParen)] :=
    .and (.token (by decide)) (.and reads (.and (.token (by decide)) .done))
  have made : invocation (.named name) (.mark .leftParen) given = bare ⟨.call, some name, [args], line⟩ := by
    simp [invocation, same]
  have statement : Derives .nameStatement (spell ⟨.call, some name, [args], line⟩ ++ [.delimiter])
      ⟨.call, some name, [args], line⟩ :=
    .of_rule (.and (reads_name name) (.and (.left call) (.and reads_delimiter .done)))
      rfl (congrArg ([·]) made)
  have primary : Derives .primary (spell ⟨.call, some name, [args], line⟩) ⟨.call, some name, [args], line⟩ :=
    .of_rule (.left (.and (reads_name name) (reads_and_done.mpr (.left call)))) rfl (congrArg ([·]) made)
  exact ⟨statement.statement (by decide), Reads.of_primary primary _⟩

theorem mem_level (operates : op ∈ operations) :
    (Token.fixed (.operator op)).kind ∈ op.level.operators.map Kind.operator := by
  have member : op ∈ op.level.operators := by
    revert op
    decide
  exact List.mem_map_of_mem member

theorem written_binary (operates : op ∈ operations) (one : Written .expression left)
    (two : Written .expression right) : Written .expression ⟨.binary, some op.symbol, [left, right], line⟩ := by
  have front := derives_operand one op.level.tightness
  have back := derives_operand two (op.level.tightness + 1)
  rw [operandAt_tightness] at front
  rw [operandAt_above] at back
  have row := Reads.operation front (mem_level operates) back
  have tight : tightness ⟨.binary, some op.symbol, [left, right], line⟩ = op.level.tightness := levelOf_symbol op
  have made : Turn.take left.bare ⟨.fixed (.operator op), right.bare⟩ =
      bare ⟨.binary, some op.symbol, [left, right], line⟩ := by
    simp [Turn.take, Token.fixed, Kind.symbol?]
  show Reads (.phrase (operandAt _)) _ _
  rw [tight, operandAt_tightness, spell_binary, ← made]
  exact row

theorem written_unary (sign : op ∈ signs) (one : Written .expression left) :
    Written .expression ⟨.unary, some op.symbol, [left], line⟩ := by
  have allowed : (Token.fixed (.operator op)).kind ∈ [Operator.add, .sub].map Kind.operator :=
    List.mem_map_of_mem sign
  have row := Reads.signedBy (derives_operand one signTightness) allowed
  show Reads (.phrase .signed) _ _
  rw [spell_unary, bare_mk]
  exact row

theorem written_suffix (counting : op ∈ counts) (one : Written .expression left) :
    Written .expression ⟨.suffix, some op.symbol, [left], line⟩ := by
  have row := Reads.countedOn (derives_operand one countTightness) (mem_counts_kinds counting)
  have made : countOn left.bare (.fixed (.operator op)) = bare ⟨.suffix, some op.symbol, [left], line⟩ := by
    simp [countOn, Token.fixed, Kind.symbol?]
  show Reads (.phrase .suffixed) _ _
  rw [spell_suffix, ← made]
  exact row

theorem written_single (kind : Kind) {token : Token} (spelled : node.spell = [token]) (same : token.kind = kind)
    (among : kind ∈ [Kind.identifier, .number, .string, .char]) (made : single token = node.bare) :
    Written .expression node := by
  have primary : Reads (rule .primary) [token] [.token token] := by
    subst same
    simp only [List.mem_cons, List.not_mem_nil, or_false] at among
    rcases among with name | number | string | char
    · exact .left (.and (.token (List.mem_singleton.mpr name)) (reads_and_done.mpr (.right .done)))
    · exact .right (.left (.token (List.mem_singleton.mpr number)))
    · exact .right (.right (.left (.token (List.mem_singleton.mpr string))))
    · exact .right (.right (.right (.left (.token (List.mem_singleton.mpr char)))))
  have one : Derives .primary node.spell node := .of_rule primary spelled (congrArg ([·]) made)
  exact Reads.of_primary one _

theorem DerivesClause.of_derives {symbol : Symbol} (derives : Derives symbol run node) :
    DerivesClause symbol run node := ⟨[node.bare], rfl, derives⟩

theorem DerivesClause.of_absent {symbol : Symbol} (empty : Reads (.phrase symbol) [] [.nodes []])
    (absent : Written .absent node) : DerivesClause symbol node.spell node := by
  obtain ⟨spelled, same⟩ := absent
  rw [DerivesClause, spelled]
  exact ⟨[], same, empty⟩

theorem written_of_admits {role other : Role} (among : other ∈ role.admits) (written : Written other node) :
    Written role node := by
  cases role with
  | item =>
    simp only [Role.admits, List.mem_cons, List.not_mem_nil, or_false] at among
    rcases among with rfl | rfl | rfl | rfl <;> exact written.1
  | expression =>
    obtain rfl := List.mem_singleton.mp among
    exact written.2
  | start =>
    simp only [Role.admits, List.mem_cons, List.not_mem_nil, or_false] at among
    rcases among with rfl | rfl | rfl
    · exact .of_absent (.of_rule (.right (.right .done)) rfl rfl) written
    · exact .of_derives written.2
    · exact .of_derives written.2.1
  | condition =>
    simp only [Role.admits, List.mem_cons, List.not_mem_nil, or_false] at among
    rcases among with rfl | rfl
    · exact .of_absent (.of_rule (.right .done) rfl rfl) written
    · exact .of_derives (.of_rule (.left (Reads.expression written)) rfl rfl)
  | step =>
    simp only [Role.admits, List.mem_cons, List.not_mem_nil, or_false] at among
    rcases among with rfl | rfl
    · exact .of_absent (.of_rule (.right .done) rfl rfl) written
    · exact .of_derives written.2.2
  | _ => cases among

end

theorem Shaped.written (shaped : Shaped role node) : Written role node := by
  induction shaped with
  | program _ ih => exact written_program ih
  | block _ ih => exact written_block ih
  | typeName => exact written_typeName _
  | declaration _ ih => exact written_declaration ih
  | initialized _ _ ihTy ihValue => exact written_initialized ihTy ihValue
  | initializer _ ih => exact written_initializer ih
  | functionDef _ _ _ ihParams ihResult ihBody => exact written_functionDef ihParams ihResult ihBody
  | params _ ih => exact written_params ih
  | param _ ih => exact written_param ih
  | when _ _ _ once ihCondition ihBody ihOther => exact written_when ihCondition ihBody ihOther once
  | whale _ _ ihCondition ihBody => exact written_whale ihCondition ihBody
  | fork _ _ _ _ ihStart ihCondition ihStep ihBody => exact written_fork ihStart ihCondition ihStep ihBody
  | attempt _ _ _ once ihBody ihHandler ihLast => exact written_attempt ihBody ihHandler ihLast once
  | splash _ ih => exact written_splash ih
  | emerge _ ih => exact written_emerge ih
  | assign _ ih => exact written_assign ih
  | count counting => exact written_count counting
  | call _ ih => exact written_call ih
  | args _ ih => exact written_args ih
  | binary operates _ _ ihLeft ihRight => exact written_binary operates ihLeft ihRight
  | unary sign _ ih => exact written_unary sign ih
  | suffix counting _ ih => exact written_suffix counting ih
  | var => exact written_single .identifier rfl rfl (by decide) rfl
  | num => exact written_single .number rfl rfl (by decide) rfl
  | string => exact written_single .string rfl rfl (by decide) (congrArg (Node.leaf .string · 0) (unquote_quoted ..))
  | char => exact written_single .char rfl rfl (by decide) (congrArg (Node.leaf .char · 0) (unquote_quoted ..))
  | absent => exact ⟨rfl, rfl⟩
  | takes among _ ih => exact written_of_admits among ih

end FishLang.Grammar
