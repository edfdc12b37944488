import FishLang.Proofs.Grammar.Operand

namespace FishLang.Grammar

-- The symbols whose rules make a node of the kind. The nodes of the other kinds are parts of what a rule makes.
def makersOf : Node.Kind → List Symbol
  | .program => [.program]
  | .block => [.block]
  | .declaration => [.declaration, .forkInitializer]
  | .typeName => [.typeName]
  | .functionDef => [.functionDef]
  | .param => [.param]
  | .when => [.when]
  | .whale => [.whale]
  | .fork => [.fork]
  | .attempt => [.attempt]
  | .splash => [.splash]
  | .emerge => [.emerge]
  | .assign => [.nameStatement, .forkInitializer, .forkStep]
  | .call => [.nameStatement, .primary]
  | .binary => [.level .equality, .level .relation, .level .sum, .level .product]
  | .unary => [.signed]
  | .suffix => [.nameStatement, .forkInitializer, .forkStep, .suffixed]
  | .var | .num | .string | .char => [.primary]
  | .initializer | .params | .args | .empty => []

-- The run is the phrase that the node was read from.
def Phrased (run : List Token) (node : Node) : Prop :=
  match node.kind with
  | .initializer => Reads .expression run [.nodes node.children]
  | .params => Reads (.phrase .params) run [.nodes node.children]
  | .args => ∃ opening closing, Reads .call run [.token opening, .nodes node.children, .token closing]
  | .empty => run = []
  | kind => ∃ symbol ∈ makersOf kind, Reads (.phrase symbol) run [.nodes [node]]

-- The line of the first token of a run, parentheses left out that open there.
def opening (run : List Token) : Option Nat :=
  (run.dropWhile fun token => token.kind = .mark .leftParen).head?.map Token.line

-- The node is on the line where its phrase starts. Arguments start with their parenthesis; parameters, and a clause
-- that is left out, are on the line of the keyword that starts the phrase around them.
def Starts (around run : List Token) (node : Node) : Prop :=
  match node.kind with
  | .params => ∃ keyword ∈ around.head?, keyword.kind = .word .fishtion ∧ node.line = keyword.line
  | .empty => ∃ keyword ∈ around.head?, keyword.kind = .word .fork ∧ node.line = keyword.line
  | .args => ∃ parenthesis ∈ run.head?, parenthesis.kind = .mark .leftParen ∧ node.line = parenthesis.line
  | _ => opening run = some node.line

mutual

-- A node was read from a run that stands in the phrase around it, and its children from parts of the run.
inductive Stands : (around run : List Token) → Node → Prop where
  | mk (phrased : Phrased run node) (starts : Starts around run node) (children : StandAll run run node.children) :
      Stands around run node

inductive StandAll : (around run : List Token) → List Node → Prop where
  | nil : StandAll around run []
  | cons (first : Stands around own node) (others : StandAll around after nodes) :
      StandAll around (before ++ (own ++ after)) (node :: nodes)

end

section

variable {around run front back : List Token} {node : Node} {nodes others : List Node}

theorem StandAll.later (stand : StandAll around back nodes) (front : List Token) :
    StandAll around (front ++ back) nodes := by
  cases stand with
  | nil => exact .nil
  | cons first others =>
    rw [← List.append_assoc]
    exact .cons first others

theorem StandAll.append (ahead : StandAll around front nodes) (behind : StandAll around back others) :
    StandAll around (front ++ back) (nodes ++ others) := by
  induction nodes generalizing front with
  | nil => exact behind.later front
  | cons node nodes ih =>
    cases ahead with
    | cons first rest =>
      rw [List.append_assoc, List.append_assoc]
      exact .cons first (ih rest)

theorem StandAll.sooner (stand : StandAll around front nodes) (back : List Token) :
    StandAll around (front ++ back) nodes := by
  have none : StandAll around back [] := .nil
  simpa using stand.append none

theorem StandAll.one (stands : Stands around run node) : StandAll around run [node] := by
  have none : StandAll around [] [] := .nil
  have stand : StandAll around ([] ++ (run ++ [])) [node] := .cons stands none
  simpa using stand

theorem StandAll.first (stand : StandAll around run (node :: nodes)) : StandAll around run [node] := by
  cases stand with
  | cons first others => exact .cons first .nil

end

section

variable {token : Token} {run front back : List Token} {line : Nat}

theorem opening_here (other : token.kind ≠ .mark .leftParen) : opening (token :: run) = some token.line := by
  simp [opening, other]

theorem opening_later (parenthesis : token.kind = .mark .leftParen) : opening (token :: run) = opening run := by
  simp [opening, parenthesis]

theorem opening_of_mem {kinds : List Kind} (among : token.kind ∈ kinds) (others : .mark .leftParen ∉ kinds) :
    opening (token :: run) = some token.line :=
  opening_here fun same => others (same ▸ among)

theorem opening_append (front : opening run = some line) : opening (run ++ back) = some line := by
  induction run with
  | nil => cases front
  | cons token run ih =>
    by_cases parenthesis : token.kind = .mark .leftParen
    · rw [opening_later parenthesis] at front
      rw [List.cons_append, opening_later parenthesis]
      exact ih front
    · rw [opening_here parenthesis] at front
      rw [List.cons_append, opening_here parenthesis, front]

end

section

variable {symbol : Symbol} {run : List Token} {parts : List Part} {node : Node} {nodes : List Node}

theorem phrased_of_maker (reads : Reads (.phrase symbol) run [.nodes [node]]) (maker : symbol ∈ makersOf node.kind) :
    Phrased run node := by
  unfold Phrased
  split
  next kind => simp [kind, makersOf] at maker
  next kind => simp [kind, makersOf] at maker
  next kind => simp [kind, makersOf] at maker
  next kind => simp [kind, makersOf] at maker
  next => exact ⟨symbol, maker, reads⟩

theorem starts_of_maker (opens : opening run = some node.line) (maker : symbol ∈ makersOf node.kind)
    (around : List Token) : Starts around run node := by
  unfold Starts
  split
  next kind => simp [kind, makersOf] at maker
  next kind => simp [kind, makersOf] at maker
  next kind => simp [kind, makersOf] at maker
  next => exact opens

-- The symbols that stand for one node which is on the line where their phrase starts.
def leads : Symbol → Bool
  | .typeName | .expression | .level _ | .signed | .suffixed | .primary => true
  | _ => false

theorem leads_operand (level : Level) : leads level.operand = true := by cases level <;> rfl

-- What is known of the nodes that a symbol stands for. They stand in its run, whatever the phrase around them.
structure Known (symbol : Symbol) (run : List Token) (nodes : List Node) : Prop where
  stand : ∀ around, StandAll around run nodes
  line : leads symbol = true → ∀ node ∈ nodes, opening run = some node.line

-- The goal holds however the form lays out its parts, of the tokens that were read for them and of the parts, as long
-- as the nodes of every symbol are read from its run and are known.
def Places : Form → (goal : List Token → List Part → Prop) → Prop
  | .token kinds, goal => ∀ token, token.kind ∈ kinds → goal [token] [.token token]
  | .phrase symbol, goal =>
    ∀ run nodes, Reads (.phrase symbol) run [.nodes nodes] → Known symbol run nodes → goal run [.nodes nodes]
  | .done, goal => goal [] []
  | .and first second, goal =>
    Places first fun front ahead => Places second fun back others => goal (front ++ back) (ahead ++ others)
  | .or first second, goal => Places first goal ∧ Places second goal
  | .many form, goal => ∀ turns : List (List Token × List Part),
    (∀ turn ∈ turns, ∀ within, Places form within → within turn.1 turn.2) →
      goal (turns.flatMap Prod.fst) (turns.flatMap Prod.snd)

def KnownFor (symbol : Symbol) (run : List Token) (parts : List Part) : Prop :=
  Reads (rule symbol) run parts → (∀ around, StandAll around run (parts.flatMap Part.nodeList)) →
    Known symbol run (build symbol parts)

theorem known_one (phrase : Reads (.phrase symbol) run [.nodes [node]]) (maker : symbol ∈ makersOf node.kind)
    (children : StandAll run run node.children) (opens : opening run = some node.line) :
    Known symbol run [node] := by
  constructor
  · intro around
    exact .one ⟨phrased_of_maker phrase maker, starts_of_maker opens maker around, children⟩
  · intro _ other member
    rw [opens, List.mem_singleton.mp member]

theorem known_made (reads : Reads (rule symbol) run parts) (built : build symbol parts = [node])
    (maker : symbol ∈ makersOf node.kind) (children : StandAll run run node.children)
    (opens : opening run = some node.line) : Known symbol run (build symbol parts) := by
  rw [built]
  exact known_one (.of_rule reads rfl built) maker children opens

-- A symbol that makes a node over what all its parts stand for, on the line of the token it starts with.
theorem known_over (built : build symbol parts = [node]) (children : node.children = parts.flatMap Part.nodeList)
    (maker : symbol ∈ makersOf node.kind) (opens : opening run = some node.line) : KnownFor symbol run parts := by
  intro reads stand
  refine known_made reads built maker ?_ opens
  rw [children]
  exact stand run

theorem known_alike (built : build symbol parts = parts.flatMap Part.nodeList) (silent : leads symbol = false) :
    KnownFor symbol run parts := by
  intro _ stand
  rw [built]
  refine ⟨stand, fun promised => ?_⟩
  rw [silent] at promised
  cases promised

theorem known_alone {symbol inner : Symbol} (built : ∀ nodes, build symbol [.nodes nodes] = nodes ++ [])
    (less : leads symbol = true → leads inner = true) : Places (.phrase inner) (KnownFor symbol) := by
  intro run nodes _ known _ _
  rw [built, List.append_nil]
  exact ⟨known.stand, fun promised => known.line (less promised)⟩

theorem places_program : Places (rule .program) (KnownFor .program) := by
  intro keyword fish bodyRun body _ _ ending _
  exact known_over rfl (by simp [Node.group, Part.nodeList]) (List.mem_singleton_self _)
    (opening_of_mem fish (by decide))

theorem places_block : Places (rule .block) (KnownFor .block) := by
  intro brace opens inner items _ _ closing _
  exact known_over rfl (by simp [Node.group, Part.nodeList]) (List.mem_singleton_self _)
    (opening_of_mem opens (by decide))

theorem places_items : Places (rule .items) (KnownFor .items) :=
  ⟨fun _ _ _ _ _ _ _ _ => known_alike rfl rfl, known_alike rfl rfl⟩

theorem places_item : Places (rule .item) (KnownFor .item) :=
  ⟨known_alone (fun _ => rfl) nofun, known_alone (fun _ => rfl) nofun, known_alone (fun _ => rfl) nofun⟩

theorem places_declaration : Places (rule .declaration) (KnownFor .declaration) := by
  intro typeRun types typed known name _ tailRun tail _ _
  obtain ⟨ty, rfl, _⟩ := typed.fits
  exact known_over rfl (by simp [declared, Part.nodeList]) (List.mem_cons_self ..)
    (opening_append (known.line rfl ty (List.mem_singleton_self _)))

theorem stands_initialized {value : Node} (reads : Reads .expression run [.nodes [value]])
    (known : Known .expression run [value]) (around : List Token) : Stands around run (initialized value) :=
  ⟨reads, known.line rfl value (List.mem_singleton_self _), known.stand run⟩

theorem places_declarationTail : Places (rule .declarationTail) (KnownFor .declarationTail) := by
  constructor
  · intro sign _ valueRun nodes given known ending _ _ _
    obtain ⟨value, rfl, _⟩ := given.fits
    refine ⟨fun around => ?_, nofun⟩
    have stand := StandAll.one (stands_initialized given known around)
    exact (stand.sooner [ending]).later [sign]
  · intro ending _
    exact known_alike rfl rfl

theorem places_typeName : Places (rule .typeName) (KnownFor .typeName) := by
  intro token among
  obtain ⟨ty, _, same⟩ := List.mem_map.mp among
  have made : typeOf token = [.ofTy ty token.line] := by rw [typeOf, ← same]
  exact known_over made rfl (List.mem_singleton_self _) (opening_of_mem among (by decide))

theorem places_functionDef : Places (rule .functionDef) (KnownFor .functionDef) := by
  intro keyword fishtion name _ paren _ paramsRun params taken knownParams closing _ typeRun types _ knownTypes
    bodyRun body _ knownBody reads _
  refine known_made reads rfl (List.mem_singleton_self _) ?_ (opening_of_mem fishtion (by decide))
  have others : ∀ around, StandAll around (typeRun ++ (bodyRun ++ [])) (types ++ body) := fun around =>
    (knownTypes.stand around).append ((knownBody.stand around).sooner [])
  have here : Stands ([keyword, name, paren] ++ paramsRun ++ ([closing] ++ (typeRun ++ (bodyRun ++ [])))) paramsRun
      (.group .params params keyword.line) :=
    ⟨taken, ⟨keyword, rfl, List.mem_singleton.mp fishtion, rfl⟩, knownParams.stand _⟩
  rw [List.append_assoc] at here
  exact ((StandAll.one here).append ((others _).later [closing])).later [keyword, name, paren]

theorem places_params : Places (rule .params) (KnownFor .params) :=
  ⟨fun _ _ _ _ _ _ _ _ => known_alike rfl rfl, known_alike rfl rfl⟩

theorem places_moreParams : Places (rule .moreParams) (KnownFor .moreParams) :=
  ⟨fun _ _ _ _ _ _ _ _ _ _ => known_alike rfl rfl, known_alike rfl rfl⟩

theorem places_param : Places (rule .param) (KnownFor .param) := by
  intro typeRun types typed known name _
  obtain ⟨ty, rfl, _⟩ := typed.fits
  exact known_over rfl (by simp [Part.nodeList]) (List.mem_singleton_self _)
    (opening_append (known.line rfl ty (List.mem_singleton_self _)))

theorem places_statement : Places (rule .statement) (KnownFor .statement) := by
  have plain : ∀ symbol, Places (.phrase symbol) (KnownFor .statement) :=
    fun _ => known_alone (fun _ => rfl) nofun
  exact ⟨plain _, plain _, plain _, plain _, plain _, plain _, plain _, plain _⟩

theorem stands_name {name : Token} (called : name.kind ∈ [Kind.identifier]) (around : List Token) :
    Stands around [name] (.leaf .var name.lexeme name.line) := by
  have made : single name = .leaf .var name.lexeme name.line := by rw [single, List.mem_singleton.mp called]
  have reads : Reads (.phrase .primary) [name] [.nodes [single name]] :=
    .of_rule (.left (.and (.token called) (.and (.right .done) .done))) rfl rfl
  rw [made] at reads
  exact ⟨⟨.primary, List.mem_singleton_self _, reads⟩, opening_of_mem called (by decide), .nil⟩

theorem known_count {name op : Token} (called : name.kind ∈ [Kind.identifier])
    (built : build symbol parts = [Grammar.count name op]) (maker : symbol ∈ makersOf .suffix) :
    KnownFor symbol (name :: run) parts := by
  intro reads _
  exact known_made reads built maker ((StandAll.one (stands_name called _)).sooner run)
    (opening_of_mem called (by decide))

theorem known_invocation {name paren closing : Token} {givenRun : List Token} {given : List Node}
    (called : name.kind ∈ [Kind.identifier]) (opens : paren.kind ∈ [Kind.mark .leftParen])
    (reads : Reads (.phrase .arguments) givenRun [.nodes given]) (known : Known .arguments givenRun given)
    (closes : closing.kind ∈ [Kind.mark .rightParen]) (built : build symbol parts = [invocation name paren given])
    (maker : symbol ∈ makersOf .call) :
    KnownFor symbol ([name] ++ ([paren] ++ (givenRun ++ [closing]) ++ run)) parts := by
  intro readsRule _
  refine known_made readsRule built maker ?_ (opening_of_mem called (by decide))
  have call : Reads .call ([paren] ++ (givenRun ++ [closing])) [.token paren, .nodes given, .token closing] :=
    .and (.token opens) (.and reads (.and (.token closes) .done))
  have here : ∀ around, Stands around ([paren] ++ (givenRun ++ [closing])) (.group .args given paren.line) := fun _ =>
    ⟨⟨paren, closing, call⟩, ⟨paren, rfl, List.mem_singleton.mp opens, rfl⟩,
      ((known.stand _).sooner [closing]).later [paren]⟩
  exact ((StandAll.one (here _)).sooner run).later [name]

theorem places_nameStatement : Places (rule .nameStatement) (KnownFor .nameStatement) := by
  intro name called
  refine ⟨?_, ?_, ?_⟩
  · intro paren opens givenRun given reads known closing closes ending _
    exact known_invocation called opens reads known closes rfl (by decide)
  · intro sign _ valueRun nodes given _ ending _
    obtain ⟨value, rfl, _⟩ := given.fits
    exact known_over rfl (by simp [assignment, Part.nodeList]) (List.mem_cons_self ..)
      (opening_of_mem called (by decide))
  · intro op _ ending _
    exact known_count called rfl (by decide)

theorem places_when : Places (rule .when) (KnownFor .when) := by
  intro keyword starts paren _ conditionRun condition _ _ closing _ bodyRun body _ _ otherRun other _ _
  exact known_over rfl (by simp [Node.group, Part.nodeList]) (List.mem_singleton_self _)
    (opening_of_mem starts (by decide))

theorem places_otherwise : Places (rule .otherwise) (KnownFor .otherwise) :=
  ⟨fun _ _ _ _ _ _ => known_alike rfl rfl, known_alike rfl rfl⟩

theorem places_whale : Places (rule .whale) (KnownFor .whale) := by
  intro keyword starts paren _ conditionRun condition _ _ closing _ bodyRun body _ _
  exact known_over rfl (by simp [Node.group, Part.nodeList]) (List.mem_singleton_self _)
    (opening_of_mem starts (by decide))

theorem stand_clause {keyword : Token} (fork : keyword.kind = .word .fork) (rest : List Token)
    (stand : ∀ around, StandAll around run nodes) :
    StandAll (keyword :: rest) run [clause keyword.line nodes] := by
  cases nodes with
  | nil =>
    have here : Stands (keyword :: rest) [] (.absent keyword.line) := ⟨rfl, ⟨keyword, rfl, fork, rfl⟩, .nil⟩
    exact (StandAll.one here).sooner run
  | cons node others => exact (stand _).first

theorem places_fork : Places (rule .fork) (KnownFor .fork) := by
  intro keyword starts paren _ firstRun first _ knownFirst ending _ conditionRun condition _ knownCondition ending' _
    stepRun step _ knownStep closing _ bodyRun body _ knownBody reads _
  refine known_made reads rfl (List.mem_singleton_self _) ?_ (opening_of_mem starts (by decide))
  have fork := List.mem_singleton.mp starts
  have last : ∀ around, StandAll around ([closing] ++ (bodyRun ++ [])) body := fun around =>
    ((knownBody.stand around).sooner []).later [closing]
  have third := fun rest => (stand_clause fork rest knownStep.stand).append (last _)
  have second := fun rest => (stand_clause fork rest knownCondition.stand).append ((third rest).later [ending'])
  have front := fun rest => (stand_clause fork rest knownFirst.stand).append ((second rest).later [ending])
  exact (front _).later [keyword, paren]

theorem places_update {symbol : Symbol}
    (assigned : ∀ name sign value, build symbol [.token name, .token sign, .nodes [value]] = [assignment name value])
    (counted : ∀ name op, build symbol [.token name, .token op] = [Grammar.count name op])
    (assigns : symbol ∈ makersOf .assign) (counts : symbol ∈ makersOf .suffix) :
    Places .update (KnownFor symbol) := by
  intro name called
  constructor
  · intro sign _ valueRun nodes given _
    obtain ⟨value, rfl, _⟩ := given.fits
    exact known_over (assigned name sign value) (by simp [assignment, Part.nodeList]) assigns
      (opening_of_mem called (by decide))
  · intro op _
    exact known_count called (counted name op) counts

theorem places_forkInitializer : Places (rule .forkInitializer) (KnownFor .forkInitializer) := by
  refine ⟨?_, places_update (fun _ _ _ => rfl) (fun _ _ => rfl) (by decide) (by decide), known_alike rfl rfl⟩
  intro typeRun types typed knownTypes name _ sign _ valueRun nodes given knownValue reads _
  obtain ⟨ty, rfl, _⟩ := typed.fits
  obtain ⟨value, rfl, _⟩ := given.fits
  refine known_made reads rfl (by simp [declared, makersOf]) ?_
    (opening_append (knownTypes.line rfl ty (List.mem_singleton_self _)))
  have stand := fun around => (StandAll.one (stands_initialized given knownValue around)).sooner []
  exact (knownTypes.stand _).append ((stand _).later [name, sign])

theorem places_forkCondition : Places (rule .forkCondition) (KnownFor .forkCondition) :=
  ⟨known_alone (fun _ => rfl) nofun, known_alike rfl rfl⟩

theorem places_forkStep : Places (rule .forkStep) (KnownFor .forkStep) :=
  ⟨places_update (fun _ _ _ => rfl) (fun _ _ => rfl) (by decide) (by decide), known_alike rfl rfl⟩

theorem places_attempt : Places (rule .attempt) (KnownFor .attempt) := by
  intro keyword starts bodyRun body _ _ between _ handlerRun handler _ _ lastRun last _ _
  exact known_over rfl (by simp [Node.group, Part.nodeList]) (List.mem_singleton_self _)
    (opening_of_mem starts (by decide))

theorem places_lastly : Places (rule .lastly) (KnownFor .lastly) :=
  ⟨fun _ _ _ _ _ _ => known_alike rfl rfl, known_alike rfl rfl⟩

theorem places_splash : Places (rule .splash) (KnownFor .splash) := by
  intro keyword starts paren _ valueRun value _ _ closing _ ending _
  exact known_over rfl (by simp [Node.group, Part.nodeList]) (List.mem_singleton_self _)
    (opening_of_mem starts (by decide))

theorem places_emerge : Places (rule .emerge) (KnownFor .emerge) := by
  intro keyword starts valueRun value _ _ ending _
  exact known_over rfl (by simp [Node.group, Part.nodeList]) (List.mem_singleton_self _)
    (opening_of_mem starts (by decide))

theorem places_expression : Places (rule .expression) (KnownFor .expression) :=
  known_alone (fun _ => rfl) fun _ => rfl

theorem turn_of_places {turn : List Token × List Part} (kinds : List Kind) (operand : Symbol)
    (placed : ∀ within, Places (.seq [.token kinds, .phrase operand]) within → within turn.1 turn.2) :
    ∃ token run nodes, token.kind ∈ kinds ∧ Reads (.phrase operand) run [.nodes nodes] ∧ Known operand run nodes ∧
      turn = (token :: run, [.token token, .nodes nodes]) := by
  apply placed fun tokens parts => ∃ token run nodes, token.kind ∈ kinds ∧
    Reads (.phrase operand) run [.nodes nodes] ∧ Known operand run nodes ∧
      (tokens, parts) = (token :: run, [.token token, .nodes nodes])
  intro token among run nodes reads known
  exact ⟨token, run, nodes, among, reads, known, by simp⟩

theorem maker_binary (level : Level) : .level level ∈ makersOf .binary := by cases level <;> decide

-- Every operation of a level is read from its left operand on, so what is read so far is known again after each turn.
theorem known_chained (level : Level) {left : Node} (reads : Reads (.phrase (.level level)) run [.nodes [left]])
    (known : Known (.level level) run [left]) (turns : List (List Token × List Part))
    (each : ∀ turn ∈ turns, ∀ within,
      Places (.seq [.operators level.operators, .phrase level.operand]) within → within turn.1 turn.2) :
    Known (.level level) (run ++ turns.flatMap Prod.fst) [chained left (turns.flatMap Prod.snd)] := by
  induction turns generalizing left run with
  | nil => simpa [chained] using known
  | cons turn turns ih =>
    obtain ⟨here, later⟩ := List.forall_mem_cons.mp each
    obtain ⟨op, operandRun, nodes, among, readsOperand, knownOperand, rfl⟩ := turn_of_places _ _ here
    obtain ⟨right, rfl, _⟩ := readsOperand.fits.operand
    have longer := reads.operation among readsOperand
    have made := known_one longer (maker_binary level) ((known.stand _).append ((knownOperand.stand _).later [op]))
      (opening_append (known.line rfl left (List.mem_singleton_self _)))
    simpa [chained, Turn.take] using ih longer made later

theorem places_level (level : Level) : Places (rule (.level level)) (KnownFor (.level level)) := by
  intro run nodes reads known turns each _ _
  obtain ⟨operand, rfl, _⟩ := reads.fits.operand
  have first : Known (.level level) run [operand] := ⟨known.stand, fun _ => known.line (leads_operand level)⟩
  have all := known_chained level (reads.loosen_level level) first turns each
  show Known _ (run ++ (turns.flatMap Prod.fst ++ [])) [chained operand (turns.flatMap Prod.snd ++ [])]
  rwa [List.append_nil, List.append_nil]

theorem places_signed : Places (rule .signed) (KnownFor .signed) := by
  constructor
  · intro op signs run nodes given _
    exact known_over rfl (by simp [Part.nodeList]) (List.mem_singleton_self _) (opening_of_mem signs (by decide))
  · exact known_alone (fun _ => rfl) fun _ => rfl

theorem known_counted {operand : Node} (reads : Reads (.phrase .suffixed) run [.nodes [operand]])
    (known : Known .suffixed run [operand]) (turns : List (List Token × List Part))
    (each : ∀ turn ∈ turns, ∀ within, Places .counts within → within turn.1 turn.2) :
    Known .suffixed (run ++ turns.flatMap Prod.fst) [counted operand (turns.flatMap Prod.snd)] := by
  induction turns generalizing operand run with
  | nil => simpa [counted] using known
  | cons turn turns ih =>
    obtain ⟨here, later⟩ := List.forall_mem_cons.mp each
    obtain ⟨op, among, rfl⟩ : ∃ op : Token, op.kind ∈ [Operator.increment, .decrement].map Kind.operator ∧
        turn = ([op], [.token op]) :=
      here (fun tokens parts => ∃ op : Token, op.kind ∈ _ ∧ (tokens, parts) = ([op], [.token op]))
        fun op among => ⟨op, among, rfl⟩
    have longer := reads.countedOn among
    have maker : .suffixed ∈ makersOf .suffix := by decide
    have made := known_one longer maker ((known.stand _).sooner [op])
      (opening_append (known.line rfl operand (List.mem_singleton_self _)))
    simpa [counted, countOn] using ih longer made later

theorem places_suffixed : Places (rule .suffixed) (KnownFor .suffixed) := by
  intro run nodes reads known turns each _ _
  obtain ⟨operand, rfl, _⟩ := reads.fits
  have loose : Reads (.phrase .suffixed) run [.nodes [operand]] := reads.of_primary 5
  have first : Known .suffixed run [operand] := ⟨known.stand, fun _ => known.line rfl⟩
  have all := known_counted loose first turns each
  show Known _ (run ++ (turns.flatMap Prod.fst ++ [])) [counted operand (turns.flatMap Prod.snd ++ [])]
  rwa [List.append_nil, List.append_nil]

theorem known_single {token : Token} (among : token.kind ∈ [Kind.identifier, .number, .string, .char]) :
    KnownFor .primary [token] [.token token] := by
  have leaf : (single token).line = token.line ∧ (single token).children = [] ∧
      .primary ∈ makersOf (single token).kind := by
    unfold single
    split <;> exact ⟨rfl, rfl, List.mem_singleton_self _⟩
  obtain ⟨line, children, maker⟩ := leaf
  exact known_over rfl children maker (line ▸ opening_of_mem among (by decide))

theorem places_single {kind : Kind} (among : kind ∈ [Kind.identifier, .number, .string, .char]) :
    Places (.token [kind]) (KnownFor .primary) := by
  intro token given
  exact known_single (List.mem_singleton.mp given ▸ among)

theorem places_primary : Places (rule .primary) (KnownFor .primary) := by
  refine ⟨?_, places_single (by decide), places_single (by decide), places_single (by decide), ?_⟩
  · intro name called
    constructor
    · intro paren opens givenRun given reads known closing closes
      exact known_invocation called opens reads known closes rfl (by decide)
    · exact places_single (by decide) name called
  · intro paren opens run nodes given known closing _ _ stand
    refine ⟨stand, fun _ node member => ?_⟩
    have among : node ∈ nodes ++ [] := member
    have inside := known.line rfl node (List.append_nil nodes ▸ among)
    show opening (paren :: (run ++ [closing])) = some node.line
    rw [opening_later (List.mem_singleton.mp opens)]
    exact opening_append inside

theorem places_arguments : Places (rule .arguments) (KnownFor .arguments) := by
  constructor
  · intro run nodes _ _ turns _
    exact known_alike rfl rfl
  · exact known_alike rfl rfl

theorem places_rule (symbol : Symbol) : Places (rule symbol) (KnownFor symbol) := by
  cases symbol with
  | program => exact places_program
  | block => exact places_block
  | items => exact places_items
  | item => exact places_item
  | declaration => exact places_declaration
  | declarationTail => exact places_declarationTail
  | typeName => exact places_typeName
  | functionDef => exact places_functionDef
  | params => exact places_params
  | moreParams => exact places_moreParams
  | param => exact places_param
  | statement => exact places_statement
  | nameStatement => exact places_nameStatement
  | when => exact places_when
  | otherwise => exact places_otherwise
  | whale => exact places_whale
  | fork => exact places_fork
  | forkInitializer => exact places_forkInitializer
  | forkCondition => exact places_forkCondition
  | forkStep => exact places_forkStep
  | attempt => exact places_attempt
  | lastly => exact places_lastly
  | splash => exact places_splash
  | emerge => exact places_emerge
  | expression => exact places_expression
  | level level => exact places_level level
  | signed => exact places_signed
  | suffixed => exact places_suffixed
  | primary => exact places_primary
  | arguments => exact places_arguments

theorem Reads.places (reads : Reads form run parts) :
    (∀ around, StandAll around run (parts.flatMap Part.nodeList)) ∧
      ∀ goal : List Token → List Part → Prop, Places form goal → goal run parts := by
  induction reads with
  | token allowed => exact ⟨fun _ => .nil, fun goal places => places _ allowed⟩
  | @phrase symbol run parts body ih =>
    have known := ih.2 _ (places_rule symbol) body ih.1
    refine ⟨fun around => ?_, fun goal places => places _ _ (.phrase body) known⟩
    simpa [Part.nodeList] using known.stand around
  | done => exact ⟨fun _ => .nil, fun goal places => places⟩
  | and _ _ ihOne ihTwo =>
    refine ⟨fun around => ?_, fun goal places => ihTwo.2 _ (ihOne.2 _ places)⟩
    rw [List.flatMap_append]
    exact (ihOne.1 around).append (ihTwo.1 around)
  | left _ ih => exact ⟨ih.1, fun goal places => ih.2 _ places.1⟩
  | right _ ih => exact ⟨ih.1, fun goal places => ih.2 _ places.2⟩
  | stop => exact ⟨fun _ => .nil, fun goal places => places [] (by simp)⟩
  | @more form front parts back rest _ _ ihOne ihOthers =>
    constructor
    · intro around
      rw [List.flatMap_append]
      exact (ihOne.1 around).append (ihOthers.1 around)
    · intro goal places
      apply ihOthers.2 fun tokens others => goal (front ++ tokens) (parts ++ others)
      intro turns each
      apply places ((front, parts) :: turns)
      intro turn member
      cases List.mem_cons.mp member with
      | inl first => exact first ▸ ihOne.2
      | inr later => exact each turn later

theorem Reads.stands {root : Node} (reads : Reads (.phrase .program) run [.nodes [root]]) (around : List Token) :
    Stands around run root := by
  obtain ⟨parts, same, body⟩ := reads.of_phrase
  have made : [root] = build .program parts := Part.nodes.inj (List.singleton_inj.mp same)
  obtain ⟨stand, places⟩ := body.places
  refine places (fun run parts => [root] = build .program parts → Reads (.phrase .program) run [.nodes [root]] →
    (∀ around, StandAll around run (parts.flatMap Part.nodeList)) → Stands around run root) ?_ made reads stand
  intro keyword fish bodyRun body _ _ ending _ made phrase stand
  rw [List.singleton_inj.mp made] at phrase ⊢
  refine ⟨⟨.program, List.mem_singleton_self _, phrase⟩, opening_of_mem fish (by decide), ?_⟩
  simpa [Node.group, Part.nodeList] using stand _

end

end FishLang.Grammar
