import FishLang.Proofs.Grammar.Shape
import FishLang.Proofs.Node.Spell
import FishLang.Proofs.Token.Spelling

namespace FishLang

open Token

def Kind.groups : Kind → Bool
  | .mark .leftParen | .mark .rightParen => true
  | _ => false

def unparened (run : List Token) : List (Kind × String) := (run.map Token.entry).filter (!·.1.groups)

def Kind.plain (kind : Kind) : List (Kind × String) := if kind.groups then [] else [(kind, kind.name)]

@[simp] theorem plain_leftParen : Kind.plain (.mark .leftParen) = [] := rfl
@[simp] theorem plain_rightParen : Kind.plain (.mark .rightParen) = [] := rfl

section

variable {run : List Token}

@[simp] theorem unparened_nil : unparened [] = [] := rfl

@[simp] theorem unparened_append (front back : List Token) :
    unparened (front ++ back) = unparened front ++ unparened back := by
  simp [unparened]

theorem unparened_cons (token : Token) (run : List Token) :
    unparened (token :: run) = unparened [token] ++ unparened run := unparened_append [token] run

@[simp] theorem unparened_fixed (kind : Kind) : unparened (fixed kind :: run) = kind.plain ++ unparened run := by
  rw [unparened_cons]
  refine congrArg (· ++ unparened run) ?_
  unfold Kind.plain
  split
  · next groups => exact List.filter_cons_of_neg (by simpa [entry, fixed] using groups)
  · next plain => exact List.filter_cons_of_pos (by simpa [entry, fixed] using plain)

@[simp] theorem unparened_word (word : Word) :
    unparened (.word word :: run) = (Kind.word word).plain ++ unparened run := unparened_fixed _

@[simp] theorem unparened_mark (mark : Mark) :
    unparened (.mark mark :: run) = (Kind.mark mark).plain ++ unparened run := unparened_fixed _

@[simp] theorem unparened_delimiter : unparened (delimiter :: run) = Kind.delimiter.plain ++ unparened run :=
  unparened_fixed _

@[simp] theorem unparened_named (name : String) :
    unparened (named name :: run) = (.identifier, name) :: unparened run := rfl

@[simp] theorem unparened_parenthesized (run : List Token) : unparened (Node.parenthesized run) = unparened run := by
  simp [Node.parenthesized]

@[simp] theorem unparened_operand (least : Nat) (node : Node) (run : List Token) :
    unparened (node.operand least run) = unparened run := by
  rw [Node.operand]
  split
  · exact unparened_parenthesized run
  · rfl

end

-- One of the kinds, and spelled as its kind says, unless it is the end of the input.
def Token.Among (kinds : List Kind) (token : Token) : Prop :=
  token.kind ∈ kinds ∧ (token.Spelled ∨ token = Token.endOfInput)

theorem Token.Among.spelled {kinds : List Kind} (among : Among kinds token) (inside : .endOfInput ∉ kinds) :
    token.Spelled := by
  refine among.2.resolve_right ?_
  rintro rfl
  exact inside among.1

theorem Token.Among.plain {kind : Kind} (among : Among [kind] token) (reserved : kind.reserved = true) :
    unparened [token] = kind.plain := by
  have inside : .endOfInput ∉ [kind] := by
    intro member
    obtain rfl := List.mem_singleton.mp member
    cases reserved
  have spelled : token.kind.Spelled token.lexeme.toList := among.spelled inside
  obtain rfl := List.mem_singleton.mp among.1
  have lexeme : token.lexeme = token.kind.name :=
    String.toList_injective ((Kind.spelled_reserved reserved).mp spelled)
  have same : unparened [token] = unparened [fixed token.kind] := by
    simp [unparened, entry, fixed, lexeme]
  rw [same, unparened_fixed, unparened_nil, List.append_nil]

theorem Token.Among.operator {operators : List Operator} (among : Among (operators.map .operator) token) :
    ∃ op : Operator, token.kind.symbol? = some op.symbol ∧ unparened [token] = (Kind.operator op).plain := by
  obtain ⟨member, spelled⟩ := among
  obtain ⟨op, _, same⟩ := List.mem_map.mp member
  exact ⟨op, by rw [← same]; rfl, Token.Among.plain ⟨List.mem_singleton.mpr same.symm, spelled⟩ rfl⟩

theorem Token.Among.name (among : Among [.identifier] token) : unparened [token] = [(.identifier, token.lexeme)] := by
  have kind := List.mem_singleton.mp among.1
  simp [unparened, entry, kind, Kind.groups]

namespace Grammar

open Node

-- What a symbol is written as, given the nodes that it stands for.
@[simp] def written : Symbol → List Node → List Token
  | .program, nodes => nodes.flatMap spell ++ [Token.endOfInput]
  | .items, nodes | .item, nodes | .declaration, nodes | .functionDef, nodes | .statement, nodes
  | .nameStatement, nodes | .when, nodes | .whale, nodes | .fork, nodes | .attempt, nodes | .splash, nodes
  | .emerge, nodes => spellItems nodes
  | .declarationTail, nodes => nodes.flatMap spell ++ [delimiter]
  | .params, nodes | .arguments, nodes => spellListed nodes
  | .moreParams, nodes => spellOthers nodes
  | .otherwise, nodes => spellOpened .otherwise nodes
  | .lastly, nodes => spellOpened .lastly nodes
  | .forkInitializer, nodes | .forkCondition, nodes | .forkStep, nodes => (clause 0 nodes).spell
  | _, nodes => nodes.flatMap spell

-- The goal holds however the form lays out its parts, of what was read for them without parentheses and of the parts,
-- as long as what was read for a symbol is what its nodes are written as.
def Spells : Form → (goal : List (Kind × String) → List Part → Prop) → Prop
  | .token kinds, goal => ∀ token, Token.Among kinds token → goal (unparened [token]) [.token token]
  | .phrase symbol, goal => ∀ nodes, Fits symbol nodes → goal (unparened (written symbol nodes)) [.nodes nodes]
  | .done, goal => goal [] []
  | .and first second, goal =>
    Spells first fun front ahead => Spells second fun back others => goal (front ++ back) (ahead ++ others)
  | .or first second, goal => Spells first goal ∧ Spells second goal
  | .many form, goal => ∀ turns : List (List (Kind × String) × List Part),
    (∀ turn ∈ turns, ∀ within, Spells form within → within turn.1 turn.2) →
      goal (turns.flatMap Prod.fst) (turns.flatMap Prod.snd)

-- What was read is what the symbol is written as, given the nodes that are built of its parts.
def WrittenFor (symbol : Symbol) (entries : List (Kind × String)) (parts : List Part) : Prop :=
  entries = unparened (written symbol (build symbol parts))

theorem spells_program : Spells (rule .program) (WrittenFor .program) := by
  intro keyword fish body inner ending ends
  obtain ⟨block, rfl, _⟩ := inner
  obtain rfl : ending = Token.endOfInput := by
    refine ends.2.resolve_left fun spelled => ?_
    rw [Token.Spelled, List.mem_singleton.mp ends.1] at spelled
    exact spelled
  show _ = unparened (word .fish :: block.spell ++ [] ++ [Token.endOfInput])
  simp [fish.plain rfl]

theorem spells_block : Spells (rule .block) (WrittenFor .block) := by
  intro opening opens items inner closing closes
  show _ = unparened (mark .leftBrace :: (spellItems items ++ [mark .rightBrace]) ++ [])
  simp [opens.plain rfl, closes.plain rfl]

theorem spellItems_append (front back : List Node) :
    spellItems (front ++ back) = spellItems front ++ spellItems back := by
  induction front with
  | nil => rfl
  | cons node front ih => rw [List.cons_append, spellItems, spellItems, ih, List.append_assoc]

theorem spells_items : Spells (rule .items) (WrittenFor .items) := by
  constructor
  · intro first one rest others
    show _ = unparened (spellItems (first ++ (rest ++ [])))
    simp [spellItems_append]
  · rfl

theorem spells_alone {symbol inner : Symbol} (built : ∀ nodes, build symbol [.nodes nodes] = nodes ++ [])
    (same : ∀ nodes, Fits inner nodes → written inner nodes = written symbol nodes) :
    Spells (.phrase inner) (WrittenFor symbol) := by
  intro nodes fits
  rw [WrittenFor, built, List.append_nil, same nodes fits]

theorem spells_item : Spells (rule .item) (WrittenFor .item) :=
  ⟨spells_alone (fun _ => rfl) fun _ _ => rfl, spells_alone (fun _ => rfl) fun _ _ => rfl,
    spells_alone (fun _ => rfl) fun _ _ => rfl⟩

theorem spells_declaration : Spells (rule .declaration) (WrittenFor .declaration) := by
  intro types typed name called tail perhaps
  obtain ⟨ty, rfl, _⟩ := typed
  cases Perhaps.cases perhaps with
  | inl none =>
    subst none
    show _ = unparened (ty.spell ++ [named name.lexeme] ++ [delimiter] ++ [])
    simp [called.name]
  | inr one =>
    obtain ⟨value, rfl, _⟩ := one
    show _ = unparened (ty.spell ++ named name.lexeme :: value.spell ++ [delimiter] ++ [])
    simp [called.name]

theorem spells_declarationTail : Spells (rule .declarationTail) (WrittenFor .declarationTail) := by
  constructor
  · intro sign assigns nodes given ending ends
    obtain ⟨value, rfl, _⟩ := given
    show _ = unparened (fixed .assign :: value.spell ++ [] ++ [delimiter])
    simp [assigns.plain rfl, ends.plain rfl]
  · intro ending ends
    show _ = unparened [delimiter]
    simp [ends.plain rfl]

theorem spells_typeName : Spells (rule .typeName) (WrittenFor .typeName) := by
  intro token types
  obtain ⟨ty, _, same⟩ := List.mem_map.mp types.1
  have read : unparened [token] = (Kind.type ty).plain :=
    Token.Among.plain ⟨List.mem_singleton.mpr same.symm, types.2⟩ rfl
  have made : typeOf token = [.ofTy ty token.line] := by rw [typeOf, ← same]
  show _ = unparened ((typeOf token).flatMap spell)
  simp [made, spell_ofTy, read]

theorem spells_functionDef : Spells (rule .functionDef) (WrittenFor .functionDef) := by
  intro keyword opened name called opening opens params taken closing closes types typed body inner
  obtain ⟨ty, rfl, _⟩ := typed
  obtain ⟨block, rfl, _⟩ := inner
  show _ = unparened (word .fishtion :: named name.lexeme :: mark .leftParen ::
    (spellListed params ++ mark .rightParen :: (ty.spell ++ block.spell)) ++ [])
  simp [opened.plain rfl, called.name, opens.plain rfl, closes.plain rfl]

theorem spells_params : Spells (rule .params) (WrittenFor .params) := by
  constructor
  · intro first one rest others
    obtain ⟨param, rfl, _⟩ := one
    show _ = unparened (spellListed (param :: (rest ++ [])))
    simp [spellListed_cons, written]
  · rfl

theorem spells_moreParams : Spells (rule .moreParams) (WrittenFor .moreParams) := by
  constructor
  · intro comma separates first one rest others
    obtain ⟨param, rfl, _⟩ := one
    show _ = unparened (mark .comma :: param.spell ++ spellOthers (rest ++ []))
    simp [separates.plain rfl]
  · rfl

theorem spells_param : Spells (rule .param) (WrittenFor .param) := by
  intro types typed name called
  obtain ⟨ty, rfl, _⟩ := typed
  show _ = unparened (ty.spell ++ [named name.lexeme] ++ [])
  simp [called.name]

theorem spell_count (name : Token) {op : Token} {sign : Operator} (same : op.kind.symbol? = some sign.symbol) :
    unparened (Grammar.count name op).spell = (.identifier, name.lexeme) :: (Kind.operator sign).plain := by
  have under : (leaf .var name.lexeme name.line).spell = [named name.lexeme] := rfl
  rw [Grammar.count, same, spell_suffix]
  simp [under]

theorem spells_nameStatement : Spells (rule .nameStatement) (WrittenFor .nameStatement) := by
  intro name called
  refine ⟨?_, ?_, ?_⟩
  · intro opening opens given taken closing closes ending ends
    show _ = unparened (named name.lexeme :: mark .leftParen :: (spellListed given ++ [mark .rightParen]) ++
      [delimiter] ++ [])
    simp [called.name, opens.plain rfl, closes.plain rfl, ends.plain rfl]
  · intro sign assigns nodes given ending ends
    obtain ⟨value, rfl, _⟩ := given
    show _ = unparened (named name.lexeme :: fixed .assign :: value.spell ++ [delimiter] ++ [])
    simp [called.name, assigns.plain rfl, ends.plain rfl]
  · intro op counts ending ends
    obtain ⟨sign, same, read⟩ := Token.Among.operator counts
    show _ = unparened ((Grammar.count name op).spell ++ [delimiter] ++ [])
    simp [spell_count name same, called.name, read, ends.plain rfl]

theorem spells_when : Spells (rule .when) (WrittenFor .when) := by
  intro keyword opened opening opens conditions given closing closes body inner other last
  obtain ⟨condition, rfl, _⟩ := given
  obtain ⟨block, rfl, _⟩ := inner
  show _ = unparened (spell (.group .when (condition :: block :: other) keyword.line) ++ [])
  rw [spell_when condition block last.1]
  simp [opened.plain rfl, opens.plain rfl, closes.plain rfl]

theorem spells_otherwise : Spells (rule .otherwise) (WrittenFor .otherwise) := by
  constructor
  · intro keyword opened body inner
    obtain ⟨block, rfl, _⟩ := inner
    show _ = unparened (word .otherwise :: block.spell ++ [])
    simp [opened.plain rfl]
  · rfl

theorem spells_whale : Spells (rule .whale) (WrittenFor .whale) := by
  intro keyword opened opening opens conditions given closing closes body inner
  obtain ⟨condition, rfl, _⟩ := given
  obtain ⟨block, rfl, _⟩ := inner
  show _ = unparened (word .whale :: (parenthesized condition.spell ++ block.spell) ++ [])
  simp [opened.plain rfl, opens.plain rfl, closes.plain rfl]

theorem spell_clause (line : Nat) (nodes : List Node) : (clause line nodes).spell = (clause 0 nodes).spell := by
  cases nodes <;> rfl

theorem spells_fork : Spells (rule .fork) (WrittenFor .fork) := by
  intro keyword opened opening opens start _ ending ends condition _ ending' ends' step _ closing closes body inner
  obtain ⟨block, rfl, _⟩ := inner
  show _ = unparened (word .fork :: mark .leftParen :: ((clause keyword.line start).spell ++ delimiter ::
    ((clause keyword.line condition).spell ++ delimiter :: ((clause keyword.line step).spell ++
      mark .rightParen :: block.spell))) ++ [])
  simp [spell_clause keyword.line, opened.plain rfl, opens.plain rfl, ends.plain rfl, ends'.plain rfl,
    closes.plain rfl]

theorem spells_update {symbol : Symbol} (alone : ∀ node, written symbol [node] = node.spell)
    (assigned : ∀ name sign value, build symbol [.token name, .token sign, .nodes [value]] = [assignment name value])
    (counted : ∀ name op, build symbol [.token name, .token op] = [Grammar.count name op]) :
    Spells .update (WrittenFor symbol) := by
  intro name called
  constructor
  · intro sign assigns nodes given
    obtain ⟨value, rfl, _⟩ := given
    have spelled : (assignment name value).spell = named name.lexeme :: fixed .assign :: value.spell := rfl
    show _ = unparened (written symbol (build symbol [.token name, .token sign, .nodes [value]]))
    rw [assigned, alone, spelled]
    simp [called.name, assigns.plain rfl]
  · intro op counts
    obtain ⟨sign, same, read⟩ := Token.Among.operator counts
    show _ = unparened (written symbol (build symbol [.token name, .token op]))
    rw [counted, alone, spell_count name same]
    simp [called.name, read]

theorem spells_forkInitializer : Spells (rule .forkInitializer) (WrittenFor .forkInitializer) := by
  refine ⟨?_, spells_update (fun _ => rfl) (fun _ _ _ => rfl) fun _ _ => rfl, rfl⟩
  intro types typed name called sign assigns nodes given
  obtain ⟨ty, rfl, _⟩ := typed
  obtain ⟨value, rfl, _⟩ := given
  show _ = unparened (ty.spell ++ named name.lexeme :: fixed .assign :: value.spell)
  simp [called.name, assigns.plain rfl]

theorem spells_forkCondition : Spells (rule .forkCondition) (WrittenFor .forkCondition) := by
  constructor
  · intro nodes given
    obtain ⟨value, rfl, _⟩ := given
    show unparened (value.spell ++ []) = unparened value.spell
    rw [List.append_nil]
  · rfl

theorem spells_forkStep : Spells (rule .forkStep) (WrittenFor .forkStep) :=
  ⟨spells_update (fun _ => rfl) (fun _ _ _ => rfl) fun _ _ => rfl, rfl⟩

theorem spells_attempt : Spells (rule .attempt) (WrittenFor .attempt) := by
  intro keyword opened body inner between rescues handler saves other last
  obtain ⟨block, rfl, _⟩ := inner
  obtain ⟨saved, rfl, _⟩ := saves
  show _ = unparened (spell (.group .attempt (block :: saved :: other) keyword.line) ++ [])
  rw [spell_attempt block saved last.1]
  simp [opened.plain rfl, rescues.plain rfl]

theorem spells_lastly : Spells (rule .lastly) (WrittenFor .lastly) := by
  constructor
  · intro keyword opened body inner
    obtain ⟨block, rfl, _⟩ := inner
    show _ = unparened (word .lastly :: block.spell ++ [])
    simp [opened.plain rfl]
  · rfl

theorem spells_splash : Spells (rule .splash) (WrittenFor .splash) := by
  intro keyword opened opening opens nodes given closing closes ending ends
  obtain ⟨value, rfl, _⟩ := given
  show _ = unparened (word .splash :: (parenthesized value.spell ++ [delimiter]) ++ [])
  simp [opened.plain rfl, opens.plain rfl, closes.plain rfl, ends.plain rfl]

theorem spells_emerge : Spells (rule .emerge) (WrittenFor .emerge) := by
  intro keyword opened nodes given ending ends
  obtain ⟨value, rfl, _⟩ := given
  show _ = unparened (word .emerge :: (value.spell ++ [delimiter]) ++ [])
  simp [opened.plain rfl, ends.plain rfl]

theorem spells_statement : Spells (rule .statement) (WrittenFor .statement) := by
  have plain : ∀ symbol, (∀ nodes, written symbol nodes = spellItems nodes) →
      Spells (.phrase symbol) (WrittenFor .statement) := by
    intro symbol same
    exact spells_alone (fun _ => rfl) fun nodes _ => same nodes
  refine ⟨plain _ fun _ => rfl, plain _ fun _ => rfl, plain _ fun _ => rfl, plain _ fun _ => rfl,
    plain _ fun _ => rfl, plain _ fun _ => rfl, spells_alone (fun _ => rfl) ?_, plain _ fun _ => rfl⟩
  intro nodes inner
  obtain ⟨block, rfl, inner⟩ := inner
  cases inner with
  | block => rfl
  | takes among => cases among

theorem spells_expression : Spells (rule .expression) (WrittenFor .expression) :=
  spells_alone (fun _ => rfl) fun _ _ => rfl

theorem turn_of_spells {turn : List (Kind × String) × List Part} (kinds : List Kind) (operand : Symbol)
    (laid : ∀ within, Spells (.seq [.token kinds, .phrase operand]) within → within turn.1 turn.2) :
    ∃ token nodes, Token.Among kinds token ∧ Fits operand nodes ∧
      turn = (unparened [token] ++ unparened (written operand nodes), [.token token, .nodes nodes]) := by
  apply laid fun entries parts => ∃ token nodes, Token.Among kinds token ∧ Fits operand nodes ∧
    (entries, parts) = (unparened [token] ++ unparened (written operand nodes), [.token token, .nodes nodes])
  intro token among nodes fits
  exact ⟨token, nodes, among, fits, by rw [List.append_nil]; rfl⟩

theorem written_operand (level : Level) (nodes : List Node) : written level.operand nodes = nodes.flatMap spell := by
  cases level <;> rfl

theorem spell_chained (level : Level) (left : Node) (turns : List (List (Kind × String) × List Part))
    (each : ∀ turn ∈ turns, ∀ within,
      Spells (.seq [.operators level.operators, .phrase level.operand]) within → within turn.1 turn.2) :
    unparened (chained left (turns.flatMap Prod.snd)).spell = unparened left.spell ++ turns.flatMap Prod.fst := by
  induction turns generalizing left with
  | nil => exact (List.append_nil _).symm
  | cons turn turns ih =>
    obtain ⟨here, later⟩ := List.forall_mem_cons.mp each
    obtain ⟨token, nodes, among, fits, rfl⟩ := turn_of_spells _ _ here
    obtain ⟨sign, same, read⟩ := among.operator
    obtain ⟨operand, rfl, _⟩ := fits.operand
    have rest := ih ⟨.binary, some sign.symbol, [left, operand], left.line⟩ later
    show unparened (chained ⟨.binary, token.kind.symbol?, [left, operand], left.line⟩ (turns.flatMap Prod.snd)).spell =
      unparened left.spell ++ (unparened [token] ++ unparened (written level.operand [operand]) ++
        turns.flatMap Prod.fst)
    rw [same, rest, spell_binary, read, written_operand]
    simp

theorem spells_level (level : Level) : Spells (rule (.level level)) (WrittenFor (.level level)) := by
  intro nodes fits turns each
  obtain ⟨operand, rfl, _⟩ := fits.operand
  show unparened (written level.operand [operand]) ++ (turns.flatMap Prod.fst ++ []) =
    unparened (written (.level level) [chained operand (turns.flatMap Prod.snd ++ [])])
  rw [written_operand]
  simp [spell_chained level operand turns each]

theorem spells_signed : Spells (rule .signed) (WrittenFor .signed) := by
  constructor
  · intro op signs nodes given
    obtain ⟨operand, rfl, _⟩ := given
    obtain ⟨sign, same, read⟩ := Token.Among.operator signs
    show _ = unparened (written .signed [⟨.unary, op.kind.symbol?, [operand], op.line⟩])
    simp [same, spell_unary, read]
  · exact spells_alone (fun _ => rfl) fun _ _ => rfl

theorem spell_counted (operand : Node) (turns : List (List (Kind × String) × List Part))
    (each : ∀ turn ∈ turns, ∀ within, Spells .counts within → within turn.1 turn.2) :
    unparened (counted operand (turns.flatMap Prod.snd)).spell =
      unparened operand.spell ++ turns.flatMap Prod.fst := by
  induction turns generalizing operand with
  | nil => exact (List.append_nil _).symm
  | cons turn turns ih =>
    obtain ⟨here, later⟩ := List.forall_mem_cons.mp each
    obtain ⟨token, among, rfl⟩ : ∃ token, Token.Among ([Operator.increment, .decrement].map .operator) token ∧
        turn = (unparened [token], [.token token]) :=
      here (fun entries parts => ∃ token, Token.Among _ token ∧ (entries, parts) = (unparened [token], [.token token]))
        fun token among => ⟨token, among, rfl⟩
    obtain ⟨sign, same, read⟩ := among.operator
    have rest := ih ⟨.suffix, some sign.symbol, [operand], operand.line⟩ later
    show unparened (counted ⟨.suffix, token.kind.symbol?, [operand], operand.line⟩ (turns.flatMap Prod.snd)).spell =
      unparened operand.spell ++ (unparened [token] ++ turns.flatMap Prod.fst)
    rw [same, rest, spell_suffix, read]
    simp

theorem spells_suffixed : Spells (rule .suffixed) (WrittenFor .suffixed) := by
  intro nodes given turns each
  obtain ⟨operand, rfl, _⟩ := given
  show _ = unparened (written .suffixed [counted operand (turns.flatMap Prod.snd ++ [])])
  simp [spell_counted operand turns each]

theorem unparened_quoted {token : Token} {quote : Char} {text : List Char}
    (lexeme : token.lexeme.toList = quote :: (text ++ [quote])) :
    unparened [quoted token.kind quote (unquote quote token.lexeme)] = unparened [token] := by
  have same : token.lexeme = (quoted token.kind quote (.ofList text)).lexeme :=
    String.toList_injective (by simp [quoted, lexeme])
  have entry : (quoted token.kind quote (unquote quote token.lexeme)).entry = token.entry := by
    rw [same, unquote_quoted, Token.entry, Token.entry, same]
    rfl
  rw [unparened, List.map_singleton, entry]
  rfl

def singles : List Kind := [.identifier, .number, .string, .char]

theorem spell_single {token : Token} (among : Token.Among singles token) :
    unparened (single token).spell = unparened [token] := by
  have spelled := among.spelled (by decide)
  rw [Token.Spelled] at spelled
  obtain kind | kind | kind | kind : token.kind = .identifier ∨ token.kind = .number ∨ token.kind = .string ∨
      token.kind = .char := by
    simpa [singles] using among.1
  · rw [single, kind]
    show unparened [named token.lexeme] = unparened [token]
    simp [unparened, entry, named, kind]
  · rw [single, kind]
    show unparened [number token.lexeme] = unparened [token]
    simp [unparened, entry, number, kind]
  · rw [kind] at spelled
    obtain ⟨text, lexeme⟩ := spelled
    rw [← unparened_quoted lexeme, single, kind]
    rfl
  · rw [kind] at spelled
    obtain ⟨text, lexeme⟩ := spelled
    rw [← unparened_quoted lexeme, single, kind]
    rfl

theorem spells_single {kind : Kind} (among : kind ∈ singles) : Spells (.token [kind]) (WrittenFor .primary) := by
  intro token given
  have same := List.mem_singleton.mp given.1
  show _ = unparened (written .primary [single token])
  simp [spell_single ⟨same ▸ among, given.2⟩]

theorem spells_primary : Spells (rule .primary) (WrittenFor .primary) := by
  refine ⟨?_, spells_single (by decide), spells_single (by decide), spells_single (by decide), ?_⟩
  · intro name called
    constructor
    · intro opening opens given taken closing closes
      show _ = unparened (named name.lexeme :: mark .leftParen :: (spellListed given ++ [mark .rightParen]) ++ [])
      simp [called.name, opens.plain rfl, closes.plain rfl]
    · show unparened [name] ++ [] = unparened (written .primary [single name])
      rw [List.append_nil]
      exact spells_single (by decide) name called
  · intro opening opens nodes given closing closes
    show _ = unparened (written .primary (nodes ++ []))
    simp [opens.plain rfl, closes.plain rfl]

theorem spells_arguments : Spells (rule .arguments) (WrittenFor .arguments) := by
  constructor
  · intro nodes one turns each
    obtain ⟨value, rfl, _⟩ := one
    have others : unparened (spellOthers ((turns.flatMap Prod.snd).flatMap Part.nodeList)) = turns.flatMap Prod.fst := by
      induction turns with
      | nil => rfl
      | cons turn turns ih =>
        obtain ⟨here, later⟩ := List.forall_mem_cons.mp each
        obtain ⟨comma, nodes, separates, fits, rfl⟩ := turn_of_spells _ _ here
        obtain ⟨next, rfl, _⟩ := fits
        have rest := ih later
        simp only [spellOthers] at rest
        simp [spellOthers, Part.nodeList, rest, separates.plain rfl]
    show _ = unparened (written .arguments (value :: (turns.flatMap Prod.snd ++ []).flatMap Part.nodeList))
    simp [spellListed_cons, others]
  · rfl

theorem spells_rule (symbol : Symbol) : Spells (rule symbol) (WrittenFor symbol) := by
  cases symbol with
  | program => exact spells_program
  | block => exact spells_block
  | items => exact spells_items
  | item => exact spells_item
  | declaration => exact spells_declaration
  | declarationTail => exact spells_declarationTail
  | typeName => exact spells_typeName
  | functionDef => exact spells_functionDef
  | params => exact spells_params
  | moreParams => exact spells_moreParams
  | param => exact spells_param
  | statement => exact spells_statement
  | nameStatement => exact spells_nameStatement
  | when => exact spells_when
  | otherwise => exact spells_otherwise
  | whale => exact spells_whale
  | fork => exact spells_fork
  | forkInitializer => exact spells_forkInitializer
  | forkCondition => exact spells_forkCondition
  | forkStep => exact spells_forkStep
  | attempt => exact spells_attempt
  | lastly => exact spells_lastly
  | splash => exact spells_splash
  | emerge => exact spells_emerge
  | expression => exact spells_expression
  | level level => exact spells_level level
  | signed => exact spells_signed
  | suffixed => exact spells_suffixed
  | primary => exact spells_primary
  | arguments => exact spells_arguments

section

variable {run : List Token} {parts : List Part}

theorem Reads.spells (reads : Reads form run parts)
    (spelled : ∀ token ∈ run, token.Spelled ∨ token = Token.endOfInput) :
    ∀ goal, Spells form goal → goal (unparened run) parts := by
  induction reads with
  | token allowed =>
    intro goal spells
    exact spells _ ⟨allowed, spelled _ (List.mem_singleton_self _)⟩
  | @phrase symbol run parts body ih =>
    intro goal spells
    -- Of what was read for a phrase only what its nodes are written as is known, and that is told by its rule.
    have read : WrittenFor symbol (unparened run) parts := ih spelled _ (spells_rule symbol)
    rw [read]
    exact spells _ (Reads.fits (.phrase body))
  | done =>
    intro goal spells
    exact spells
  | and _ _ ihOne ihTwo =>
    intro goal spells
    obtain ⟨front, back⟩ := List.forall_mem_append.mp spelled
    rw [unparened_append]
    exact ihTwo back _ (ihOne front _ spells)
  | left _ ih =>
    intro goal spells
    exact ih spelled _ spells.1
  | right _ ih =>
    intro goal spells
    exact ih spelled _ spells.2
  | stop =>
    intro goal spells
    exact spells [] (by simp)
  | @more form front parts back rest _ _ ihOne ihOthers =>
    intro goal spells
    obtain ⟨ahead, behind⟩ := List.forall_mem_append.mp spelled
    rw [unparened_append]
    apply ihOthers behind fun entries rest => goal (unparened front ++ entries) (parts ++ rest)
    intro turns each
    apply spells ((unparened front, parts) :: turns)
    intro turn member
    cases List.mem_cons.mp member with
    | inl first => exact first ▸ ihOne ahead
    | inr later => exact each turn later

-- What a derivation of a symbol was read from is what the symbol is written as, apart from parentheses.
theorem Reads.written (reads : Reads (.phrase symbol) run [.nodes nodes])
    (spelled : ∀ token ∈ run, token.Spelled ∨ token = Token.endOfInput) :
    unparened run = unparened (Grammar.written symbol nodes) := by
  apply reads.spells spelled fun entries parts =>
    ∀ nodes, parts = [.nodes nodes] → entries = unparened (Grammar.written symbol nodes)
  · intro nodes fits other same
    cases same
    rfl
  · rfl

end

end Grammar

end FishLang
