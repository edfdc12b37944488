import FishLang.Parse.Basic
import FishLang.Proofs.Grammar.Rule

namespace FishLang.Grammar

-- What a form lays out: a token, or the nodes that a symbol stands for.
inductive Part where
  | token (token : Token)
  | nodes (nodes : List Node)

def Part.nodeList : Part → List Node
  | .token _ => []
  | .nodes list => list

-- Operators of one level and their right operands, taken up by the operation to their left.
def chained (left : Node) : List Part → Node
  | .token op :: .nodes [right] :: others =>
    chained ⟨.binary, op.kind.symbol?, [left, right], left.line⟩ others
  | _ => left

def counted (operand : Node) : List Part → Node
  | .token op :: others => counted ⟨.suffix, op.kind.symbol?, [operand], operand.line⟩ others
  | _ => operand

def assignment (name : Token) (value : Node) : Node := ⟨.assign, some name.lexeme, [value], name.line⟩

def count (name op : Token) : Node :=
  ⟨.suffix, op.kind.symbol?, [.leaf .var name.lexeme name.line], name.line⟩

def invocation (name opening : Token) (given : List Node) : Node :=
  ⟨.call, some name.lexeme, [.group .args given opening.line], name.line⟩

def declared (ty : Node) (name : Token) (initializer : List Node) : Node :=
  ⟨.declaration, some name.lexeme, ty :: initializer, ty.line⟩

def initialized (value : Node) : Node := .group .initializer [value] value.line

def typeOf (token : Token) : List Node :=
  match token.kind with
  | .type ty => [.ofTy ty token.line]
  | _ => []

def single (token : Token) : Node :=
  match token.kind with
  | .number => .leaf .num token.lexeme token.line
  | .string => .leaf .string (unquote '"' token.lexeme) token.line
  | .char => .leaf .char (unquote '\'' token.lexeme) token.line
  | _ => .leaf .var token.lexeme token.line

def clause (line : Nat) : List Node → Node
  | [] => .absent line
  | node :: _ => node

-- The nodes that a symbol stands for, by the parts of its rule. A symbol that is not named here only hands on
-- what its parts stand for.
def build (symbol : Symbol) (parts : List Part) : List Node :=
  match symbol, parts with
  | .program, [.token keyword, .nodes body, .token _] => [.group .program body keyword.line]
  | .block, [.token opening, .nodes items, .token _] => [.group .block items opening.line]
  | .declaration, [.nodes [ty], .token name, .nodes initializer] => [declared ty name initializer]
  | .declarationTail, [.token _, .nodes [value], .token _] => [initialized value]
  | .typeName, [.token token] => typeOf token
  | .functionDef, [.token keyword, .token name, .token _, .nodes params, .token _, .nodes result, .nodes body] =>
    [⟨.functionDef, some name.lexeme, .group .params params keyword.line :: result ++ body, keyword.line⟩]
  | .param, [.nodes [ty], .token name] => [⟨.param, some name.lexeme, [ty], ty.line⟩]
  | .nameStatement, [.token name, .token opening, .nodes given, .token _, .token _] =>
    [invocation name opening given]
  | .nameStatement, [.token name, .token _, .nodes [value], .token _] => [assignment name value]
  | .nameStatement, [.token name, .token op, .token _] => [count name op]
  | .when, [.token keyword, .token _, .nodes condition, .token _, .nodes body, .nodes other] =>
    [.group .when (condition ++ body ++ other) keyword.line]
  | .whale, [.token keyword, .token _, .nodes condition, .token _, .nodes body] =>
    [.group .whale (condition ++ body) keyword.line]
  | .fork, [.token keyword, .token _, .nodes first, .token _, .nodes condition, .token _, .nodes step, .token _,
      .nodes body] =>
    let clauses := [first, condition, step].map (clause keyword.line)
    [.group .fork (clauses ++ body) keyword.line]
  | .forkInitializer, [.nodes [ty], .token name, .token _, .nodes [value]] =>
    [declared ty name [initialized value]]
  | .forkInitializer, [.token name, .token _, .nodes [value]] => [assignment name value]
  | .forkInitializer, [.token name, .token op] => [count name op]
  | .forkStep, [.token name, .token _, .nodes [value]] => [assignment name value]
  | .forkStep, [.token name, .token op] => [count name op]
  | .attempt, [.token keyword, .nodes body, .token _, .nodes handler, .nodes last] =>
    [.group .attempt (body ++ handler ++ last) keyword.line]
  | .splash, [.token keyword, .token _, .nodes value, .token _, .token _] =>
    [.group .splash value keyword.line]
  | .emerge, [.token keyword, .nodes value, .token _] => [.group .emerge value keyword.line]
  | .level _, .nodes [first] :: others => [chained first others]
  | .signed, [.token op, .nodes operand] => [⟨.unary, op.kind.symbol?, operand, op.line⟩]
  | .suffixed, .nodes [operand] :: others => [counted operand others]
  | .primary, [.token name, .token opening, .nodes given, .token _] => [invocation name opening given]
  | .primary, [.token token] => [single token]
  | _, parts => parts.flatMap Part.nodeList

-- The runs of tokens that a form derives, each with the parts it is laid out as.
inductive Reads : Form → List Token → List Part → Prop where
  | token (allowed : token.kind ∈ kinds) : Reads (.token kinds) [token] [.token token]
  | phrase (body : Reads (rule symbol) run parts) : Reads (.phrase symbol) run [.nodes (build symbol parts)]
  | done : Reads .done [] []
  | and (one : Reads first front parts) (two : Reads second back others) :
      Reads (.and first second) (front ++ back) (parts ++ others)
  | left (one : Reads first run parts) : Reads (.or first second) run parts
  | right (two : Reads second run parts) : Reads (.or first second) run parts
  | stop : Reads (.many form) [] []
  | more (one : Reads form front parts) (others : Reads (.many form) back rest) :
      Reads (.many form) (front ++ back) (parts ++ rest)

theorem Reads.generates (reads : Reads form run parts) : Generates form (run.map Token.kind) := by
  induction reads with
  | token allowed => exact .token allowed
  | phrase _ ih => exact .phrase ih
  | done => exact .done
  | and _ _ ihOne ihTwo => simpa using Generates.and ihOne ihTwo
  | left _ ih => exact .left ih
  | right _ ih => exact .right ih
  | stop => exact .stop
  | more _ _ ihOne ihOthers => simpa using Generates.more ihOne ihOthers

theorem Generates.reads {run : List Token} (generates : Generates form kinds)
    (spelled : run.map Token.kind = kinds) : ∃ parts, Reads form run parts := by
  induction generates generalizing run with
  | token allowed =>
    obtain ⟨token, rest, rfl, rfl, ends⟩ := List.map_eq_cons_iff.mp spelled
    obtain rfl := List.map_eq_nil_iff.mp ends
    exact ⟨_, .token allowed⟩
  | phrase _ ih =>
    obtain ⟨parts, reads⟩ := ih spelled
    exact ⟨_, .phrase reads⟩
  | done =>
    obtain rfl := List.map_eq_nil_iff.mp spelled
    exact ⟨_, .done⟩
  | and _ _ ihOne ihTwo =>
    obtain ⟨front, back, rfl, one, two⟩ := List.map_eq_append_iff.mp spelled
    obtain ⟨parts, readsOne⟩ := ihOne one
    obtain ⟨others, readsTwo⟩ := ihTwo two
    exact ⟨_, .and readsOne readsTwo⟩
  | left _ ih =>
    obtain ⟨parts, reads⟩ := ih spelled
    exact ⟨parts, .left reads⟩
  | right _ ih =>
    obtain ⟨parts, reads⟩ := ih spelled
    exact ⟨parts, .right reads⟩
  | stop =>
    obtain rfl := List.map_eq_nil_iff.mp spelled
    exact ⟨_, .stop⟩
  | more _ _ ihOne ihOthers =>
    obtain ⟨front, back, rfl, one, others⟩ := List.map_eq_append_iff.mp spelled
    obtain ⟨parts, readsOne⟩ := ihOne one
    obtain ⟨rest, readsOthers⟩ := ihOthers others
    exact ⟨_, .more readsOne readsOthers⟩

theorem generates_iff_reads {run : List Token} :
    Generates form (run.map Token.kind) ↔ ∃ parts, Reads form run parts :=
  ⟨fun generates => generates.reads rfl, fun ⟨_, reads⟩ => reads.generates⟩

theorem reads_and : Reads (.and first second) run parts ↔ ∃ front back ahead others, run = front ++ back ∧
    parts = ahead ++ others ∧ Reads first front ahead ∧ Reads second back others := by
  constructor
  · intro reads
    cases reads with
    | and one two => exact ⟨_, _, _, _, rfl, rfl, one, two⟩
  · intro laid
    obtain ⟨front, back, ahead, others, rfl, rfl, one, two⟩ := laid
    exact .and one two

theorem reads_and_done : Reads (.and form .done) run parts ↔ Reads form run parts := by
  constructor
  · intro reads
    cases reads with
    | and one two => cases two; simpa using one
  · intro reads
    simpa using Reads.and reads .done

theorem reads_assoc : Reads (.and (.and first second) third) run parts ↔
    Reads (.and first (.and second third)) run parts := by
  constructor
  · intro reads
    cases reads with
    | and front three =>
      cases front with
      | and one two => simpa using Reads.and one (.and two three)
  · intro reads
    cases reads with
    | and one back =>
      cases back with
      | and two three => simpa using Reads.and (.and one two) three

theorem reads_many : Reads (.many form) run parts ↔
    run = [] ∧ parts = [] ∨ Reads (.and form (.many form)) run parts := by
  constructor
  · intro reads
    cases reads with
    | stop => exact .inl ⟨rfl, rfl⟩
    | more one others => exact .inr (.and one others)
  · intro either
    obtain ⟨rfl, rfl⟩ | reads := either
    · exact .stop
    · cases reads with
      | and one others => exact .more one others

theorem reads_and_mono (one : ∀ {run parts}, Reads first run parts → Reads first' run parts)
    (two : ∀ {run parts}, Reads second run parts → Reads second' run parts) :
    Reads (.and first second) run parts → Reads (.and first' second') run parts := by
  intro reads
  cases reads with
  | and left right => exact .and (one left) (two right)

theorem reads_any {forms : List Form} :
    Reads (.any forms) run parts ↔ ∃ form ∈ forms, Reads form run parts := by
  induction forms with
  | nil => exact ⟨fun reads => by cases reads; contradiction, fun ⟨_, member, _⟩ => by cases member⟩
  | cons form others ih =>
    cases others with
    | nil => simp [Form.any]
    | cons second others =>
      constructor
      · intro reads
        cases reads with
        | left one => exact ⟨form, List.mem_cons_self .., one⟩
        | right two =>
          obtain ⟨other, member, reads⟩ := ih.mp two
          exact ⟨other, List.mem_cons_of_mem _ member, reads⟩
      · intro ⟨other, member, reads⟩
        rcases List.mem_cons.mp member with rfl | among
        · exact .left reads
        · exact .right (ih.mpr ⟨other, among, reads⟩)

end FishLang.Grammar
