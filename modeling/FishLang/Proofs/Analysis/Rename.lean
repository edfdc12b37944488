import Mathlib.Logic.Function.Defs
import FishLang.Proofs.Analysis.Context
import FishLang.Proofs.Analysis.Phases
import FishLang.Proofs.Parse.Program

namespace FishLang

-- The new names of variables, and those of functions.
structure Renaming where
  var : String → String
  function : String → String

-- No two names become one. A variable and a function may.
structure Renaming.Injective (names : Renaming) : Prop where
  var : Function.Injective names.var
  function : Function.Injective names.function

def Renaming.ofKind (names : Renaming) : Node.Kind → String → String
  | .declaration | .param | .assign | .var => names.var
  | .functionDef | .call => names.function
  | _ => id

mutual

def Node.rename (names : Renaming) : Node → Node
  | ⟨kind, value, children, line⟩ => ⟨kind, value.map (names.ofKind kind), Node.renameAll names children, line⟩

def Node.renameAll (names : Renaming) : List Node → List Node
  | [] => []
  | node :: rest => node.rename names :: Node.renameAll names rest

end

-- What a message is made of.
inductive Wording where
  | words (text : String)
  | var (name : String)
  | function (name : String)
deriving DecidableEq, Repr

namespace Wording

def text : Wording → String
  | .words text => text
  | .var name | .function name => Finding.quote name

def rename (names : Renaming) : Wording → Wording
  | .words text => .words text
  | .var name => .var (names.var name)
  | .function name => .function (names.function name)

end Wording

namespace Finding

-- The message of a fault, with the names in it told apart from the words. An operator is quoted, but it is no name.
def wordings : Finding → List Wording
  | .undeclaredVariable name => [.words "Variable ", .var name, .words " is not declared"]
  | .undeclaredFunction name => [.words "Call to undeclared function ", .function name]
  | .redeclaration name => [.words "Variable ", .var name, .words " is already declared in this scope"]
  | .duplicateFunction name => [.words "Function ", .function name, .words " is already declared"]
  | .arity function given expected =>
    [.words "Call to ", .function function, .words s!" with {given} argument(s), expected {expected}"]
  | .initializer name declared given =>
    [.words "Initializer of ", .var name, .words " is not compatible with type ", .words (tyName declared),
      .words ": found ", .words (tyName given)]
  | .assignment name declared given =>
    [.words "Assignment to ", .var name, .words " (", .words (tyName declared), .words ") with incompatible type ",
      .words (tyName given)]
  | .argument function position expected given =>
    [.words s!"Argument {position} in call to ", .function function, .words " is incompatible: expected ",
      .words (tyName expected), .words ", found ", .words (tyName given)]
  | .result function expected given =>
    [.words "Incompatible return type in function ", .function function, .words ": expected ",
      .words (tyName expected), .words ", found ", .words (tyName given)]
  | .operands symbol left right =>
    [.words "Binary operation ", .words (quote symbol), .words " between incompatible types: ", .words left.name,
      .words " and ", .words right.name]
  | .returnOutsideFunction => [.words "'emerge' outside of a function"]

theorem join_first (first : String) (rest : List String) : String.join (first :: rest) = rest.foldl (· ++ ·) first := by
  rw [String.join, List.foldl_cons, String.empty_append]

theorem message_eq (finding : Finding) : finding.message = .join (finding.wordings.map Wording.text) := by
  cases finding <;>
  · rw [wordings, List.map_cons, join_first]
    rfl

def rename (names : Renaming) : Finding → Finding
  | .undeclaredVariable name => .undeclaredVariable (names.var name)
  | .undeclaredFunction name => .undeclaredFunction (names.function name)
  | .redeclaration name => .redeclaration (names.var name)
  | .duplicateFunction name => .duplicateFunction (names.function name)
  | .arity function given expected => .arity (names.function function) given expected
  | .initializer name declared given => .initializer (names.var name) declared given
  | .assignment name declared given => .assignment (names.var name) declared given
  | .argument function position expected given => .argument (names.function function) position expected given
  | .result function expected given => .result (names.function function) expected given
  | .operands symbol left right => .operands symbol left right
  | .returnOutsideFunction => .returnOutsideFunction

@[simp] theorem kind_rename (names : Renaming) (finding : Finding) : (finding.rename names).kind = finding.kind := by
  cases finding <;> rfl

theorem wordings_rename (names : Renaming) (finding : Finding) :
    (finding.rename names).wordings = finding.wordings.map (Wording.rename names) := by
  cases finding <;> rfl

end Finding

def Report.rename (names : Renaming) (report : Report) : Report := ⟨report.finding.rename names, report.line⟩

def Report.saying (say : Wording → String) (report : Report) : Diagnostic :=
  ⟨report.finding.kind, report.line, .join (report.finding.wordings.map say)⟩

theorem Report.diagnostic_eq (report : Report) : report.diagnostic = report.saying Wording.text := by
  rw [diagnostic, saying, Finding.message_eq]

theorem Report.diagnostic_rename (names : Renaming) (report : Report) :
    (report.rename names).diagnostic = report.saying fun wording => (wording.rename names).text := by
  rw [diagnostic_eq, saying, saying]
  simp [rename, Finding.wordings_rename, Function.comp_def]

namespace Table

variable {κ α β : Type} [DecidableEq κ]

def map (keys : κ → κ) (entries : α → β) (table : Table κ α) : Table κ β :=
  ⟨table.entries.map fun row => (keys row.1, entries row.2)⟩

theorem find?_map {keys : κ → κ} (injective : Function.Injective keys) (entries : α → β) (table : Table κ α) (key : κ) :
    (table.map keys entries).find? (keys key) = (table.find? key).map entries := by
  obtain ⟨rows⟩ := table
  unfold find? map
  induction rows with
  | nil => rfl
  | cons row rest ih =>
    simp only [List.map_cons, findRow, injective.eq_iff]
    split
    · rfl
    · exact ih

theorem contains_map {keys : κ → κ} (injective : Function.Injective keys) (entries : α → β) (table : Table κ α)
    (key : κ) : (table.map keys entries).contains (keys key) = table.contains key := by
  rw [contains, contains, find?_map injective, Option.isSome_map]

theorem map_insert {keys : κ → κ} (injective : Function.Injective keys) (entries : α → β) (table : Table κ α) (key : κ)
    (entry : α) :
    (table.map keys entries).insert (keys key) (entries entry) = (table.insert key entry).map keys entries := by
  obtain ⟨rows⟩ := table
  unfold insert map
  congr 1
  induction rows with
  | nil => rfl
  | cons row rest ih =>
    simp only [List.map_cons, insertRow, injective.eq_iff]
    split
    · rfl
    · exact congrArg (_ :: ·) ih

end Table

def Parameter.rename (names : Renaming) (parameter : Parameter) : Parameter :=
  { parameter with name := names.var parameter.name }

def Signature.rename (names : Renaming) (signature : Signature) : Signature :=
  ⟨names.function signature.name, signature.result, signature.parameters.map (Parameter.rename names)⟩

def Context.rename (names : Renaming) (context : Context) : Context where
  scopes := context.scopes.map (Table.map names.var id)
  functions := context.functions.map names.function (Signature.rename names)
  enclosing := context.enclosing.map (Signature.rename names)
  reports := context.reports.map (Report.rename names)

theorem Signature.types_rename (names : Renaming) (signature : Signature) :
    (signature.rename names).parameters.map Parameter.ty = signature.parameters.map Parameter.ty := by
  simp [rename, Parameter.rename, Function.comp_def]

namespace Context

variable {names : Renaming}

@[simp] theorem report_rename (context : Context) (finding : Finding) (line : Nat) :
    (context.rename names).report (finding.rename names) line = (context.report finding line).rename names := by
  simp [report, rename, Report.rename]

@[simp] theorem require_rename (context : Context) (condition : Bool) (finding : Finding) (line : Nat) :
    (context.rename names).require condition (finding.rename names) line =
      (context.require condition finding line).rename names := by
  cases condition with
  | true => rfl
  | false => exact context.report_rename finding line

@[simp] theorem openScope_rename (context : Context) :
    (context.rename names).openScope = context.openScope.rename names := rfl

@[simp] theorem closeScope_rename (context : Context) :
    (context.rename names).closeScope = context.closeScope.rename names := by
  simp [closeScope, rename, List.map_tail]

section
variable (injective : names.Injective)
include injective

theorem lookup_rename (context : Context) (name : String) :
    (context.rename names).lookup (names.var name) = context.lookup name := by
  unfold lookup rename
  induction context.scopes with
  | nil => rfl
  | cons scope outer ih =>
    rw [List.map_cons, List.findSome?_cons, List.findSome?_cons, Table.find?_map injective.var, Option.map_id, id, ih]

theorem function_rename (context : Context) (name : String) :
    (context.rename names).functions.find? (names.function name) =
      (context.functions.find? name).map (Signature.rename names) :=
  Table.find?_map injective.function ..

theorem declare_rename (context : Context) (name : String) (ty : Option Ty) (line : Nat) :
    (context.rename names).declare (names.var name) ty line = (context.declare name ty line).rename names := by
  have entered (scope : Scope) : (scope.map names.var id).insert (names.var name) ty =
      (scope.insert name ty).map names.var id := Table.map_insert injective.var id scope name ty
  cases scopes : context.scopes with
  | nil =>
    have fresh : (Table.empty.insert name ty).map names.var id = Table.empty.insert (names.var name) ty :=
      (entered .empty).symm
    simp only [declare, rename, scopes, List.map_nil, List.map_cons, fresh]
  | cons scope outer =>
    have renamed : (context.rename names).scopes = scope.map names.var id :: outer.map (Table.map names.var id) := by
      simp [rename, scopes]
    simp only [declare, scopes, renamed]
    rw [Table.contains_map injective.var, entered]
    exact congrArg (fun context : Context => { context with
      scopes := (scope.insert name ty).map names.var id :: outer.map (Table.map names.var id) })
      (context.require_rename (!scope.contains name) (.redeclaration name) line)

theorem declareAll_rename (parameters : List Parameter) (context : Context) :
    (context.rename names).declareAll (parameters.map (Parameter.rename names)) =
      (context.declareAll parameters).rename names := by
  induction parameters generalizing context with
  | nil => rfl
  | cons parameter rest ih =>
    have first := declare_rename injective context parameter.name parameter.ty parameter.line
    have others := ih (context.declare parameter.name parameter.ty parameter.line)
    rw [← first] at others
    exact others

theorem define_rename (context : Context) (signature : Signature) (line : Nat) :
    (context.rename names).define (signature.rename names) line = (context.define signature line).rename names := by
  have known : (context.rename names).functions.contains (signature.rename names).name =
      context.functions.contains signature.name := Table.contains_map injective.function ..
  unfold define
  rw [known]
  split
  · exact context.report_rename (.duplicateFunction signature.name) line
  · have entered := Table.map_insert injective.function (Signature.rename names) context.functions signature.name signature
    exact congrArg (fun functions => { context.rename names with functions := functions }) entered

end

theorem checkArguments_rename (context : Context) (function : String) (line position : Nat)
    (expected given : List (Option Ty)) :
    (context.rename names).checkArguments (names.function function) line position expected given =
      (context.checkArguments function line position expected given).rename names := by
  induction expected generalizing context position given with
  | nil => cases given <;> rfl
  | cons first rest ih =>
    cases given with
    | nil => rfl
    | cons second others =>
      have here : (context.rename names).require (compatible first second)
          (.argument (names.function function) position first second) line =
          (context.require (compatible first second) (.argument function position first second) line).rename names :=
        context.require_rename _ (.argument function position first second) line
      have behind := ih (context.require (compatible first second) (.argument function position first second) line)
        (position + 1) others
      rw [← here] at behind
      exact behind

theorem checkCall_rename (injective : names.Injective) (context : Context) (name : String) (line : Nat)
    (given : List (Option Ty)) :
    (context.rename names).checkCall (names.function name) line given =
      ((context.checkCall name line given).1, (context.checkCall name line given).2.rename names) := by
  unfold checkCall
  rw [function_rename injective]
  cases context.functions.find? name with
  | none => exact congrArg (none, ·) (context.report_rename (.undeclaredFunction name) line)
  | some signature =>
    simp only [Option.map_some, Signature.types_rename]
    split
    · exact congrArg (signature.result, ·) (context.checkArguments_rename ..)
    · exact congrArg (signature.result, ·) (context.report_rename (.arity name _ _) line)

theorem checkAssignment_rename (context : Context) (name : String) (line : Nat) (target : Option (Option Ty))
    (given : Option Ty) :
    (context.rename names).checkAssignment (names.var name) line target given =
      (context.checkAssignment name line target given).rename names := by
  cases target with
  | none => exact context.report_rename (.undeclaredVariable name) line
  | some declared => exact context.require_rename _ (.assignment name declared given) line

theorem checkResult_rename (context : Context) (line : Nat) (function : Option Signature) (given : Option Ty) :
    (context.rename names).checkResult line (function.map (Signature.rename names)) given =
      (context.checkResult line function given).rename names := by
  cases function with
  | none => rfl
  | some function => exact context.require_rename _ (.result function.name function.result given) line

theorem checkOperands_rename (context : Context) (symbol : String) (line : Nat) (left right : Option Ty) :
    (context.rename names).checkOperands symbol line left right =
      ((context.checkOperands symbol line left right).1, (context.checkOperands symbol line left right).2.rename names) := by
  rw [checkOperands_eq, checkOperands_eq]
  refine congrArg (operationTy? symbol left right, ·) ?_
  cases left with
  | none => simp [operandReports, rename]
  | some left =>
    cases right with
    | none => simp [operandReports, rename]
    | some right =>
      have same : (context.rename names).require (left == right) (.operands symbol left right) line =
          (context.require (left == right) (.operands symbol left right) line).rename names :=
        context.require_rename _ (.operands symbol left right) line
      rw [require_eq, require_eq] at same
      exact same

end Context

namespace Node

open Grammar

variable {names : Renaming}

theorem renameAll_eq (nodes : List Node) : renameAll names nodes = nodes.map (rename names) := by
  induction nodes with
  | nil => rfl
  | cons node rest ih => rw [renameAll, ih, List.map_cons]

@[simp] theorem kind_rename (node : Node) : (node.rename names).kind = node.kind := by
  cases node
  rfl

@[simp] theorem line_rename (node : Node) : (node.rename names).line = node.line := by
  cases node
  rfl

@[simp] theorem children_rename (node : Node) : (node.rename names).children = node.children.map (rename names) := by
  cases node
  exact renameAll_eq _

@[simp] theorem child?_rename (node : Node) (index : Nat) :
    (node.rename names).child? index = (node.child? index).map (rename names) := by
  simp [child?]

-- A name is renamed only where there is one; a node of a program has one wherever its kind asks for it.
theorem text_rename (names : Renaming) {node : Node} (shaped : Shaped role node) :
    (node.rename names).text = names.ofKind node.kind node.text := by
  induction shaped with
  | takes _ _ ih => exact ih
  | _ => rfl

@[simp] theorem ty?_rename (node : Node) : (node.rename names).ty? = node.ty? := by
  obtain ⟨kind, value, children, line⟩ := node
  cases kind with
  | typeName => simp [ty?, rename, Renaming.ofKind]
  | _ => rfl

theorem childTy?_rename (names : Renaming) (node : Node) (index : Nat) :
    ((node.rename names).child? index).bind ty? = (node.child? index).bind ty? := by
  rw [child?_rename]
  cases node.child? index with
  | none => rfl
  | some child => exact child.ty?_rename

theorem declaredTy?_rename (node : Node) : (node.rename names).declaredTy? = node.declaredTy? :=
  childTy?_rename names node 0

theorem grandchildren_rename (node : Node) (index : Nat) :
    ((node.rename names).child? index).elim [] children =
      ((node.child? index).elim [] children).map (rename names) := by
  rw [child?_rename]
  cases node.child? index with
  | none => rfl
  | some child => exact child.children_rename

theorem parts_rename (node : Node) : (node.rename names).parts = node.parts.map (rename names) := by
  unfold parts
  rw [kind_rename]
  cases node.kind with
  | declaration => rw [grandchildren_rename, List.map_take]
  | call => exact grandchildren_rename node 0
  | _ => simp [List.map_take, List.map_drop]

theorem parameter_rename {node : Node} (shaped : Shaped .param node) :
    Parameter.ofNode (node.rename names) = (Parameter.ofNode node).rename names := by
  obtain ⟨name, ty, line, rfl, _⟩ := shaped.param_eq
  have typed := childTy?_rename names ⟨.param, some name, [ty], line⟩ 0
  exact congrArg (fun type => (⟨names.var name, type, line⟩ : Parameter)) typed

theorem signature_rename {node : Node} (shaped : Shaped role node) (function : node.kind = .functionDef) :
    Signature.ofNode (node.rename names) = (Signature.ofNode node).rename names := by
  have named : (node.rename names).text = names.function node.text := by
    rw [text_rename names shaped, function]
    rfl
  have each : ∀ param ∈ (node.child? 0).elim [] children, Shaped .param param := by
    obtain ⟨_, _, _, _, _, _, rfl, each, _⟩ := shaped.of_functionDef function
    exact each
  have parameters : (((node.child? 0).elim [] children).map (rename names)).map Parameter.ofNode =
      (((node.child? 0).elim [] children).map Parameter.ofNode).map (Parameter.rename names) := by
    rw [List.map_map, List.map_map]
    exact List.map_congr_left fun param member => parameter_rename (each param member)
  simp only [Signature.ofNode, Signature.rename, named, childTy?_rename, grandchildren_rename, parameters]

end Node

open Node Grammar

section
variable {names : Renaming} (injective : names.Injective)
include injective

theorem Context.enter_rename (context : Context) {node : Node} (shaped : Shaped role node) :
    (context.rename names).enter (node.rename names) = (context.enter node).rename names := by
  have named := text_rename names shaped
  unfold Context.enter
  rw [kind_rename, line_rename]
  cases kind : node.kind with
  | functionDef =>
    let inside := { context.define (.ofNode node) node.line with enclosing := some (.ofNode node) : Context }
    simp only [signature_rename shaped kind, define_rename injective]
    exact declareAll_rename injective (Signature.ofNode node).parameters inside.openScope
  | declaration =>
    rw [kind] at named
    simp only [named, declaredTy?_rename]
    exact declare_rename injective context node.text node.declaredTy? node.line
  | emerge =>
    have known : (context.rename names).enclosing.isSome = context.enclosing.isSome := Option.isSome_map ..
    simp only [known]
    exact context.require_rename _ .returnOutsideFunction node.line
  | program | block | fork => exact context.openScope_rename
  | _ => rfl

theorem Context.leave_rename (context after : Context) {node : Node} (shaped : Shaped role node)
    (given : List (Option Ty)) :
    (context.rename names).leave (node.rename names) given (after.rename names) =
      ((context.leave node given after).1, (context.leave node given after).2.rename names) := by
  have named := text_rename names shaped
  unfold Context.leave
  rw [kind_rename, line_rename]
  cases kind : node.kind with
  | program | block | fork => exact congrArg (none, ·) after.closeScope_rename
  | functionDef =>
    simp only [closeScope_rename]
    rfl
  | declaration =>
    rw [kind] at named
    simp only [named, declaredTy?_rename]
    exact congrArg (none, ·) (after.require_rename _ (.initializer node.text _ _) node.line)
  | assign =>
    rw [kind] at named
    have found : (context.rename names).lookup (names.ofKind .assign node.text) = context.lookup node.text :=
      lookup_rename injective context node.text
    simp only [named, found]
    exact congrArg (none, ·) (after.checkAssignment_rename node.text node.line _ _)
  | emerge => exact congrArg (none, ·) (after.checkResult_rename node.line context.enclosing _)
  | call =>
    rw [kind] at named
    simp only [named]
    exact checkCall_rename injective after node.text node.line given
  | binary =>
    rw [kind] at named
    simp only [named]
    exact after.checkOperands_rename node.text node.line _ _
  | var =>
    rw [kind] at named
    have found : (context.rename names).lookup (names.ofKind .var node.text) = context.lookup node.text :=
      lookup_rename injective context node.text
    simp only [named, found]
    cases context.lookup node.text with
    | none => exact congrArg (none, ·) (after.report_rename (.undeclaredVariable node.text) node.line)
    | some ty => rfl
  | num =>
    rw [kind] at named
    simp only [named]
    rfl
  | _ => rfl

omit injective in
theorem visitAll_rename {nodes : List Node}
    (each : ∀ node ∈ nodes, ∀ context : Context, visit (context.rename names) (node.rename names) =
      ((visit context node).1, (visit context node).2.rename names)) (context : Context) :
    visitAll (context.rename names) (nodes.map (rename names)) =
      ((visitAll context nodes).1, (visitAll context nodes).2.rename names) := by
  induction nodes generalizing context with
  | nil => rfl
  | cons node rest ih =>
    have first := each node (List.mem_cons_self ..) context
    have others := ih (fun other member => each other (List.mem_cons_of_mem _ member)) (visit context node).2
    rw [List.map_cons, visitAll_cons, visitAll_cons, first, others]

-- A visit of a renamed program, with what is known renamed too, yields the same type and leaves the same known.
theorem visit_rename {node : Node} (shaped : Shaped role node) (context : Context) :
    visit (context.rename names) (node.rename names) = ((visit context node).1, (visit context node).2.rename names) := by
  induction node using Node.parts_induction generalizing role context with
  | each node ih =>
    have each : ∀ part ∈ node.parts, ∀ context : Context, visit (context.rename names) (part.rename names) =
        ((visit context part).1, (visit context part).2.rename names) := by
      intro part member context
      obtain ⟨_, inner⟩ := shaped.part part member
      exact ih part member inner context
    have parts := visitAll_rename each (context.enter node)
    rw [visit_eq, visit_eq context, context.enter_rename injective shaped, parts_rename, parts,
      context.leave_rename injective _ shaped]

theorem reports_rename {node : Node} (shaped : Shaped role node) :
    (node.rename names).reports = node.reports.map (Report.rename names) := by
  have visited := visit_rename injective shaped .empty
  exact congrArg (fun result => result.2.reports) visited

end

-- Of a program with other names the same is reported, at the same lines and in the same order, and in the messages
-- there are the new names where there were the old ones.
theorem diagnostics_rename {root : Node} (program : Shaped .program root) {var function : String → String}
    (vars : Function.Injective var) (functions : Function.Injective function) :
    root.diagnostics = root.reports.map (Report.saying Wording.text) ∧
      (root.rename ⟨var, function⟩).diagnostics =
        root.reports.map (Report.saying fun wording => (wording.rename ⟨var, function⟩).text) := by
  have reports : (root.rename ⟨var, function⟩).reports = root.reports.map (Report.rename ⟨var, function⟩) :=
    reports_rename ⟨vars, functions⟩ program
  constructor
  · exact List.map_congr_left fun report _ => report.diagnostic_eq
  · rw [diagnostics, reports, List.map_map]
    exact List.map_congr_left fun report _ => report.diagnostic_rename _

def homonyms : List Token :=
  [(.word .fish, "fish"), (.mark .leftBrace, "\x7b"), (.word .fishtion, "fishtion"), (.identifier, "tide"),
    (.mark .leftParen, "("), (.mark .rightParen, ")"), (.type .int, "<int"), (.mark .leftBrace, "\x7b"),
    (.word .emerge, "emerge"), (.identifier, "wave"), (.delimiter, "<D"), (.mark .rightBrace, "\x7d"),
    (.type .int, "<int"), (.identifier, "wave"), (.assign, "<="), (.identifier, "tide"), (.delimiter, "<D"),
    (.identifier, "wave"), (.assign, "<="), (.identifier, "tide"), (.mark .leftParen, "("), (.identifier, "tide"),
    (.mark .rightParen, ")"), (.delimiter, "<D"), (.mark .rightBrace, "\x7d")].map
      fun (kind, lexeme) => ⟨kind, .unplaced, lexeme⟩

def exchanged (name : String) : String :=
  if name = "tide" then "wave" else if name = "wave" then "tide" else name

theorem exchanged_injective : Function.Injective exchanged := by
  intro name other same
  unfold exchanged at same
  grind

-- The variables exchange their names, and the variable then has the name of the function.
theorem homonyms_rename : ∃ root, Node.ofTokens homonyms = .ok root ∧ Shaped .program root ∧
    Function.Injective exchanged ∧ Function.Injective (id : String → String) ∧
    root.diagnostics.map Diagnostic.message =
      ["Variable 'wave' is not declared", "Variable 'tide' is not declared", "Variable 'tide' is not declared",
        "Call to 'tide' with 1 argument(s), expected 0"] ∧
    (root.rename ⟨exchanged, id⟩).diagnostics.map Diagnostic.message =
      ["Variable 'tide' is not declared", "Variable 'wave' is not declared", "Variable 'wave' is not declared",
        "Call to 'tide' with 1 argument(s), expected 0"] ∧
    root.diagnostics = root.reports.map (Report.saying Wording.text) ∧
      (root.rename ⟨exchanged, id⟩).diagnostics =
        root.reports.map (Report.saying fun wording => (wording.rename ⟨exchanged, id⟩).text) := by
  have accepted : Node.ofTokens homonyms = .ok _ := rfl
  have program := Node.ofTokens_shaped accepted
  exact ⟨_, accepted, program, exchanged_injective, Function.injective_id, by decide +kernel, by decide +kernel,
    diagnostics_rename program exchanged_injective Function.injective_id⟩

end FishLang
