import FishLang.Analysis.Visit

namespace FishLang

def reportUnless (condition : Bool) (finding : Finding) (line : Nat) : List Report :=
  if condition then [] else [⟨finding, line⟩]

theorem reportUnless_eq_nil : reportUnless condition finding line = [] ↔ condition = true := by
  simp [reportUnless]

def operationTy? (symbol : String) : (left right : Option Ty) → Option Ty
  | some left, some right => if left = right then some (operationTy symbol left) else none
  | _, _ => none

namespace Context

variable (context : Context) (finding : Finding) (line : Nat)

theorem require_eq (condition : Bool) : context.require condition finding line =
    { context with reports := context.reports ++ reportUnless condition finding line } := by
  cases condition <;> simp [require, reportUnless, report]

@[simp] theorem scopes_require : (context.require condition finding line).scopes = context.scopes := by
  rw [require_eq]

@[simp] theorem functions_require : (context.require condition finding line).functions = context.functions := by
  rw [require_eq]

@[simp] theorem enclosing_require : (context.require condition finding line).enclosing = context.enclosing := by
  rw [require_eq]

@[simp] theorem reports_require : (context.require condition finding line).reports =
    context.reports ++ reportUnless condition finding line := by
  rw [require_eq]

@[simp] theorem scopes_closeScope : context.closeScope.scopes = context.scopes.tail := rfl

theorem declare_eq {scope : Scope} (scopes : context.scopes = scope :: outer) (name : String) (ty : Option Ty) :
    context.declare name ty line =
      { context with
        scopes := scope.insert name ty :: outer
        reports := context.reports ++ reportUnless (!scope.contains name) (.redeclaration name) line } := by
  simp [declare, scopes, require_eq]

-- What each check finds, as a list; the checks change nothing but the reports.
def argumentReports (function : String) (line position : Nat) : (expected given : List (Option Ty)) → List Report
  | expected :: expecteds, given :: givens =>
    reportUnless (compatible expected given) (.argument function position expected given) line ++
      argumentReports function line (position + 1) expecteds givens
  | _, _ => []

def callReports (name : String) (line : Nat) (function : Option Signature) (given : List (Option Ty)) : List Report :=
  match function with
  | none => [⟨.undeclaredFunction name, line⟩]
  | some signature =>
    let expected := signature.parameters.map Parameter.ty
    if given.length = expected.length then argumentReports name line 1 expected given
    else [⟨.arity name given.length expected.length, line⟩]

def assignmentReports (name : String) (line : Nat) (target : Option (Option Ty)) (given : Option Ty) : List Report :=
  match target with
  | none => [⟨.undeclaredVariable name, line⟩]
  | some declared => reportUnless (compatible declared given) (.assignment name declared given) line

def resultReports (line : Nat) (function : Option Signature) (given : Option Ty) : List Report :=
  match function with
  | none => []
  | some function => reportUnless (compatible function.result given) (.result function.name function.result given) line

def operandReports (symbol : String) (line : Nat) : (left right : Option Ty) → List Report
  | some left, some right => reportUnless (left == right) (.operands symbol left right) line
  | _, _ => []

theorem checkArguments_eq (function : String) (position : Nat) (expected given : List (Option Ty)) :
    context.checkArguments function line position expected given =
      { context with reports := context.reports ++ argumentReports function line position expected given } := by
  induction expected generalizing context position given with
  | nil => simp [checkArguments, argumentReports]
  | cons ty tys ih =>
    cases given with
    | nil => simp [checkArguments, argumentReports]
    | cons given others => simp [checkArguments, argumentReports, ih, require_eq]

theorem checkCall_eq (name : String) (given : List (Option Ty)) : context.checkCall name line given =
    ((context.functions.find? name).bind Signature.result,
      { context with reports := context.reports ++ callReports name line (context.functions.find? name) given }) := by
  unfold checkCall callReports
  cases context.functions.find? name with
  | none => rfl
  | some signature =>
    by_cases same : given.length = (signature.parameters.map Parameter.ty).length
    · simp only [if_pos same, checkArguments_eq]
      rfl
    · simp only [if_neg same]
      rfl

theorem checkAssignment_eq (name : String) (target : Option (Option Ty)) (given : Option Ty) :
    context.checkAssignment name line target given =
      { context with reports := context.reports ++ assignmentReports name line target given } := by
  cases target with
  | none => rfl
  | some declared => simp [checkAssignment, assignmentReports, require_eq]

theorem checkResult_eq (function : Option Signature) (given : Option Ty) : context.checkResult line function given =
    { context with reports := context.reports ++ resultReports line function given } := by
  cases function with
  | none => simp [checkResult, resultReports]
  | some function => simp [checkResult, resultReports, require_eq]

theorem checkOperands_eq (symbol : String) (left right : Option Ty) : context.checkOperands symbol line left right =
    (operationTy? symbol left right,
      { context with reports := context.reports ++ operandReports symbol line left right }) := by
  cases left with
  | none => simp [checkOperands, operandReports, operationTy?]
  | some left =>
    cases right with
    | none => simp [checkOperands, operandReports, operationTy?]
    | some right =>
      by_cases same : left = right
      · simp [checkOperands, operandReports, operationTy?, reportUnless, same]
      · simp [checkOperands, operandReports, operationTy?, reportUnless, report, same]

end Context

end FishLang
