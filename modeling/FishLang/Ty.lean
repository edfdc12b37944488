namespace FishLang

inductive Ty where
  | int | string | char | float | bool
deriving DecidableEq, Repr

namespace Ty

def all : List Ty := [.int, .string, .char, .float, .bool]

theorem mem_all (ty : Ty) : ty ∈ all := by cases ty <;> decide

def name : Ty → String
  | .int => "int"
  | .string => "string"
  | .char => "charal"
  | .float => "bubble"
  | .bool => "hook"

def keyword : Ty → String
  | .int => "<int"
  | .string => "<string"
  | .char => "<charal"
  | .float => "<bubble"
  | .bool => "<hook"

def label : Ty → String
  | .int => "Int"
  | .string => "String"
  | .char => "Char"
  | .float => "Float"
  | .bool => "Bool"

-- The type of that name, or of that keyword: one leading `<` is not looked at.
def ofName? (text : String) : Option Ty :=
  let bare := match text.toList with
    | '<' :: rest => .ofList rest
    | _ => text
  all.find? (·.name == bare)

theorem ofName?_name (ty : Ty) : ofName? ty.name = some ty := by cases ty <;> decide

end Ty

end FishLang
