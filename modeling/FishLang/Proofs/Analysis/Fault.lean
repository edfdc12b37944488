import FishLang.Proofs.Analysis.Context
import FishLang.Proofs.Analysis.Resolve

namespace FishLang.Node

def argumentTys (root : Node) (place : Place) (call : Node) : List (Option Ty) :=
  ((call.child? 0).elim [] Node.children).mapIdx fun index => root.infer (place ++ [0] ++ [index])

def faults (root : Node) (place : Place) (node : Node) : List Report :=
  match node.kind with
  | .var => reportUnless (root.resolve place node.text).isSome (.undeclaredVariable node.text) node.line
  | .declaration | .param =>
    reportUnless (root.unbound place node.text) (.redeclaration node.text) node.line ++
      match node.child? 1 with
      | none => []
      | some _ =>
        let declared := root.declaredTyAt place
        let given := root.typeAt (place ++ [1] ++ [0])
        reportUnless (compatible declared given) (.initializer node.text declared given) node.line
  | .assign =>
    let target := (root.resolve place node.text).map root.declaredTyAt
    Context.assignmentReports node.text node.line target (root.typeAt (place ++ [0]))
  | .functionDef => reportUnless (root.callee place node.text).isNone (.duplicateFunction node.text) node.line
  | .call =>
    let function := (root.callee place node.text).bind root.signatureAt
    Context.callReports node.text node.line function (root.argumentTys place node)
  | .emerge =>
    let function := (root.functionAround place).bind root.signatureAt
    reportUnless function.isSome .returnOutsideFunction node.line ++
      Context.resultReports node.line function (root.typeAt (place ++ [0]))
  | .binary =>
    Context.operandReports node.text node.line (root.typeAt (place ++ [0])) (root.typeAt (place ++ [1]))
  | _ => []

def faultsAt (root : Node) (place : Place) : List Report := (root.at? place).elim [] (root.faults place)

-- What there is to report from a node at the place down, and from neighbours below the place.
def faultsFrom (root : Node) (place : Place) (node : Node) : List Report :=
  node.places.flatMap fun below => root.faultsAt (place ++ below)

def faultsAll (root : Node) (place : Place) (start : Nat) (nodes : List Node) : List Report :=
  (placesAll start nodes).flatMap fun below => root.faultsAt (place ++ below)

theorem faultsAll_nil (root : Node) (place : Place) (start : Nat) : root.faultsAll place start [] = [] := rfl

theorem faultsAll_cons (root : Node) (place : Place) (start : Nat) (node : Node) (others : List Node) :
    root.faultsAll place start (node :: others) =
      root.faultsFrom (place ++ [start]) node ++ root.faultsAll place (start + 1) others := by
  simp [faultsAll, faultsFrom, placesAll, List.flatMap_append, List.flatMap_map]

theorem faultsFrom_eq {root node : Node} (present : root.at? place = some node) :
    root.faultsFrom place node = root.faults place node ++ root.faultsAll place 0 node.children := by
  obtain ⟨kind, content, children, line⟩ := node
  simp [faultsFrom, places, faultsAll, faultsAt, present]

end FishLang.Node
