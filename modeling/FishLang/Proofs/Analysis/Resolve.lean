import FishLang.Proofs.Analysis.Context
import FishLang.Proofs.Analysis.Place

namespace FishLang

def Node.Kind.opensScope : Node.Kind → Bool
  | .program | .block | .fork | .functionDef => true
  | _ => false

namespace Node

def binds (name : String) (node : Node) : Bool := [.declaration, .param].contains node.kind && node.text == name

def defines (name : String) (node : Node) : Bool := node.kind == .functionDef && node.text == name

def holds (root : Node) (test : Node → Bool) (place : Place) : Bool := (root.at? place).any test

-- The scopes around a place, the innermost first. A node is not around itself.
def scopesAround (root : Node) (place : Place) : List Place := place.above.filter (root.holds (·.kind.opensScope))

def scopeOf (root : Node) (place : Place) : Option Place := (root.scopesAround place).head?

-- The variables and parameters of a name that are of the scope itself and before the cut.
def bindersBefore (root : Node) (cut scope : Place) (name : String) : List Place :=
  (root.before cut).filter fun place => root.holds (binds name) place && root.scopeOf place == some scope

def resolve (root : Node) (use : Place) (name : String) : Option Place :=
  (root.scopesAround use).findSome? fun scope => (root.bindersBefore use scope name).getLast?

def callee (root : Node) (call : Place) (name : String) : Option Place :=
  (root.places.find? (root.holds (defines name))).filter (· < call)

def unbound (root : Node) (place : Place) (name : String) : Bool :=
  (root.scopeOf place).all fun scope => (root.bindersBefore place scope name).isEmpty

def functionAround (root : Node) (place : Place) : Option Place :=
  place.above.find? (root.holds (·.kind == .functionDef))

def declaredTyAt (root : Node) (place : Place) : Option Ty :=
  ((root.at? place).bind (·.child? 0)).bind ty?

def signatureAt (root : Node) (place : Place) : Option Signature := (root.at? place).map .ofNode

-- The type of an expression at the place, from the leaves up. What does not resolve has none, and neither has an
-- operation on operands of two types.
def infer (root : Node) : Place → Node → Option Ty
  | _, ⟨.num, content, _, _⟩ => some (numeralTy (content.getD ""))
  | _, ⟨.string, _, _, _⟩ => some .string
  | _, ⟨.char, _, _, _⟩ => some .char
  | place, ⟨.var, content, _, _⟩ => (root.resolve place (content.getD "")).bind root.declaredTyAt
  | place, ⟨.call, content, _, _⟩ =>
    ((root.callee place (content.getD "")).bind root.signatureAt).bind Signature.result
  | place, ⟨.unary, _, [operand], _⟩ => infer root (place ++ [0]) operand
  | place, ⟨.suffix, _, [operand], _⟩ => infer root (place ++ [0]) operand
  | place, ⟨.binary, content, [left, right], _⟩ =>
    operationTy? (content.getD "") (infer root (place ++ [0]) left) (infer root (place ++ [1]) right)
  | _, _ => none

def typeAt (root : Node) (place : Place) : Option Ty := (root.at? place).bind (root.infer place)

theorem holds_eq {root node : Node} (present : root.at? place = some node) (test : Node → Bool) :
    root.holds test place = test node := by
  simp [holds, present]

theorem holds_iff {root : Node} {test : Node → Bool} :
    root.holds test place = true ↔ ∃ node, root.at? place = some node ∧ test node = true := by
  rw [holds, Option.any_eq_true]

theorem typeAt_eq {root node : Node} (present : root.at? place = some node) :
    root.typeAt place = root.infer place node := by
  simp [typeAt, present]

theorem signatureAt_eq {root node : Node} (present : root.at? place = some node) :
    root.signatureAt place = some (.ofNode node) := by
  simp [signatureAt, present]

theorem scopesAround_sibling (root : Node) (parent : Place) (index other : Nat) :
    root.scopesAround (parent ++ [index]) = root.scopesAround (parent ++ [other]) := by
  rw [scopesAround, scopesAround, Place.above_child, Place.above_child]

theorem functionAround_sibling (root : Node) (parent : Place) (index other : Nat) :
    root.functionAround (parent ++ [index]) = root.functionAround (parent ++ [other]) := by
  rw [functionAround, functionAround, Place.above_child, Place.above_child]

theorem scopesAround_child {root node : Node} (present : root.at? place = some node) (index : Nat) :
    root.scopesAround (place ++ [index]) =
      if node.kind.opensScope then place :: root.scopesAround place else root.scopesAround place := by
  simp [scopesAround, Place.above_child, List.filter_cons, holds_eq present]

theorem functionAround_child {root node : Node} (present : root.at? place = some node) (index : Nat) :
    root.functionAround (place ++ [index]) =
      if node.kind = .functionDef then some place else root.functionAround place := by
  simp [functionAround, Place.above_child, List.find?_cons, holds_eq present]
  split <;> simp_all

theorem bindersBefore_first_child {root node : Node} (present : root.at? place = some node) (scope : Place)
    (name : String) : root.bindersBefore (place ++ [0]) scope name =
      root.bindersBefore place scope name ++
        if node.binds name && root.scopeOf place == some scope then [place] else [] := by
  rw [bindersBefore, before_first_child present, List.filter_append, List.filter_cons, holds_eq present]
  rfl

theorem bindersBefore_next {root node : Node} (present : root.at? (parent ++ [index]) = some node) (scope : Place)
    (name : String) : root.bindersBefore (parent ++ [index + 1]) scope name =
      root.bindersBefore (parent ++ [index] ++ [node.children.length]) scope name := by
  rw [bindersBefore, bindersBefore, before_next present]

theorem lt_of_mem_above (place other : Place) (member : other ∈ place.above) : other < place := by
  induction place generalizing other with
  | nil => cases member
  | cons first rest ih =>
    simp only [Place.above, List.mem_append, List.mem_map, List.mem_singleton] at member
    cases member with
    | inl within =>
      obtain ⟨inner, member, rfl⟩ := within
      simpa [List.cons_lt_cons_iff] using ih inner member
    | inr top => simp [top]

theorem above_sorted (place : Place) : place.above.Pairwise fun one other => other < one := by
  induction place with
  | nil => exact .nil
  | cons first rest ih =>
    simp only [Place.above, List.pairwise_append, List.pairwise_map]
    refine ⟨ih.imp fun less => by simpa [List.cons_lt_cons_iff] using less, .cons (by simp) .nil, ?_⟩
    intro place within top member
    obtain ⟨inner, _, rfl⟩ := List.mem_map.mp within
    cases List.mem_singleton.mp member
    exact List.nil_lt_cons _ _

theorem scopeOf_apart {root : Node} (around : root.scopesAround place = scope :: outer) :
    ∀ other ∈ outer, root.scopeOf place ≠ some other := by
  intro other member same
  have sorted : (root.scopesAround place).Pairwise fun one other => other < one := (above_sorted place).filter _
  rw [around] at sorted
  rw [scopeOf, around] at same
  cases same
  exact List.lt_irrefl _ ((List.pairwise_cons.mp sorted).1 _ member)

theorem bindersBefore_own {root : Node} (place : Place) (name : String) :
    root.bindersBefore (place ++ [0]) place name = [] := by
  simp only [bindersBefore, List.filter_eq_nil_iff, Bool.and_eq_true, beq_iff_eq, not_and]
  intro other member _ own
  have around : place ∈ other.above := by
    rw [scopeOf] at own
    exact (List.mem_filter.mp (List.mem_of_head? own)).1
  have after := lt_of_mem_above other place around
  cases (Place.lt_first_child place other).mp (mem_before.mp member).2 with
  | inl earlier => exact List.lt_asymm after earlier
  | inr same => exact List.lt_irrefl place (same ▸ after)

theorem find?_first {order : Place → Place → Prop} {list : List Place} {test : Place → Bool}
    (sorted : list.Pairwise order) (found : list.find? test = some first) (member : other ∈ list)
    (passes : test other = true) : other = first ∨ order first other := by
  obtain ⟨_, front, back, split, passed⟩ := List.find?_eq_some_iff_append.mp found
  rw [split] at sorted member
  rcases List.mem_append.mp member with earlier | here
  · have none := passed other earlier
    rw [passes] at none
    cases none
  · rcases List.mem_cons.mp here with same | later
    · exact .inl same
    · exact .inr ((List.pairwise_cons.mp (List.pairwise_append.mp sorted).2.1).1 other later)

theorem find?_filter_lt {list : List Place} (sorted : list.Pairwise (· < ·)) (test : Place → Bool) (cut : Place) :
    (list.filter (· < cut)).find? test = (list.find? test).filter (· < cut) := by
  induction list with
  | nil => rfl
  | cons first others ih =>
    obtain ⟨least, sorted⟩ := List.pairwise_cons.mp sorted
    by_cases less : first < cut
    · by_cases here : test first
      · simp [less, here, Option.filter]
      · simp [less, here, ih sorted]
    · have none : others.filter (· < cut) = [] := by
        simp only [List.filter_eq_nil_iff, decide_eq_true_eq]
        intro other member earlier
        exact less (List.lt_trans (least other member) earlier)
      by_cases here : test first
      · simp [less, here, none, Option.filter]
      · rw [List.find?_cons_of_neg here, ← ih sorted, none]
        simp [less, none]

theorem callee_present {root : Node} (found : root.callee call name = some first) :
    ∃ node, root.at? first = some node ∧ node.kind = .functionDef ∧ node.text = name := by
  obtain ⟨known, _⟩ := Option.filter_eq_some_iff.mp found
  obtain ⟨node, present, defines⟩ := holds_iff.mp (List.find?_some known)
  exact ⟨node, present, by simpa [Node.defines] using defines⟩

theorem mem_bindersBefore {root : Node} : place ∈ root.bindersBefore cut scope name ↔
    (∃ node, root.at? place = some node ∧ node.binds name = true) ∧ root.scopeOf place = some scope ∧ place < cut := by
  simp only [bindersBefore, List.mem_filter, mem_before, Bool.and_eq_true, beq_iff_eq, holds_iff]
  constructor
  · intro ⟨⟨_, before⟩, binder, own⟩
    exact ⟨binder, own, before⟩
  · intro ⟨⟨node, present, binds⟩, own, before⟩
    exact ⟨⟨⟨node, present⟩, before⟩, ⟨node, present, binds⟩, own⟩

theorem resolve_present {root : Node} (found : root.resolve use name = some binder) :
    ∃ node, root.at? binder = some node ∧ node.binds name = true := by
  obtain ⟨scope, _, last⟩ := List.exists_of_findSome?_eq_some found
  exact (mem_bindersBefore.mp (List.mem_of_getLast? last)).1

theorem functionAround_present {root : Node} (found : root.functionAround place = some function) :
    ∃ node, root.at? function = some node ∧ node.kind = .functionDef := by
  obtain ⟨node, present, kind⟩ := holds_iff.mp (List.find?_some found)
  exact ⟨node, present, by simpa using kind⟩

theorem callee_eq (root : Node) (call : Place) (name : String) :
    root.callee call name = (root.before call).find? (root.holds (defines name)) :=
  (find?_filter_lt (places_sorted root) _ call).symm

theorem callee_first_child {root node : Node} (present : root.at? place = some node) (name : String) :
    root.callee (place ++ [0]) name =
      (root.callee place name).or (if node.defines name then some place else none) := by
  rw [callee_eq, callee_eq, before_first_child present, List.find?_append, List.find?_singleton, holds_eq present]

theorem callee_next {root node : Node} (present : root.at? (parent ++ [index]) = some node) (name : String) :
    root.callee (parent ++ [index + 1]) name = root.callee (parent ++ [index] ++ [node.children.length]) name := by
  rw [callee_eq, callee_eq, before_next present]

end Node

end FishLang
