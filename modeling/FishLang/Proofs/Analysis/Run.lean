import FishLang.Proofs.Analysis.WellFormed

namespace FishLang

open Node Grammar

structure Visit where
  place : Place
  before : Context
  node : Node

namespace Visit

-- The type that the visit yields, and what is known after it.
def ty (visited : Visit) : Option Ty := (visit visited.before visited.node).1
def after (visited : Visit) : Context := (visit visited.before visited.node).2

end Visit

mutual

-- The visits that a visit of the node at the place makes, itself the first.
def visits (place : Place) (context : Context) : Node → List Visit
  | ⟨kind, value, children, line⟩ =>
    let name := value.getD ""
    ⟨place, context, ⟨kind, value, children, line⟩⟩ ::
      match kind with
      | .program | .block | .fork => visitsAll place 0 context.openScope children
      | .functionDef =>
        let signature := Signature.ofNode ⟨kind, value, children, line⟩
        let inside := { context.define signature line with enclosing := some signature }
        visitsAt (place ++ [2]) (inside.openScope.declareAll signature.parameters) 2 children
      | .declaration =>
        match children with
        | _ :: ⟨_, _, value, _⟩ :: _ =>
          visitsAt (place ++ [1] ++ [0]) (context.declare name ((children[0]?).bind Node.ty?) line) 0 value
        | _ => []
      | .emerge =>
        visitsAt (place ++ [0]) (context.require context.enclosing.isSome .returnOutsideFunction line) 0 children
      | .call =>
        match children with
        | ⟨_, _, arguments, _⟩ :: _ => visitsAll (place ++ [0]) 0 context arguments
        | [] => []
      | .binary =>
        visitsAt (place ++ [0]) context 0 children ++
          visitsAt (place ++ [1]) (visitAt context 0 children).2 1 children
      | .assign | .unary | .suffix => visitsAt (place ++ [0]) context 0 children
      | .var | .num | .string | .char => []
      | .initializer | .typeName | .params | .param | .when | .whale | .attempt | .splash | .args | .empty =>
        visitsAll place 0 context children

def visitsAll (place : Place) (index : Nat) (context : Context) : List Node → List Visit
  | [] => []
  | node :: rest =>
    visits (place ++ [index]) context node ++ visitsAll place (index + 1) (visit context node).2 rest

def visitsAt (place : Place) (context : Context) : Nat → List Node → List Visit
  | _, [] => []
  | 0, node :: _ => visits place context node
  | index + 1, _ :: rest => visitsAt place context index rest

end

def Node.run (root : Node) : List Visit := visits [] .empty root

-- The visits that a run makes at the place.
def Node.visitsOf (root : Node) (place : Place) : List Visit := root.run.filter (·.place == place)

theorem mem_visitsOf {root : Node} {made : Visit} :
    made ∈ root.visitsOf place ↔ made ∈ root.run ∧ made.place = place := by
  simp [Node.visitsOf]

mutual

theorem visits_nodes (place : Place) (context : Context) :
    (node : Node) → (visits place context node).map Visit.node = node.visited
  | ⟨kind, value, children, line⟩ => by
    cases kind with
    | declaration =>
      match children with
      | [] | [_] => rfl
      | _ :: ⟨_, _, value, _⟩ :: _ => simp [visits, visited, visitsAt_nodes]
    | call =>
      match children with
      | [] => rfl
      | ⟨_, _, arguments, _⟩ :: _ => simp [visits, visited, visitsAll_nodes]
    | _ => simp [visits, visited, visitsAll_nodes, visitsAt_nodes]

theorem visitsAll_nodes (place : Place) (index : Nat) (context : Context) :
    (nodes : List Node) → (visitsAll place index context nodes).map Visit.node = visitedAll nodes
  | [] => rfl
  | node :: rest => by simp [visitsAll, visitedAll, visits_nodes, visitsAll_nodes]

theorem visitsAt_nodes (place : Place) (context : Context) :
    (index : Nat) → (nodes : List Node) → (visitsAt place context index nodes).map Visit.node = visitedAt index nodes
  | _, [] => by simp [visitsAt, visitedAt]
  | 0, node :: _ => by simp [visitsAt, visitedAt, visits_nodes]
  | index + 1, _ :: rest => by simp [visitsAt, visitedAt, visitsAt_nodes]

end

namespace Node

-- What a pass is not said to visit: it takes from these nodes what it needs, or goes on to what is in them.
def passedOver : List Node.Kind := [.typeName, .initializer, .params, .param, .args]

def visitable (node : Node) : Bool := node.kind ∉ passedOver

def reached (node : Node) : List Place := node.places.filter (node.holds visitable)

def reachedAll (index : Nat) : List Node → List Place
  | [] => []
  | node :: rest => node.reached.map (index :: ·) ++ reachedAll (index + 1) rest

theorem filter_placesAll (whole : Node) (nodes : List Node) : ∀ passed, whole.children = passed ++ nodes →
    (placesAll passed.length nodes).filter (whole.holds visitable) = reachedAll passed.length nodes := by
  induction nodes with
  | nil => exact fun _ _ => rfl
  | cons node others ih =>
    intro passed split
    have here : whole.children[passed.length]? = some node := by
      rw [split]
      simp
    have below : whole.holds visitable ∘ (passed.length :: ·) = node.holds visitable := by
      funext place
      simp [holds, at?, here]
    have rest := ih (passed ++ [node]) (by simp [split])
    rw [List.length_append, List.length_singleton] at rest
    rw [placesAll, List.filter_append, List.filter_map, below, reachedAll, ← rest]
    rfl

theorem reached_eq (node : Node) :
    node.reached = (if node.visitable then [[]] else []) ++ reachedAll 0 node.children := by
  have below : (placesAll 0 node.children).filter (node.holds visitable) = reachedAll 0 node.children :=
    filter_placesAll node node.children [] rfl
  obtain ⟨kind, value, children, line⟩ := node
  have own : Node.holds ⟨kind, value, children, line⟩ visitable [] = visitable ⟨kind, value, children, line⟩ :=
    holds_eq rfl _
  rw [reached, places, List.filter_cons, own, ← below]
  split <;> rfl

end Node

-- Visits of a tree, at the places in turn: each of the node that is there, and knowing what the places before say.
structure Runs (root : Node) (places : List Place) (visits : List Visit) : Prop where
  places : visits.map Visit.place = places
  sound : ∀ visited ∈ visits, root.at? visited.place = some visited.node ∧ Agrees root visited.place visited.before

namespace Runs

theorem nil : Runs root [] [] := ⟨rfl, by simp⟩

theorem append (one : Runs root front made) (two : Runs root back others) :
    Runs root (front ++ back) (made ++ others) := by
  refine ⟨by rw [List.map_append, one.places, two.places], fun visited member => ?_⟩
  rcases List.mem_append.mp member with first | second
  · exact one.sound visited first
  · exact two.sound visited second

theorem cons {node : Node} (present : root.at? place = some node) (agrees : Agrees root place context)
    (rest : Runs root behind others) : Runs root (place :: behind) (⟨place, context, node⟩ :: others) := by
  refine ⟨congrArg (place :: ·) rest.places, fun visited member => ?_⟩
  rcases List.mem_cons.mp member with rfl | later
  · exact ⟨present, agrees⟩
  · exact rest.sound visited later

end Runs

-- The visits of a node, wherever it stands in the tree, are those of what is to visit from there down.
def Traced (root node : Node) : Prop :=
  ∀ parent index context, root.at? (parent ++ [index]) = some node → Agrees root (parent ++ [index]) context →
    Runs root (node.reached.map (parent ++ [index] ++ ·)) (visits (parent ++ [index]) context node)

section
variable {root node : Node} {place parent : Place}

theorem Runs.headed (present : root.at? place = some node) (agrees : Agrees root place context)
    (own : node.visitable = true) (below : Runs root ((reachedAll 0 node.children).map (place ++ ·)) others) :
    Runs root (node.reached.map (place ++ ·)) (⟨place, context, node⟩ :: others) := by
  have all : node.reached.map (place ++ ·) = place :: (reachedAll 0 node.children).map (place ++ ·) := by
    simp [reached_eq, own]
  rw [all]
  exact .cons present agrees below

theorem visitsAll_traced {whole : Node} (present : root.at? place = some whole) (nodes : List Node) :
    ∀ passed context, whole.children = passed ++ nodes → (∀ node ∈ nodes, Simulated root node ∧ Traced root node) →
      Agrees root (place ++ [passed.length]) context →
      Runs root ((reachedAll passed.length nodes).map (place ++ ·)) (visitsAll place passed.length context nodes) := by
  induction nodes with
  | nil => exact fun _ _ _ _ _ => .nil
  | cons node others ih =>
    intro passed context split each agrees
    obtain ⟨simulated, traced⟩ := each node (by simp)
    have here : root.at? (place ++ [passed.length]) = some node := by
      rw [at?_child present, split]
      simp
    obtain ⟨_, follows⟩ := simulated place passed.length context here agrees
    have agrees' : Agrees root (place ++ [(passed ++ [node]).length]) (visit context node).2 := by
      rw [List.length_append]
      exact follows.agrees
    have rest := ih (passed ++ [node]) (visit context node).2 (by simp [split])
      (fun other member => each other (by simp [member])) agrees'
    have first := traced place passed.length context here agrees
    rw [List.length_append, List.length_singleton] at rest
    have split : (reachedAll passed.length (node :: others)).map (place ++ ·) =
        node.reached.map (place ++ [passed.length] ++ ·) ++
          (reachedAll (passed.length + 1) others).map (place ++ ·) := by
      simp [reachedAll, Function.comp_def]
    rw [split]
    exact first.append rest

theorem visitsAll_children (present : root.at? place = some node)
    (each : ∀ child ∈ node.children, Simulated root child ∧ Traced root child)
    (agrees : Agrees root (place ++ [0]) context) :
    Runs root ((reachedAll 0 node.children).map (place ++ ·)) (visitsAll place 0 context node.children) :=
  visitsAll_traced present node.children [] context rfl each agrees

theorem traced_group (flat : node.kind.opensScope = false) (binds : ∀ name, node.binds name = false)
    (own : node.visitable = true)
    (made : ∀ place context, visits place context node = ⟨place, context, node⟩ :: visitsAll place 0 context node.children)
    (each : ∀ child ∈ node.children, Simulated root child ∧ Traced root child) : Traced root node := by
  intro parent index context present agrees
  rw [made]
  exact .headed present agrees own (visitsAll_children present each (agrees.enter present flat binds))

theorem traced_scope (opens : node.kind.opensScope = true) (other : node.kind ≠ .functionDef)
    (own : node.visitable = true)
    (made : ∀ place context, visits place context node =
      ⟨place, context, node⟩ :: visitsAll place 0 context.openScope node.children)
    (each : ∀ child ∈ node.children, Simulated root child ∧ Traced root child) : Traced root node := by
  intro parent index context present agrees
  rw [made]
  exact .headed present agrees own (visitsAll_children present each (agrees.openScope present opens other))

theorem traced_leaf (bare : node.children = []) (own : node.visitable = true)
    (made : ∀ place context, visits place context node = [⟨place, context, node⟩]) : Traced root node := by
  intro parent index context present agrees
  rw [made]
  refine .headed present agrees own ?_
  rw [bare]
  exact .nil

theorem reachedAll_single (index : Nat) (operand : Node) :
    reachedAll index [operand] = operand.reached.map (index :: ·) := List.append_nil _

theorem Traced.only {operand : Node} (traced : Traced root operand) (only : node.children = [operand])
    (present : root.at? place = some node) (agrees : Agrees root (place ++ [0]) context) :
    Runs root ((reachedAll 0 node.children).map (place ++ ·)) (visits (place ++ [0]) context operand) := by
  have below : root.at? (place ++ [0]) = some operand := by
    rw [at?_child present, only]
    rfl
  have inner := traced place 0 context below agrees
  rw [only, reachedAll_single, List.map_map]
  simpa [Function.comp_def] using inner

theorem traced_through {operand : Node} {kind : Node.Kind} (kinds : kind ∈ [Node.Kind.assign, .unary, .suffix])
    (traced : Traced root operand) (content : Option String) (line : Nat) :
    Traced root ⟨kind, content, [operand], line⟩ := by
  intro parent index context present agrees
  simp only [List.mem_cons, List.not_mem_nil, or_false] at kinds
  rcases kinds with rfl | rfl | rfl <;>
    exact .headed present agrees rfl (traced.only rfl present (agrees.enter present rfl fun _ => rfl))

theorem traced_emerge {given : Node} (traced : Traced root given) (line : Nat) :
    Traced root (.group .emerge [given] line) := by
  intro parent index context present agrees
  have checked : Agrees root (parent ++ [index])
      (context.require context.enclosing.isSome .returnOutsideFunction line) :=
    agrees.of_same (by simp) (by simp) (by simp)
  exact .headed present agrees rfl (traced.only rfl present (checked.enter present rfl fun _ => rfl))

theorem traced_binary {left right : Node} (simulated : Simulated root left) (one : Traced root left)
    (two : Traced root right) (symbol : String) (line : Nat) :
    Traced root ⟨.binary, some symbol, [left, right], line⟩ := by
  intro parent index context present agrees
  have first : root.at? (parent ++ [index] ++ [0]) = some left := at?_child present 0
  have second : root.at? (parent ++ [index] ++ [1]) = some right := at?_child present 1
  have entered := agrees.enter present rfl fun _ => rfl
  obtain ⟨_, follows⟩ := simulated _ 0 context first entered
  have below := (one _ 0 context first entered).append (two _ 1 _ second follows.agrees)
  have split : (reachedAll 0 [left, right]).map (parent ++ [index] ++ ·) =
      left.reached.map (parent ++ [index] ++ [0] ++ ·) ++ right.reached.map (parent ++ [index] ++ [1] ++ ·) := by
    simp [reachedAll, Function.comp_def]
  refine .headed present agrees rfl ?_
  show Runs root ((reachedAll 0 [left, right]).map (parent ++ [index] ++ ·)) _
  rw [split]
  exact below

theorem traced_call {given : List Node} (each : ∀ node ∈ given, Simulated root node ∧ Traced root node) (name : String)
    (below line : Nat) : Traced root ⟨.call, some name, [.group .args given below], line⟩ := by
  intro parent index context present agrees
  have args : root.at? (parent ++ [index] ++ [0]) = some (.group .args given below) := at?_child present 0
  have entered := (agrees.enter present rfl fun _ => rfl).enter args rfl fun _ => rfl
  have inner := visitsAll_children args each entered
  have through : (Node.group .args given below).reached = reachedAll 0 given := reached_eq _
  have split : (reachedAll 0 [.group .args given below]).map (parent ++ [index] ++ ·) =
      (reachedAll 0 given).map (parent ++ [index] ++ [0] ++ ·) := by
    simp [reachedAll_single, through, Function.comp_def]
  refine .headed present agrees rfl ?_
  show Runs root ((reachedAll 0 [.group .args given below]).map (parent ++ [index] ++ ·)) _
  rw [split]
  exact inner

theorem reached_typeName {ty : Node} (shaped : Shaped .typeName ty) : ty.reached = [] := by
  obtain ⟨_, _, rfl⟩ := shaped.typeName_eq
  rfl

theorem traced_declaration {ty : Node} (typed : Shaped .typeName ty) (name : String) (line : Nat) :
    Traced root ⟨.declaration, some name, [ty], line⟩ := by
  intro parent index context present agrees
  refine .headed present agrees rfl ?_
  show Runs root ((reachedAll 0 [ty]).map (parent ++ [index] ++ ·)) []
  rw [reachedAll_single, reached_typeName typed]
  exact .nil

theorem traced_initialized {ty value : Node} (opens : root.kind.opensScope = true) (typed : Shaped .typeName ty)
    (traced : Traced root value) (name : String) (line below : Nat) :
    Traced root ⟨.declaration, some name, [ty, .group .initializer [value] below], line⟩ := by
  intro parent index context present agrees
  have binds : Node.binds name ⟨.declaration, some name, [ty, .group .initializer [value] below], line⟩ = true := by
    simp [Node.binds, Node.text]
  have declared : root.declaredTyAt (parent ++ [index]) = ty.ty? := declaredTyAt_eq present
  obtain ⟨bound, _⟩ := agrees.declare present binds (scopesAround_ne_nil opens parent index) line
  obtain ⟨passed, _⟩ := bound.passType present rfl typed
  rw [declared] at passed
  have initializer : root.at? (parent ++ [index] ++ [1]) = some (.group .initializer [value] below) :=
    at?_child present 1
  have inner := traced.only rfl initializer (passed.enter initializer rfl fun _ => rfl)
  have through : (Node.group .initializer [value] below).reached = reachedAll 0 [value] := reached_eq _
  have split : (reachedAll 0 [ty, .group .initializer [value] below]).map (parent ++ [index] ++ ·) =
      (reachedAll 0 [value]).map (parent ++ [index] ++ [1] ++ ·) := by
    simp [reachedAll, reached_typeName typed, through, Function.comp_def]
  refine .headed present agrees rfl ?_
  show Runs root ((reachedAll 0 [ty, .group .initializer [value] below]).map (parent ++ [index] ++ ·)) _
  rw [split]
  exact inner

theorem reached_param {param : Node} (shaped : Shaped .param param) : param.reached = [] := by
  obtain ⟨_, ty, _, rfl, typed⟩ := shaped.param_eq
  rw [reached_eq]
  simp [visitable, passedOver, reachedAll, reached_typeName typed]

theorem reachedAll_params {list : List Node} (each : ∀ param ∈ list, Shaped .param param) (index : Nat) :
    reachedAll index list = [] := by
  induction list generalizing index with
  | nil => rfl
  | cons param others ih =>
    rw [reachedAll, reached_param (each param (by simp)), ih fun other member => each other (by simp [member])]
    rfl

theorem traced_functionDef {params result body : Node} (opens : root.kind.opensScope = true)
    (taken : Shaped .params params) (typed : Shaped .typeName result) (traced : Traced root body) (name : String)
    (line : Nat) : Traced root ⟨.functionDef, some name, [params, result, body], line⟩ := by
  intro parent index context present agrees
  obtain ⟨list, below, rfl, shaped⟩ := taken.params_eq
  have none : (Node.group .params list below).reached = [] := (reached_eq _).trans (reachedAll_params shaped 0)
  have group : root.at? (parent ++ [index] ++ [0]) = some (.group .params list below) := at?_child present 0
  have inner : root.at? (parent ++ [index] ++ [2]) = some body := at?_child present 2
  have entered := (agrees.enterFunction present rfl line).enter group rfl fun _ => rfl
  have bound := declareAll_simulated opens group list [] _ rfl shaped entered
  have passed : Agrees root (parent ++ [index] ++ [1]) _ := bound.agrees.leave group rfl
  obtain ⟨atBody, _⟩ := passed.passType present rfl typed
  have split : (reachedAll 0 [.group .params list below, result, body]).map (parent ++ [index] ++ ·) =
      body.reached.map (parent ++ [index] ++ [2] ++ ·) := by
    simp [reachedAll, none, reached_typeName typed, Function.comp_def]
  refine .headed present agrees rfl ?_
  show Runs root ((reachedAll 0 [.group .params list below, result, body]).map (parent ++ [index] ++ ·)) _
  rw [split]
  exact traced _ 2 _ inner atBody

-- What is visited by the role of a node; what is passed over is gone through to what is in it, if anything.
def TracedFor (root : Node) : Role → Node → Prop
  | .params, _ | .param, _ | .typeName, _ => True
  | .initializer, node | .args, node => ∀ child ∈ node.children, Traced root child
  | _, node => Traced root node

theorem shaped_traced (opens : root.kind.opensScope = true) (shaped : Shaped role node) : TracedFor root role node := by
  have visited {role : Role} {node : Node} (shaped : Shaped role node) : Visited root role node :=
    shaped_visited opens shaped
  induction shaped with
  | program inner ih =>
    apply traced_scope rfl (by simp [Node.group]) rfl (fun _ _ => rfl)
    simpa [Node.group] using ⟨visited inner, ih⟩
  | block inner ih =>
    exact traced_scope rfl (by simp [Node.group]) rfl (fun _ _ => rfl) fun node member =>
      ⟨visited (inner node member), ih node member⟩
  | typeName | params | param => trivial
  | declaration typed => exact traced_declaration typed _ _
  | initialized typed given _ ih =>
    obtain ⟨value, line, rfl, _⟩ := given.initializer_eq
    exact traced_initialized opens typed (ih value (by simp [Node.group])) _ _ _
  | initializer _ ih => simpa [TracedFor, Node.group] using ih
  | functionDef taken typed _ _ _ ih => exact traced_functionDef opens taken typed ih _ _
  | when given inner last _ ihGiven ihInner ihLast =>
    apply traced_group rfl (fun _ => rfl) rfl (fun _ _ => rfl)
    simpa [Node.group] using ⟨⟨visited given, ihGiven⟩, ⟨visited inner, ihInner⟩, fun node member =>
      ⟨visited (last node member), ihLast node member⟩⟩
  | whale given inner ihGiven ihInner =>
    apply traced_group rfl (fun _ => rfl) rfl (fun _ _ => rfl)
    simpa [Node.group] using ⟨⟨visited given, ihGiven⟩, visited inner, ihInner⟩
  | fork first given next inner ihFirst ihGiven ihNext ihInner =>
    apply traced_scope rfl (by simp [Node.group]) rfl (fun _ _ => rfl)
    simpa [Node.group] using ⟨⟨visited first, ihFirst⟩, ⟨visited given, ihGiven⟩, ⟨visited next, ihNext⟩,
      visited inner, ihInner⟩
  | attempt inner rescue last _ ihInner ihRescue ihLast =>
    apply traced_group rfl (fun _ => rfl) rfl (fun _ _ => rfl)
    simpa [Node.group] using ⟨⟨visited inner, ihInner⟩, ⟨visited rescue, ihRescue⟩, fun node member =>
      ⟨visited (last node member), ihLast node member⟩⟩
  | splash given ih =>
    apply traced_group rfl (fun _ => rfl) rfl (fun _ _ => rfl)
    simpa [Node.group] using ⟨visited given, ih⟩
  | emerge _ ih => exact traced_emerge ih _
  | assign _ ih => exact traced_through (by simp) ih _ _
  | count => exact traced_through (by simp) (traced_leaf rfl rfl fun _ _ => rfl) _ _
  | call taken ih =>
    have arguments := visited taken
    obtain ⟨given, below, rfl, _⟩ := taken.args_eq
    exact traced_call (fun node member => ⟨arguments node member, ih node member⟩) _ _ _
  | args _ ih => exact ih
  | binary _ left _ ihLeft ihRight => exact traced_binary (visited left) ihLeft ihRight _ _
  | unary _ _ ih => exact traced_through (by simp) ih _ _
  | suffix _ _ ih => exact traced_through (by simp) ih _ _
  | var | num | string | char => exact traced_leaf rfl rfl fun _ _ => rfl
  | absent =>
    apply traced_group rfl (fun _ => rfl) rfl (fun _ _ => rfl)
    simp [Node.absent, Node.group]
  | @takes other value role among _ ih =>
    cases role <;> cases other <;> first | exact ih | simp [Role.admits] at among

theorem shaped_simulated (opens : root.kind.opensScope = true) (shaped : Shaped role node)
    (own : node.visitable = true) : Simulated root node := by
  have visited := shaped_visited opens shaped
  cases role with
  | initializer =>
    obtain ⟨_, _, rfl, _⟩ := shaped.initializer_eq
    cases own
  | params =>
    obtain ⟨_, _, rfl, _⟩ := shaped.params_eq
    cases own
  | param =>
    obtain ⟨_, _, _, rfl, _⟩ := shaped.param_eq
    cases own
  | args =>
    obtain ⟨_, _, rfl, _⟩ := shaped.args_eq
    cases own
  | _ => exact visited

end

section
variable {root : Node}

theorem run_runs (program : Shaped .program root) : Runs root root.reached root.run := by
  cases program with
  | takes among => cases among
  | @program body line inner =>
    have opens : (Node.group .program [body] line).kind.opensScope = true := rfl
    have each : ∀ child ∈ [body], Simulated (.group .program [body] line) child ∧
        Traced (.group .program [body] line) child := by
      intro child member
      cases List.mem_singleton.mp member
      exact ⟨shaped_visited opens inner, shaped_traced opens inner⟩
    have present : (Node.group .program [body] line).at? [] = some (.group .program [body] line) := rfl
    have start := agrees_empty (.group .program [body] line)
    have below := visitsAll_children present each (start.openScope present opens (by simp [Node.group]))
    have all := Runs.headed present start rfl below
    rw [List.map_congr_left (fun place _ => List.nil_append place), List.map_id'] at all
    exact all

-- A run comes to every node that is not passed over, in the order of places and once to each.
theorem run_places (program : Shaped .program root) : root.run.map Visit.place = root.reached := (run_runs program).places

theorem run_sound {made : Visit} (program : Shaped .program root) (member : made ∈ root.run) :
    root.at? made.place = some made.node ∧ Agrees root made.place made.before := (run_runs program).sound made member

theorem reached_nodup (root : Node) : root.reached.Nodup := (places_nodup root).filter _

theorem run_at {node : Node} (program : Shaped .program root) (present : root.at? place = some node)
    (own : node.visitable = true) : ∃ made, root.visitsOf place = [made] ∧ made.node = node := by
  have member : place ∈ root.reached :=
    List.mem_filter.mpr ⟨mem_places.mpr ⟨node, present⟩, (holds_eq present _).trans own⟩
  have once : (root.run.map Visit.place).count place = 1 := by
    rw [run_places program, (reached_nodup root).count, if_pos member]
  rw [List.count, List.countP_map, List.countP_eq_length_filter] at once
  obtain ⟨made, only⟩ := List.length_eq_one_iff.mp once
  have only : root.visitsOf place = [made] := only
  obtain ⟨among, here⟩ := mem_visitsOf.mp (only ▸ List.mem_singleton_self made)
  have there := (run_sound program among).1
  rw [here, present] at there
  exact ⟨made, only, (Option.some.inj there).symm⟩

theorem run_typed {made : Visit} (program : Shaped .program root) (member : made ∈ root.run) :
    made.ty = root.typeAt made.place := by
  obtain ⟨present, agrees⟩ := run_sound program member
  have own : made.node.visitable = true := by
    have reached := List.mem_map_of_mem (f := Visit.place) member
    rw [run_places program] at reached
    exact (holds_eq present _).symm.trans (List.mem_filter.mp reached).2
  rw [typeAt_eq present, Visit.ty]
  rcases List.eq_nil_or_concat made.place with top | ⟨parent, index, below⟩
  · rw [top] at present ⊢
    cases present
    generalize made.node = node at program
    cases program with
    | program => rfl
    | takes among => cases among
  · rw [List.concat_eq_append] at below
    rw [below] at present agrees ⊢
    obtain ⟨_, shaped⟩ := program.at? present
    have opens : root.kind.opensScope = true := program_opens program
    exact (shaped_simulated opens shaped own parent index made.before present agrees).1

-- The one visit of a place knows what the places before say, and yields the type that is told from the place.
theorem run_known {node : Node} (program : Shaped .program root) (present : root.at? place = some node)
    (own : node.visitable = true) : ∃ made, root.visitsOf place = [made] ∧ made.node = node ∧
      Agrees root place made.before ∧ made.ty = root.typeAt place := by
  obtain ⟨made, only, same⟩ := run_at program present own
  obtain ⟨among, rfl⟩ := mem_visitsOf.mp (only ▸ List.mem_singleton_self made)
  exact ⟨made, only, same, (run_sound program among).2, run_typed program among⟩

end

end FishLang
