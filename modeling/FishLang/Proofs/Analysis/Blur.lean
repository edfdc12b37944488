import Mathlib.Data.List.Forall2
import Mathlib.Data.Option.Basic
import FishLang.Proofs.Analysis.Frame

namespace FishLang

def Blurs (ty blurred : Option Ty) : Prop := blurred = none ∨ blurred = ty

theorem Blurs.refl (ty : Option Ty) : Blurs ty ty := .inr rfl

theorem Blurs.unknown (ty : Option Ty) : Blurs ty none := .inl rfl

-- The reports with mismatches left out.
inductive Sheds (lines : Nat → Nat → Prop) : (reports left : List Report) → Prop where
  | nil : Sheds lines [] []
  | keep (same : lines line line') (rest : Sheds lines reports left) :
      Sheds lines (⟨finding, line⟩ :: reports) (⟨finding, line'⟩ :: left)
  | shed (mismatch : finding.kind = .typeMismatch) (rest : Sheds lines reports left) :
      Sheds lines (⟨finding, line⟩ :: reports) left

namespace Sheds

variable {lines : Nat → Nat → Prop}

theorem append (front : Sheds lines one other) (back : Sheds lines two last) :
    Sheds lines (one ++ two) (other ++ last) := by
  induction front with
  | nil => exact back
  | keep same _ ih => exact .keep same ih
  | shed mismatch _ ih => exact .shed mismatch ih

theorem single (same : lines line line') (finding : Finding) : Sheds lines [⟨finding, line⟩] [⟨finding, line'⟩] :=
  .keep same .nil

theorem required (same : lines line line') (condition : Bool) (finding : Finding) :
    Sheds lines (reportUnless condition finding line) (reportUnless condition finding line') := by
  cases condition with
  | true => exact .nil
  | false => exact .single same finding

theorem sublist (sheds : Sheds Eq reports left) : left.Sublist reports := by
  induction sheds with
  | nil => exact .refl []
  | keep same _ ih =>
    cases same
    exact ih.cons_cons _
  | shed _ _ ih => exact ih.cons _

theorem others (sheds : Sheds Eq reports left) :
    left.filter (·.finding.kind != .typeMismatch) = reports.filter (·.finding.kind != .typeMismatch) := by
  induction sheds with
  | nil => rfl
  | keep same _ ih =>
    cases same
    rw [List.filter_cons, List.filter_cons, ih]
  | shed mismatch _ ih =>
    rw [ih, List.filter_cons_of_neg]
    simp [mismatch]

theorem diagnostics (sheds : Sheds Eq reports left) :
    (left.map Report.diagnostic).Sublist (reports.map Report.diagnostic) ∧
      (left.map Report.diagnostic).filter (·.kind != .typeMismatch) =
        (reports.map Report.diagnostic).filter (·.kind != .typeMismatch) := by
  refine ⟨sheds.sublist.map _, ?_⟩
  rw [List.filter_map, List.filter_map]
  exact congrArg _ sheds.others

theorem findings (sheds : Sheds lines reports left) :
    (left.map Report.finding).Sublist (reports.map Report.finding) := by
  induction sheds with
  | nil => exact .refl []
  | keep _ _ ih => exact ih.cons_cons _
  | shed _ _ ih => exact ih.cons _

end Sheds

def Table.Related [DecidableEq κ] (related : α → β → Prop) (table : Table κ α) (other : Table κ β) : Prop :=
  ∀ key, Option.Rel related (table.find? key) (other.find? key)

theorem related_isSome (options : Option.Rel related one other) : other.isSome = one.isSome := by
  cases options <;> rfl

namespace Table

variable {κ α β : Type} [DecidableEq κ] {related : α → β → Prop} {table : Table κ α} {other : Table κ β}

theorem related_empty : Related related (empty : Table κ α) (empty : Table κ β) := fun _ => .none

theorem Related.insert (tables : Related related table other) (key : κ) (entries : related entry entry') :
    Related related (table.insert key entry) (other.insert key entry') := by
  intro name
  rw [find?_insert, find?_insert]
  split
  · exact .some entries
  · exact tables name

theorem Related.contains (tables : Related related table other) (key : κ) : other.contains key = table.contains key := by
  unfold Table.contains
  exact related_isSome (tables key)

theorem Related.refl (same : ∀ entry, shared entry entry) (table : Table κ α) : Related shared table table := by
  intro key
  cases table.find? key with
  | none => exact .none
  | some entry => exact .some (same entry)

end Table

section
variable (lines : Nat → Nat → Prop)

structure Parameter.Blurs (parameter blurred : Parameter) : Prop where
  name : blurred.name = parameter.name
  ty : FishLang.Blurs parameter.ty blurred.ty
  line : lines parameter.line blurred.line

structure Signature.Blurs (signature blurred : Signature) : Prop where
  name : blurred.name = signature.name
  result : FishLang.Blurs signature.result blurred.result
  parameters : List.Forall₂ (Parameter.Blurs lines) signature.parameters blurred.parameters

-- All is known that was known, apart from types.
structure Context.Blurs (context blurred : Context) : Prop where
  scopes : List.Forall₂ (Table.Related FishLang.Blurs) context.scopes blurred.scopes
  functions : Table.Related (Signature.Blurs lines) context.functions blurred.functions
  enclosing : Option.Rel (Signature.Blurs lines) context.enclosing blurred.enclosing

-- From the two bases on, what is reported is the same but for mismatches left out.
structure Trails (base base' : List Report) (context blurred : Context) : Prop where
  blurs : context.Blurs lines blurred
  reports : ∃ later later', context.reports = base ++ later ∧ blurred.reports = base' ++ later' ∧
    Sheds lines later later'

end

theorem Signature.Blurs.refl {lines : Nat → Nat → Prop} (same : ∀ line, lines line line) (signature : Signature) :
    signature.Blurs lines signature :=
  ⟨rfl, .refl _, List.forall₂_same.mpr fun _ _ => ⟨rfl, .refl _, same _⟩⟩

theorem Context.Blurs.refl {lines : Nat → Nat → Prop} (same : ∀ line, lines line line) (context : Context) :
    context.Blurs lines context := by
  refine ⟨List.forall₂_same.mpr fun scope _ => .refl FishLang.Blurs.refl scope, .refl (Signature.Blurs.refl same) _, ?_⟩
  cases context.enclosing with
  | none => exact .none
  | some signature => exact .some (.refl same signature)

theorem Context.Blurs.lookup {lines : Nat → Nat → Prop} {context blurred : Context}
    (blurs : context.Blurs lines blurred) (name : String) :
    Option.Rel FishLang.Blurs (context.lookup name) (blurred.lookup name) := by
  obtain ⟨scopes, _, _⟩ := blurs
  unfold Context.lookup
  generalize context.scopes = tables at scopes ⊢
  generalize blurred.scopes = others at scopes ⊢
  induction scopes with
  | nil => exact .none
  | @cons table other _ _ first _ ih =>
    rw [List.findSome?_cons, List.findSome?_cons]
    have entries := first name
    generalize table.find? name = entry at entries ⊢
    generalize other.find? name = entry' at entries ⊢
    cases entries with
    | none => exact ih
    | some types => exact .some types

namespace Trails

variable {lines : Nat → Nat → Prop} {base base' : List Report} {context blurred : Context}

theorem start (blurs : context.Blurs lines blurred) :
    Trails lines context.reports blurred.reports context blurred :=
  ⟨blurs, [], [], by simp, by simp, .nil⟩

theorem add (trails : Trails lines base base' context blurred) (own : Sheds lines found left) :
    Trails lines base base' { context with reports := context.reports ++ found }
      { blurred with reports := blurred.reports ++ left } := by
  obtain ⟨⟨scopes, functions, enclosing⟩, later, later', one, two, sheds⟩ := trails
  refine ⟨⟨scopes, functions, enclosing⟩, later ++ found, later' ++ left, ?_, ?_, sheds.append own⟩
  · rw [one, List.append_assoc]
  · rw [two, List.append_assoc]

theorem require (trails : Trails lines base base' context blurred) (same : lines line line') (condition : Bool)
    (finding : Finding) :
    Trails lines base base' (context.require condition finding line) (blurred.require condition finding line') := by
  rw [Context.require_eq, Context.require_eq]
  exact trails.add (.required same condition finding)

theorem openScope (trails : Trails lines base base' context blurred) :
    Trails lines base base' context.openScope blurred.openScope :=
  ⟨⟨.cons Table.related_empty trails.blurs.scopes, trails.blurs.functions, trails.blurs.enclosing⟩, trails.reports⟩

theorem closeScope (trails : Trails lines base base' context blurred) :
    Trails lines base base' context.closeScope blurred.closeScope := by
  refine ⟨⟨?_, trails.blurs.functions, trails.blurs.enclosing⟩, trails.reports⟩
  rw [Context.scopes_closeScope, Context.scopes_closeScope]
  have scopes := trails.blurs.scopes
  generalize context.scopes = tables at scopes ⊢
  generalize blurred.scopes = others at scopes ⊢
  cases scopes with
  | nil => exact .nil
  | cons _ outer => exact outer

theorem declare (trails : Trails lines base base' context blurred) (name : String) (types : Blurs ty ty')
    (same : lines line line') :
    Trails lines base base' (context.declare name ty line) (blurred.declare name ty' line') := by
  have scopes := trails.blurs.scopes
  cases one : context.scopes with
  | nil =>
    rw [one, List.forall₂_nil_left_iff] at scopes
    simp only [Context.declare, one, scopes]
    exact ⟨⟨.cons (Table.related_empty.insert name types) .nil, trails.blurs.functions, trails.blurs.enclosing⟩,
      trails.reports⟩
  | cons scope outer =>
    rw [one, List.forall₂_cons_left_iff] at scopes
    obtain ⟨scope', outer', inner, rest, two⟩ := scopes
    rw [Context.declare_eq context line one, Context.declare_eq blurred line' two, inner.contains]
    have reported := trails.add (.required same (!scope.contains name) (.redeclaration name))
    exact ⟨⟨.cons (inner.insert name types) rest, reported.blurs.functions, reported.blurs.enclosing⟩, reported.reports⟩

theorem declareAll (trails : Trails lines base base' context blurred)
    (parameters : List.Forall₂ (Parameter.Blurs lines) expected blurry) :
    Trails lines base base' (context.declareAll expected) (blurred.declareAll blurry) := by
  induction parameters generalizing context blurred with
  | nil => exact trails
  | @cons parameter other _ _ first _ ih =>
    have bound := trails.declare parameter.name first.ty first.line
    show Trails lines base base' _ ((blurred.declare other.name other.ty other.line).declareAll _)
    rw [first.name]
    exact ih bound

theorem define (trails : Trails lines base base' context blurred) (signatures : Signature.Blurs lines signature blurry)
    (same : lines line line') :
    Trails lines base base' (context.define signature line) (blurred.define blurry line') := by
  unfold Context.define
  rw [signatures.name, trails.blurs.functions.contains]
  split
  · exact trails.add (.single same _)
  · exact ⟨⟨trails.blurs.scopes, trails.blurs.functions.insert _ signatures, trails.blurs.enclosing⟩, trails.reports⟩

theorem within (trails : Trails lines base base' context blurred)
    (signatures : Option.Rel (Signature.Blurs lines) signature blurry) :
    Trails lines base base' { context with enclosing := signature } { blurred with enclosing := blurry } :=
  ⟨⟨trails.blurs.scopes, trails.blurs.functions, signatures⟩, trails.reports⟩

end Trails

section
variable {lines : Nat → Nat → Prop}

theorem sheds_check (same : lines line line') (check : Option Ty → Option Ty → Finding)
    (mismatch : ∀ expected given, (check expected given).kind = .typeMismatch) (one : Blurs expected expected')
    (two : Blurs given given') :
    Sheds lines (reportUnless (compatible expected given) (check expected given) line)
      (reportUnless (compatible expected' given') (check expected' given') line') := by
  have gone : Sheds lines (reportUnless (compatible expected given) (check expected given) line) [] := by
    cases compatible expected given with
    | true => exact .nil
    | false => exact .shed (mismatch _ _) .nil
  rcases one with rfl | rfl
  · exact gone
  · rcases two with rfl | rfl
    · rw [compatible_unknown]
      exact gone
    · exact .required same _ _

theorem sheds_arguments (same : lines line line') (name : String) (position : Nat)
    (one : List.Forall₂ Blurs expected expected') (two : List.Forall₂ Blurs given given') :
    Sheds lines (Context.argumentReports name line position expected given)
      (Context.argumentReports name line' position expected' given') := by
  induction one generalizing position given given' with
  | nil => exact .nil
  | cons first _ ih =>
    cases two with
    | nil => exact .nil
    | cons second rest =>
      exact (sheds_check same (.argument name position) (fun _ _ => rfl) first second).append (ih (position + 1) rest)

theorem sheds_call (same : lines line line') (name : String)
    (functions : Option.Rel (Signature.Blurs lines) function function') (two : List.Forall₂ Blurs given given') :
    Sheds lines (Context.callReports name line function given) (Context.callReports name line' function' given') := by
  cases functions with
  | none => exact .single same _
  | @some signature blurred signatures =>
    have types : List.Forall₂ Blurs (signature.parameters.map Parameter.ty) (blurred.parameters.map Parameter.ty) := by
      rw [List.forall₂_map_left_iff, List.forall₂_map_right_iff]
      exact signatures.parameters.imp fun _ _ parameters => parameters.ty
    simp only [Context.callReports, ← types.length_eq, ← two.length_eq]
    split
    · exact sheds_arguments same name 1 types two
    · exact .single same _

theorem sheds_assignment (same : lines line line') (name : String) (targets : Option.Rel Blurs target target')
    (two : Blurs given given') :
    Sheds lines (Context.assignmentReports name line target given)
      (Context.assignmentReports name line' target' given') := by
  cases targets with
  | none => exact .single same _
  | some types => exact sheds_check same (.assignment name) (fun _ _ => rfl) types two

theorem sheds_result (same : lines line line') (functions : Option.Rel (Signature.Blurs lines) function function')
    (two : Blurs given given') :
    Sheds lines (Context.resultReports line function given) (Context.resultReports line' function' given') := by
  cases functions with
  | none => exact .nil
  | @some signature blurred signatures =>
    simp only [Context.resultReports, signatures.name]
    exact sheds_check same (.result signature.name) (fun _ _ => rfl) signatures.result two

theorem sheds_operands (same : lines line line') (symbol : String) (one : Blurs left left') (two : Blurs right right') :
    Sheds lines (Context.operandReports symbol line left right) (Context.operandReports symbol line' left' right') := by
  have gone : Sheds lines (Context.operandReports symbol line left right) [] := by
    unfold Context.operandReports
    split
    · next left right =>
      cases left == right with
      | true => exact .nil
      | false => exact .shed rfl .nil
    · exact .nil
  rcases one with rfl | rfl
  · exact gone
  · rcases two with rfl | rfl
    · cases left' <;> exact gone
    · cases left' <;> cases right' <;> first | exact .nil | exact .required same _ _

theorem blurs_operation (symbol : String) (one : Blurs left left') (two : Blurs right right') :
    Blurs (operationTy? symbol left right) (operationTy? symbol left' right') := by
  rcases one with rfl | rfl
  · exact .inl rfl
  · rcases two with rfl | rfl
    · cases left' <;> exact .inl rfl
    · exact .refl _

end

section
variable (lines : Nat → Nat → Prop)

structure Node.HeadBlurs (node blurred : Node) : Prop where
  kind : blurred.kind = node.kind
  line : lines node.line blurred.line
  text : node.kind ≠ .typeName → blurred.text = node.text
  declared : node.kind = .declaration → Blurs node.declaredTy? blurred.declaredTy?
  signed : node.kind = .functionDef → (Signature.ofNode node).Blurs lines (Signature.ofNode blurred)

end

section
variable {lines : Nat → Nat → Prop} {base base' : List Report} {context blurred : Context} {node node' : Node}

theorem Trails.enter (trails : Trails lines base base' context blurred) (head : node.HeadBlurs lines node') :
    Trails lines base base' (context.enter node) (blurred.enter node') := by
  obtain ⟨kind, line, text, declared, signed⟩ := head
  unfold Context.enter
  rw [kind]
  cases of : node.kind with
  | program | block | fork => exact trails.openScope
  | functionDef =>
    have signatures := signed of
    exact (((trails.define signatures line).within (.some signatures)).openScope).declareAll signatures.parameters
  | declaration =>
    rw [text (by simp [of])]
    exact trails.declare _ (declared of) line
  | emerge =>
    have known : blurred.enclosing.isSome = context.enclosing.isSome := related_isSome trails.blurs.enclosing
    simp only [known]
    exact trails.require line _ _
  | _ => exact trails

theorem blurs_headD (given : List.Forall₂ Blurs types types') : Blurs (types.headD none) (types'.headD none) := by
  cases given with
  | nil => exact .refl none
  | cons first _ => exact first

theorem blurs_second (given : List.Forall₂ Blurs types types') : Blurs (types.getD 1 none) (types'.getD 1 none) := by
  cases given with
  | nil => exact .refl none
  | cons _ rest =>
    cases rest with
    | nil => exact .refl none
    | cons second _ => exact second

theorem related_result (functions : Option.Rel (Signature.Blurs lines) function function') :
    Blurs (function.bind Signature.result) (function'.bind Signature.result) := by
  cases functions with
  | none => exact .refl none
  | some signatures => exact signatures.result

theorem Trails.leave {after after' : Context} (trails : Trails lines base base' after after')
    (before : context.Blurs lines blurred) (head : node.HeadBlurs lines node')
    (given : List.Forall₂ Blurs types types') :
    Blurs (context.leave node types after).1 (blurred.leave node' types' after').1 ∧
      Trails lines base base' (context.leave node types after).2 (blurred.leave node' types' after').2 := by
  obtain ⟨kind, line, text, declared, _⟩ := head
  have first := blurs_headD given
  have targets := before.lookup node.text
  unfold Context.leave
  rw [kind]
  cases of : node.kind with
  | program | block | fork => exact ⟨.refl none, trails.closeScope⟩
  | functionDef => exact ⟨.refl none, trails.closeScope.within before.enclosing⟩
  | declaration =>
    simp only [text (by simp [of]), Context.require_eq]
    exact ⟨.refl none, trails.add (sheds_check line (.initializer node.text) (fun _ _ => rfl) (declared of) first)⟩
  | assign =>
    simp only [text (by simp [of]), Context.checkAssignment_eq]
    exact ⟨.refl none, trails.add (sheds_assignment line node.text targets first)⟩
  | emerge =>
    simp only [Context.checkResult_eq]
    exact ⟨.refl none, trails.add (sheds_result line before.enclosing first)⟩
  | call =>
    simp only [text (by simp [of]), Context.checkCall_eq]
    have functions := trails.blurs.functions node.text
    exact ⟨related_result functions, trails.add (sheds_call line node.text functions given)⟩
  | binary =>
    simp only [text (by simp [of]), Context.checkOperands_eq]
    have second := blurs_second given
    exact ⟨blurs_operation node.text first second, trails.add (sheds_operands line node.text first second)⟩
  | unary | suffix => exact ⟨first, trails⟩
  | var =>
    simp only [text (by simp [of])]
    generalize context.lookup node.text = target at targets ⊢
    generalize blurred.lookup node.text = target' at targets ⊢
    cases targets with
    | none => exact ⟨.refl none, trails.add (.single line _)⟩
    | some types => exact ⟨types, trails⟩
  | num =>
    simp only [text (by simp [of])]
    exact ⟨.refl _, trails⟩
  | _ => exact ⟨.refl _, trails⟩

def Together (lines : Nat → Nat → Prop) (node node' : Node) : Prop :=
  ∀ base base' context blurred, Trails lines base base' context blurred →
    Blurs (visit context node).1 (visit blurred node').1 ∧
      Trails lines base base' (visit context node).2 (visit blurred node').2

theorem visitAll_together (each : List.Forall₂ (Together lines) nodes nodes')
    (trails : Trails lines base base' context blurred) :
    List.Forall₂ Blurs (visitAll context nodes).1 (visitAll blurred nodes').1 ∧
      Trails lines base base' (visitAll context nodes).2 (visitAll blurred nodes').2 := by
  induction each generalizing context blurred with
  | nil => exact ⟨.nil, trails⟩
  | cons first _ ih =>
    obtain ⟨types, next⟩ := first _ _ _ _ trails
    obtain ⟨others, last⟩ := ih next
    exact ⟨.cons types others, last⟩

-- It is enough that they do for the parts.
theorem visit_together (head : node.HeadBlurs lines node')
    (parts : List.Forall₂ (Together lines) node.parts node'.parts) : Together lines node node' := by
  intro base base' context blurred trails
  obtain ⟨types, below⟩ := visitAll_together parts (trails.enter head)
  rw [visit_eq, visit_eq]
  exact below.leave trails.blurs head types

theorem Together.sheds (together : Together lines node node') : Sheds lines node.reports node'.reports := by
  have empty : Context.empty.Blurs lines .empty := ⟨.nil, Table.related_empty, .none⟩
  obtain ⟨_, _, later, later', one, two, sheds⟩ := together _ _ _ _ (.start empty)
  rw [Node.reports, Node.reports, one, two]
  exact sheds

theorem Node.HeadBlurs.refl (same : ∀ line, lines line line) (node : Node) : node.HeadBlurs lines node :=
  ⟨rfl, same _, fun _ => rfl, fun _ => .refl _, fun _ => .refl same _⟩

theorem together_refl (same : ∀ line, lines line line) (node : Node) : Together lines node node := by
  induction node using Node.parts_induction with
  | each node ih => exact visit_together (.refl same node) (List.forall₂_same.mpr ih)

end

-- A node on a related line, which may name no type any more.
structure Node.Faded (lines : Nat → Nat → Prop) (node faded : Node) : Prop where
  kind : faded.kind = node.kind
  line : lines node.line faded.line
  text : node.kind ≠ .typeName → faded.text = node.text
  ty : Blurs node.ty? faded.ty?

-- Related trees have the same nodes at the same places, some of them faded.
structure Fades (lines : Nat → Nat → Prop) (related : Node → Node → Prop) : Prop where
  node : ∀ node faded, related node faded → node.Faded lines faded
  children : ∀ node faded, related node faded → List.Forall₂ related node.children faded.children

namespace Fades

open Grammar

variable {lines : Nat → Nat → Prop} {related : Node → Node → Prop} {node faded : Node}

theorem child? (fades : Fades lines related) (pair : related node faded) (index : Nat) :
    Option.Rel related (node.child? index) (faded.child? index) := by
  have children := fades.children node faded pair
  unfold Node.child?
  generalize node.children = nodes at children ⊢
  generalize faded.children = nodes' at children ⊢
  induction children generalizing index with
  | nil => exact .none
  | cons first _ ih =>
    cases index with
    | zero => exact .some first
    | succ index => exact ih index

theorem childTy? (fades : Fades lines related) (pair : related node faded) (index : Nat) :
    Blurs ((node.child? index).bind Node.ty?) ((faded.child? index).bind Node.ty?) := by
  have below := fades.child? pair index
  generalize node.child? index = child at below ⊢
  generalize faded.child? index = child' at below ⊢
  cases below with
  | none => exact .refl none
  | some inner => exact (fades.node _ _ inner).ty

theorem grandchildren (fades : Fades lines related) (pair : related node faded) (index : Nat) :
    List.Forall₂ related ((node.child? index).elim [] Node.children) ((faded.child? index).elim [] Node.children) := by
  have below := fades.child? pair index
  generalize node.child? index = child at below ⊢
  generalize faded.child? index = child' at below ⊢
  cases below with
  | none => exact .nil
  | some inner => exact fades.children _ _ inner

theorem parts (fades : Fades lines related) (pair : related node faded) :
    List.Forall₂ related node.parts faded.parts := by
  have children := fades.children node faded pair
  unfold Node.parts
  rw [(fades.node node faded pair).kind]
  cases node.kind with
  | functionDef => exact List.forall₂_take _ (List.forall₂_drop _ children)
  | declaration => exact List.forall₂_take _ (fades.grandchildren pair 1)
  | call => exact fades.grandchildren pair 0
  | assign | emerge | unary | suffix | binary => exact List.forall₂_take _ children
  | var | num | string | char => exact .nil
  | _ => exact children

theorem parameter (fades : Fades lines related) (pair : related node faded) (shaped : Shaped .param node) :
    (Parameter.ofNode node).Blurs lines (.ofNode faded) := by
  obtain ⟨_, _, _, rfl, _⟩ := shaped.param_eq
  have head := fades.node _ faded pair
  exact ⟨head.text (by simp), fades.childTy? pair 0, head.line⟩

theorem head (fades : Fades lines related) (pair : related node faded) (shaped : Shaped role node) :
    node.HeadBlurs lines faded := by
  have head := fades.node node faded pair
  refine ⟨head.kind, head.line, head.text, fun _ => fades.childTy? pair 0, fun function => ?_⟩
  refine ⟨head.text (by simp [function]), fades.childTy? pair 1, ?_⟩
  have params : ∀ param ∈ (node.child? 0).elim [] Node.children, Shaped .param param := by
    obtain ⟨_, _, _, _, _, _, rfl, each, _⟩ := shaped.of_functionDef function
    exact each
  show List.Forall₂ _ (((node.child? 0).elim [] Node.children).map _) (((faded.child? 0).elim [] Node.children).map _)
  rw [List.forall₂_map_left_iff, List.forall₂_map_right_iff]
  exact ((List.forall₂_and_left _ _).mpr ⟨params, fades.grandchildren pair 0⟩).imp fun _ _ both =>
    fades.parameter both.2 both.1

theorem together (fades : Fades lines related) (pair : related node faded) (shaped : Shaped role node) :
    Together lines node faded := by
  induction node using Node.parts_induction generalizing role faded with
  | each node ih =>
    refine visit_together (fades.head pair shaped) (List.forall₂_iff_zip.mpr ?_)
    obtain ⟨same, each⟩ := List.forall₂_iff_zip.mp (fades.parts pair)
    refine ⟨same, fun {part other} member => ?_⟩
    have among := (List.of_mem_zip member).1
    obtain ⟨_, inner⟩ := shaped.part part among
    exact ih part among (each member) inner

end Fades

end FishLang
