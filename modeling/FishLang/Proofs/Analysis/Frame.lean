import FishLang.Proofs.Analysis.Phases

namespace FishLang

open Node

-- All scopes but the innermost are as before, and that one has all the names it had. Where there was no scope there is
-- one at most.
def ScopesKept : List Scope → List Scope → Prop
  | [], after => after.length ≤ 1
  | scope :: outer, after =>
    ∃ inner : Scope, after = inner :: outer ∧ ∀ name, scope.contains name = true → inner.contains name = true

structure Context.Keeps (before after : Context) : Prop where
  enclosing : after.enclosing = before.enclosing
  reports : before.reports <+: after.reports
  functions : ∀ name signature, before.functions.find? name = some signature →
    after.functions.find? name = some signature
  scopes : ScopesKept before.scopes after.scopes

theorem ScopesKept.refl (scopes : List Scope) : ScopesKept scopes scopes := by
  cases scopes with
  | nil => exact Nat.zero_le 1
  | cons scope outer => exact ⟨scope, rfl, fun _ had => had⟩

theorem ScopesKept.length_eq_one {scope : Scope} (kept : ScopesKept [scope] after) : after.length = 1 := by
  obtain ⟨inner, rfl, _⟩ := kept
  rfl

theorem ScopesKept.trans {before between after : List Scope} (one : ScopesKept before between)
    (two : ScopesKept between after) : ScopesKept before after := by
  cases before with
  | nil =>
    match between, one with
    | [], _ => exact two
    | [_], _ => exact Nat.le_of_eq two.length_eq_one
  | cons scope outer =>
    obtain ⟨inner, rfl, had⟩ := one
    obtain ⟨innermost, rfl, has⟩ := two
    exact ⟨innermost, rfl, fun name member => has name (had name member)⟩

theorem Table.contains_insert {κ α : Type} [DecidableEq κ] {table : Table κ α} {key : κ} (had : table.contains key = true)
    (other : κ) (entry : α) : (table.insert other entry).contains key = true := by
  rw [Table.contains, Table.find?_insert]
  split
  · rfl
  · exact had

namespace Context

theorem Keeps.refl (context : Context) : context.Keeps context :=
  ⟨rfl, List.prefix_rfl, fun _ _ known => known, .refl _⟩

theorem Keeps.trans {before between after : Context} (one : before.Keeps between) (two : between.Keeps after) :
    before.Keeps after where
  enclosing := two.enclosing.trans one.enclosing
  reports := one.reports.trans two.reports
  functions name signature known := two.functions name signature (one.functions name signature known)
  scopes := one.scopes.trans two.scopes

theorem keeps_reports (context : Context) (more : List Report) :
    context.Keeps { context with reports := context.reports ++ more } :=
  ⟨rfl, List.prefix_append _ _, fun _ _ known => known, .refl _⟩

theorem keeps_declare (context : Context) (name : String) (ty : Option Ty) (line : Nat) :
    context.Keeps (context.declare name ty line) := by
  obtain ⟨scopes, functions, enclosing, reports⟩ := context
  cases scopes with
  | nil => exact ⟨rfl, List.prefix_rfl, fun _ _ known => known, Nat.le_refl 1⟩
  | cons scope outer =>
    rw [declare_eq _ line rfl]
    exact ⟨rfl, List.prefix_append _ _, fun _ _ known => known, _, rfl, fun _ had => Table.contains_insert had _ _⟩

theorem keeps_declareAll (context : Context) (parameters : List Parameter) :
    context.Keeps (context.declareAll parameters) := by
  induction parameters generalizing context with
  | nil => exact .refl context
  | cons parameter rest ih => exact (context.keeps_declare ..).trans (ih _)

theorem keeps_define (context : Context) (signature : Signature) (line : Nat) :
    context.Keeps (context.define signature line) := by
  unfold define
  split
  · exact context.keeps_reports _
  · next fresh =>
    refine ⟨rfl, List.prefix_rfl, fun name other known => ?_, .refl _⟩
    have apart : signature.name ≠ name := by
      rintro rfl
      exact fresh (by rw [Table.contains, known]; rfl)
    rw [Table.find?_insert_of_ne _ _ apart]
    exact known

theorem keeps_enter (context : Context) {node : Node} (flat : node.kind.opensScope = false) :
    context.Keeps (context.enter node) := by
  unfold enter
  cases kind : node.kind with
  | program | block | fork | functionDef =>
    rw [kind] at flat
    cases flat
  | declaration => exact context.keeps_declare ..
  | emerge =>
    dsimp only
    rw [require_eq]
    exact context.keeps_reports _
  | _ => exact .refl context

theorem keeps_leave (context : Context) {node : Node} (flat : node.kind.opensScope = false) (given : List (Option Ty))
    (after : Context) : after.Keeps (context.leave node given after).2 := by
  unfold leave
  cases kind : node.kind with
  | program | block | fork | functionDef =>
    rw [kind] at flat
    cases flat
  | declaration | assign | emerge | call | binary =>
    simp only [require_eq, checkAssignment_eq, checkResult_eq, checkCall_eq, checkOperands_eq]
    exact after.keeps_reports _
  | var =>
    dsimp only
    split
    · exact .refl after
    · exact after.keeps_reports _
  | _ => exact .refl after

theorem keeps_enter_scope (context : Context) {node : Node} (opens : node.kind.opensScope = true) :
    { context.openScope with
      enclosing := if node.kind = .functionDef then some (.ofNode node) else context.enclosing : Context }.Keeps
      (context.enter node) := by
  unfold enter
  cases kind : node.kind with
  | program | block | fork => exact .refl _
  | functionDef =>
    let inside := { context.define (.ofNode node) node.line with enclosing := some (.ofNode node) : Context }
    have defined := context.keeps_define (.ofNode node) node.line
    have opened : { context.openScope with enclosing := some (.ofNode node) : Context }.Keeps inside.openScope := by
      refine ⟨rfl, defined.reports, defined.functions, ?_⟩
      show ScopesKept (.empty :: context.scopes) (.empty :: (context.define (.ofNode node) node.line).scopes)
      rw [scopes_define]
      exact .refl _
    rw [if_pos rfl]
    exact opened.trans (inside.openScope.keeps_declareAll (Signature.ofNode node).parameters)
  | _ =>
    rw [kind] at opens
    cases opens

-- What is kept within a scope is kept around it once the scope is closed, and then all scopes are as before.
theorem keeps_leave_scope {context after : Context} {node : Node} (opens : node.kind.opensScope = true)
    (kept : { context.openScope with
      enclosing := if node.kind = .functionDef then some (.ofNode node) else context.enclosing : Context }.Keeps after)
    (given : List (Option Ty)) : context.Keeps (context.leave node given after).2 ∧
      (context.leave node given after).2.scopes = context.scopes := by
  obtain ⟨inner, scopes, _⟩ := kept.scopes
  have same : after.closeScope.scopes = context.scopes := by rw [scopes_closeScope, scopes, List.tail_cons]
  have enclosing := kept.enclosing
  unfold leave
  cases kind : node.kind with
  | program | block | fork =>
    rw [kind] at enclosing
    exact ⟨⟨enclosing, kept.reports, kept.functions, same ▸ .refl _⟩, same⟩
  | functionDef => exact ⟨⟨rfl, kept.reports, kept.functions, same ▸ .refl _⟩, same⟩
  | _ =>
    rw [kind] at opens
    cases opens

theorem grows_enter (context : Context) (node : Node) : context.reports <+: (context.enter node).reports := by
  cases opens : node.kind.opensScope with
  | false => exact (context.keeps_enter opens).reports
  | true => exact (context.keeps_enter_scope opens).reports

theorem grows_leave (context : Context) (node : Node) (given : List (Option Ty)) (after : Context) :
    after.reports <+: (context.leave node given after).2.reports := by
  cases opens : node.kind.opensScope with
  | false => exact (context.keeps_leave opens given after).reports
  | true =>
    unfold leave
    cases kind : node.kind with
    | program | block | fork | functionDef => exact List.prefix_rfl
    | _ => simp [kind, Node.Kind.opensScope] at opens

end Context

theorem keeps_visitAll {nodes : List Node} (each : ∀ node ∈ nodes, ∀ context : Context, context.Keeps (visit context node).2)
    (context : Context) : context.Keeps (visitAll context nodes).2 := by
  induction nodes generalizing context with
  | nil => exact .refl context
  | cons node rest ih =>
    have first := each node (by simp) context
    exact first.trans (ih (fun other member => each other (by simp [member])) (visit context node).2)

theorem keeps_visit (node : Node) : ∀ context : Context, context.Keeps (visit context node).2 := by
  induction node using Node.parts_induction with
  | each node ih =>
    intro context
    have inner := keeps_visitAll ih (context.enter node)
    rw [visit_eq]
    cases opens : node.kind.opensScope with
    | false => exact (context.keeps_enter opens).trans (inner.trans (context.keeps_leave opens ..))
    | true => exact (Context.keeps_leave_scope opens ((context.keeps_enter_scope opens).trans inner) _).1

theorem keeps_among (nodes : List Node) (context : Context) : context.Keeps (visitAll context nodes).2 :=
  keeps_visitAll (fun node _ => keeps_visit node) context

theorem grows_visit (node : Node) (context : Context) : context.reports <+: (visit context node).2.reports :=
  (keeps_visit node context).reports

theorem grows_among (nodes : List Node) (context : Context) : context.reports <+: (visitAll context nodes).2.reports :=
  (keeps_among nodes context).reports

-- What is reported in the course of a visit that a visit makes is reported in the course of that visit.
theorem grows_visits (node : Node) : ∀ place context, ∀ made ∈ visits place context node,
    context.reports <+: made.before.reports ∧ made.after.reports <+: (visit context node).2.reports := by
  induction node using Node.parts_induction with
  | each node ih =>
    intro place context made member
    rcases visits_cases member with rfl | ⟨front, part, back, split, inner⟩
    · exact ⟨List.prefix_rfl, List.prefix_rfl⟩
    · have among : part ∈ node.parts := by
        rw [split]
        simp
      obtain ⟨early, late⟩ := ih part among _ _ made inner
      constructor
      · exact (context.grows_enter node).trans ((grows_among front _).trans early)
      · rw [visit_eq, split, visitAll_append, visitAll_cons]
        exact late.trans ((grows_among back _).trans (context.grows_leave ..))

-- A visit keeps what is around it, and with a scope of its own also the scope it is made in.
theorem visit_frame (context : Context) (node : Node) : context.Keeps (visit context node).2 ∧
    (node.kind.opensScope = true → (visit context node).2.scopes = context.scopes) := by
  refine ⟨keeps_visit node context, fun opens => ?_⟩
  have inner := (context.keeps_enter_scope opens).trans (keeps_among node.parts _)
  rw [visit_eq]
  exact (Context.keeps_leave_scope opens inner _).2

end FishLang
