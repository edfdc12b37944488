import FishLang.Parse.Statement
import FishLang.Proofs.Parse.Expression

namespace FishLang.Parse

open Grammar

variable {limit : Nat} {starts follow : Kind → Prop} {block : Parse Node}

theorem typeName_refines : Refines limit starts anything typeName .typeName node := by
  refine Refines.anywhere (.phrase (.peek fun kind _ => ?_) id)
  split
  · next ty _ =>
    refine (literal_refines (by intro _ rfl; exact List.mem_map_of_mem (Ty.mem_all ty)) (by decide) _).view ?_
    intro _ _ laid
    obtain ⟨token, rfl, same, rfl⟩ := laid
    have only : typeOf token = [.ofTy ty token.line] := by simp [typeOf, same]
    exact congrArg (fun nodes => [Part.nodes nodes]) only
  · next other =>
    refine .fail ?_ rfl
    intro found rfl
    refine Form.not_leads (fun inside => ?_) rfl
    obtain ⟨ty, _, same⟩ := List.mem_map.mp inside
    exact other ty same.symm

def declaredAs (ty : Node) (name : Token) (parts : List Part) (value : Node) : Prop :=
  ∃ initializer, parts = [.nodes initializer] ∧ value = declared ty name initializer

def declarationTailForms : List Form := [.seq [.assign, .expression, .delimiter], .delimiter]

theorem declarationTail_refines (ty : Node) (name : Token) : Refines limit anything anything
    (do
      match ← Parse.peek with
      | .assign =>
        let _ ← Parse.next
        let value ← expression
        let _ ← expect .delimiter .declaration
        Pure.pure ⟨.declaration, some name.lexeme, [ty, initializer value], ty.line⟩
      | .delimiter =>
        let _ ← Parse.next
        Pure.pure ⟨.declaration, some name.lexeme, [ty], ty.line⟩
      | _ => Parse.fail .inDeclaration)
    (.phrase .declarationTail) (declaredAs ty name) := by
  suffices Refines limit anything anything _ (.any declarationTailForms)
    (fun parts value => declaredAs ty name [.nodes (build .declarationTail parts)] value) from .phrase this id
  refine .peek fun kind _ => ?_
  split
  · have sign : Refines limit (· = .assign) anything Parse.next .assign _ := next_refines (by simp) (by decide)
    refine ((sign.andThen (fun _ => .bind expression_refines (fun value => .andThen (expect_refines (by decide))
      (fun _ => .pure _) rfl) (fun _ => Nat.le_add_left ..) (Form.leads_token (by decide)) rfl) rfl).pick
      (by decide) (by decide) (.inl (by decide))).view ?_
    intro _ _ laid
    obtain ⟨_, sign, _, rfl, ⟨rfl, _⟩, _, value, _, rfl, rfl, _, closing, _, rfl, rfl, rfl, rfl⟩ := laid
    exact ⟨_, rfl, rfl⟩
  · have closing : Refines limit (· = .delimiter) anything _ .delimiter _ :=
      literal_refines (by simp) (by decide) fun _ => ⟨.declaration, some name.lexeme, [ty], ty.line⟩
    refine (closing.pick (by decide) (by decide) (.inl (by decide))).view ?_
    intro _ _ laid
    obtain ⟨closing, rfl, _, rfl⟩ := laid
    exact ⟨_, rfl, rfl⟩
  · next assign delimiter =>
    refine .fail ?_ rfl
    intro found rfl
    refine Form.not_leads ?_ rfl
    simpa [declarationTailForms, Form.any, Form.seq, Form.first, Form.assign, Form.delimiter, Form.nullable] using
      ⟨assign, delimiter⟩

theorem declaration_refines : Refines limit starts anything declaration (.phrase .declaration) node := by
  refine Refines.anywhere (.phrase (.andThen typeName_refines (fun ty => .andThen (expect_refines (by decide))
    (fun name => (declarationTail_refines ty name).last) rfl) rfl) ?_)
  intro _ _ laid
  obtain ⟨_, ty, _, rfl, rfl, _, name, _, rfl, rfl, _, rfl, rfl⟩ := laid
  rfl

-- One parameter, which the reader of parameters does not read by itself.
def parameter : Parse Node := do
  let ty ← typeName
  let name ← expect .identifier .parameter
  pure ⟨.param, some name.lexeme, [ty], ty.line⟩

theorem parameterList_cons (token : Token) (bound tokens : List Token) :
    parameterList (token :: bound) tokens = (do
      let first ← parameter
      match ← Parse.peek with
      | .mark .comma =>
        let _ ← Parse.next
        let rest ← parameterList bound
        Pure.pure (first :: rest)
      | .mark .rightParen => Pure.pure [first]
      | _ => Parse.fail .afterParameter : Parse (List Node)) tokens := by
  rw [parameter, bind_assoc]
  simp only [bind_assoc, pure_bind]
  rfl

theorem parameter_refines : Refines limit starts anything parameter (.phrase .param) node := by
  refine Refines.anywhere (.phrase (.andThen typeName_refines (fun ty => .andThen (expect_refines (by decide))
    (fun name => .pure _) rfl) rfl) ?_)
  intro _ _ laid
  obtain ⟨_, ty, _, rfl, rfl, _, name, _, rfl, rfl, rfl, rfl⟩ := laid
  rfl

theorem appended_nodes {values : List Node} : appended values parts result →
    appended values [.nodes (parts.flatMap Part.nodeList)] result := by
  intro rfl
  simp [appended, Part.nodeList]

theorem parameterList_refines (bound : List Token) :
    Refines bound.length anything (· = .mark .rightParen) (parameterList bound)
      (.seq [.phrase .param, .phrase .moreParams]) (appended []) := by
  induction bound with
  | nil =>
    refine .of_end (.fail ?_ rfl)
    intro _ rfl
    exact Form.not_leads (by decide) rfl
  | cons token bound ih =>
    have more (first : Node) : Refines (bound.length + 1) anything (· = .mark .rightParen)
        (do
          match ← Parse.peek with
          | .mark .comma =>
            let _ ← Parse.next
            let rest ← parameterList bound
            Pure.pure (first :: rest)
          | .mark .rightParen => Pure.pure [first]
          | _ => Parse.fail .afterParameter : Parse (List Node)) (rule .moreParams) (appended [first]) := by
      refine .peek fun kind _ => ?_
      split
      · have comma : Refines (bound.length + 1) (· = .mark .comma) anything Parse.next (.mark .comma) _ :=
          next_refines (by simp) (by decide)
        have row := comma.tokenThen (fun _ => ih.bind (fun rest => .pure (first :: rest))
          (fun _ => Nat.le_add_left ..) Form.leads_done rfl) rfl
        refine .left (row.reform (reads_and_mono id fun rest => reads_and_done.mp rest)
          (fun _ _ => reads_and_mono id fun rest => reads_and_done.mpr rest) ?_) ?_
        · intro _ _ laid
          obtain ⟨_, comma, _, rfl, ⟨rfl, _⟩, _, rest, _, rfl, rfl, rfl, rfl⟩ := laid
          simp [appended, Part.nodeList]
        · intro _ rfl either
          obtain starting | ⟨_, ⟨⟩⟩ := either
          cases starting
      · refine ((Refines.pure [first]).right ?_).view ?_
        · intro _ rfl
          exact Form.not_leads (by decide) rfl
        · intro _ _ laid
          obtain ⟨rfl, rfl⟩ := laid
          rfl
      · next comma closing =>
        refine .fail ?_ rfl
        intro _ rfl either
        obtain starting | ⟨_, rfl⟩ := either
        · exact comma (by simpa [rule, Form.optional, Form.seq, Form.first, Form.mark, Form.nullable] using starting)
        · exact closing rfl
    refine .congr ((Refines.bind parameter_refines (fun first => .last (.phrase (more first) appended_nodes))
      (fun _ => Nat.le_add_left ..) (fun _ _ => trivial) rfl).view ?_)
      (fun tokens _ _ => parameterList_cons token bound tokens)
    intro _ _ laid
    obtain ⟨_, first, others, rfl, rfl, rfl⟩ := laid
    simp [appended, Part.nodeList]

def parametersOf (line : Nat) (parts : List Part) (value : Node) : Prop :=
  ∃ params, parts = [.nodes params] ∧ value = .group .params params line

theorem parameters_refines (line : Nat) :
    Refines limit anything (· = .mark .rightParen) (parameters line) (.phrase .params) (parametersOf line) := by
  suffices Refines limit anything (· = .mark .rightParen) (parameters line) (rule .params)
      (fun parts value => parametersOf line [.nodes (parts.flatMap Part.nodeList)] value) from .phrase this id
  refine .peek fun kind _ => ?_
  split
  · refine ((Refines.pure _).right ?_).view ?_
    · intro _ rfl
      exact Form.not_leads (by decide) rfl
    · intro _ _ laid
      obtain ⟨rfl, rfl⟩ := laid
      exact ⟨_, rfl, rfl⟩
  · next ty _ =>
    have list : Refines limit (· = Kind.type ty) (· = .mark .rightParen) (Parse.bounded parameterList)
        (.seq [.phrase .param, .phrase .moreParams]) (appended []) :=
      (Refines.bounded fun bound _ => parameterList_refines bound).weaken (Nat.le_refl _) (fun _ _ => trivial)
        (fun _ follows => follows)
    refine ((list.map _).left ?_).view ?_
    · intro _ rfl either
      obtain starting | ⟨_, ⟨⟩⟩ := either
      cases starting
    · intro parts _ laid
      obtain ⟨list, rfl, rfl⟩ := laid
      exact ⟨_, rfl, rfl⟩
  · next closing other =>
    refine .fail ?_ rfl
    intro found rfl either
    obtain starting | ⟨_, follows⟩ := either
    · have inside : found ∈ typeKinds := by
        simpa [rule, Form.optional, Form.seq, Form.first, Form.nullable, Symbol.nullable, Symbol.first] using starting
      obtain ⟨ty, _, same⟩ := List.mem_map.mp inside
      exact other ty same.symm
    · exact closing follows

theorem functionDef_refines (read : Refines limit anything anything block .block node) :
    Refines limit starts anything (functionDef block) (.phrase .functionDef) node := by
  refine Refines.anywhere (.phrase (.andThen (expect_refines (by decide)) (fun keyword =>
    .andThen (expect_refines (by decide)) (fun name => .andThen (expect_refines (by decide)) (fun opening =>
    .bind (parameters_refines _) (fun params => .andThen (expect_refines (by decide)) (fun closing =>
    .andThen typeName_refines (fun ty => .andThen read (fun body => .pure _) rfl) rfl) rfl)
    (fun _ => Nat.le_add_left ..) (Form.leads_token (by decide)) rfl) rfl) rfl) rfl) ?_)
  intro _ _ laid
  obtain ⟨_, keyword, _, rfl, rfl, _, name, _, rfl, rfl, _, opening, _, rfl, rfl, _, list, _, rfl, ⟨params,
    rfl, rfl⟩, _, closing, _, rfl, rfl, _, ty, _, rfl, rfl, _, body, _, rfl, rfl, rfl, rfl⟩ := laid
  rfl

theorem optionalBlock_refines {word : Word} {violation : Violation} (apart : followsItem (.word word) = false)
    (read : Refines limit anything anything block .block node) :
    Refines limit anything (followsItem · = true) (optionalBlock word violation block)
      (.optional (.seq [.word word, .block])) (appended []) := by
  refine .peek fun kind _ => ?_
  split
  · next same =>
    have keyword : Refines limit (· = kind) anything Parse.next (.word word) _ :=
      next_refines (by simp [same]) (by simp)
    refine ((keyword.andThen (fun _ => .andThen read (fun last => .pure [last]) rfl) rfl).left ?_).view ?_
    · intro _ rfl either
      obtain starting | ⟨_, follows⟩ := either
      · cases starting
      · rw [same, apart] at follows
        cases follows
    · intro _ _ laid
      obtain ⟨_, keyword, _, rfl, ⟨rfl, _⟩, _, last, _, rfl, rfl, rfl, rfl⟩ := laid
      rfl
  · next other =>
    have absent : kind ∉ (Form.seq [.word word, .block]).first := by
      simpa [Form.seq, Form.word, Form.first, Form.nullable] using other
    split
    · refine ((Refines.pure []).right ?_).view ?_
      · intro _ rfl
        exact Form.not_leads absent rfl
      · intro _ _ laid
        obtain ⟨rfl, rfl⟩ := laid
        rfl
    · next barred =>
      refine .fail ?_ (by simp [Form.inhabited, Form.optional, Form.inhabitedGiven])
      intro _ rfl either
      obtain starting | ⟨_, follows⟩ := either
      · exact absent (by simpa [Form.optional, Form.first] using starting)
      · exact barred follows

theorem condition_refines {phrase : Phrase} :
    Refines limit starts anything (parenthesized expression phrase) .parenthesized enclosed :=
  ((parenthesized_refines expression_refines).weaken (Nat.le_succ _) (fun _ _ => trivial)
    (fun _ _ => trivial)).anywhere

theorem when_refines (read : Refines limit anything anything block .block node) :
    Refines limit starts (followsItem · = true) (when block) (.phrase .when) node := by
  have other : Refines limit anything (followsItem · = true) (optionalBlock .otherwise .afterWhen block)
      (.phrase .otherwise) nodes :=
    .phrase (optionalBlock_refines (by decide) read) (by intro _ _ rfl; rfl)
  refine .phrase (.andThen (expect_refines (by decide)) (fun keyword => .andThen condition_refines
    (fun condition => .andThen read (fun body => (other.map _).last) rfl) rfl) rfl) ?_
  intro _ _ laid
  obtain ⟨_, keyword, _, rfl, rfl, _, condition, _, rfl, ⟨opening, closing, rfl⟩, _, body, _, rfl, rfl, last,
    rfl, rfl⟩ := laid
  rfl

theorem whale_refines (read : Refines limit anything anything block .block node) :
    Refines limit starts anything (whale block) (.phrase .whale) node := by
  refine Refines.anywhere (.phrase (.andThen (expect_refines (by decide)) (fun keyword =>
    .andThen condition_refines (fun condition => (read.map _).last) rfl) rfl) ?_)
  intro _ _ laid
  obtain ⟨_, keyword, _, rfl, rfl, _, condition, _, rfl, ⟨opening, closing, rfl⟩, body, rfl, rfl⟩ := laid
  rfl

def updated (parts : List Part) (value : Node) : Prop :=
  (∃ name sign given, parts = [.token name, .token sign, .nodes [given]] ∧ value = assignment name given) ∨
    ∃ name op, parts = [.token name, .token op] ∧ value = count name op

def changeForms : List Form := [.seq [.assign, .expression], .counts]

def change (name : Token) : Parse Node := do
  match ← Parse.peek with
  | .assign =>
    let _ ← Parse.next
    let value ← expression
    pure ⟨.assign, some name.lexeme, [value], name.line⟩
  | .operator op =>
    if op = .increment ∨ op = .decrement then
      let _ ← Parse.next
      pure ⟨.suffix, some op.symbol, [.leaf .var name.lexeme name.line], name.line⟩
    else Parse.fail .afterUpdatedName
  | _ => Parse.fail .afterUpdatedName

theorem update_eq : update = expect .identifier .update >>= change := rfl

theorem change_refines (name : Token) : Refines limit anything (endsExpression · = true) (change name)
    (.any changeForms) (fun parts value => updated (.token name :: parts) value) := by
  refine .peek fun kind _ => ?_
  split
  · have sign : Refines limit (· = .assign) anything Parse.next .assign _ := next_refines (by simp) (by decide)
    refine ((sign.andThen (fun _ => (expression_refines.map _).last) rfl).pick (by decide) (by decide)
      (.inl (by decide))).view ?_
    intro _ _ laid
    obtain ⟨_, sign, _, rfl, ⟨rfl, _⟩, value, rfl, rfl⟩ := laid
    exact .inl ⟨_, _, _, rfl, rfl⟩
  · next op _ =>
    split
    · next member =>
      have inside : Kind.operator op ∈ Form.counts.first := (mem_counts _).mpr ⟨op, rfl, member⟩
      have counting : Refines limit (· = Kind.operator op) (endsExpression · = true) _ .counts _ :=
        literal_refines (by intro _ rfl; exact inside) (by decide) fun _ =>
          (⟨.suffix, some op.symbol, [.leaf .var name.lexeme name.line], name.line⟩ : Node)
      refine (counting.pick (by decide) ?_ (.inl (by decide))).view ?_
      · rcases member with rfl | rfl <;> decide
      · intro _ _ laid
        obtain ⟨token, rfl, kind, rfl⟩ := laid
        have symbol : token.kind.symbol? = some op.symbol := by rw [kind]; rfl
        exact .inr ⟨name, token, rfl, by rw [count, symbol]⟩
    · next apart =>
      refine .fail ?_ rfl
      intro _ rfl
      refine Form.not_leads ?_ rfl
      simpa [changeForms, Form.any, Form.seq, Form.counts, Form.operators, Form.assign, Form.first, Form.nullable]
        using apart
  · next assign other =>
    refine .fail ?_ rfl
    intro found rfl
    refine Form.not_leads ?_ rfl
    have absent : found ∉ Form.counts.first := fun inside => by
      obtain ⟨op, same, _⟩ := (mem_counts _).mp inside
      exact other op same
    simpa [changeForms, Form.any, Form.seq, Form.assign, Form.first, Form.nullable] using ⟨assign, absent⟩

theorem update_refines : Refines limit starts (endsExpression · = true) update .update updated := by
  have row : Refines limit anything (endsExpression · = true) update .update _ :=
    .andThen (expect_refines (by decide)) (fun name => (change_refines name).last) rfl
  refine (row.weaken (Nat.le_refl _) (fun _ _ => trivial) (fun _ follows => follows)).view ?_
  intro _ _ laid
  obtain ⟨_, name, others, rfl, rfl, made⟩ := laid
  exact made

def clauseOf (line : Nat) (parts : List Part) (value : Node) : Prop :=
  ∃ made, parts = [.nodes made] ∧ value = clause line made

theorem absent_refines {symbol : Symbol} (line : Nat) (bare : build symbol [] = []) :
    Refines limit starts follow (Pure.pure (.absent line)) .done
      (fun parts value => clauseOf line [.nodes (build symbol parts)] value) :=
  (Refines.pure _).view (by rintro _ _ ⟨rfl, rfl⟩; exact ⟨_, rfl, by rw [bare]; rfl⟩)

def initializerForms : List Form := [.seq [.typeName, .name, .assign, .expression], .update, .done]

theorem forkInitializer_refines (line : Nat) : Refines limit anything (· = .delimiter) (forkInitializer line)
    (.phrase .forkInitializer) (clauseOf line) := by
  suffices Refines limit anything (· = .delimiter) (forkInitializer line) (.any initializerForms)
    (fun parts value => clauseOf line [.nodes (build .forkInitializer parts)] value) from .phrase this id
  refine .peek fun kind _ => ?_
  split
  · next ty _ =>
    refine (((Refines.andThen typeName_refines (fun ty => .andThen (expect_refines (by decide)) (fun name =>
      .andThen (expect_refines (by decide)) (fun sign => (expression_refines.map _).last) rfl) rfl) rfl).weaken
      (Nat.le_refl _) (fun _ start => start) ?_).pick (by decide) ?_ (.inr (by simp))).view ?_
    · intro _ rfl
      rfl
    · cases ty <;> decide
    · intro _ _ laid
      obtain ⟨_, ty, _, rfl, rfl, _, name, _, rfl, rfl, _, sign, _, rfl, rfl, value, rfl, rfl⟩ := laid
      exact ⟨_, rfl, rfl⟩
  · have changed : Refines limit (· = .identifier) (· = .delimiter) update .update updated :=
      update_refines.weaken (Nat.le_refl _) (fun _ start => start) (by intro _ rfl; rfl)
    refine (changed.pick (by decide) (by decide) (.inr (by simp))).view ?_
    intro _ _ either
    obtain ⟨name, sign, value, rfl, rfl⟩ | ⟨name, op, rfl, rfl⟩ := either
    · exact ⟨_, rfl, rfl⟩
    · exact ⟨_, rfl, rfl⟩
  · refine ((absent_refines line rfl).right ?_).right ?_
    · intro _ rfl
      exact Form.not_leads (by decide) rfl
    · intro _ rfl
      exact Form.not_leads (by decide) rfl
  · next ty name delimiter =>
    refine .fail ?_ rfl
    intro found rfl either
    obtain starting | ⟨_, follows⟩ := either
    · have inside : found ∈ typeKinds ++ [.identifier] := starting
      rcases List.mem_append.mp inside with typed | named
      · obtain ⟨same, _, rfl⟩ := List.mem_map.mp typed
        exact ty same rfl
      · exact name (List.mem_singleton.mp named)
    · exact delimiter follows

theorem startsExpression_iff (kind : Kind) : startsExpression kind = true ↔ kind ∈ expressionKinds := by
  unfold startsExpression
  split <;> simp_all [expressionKinds, primaryKinds]

theorem forkCondition_refines (line : Nat) : Refines limit anything (· = .delimiter) (forkCondition line)
    (.phrase .forkCondition) (clauseOf line) := by
  suffices Refines limit anything (· = .delimiter) (forkCondition line) (.optional .expression)
    (fun parts value => clauseOf line [.nodes (build .forkCondition parts)] value) from .phrase this id
  refine .peek fun kind _ => ?_
  split
  · next past =>
    refine (absent_refines line rfl).right ?_
    intro _ rfl
    exact Form.not_leads (past ▸ by decide) rfl
  · next more =>
    split
    · have value : Refines limit (· = kind) (· = .delimiter) expression .expression node :=
        expression_refines.weaken (Nat.le_refl _) (fun _ _ => trivial) (by intro _ rfl; rfl)
      refine (value.left ?_).view ?_
      · intro _ rfl either
        obtain starting | ⟨_, follows⟩ := either
        · cases starting
        · exact more follows
      · intro _ _ rfl
        exact ⟨_, rfl, rfl⟩
    · next barred =>
      refine .fail ?_ rfl
      intro _ rfl either
      obtain starting | ⟨_, follows⟩ := either
      · exact barred ((startsExpression_iff _).mpr starting)
      · exact more follows

theorem forkStep_refines (line : Nat) : Refines limit anything (· = .mark .rightParen) (forkStep line)
    (.phrase .forkStep) (clauseOf line) := by
  suffices Refines limit anything (· = .mark .rightParen) (forkStep line) (.optional .update)
    (fun parts value => clauseOf line [.nodes (build .forkStep parts)] value) from .phrase this id
  refine .peek fun kind _ => ?_
  split
  · have changed : Refines limit (· = .identifier) (· = .mark .rightParen) update .update updated :=
      update_refines.weaken (Nat.le_refl _) (fun _ start => start) (by intro _ rfl; rfl)
    refine (changed.left ?_).view ?_
    · intro _ rfl either
      obtain starting | ⟨_, ⟨⟩⟩ := either
      cases starting
    · intro _ _ either
      obtain ⟨name, sign, value, rfl, rfl⟩ | ⟨name, op, rfl, rfl⟩ := either
      · exact ⟨_, rfl, rfl⟩
      · exact ⟨_, rfl, rfl⟩
  · refine (absent_refines line rfl).right ?_
    intro _ rfl
    exact Form.not_leads (by decide) rfl
  · next name closing =>
    refine .fail ?_ rfl
    intro _ rfl either
    obtain starting | ⟨_, follows⟩ := either
    · exact name (by simpa [Form.optional, Form.update, Form.seq, Form.name, Form.first, Form.nullable] using starting)
    · exact closing follows

theorem fork_refines (read : Refines limit anything anything block .block node) :
    Refines limit starts anything (fork block) (.phrase .fork) node := by
  refine Refines.anywhere (.phrase (.andThen (expect_refines (by decide)) (fun keyword =>
    .andThen (expect_refines (by decide)) (fun opening => .bind (forkInitializer_refines _) (fun first =>
    .andThen (expect_refines (by decide)) (fun _ => .bind (forkCondition_refines _) (fun condition =>
    .andThen (expect_refines (by decide)) (fun _ => .bind (forkStep_refines _) (fun step =>
    .andThen (expect_refines (by decide)) (fun closing => (read.map _).last) rfl)
    (fun _ => Nat.le_add_left ..) (Form.leads_token (by decide)) rfl) rfl)
    (fun _ => Nat.le_add_left ..) (Form.leads_token (by decide)) rfl) rfl)
    (fun _ => Nat.le_add_left ..) (Form.leads_token (by decide)) rfl) rfl) rfl) ?_)
  intro _ _ laid
  obtain ⟨_, keyword, _, rfl, rfl, _, opening, _, rfl, rfl, _, first, _, rfl, ⟨one, rfl, rfl⟩, _, _, _, rfl, rfl,
    _, condition, _, rfl, ⟨two, rfl, rfl⟩, _, _, _, rfl, rfl, _, step, _, rfl, ⟨three, rfl, rfl⟩, _, closing, _, rfl,
    rfl, body, rfl, rfl⟩ := laid
  rfl

theorem attempt_refines (read : Refines limit anything anything block .block node) :
    Refines limit starts (followsItem · = true) (attempt block) (.phrase .attempt) node := by
  have other : Refines limit anything (followsItem · = true) (optionalBlock .lastly .afterAttempt block)
      (.phrase .lastly) nodes :=
    .phrase (optionalBlock_refines (by decide) read) (by intro _ _ rfl; rfl)
  refine .phrase (.andThen (expect_refines (by decide)) (fun keyword => .andThen read (fun body =>
    .andThen (expect_refines (by decide)) (fun _ => .andThen read (fun handler => (other.map _).last) rfl) rfl)
    rfl) rfl) ?_
  intro _ _ laid
  obtain ⟨_, keyword, _, rfl, rfl, _, body, _, rfl, rfl, _, _, _, rfl, rfl, _, handler, _, rfl, rfl, last, rfl,
    rfl⟩ := laid
  rfl

theorem splash_refines : Refines limit starts anything splash (.phrase .splash) node := by
  refine Refines.anywhere (.phrase (.andThen (expect_refines (by decide)) (fun keyword =>
    .andThen condition_refines (fun value => .andThen (expect_refines (by decide)) (fun _ => .pure _) rfl) rfl)
    rfl) ?_)
  intro _ _ laid
  obtain ⟨_, keyword, _, rfl, rfl, _, value, _, rfl, ⟨opening, closing, rfl⟩, _, _, _, rfl, rfl, rfl, rfl⟩ := laid
  rfl

theorem emerge_refines : Refines limit starts anything emerge (.phrase .emerge) node := by
  refine Refines.anywhere (.phrase (.andThen (expect_refines (by decide)) (fun keyword =>
    .bind expression_refines (fun value => .andThen (expect_refines (by decide)) (fun _ => .pure _) rfl)
    (fun _ => Nat.le_add_left ..) (Form.leads_token (by decide)) rfl) rfl) ?_)
  intro _ _ laid
  obtain ⟨_, keyword, _, rfl, rfl, _, value, _, rfl, rfl, _, _, _, rfl, rfl, rfl, rfl⟩ := laid
  rfl

def actionForms : List Form := .call :: changeForms

def acted (parts : List Part) (value : Node) : Prop :=
  ∀ closing, node [.nodes (build .nameStatement (parts ++ [.token closing]))] value

def action (name : Token) : Parse Node := do
  let kind ← Parse.peek
  if kind = .mark .leftParen then call expression name
  else if startsUpdate kind then change name
  else Parse.fail .afterName

theorem nameAction_eq {tokens : List Token} (named : (current tokens).kind = .identifier) :
    nameAction tokens = (Parse.next >>= action) tokens := by
  cases tokens with
  | nil => cases named
  | cons name rest =>
    have named : name.kind = .identifier := named
    have passed : advance (name :: rest) = rest := by simp [advance, Token.isEnd, named]
    have taken : Parse.next (name :: rest) = .ok (name, rest) := by rw [Parse.next, passed]; rfl
    have wanted : expect .identifier .update (name :: rest) = .ok (name, rest) := by
      change (if name.kind = .identifier then Parse.next else _ : Parse Token) _ = _
      rw [if_pos named, taken]
    have renewed : update (name :: rest) = change name rest := by
      rw [update_eq, bind_run, wanted]
    change (if (current rest).kind = .mark .leftParen then _ else if startsUpdate (current rest).kind then _ else _ :
      Parse Node) _ = _
    rw [bind_run, taken]
    change _ = (if (current rest).kind = .mark .leftParen then _ else if startsUpdate (current rest).kind then _
      else _ : Parse Node) _
    split
    · rw [bind_run, taken]
    · split
      · exact renewed
      · rw [bind_run, taken]

theorem startsUpdate_iff (kind : Kind) : startsUpdate kind = true ↔ kind ∈ (Form.any changeForms).first := by
  unfold startsUpdate
  split <;> simp_all [changeForms, Form.any, Form.seq, Form.counts, Form.operators, Form.assign, Form.first,
    Form.nullable]

theorem action_refines (name : Token) : Refines limit anything (endsExpression · = true) (action name)
    (.any actionForms) (fun parts value => acted (.token name :: parts) value) := by
  refine .peek fun kind _ => ?_
  split
  · next opening =>
    have called : Refines limit (· = kind) (endsExpression · = true) (call expression name) .call _ :=
      (call_refines expression_refines name).weaken (Nat.le_succ limit) (fun _ _ => trivial) (fun _ _ => trivial)
    refine (called.left ?_).view ?_
    · intro _ rfl
      exact Form.not_leads (opening ▸ by decide) rfl
    · intro _ _ laid _
      obtain ⟨opening, given, closing, rfl, rfl⟩ := laid
      rfl
  · next apart =>
    have uncalled : kind ∉ Form.call.first := by
      simpa [Form.call, Form.seq, Form.mark, Form.first, Form.nullable] using apart
    split
    · have changed : Refines limit (· = kind) (endsExpression · = true) (change name) (.any changeForms) _ :=
        (change_refines name).weaken (Nat.le_refl _) (fun _ _ => trivial) (fun _ follows => follows)
      refine (changed.right ?_).view ?_
      · intro _ rfl
        exact Form.not_leads uncalled rfl
      · intro _ _ either closing
        obtain ⟨_, sign, value, ⟨⟩, rfl⟩ | ⟨_, op, ⟨⟩, rfl⟩ := either
        · rfl
        · rfl
    · next barred =>
      refine .fail ?_ rfl
      intro _ rfl
      refine Form.not_leads (fun starting => ?_) rfl
      rcases List.mem_append.mp starting with calling | changing
      · exact uncalled calling
      · exact barred ((startsUpdate_iff _).mpr changing)

theorem nameAction_refines : Refines limit (· = .identifier) (endsExpression · = true) nameAction
    (.and .name (.any actionForms)) acted := by
  have name : Refines limit (· = .identifier) anything Parse.next .name _ := next_refines (by simp) (by decide)
  refine .congr ((name.andThen action_refines rfl).view ?_) (fun _ _ named => nameAction_eq named)
  intro _ _ laid
  obtain ⟨_, name, others, rfl, ⟨rfl, _⟩, made⟩ := laid
  exact made

theorem nameStatement_refines : Refines limit (· = .identifier) anything nameStatement (.phrase .nameStatement)
    node := by
  have closed (value : Node) : Refines limit anything anything
      (expect .delimiter .statement >>= fun _ => Pure.pure value) (.and .delimiter .done) _ :=
    .andThen (expect_refines (by decide)) (fun _ => .pure value) rfl
  have row := nameAction_refines.bind closed (fun _ => Nat.le_add_left ..) (Form.leads_token (by decide)) rfl
  refine .phrase (row.reform (fun reads => reads_assoc.mp reads) (fun _ _ reads => reads_assoc.mpr reads) id) ?_
  intro _ _ laid
  obtain ⟨parts, value, _, rfl, made, _, closing, _, rfl, rfl, rfl, rfl⟩ := laid
  exact made closing

theorem startsItem_iff (kind : Kind) : startsItem kind = true ↔ kind ∈ itemKinds := by
  cases kind with
  | type ty => cases ty <;> decide
  | word word => cases word <;> decide
  | mark mark => cases mark <;> decide
  | operator op => cases op <;> decide
  | _ => decide

def statementForms : List Form :=
  [.phrase .when, .phrase .whale, .phrase .fork, .phrase .attempt, .phrase .splash, .phrase .emerge, .block,
    .phrase .nameStatement]

def itemForms : List Form := [.phrase .declaration, .phrase .functionDef, .phrase .statement]

theorem statement_item {kind : Kind} {form : Form} {parse : Parse Node}
    (read : Refines limit (· = kind) follow parse form node) (member : form ∈ statementForms)
    (alone : ∀ other ∈ statementForms, other = form ∨ kind ∉ other.first)
    (only : ∀ other ∈ itemForms, other = .phrase .statement ∨ kind ∉ other.first) :
    Refines limit (· = kind) follow parse (.any itemForms) node := by
  have chosen : Refines limit (· = kind) follow parse (.any statementForms) node :=
    read.pick member alone (.inl (by decide))
  have statement : Refines limit (· = kind) follow parse (.phrase .statement) node :=
    .phrase chosen (by intro _ _ rfl; rfl)
  exact statement.pick (by decide) only (.inl (by decide))

theorem item_refines (read : Refines limit anything anything block .block node) :
    Refines limit anything (followsItem · = true) (item block) (.phrase .item) node := by
  suffices Refines limit anything (followsItem · = true) (item block) (.any itemForms) node from
    .phrase this (by intro _ _ rfl; rfl)
  refine .peek fun kind _ => ?_
  split
  · next ty _ =>
    refine Refines.pick declaration_refines.anywhere (by decide) ?_ (.inl (by decide))
    cases ty <;> decide
  · exact Refines.pick (functionDef_refines read).anywhere (by decide) (by decide) (.inl (by decide))
  · exact statement_item (when_refines read) (by decide) (by decide) (by decide)
  · exact statement_item (whale_refines read).anywhere (by decide) (by decide) (by decide)
  · exact statement_item (fork_refines read).anywhere (by decide) (by decide) (by decide)
  · exact statement_item (attempt_refines read) (by decide) (by decide) (by decide)
  · exact statement_item splash_refines.anywhere (by decide) (by decide) (by decide)
  · exact statement_item emerge_refines.anywhere (by decide) (by decide) (by decide)
  · exact statement_item read.anywhere (by decide) (by decide) (by decide)
  · exact statement_item (nameStatement_refines.weaken (Nat.le_refl _) (fun _ start => start)
      (fun _ _ => trivial)) (by decide) (by decide) (by decide)
  · next type _ _ _ _ _ _ _ _ _ =>
    refine .fail ?_ rfl
    intro found rfl
    refine Form.not_leads (fun starting => ?_) rfl
    have inside : found ∈ typeKinds ++ .word .fishtion :: statementKinds := starting
    rcases List.mem_append.mp inside with typed | other
    · obtain ⟨ty, _, same⟩ := List.mem_map.mp typed
      exact type ty same.symm
    · simp_all [statementKinds]

theorem itemList_refines {item : Parse Node} {bound : List Token}
    (read : Refines limit anything (followsItem · = true) item (.phrase .item) node)
    (enough : bound.length ≤ limit) :
    Refines bound.length anything (· = .mark .rightBrace) (itemList item bound) (.phrase .items) nodes := by
  suffices Refines bound.length anything (· = .mark .rightBrace) (itemList item bound) (rule .items) (appended [])
    from .phrase this (by intro _ _ rfl; rfl)
  have past {limit : Nat} {kind : Kind} (last : kind ∉ itemKinds) :
      Refines limit (· = kind) (· = .mark .rightBrace) (Pure.pure []) (rule .items) (appended []) := by
    refine ((Refines.pure []).right ?_).view ?_
    · intro _ rfl
      exact Form.not_leads last rfl
    · intro _ _ laid
      obtain ⟨rfl, rfl⟩ := laid
      rfl
  induction bound with
  | nil => exact .of_end (past (by decide))
  | cons _ bound ih =>
    refine .peek fun kind _ => ?_
    split
    · next last =>
      refine past ?_
      rcases last with rfl | rfl <;> decide
    · next going =>
      have first : Refines (bound.length + 1) (· = kind) (followsItem · = true) item (.phrase .item) node :=
        read.weaken enough (fun _ _ => trivial) (fun _ follows => follows)
      have others : Refines bound.length anything (· = .mark .rightBrace) (itemList item bound) (.phrase .items)
          nodes := .phrase (ih (Nat.le_of_succ_le enough)) (by intro _ _ rfl; rfl)
      have row := first.bind (fun node => (others.map (node :: ·)).last) ?_ ?_ rfl
      · refine (row.left ?_).view ?_
        · intro _ rfl either
          obtain starting | ⟨_, rfl⟩ := either
          · cases starting
          · exact going (.inl rfl)
        · intro _ _ laid
          obtain ⟨_, first, _, rfl, rfl, rest, rfl, rfl⟩ := laid
          simp [appended, Part.nodeList]
      · intro run parts reads
        have taken : run ≠ [] := fun empty => by cases reads.starts.1 empty
        have := List.length_pos_iff.mpr taken
        omega
      · intro kind either
        obtain starting | ⟨_, rfl⟩ := either
        · have item : startsItem kind = true := (startsItem_iff kind).mpr starting
          simp [followsItem, item]
        · rfl

theorem braced_refines (read : Refines limit anything anything block .block node) :
    Refines (limit + 1) anything anything (braced block) .block node := by
  refine .phrase (.tokenThen (expect_refines (by decide)) (fun opening => .bind
    (Refines.bounded fun _ enough => itemList_refines (item_refines read) enough)
    (fun items => .andThen (expect_refines (by decide)) (fun closing => .pure _) rfl)
    (fun _ => Nat.le_add_left ..) (Form.leads_token (by decide)) rfl) rfl) ?_
  intro _ _ laid
  obtain ⟨_, opening, _, rfl, rfl, _, items, _, rfl, rfl, _, closing, _, rfl, rfl, rfl, rfl⟩ := laid
  rfl

theorem blockTo_refines (bound : List Token) :
    Refines bound.length anything anything (blockTo bound) .block node := by
  induction bound with
  | nil =>
    refine .of_end (.fail ?_ rfl)
    intro _ rfl
    exact Form.not_leads (by decide) rfl
  | cons _ bound ih => exact braced_refines ih

theorem block_refines : Refines limit anything anything Parse.block .block node :=
  .bounded fun bound _ => blockTo_refines bound

end FishLang.Parse
