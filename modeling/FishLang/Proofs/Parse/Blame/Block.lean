import FishLang.Proofs.Parse.Blame.Statement
import FishLang.Proofs.Parse.Program

namespace FishLang.Parse

open Grammar

variable {limit : Nat} {starts after : Kind → Prop} {block : Parse Node} {tokens : List Token}

theorem statement_blames {kind : Kind} (form : Form) {parse : Parse Node}
    (blames : Blames limit (· = kind) after parse form) (member : form ∈ statementForms)
    (alone : ∀ other ∈ statementForms, other = form ∨ kind ∉ other.first)
    (only : ∀ other ∈ itemForms, other = .phrase .statement ∨ kind ∉ other.first) :
    Blames limit (· = kind) after parse (.any itemForms) := by
  have chosen : Blames limit (· = kind) after parse (rule .statement) := .pick form blames member alone (by decide)
  exact .pick (.phrase .statement) (.phrase chosen rfl) (by decide) only (by decide)

theorem item_blames (read : Refines limit anything anything block .block node)
    (blames : Blames limit anything nothing block .block) :
    Blames limit anything (· ∈ itemFollow) (item block) (.phrase .item) := by
  suffices Blames limit anything (· ∈ itemFollow) (item block) (.any itemForms) from .phrase this rfl
  have there {kind : Kind} {parse : Parse Node} {form : Form}
      (known : Blames limit anything (· ∈ itemFollow) parse form) :
      Blames limit (· = kind) (· ∈ itemFollow) parse form :=
    known.weaken (Nat.le_refl _) (fun _ _ => trivial) (fun _ follows => follows)
  refine .peek fun kind _ => ?_
  split
  · next ty _ =>
    refine .pick (.phrase .declaration) (there declaration_blames) (by decide) ?_ (by decide)
    cases ty <;> decide
  · exact .pick (.phrase .functionDef) (functionDef_blames blames).anywhere (by decide) (by decide) (by decide)
  · exact statement_blames (.phrase .when) (there (when_blames read blames)) (by decide) (by decide) (by decide)
  · exact statement_blames (.phrase .whale) (whale_blames blames).anywhere (by decide) (by decide) (by decide)
  · exact statement_blames (.phrase .fork) (fork_blames blames).anywhere (by decide) (by decide) (by decide)
  · exact statement_blames (.phrase .attempt) (there (attempt_blames read blames)) (by decide) (by decide) (by decide)
  · exact statement_blames (.phrase .splash) splash_blames.anywhere (by decide) (by decide) (by decide)
  · exact statement_blames (.phrase .emerge) emerge_blames.anywhere (by decide) (by decide) (by decide)
  · exact statement_blames .block blames.anywhere (by decide) (by decide) (by decide)
  · exact statement_blames (.phrase .nameStatement) (nameStatement_blames.weaken (Nat.le_refl _)
      (fun _ start => start) (fun _ never => never.elim)) (by decide) (by decide) (by decide)
  · next type _ _ _ _ _ _ _ _ _ =>
    refine .idle rfl fun starting => ?_
    have inside : kind ∈ typeKinds ++ .word .fishtion :: statementKinds := starting
    rcases List.mem_append.mp inside with typed | other
    · obtain ⟨ty, _, same⟩ := List.mem_map.mp typed
      exact type ty same.symm
    · simp_all [statementKinds]

theorem item_refuses (other : (current tokens).kind ∉ itemKinds) : item block tokens = .error ⟨.inBlock, tokens⟩ := by
  rw [item, peek_run]
  generalize (current tokens).kind = kind at other
  split
  case h_1 ty => exact absurd (by cases ty <;> decide) other
  case h_11 => rfl
  all_goals exact absurd (by decide) other

theorem optionalBlock_present {word : Word} {violation : Violation}
    (read : Refines limit anything anything block .block node) :
    Refines limit (· = .word word) anything (optionalBlock word violation block) (.seq [.word word, .block])
      (both (fun parts value => token parts value ∧ value.kind = .word word)
        fun _ => both node fun last => gives [last]) := by
  refine .peek fun kind start => ?_
  obtain rfl : kind = .word word := start
  rw [if_pos rfl]
  have keyword : Refines limit (· = Kind.word word) anything Parse.next (.word word) _ :=
    next_refines (by simp) (by simp)
  exact keyword.andThen (fun _ => .andThen read (fun last => .pure [last]) rfl) rfl

-- Behind a statement without a last part that part may be still to come; behind one with it the statement is over.
theorem optionalBlock_halts {word : Word} {violation : Violation} (last : Choice)
    (ruled : rule last.symbol = .optional (.seq [.word word, .block])) (either : last = .otherwise ∨ last = .lastly)
    (read : Refines limit anything anything block .block node) :
    Halts limit anything (optionalBlock word violation block) (.phrase last.symbol) where
  halts {run rest _} fits _ reads := by
    cases reads with
    | phrase body =>
      rw [ruled] at body
      cases body with
      | right none =>
        cases none
        exact .inr ⟨last, either, awaits_phrase.mpr (.inl ⟨rfl, rfl⟩)⟩
      | left some =>
        have start : (current (run ++ rest)).kind = .word word := by
          have leads : (Form.seq [.word word, .block]).Leads anything (current (run ++ rest)).kind := some.leads trivial
          simpa [Form.Leads, Form.seq, Form.word, Form.first, Form.nullable] using leads
        obtain ⟨value, _, ran⟩ := (optionalBlock_present read).complete fits start some trivial
        exact .inl ⟨value, ran⟩

theorem statement_halts {kind : Kind} (form : Form) {parse : Parse Node} (halts : Halts limit (· = kind) parse form)
    (alone : ∀ other ∈ statementForms, other = form ∨ kind ∉ other.first)
    (only : ∀ other ∈ itemForms, other = .phrase .statement ∨ kind ∉ other.first) :
    Halts limit (· = kind) parse (.any itemForms) := by
  have chosen : Halts limit (· = kind) parse (rule .statement) := .pick form halts alone (by decide)
  exact .pick (.phrase .statement) chosen.phrase only (by decide)

section Halts

variable (read : Refines limit anything anything block .block node)
include read

theorem when_halts : Halts limit starts (when block) (.phrase .when) :=
  .phrase (.andThen (expect_refines (by decide)) fun keyword => .andThen condition_refines fun condition =>
    .andThen read fun body => ((optionalBlock_halts .otherwise rfl (.inl rfl) read).map _).last)

theorem attempt_halts : Halts limit starts (attempt block) (.phrase .attempt) :=
  .phrase (.andThen (expect_refines (by decide)) fun keyword => .andThen read fun body =>
    .andThen (expect_refines (by decide)) fun _ => .andThen read fun handler =>
    ((optionalBlock_halts .lastly rfl (.inr rfl) read).map _).last)

theorem item_halts : Halts limit anything (item block) (.phrase .item) := by
  suffices Halts limit anything (item block) (.any itemForms) from .phrase this
  refine .peek fun kind _ => ?_
  split
  · next ty _ =>
    refine .pick (.phrase .declaration) (.of_refines declaration_refines) ?_ (by decide)
    cases ty <;> decide
  · exact .pick (.phrase .functionDef) (.of_refines (functionDef_refines read)) (by decide) (by decide)
  · exact statement_halts (.phrase .when) (when_halts read) (by decide) (by decide)
  · exact statement_halts (.phrase .whale) (.of_refines (whale_refines read)) (by decide) (by decide)
  · exact statement_halts (.phrase .fork) (.of_refines (fork_refines read)) (by decide) (by decide)
  · exact statement_halts (.phrase .attempt) (attempt_halts read) (by decide) (by decide)
  · exact statement_halts (.phrase .splash) (.of_refines splash_refines) (by decide) (by decide)
  · exact statement_halts (.phrase .emerge) (.of_refines emerge_refines) (by decide) (by decide)
  · exact statement_halts .block (.of_refines read.anywhere) (by decide) (by decide)
  · exact statement_halts (.phrase .nameStatement) (.of_refines nameStatement_refines) (by decide) (by decide)
  · next type _ _ _ _ _ _ _ _ _ =>
    refine .idle rfl fun starting => ?_
    have starts : startsItem kind = true := (startsItem_iff kind).mpr starting
    unfold startsItem at starts
    split at starts <;> simp_all

end Halts

def itemsForm : Form := .seq [.phrase .items, .mark .rightBrace]

section Items

variable {choice : Choice} {front : List Token}

theorem awaits_itemsForm : Awaits choice.symbol itemsForm front ↔ Awaits choice.symbol (.phrase .items) front :=
  awaits_and_plain rfl

theorem awaits_items : Awaits choice.symbol (.phrase .items) front ↔
    choice = .items ∧ front = [] ∨ Awaits choice.symbol (.and (.phrase .item) (.phrase .items)) front := by
  have here : choice.symbol = .items ↔ choice = .items :=
    ⟨fun same => Choice.symbol_injective same, fun same => same ▸ rfl⟩
  have going : Awaits choice.symbol (rule .items) front ↔
      Awaits choice.symbol (.and (.phrase .item) (.phrase .items)) front :=
    awaits_or.trans ((or_iff_left not_awaits_done).trans (awaits_and_right awaits_and_done))
  rw [awaits_phrase, here, going]

theorem items_of_awaits (awaits : Awaits choice.symbol itemsForm []) : choice = .items := by
  rcases awaits_items.mp (awaits_itemsForm.mp awaits) with ⟨same, _⟩ | inside
  · exact same
  · cases inside.starts.1 rfl

theorem awaits_more (passed : front ≠ []) :
    Awaits choice.symbol itemsForm front ↔ Awaits choice.symbol (.and (.phrase .item) itemsForm) front :=
  have first : Awaits choice.symbol (.phrase .items) front ↔
      Awaits choice.symbol (.and (.phrase .item) (.phrase .items)) front :=
    awaits_items.trans (or_iff_right fun ⟨_, empty⟩ => passed empty)
  (awaits_itemsForm.trans first).trans (awaits_and_right awaits_itemsForm).symm

end Items

theorem reads_more (reads : Reads (.and (.phrase .item) itemsForm) run parts) :
    ∃ others, Reads itemsForm run others := by
  obtain ⟨front, _, _, _, rfl, rfl, item, others⟩ := reads_and.mp reads
  obtain ⟨middle, last, _, _, rfl, rfl, items, closing⟩ := reads_and.mp others
  have list : Reads (.phrase .items) (front ++ middle) _ := .phrase (.left (.and item (reads_and_done.mpr items)))
  rw [← List.append_assoc]
  exact ⟨_, .and list closing⟩

def closed (list : Parse (List Node)) (make : List Node → Node) : Parse Node := do
  let items ← list
  let _ ← expect (.mark .rightBrace) .block
  pure (make items)

theorem closed_cons {item : Parse Node} {token : Token} {bound : List Token} {make : List Node → Node}
    (going : ¬ ((current tokens).kind = .mark .rightBrace ∨ (current tokens).kind = .endOfInput)) :
    closed (itemList item (token :: bound)) make tokens =
      (item >>= fun first => closed (itemList item bound) fun rest => make (first :: rest)) tokens := by
  have opened : itemList item (token :: bound) tokens =
      (item >>= fun first => itemList item bound >>= fun rest => pure (first :: rest)) tokens := by
    rw [itemList, peek_run, if_neg going]
  rw [closed, bind_run, opened, ← bind_run]
  simp only [bind_assoc, pure_bind, closed]

theorem closed_nil {list : Parse (List Node)} {make : List Node → Node} (ends : list tokens = .ok ([], tokens))
    (other : (current tokens).kind ≠ .mark .rightBrace) :
    closed list make tokens = .error ⟨.missing (.mark .rightBrace) .block, tokens⟩ := by
  have missing : expect (.mark .rightBrace) .block tokens = .error ⟨.missing (.mark .rightBrace) .block, tokens⟩ := by
    rw [expect, peek_run, if_neg other]
    rfl
  exact bind_eq_error_iff.mpr (.inr ⟨_, _, ends, bind_eq_error_iff.mpr (.inl missing)⟩)

-- At the end of the input the brace is missing; any other token would have to start an item.
theorem closed_refuses {item : Parse Node} {bound : List Token} {make : List Node → Node}
    (refuses : ∀ {tokens}, (current tokens).kind ∉ itemKinds → item tokens = .error ⟨.inBlock, tokens⟩)
    (fits : tokens.length ≤ bound.length) (refused : (current tokens).kind ∉ Symbol.items.admitted) :
    closed (itemList item bound) make tokens = .error ⟨Choice.items.violation (current tokens).kind, tokens⟩ := by
  have unclosed : (current tokens).kind ≠ .mark .rightBrace := fun same => refused (same ▸ by decide)
  have other : (current tokens).kind ∉ itemKinds := fun starting => refused (List.mem_append_left _ starting)
  by_cases ended : (current tokens).kind = .endOfInput
  · have ends : itemList item bound tokens = .ok ([], tokens) := by
      cases bound with
      | nil => rfl
      | cons _ bound =>
        rw [itemList, peek_run, if_pos (.inr ended)]
        rfl
    rw [closed_nil ends unclosed, Choice.violation, if_pos ended]
  · cases bound with
    | nil =>
      rw [List.eq_nil_of_length_eq_zero (Nat.le_zero.mp fits)] at ended
      exact absurd rfl ended
    | cons token bound =>
      rw [closed_cons (not_or.mpr ⟨unclosed, ended⟩), Choice.violation, if_neg ended]
      exact bind_eq_error_iff.mpr (.inl (refuses other))

theorem closed_here {item : Parse Node} {bound rest : List Token} {make : List Node → Node} {choice : Choice}
    (refuses : ∀ {tokens}, (current tokens).kind ∉ itemKinds → item tokens = .error ⟨.inBlock, tokens⟩)
    (fits : rest.length ≤ bound.length) (awaits : Awaits choice.symbol itemsForm [])
    (barred : Barred itemsForm nothing [] (current rest)) :
    ∃ blamed, Charged choice itemsForm [] (current rest).kind blamed ∧
      closed (itemList item bound) make rest = .error ⟨blamed.violation (current rest).kind, rest⟩ := by
  obtain rfl := items_of_awaits awaits
  have closes : ∀ kind ∈ Symbol.items.follow, (Form.seq [.mark .rightBrace]).starts kind = true := by decide
  have refused := (barred.opening closes rfl).not_admitted
  exact ⟨.items, ⟨awaits, refused, .inl rfl⟩, closed_refuses refuses fits refused⟩

theorem closed_blames {item : Parse Node} {bound : List Token}
    (read : Refines limit anything (followsItem · = true) item (.phrase .item) node)
    (blames : Blames limit anything (· ∈ itemFollow) item (.phrase .item))
    (halts : Halts limit anything item (.phrase .item))
    (refuses : ∀ {tokens}, (current tokens).kind ∉ itemKinds → item tokens = .error ⟨.inBlock, tokens⟩)
    (enough : bound.length ≤ limit) (make : List Node → Node) :
    Blames bound.length anything nothing (closed (itemList item bound) make) itemsForm := by
  induction bound generalizing make with
  | nil =>
    refine ⟨fun {choice front rest} fits _ awaits barred => ?_⟩
    obtain ⟨rfl, rfl⟩ := List.append_eq_nil_iff.mp (List.eq_nil_of_length_eq_zero (Nat.le_zero.mp fits))
    exact closed_here refuses (Nat.le_refl _) awaits barred
  | cons token bound ih =>
    have row : Blames (bound.length + 1) anything nothing
        (item >>= fun first => closed (itemList item bound) fun rest => make (first :: rest))
        (.and (.phrase .item) itemsForm) := by
      refine .bind (read.weaken enough (fun _ _ => trivial) (fun _ follows => follows))
        (blames.weaken enough (fun _ _ => trivial) (fun _ follows => follows))
        (fun first => ih (Nat.le_of_succ_le enough) _) ?_ (by decide) ?_ (by decide) rfl
      · intro run parts reads
        have taken : run ≠ [] := fun empty => by cases reads.starts.1 empty
        have := List.length_pos_iff.mpr taken
        omega
      · intro choice run rest parts fits start awaits reads
        have past := halts.halts (Nat.le_trans fits enough) start reads
        exact past.imp_right fun waiting => ⟨items_of_awaits awaits, waiting⟩
    refine ⟨fun {choice front rest} fits start awaits barred => ?_⟩
    cases front with
    | nil => exact closed_here refuses fits awaits barred
    | cons first front =>
      have passed : first :: front ≠ [] := List.cons_ne_nil first front
      obtain ⟨blamed, charged, stopped⟩ :=
        row.stops fits start ((awaits_more passed).mp awaits) (barred.mono reads_more)
      refine ⟨blamed, charged.mono (awaits_more passed).mpr, ?_⟩
      rw [← stopped]
      refine closed_cons ?_
      have starting : (current (first :: front ++ rest)).kind ∈ itemKinds :=
        (awaits_itemsForm.mp awaits).starts.2 first rfl
      rintro (same | same) <;> exact absurd (same ▸ starting) (by decide)

theorem braced_blames (read : Refines limit anything anything block .block node)
    (blames : Blames limit anything nothing block .block) :
    Blames (limit + 1) anything nothing (braced block) .block := by
  refine .phrase (.tokenThen (expect_refines (by decide)) (fun opening => ?_) rfl) rfl
  have items : Blames limit anything nothing (Parse.bounded fun bound =>
      closed (itemList (item block) bound) fun items => .group .block items opening.line) itemsForm :=
    .bounded fun _ enough => closed_blames (item_refines read) (item_blames read blames) (item_halts read)
      item_refuses enough _
  exact items

theorem blockTo_blames (bound : List Token) : Blames bound.length anything nothing (blockTo bound) .block := by
  induction bound with
  | nil => exact .of_end (.idle rfl (by decide))
  | cons _ bound ih => exact braced_blames (blockTo_refines bound) ih

theorem block_blames : Blames limit anything nothing Parse.block .block :=
  .bounded fun bound _ => blockTo_blames bound

theorem program_blames : Blames limit anything nothing program programForm :=
  .plainThen (expect_refines (by decide)) rfl (fun keyword => (block_blames.before _).last) rfl

end FishLang.Parse
