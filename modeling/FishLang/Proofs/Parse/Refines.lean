import FishLang.Proofs.Grammar.First

namespace FishLang.Parse

open Grammar

theorem bind_run {α β : Type} (parse : Parse α) (next : α → Parse β) (tokens : List Token) :
    (parse >>= next) tokens = match parse tokens with
      | .ok (value, rest) => next value rest
      | .error stop => .error stop := rfl

theorem bind_pure_run {α : Type} (parse : Parse α) : parse >>= Pure.pure = parse := by
  funext tokens
  rw [bind_run]
  rcases parse tokens with stop | ⟨value, rest⟩ <;> rfl

theorem bind_bind_run {α β γ : Type} (parse : Parse α) (next : α → Parse β) (last : β → Parse γ) :
    parse >>= next >>= last = parse >>= fun value => next value >>= last := by
  funext tokens
  simp only [bind_run]
  rcases parse tokens with stop | ⟨value, rest⟩ <;> rfl

instance : LawfulMonad Parse := .mk' Parse bind_pure_run (fun _ _ => rfl) bind_bind_run

abbrev anything : Kind → Prop := fun _ => True

-- `result` ties the parts that a run is laid out as to the value that is read.
structure Refines {α : Type} (limit : Nat) (starts follow : Kind → Prop) (parse : Parse α) (form : Form)
    (result : List Part → α → Prop) : Prop where
  sound : ∀ {tokens value rest}, tokens.length ≤ limit → starts (current tokens).kind →
    parse tokens = .ok (value, rest) →
      ∃ run parts, tokens = run ++ rest ∧ Reads form run parts ∧ result parts value
  complete : ∀ {run parts rest}, (run ++ rest).length ≤ limit → starts (current (run ++ rest)).kind →
    Reads form run parts → follow (current rest).kind →
      ∃ value, result parts value ∧ parse (run ++ rest) = .ok (value, rest)
  viable : ∀ {tokens stop}, tokens.length ≤ limit → starts (current tokens).kind →
    parse tokens = .error stop → ∃ run more parts, tokens = run ++ stop.rest ∧ Reads form (run ++ more) parts

def node (parts : List Part) (value : Node) : Prop := parts = [.nodes [value]]
def token (parts : List Part) (value : Token) : Prop := parts = [.token value]
def nodes (parts : List Part) (values : List Node) : Prop := parts = [.nodes values]

def both {α β : Type} (one : List Part → α → Prop) (two : α → List Part → β → Prop) (parts : List Part)
    (value : β) : Prop :=
  ∃ front first back, parts = front ++ back ∧ one front first ∧ two first back value

def gives {α : Type} (value : α) (parts : List Part) (result : α) : Prop := parts = [] ∧ result = value

variable {α β : Type} {limit smaller : Nat} {starts follow middle : Kind → Prop} {form other first second : Form}
  {parse : Parse α} {result : List Part → α → Prop}

namespace Refines

theorem congr {same : Parse α} (read : Refines limit starts follow parse form result)
    (equal : ∀ tokens, tokens.length ≤ limit → starts (current tokens).kind → same tokens = parse tokens) :
    Refines limit starts follow same form result where
  sound bound start ran := read.sound bound start (equal _ bound start ▸ ran)
  complete bound start reads follows := equal _ bound start ▸ read.complete bound start reads follows
  viable bound start stopped := read.viable bound start (equal _ bound start ▸ stopped)

theorem weaken {later : Kind → Prop} {begins : Kind → Prop}
    (read : Refines limit starts follow parse form result) (shorter : smaller ≤ limit)
    (narrower : ∀ kind, begins kind → starts kind) (earlier : ∀ kind, later kind → follow kind) :
    Refines smaller begins later parse form result where
  sound bound start := read.sound (Nat.le_trans bound shorter) (narrower _ start)
  complete bound start reads follows :=
    read.complete (Nat.le_trans bound shorter) (narrower _ start) reads (earlier _ follows)
  viable bound start := read.viable (Nat.le_trans bound shorter) (narrower _ start)

theorem anywhere (read : Refines limit anything anything parse form result) :
    Refines limit starts follow parse form result :=
  read.weaken (Nat.le_refl _) (fun _ _ => trivial) (fun _ _ => trivial)

theorem reform {view : List Part → α → Prop} (read : Refines limit starts follow parse form result)
    (forward : ∀ {run parts}, Reads form run parts → Reads other run parts)
    (back : ∀ {run parts rest}, starts (current (run ++ rest)).kind → follow (current rest).kind →
      Reads other run parts → Reads form run parts)
    (viewed : ∀ {parts value}, result parts value → view parts value) :
    Refines limit starts follow parse other view where
  sound bound start ran := by
    obtain ⟨run, parts, split, reads, value⟩ := read.sound bound start ran
    exact ⟨run, parts, split, forward reads, viewed value⟩
  complete bound start reads follows := by
    obtain ⟨value, made, ran⟩ := read.complete bound start (back start follows reads) follows
    exact ⟨value, viewed made, ran⟩
  viable bound start stopped := by
    obtain ⟨run, more, parts, split, reads⟩ := read.viable bound start stopped
    exact ⟨run, more, parts, split, forward reads⟩

theorem view {view : List Part → α → Prop} (read : Refines limit starts follow parse form result)
    (viewed : ∀ {parts value}, result parts value → view parts value) :
    Refines limit starts follow parse form view := read.reform id (fun _ _ reads => reads) viewed

theorem phrase {symbol : Symbol} {view : List Part → α → Prop}
    (read : Refines limit starts follow parse (rule symbol) result)
    (built : ∀ {parts value}, result parts value → view [.nodes (build symbol parts)] value) :
    Refines limit starts follow parse (.phrase symbol) view where
  sound bound start ran := by
    obtain ⟨run, parts, split, reads, value⟩ := read.sound bound start ran
    exact ⟨run, _, split, .phrase reads, built value⟩
  complete bound start reads follows := by
    cases reads with
    | phrase body =>
      obtain ⟨value, made, ran⟩ := read.complete bound start body follows
      exact ⟨value, built made, ran⟩
  viable bound start stopped := by
    obtain ⟨run, more, parts, split, reads⟩ := read.viable bound start stopped
    exact ⟨run, more, _, split, .phrase reads⟩

-- One reader and then another. What the second form may start with, or be followed by where it is empty, must
-- be what the first reader wants to see behind its run.
theorem bind {next : α → Parse β} {yields : α → List Part → β → Prop}
    (one : Refines limit starts middle parse first result)
    (two : ∀ value, Refines smaller anything follow (next value) second (yields value))
    (shorter : ∀ {run parts}, Reads first run parts → limit ≤ run.length + smaller)
    (leads : ∀ kind, second.Leads follow kind → middle kind) (inhabited : second.inhabited = true) :
    Refines limit starts follow (parse >>= next) (.and first second) (both result yields) where
  sound bound start ran := by
    obtain ⟨value, between, ranOne, ranTwo⟩ := bind_eq_ok_iff.mp ran
    obtain ⟨front, parts, rfl, readsOne, made⟩ := one.sound bound start ranOne
    have fits := shorter readsOne
    rw [List.length_append] at bound
    obtain ⟨back, others, rfl, readsTwo, yielded⟩ := (two value).sound (by omega) trivial ranTwo
    exact ⟨front ++ back, _, (List.append_assoc ..).symm, .and readsOne readsTwo,
      parts, value, others, rfl, made, yielded⟩
  complete bound start reads follows := by
    cases reads with
    | @and _ front parts _ back others readsOne readsTwo =>
      rw [List.append_assoc] at bound start ⊢
      obtain ⟨value, made, ranOne⟩ := one.complete bound start readsOne (leads _ (readsTwo.leads follows))
      have fits := shorter readsOne
      rw [List.length_append] at bound
      obtain ⟨final, yielded, ranTwo⟩ := (two value).complete (by omega) trivial readsTwo follows
      exact ⟨final, ⟨parts, value, others, rfl, made, yielded⟩,
        bind_eq_ok_iff.mpr ⟨value, back ++ _, ranOne, ranTwo⟩⟩
  viable bound start stopped := by
    rcases bind_eq_error_iff.mp stopped with stoppedOne | ⟨value, between, ranOne, stoppedTwo⟩
    · obtain ⟨run, more, parts, split, reads⟩ := one.viable bound start stoppedOne
      obtain ⟨back, others, readsTwo⟩ := Form.exists_reads inhabited
      refine ⟨run, more ++ back, parts ++ others, split, ?_⟩
      rw [← List.append_assoc]
      exact .and reads readsTwo
    · obtain ⟨front, parts, rfl, readsOne, made⟩ := one.sound bound start ranOne
      have fits := shorter readsOne
      rw [List.length_append] at bound
      obtain ⟨run, more, others, rfl, readsTwo⟩ := (two value).viable (by omega) trivial stoppedTwo
      refine ⟨front ++ run, more, parts ++ others, (List.append_assoc ..).symm, ?_⟩
      rw [List.append_assoc]
      exact .and readsOne readsTwo

theorem andThen {next : α → Parse β} {yields : α → List Part → β → Prop}
    (one : Refines limit starts anything parse first result)
    (two : ∀ value, Refines limit anything follow (next value) second (yields value))
    (inhabited : second.inhabited = true) :
    Refines limit starts follow (parse >>= next) (.and first second) (both result yields) :=
  one.bind two (fun _ => Nat.le_add_left ..) (fun _ _ => trivial) inhabited

theorem tokenThen {kinds : List Kind} {next : α → Parse β} {yields : α → List Part → β → Prop}
    (one : Refines (limit + 1) starts anything parse (.token kinds) result)
    (two : ∀ value, Refines limit anything follow (next value) second (yields value))
    (inhabited : second.inhabited = true) :
    Refines (limit + 1) starts follow (parse >>= next) (.and (.token kinds) second) (both result yields) :=
  one.bind two (fun reads => by cases reads; simp [Nat.add_comm]) (fun _ _ => trivial) inhabited

theorem pure (value : α) : Refines limit starts follow (Pure.pure value) .done (gives value) where
  sound _ _ ran := by
    cases ran
    exact ⟨[], [], rfl, .done, rfl, rfl⟩
  complete _ _ reads _ := by
    cases reads
    exact ⟨value, ⟨rfl, rfl⟩, rfl⟩
  viable _ _ stopped := by cases stopped

theorem peek {next : Kind → Parse α}
    (each : ∀ kind, starts kind → Refines limit (· = kind) follow (next kind) form result) :
    Refines limit starts follow (Parse.peek >>= next) form result where
  sound bound start ran := (each _ start).sound bound rfl ran
  complete bound start reads follows := (each _ start).complete bound rfl reads follows
  viable bound start stopped := (each _ start).viable bound rfl stopped

-- Stop where no run of the form can start.
theorem fail {violation : Violation} (refused : ∀ kind, starts kind → ¬ form.Leads follow kind)
    (inhabited : form.inhabited = true) : Refines limit starts follow (Parse.fail violation) form result where
  sound _ _ ran := by cases ran
  complete _ start reads follows := absurd (reads.leads follows) (refused _ start)
  viable _ _ stopped := by
    cases stopped
    obtain ⟨run, parts, reads⟩ := Form.exists_reads inhabited
    exact ⟨[], run, parts, rfl, reads⟩

theorem left (read : Refines limit starts follow parse first result)
    (apart : ∀ kind, starts kind → ¬ second.Leads follow kind) :
    Refines limit starts follow parse (.or first second) result :=
  read.reform .left (fun start follows reads => by
    cases reads with
    | left one => exact one
    | right two => exact absurd (two.leads follows) (apart _ start)) id

theorem right (read : Refines limit starts follow parse second result)
    (apart : ∀ kind, starts kind → ¬ first.Leads follow kind) :
    Refines limit starts follow parse (.or first second) result :=
  read.reform .right (fun start follows reads => by
    cases reads with
    | left one => exact absurd (one.leads follows) (apart _ start)
    | right two => exact two) id

theorem pick {forms : List Form} {kind : Kind} (read : Refines limit (· = kind) follow parse form result)
    (member : form ∈ forms) (alone : ∀ other ∈ forms, other = form ∨ kind ∉ other.first)
    (full : (∀ other ∈ forms, other.nullable = false) ∨ ¬ follow kind) :
    Refines limit (· = kind) follow parse (.any forms) result :=
  read.reform (fun reads => reads_any.mpr ⟨_, member, reads⟩) (fun start follows reads => by
    obtain ⟨other, among, reads⟩ := reads_any.mp reads
    rcases alone other among with rfl | apart
    · exact reads
    · rcases start ▸ reads.leads follows with starting | ⟨empty, same⟩
      · exact absurd starting apart
      · rcases full with full | never
        · simp [full other among] at empty
        · exact absurd same never) id

theorem bounded {loop : List Token → Parse α}
    (each : ∀ bound : List Token, bound.length ≤ limit →
      Refines bound.length starts follow (loop bound) form result) :
    Refines limit starts follow (Parse.bounded loop) form result where
  sound enough start ran := (each _ enough).sound (Nat.le_refl _) start ran
  complete enough start reads follows := (each _ enough).complete (Nat.le_refl _) start reads follows
  viable enough start stopped := (each _ enough).viable (Nat.le_refl _) start stopped

theorem of_end (read : Refines 0 (· = .endOfInput) follow parse form result) :
    Refines 0 starts follow parse form result where
  sound bound _ := by
    obtain rfl := List.eq_nil_of_length_eq_zero (Nat.le_zero.mp bound)
    exact read.sound bound rfl
  complete bound _ := by
    have empty := List.eq_nil_of_length_eq_zero (Nat.le_zero.mp bound)
    exact read.complete bound (by rw [empty]; rfl)
  viable bound _ := by
    obtain rfl := List.eq_nil_of_length_eq_zero (Nat.le_zero.mp bound)
    exact read.viable bound rfl

theorem last (read : Refines limit starts follow parse form result) :
    Refines limit starts follow parse (.and form .done) result :=
  read.reform (fun reads => reads_and_done.mpr reads) (fun _ _ reads => reads_and_done.mp reads) id

theorem map (read : Refines limit starts follow parse form result) (make : α → β) :
    Refines limit starts follow (parse >>= fun value => Pure.pure (make value)) form
      (fun parts value => ∃ made, result parts made ∧ value = make made) := by
  refine (read.bind (fun value => .pure (make value)) (fun _ => Nat.le_add_left ..) Form.leads_done rfl).reform
    (fun reads => reads_and_done.mp reads) (fun _ _ reads => reads_and_done.mpr reads) ?_
  intro _ _ laid
  obtain ⟨parts, value, _, rfl, made, rfl, rfl⟩ := laid
  exact ⟨value, by simpa using made, rfl⟩

theorem noMore (value : α) (full : form.nullable = false) (past : ∀ kind, starts kind → kind ∉ form.first) :
    Refines limit starts follow (Pure.pure value) (.many form) (gives value) :=
  (pure value).reform (fun reads => by cases reads; exact .stop) (fun {run parts rest} start _ reads => by
    rcases reads_many.mp reads with ⟨rfl, rfl⟩ | turn
    · exact .done
    · have leads : (Form.and form (.many form)).Leads anything (current (run ++ rest)).kind := turn.leads trivial
      rcases leads with starting | ⟨empty, _⟩
      · simp only [Form.first, full] at starting
        exact absurd (by simpa using starting) (past _ start)
      · simp [Form.nullable, full] at empty) id

theorem oneMore (read : Refines limit starts follow parse (.and form (.many form)) result)
    (apart : ∀ kind, starts kind → ¬ follow kind) :
    Refines limit starts follow parse (.many form) result :=
  read.reform (fun reads => reads_many.mpr (.inr reads)) (fun start follows reads => by
    rcases reads_many.mp reads with ⟨rfl, rfl⟩ | turn
    · exact absurd follows (apart _ start)
    · exact turn) id

end Refines

theorem current_advance {tokens : List Token} (live : (current tokens).kind ≠ .endOfInput) :
    tokens = current tokens :: advance tokens := by
  cases tokens with
  | nil => exact absurd rfl live
  | cons token rest =>
    have going : token.isEnd = false := by simpa [current, Token.isEnd] using live
    simp [current, advance, going]

theorem next_refines {kinds : List Kind} (inside : ∀ kind, starts kind → kind ∈ kinds)
    (live : .endOfInput ∉ kinds) :
    Refines limit starts anything Parse.next (.token kinds)
      (fun parts value => token parts value ∧ starts value.kind) where
  sound _ start ran := by
    cases ran
    have here := inside _ start
    exact ⟨[_], _, current_advance (fun ended => live (ended ▸ here)), .token here, rfl, start⟩
  complete _ start reads _ := by
    cases reads with
    | @token _ read allowed =>
      have apart : read.kind ≠ .endOfInput := fun ended => live (ended ▸ allowed)
      have going : read.isEnd = false := by simpa [Token.isEnd] using apart
      exact ⟨read, ⟨rfl, start⟩, by simp [Parse.next, current, advance, going]⟩
  viable _ _ stopped := by cases stopped

theorem expect_refines {kind : Kind} {phrase : Phrase} (live : kind ≠ .endOfInput) :
    Refines limit starts anything (expect kind phrase) (.token [kind]) token := by
  refine .peek fun found start => ?_
  split
  · next same => exact (next_refines (by simp [same]) (by simpa using live.symm)).view And.left
  · next apart => exact .fail (by intro _ rfl; simp [Form.Leads, Form.first, Form.nullable, apart]) rfl

end FishLang.Parse
