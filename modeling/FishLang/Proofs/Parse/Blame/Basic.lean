import FishLang.Proofs.Grammar.Expansion
import FishLang.Proofs.Parse.Refines

namespace FishLang

def Grammar.Choice.violation (kind : Kind) : Choice → Violation
  | .items => if kind = .endOfInput then .missing (.mark .rightBrace) .block else .inBlock
  | .declarationTail => .inDeclaration
  | .params => .inParameters
  | .otherwise => .afterWhen
  | .lastly => .afterAttempt
  | .forkInitializer => .forkInitializer
  | .forkCondition => .forkCondition
  | .forkStep => .forkStep
  | .arguments => .noExpression

namespace Parse

open Grammar

-- No run of the form goes on with the token, and none ends before it where it could follow.
structure Barred (form : Form) (after : Kind → Prop) (front : List Token) (token : Token) : Prop where
  inside : ∀ more parts, ¬ Reads form (front ++ token :: more) parts
  behind : ∀ parts, Reads form front parts → ¬ after token.kind

-- The choice to blame where one is awaited: that one, unless a further item is awaited behind a statement whose
-- last part may be still to come.
structure Charged (choice : Choice) (form : Form) (front : List Token) (kind : Kind) (blamed : Choice) : Prop where
  awaited : Awaits blamed.symbol form front
  refused : kind ∉ blamed.symbol.admitted
  instead : blamed = choice ∨ choice = .items ∧ (blamed = .otherwise ∨ blamed = .lastly)

structure Blames {α : Type} (limit : Nat) (starts after : Kind → Prop) (parse : Parse α) (form : Form) : Prop where
  stops : ∀ {choice : Choice} {front rest : List Token}, (front ++ rest).length ≤ limit →
    starts (current (front ++ rest)).kind → Awaits choice.symbol form front →
    Barred form after front (current rest) →
    ∃ blamed, Charged choice form front (current rest).kind blamed ∧
      parse (front ++ rest) = .error ⟨blamed.violation (current rest).kind, rest⟩

def AwaitsLast (form : Form) (front : List Token) : Prop :=
  ∃ last : Choice, (last = .otherwise ∨ last = .lastly) ∧ Awaits last.symbol form front

abbrev nothing : Kind → Prop := fun _ => False

variable {α β : Type} {limit smaller : Nat} {starts middle inner after : Kind → Prop}
  {form other : Form} {parse : Parse α} {result : List Part → α → Prop} {choice blamed : Choice}
  {front one two : List Token} {token : Token}

theorem Charged.mono (charged : Charged choice form front kind blamed)
    (wider : Awaits blamed.symbol form front → Awaits blamed.symbol other one) :
    Charged choice other one kind blamed :=
  { charged with awaited := wider charged.awaited }

theorem AwaitsLast.mono (awaits : AwaitsLast form front)
    (wider : ∀ {symbol}, Awaits symbol form front → Awaits symbol other one) : AwaitsLast other one := by
  obtain ⟨last, either, awaits⟩ := awaits
  exact ⟨last, either, wider awaits⟩

theorem Charged.of_last {last : Choice} (charged : Charged last form front kind blamed)
    (either : last = .otherwise ∨ last = .lastly) : Charged .items form front kind blamed := by
  have same : blamed = last := by
    rcases charged.instead with same | ⟨rfl, _⟩
    · exact same
    · rcases either with never | never <;> cases never
  exact { charged with instead := .inr ⟨rfl, same ▸ either⟩ }

namespace Barred

theorem mono (barred : Barred form after front token)
    (wider : ∀ {run parts}, Reads other run parts → ∃ parts, Reads form run parts) :
    Barred other after front token where
  inside more _ reads := by
    obtain ⟨parts, reads⟩ := wider reads
    exact barred.inside more parts reads
  behind _ reads := by
    obtain ⟨parts, reads⟩ := wider reads
    exact barred.behind parts reads

theorem weaken {later : Kind → Prop} (barred : Barred form after front token)
    (fewer : ∀ kind, later kind → after kind) : Barred form later front token where
  inside := barred.inside
  behind parts reads follows := barred.behind parts reads (fewer _ follows)

theorem opening (barred : Barred (.and first second) after front token)
    (closes : ∀ kind, inner kind → second.starts kind = true) (inhabited : second.inhabited = true) :
    Barred first inner front token where
  inside more parts reads := by
    obtain ⟨back, others, readsTwo⟩ := Form.exists_reads inhabited
    refine barred.inside (more ++ back) (parts ++ others) ?_
    simpa using Reads.and reads readsTwo
  behind parts reads follows := by
    obtain ⟨more, others, readsTwo⟩ := Form.reads_of_starts (closes _ follows)
    exact barred.inside more (parts ++ others) (.and reads readsTwo)

theorem closing (barred : Barred (.and first second) after (one ++ two) token) (reads : Reads first one parts) :
    Barred second after two token where
  inside more others readsTwo := by
    refine barred.inside more (parts ++ others) ?_
    simpa using Reads.and reads readsTwo
  behind others readsTwo := barred.behind (parts ++ others) (.and reads readsTwo)

theorem not_admitted {symbol : Symbol} (barred : Barred (.phrase symbol) (· ∈ symbol.follow) [] token) :
    token.kind ∉ symbol.admitted := by
  intro admitted
  rcases List.mem_append.mp admitted with starting | follows
  · obtain ⟨more, parts, reads⟩ := Symbol.reads_of_first starting
    exact barred.inside more parts reads
  · split at follows
    · next nullable =>
      obtain ⟨parts, reads⟩ := Symbol.reads_nil nullable
      exact barred.behind parts reads follows
    · cases follows

end Barred

namespace Blames

theorem congr {same : Parse α} (read : Blames limit starts after parse form)
    (equal : ∀ tokens, tokens.length ≤ limit → starts (current tokens).kind → same tokens = parse tokens) :
    Blames limit starts after same form := by
  refine ⟨fun {choice front rest} fits start awaits barred => ?_⟩
  rw [equal _ fits start]
  exact read.stops fits start awaits barred

theorem weaken {later begins : Kind → Prop} (read : Blames limit starts after parse form)
    (shorter : smaller ≤ limit) (narrower : ∀ kind, begins kind → starts kind)
    (wider : ∀ kind, after kind → later kind) : Blames smaller begins later parse form :=
  ⟨fun fits start awaits barred =>
    read.stops (Nat.le_trans fits shorter) (narrower _ start) awaits (barred.weaken wider)⟩

theorem anywhere (read : Blames limit anything nothing parse form) : Blames limit starts after parse form :=
  read.weaken (Nat.le_refl _) (fun _ _ => trivial) (fun _ never => never.elim)

theorem within (read : Blames limit starts after parse form) {rest : List Token}
    (fits : (front ++ rest).length ≤ limit) (start : starts (current (front ++ rest)).kind)
    (awaits : Awaits choice.symbol form front) (barred : Barred other after front (current rest))
    (outward : ∀ {symbol}, Awaits symbol form front → Awaits symbol other front)
    (wider : ∀ {run parts}, Reads form run parts → ∃ parts, Reads other run parts) :
    ∃ blamed, Charged choice other front (current rest).kind blamed ∧
      parse (front ++ rest) = .error ⟨blamed.violation (current rest).kind, rest⟩ := by
  obtain ⟨blamed, charged, stopped⟩ := read.stops fits start awaits (barred.mono wider)
  exact ⟨blamed, charged.mono outward, stopped⟩

theorem reform (read : Blames limit starts after parse form)
    (awaited : ∀ {symbol front}, Awaits symbol other front ↔ Awaits symbol form front)
    (wider : ∀ {run parts}, Reads form run parts → Reads other run parts) :
    Blames limit starts after parse other :=
  ⟨fun fits start awaits barred =>
    read.within fits start (awaited.mp awaits) barred awaited.mpr fun reads => ⟨_, wider reads⟩⟩

theorem plain (plain : form.plain = true) : Blames limit starts after parse form :=
  ⟨fun _ _ awaits => absurd awaits (Form.not_awaits plain)⟩

-- Where no run of the form starts with the token at hand, no choice is awaited behind it.
theorem idle {kind : Kind} (closed : form.opens = false) (past : kind ∉ form.first) :
    Blames limit (· = kind) after parse form := by
  refine ⟨fun {choice front rest} _ start awaits _ => ?_⟩
  cases front with
  | nil => cases closed.symm.trans (awaits.starts.1 rfl)
  | cons token front =>
    obtain rfl : token.kind = kind := start
    exact absurd (awaits.starts.2 token rfl) past

theorem phrase {symbol : Symbol} (read : Blames limit starts after parse (rule symbol))
    (closed : (Form.phrase symbol).opens = false) : Blames limit starts after parse (.phrase symbol) := by
  refine ⟨fun {choice front rest} fits start awaits barred => ?_⟩
  rcases awaits_phrase.mp awaits with ⟨_, rfl⟩ | inside
  · cases closed.symm.trans (awaits.starts.1 rfl)
  · exact read.within fits start inside barred (fun inside => awaits_phrase.mpr (.inr inside))
      fun reads => ⟨_, .phrase reads⟩

theorem choose (choice : Choice)
    (read : Blames limit starts (· ∈ choice.symbol.follow) parse (rule choice.symbol))
    (refuses : ∀ tokens, (current tokens).kind ∉ choice.symbol.admitted →
      parse tokens = .error ⟨choice.violation (current tokens).kind, tokens⟩) :
    Blames limit starts (· ∈ choice.symbol.follow) parse (.phrase choice.symbol) := by
  refine ⟨fun {awaited front rest} fits start awaits barred => ?_⟩
  rcases awaits_phrase.mp awaits with ⟨same, rfl⟩ | inside
  · obtain rfl := Choice.symbol_injective same
    have refused := barred.not_admitted
    exact ⟨awaited, ⟨awaits, refused, .inl rfl⟩, refuses rest refused⟩
  · exact read.within fits start inside barred (fun inside => awaits_phrase.mpr (.inr inside))
      fun reads => ⟨_, .phrase reads⟩

theorem peek {next : Kind → Parse α}
    (each : ∀ kind, starts kind → Blames limit (· = kind) after (next kind) form) :
    Blames limit starts after (Parse.peek >>= next) form :=
  ⟨fun fits start awaits barred => (each _ start).stops fits rfl awaits barred⟩

theorem before (read : Blames limit starts after parse form) (next : α → Parse β) :
    Blames limit starts after (parse >>= next) form := by
  refine ⟨fun {choice front rest} fits start awaits barred => ?_⟩
  obtain ⟨blamed, charged, stopped⟩ := read.stops fits start awaits barred
  exact ⟨blamed, charged, bind_eq_error_iff.mpr (.inl stopped)⟩

-- Of two readers the first one may stop,
theorem inFirst (read : Blames limit starts inner parse first) (next : α → Parse β) {rest : List Token}
    (fits : (front ++ rest).length ≤ limit) (start : starts (current (front ++ rest)).kind)
    (awaits : Awaits choice.symbol first front) (barred : Barred (.and first second) after front (current rest))
    (closes : ∀ kind, inner kind → second.starts kind = true) (inhabited : second.inhabited = true) :
    ∃ blamed, Charged choice (.and first second) front (current rest).kind blamed ∧
      (parse >>= next) (front ++ rest) = .error ⟨blamed.violation (current rest).kind, rest⟩ := by
  obtain ⟨blamed, charged, stopped⟩ := (read.before next).stops fits start awaits (barred.opening closes inhabited)
  exact ⟨blamed, charged.mono fun awaits => awaits_and.mpr (.inl awaits), stopped⟩

-- or the second one, where the first one is past its run.
theorem inSecond {next : α → Parse β} {value : α} {rest : List Token}
    (read : Blames smaller anything after (next value) second) (short : (two ++ rest).length ≤ smaller)
    (awaits : Awaits choice.symbol second two) (barred : Barred (.and first second) after (one ++ two) (current rest))
    (reads : Reads first one parts) (ran : parse (one ++ (two ++ rest)) = .ok (value, two ++ rest)) :
    ∃ blamed, Charged choice (.and first second) (one ++ two) (current rest).kind blamed ∧
      (parse >>= next) (one ++ two ++ rest) = .error ⟨blamed.violation (current rest).kind, rest⟩ := by
  obtain ⟨blamed, charged, stopped⟩ := read.stops short trivial awaits (barred.closing reads)
  refine ⟨blamed, charged.mono fun awaits => awaits_and.mpr (.inr ⟨_, _, _, rfl, reads, awaits⟩), ?_⟩
  rw [List.append_assoc]
  exact bind_eq_error_iff.mpr (.inr ⟨value, _, ran, stopped⟩)

theorem thenPlain (read : Blames limit starts inner parse first) (next : α → Parse β)
    (plain : second.plain = true) (closes : ∀ kind, inner kind → second.starts kind = true)
    (inhabited : second.inhabited = true) : Blames limit starts after (parse >>= next) (.and first second) :=
  ⟨fun fits start awaits barred =>
    read.inFirst next fits start ((awaits_and_plain plain).mp awaits) barred closes inhabited⟩

-- One reader and then another. The first one is past its run where the second one is behind it; where a choice is
-- awaited at once behind the run, that has to be known of the first reader, or else a choice is awaited in it too.
theorem bind {next : α → Parse β} (read : Refines limit starts middle parse first result)
    (ahead : Blames limit starts inner parse first)
    (behind : ∀ value, Blames smaller anything after (next value) second)
    (shorter : ∀ {run parts}, Reads first run parts → limit ≤ run.length + smaller)
    (leads : ∀ kind ∈ second.first, middle kind)
    (settles : ∀ {choice : Choice} {run rest parts}, (run ++ rest).length ≤ limit →
      starts (current (run ++ rest)).kind → Awaits choice.symbol second [] → Reads first run parts →
        (∃ value, parse (run ++ rest) = .ok (value, rest)) ∨ choice = .items ∧ AwaitsLast first run)
    (closes : ∀ kind, inner kind → second.starts kind = true) (inhabited : second.inhabited = true) :
    Blames limit starts after (parse >>= next) (.and first second) := by
  refine ⟨fun {choice front rest} fits start awaits barred => ?_⟩
  rcases awaits_and.mp awaits with awaits | ⟨run, back, parts, rfl, reads, awaits⟩
  · exact ahead.inFirst next fits start awaits barred closes inhabited
  have short : (back ++ rest).length ≤ smaller := by
    have long := shorter reads
    rw [List.append_assoc, List.length_append] at fits
    omega
  cases back with
  | cons token back =>
    rw [List.append_assoc] at fits start
    obtain ⟨value, _, ran⟩ := read.complete fits start reads (leads _ (awaits.starts.2 token rfl))
    exact (behind value).inSecond short awaits barred reads ran
  | nil =>
    rw [List.append_nil] at fits start
    rcases settles fits start awaits reads with ⟨value, ran⟩ | ⟨rfl, last, either, waiting⟩
    · exact (behind value).inSecond short awaits barred reads ran
    · rw [List.append_nil] at barred ⊢
      obtain ⟨blamed, charged, stopped⟩ := ahead.inFirst next fits start waiting barred closes inhabited
      exact ⟨blamed, charged.of_last either, stopped⟩

theorem andThen {next : α → Parse β} (read : Refines limit starts anything parse first result)
    (ahead : Blames limit starts nothing parse first)
    (behind : ∀ value, Blames limit anything after (next value) second) (inhabited : second.inhabited = true) :
    Blames limit starts after (parse >>= next) (.and first second) :=
  bind read ahead behind (fun _ => Nat.le_add_left ..) (fun _ _ => trivial) (fun fits start _ reads => by
    obtain ⟨value, _, ran⟩ := read.complete fits start reads trivial
    exact .inl ⟨value, ran⟩) (fun _ never => never.elim) inhabited

theorem plainThen {next : α → Parse β} (read : Refines limit starts anything parse first result)
    (plain : first.plain = true) (behind : ∀ value, Blames limit anything after (next value) second)
    (inhabited : second.inhabited = true) : Blames limit starts after (parse >>= next) (.and first second) :=
  andThen read (.plain plain) behind inhabited

theorem tokenThen {kinds : List Kind} {next : α → Parse β}
    (read : Refines (limit + 1) starts anything parse (.token kinds) result)
    (behind : ∀ value, Blames limit anything after (next value) second) (inhabited : second.inhabited = true) :
    Blames (limit + 1) starts after (parse >>= next) (.and (.token kinds) second) :=
  bind read (.plain rfl) behind (fun reads => by cases reads; simp [Nat.add_comm]) (fun _ _ => trivial)
    (fun fits start _ reads => by
      obtain ⟨value, _, ran⟩ := read.complete fits start reads trivial
      exact .inl ⟨value, ran⟩) (fun _ (never : False) => never.elim) inhabited

theorem closedThen {next : α → Parse β} (read : Refines limit starts middle parse first result)
    (ahead : Blames limit starts inner parse first)
    (behind : ∀ value, Blames limit anything after (next value) second)
    (leads : ∀ kind ∈ second.first, middle kind) (closed : second.opens = false)
    (closes : ∀ kind, inner kind → second.starts kind = true) (inhabited : second.inhabited = true) :
    Blames limit starts after (parse >>= next) (.and first second) :=
  bind read ahead behind (fun _ => Nat.le_add_left ..) leads
    (fun _ _ awaits _ => by cases closed.symm.trans (awaits.starts.1 rfl)) closes inhabited

theorem last (read : Blames limit starts after parse form) : Blames limit starts after parse (.and form .done) :=
  read.reform awaits_and_done fun reads => reads_and_done.mpr reads

theorem either (one : Blames limit starts after parse first) (two : Blames limit starts after parse second) :
    Blames limit starts after parse (.or first second) := by
  refine ⟨fun {choice front rest} fits start awaits barred => ?_⟩
  rcases awaits_or.mp awaits with awaits | awaits
  · exact one.within fits start awaits barred (fun awaits => awaits_or.mpr (.inl awaits))
      fun reads => ⟨_, .left reads⟩
  · exact two.within fits start awaits barred (fun awaits => awaits_or.mpr (.inr awaits))
      fun reads => ⟨_, .right reads⟩

theorem left {kind : Kind} (read : Blames limit (· = kind) after parse first) (closed : second.opens = false)
    (apart : kind ∉ second.first) : Blames limit (· = kind) after parse (.or first second) :=
  either read (idle closed apart)

theorem right {kind : Kind} (read : Blames limit (· = kind) after parse second) (closed : first.opens = false)
    (apart : kind ∉ first.first) : Blames limit (· = kind) after parse (.or first second) :=
  either (idle closed apart) read

theorem pick {forms : List Form} {kind : Kind} (form : Form) (read : Blames limit (· = kind) after parse form)
    (member : form ∈ forms) (alone : ∀ other ∈ forms, other = form ∨ kind ∉ other.first)
    (closed : ∀ other ∈ forms, other.opens = false) : Blames limit (· = kind) after parse (.any forms) := by
  refine ⟨fun {choice front rest} fits start awaits barred => ?_⟩
  obtain ⟨other, among, awaits⟩ := awaits_any.mp awaits
  have taken : Blames limit (· = kind) after parse other := by
    rcases alone other among with rfl | apart
    · exact read
    · exact idle (closed other among) apart
  exact taken.within fits start awaits barred (fun awaits => awaits_any.mpr ⟨other, among, awaits⟩)
    fun reads => ⟨_, reads_any.mpr ⟨other, among, reads⟩⟩

theorem oneMore (read : Blames limit starts after parse (.and form (.many form))) :
    Blames limit starts after parse (.many form) :=
  read.reform awaits_many fun reads => reads_many.mpr (.inr reads)

theorem bounded {loop : List Token → Parse α}
    (each : ∀ bound : List Token, bound.length ≤ limit → Blames bound.length starts after (loop bound) form) :
    Blames limit starts after (Parse.bounded loop) form :=
  ⟨fun fits start awaits barred => (each _ fits).stops (Nat.le_refl _) start awaits barred⟩

theorem of_end (read : Blames 0 (· = .endOfInput) after parse form) : Blames 0 starts after parse form := by
  refine ⟨fun {choice front rest} fits start awaits barred => ?_⟩
  refine read.stops fits ?_ awaits barred
  rw [List.eq_nil_of_length_eq_zero (Nat.le_zero.mp fits)]
  rfl

end Blames

-- A reader gets past every run of the form, whatever stands behind it, or else a last part of a statement may be
-- still to come there.
structure Halts {α : Type} (limit : Nat) (starts : Kind → Prop) (parse : Parse α) (form : Form) : Prop where
  halts : ∀ {run rest parts}, (run ++ rest).length ≤ limit → starts (current (run ++ rest)).kind →
    Reads form run parts → (∃ value, parse (run ++ rest) = .ok (value, rest)) ∨ AwaitsLast form run

namespace Halts

theorem of_refines (read : Refines limit starts anything parse form result) : Halts limit starts parse form where
  halts fits start reads := by
    obtain ⟨value, _, ran⟩ := read.complete fits start reads trivial
    exact .inl ⟨value, ran⟩

theorem idle {kind : Kind} (full : form.nullable = false) (past : kind ∉ form.first) :
    Halts limit (· = kind) parse form where
  halts {run rest _} _ start reads := by
    have leads : form.Leads anything (current (run ++ rest)).kind := reads.leads trivial
    exact absurd leads (start ▸ Form.not_leads past full)

theorem phrase {symbol : Symbol} (read : Halts limit starts parse (rule symbol)) :
    Halts limit starts parse (.phrase symbol) where
  halts fits start reads := by
    cases reads with
    | phrase body =>
      have past := read.halts fits start body
      exact past.imp_right fun waiting => waiting.mono fun awaits => awaits_phrase.mpr (.inr awaits)

theorem peek {next : Kind → Parse α} (each : ∀ kind, starts kind → Halts limit (· = kind) (next kind) form) :
    Halts limit starts (Parse.peek >>= next) form :=
  ⟨fun fits start reads => (each _ start).halts fits rfl reads⟩

theorem map (read : Halts limit starts parse form) (make : α → β) :
    Halts limit starts (parse >>= fun value => Pure.pure (make value)) form where
  halts fits start reads := by
    refine (read.halts fits start reads).imp_left fun ⟨value, ran⟩ => ?_
    exact ⟨make value, bind_eq_ok_iff.mpr ⟨value, _, ran, rfl⟩⟩

theorem last (read : Halts limit starts parse form) : Halts limit starts parse (.and form .done) where
  halts fits start reads := by
    have past := read.halts fits start (reads_and_done.mp reads)
    exact past.imp_right fun waiting => waiting.mono awaits_and_done.mpr

theorem andThen {next : α → Parse β} (read : Refines limit starts anything parse first result)
    (behind : ∀ value, Halts limit anything (next value) second) :
    Halts limit starts (parse >>= next) (.and first second) where
  halts {run rest _} fits start reads := by
    obtain ⟨one, two, ahead, others, rfl, rfl, readsOne, readsTwo⟩ := reads_and.mp reads
    rw [List.append_assoc] at fits start ⊢
    obtain ⟨value, _, ran⟩ := read.complete fits start readsOne trivial
    have short : (two ++ rest).length ≤ limit := by
      rw [List.length_append] at fits
      omega
    rcases (behind value).halts short trivial readsTwo with ⟨final, ran'⟩ | waiting
    · exact .inl ⟨final, bind_eq_ok_iff.mpr ⟨value, _, ran, ran'⟩⟩
    · exact .inr (waiting.mono fun awaits => awaits_and.mpr (.inr ⟨_, _, _, rfl, readsOne, awaits⟩))

theorem pick {forms : List Form} {kind : Kind} (form : Form) (read : Halts limit (· = kind) parse form)
    (alone : ∀ other ∈ forms, other = form ∨ kind ∉ other.first) (full : ∀ other ∈ forms, other.nullable = false) :
    Halts limit (· = kind) parse (.any forms) where
  halts fits start reads := by
    obtain ⟨other, among, reads⟩ := reads_any.mp reads
    have taken : Halts limit (· = kind) parse other := by
      rcases alone other among with rfl | apart
      · exact read
      · exact idle (full other among) apart
    have past := taken.halts fits start reads
    exact past.imp_right fun waiting => waiting.mono fun awaits => awaits_any.mpr ⟨other, among, awaits⟩

end Halts

end Parse

end FishLang
