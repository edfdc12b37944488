import FishLang.CommandLine.Plan
import FishLang.Proofs.Analysis.Message
import FishLang.Proofs.Text.SourceMap
import FishLang.Proofs.Text.Terminal

namespace FishLang

-- Whole lines.
def Ended (cs : List Char) : Prop := cs = [] ∨ ∃ front, cs = front ++ ['\n']

theorem Ended.append (one : Ended front) (two : Ended back) : Ended (front ++ back) := by
  rcases two with rfl | ⟨lines, rfl⟩
  · rwa [List.append_nil]
  · exact .inr ⟨front ++ lines, (List.append_assoc ..).symm⟩

theorem Ended.behind (ended : Ended back) (some : back ≠ []) (front : List Char) : Ended (front ++ back) := by
  obtain ⟨lines, rfl⟩ := ended.resolve_left some
  exact .inr ⟨front ++ lines, (List.append_assoc ..).symm⟩

-- What a line that tells an error starts with.
def errorHead : String := "[ERROR fishc] "

-- The message of a line that tells an error.
def errorOf? (line : List Char) : Option String :=
  if errorHead.toList <+: line then some (.ofList (line.drop errorHead.toList.length)) else none

-- The messages of the errors that a log tells, one line after the other.
def logged (log : List Char) : List String := (splitLines log).filterMap errorOf?

theorem logged_append {front : List Char} (ended : Ended front) (back : List Char) :
    logged (front ++ back) = logged front ++ logged back := by
  have nothing : errorOf? [] = none := rfl
  rcases ended with rfl | ⟨lines, rfl⟩
  · simp [logged, splitLines, nothing]
  · rw [List.append_assoc, List.singleton_append]
    simp [logged, splitLines_append_line, splitLines, nothing]

theorem logged_line {line : List Char} (single : '\n' ∉ line) : logged (line ++ ['\n']) = (errorOf? line).toList := by
  have nothing : errorOf? [] = none := rfl
  rw [logged, splitLines_append_newline single, splitLines, List.filterMap_cons, List.filterMap_cons, nothing]
  cases errorOf? line <;> rfl

theorem logged_other {line : List Char} (single : '\n' ∉ line) (other : ∀ c ∈ line.head?, c ≠ '[') :
    logged (line ++ ['\n']) = [] := by
  have apart : ¬ errorHead.toList <+: line := by
    rintro ⟨rest, rfl⟩
    exact other '[' rfl rfl
  rw [logged_line single, errorOf?, if_neg apart]
  rfl

theorem Calm.logged {log : List Char} (calm : Calm True log) : logged log = [] := by
  refine List.filterMap_eq_nil_iff.mpr fun line among => if_neg fun head => calm.not_error line among ?_
  exact .trans (by decide) head

namespace Entry

def written (entries : List Entry) : List Char := entries.flatMap fun entry => entry.render.toList

theorem written_append (entries others : List Entry) :
    written (entries ++ others) = written entries ++ written others :=
  List.flatMap_append

-- The entries are written as whole lines, which tell the errors.
structure Tells (entries : List Entry) (errors : List String) : Prop where
  ended : Ended (written entries)
  logged : FishLang.logged (written entries) = errors

theorem tells_nil : Tells [] [] := ⟨.inl rfl, rfl⟩

theorem Tells.append (one : Tells entries errors) (two : Tells others more) :
    Tells (entries ++ others) (errors ++ more) := by
  refine ⟨?_, ?_⟩
  · rw [written_append]
    exact one.ended.append two.ended
  · rw [written_append, logged_append one.ended, one.logged, two.logged]

theorem written_singleton (entry : Entry) : written [entry] = entry.render.toList := by
  simp [written]

def logHead (level : Level) (origin : Origin) : List Char := ("[" ++ level.tag ++ " " ++ origin.path ++ "] ").toList

theorem printed_head (level : Level) (origin : Origin) : Printed (logHead level origin) := by
  cases level <;> cases origin <;> decide +kernel

theorem toList_log (level : Level) (origin : Origin) (message : String) :
    (render (.log level origin message)).toList =
      Terminal.plain .text (logHead level origin ++ ((hang message).toList ++ ['\n'])) := by
  rw [render, String.toList_ofList]
  simp only [logHead, String.toList_append, List.append_assoc, toList_newline]

theorem hang_single {message : String} (single : '\n' ∉ message.toList) : hang message = message := by
  have same : message.toList.flatMap (fun c => if c = '\n' then '\n' :: List.replicate 4 ' ' else [c]) =
      message.toList := by
    generalize message.toList = cs at single
    induction cs with
    | nil => rfl
    | cons c cs ih =>
      obtain ⟨other, single⟩ := not_or.mp (List.mem_cons.not.mp single)
      rw [List.flatMap_cons, if_neg (Ne.symm other), ih single]
      rfl
  rw [hang, same, String.ofList_toList]

theorem toList_log_printed (level : Level) (origin : Origin) {message : String} (printed : Printed message.toList) :
    (render (.log level origin message)).toList = logHead level origin ++ message.toList ++ ['\n'] := by
  rw [toList_log, hang_single printed.single, ← List.append_assoc]
  exact (printed_append.mpr ⟨printed_head level origin, printed⟩).plain_line

theorem ended_log (level : Level) (origin : Origin) {message : String} (printed : Printed message.toList) :
    Ended (written [.log level origin message]) := by
  rw [written_singleton]
  exact .inr ⟨_, toList_log_printed level origin printed⟩

theorem tells_error {message : String} (printed : Printed message.toList) :
    Tells [.log .error .command message] [message] := by
  have head : logHead .error .command = errorHead.toList := by decide +kernel
  have single := (printed_append.mpr ⟨printed_head .error .command, printed⟩).single
  refine ⟨ended_log _ _ printed, ?_⟩
  rw [written_singleton, toList_log_printed _ _ printed, logged_line single, head, errorOf?,
    if_pos (List.prefix_append ..), List.drop_left, String.ofList_toList]
  rfl

theorem padded_number (line : Nat) : ∀ c ∈ (padLeft 5 (toString line)).toList, c ≠ '\n' ∧ c ≠ '[' := by
  have digits : (toString line).toList = Nat.toDigits 10 line := Nat.toList_repr
  rw [padLeft, String.toList_append, digits, String.toList_ofList]
  intro c among
  rcases List.mem_append.mp among with blank | inside
  · rw [List.eq_of_mem_replicate blank]
    decide
  · have digit : c.isDigit = true := Nat.isDigit_of_mem_toDigits (by decide) (Nat.le_refl 10) inside
    constructor <;> rintro rfl <;> exact absurd digit (by decide)

-- An echoed line starts with its number.
theorem tells_echo (line : Nat) {text : String} (single : '\n' ∉ text.toList) : Tells [.echo line text] [] := by
  have number := padded_number line
  obtain ⟨first, others, split⟩ : ∃ first others, (padLeft 5 (toString line)).toList = first :: others :=
    List.exists_cons_of_ne_nil (by simp [padLeft])
  have rendered : written [.echo line text] = (padLeft 5 (toString line) ++ " | " ++ text).toList ++ ['\n'] := by
    rw [written_singleton, render, String.toList_append, toList_newline]
  have lone : '\n' ∉ (padLeft 5 (toString line) ++ " | " ++ text).toList := by
    rw [String.toList_append, String.toList_append]
    have plain : '\n' ∉ (padLeft 5 (toString line)).toList := fun among => (number _ among).1 rfl
    exact List.not_mem_append (List.not_mem_append plain (by decide)) single
  have other : ∀ c ∈ (padLeft 5 (toString line) ++ " | " ++ text).toList.head?, c ≠ '[' := by
    rw [String.toList_append, String.toList_append, split]
    rintro _ ⟨⟩
    exact (number first (split ▸ List.mem_cons_self ..)).2
  refine ⟨.inr ⟨_, rendered⟩, ?_⟩
  rw [rendered, logged_other lone other]

theorem hung_hang (message : String) : Hung ((hang message).toList ++ ['\n']) := by
  rw [hang, String.toList_ofList]
  induction message.toList with
  | nil => exact ⟨fun _ => nofun, trivial⟩
  | cons c cs ih =>
    have blanks : '\n' ∉ List.replicate 4 ' ' := by simp
    rw [List.flatMap_cons, List.append_assoc]
    split
    · exact ⟨fun _ => by simp, (hung_append blanks).mpr ih⟩
    · next other => exact (hung_append (by simpa using Ne.symm other)).mpr ih

theorem tag_letter {level : Level} (other : level ≠ .error) :
    ∃ letter rest, level.tag.toList = letter :: rest ∧ letter ≠ 'E' ∧ Terminal.isShown letter = true := by
  cases level with
  | error => exact absurd rfl other
  | warn | info | debug | trace => exact ⟨_, _, rfl, by decide, by decide⟩

-- No message makes a line that tells an error out of another entry.
theorem calm_log {level : Level} (other : level ≠ .error) (origin : Origin) (message : String) :
    Calm True (render (.log level origin message)).toList ∧
      (render (.log level origin message)).toList.head? = some '[' := by
  obtain ⟨letter, tag, split, apart, shown⟩ := tag_letter other
  have head : logHead level origin = '[' :: letter :: (tag ++ ' ' :: (origin.path.toList ++ [']', ' '])) := by
    simp [logHead, split]
  have hung : Hung (logHead level origin ++ ((hang message).toList ++ ['\n'])) :=
    (hung_append (printed_head level origin).single).mpr (hung_hang message)
  have calm := Terminal.calm_plain hung .text
  rw [toList_log]
  rw [head, List.cons_append, List.cons_append, Terminal.plain_cons rfl, Terminal.plain_cons shown] at calm ⊢
  exact ⟨calm.restart fun ⟨_, same⟩ => apart (Option.some.inj same), rfl⟩

-- Nothing but what goes on beside errors, of which no level below the third is told.
def Aside : Entry → Prop
  | .log level .. => 2 ≤ level.rank
  | .echo .. => False

theorem calm_asides {entries : List Entry} (asides : ∀ entry ∈ entries, entry.Aside) :
    Calm True (written entries) := by
  refine calm_flatMap fun entry among => ?_
  have aside := asides entry among
  cases entry with
  | echo line text => exact aside.elim
  | log level origin message =>
    refine calm_log ?_ origin message
    rintro rfl
    exact absurd aside (by simp [Aside, Level.rank])

theorem tells_echo? (text : String) (line : Nat) : Tells (echo? text line) [] := by
  rw [echo?]
  cases found : lineAt? text line with
  | none => exact tells_nil
  | some shown =>
    refine tells_echo line ?_
    cases line with
    | zero => cases found
    | succ n =>
      rw [lineAt?, SourceMap.line?_succ] at found
      obtain ⟨cs, there, rfl⟩ := Option.map_eq_some_iff.mp found
      rw [String.toList_ofList]
      exact single_of_mem_splitLines (List.mem_of_getElem? there)

theorem tells_diagnostics (text : String) {diagnostics : List Diagnostic}
    (printed : ∀ diagnostic ∈ diagnostics, Printed diagnostic.render.toList) :
    Tells (diagnostics.flatMap (ofDiagnostic text)) (diagnostics.map Diagnostic.render) := by
  induction diagnostics with
  | nil => exact tells_nil
  | cons diagnostic rest ih =>
    obtain ⟨first, others⟩ := List.forall_mem_cons.mp printed
    have here : Tells (ofDiagnostic text diagnostic) [diagnostic.render] :=
      (tells_error first).append (tells_echo? text diagnostic.line)
    exact here.append (ih others)

theorem shown_ofDiagnostic (last : Level) (text : String) (diagnostic : Diagnostic) :
    ∀ entry ∈ ofDiagnostic text diagnostic, shown last entry = true := by
  refine List.forall_mem_cons.mpr ⟨by simp [shown, Level.rank], fun entry echoed => ?_⟩
  obtain ⟨line, _, rfl⟩ := List.mem_map.mp echoed
  rfl

def Legible : Entry → Prop
  | .log _ _ message => Printed message.toList
  | .echo .. => False

theorem ended_legible {entries : List Entry} (legible : ∀ entry ∈ entries, entry.Legible) :
    Ended (written entries) := by
  induction entries with
  | nil => exact .inl rfl
  | cons entry rest ih =>
    obtain ⟨here, others⟩ := List.forall_mem_cons.mp legible
    cases entry with
    | echo line text => exact here.elim
    | log level origin message =>
      rw [← List.singleton_append, written_append]
      exact (ended_log level origin here).append (ih others)

section Front

variable (options : Options) (tokens : List Token) (node : Node)

theorem asides_opened : ∀ entry ∈ opening options ++ ofTokens tokens, entry.Aside := by
  simp [opening, ofTokens, Aside, Level.rank, or_imp, forall_and]

theorem asides_parsing : ∀ entry ∈ parsing tokens, entry.Aside := by
  simp [parsing, Aside, Level.rank]

theorem asides_front :
    ∀ entry ∈ opening options ++ ofTokens tokens ++ parsing tokens ++ checking node, entry.Aside := by
  have visits : ∀ entry ∈ checking node, entry.Aside := by
    simp [checking, Aside, Level.rank, or_imp, forall_and]
  have parsed := List.forall_mem_append.mpr ⟨asides_opened options tokens, asides_parsing tokens⟩
  exact List.forall_mem_append.mpr ⟨parsed, visits⟩

theorem legible_parsing : ∀ entry ∈ parsing tokens ++ checking node, entry.Legible := by
  have label (kind : Node.Kind) : Printed kind.label.toList := by cases kind <;> decide
  simp only [parsing, checking, List.forall_mem_append, List.forall_mem_cons, List.forall_mem_map, Legible,
    List.not_mem_nil, IsEmpty.forall_iff, implies_true, String.toList_append, printed_append, printed_number, label,
    and_true]
  exact ⟨⟨by decide, by decide⟩, ⟨by decide, fun _ _ => by decide⟩, by decide⟩

-- What is said before the diagnostics ends with its line, however much of it is shown.
theorem ended_front (last : Level) :
    Ended (written ((opening options ++ ofTokens tokens ++ parsing tokens ++ checking node).filter (shown last))) := by
  by_cases loud : 2 ≤ last.rank
  · have legible (entry) (among : entry ∈ (parsing tokens ++ checking node).filter (shown last)) : entry.Legible :=
      legible_parsing tokens node entry (List.mem_of_mem_filter among)
    have shows : written ((parsing tokens ++ checking node).filter (shown last)) ≠ [] := by
      intro nothing
      have first : .log .info .command "Parsing..." ∈ (parsing tokens ++ checking node).filter (shown last) :=
        List.mem_filter.mpr ⟨List.mem_cons_self .., decide_eq_true loud⟩
      have starts := (@calm_log .info nofun .command "Parsing...").2
      rw [List.flatMap_eq_nil_iff.mp nothing _ first] at starts
      cases starts
    rw [List.append_assoc, List.filter_append, written_append]
    exact (ended_legible legible).behind shows _
  · have none : (opening options ++ ofTokens tokens ++ parsing tokens ++ checking node).filter (shown last) = [] := by
      refine List.filter_eq_nil_iff.mpr fun entry among => ?_
      have aside := asides_front options tokens node entry among
      cases entry with
      | echo line text => exact aside.elim
      | log level origin message =>
        change 2 ≤ level.rank at aside
        simp only [shown, decide_eq_true_eq]
        omega
    rw [none]
    exact .inl rfl

end Front

end Entry

theorem Problem.printed_faulty (count : Nat) : Printed (message (.faulty count)).toList := by
  have told : message (.faulty count) = toString count ++ " semantic error(s) found" := rfl
  rw [told, String.toList_append, printed_append]
  exact ⟨printed_number count, by decide⟩

theorem Problem.logged_faulty (count : Nat) : logged (render (.faulty count)).toList = [] := by
  have printed := printed_faulty count
  have line : (render (.faulty count)).toList = "Error: ".toList ++ (message (.faulty count)).toList ++ ['\n'] := by
    simp [render, cause?]
  rw [line]
  generalize (message (.faulty count)).toList = told at printed
  have single : Printed ("Error: ".toList ++ told) := printed_append.mpr ⟨by decide, printed⟩
  refine logged_other single.single ?_
  rintro _ ⟨⟩
  decide

namespace Plan

theorem toList_said (options : Options) (entries : List Entry) (problem : Option Problem) :
    (said options entries problem).toList =
      Entry.written (entries.filter (Entry.shown options.level)) ++ (problem.elim "" Problem.render).toList := by
  cases problem <;> simp [said, Entry.written, List.flatMap_map]

theorem logged_asides (options : Options) {entries : List Entry} (asides : ∀ entry ∈ entries, entry.Aside) :
    logged (said options entries none).toList = [] := by
  rw [toList_said]
  refine (List.append_nil _).symm ▸ Calm.logged (Entry.calm_asides fun entry among => ?_)
  exact asides entry (List.mem_of_mem_filter among)

-- Of a check that fails the log tells the diagnostics as errors, and nothing else.
theorem logged_faults (options : Options) {front : List Entry} (asides : ∀ entry ∈ front, entry.Aside)
    (ended : Ended (Entry.written (front.filter (Entry.shown options.level)))) (text : String)
    {diagnostics : List Diagnostic} (printed : ∀ diagnostic ∈ diagnostics, Printed diagnostic.render.toList) :
    logged (said options (front ++ diagnostics.flatMap (Entry.ofDiagnostic text))
      (some (.faulty diagnostics.length))).toList = diagnostics.map Diagnostic.render := by
  have calm : Calm True (Entry.written (front.filter (Entry.shown options.level))) :=
    Entry.calm_asides fun entry among => asides entry (List.mem_of_mem_filter among)
  have tells := Entry.tells_diagnostics text printed
  have loud : ∀ entry ∈ diagnostics.flatMap (Entry.ofDiagnostic text), Entry.shown options.level entry = true :=
    List.forall_mem_flatMap.mpr fun diagnostic _ => Entry.shown_ofDiagnostic options.level text diagnostic
  rw [toList_said, List.filter_append, List.filter_eq_self.mpr loud, Entry.written_append, List.append_assoc,
    logged_append ended, calm.logged, List.nil_append, logged_append tells.ended, tells.logged]
  exact (congrArg _ (Problem.logged_faulty _)).trans (List.append_nil _)

end Plan

end FishLang
