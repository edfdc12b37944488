import FishLang.Document.Basic
import FishLang.Proofs.Text.Lines

namespace FishLang.Document

-- A reader of JSON texts, for the values that documents are made of: there are no signs, fractions or truth values.
-- It knows nothing of how a document is laid out.
def isGap (c : Char) : Bool := c == ' ' || c == '\n' || c == '\r' || c == '\t'

def skipGap (cs : List Char) : List Char := cs.dropWhile isGap

def hexValue? (c : Char) : Option Nat :=
  if c.isDigit then some (c.toNat - 48)
  else if 97 ≤ c.toNat ∧ c.toNat ≤ 102 then some (c.toNat - 87)
  else if 65 ≤ c.toNat ∧ c.toNat ≤ 70 then some (c.toNat - 55)
  else none

def numbered? (one two three four : Char) : Option Char := do
  let value := 4096 * (← hexValue? one) + 256 * (← hexValue? two) + 16 * (← hexValue? three) + (← hexValue? four)
  if value.isValidChar then some (.ofNat value) else none

def escaped? (c : Char) : Option Char :=
  if c = '"' ∨ c = '\\' ∨ c = '/' then some c
  else if c = 'b' then some '\x08'
  else if c = 'f' then some '\x0c'
  else if c = 'n' then some '\n'
  else if c = 'r' then some '\r'
  else if c = 't' then some '\t'
  else none

def readText : List Char → Option (List Char × List Char)
  | [] => none
  | c :: rest =>
    if c = '"' then some ([], rest)
    else if c = '\\' then
      match rest with
      | 'u' :: one :: two :: three :: four :: others => do
        let shown ← numbered? one two three four
        (readText others).map fun (cs, left) => (shown :: cs, left)
      | e :: others => do
        let shown ← escaped? e
        (readText others).map fun (cs, left) => (shown :: cs, left)
      | [] => none
    else if c.toNat < 32 then none
    else (readText rest).map fun (cs, left) => (c :: cs, left)

def readNumber (cs : List Char) : Option (Document × List Char) :=
  match cs.takeWhile Char.isDigit with
  | [] => none
  | digits => some (.number (Nat.ofDigitChars 10 digits 0), cs.dropWhile Char.isDigit)

section Lists

variable {α : Type} (item : List Char → Option (α × List Char)) (close : Char)

-- Items with commas between them, up to a closing bracket.
def readItems : Nat → List Char → Option (List α × List Char)
  | 0, _ => none
  | bound + 1, cs => do
    let (first, behind) ← item cs
    match skipGap behind with
    | [] => none
    | c :: rest =>
      if c = close then some ([first], rest)
      else if c = ',' then (readItems bound rest).map fun (others, left) => (first :: others, left)
      else none

def readList (bound : Nat) (cs : List Char) : Option (List α × List Char) :=
  match skipGap cs with
  | [] => none
  | c :: rest => if c = close then some ([], rest) else readItems item close bound cs

end Lists

def readField (value : List Char → Option (Document × List Char)) (cs : List Char) :
    Option ((String × Document) × List Char) :=
  match skipGap cs with
  | '"' :: opened => do
    let (key, behind) ← readText opened
    match skipGap behind with
    | ':' :: rest => (value rest).map fun (document, left) => ((.ofList key, document), left)
    | _ => none
  | _ => none

def readValue : Nat → List Char → Option (Document × List Char)
  | 0, _ => none
  | bound + 1, cs =>
    match skipGap cs with
    | [] => none
    | c :: rest =>
      if c = '"' then (readText rest).map fun (run, left) => (.text (.ofList run), left)
      else if c = '[' then
        (readList (readValue bound) ']' bound rest).map fun (items, left) => (.list items, left)
      else if c = '\x7b' then
        (readList (readField (readValue bound)) '\x7d' bound rest).map fun (fields, left) => (.record fields, left)
      else if c = 'n' then
        match rest with
        | 'u' :: 'l' :: 'l' :: left => some (.null, left)
        | _ => none
      else readNumber (c :: rest)

def read? (text : String) : Option Document := do
  let (document, left) ← readValue (text.toList.length + 1) text.toList
  if left.all isGap then some document else none

theorem hexValue?_digitChar : ∀ digit < 16, hexValue? (Nat.digitChar digit) = some digit := by decide

theorem numbered?_hexDigits {c : Char} (control : c.toNat < 32) :
    numbered? '0' '0' (Nat.digitChar (c.toNat / 16)) (Nat.digitChar (c.toNat % 16)) = some c := by
  have high := hexValue?_digitChar (c.toNat / 16) (by omega)
  have low := hexValue?_digitChar (c.toNat % 16) (by omega)
  have zero : hexValue? '0' = some 0 := by decide
  have value : 4096 * 0 + 256 * 0 + 16 * (c.toNat / 16) + c.toNat % 16 = c.toNat := by omega
  simp only [numbered?, zero, high, low, Option.bind_eq_bind, Option.bind_some, value]
  have valid : c.toNat.isValidChar := c.valid
  rw [if_pos valid, Char.ofNat_toNat]

theorem readText_close (rest : List Char) : readText ('"' :: rest) = some ([], rest) := by
  rw [readText.eq_def]
  rfl

theorem readText_plain {c : Char} (quote : c ≠ '"') (slash : c ≠ '\\') (shown : ¬ c.toNat < 32) (rest : List Char) :
    readText (c :: rest) = (readText rest).map fun (cs, left) => (c :: cs, left) := by
  rw [readText.eq_def]
  simp only [if_neg quote, if_neg slash, if_neg shown]

theorem readText_control {c : Char} (control : c.toNat < 32) (rest : List Char) :
    readText ('\\' :: 'u' :: hexDigits c.toNat ++ rest) = (readText rest).map fun (cs, left) => (c :: cs, left) := by
  have quote : ¬ '\\' = '"' := by decide
  rw [hexDigits, readText.eq_def]
  simp only [List.cons_append, List.nil_append, if_neg quote, if_true, numbered?_hexDigits control,
    Option.bind_eq_bind, Option.bind_some]

-- A character is read back from its escape, and nothing behind it is touched.
theorem readText_escape (c : Char) (rest : List Char) :
    readText (escape c ++ rest) = (readText rest).map fun (cs, left) => (c :: cs, left) := by
  have letter {c e : Char} (other : e ≠ 'u') (known : escaped? e = some c) :
      readText ('\\' :: e :: rest) = (readText rest).map fun (cs, left) => (c :: cs, left) := by
    have quote : ¬ '\\' = '"' := by decide
    rw [readText.eq_def]
    simp only [if_neg quote, if_true]
    split
    · next same => exact absurd (List.cons.inj same).1 other
    · next same =>
      obtain ⟨rfl, rfl⟩ := List.cons.inj same
      rw [known, Option.bind_eq_bind, Option.bind_some]
    · next same => cases same
  by_cases quote : c = '"'
  · exact quote ▸ letter (by decide) rfl
  by_cases slash : c = '\\'
  · exact slash ▸ letter (by decide) rfl
  by_cases newline : c = '\n'
  · exact newline ▸ letter (by decide) rfl
  by_cases back : c = '\r'
  · exact back ▸ letter (by decide) rfl
  by_cases tab : c = '\t'
  · exact tab ▸ letter (by decide) rfl
  by_cases backspace : c = '\x08'
  · exact backspace ▸ letter (by decide) rfl
  by_cases feed : c = '\x0c'
  · exact feed ▸ letter (by decide) rfl
  have notBackspace : c.toNat ≠ 8 := fun number => backspace (Char.toNat_inj.mp number)
  have notFeed : c.toNat ≠ 12 := fun number => feed (Char.toNat_inj.mp number)
  rw [escape, if_neg quote, if_neg slash, if_neg newline, if_neg back, if_neg tab, if_neg notBackspace, if_neg notFeed]
  split
  · next control => exact readText_control control rest
  · next shown => exact readText_plain quote slash shown rest

theorem readText_quoted (cs rest : List Char) :
    readText (cs.flatMap escape ++ '"' :: rest) = some (cs, rest) := by
  induction cs with
  | nil => exact readText_close rest
  | cons c cs ih => rw [List.flatMap_cons, List.append_assoc, readText_escape, ih, Option.map_some]

theorem toList_quoted (text : String) : (quoted text).toList = '"' :: (text.toList.flatMap escape ++ ['"']) := by
  rw [quoted, String.toList_ofList]
  rfl

section Gaps

variable {gap rest : List Char} {c : Char}

theorem skipGap_append (blank : ∀ c ∈ gap, isGap c = true) (text : List Char) :
    skipGap (gap ++ text) = skipGap text :=
  List.dropWhile_append_of_pos blank

theorem skipGap_cons (shown : isGap c = false) (rest : List Char) : skipGap (c :: rest) = c :: rest := by
  rw [skipGap, List.dropWhile_cons_of_neg (by simp [shown])]

theorem skipGap_past (blank : ∀ c ∈ gap, isGap c = true) (shown : isGap c = false) :
    skipGap (gap ++ c :: rest) = c :: rest :=
  (skipGap_append blank _).trans (skipGap_cons shown rest)

theorem isGap_indent (level : Nat) : ∀ c ∈ (indent level).toList, isGap c = true := by
  intro c among
  rw [indent, String.toList_ofList] at among
  rw [List.eq_of_mem_replicate among]
  rfl

end Gaps

-- What is read up to the end of a numeral is not read on by what stands behind it.
def Ends (rest : List Char) : Prop := ∀ c ∈ rest.head?, c.isDigit = false

theorem ends_of_gap {c : Char} (gap : isGap c = true) (rest : List Char) : Ends (c :: rest) := by
  rintro _ ⟨⟩
  simp only [isGap, Bool.or_eq_true, beq_iff_eq] at gap
  rcases gap with ((rfl | rfl) | rfl) | rfl <;> rfl

section Lists

variable {α : Type} {item : List Char → Option (α × List Char)} {close : Char} {write : α → String}
  {bound level : Nat}

-- The reader gives back the value of a text, behind any gap.
def Gives (item : List Char → Option (α × List Char)) (text : String) (value : α) : Prop :=
  ∀ gap rest, (∀ c ∈ gap, isGap c = true) → Ends rest → item (gap ++ (text.toList ++ rest)) = some (value, rest)

theorem intercalate_cons (between first second : List Char) (others : List (List Char)) :
    between.intercalate (first :: second :: others) = first ++ (between ++ between.intercalate (second :: others)) := by
  simp [List.intercalate]

def placed (level : Nat) (text : String) : List Char := (indent level).toList ++ text.toList

section Steps

variable {cs behind rest left : List Char} {value : α} {others : List α}

theorem readItems_last (taken : item cs = some (value, behind)) (ends : skipGap behind = close :: rest) :
    readItems item close (bound + 1) cs = some ([value], rest) := by
  simp only [readItems, taken, Option.bind_eq_bind, Option.bind_some, ends, if_true]

theorem readItems_more (apart : close ≠ ',') (taken : item cs = some (value, behind))
    (comma : skipGap behind = ',' :: rest) (next : readItems item close bound rest = some (others, left)) :
    readItems item close (bound + 1) cs = some (value :: others, left) := by
  simp only [readItems, taken, Option.bind_eq_bind, Option.bind_some, comma, if_neg apart.symm, if_true, next,
    Option.map_some]

end Steps

theorem readItems_laid (apart : close ≠ ',') (shown : isGap close = false) {items : List α} (full : items ≠ [])
    (gives : ∀ value ∈ items, Gives item (write value) value) (enough : items.length ≤ bound) {gap : List Char}
    (blank : ∀ c ∈ gap, isGap c = true) (outer : Nat) (rest : List Char) :
    readItems item close bound (gap ++ ([',', '\n'].intercalate ((items.map write).map (placed level)) ++
      '\n' :: ((indent outer).toList ++ close :: rest))) = some (items, rest) := by
  induction items generalizing bound gap with
  | nil => exact absurd rfl full
  | cons value others ih =>
    obtain ⟨here, later⟩ := List.forall_mem_cons.mp gives
    have indented : ∀ c ∈ gap ++ (indent level).toList, isGap c = true :=
      List.forall_mem_append.mpr ⟨blank, isGap_indent level⟩
    cases bound with
    | zero => cases enough
    | succ bound =>
      cases others with
      | nil =>
        have ending : ∀ c ∈ '\n' :: (indent outer).toList, isGap c = true :=
          List.forall_mem_cons.mpr ⟨rfl, isGap_indent outer⟩
        have taken := here _ ('\n' :: ((indent outer).toList ++ close :: rest)) indented (ends_of_gap rfl _)
        rw [List.append_assoc] at taken
        simp only [List.map_cons, List.map_nil, List.intercalate_singleton, placed, List.append_assoc]
        have past : skipGap (('\n' :: (indent outer).toList) ++ close :: rest) = close :: rest :=
          skipGap_past ending shown
        exact readItems_last taken past
      | cons second others =>
        have newline : ∀ c ∈ ['\n'], isGap c = true := by simp [isGap]
        have next := ih (List.cons_ne_nil _ _) later (Nat.le_of_succ_le_succ enough) newline
        have ends (rest : List Char) : Ends (',' :: rest) := by
          rintro _ ⟨⟩
          rfl
        have taken := fun rest => here _ (',' :: rest) indented (ends rest)
        simp only [List.append_assoc] at taken
        simp only [List.map_cons, intercalate_cons, placed, List.append_assoc, List.cons_append] at next ⊢
        exact readItems_more apart (taken _) (skipGap_cons rfl _) next

theorem toList_bracketed {parts : List String} (full : parts ≠ []) (level : Nat) (left right : String) :
    (bracketed level left right parts).toList = left.toList ++ ('\n' :: ([',', '\n'].intercalate
      (parts.map (placed (level + 1))) ++ '\n' :: ((indent level).toList ++ right.toList))) := by
  have some : parts.isEmpty = false := by simpa using full
  have comma : ",\n".toList = [',', '\n'] := rfl
  rw [bracketed, some]
  simp [String.toList_intercalate, toList_newline, comma, Function.comp_def]
  rfl

-- What the reader takes does not start as the closing bracket does.
def Opens (item : List Char → Option (α × List Char)) (close : Char) : Prop :=
  ∀ cs result, item cs = some result → ∃ c rest, skipGap cs = c :: rest ∧ c ≠ close

theorem readItems_opens (opens : Opens item close) {cs : List Char}
    (taken : readItems item close bound cs = some result) : ∃ c rest, skipGap cs = c :: rest ∧ c ≠ close := by
  cases bound with
  | zero => cases taken
  | succ bound =>
    obtain ⟨_, first, _⟩ := Option.bind_eq_some_iff.mp taken
    exact opens _ _ first

theorem length_intercalate (between : List Char) {parts : List (List Char)} (full : ∀ part ∈ parts, part ≠ []) :
    parts.length ≤ (between.intercalate parts).length ∧
      ∀ part ∈ parts, part.length ≤ (between.intercalate parts).length := by
  induction parts with
  | nil => simp
  | cons part others ih =>
    obtain ⟨here, later⟩ := List.forall_mem_cons.mp full
    have long := List.length_pos_iff.mpr here
    obtain ⟨count, each⟩ := ih later
    cases others with
    | nil => simpa using Nat.succ_le_of_lt long
    | cons second others =>
      rw [intercalate_cons, List.length_append, List.length_append, List.length_cons]
      refine ⟨by omega, List.forall_mem_cons.mpr ⟨by omega, fun other among => ?_⟩⟩
      have := each other among
      omega

theorem length_bracketed (level : Nat) (left right : String) (parts : List String) :
    (left.toList.length + parts.length ≤ (bracketed level left right parts).toList.length) ∧
      ∀ part ∈ parts, left.toList.length + part.toList.length ≤ (bracketed level left right parts).toList.length := by
  by_cases full : parts = []
  · subst full
    simp [bracketed]
  · have indented : ∀ part ∈ parts.map (placed (level + 1)), part ≠ [] := by
      intro part among
      obtain ⟨text, _, rfl⟩ := List.mem_map.mp among
      simp [placed, indent, Nat.mul_add]
    obtain ⟨count, each⟩ := length_intercalate [',', '\n'] indented
    rw [List.length_map] at count
    simp only [toList_bracketed full, List.length_append, List.length_cons]
    refine ⟨by omega, fun part among => ?_⟩
    have inside := each _ (List.mem_map_of_mem among)
    rw [placed, List.length_append] at inside
    omega

theorem readList_bracketed (opens : Opens item close) (apart : close ≠ ',') (shown : isGap close = false)
    {items : List α} (gives : ∀ value ∈ items, (write value).toList.length < bound → Gives item (write value) value)
    {left right : String} (opening : left.toList = [c]) (closes : right.toList = [close])
    (fits : (bracketed level left right (items.map write)).toList.length ≤ bound) :
    ∃ body, (bracketed level left right (items.map write)).toList = c :: body ∧
      ∀ rest, readList item close bound (body ++ rest) = some (items, rest) := by
  cases items with
  | nil =>
    refine ⟨[close], by simp [bracketed, opening, closes], fun rest => ?_⟩
    have past : skipGap ([close] ++ rest) = close :: rest := skipGap_cons shown rest
    simp only [readList, past, if_true]
  | cons value others =>
    obtain ⟨count, each⟩ := length_bracketed level left right ((value :: others).map write)
    rw [opening, List.length_singleton, List.length_map] at count
    have given : ∀ other ∈ value :: others, Gives item (write other) other := by
      intro other among
      have short := each _ (List.mem_map_of_mem among)
      rw [opening, List.length_singleton] at short
      exact gives other among (by omega)
    have full : (value :: others).map write ≠ [] := by simp
    rw [toList_bracketed full, opening, closes, List.singleton_append]
    refine ⟨_, rfl, fun rest => ?_⟩
    have newline : ∀ c ∈ ['\n'], isGap c = true := by simp [isGap]
    have short : (value :: others).length ≤ bound := by omega
    have read : readItems item close bound (['\n'] ++
        ([',', '\n'].intercalate (((value :: others).map write).map (placed (level + 1))) ++
          '\n' :: ((indent level).toList ++ close :: rest))) = some (value :: others, rest) :=
      readItems_laid apart shown (List.cons_ne_nil value others) given short newline level rest
    obtain ⟨c, behind, visible, other⟩ := readItems_opens opens read
    simp only [List.map_cons, List.cons_append, List.append_assoc, List.nil_append] at read visible ⊢
    rw [readList]
    simp only [visible, if_neg other]
    exact read

end Lists

theorem writeItems_eq (level : Nat) (items : List Document) : writeItems level items = items.map (write level) := by
  induction items with
  | nil => rfl
  | cons item rest ih => rw [writeItems, ih, List.map_cons]

def writeField (level : Nat) (field : String × Document) : String := quoted field.1 ++ ": " ++ write level field.2

theorem writeFields_eq (level : Nat) (fields : List (String × Document)) :
    writeFields level fields = fields.map (writeField level) := by
  induction fields with
  | nil => rfl
  | cons field rest ih => rw [writeFields, ih, List.map_cons]; rfl

theorem readNumber_digits (value : Nat) {rest : List Char} (ends : Ends rest) :
    readNumber (Nat.toDigits 10 value ++ rest) = some (.number value, rest) := by
  have digits : ∀ c ∈ Nat.toDigits 10 value, c.isDigit = true :=
    fun c among => Nat.isDigit_of_mem_toDigits (by decide) (Nat.le_refl 10) among
  obtain ⟨taken, left⟩ := takeWhile_run digits ends
  rw [readNumber, taken, left]
  split
  · next empty => exact absurd empty Nat.toDigits_ne_nil
  · rw [Nat.ofDigitChars_toDigits (by decide) (Nat.le_refl 10)]

theorem readValue_opens (bound : Nat) : Opens (readValue bound) ']' := by
  intro cs result taken
  cases bound with
  | zero => cases taken
  | succ bound =>
    rw [readValue] at taken
    split at taken
    · cases taken
    · next c rest visible =>
      refine ⟨c, rest, visible, ?_⟩
      rintro rfl
      cases taken

theorem readField_opens (value : List Char → Option (Document × List Char)) : Opens (readField value) '\x7d' := by
  intro cs result taken
  rw [readField] at taken
  split at taken
  · next rest visible => exact ⟨'"', rest, visible, by decide⟩
  · cases taken

theorem Gives.field {value : List Char → Option (Document × List Char)} {field : String × Document}
    (gives : Gives value (write level field.2) field.2) : Gives (readField value) (writeField level field) field := by
  intro gap rest blank ends
  have opened : skipGap (gap ++ ((writeField level field).toList ++ rest)) =
      '"' :: (field.1.toList.flatMap escape ++ '"' :: (':' :: ' ' :: ((write level field.2).toList ++ rest))) := by
    rw [skipGap_append blank, writeField, String.toList_append, String.toList_append, toList_quoted]
    simp only [List.append_assoc, List.cons_append, List.nil_append]
    exact skipGap_cons rfl _
  have colon (rest : List Char) : skipGap (':' :: rest) = ':' :: rest := skipGap_cons rfl rest
  have read := gives [' '] rest (by simp [isGap]) ends
  simp only [readField, opened, readText_quoted, Option.bind_eq_bind, Option.bind_some, colon]
  rw [List.singleton_append] at read
  rw [read, Option.map_some, String.ofList_toList]

theorem length_lt_of_field {field : String × Document} (short : (writeField level field).toList.length < bound) :
    (write level field.2).toList.length < bound := by
  rw [writeField, String.toList_append, List.length_append] at short
  omega

-- Whatever the level a document is written at, it is read back, and nothing behind it is touched.
theorem readValue_write (bound : Nat) : ∀ document level, (write level document).toList.length < bound →
    Gives (readValue bound) (write level document) document := by
  induction bound with
  | zero => exact fun _ _ fits => absurd fits (Nat.not_lt_zero _)
  | succ bound ih =>
    intro document level fits gap rest blank ends
    cases document with
    | null =>
      have visible : skipGap (gap ++ ("null".toList ++ rest)) = 'n' :: 'u' :: 'l' :: 'l' :: rest :=
        skipGap_past blank rfl
      rw [write, readValue, visible]
      rfl
    | number value =>
      have digits : (write level (.number value)).toList = Nat.toDigits 10 value := Nat.toList_repr
      obtain ⟨first, others, split⟩ := List.exists_cons_of_ne_nil (Nat.toDigits_ne_nil (n := value) (b := 10))
      have digit : first.isDigit = true :=
        Nat.isDigit_of_mem_toDigits (by decide) (Nat.le_refl 10) (split ▸ List.mem_cons_self)
      have apart {c : Char} (other : c.isDigit = false) : ¬ first = c := by
        rintro rfl
        rw [digit] at other
        cases other
      have shown : isGap first = false := by simp [isGap, apart]
      have number := readNumber_digits value ends
      rw [digits, split]
      rw [split] at number
      have visible : skipGap (gap ++ (first :: others ++ rest)) = first :: (others ++ rest) := skipGap_past blank shown
      rw [readValue, visible]
      simp only [if_neg (apart (c := '"') rfl), if_neg (apart (c := '[') rfl), if_neg (apart (c := '\x7b') rfl),
        if_neg (apart (c := 'n') rfl)]
      exact number
    | text value =>
      have visible : skipGap (gap ++ ((quoted value).toList ++ rest)) =
          '"' :: (value.toList.flatMap escape ++ '"' :: rest) := by
        rw [toList_quoted, List.cons_append, List.append_assoc]
        exact skipGap_past blank rfl
      rw [write, readValue, visible]
      simp only [if_true, readText_quoted, Option.map_some, String.ofList_toList]
    | list items =>
      rw [write, writeItems_eq] at fits ⊢
      obtain ⟨body, written, read⟩ := readList_bracketed (readValue_opens bound) (by decide) rfl
        (fun item _ short => ih item (level + 1) short) (c := '[') rfl rfl (Nat.le_of_lt_succ fits)
      have visible : skipGap (gap ++ ('[' :: body ++ rest)) = '[' :: (body ++ rest) := skipGap_past blank rfl
      rw [written, readValue, visible]
      simp only [if_true, read, Option.map_some]
      rfl
    | record fields =>
      rw [write, writeFields_eq] at fits ⊢
      obtain ⟨body, written, read⟩ := readList_bracketed (readField_opens (readValue bound)) (by decide) rfl
        (fun field _ short => (ih field.2 (level + 1) (length_lt_of_field short)).field) (c := '\x7b') rfl rfl
        (Nat.le_of_lt_succ fits)
      have visible : skipGap (gap ++ ('\x7b' :: body ++ rest)) = '\x7b' :: (body ++ rest) := skipGap_past blank rfl
      rw [written, readValue, visible]
      simp only [if_true, read, Option.map_some]
      rfl

-- The text of a document reads as that document, and so as no other.
theorem read?_render (document : Document) : read? document.render = some document := by
  have ends : Ends [] := nofun
  have read := readValue_write _ document 0 (Nat.lt_succ_self _) [] [] nofun ends
  rw [List.nil_append, List.append_nil] at read
  rw [read?, render, read]
  rfl

end FishLang.Document
