import Mathlib.Data.List.TakeWhile
import Mathlib.Tactic.Common

/-!
# The access log

`logLine` of `logfmt.hh` writes one `key=value` line per event.  A value with a character that would
break the line is quoted, and the whole line goes out through `fputs`.
-/

namespace NixGrpcStore.Logfmt

open List (cons_append mem_cons mem_cons_of_mem)

abbrev Bytes := List UInt8

/-- A key and its value. -/
abbrev LogField := Bytes × Bytes

def quote : UInt8 := 34
def backslash : UInt8 := 92
def newline : UInt8 := 10
def space : UInt8 := 32
def equals : UInt8 := 61
def letterN : UInt8 := 110

def ascii (text : List Char) : Bytes := text.map Char.toUInt8

/-- The value is empty or holds a character that would break the line. -/
def needsQuotes (value : Bytes) : Bool :=
  value.isEmpty ||
    value.any fun chr => chr = space || chr = quote || chr = equals || chr = backslash || chr = newline

/-- A character of a quoted value. -/
def escape (chr : UInt8) : Bytes :=
  if chr = quote || chr = backslash then [backslash, chr]
  else if chr = newline then [backslash, letterN]
  else [chr]

/-- Quote a value if it needs quotes. -/
def logfmtValue (value : Bytes) : Bytes :=
  if needsQuotes value then quote :: value.flatMap escape ++ [quote] else value

inductive LogLevel where
  | info
  | debug

def timeChars : Bytes := ascii ['0', '1', '2', '3', '4', '5', '6', '7', '8', '9', '-', ':', 'T', 'Z']

/-- What `strftime` writes for the format `%Y-%m-%dT%H:%M:%SZ`. -/
structure Timestamp where
  text : Bytes
  filled : text ≠ []
  plain : ∀ chr ∈ text, chr ∈ timeChars

/-- The word for a level. -/
def LogLevel.word : LogLevel → Bytes
  | .debug => ascii ['d', 'e', 'b', 'u', 'g']
  | .info => ascii ['i', 'n', 'f', 'o']

/-- A field of the line, with the space before it. -/
def fieldText (field : LogField) : Bytes :=
  space :: field.1 ++ equals :: logfmtValue field.2

/-- What `fputs` writes of a string: it stops at the first zero byte. -/
def fputs (line : Bytes) : Bytes := line.takeWhile (· ≠ 0)

/-- The line of one call, without its end. -/
def line (time : Timestamp) (level : LogLevel) (fields : List LogField) : Bytes :=
  ascii ['t', 's', '='] ++ time.text ++ ascii [' ', 'l', 'e', 'v', 'e', 'l', '='] ++ level.word ++
    fields.flatMap fieldText

/-- The bytes that one call writes. -/
def logLine (time : Timestamp) (level : LogLevel) (fields : List LogField) : Bytes :=
  fputs (line time level fields ++ [newline])

/-! ## The grammar of a line -/

/-- A character of a key or a bare value. -/
def bare (chr : UInt8) : Bool := space < chr && chr ≠ equals && chr ≠ quote

/-- The rest of a quoted value, after a backslash or not, and what follows it. -/
def readQuoted : Bool → Bytes → Option (Bytes × Bytes)
  | _, [] => none
  | true, chr :: rest =>
    (readQuoted false rest).map (Prod.map (List.cons (if chr = letterN then newline else chr)) id)
  | false, chr :: rest =>
    if chr = quote then some ([], rest)
    else if chr = backslash then readQuoted true rest
    else (readQuoted false rest).map (Prod.map (List.cons chr) id)

/-- The value after `=`, and what follows it. -/
def readValue (text : Bytes) : Option (Bytes × Bytes) :=
  match text with
  | [] => some ([], [])
  | chr :: rest => if chr = quote then readQuoted false rest else some (text.takeWhile bare, text.dropWhile bare)

/-- The pairs of a line; a value is followed by a separator. -/
def readPairs : ℕ → Bytes → Option (List LogField)
  | 0, _ => none
  | fuel + 1, text =>
    match text.dropWhile (· ≤ space) with
    | [] => some []
    | text =>
      match text.dropWhile bare with
      | [] => none
      | chr :: rest =>
        if chr ≠ equals then none
        else
          match readValue rest with
          | none => none
          | some (value, rest) =>
            if rest.head?.any (space < ·) then none
            else (readPairs fuel rest).map (List.cons (text.takeWhile bare, value))

/-- The pairs of a line. -/
def readLine (line : Bytes) : Option (List LogField) :=
  readPairs (line.length + 1) line

/-- A well-formed key. -/
def WellFormedKey (key : Bytes) : Prop := key ≠ [] ∧ ∀ chr ∈ key, bare chr

/-- A value without a zero byte that is quoted or has no control characters. -/
def Printable (value : Bytes) : Prop :=
  0 ∉ value ∧ (needsQuotes value ∨ ∀ chr ∈ value, space < chr)

section

variable {value : Bytes}

theorem bare_iff {chr : UInt8} : bare chr ↔ space < chr ∧ chr ≠ equals ∧ chr ≠ quote := by
  simp [bare, and_assoc]

theorem ne_of_above {chr : UInt8} (above : space < chr) : chr ≠ 0 ∧ chr ≠ newline ∧ chr ≠ space := by
  refine ⟨?_, ?_, ?_⟩ <;> rintro rfl <;> revert above <;> decide

theorem readQuoted_escape (value rest : Bytes) :
    readQuoted false (value.flatMap escape ++ quote :: rest) = some (value, rest) := by
  induction value with
  | nil => simp [readQuoted]
  | cons chr value ih =>
    rw [List.flatMap_cons, List.append_assoc, escape]
    split_ifs with special ends
    · have chr_ne : chr ≠ letterN := by
        rintro rfl
        simp [letterN, quote, backslash] at special
      have backslash_ne : backslash ≠ quote := by decide
      simp [readQuoted, ih, chr_ne, backslash_ne]
    · have backslash_ne : backslash ≠ quote := by decide
      simp [readQuoted, ih, backslash_ne, ends]
    · simp only [Bool.or_eq_true, decide_eq_true_eq, not_or] at special
      simp [readQuoted, ih, special.1, special.2]

theorem bare_of_plain (plain : needsQuotes value = false) (printable : Printable value) :
    ∀ chr ∈ value, bare chr := by
  intro chr mem
  have above := printable.2.resolve_left (by simp [plain]) chr mem
  simp only [needsQuotes, Bool.or_eq_false_iff, List.any_eq_false] at plain
  have := plain.2 chr mem
  simp_all [bare]

/-- A value is read back up to the separator that follows it. -/
theorem readValue_logfmtValue (printable : Printable value) (sep : UInt8) (gap : sep ≤ space) (rest : Bytes) :
    readValue (logfmtValue value ++ sep :: rest) = some (value, sep :: rest) := by
  rw [logfmtValue]
  split_ifs with quoted
  · simp [readValue, readQuoted_escape]
  · have plain := bare_of_plain (Bool.eq_false_iff.mpr quoted) printable
    have sep_stops : bare sep = false := by
      simp [bare, UInt8.not_lt.mpr gap]
    cases value with
    | nil => simp [needsQuotes] at quoted
    | cons chr value =>
      have chr_ne := (bare_iff.mp (plain chr (by simp))).2.2
      rw [cons_append, readValue, if_neg chr_ne, ← cons_append,
        List.takeWhile_append_of_pos plain, List.dropWhile_append_of_pos plain]
      simp [sep_stops]

/-- The reader takes the key of a pair and goes on with its value. -/
theorem readPairs_cons {field : LogField} (key : WellFormedKey field.1) (rest : Bytes) (fuel : ℕ) :
    readPairs (fuel + 1) (fieldText field ++ rest) =
      (readValue (logfmtValue field.2 ++ rest)).bind fun read =>
        if read.2.head?.any (space < ·) then none
        else (readPairs fuel read.2).map (List.cons (field.1, read.1)) := by
  obtain ⟨name, value⟩ := field
  obtain ⟨first, name, rfl⟩ := List.exists_cons_of_ne_nil key.1
  have first_bare := key.2 first (by simp)
  have first_above := UInt8.not_le.mpr (bare_iff.mp first_bare).1
  have name_bare : ∀ chr ∈ name, bare chr := fun chr mem => key.2 chr (mem_cons_of_mem _ mem)
  have equals_stops : bare equals = false := by decide
  cases read : readValue (logfmtValue value ++ rest) with
  | none =>
    simp [readPairs, fieldText, first_above, first_bare, List.dropWhile_append_of_pos name_bare, equals_stops, read]
  | some pair =>
    simp [readPairs, fieldText, first_above, first_bare, List.takeWhile_append_of_pos name_bare,
      List.dropWhile_append_of_pos name_bare, equals_stops, read]

/-- One pair is read, and the reader goes on behind it. -/
theorem readPairs_fieldText {field : LogField} (key : WellFormedKey field.1) (printable : Printable field.2)
    {sep : UInt8} (gap : sep ≤ space) (rest : Bytes) (fuel : ℕ) :
    readPairs (fuel + 1) (fieldText field ++ sep :: rest) =
      (readPairs fuel (sep :: rest)).map (List.cons field) := by
  rw [readPairs_cons key, readValue_logfmtValue printable sep gap, Option.bind_some, if_neg]
  simpa using gap

/-- A value that is read back is printable, unless it has a zero byte. -/
theorem printable_of_readValue {rest left : Bytes} (zero : 0 ∉ value)
    (read : readValue (logfmtValue value ++ rest) = some (value, left)) : Printable value := by
  refine ⟨zero, ?_⟩
  by_cases quoted : needsQuotes value
  · exact .inl quoted
  · refine .inr fun chr mem => ?_
    rw [logfmtValue, if_neg quoted] at read
    have filled : value ≠ [] := by
      rintro rfl
      exact quoted rfl
    obtain ⟨first, more, rfl⟩ := List.exists_cons_of_ne_nil filled
    have first_ne : first ≠ quote := by
      rintro rfl
      simp [needsQuotes] at quoted
    rw [cons_append, readValue, if_neg first_ne, Option.some.injEq, Prod.mk.injEq] at read
    rw [← read.1] at mem
    exact (bare_iff.mp (List.mem_takeWhile_imp mem)).1

/-- A separator follows the value of every pair. -/
theorem next_separator (fields : List LogField) :
    ∃ sep rest, fields.flatMap fieldText ++ [newline] = sep :: rest ∧ sep ≤ space := by
  cases fields with
  | nil => exact ⟨newline, [], rfl, by decide⟩
  | cons => exact ⟨space, _, rfl, by decide⟩

theorem readPairs_fields {fields : List LogField} (keys : ∀ field ∈ fields, WellFormedKey field.1)
    (printable : ∀ field ∈ fields, Printable field.2) {fuel : ℕ} (enough : fields.length < fuel) :
    readPairs fuel (fields.flatMap fieldText ++ [newline]) = some fields := by
  induction fields generalizing fuel with
  | nil =>
    obtain ⟨fuel, rfl⟩ := Nat.exists_eq_add_of_lt enough
    simp [readPairs, newline, space]
  | cons field fields ih =>
    obtain ⟨fuel, rfl⟩ := Nat.exists_eq_succ_of_ne_zero (Nat.ne_zero_of_lt enough)
    obtain ⟨sep, rest, next, gap⟩ := next_separator fields
    rw [List.forall_mem_cons] at keys printable
    rw [List.flatMap_cons, List.append_assoc, next, readPairs_fieldText keys.1 printable.1 gap, ← next,
      ih keys.2 printable.2 (Nat.lt_of_succ_lt_succ enough)]
    rfl

/-- Values that are all read back are printable, unless they have a zero byte. -/
theorem printable_of_readPairs {fields : List LogField}
    (keys : ∀ field ∈ fields, WellFormedKey field.1) (zero : ∀ field ∈ fields, 0 ∉ field.2)
    {fuel : ℕ} (read : readPairs fuel (fields.flatMap fieldText ++ [newline]) = some fields) :
    ∀ field ∈ fields, Printable field.2 := by
  induction fields generalizing fuel with
  | nil => simp
  | cons field fields ih =>
    rw [List.forall_mem_cons] at keys zero ⊢
    rw [List.flatMap_cons, List.append_assoc] at read
    cases fuel with
    | zero => cases read
    | succ fuel =>
      have whole := read
      rw [readPairs_cons keys.1] at read
      obtain ⟨⟨value, left⟩, value_read, rest_read⟩ := Option.bind_eq_some_iff.mp read
      split_ifs at rest_read
      obtain ⟨others, -, pair_eq⟩ := Option.map_eq_some_iff.mp rest_read
      obtain rfl : value = field.2 := congrArg Prod.snd (List.cons.inj pair_eq).1
      have printable := printable_of_readValue zero.1 value_read
      obtain ⟨sep, rest, next, gap⟩ := next_separator fields
      rw [next, readPairs_fieldText keys.1 printable gap, ← next] at whole
      obtain ⟨others, rest_read, pairs_eq⟩ := Option.map_eq_some_iff.mp whole
      rw [(List.cons.inj pairs_eq).2] at rest_read
      exact ⟨printable, ih keys.2 zero.2 rest_read⟩

theorem length_le_fields (fields : List LogField) : fields.length ≤ (fields.flatMap fieldText).length := by
  induction fields with
  | nil => rfl
  | cons field fields ih =>
    rw [List.flatMap_cons, List.length_append, List.length_cons, fieldText, cons_append, List.length_cons]
    omega

/-! ## What one call writes -/

theorem mem_timestamp (time : Timestamp) : ∀ chr ∈ time.text, bare chr ∧ chr ≠ backslash := by
  have plain : ∀ chr ∈ timeChars, bare chr ∧ chr ≠ backslash := by decide +kernel
  exact fun chr mem => plain chr (time.plain chr mem)

theorem mem_word (level : LogLevel) : ∀ chr ∈ level.word, bare chr ∧ chr ≠ backslash := by
  cases level <;> decide +kernel

/-- A value of plain characters is written as it is. -/
theorem logfmtValue_of_plain (filled : value ≠ []) (plain : ∀ chr ∈ value, bare chr ∧ chr ≠ backslash) :
    Printable value ∧ logfmtValue value = value := by
  have above : ∀ chr ∈ value, space < chr := fun chr mem => (bare_iff.mp (plain chr mem).1).1
  have unquoted : needsQuotes value = false := by
    simp only [needsQuotes, Bool.or_eq_false_iff, List.any_eq_false, List.isEmpty_eq_false_iff]
    refine ⟨filled, fun chr mem => ?_⟩
    have := bare_iff.mp (plain chr mem).1
    have := plain chr mem
    have := ne_of_above (above chr mem)
    simp_all
  refine ⟨⟨fun zero => ?_, .inr above⟩, by simp [logfmtValue, unquoted]⟩
  exact (ne_of_above (above 0 zero)).1 rfl

theorem mem_escape {chr next : UInt8} (mem : next ∈ escape chr) : next ≠ newline ∧ (next = 0 → chr = 0) := by
  rw [escape] at mem
  split_ifs at mem with special ends
  · simp only [Bool.or_eq_true, decide_eq_true_eq] at special
    rcases special with rfl | rfl <;> revert next <;> decide +kernel
  · subst ends
    revert next
    decide +kernel
  · cases List.mem_singleton.mp mem
    exact ⟨ends, id⟩

/-- No field has a newline, and none has a zero byte but in its value. -/
theorem mem_fieldText {field : LogField} {chr : UInt8} (key : WellFormedKey field.1)
    (mem : chr ∈ fieldText field) : chr ≠ newline ∧ (chr = 0 → 0 ∈ field.2) := by
  rw [fieldText, cons_append, mem_cons, List.mem_append, mem_cons] at mem
  rcases mem with rfl | mem | rfl | mem
  · exact ⟨by decide, fun zero => absurd zero (by decide)⟩
  · have ne := ne_of_above (bare_iff.mp (key.2 chr mem)).1
    exact ⟨ne.2.1, fun zero => absurd zero ne.1⟩
  · exact ⟨by decide, fun zero => absurd zero (by decide)⟩
  · rw [logfmtValue] at mem
    split_ifs at mem with quoted
    · rw [cons_append, mem_cons, List.mem_append, List.mem_singleton, List.mem_flatMap] at mem
      rcases mem with rfl | ⟨from_chr, value_mem, mem⟩ | rfl
      · exact ⟨by decide, fun zero => absurd zero (by decide)⟩
      · obtain ⟨not_newline, zero⟩ := mem_escape mem
        exact ⟨not_newline, fun is_zero => zero is_zero ▸ value_mem⟩
      · exact ⟨by decide, fun zero => absurd zero (by decide)⟩
    · refine ⟨?_, fun zero => zero ▸ mem⟩
      rintro rfl
      refine quoted (Bool.or_eq_true_iff.mpr (.inr (List.any_eq_true.mpr ⟨newline, mem, ?_⟩)))
      simp

theorem zero_mem_fieldText {field : LogField} (zero : 0 ∈ field.2) : 0 ∈ fieldText field := by
  refine List.mem_append_right _ (mem_cons_of_mem _ ?_)
  rw [logfmtValue]
  split_ifs
  · refine List.mem_append_left _ (mem_cons_of_mem _ (List.mem_flatMap.mpr ⟨0, zero, ?_⟩))
    decide +kernel
  · exact zero

/-- The pairs of the line that one call writes. -/
def pairs (time : Timestamp) (level : LogLevel) (fields : List LogField) : List LogField :=
  (ascii ['t', 's'], time.text) :: (ascii ['l', 'e', 'v', 'e', 'l'], level.word) :: fields

section Line

variable (time : Timestamp) (level : LogLevel) {fields : List LogField}

/-- A line is its pairs without the first space. -/
theorem line_eq (fields : List LogField) :
    space :: line time level fields = (pairs time level fields).flatMap fieldText := by
  have time_eq := (logfmtValue_of_plain time.filled (mem_timestamp time)).2
  have word_eq := (logfmtValue_of_plain (by cases level <;> decide) (mem_word level)).2
  simp [pairs, line, fieldText, time_eq, word_eq, ascii, space, equals]
  decide

theorem wellFormed_pairs (keys : ∀ field ∈ fields, WellFormedKey field.1) :
    ∀ field ∈ pairs time level fields, WellFormedKey field.1 := by
  simp only [pairs, List.forall_mem_cons]
  exact ⟨⟨by decide +kernel, by decide +kernel⟩, ⟨by decide +kernel, by decide +kernel⟩, keys⟩

theorem printable_pairs (printable : ∀ field ∈ fields, Printable field.2) :
    ∀ field ∈ pairs time level fields, Printable field.2 := by
  simp only [pairs, List.forall_mem_cons]
  exact ⟨(logfmtValue_of_plain time.filled (mem_timestamp time)).1,
    (logfmtValue_of_plain (by cases level <;> decide) (mem_word level)).1, printable⟩

theorem newline_not_mem_line (keys : ∀ field ∈ fields, WellFormedKey field.1) :
    newline ∉ line time level fields := by
  intro mem
  obtain ⟨field, field_mem, chr_mem⟩ := List.mem_flatMap.mp (line_eq time level fields ▸ mem_cons_of_mem space mem)
  exact (mem_fieldText (wellFormed_pairs time level keys field field_mem) chr_mem).1 rfl

/-- A line without a zero byte is written as it is. -/
theorem logLine_eq (zero : 0 ∉ line time level fields) :
    logLine time level fields = line time level fields ++ [newline] := by
  refine List.takeWhile_eq_self_iff.mpr (List.forall_mem_append.mpr ⟨fun chr mem => ?_, by decide +kernel⟩)
  exact decide_eq_true fun is_zero => zero (is_zero ▸ mem)

/-- A zero byte keeps the newline from being written. -/
theorem newline_not_mem_logLine (keys : ∀ field ∈ fields, WellFormedKey field.1)
    (zero : 0 ∈ line time level fields) : newline ∉ logLine time level fields := by
  intro mem
  rw [logLine, fputs, List.takeWhile_append, if_neg] at mem
  · exact newline_not_mem_line time level keys ((List.takeWhile_subset _) mem)
  · intro same
    have stays := List.mem_takeWhile_imp ((List.takeWhile_prefix _).eq_of_length same ▸ zero)
    simp at stays

/-- The reader skips the space that the pairs start with. -/
theorem readLine_eq (text : Bytes) :
    readLine text = readPairs (text.length + 1) (space :: text) := by
  simp [readLine, readPairs]

end Line

/-- A line is ended by its only newline and gives back its fields if, and only if, all values are
printable. -/
theorem logLine_roundTrip (time : Timestamp) (level : LogLevel) (fields : List LogField)
    (keys : ∀ field ∈ fields, WellFormedKey field.1) :
    (∃ body, logLine time level fields = body ++ [newline] ∧ newline ∉ body ∧
      readLine (logLine time level fields) = some (pairs time level fields)) ↔
    ∀ field ∈ fields, Printable field.2 := by
  have all_keys := wellFormed_pairs time level keys
  constructor
  · rintro ⟨body, written, -, read⟩
    have zero : 0 ∉ line time level fields := fun zero =>
      newline_not_mem_logLine time level keys zero (written ▸ by simp)
    rw [readLine_eq, logLine_eq time level zero, ← cons_append, line_eq] at read
    have all := printable_of_readPairs all_keys (fun field mem is_zero => ?_) read
    · exact fun field mem => all field (mem_cons_of_mem _ (mem_cons_of_mem _ mem))
    · have in_line := List.mem_flatMap.mpr ⟨field, mem, zero_mem_fieldText is_zero⟩
      rw [← line_eq, mem_cons] at in_line
      exact in_line.elim (by decide) zero
  · intro printable
    have zero : 0 ∉ line time level fields := by
      intro mem
      obtain ⟨field, field_mem, chr_mem⟩ :=
        List.mem_flatMap.mp (line_eq time level fields ▸ mem_cons_of_mem space mem)
      exact (printable_pairs time level printable field field_mem).1
        ((mem_fieldText (all_keys field field_mem) chr_mem).2 rfl)
    have written := logLine_eq time level zero
    refine ⟨line time level fields, written, newline_not_mem_line time level keys, ?_⟩
    rw [readLine_eq, written, ← cons_append, line_eq]
    refine readPairs_fields all_keys (printable_pairs time level printable) ?_
    have := length_le_fields (pairs time level fields)
    rw [← line_eq, List.length_cons] at this
    rw [List.length_append, List.length_singleton]
    omega

/-- A call with one value. -/
def oneValue (value : Bytes) : Bytes :=
  logLine ⟨ascii ['0'], by decide +kernel, by decide +kernel⟩ .info [(ascii ['c', 'n'], value)]

theorem logLine_roundTrip_quoted :
    ∃ body, oneValue (ascii ['a', ' ', '"', '\n']) = body ++ [newline] ∧ newline ∉ body ∧
      readLine (oneValue (ascii ['a', ' ', '"', '\n'])) =
        some (pairs ⟨ascii ['0'], by decide +kernel, by decide +kernel⟩ .info
          [(ascii ['c', 'n'], ascii ['a', ' ', '"', '\n'])]) :=
  (logLine_roundTrip _ _ _ (List.forall_mem_singleton.mpr ⟨by decide +kernel, by decide +kernel⟩)).mpr
    (List.forall_mem_singleton.mpr ⟨by decide, .inl (by decide)⟩)

/-- A zero byte keeps the newline from being written, and a tab ends a value that is not quoted. -/
theorem logLine_breaks : newline ∉ oneValue [97, 0, 98] ∧ readLine (oneValue (ascii ['a', '\t', 'b'])) = none := by
  decide +kernel

end
end NixGrpcStore.Logfmt
