import BareBones.Userland.Cstandard

/-!
# `printf` and `scanf`

The model of `vprintf` and `vscanf` of `cstandard.c`.  `vprintf` writes one character at a time
with `putChar`; the model is the list of these characters.  `vscanf` asks for one character at a
time with `getChar`, which returns `'\0'` when there is none; the model is given what can still
be read and returns what is left of it.  A NUL in the input is never read: `sys_read` is `readFd`,
which drops it and reads on.

`scanf` reads a number up to the first character that is no digit, and a word up to the first
line end or tabulator, and *takes that character with it*.  So a format that prints
`"%d,"` is read with `"%d"`.  A `Field` is a piece of text with the two formats that print it and
read it.

**Key results.**

* `vprintf_fields`: a format made up of fields prints the fields.
* `vscanf_fields`: and `scanf` reads the values back and leaves what follows.
-/

namespace BareBones.Userland.Stdio

open Cstandard

/-! ## Printing -/

/-- An argument of `printf`. -/
inductive Arg
  | int (value : Int32)
  | char (c : Char)
  /-- A string, or a null pointer. -/
  | str (s : Option (List Char))
  deriving DecidableEq

/-- The `switch` of `vprintf`: what is printed for `%format`, and the arguments that are left.
`none` where `va_arg` finds no argument of the type that it is asked for. -/
def convert (format : Char) (args : List Arg) : Option (List Char × List Arg) :=
  if format = 'd' ∨ format = 'i' then
    match args with
    | .int value :: args => (numToString value.toInt64).map (·, args)
    | _ => none
  else if format = 'c' then
    match args with
    | .char c :: args => some ([c], args)
    | _ => none
  else if format = 's' then
    match args with
    | .str s :: args => some (s.getD "(null)".toList, args)
    | _ => none
  else if format = '%' then some (['%'], args)
  -- an unknown conversion is printed as it stands
  else some (['%', format], args)

/-- `vprintf`: the characters that it passes to `putChar`.  The count that it returns is their
number, and `printf` does not pass it on. -/
def vprintf : (format : List Char) → (args : List Arg) → Option (List Char)
  | [], _ => some []
  | '%' :: c :: format, args =>
      (convert c args).bind fun (text, args) ↦ (vprintf format args).map (text ++ ·)
  | c :: format, args => (vprintf format args).map (c :: ·)

/-! ## Scanning -/

/-- `'\0'` -/
def NUL : Char := Char.ofNat 0

/-- `getChar`, on what can still be read: `readFd` takes the NULs out of it. -/
def getChar : (input : List Char) → Char × List Char
  | [] => (NUL, [])
  | c :: input => if c = NUL then getChar input else (c, input)

/-- `c == ' ' || c == '\t' || c == '\n' || c == '\r'` -/
def isBlank (c : Char) : Bool := c = ' ' || c = '\t' || c = '\n' || c = '\r'

/-- `c != '\t' && c != '\n' && c != '\r' && c != '\0'` -/
def inWord (c : Char) : Bool := !(c = '\t' || c = '\n' || c = '\r' || c = NUL)

/-- The loop that skips blanks, with the `getChar` that finds no blank. -/
def skipBlanks : (input : List Char) → Char × List Char
  | [] => (NUL, [])
  | c :: input => if c = NUL ∨ isBlank c then skipBlanks input else (c, input)

/-- The size of `buffer` in `vscanf`. -/
def BUFFER_SIZE : Nat := 256

/-- The loop that reads the digits of a number into `buffer[bufferIndex]` and after, and ends it.
The character that is no digit is read too.  `none` is a write behind the buffer. -/
def readDigits : (bufferIndex : Nat) → (input : List Char) → Option (List Char × List Char)
  | bufferIndex, [] => if bufferIndex < BUFFER_SIZE then some ([], []) else none
  | bufferIndex, c :: input =>
      if c = NUL then readDigits bufferIndex input
      else if bufferIndex < BUFFER_SIZE then
        if isNumber c then
          (readDigits (bufferIndex + 1) input).map fun (digits, input) ↦ (c :: digits, input)
        else some ([], input)
      else none

/-- The loop that reads the rest of a word. -/
def readWord : (input : List Char) → List Char × List Char
  | [] => ([], [])
  | c :: input =>
      if c = NUL then readWord input
      else if inWord c then
        let (word, input) := readWord input
        (c :: word, input)
      else ([], input)

/-- A value that `scanf` has stored. -/
inductive Stored
  | int (value : Int32)
  | char (c : Char)
  | str (s : List Char)
  deriving DecidableEq

/-- The `switch` of `vscanf`: what is stored for `%format`, and the input that is left; the flag
says whether it goes on.  `none` is a write behind the buffer. -/
def scan (format : Char) (input : List Char) : Option (List Stored × List Char × Bool) :=
  if format = 'd' ∨ format = 'i' then
    let (c, input) := skipBlanks input
    if c = '-' ∨ isNumber c then
      (readDigits 1 input).map fun (digits, input) ↦
        ([.int (stringToInt (c :: digits)).toInt32], input, true)
    else some ([], input, true)
  else if format = 'c' then
    let (c, input) := getChar input
    some ([.char c], input, true)
  else if format = 's' then
    let (c, input) := skipBlanks input
    if inWord c then
      let (word, input) := readWord input
      some ([.str (c :: word)], input, true)
    else some ([.str []], input, true)
  else if format = '%' then
    let (c, input) := getChar input
    some ([], input, c = '%')
  else some ([], input, true)

/-- `vscanf`: the values that it stores, the number of which it returns, and what is left to be
read. -/
def vscanf : (format : List Char) → (input : List Char) → Option (List Stored × List Char)
  | [], input => some ([], input)
  | '%' :: f :: format, input =>
      (scan f input).bind fun (stored, input, goOn) ↦
        if goOn then (vscanf format input).map fun (more, input) ↦ (stored ++ more, input)
        else some (stored, input)
  | f :: format, input =>
      let (c, input) := getChar input
      if c ≠ f then some ([], input) else vscanf format input

/-! ## Fields -/

/-- A piece of a text that is printed and read. -/
inductive Field
  /-- A number, and the character after it. -/
  | int (value : Int32) (delimiter : Char)
  | char (c : Char)
  /-- A word, and the character after it. -/
  | str (word : List Char) (delimiter : Char)
  /-- A character of the format. -/
  | plain (c : Char)
  | percent

/-- A character that a format prints as it stands. -/
def literal (c : Char) : List Char := if c = '%' then ['%', '%'] else [c]

/-- The format that prints a field. -/
def Field.printFormat : Field → List Char
  | .int _ delimiter => '%' :: 'd' :: literal delimiter
  | .char _ => ['%', 'c']
  | .str _ delimiter => '%' :: 's' :: literal delimiter
  | .plain c => literal c
  | .percent => ['%', '%']

/-- The argument that goes with it. -/
def Field.args : Field → List Arg
  | .int value _ => [.int value]
  | .char c => [.char c]
  | .str word _ => [.str (some word)]
  | .plain _ | .percent => []

/-- The text of a field. -/
def Field.text : Field → List Char
  | .int value delimiter => decimal value.toInt ++ [delimiter]
  | .char c => [c]
  | .str word delimiter => word ++ [delimiter]
  | .plain c => [c]
  | .percent => ['%']

/-- The format that reads a field. -/
def Field.scanFormat : Field → List Char
  | .int _ _ => ['%', 'd']
  | .char _ => ['%', 'c']
  | .str _ _ => ['%', 's']
  | .plain c => literal c
  | .percent => ['%', '%']

/-- What reading it stores. -/
def Field.stored : Field → List Stored
  | .int value _ => [.int value]
  | .char c => [.char c]
  | .str word _ => [.str word]
  | .plain _ | .percent => []

/-- The field can be told from what follows it: a number ends before a character that is no
digit; a word has no line end or tabulator in it and no blank before it, and ends before
one.  No character is a NUL, which is not read, and ends a format. -/
def Field.Delimited : Field → Prop
  | .int _ delimiter => isNumber delimiter = false ∧ delimiter ≠ NUL
  | .char c => c ≠ NUL
  | .str word delimiter =>
      (∃ c rest, word = c :: rest ∧ isBlank c = false) ∧ (∀ c ∈ word, inWord c = true) ∧
        inWord delimiter = false ∧ delimiter ≠ NUL
  | .plain c => c ≠ NUL
  | .percent => True

variable {format text input : List Char} {args : List Arg} {c f : Char}

/-! ### They print -/

/-- A character that is no percent sign stands for itself. -/
theorem vprintf_plain (hc : c ≠ '%') (format : List Char) (args : List Arg) :
    vprintf (c :: format) args = (vprintf format args).map (c :: ·) := by
  rw [vprintf]
  rintro d rest rfl -
  exact hc rfl

/-- Every character can be printed. -/
theorem vprintf_literal (c : Char) (format : List Char) (args : List Arg) :
    vprintf (literal c ++ format) args = (vprintf format args).map (c :: ·) := by
  unfold literal
  split
  next heq =>
      subst heq
      rfl
  next hne => exact vprintf_plain hne format args

theorem numToString_toInt64 (value : Int32) :
    numToString value.toInt64 = some (decimal value.toInt) := by
  have hne : value.toInt64 ≠ Int64.minValue := by
    intro heq
    have hval := congrArg Int64.toInt heq
    rw [Int32.toInt_toInt64] at hval
    have hlow := value.le_toInt
    have hmin : Int64.minValue.toInt = -2 ^ 63 := by decide
    omega
  rw [numToString_eq hne, Int32.toInt_toInt64]

/-- One field is printed, and then the others. -/
theorem vprintf_field (field : Field) (format : List Char) (args : List Arg) :
    vprintf (field.printFormat ++ format) (field.args ++ args) =
      (vprintf format args).map (field.text ++ ·) := by
  cases field with
  | int value delimiter =>
      change (convert 'd' (.int value :: args)).bind _ = _
      have hconvert : convert 'd' (.int value :: args) = some (decimal value.toInt, args) := by
        simp [convert, numToString_toInt64]
      rw [hconvert]
      change (vprintf (literal delimiter ++ format) args).map _ = _
      rw [vprintf_literal, Option.map_map]
      congr 1
      funext text
      change decimal value.toInt ++ delimiter :: text = decimal value.toInt ++ [delimiter] ++ text
      rw [List.append_assoc]
      rfl
  | char c => rfl
  | str word delimiter =>
      change (vprintf (literal delimiter ++ format) args).map _ = _
      rw [vprintf_literal, Option.map_map]
      congr 1
      funext text
      change word ++ delimiter :: text = word ++ [delimiter] ++ text
      rw [List.append_assoc]
      rfl
  | plain c => exact vprintf_literal c format args
  | percent => rfl

/-- **A format made up of fields prints the fields.** -/
theorem vprintf_fields (fields : List Field) :
    vprintf (fields.flatMap Field.printFormat) (fields.flatMap Field.args) =
      some (fields.flatMap Field.text) := by
  induction fields with
  | nil => rfl
  | cons field fields ih =>
      rw [List.flatMap_cons, List.flatMap_cons, vprintf_field, ih, List.flatMap_cons]
      rfl

/-! ### They are read -/

/-- A number is read up to the character that is no digit, and that character with it. -/
theorem readDigits_eq {digits : List Char} {index : Nat} (hdigits : ∀ c ∈ digits, isNumber c)
    (hroom : index + digits.length < BUFFER_SIZE) (hc : isNumber c = false) (hnul : c ≠ NUL) :
    readDigits index (digits ++ c :: input) = some (digits, input) := by
  induction digits generalizing index with
  | nil =>
      rw [List.nil_append, readDigits, if_neg hnul, if_pos (by simpa using hroom), if_neg]
      rw [hc]
      exact Bool.false_ne_true
  | cons d digits ih =>
      rw [List.length_cons] at hroom
      have hd := hdigits d List.mem_cons_self
      have hnul : d ≠ NUL := by
        rintro rfl
        exact absurd hd (by decide)
      rw [List.cons_append, readDigits, if_neg hnul, if_pos (by omega), if_pos hd,
        ih (fun c hc ↦ hdigits c (List.mem_cons_of_mem d hc)) (by omega)]
      rfl

/-- No character of a word is a NUL. -/
theorem ne_nul (hc : inWord c = true) : c ≠ NUL := by
  rintro rfl
  exact absurd hc (by decide)

/-- A word is read up to the character that ends it, and that character with it. -/
theorem readWord_eq {word : List Char} (hword : ∀ c ∈ word, inWord c) (hc : inWord c = false)
    (hnul : c ≠ NUL) : readWord (word ++ c :: input) = (word, input) := by
  induction word with
  | nil =>
      rw [List.nil_append, readWord, if_neg hnul, if_neg]
      rw [hc]
      exact Bool.false_ne_true
  | cons d word ih =>
      rw [List.cons_append, readWord, if_neg (ne_nul (hword d List.mem_cons_self)),
        if_pos (hword d List.mem_cons_self),
        ih fun c hc ↦ hword c (List.mem_cons_of_mem d hc)]

theorem skipBlanks_cons (hc : isBlank c = false) (hnul : c ≠ NUL) :
    skipBlanks (c :: input) = (c, input) := by
  rw [skipBlanks, if_neg]
  rintro (heq | hblank)
  · exact hnul heq
  · rw [hc] at hblank
    cases hblank

theorem getChar_cons (hnul : c ≠ NUL) : getChar (c :: input) = (c, input) := if_neg hnul

/-- The text of a number begins with a sign or a digit, and goes on with digits. -/
theorem decimal_eq_cons (z : Int) : ∃ c digits, decimal z = c :: digits ∧
    (c = '-' ∨ isNumber c) ∧ ∀ d ∈ digits, isNumber d := by
  have hdigits := isDigits_toDigits z.natAbs
  unfold decimal
  split
  next => exact ⟨'-', _, rfl, .inl rfl, hdigits.2⟩
  next =>
      obtain ⟨c, rest, heq⟩ := List.exists_cons_of_ne_nil hdigits.1
      rw [heq] at hdigits ⊢
      exact ⟨c, rest, rfl, .inr (hdigits.2 c List.mem_cons_self),
        fun d hd ↦ hdigits.2 d (List.mem_cons_of_mem c hd)⟩

theorem isBlank_of_number (hc : c = '-' ∨ isNumber c) : isBlank c = false := by
  rcases hc with rfl | hc
  · decide
  · rw [isNumber_iff] at hc
    by_contra hblank
    rw [Bool.not_eq_false, isBlank] at hblank
    simp only [Bool.or_eq_true, decide_eq_true_eq] at hblank
    rcases hblank with ((rfl | rfl) | rfl) | rfl <;> exact absurd hc (by decide)

/-- **A number is read back.** -/
theorem scan_int (value : Int32) (hc : isNumber c = false) (hnul : c ≠ NUL) (input : List Char) :
    scan 'd' (decimal value.toInt ++ c :: input) = some ([.int value], input, true) := by
  obtain ⟨d, digits, heq, hd, hdigits⟩ := decimal_eq_cons value.toInt
  have hlen : digits.length + 1 ≤ 20 := by
    have := length_decimal value.toInt64
    rw [Int32.toInt_toInt64, heq, List.length_cons] at this
    exact this
  have hparse : stringToInt (d :: digits) = value.toInt64 := by
    rw [← heq, ← Int32.toInt_toInt64, stringToInt_decimal]
  have hroom : 1 + digits.length < BUFFER_SIZE := by
    unfold BUFFER_SIZE
    omega
  rw [heq, List.cons_append]
  unfold scan
  have hd' : d ≠ NUL := by
    rintro rfl
    exact absurd hd (by decide)
  rw [if_pos (.inl rfl), skipBlanks_cons (isBlank_of_number hd) hd']
  simp only
  rw [if_pos hd, readDigits_eq hdigits hroom hc hnul]
  simp only [Option.map_some, hparse, Int32.toInt32_toInt64]

/-- **A word is read back.** -/
theorem scan_str {word : List Char} (hfirst : ∃ c rest, word = c :: rest ∧ isBlank c = false)
    (hword : ∀ c ∈ word, inWord c = true) (hc : inWord c = false) (hnul : c ≠ NUL)
    (input : List Char) : scan 's' (word ++ c :: input) = some ([.str word], input, true) := by
  obtain ⟨d, rest, rfl, hd⟩ := hfirst
  unfold scan
  rw [if_neg (by decide), if_neg (by decide), if_pos rfl, List.cons_append,
    skipBlanks_cons hd (ne_nul (hword d List.mem_cons_self))]
  simp only
  rw [if_pos (hword d List.mem_cons_self),
    readWord_eq (fun c hc ↦ hword c (List.mem_cons_of_mem d hc)) hc hnul]

/-- A character of the format is read. -/
theorem vscanf_literal (hnul : c ≠ NUL) (format input : List Char) :
    vscanf (literal c ++ format) (c :: input) = vscanf format input := by
  unfold literal
  split
  next heq =>
      subst heq
      have hscan : scan '%' ('%' :: input) = some ([], input, true) := by
        simp [scan, getChar_cons hnul]
      rw [List.cons_append, List.cons_append, List.nil_append, vscanf, hscan, Option.bind_some]
      cases hrest : vscanf format input with
      | none => simp [hrest]
      | some x => simp [hrest]
  next hne =>
      rw [List.singleton_append, vscanf]
      · simp [getChar_cons hnul]
      · rintro d rest rfl -
        exact hne rfl

/-- One field is read, and then the others. -/
theorem vscanf_field (field : Field) (hfield : field.Delimited) (format input : List Char) :
    vscanf (field.scanFormat ++ format) (field.text ++ input) =
      (vscanf format input).map fun x ↦ (field.stored ++ x.1, x.2) := by
  cases field with
  | int value delimiter =>
      change (scan 'd' (decimal value.toInt ++ [delimiter] ++ input)).bind _ = _
      rw [List.append_assoc]
      change (scan 'd' (decimal value.toInt ++ delimiter :: input)).bind _ = _
      rw [scan_int value hfield.1 hfield.2]
      rfl
  | char c =>
      change (some ([Stored.char (getChar (c :: input)).1], (getChar (c :: input)).2, true)).bind
        _ = _
      rw [getChar_cons hfield]
      rfl
  | str word delimiter =>
      obtain ⟨hfirst, hword, hdelimiter, hnul⟩ := hfield
      change (scan 's' (word ++ [delimiter] ++ input)).bind _ = _
      rw [List.append_assoc]
      change (scan 's' (word ++ delimiter :: input)).bind _ = _
      rw [scan_str hfirst hword hdelimiter hnul]
      rfl
  | plain c =>
      refine (vscanf_literal hfield format input).trans ?_
      cases vscanf format input <;> rfl
  | percent =>
      refine (vscanf_literal (show '%' ≠ NUL by decide) format input).trans ?_
      cases vscanf format input <;> rfl

/-- **What was printed is read back.**  For every list of fields that can be told from what
follows them, `scanf` stores their values, one for each, and leaves what comes after them,
whatever it is. -/
theorem vscanf_fields (fields : List Field) (hfields : ∀ field ∈ fields, field.Delimited)
    (input : List Char) : ∃ text,
      vprintf (fields.flatMap Field.printFormat) (fields.flatMap Field.args) = some text ∧
      vscanf (fields.flatMap Field.scanFormat) (text ++ input) =
        some (fields.flatMap Field.stored, input) := by
  refine ⟨_, vprintf_fields fields, ?_⟩
  induction fields with
  | nil => rfl
  | cons field fields ih =>
      have hrest := ih fun other hother ↦ hfields other (List.mem_cons_of_mem field hother)
      rw [List.flatMap_cons, List.flatMap_cons, List.append_assoc,
        vscanf_field field (hfields field List.mem_cons_self), hrest, List.flatMap_cons]
      rfl

/-- A number before a comma, a line with a blank in it, and a percent sign. -/
theorem vscanf_fields_three :
    let fields := [Field.int (-42) ',', .str "a line".toList '\n', .char 'x', .percent]
    ∃ text, vprintf (fields.flatMap Field.printFormat) (fields.flatMap Field.args) = some text ∧
      vscanf (fields.flatMap Field.scanFormat) (text ++ ['!']) =
        some (fields.flatMap Field.stored, ['!']) := by
  intro fields
  refine vscanf_fields fields (fun field hfield ↦ ?_) ['!']
  simp only [fields, List.mem_cons, List.not_mem_nil, or_false] at hfield
  rcases hfield with rfl | rfl | rfl | rfl
  · exact ⟨rfl, by decide⟩
  · have hword : "a line".toList.all inWord = true := rfl
    exact ⟨⟨'a', _, rfl, rfl⟩, List.all_eq_true.mp hword, rfl, by decide⟩
  · exact (by decide : 'x' ≠ NUL)
  · trivial

end BareBones.Userland.Stdio
