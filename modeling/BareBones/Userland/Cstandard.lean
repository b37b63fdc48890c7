import Mathlib.Data.Nat.Basic
import Mathlib.Logic.Function.Iterate
import Mathlib.Tactic.IntervalCases
import Mathlib.Tactic.Linarith

/-!
# The numbers of the small C library

`cstandard.c` converts between 64-bit signed numbers and their decimal text, for
`printf`, for the arguments of the commands and for the names of the tests.

`numToString` takes the digits of the number from the lowest up, pushes them on a stack
of twenty cells, and pops them into the buffer after the sign.  `stringToInt` accumulates
the digits of a text, with no check on the size of the number it has so far, and returns
`-1` on the first character that is not a digit.

The arithmetic is the machine's: `Int64` with division towards zero and with everything
else modulo `2 ^ 64`.  A string is the list of the characters before its terminator.

**Key results**:
- `digitLoop_eq`: on a number that is not negative the loop pushes the decimal digits, and
  asks for one cell a digit.
- `stringToInt_eq`: the text is read as its numeral modulo `2 ^ 64`; a text with another
  character in it reads `-1`, and one without digits `0`.
- `printed_iff`: printing is canonical and parsing takes it back **exactly when** the number
  is not `-2 ^ 63`.  There `number *= -1` leaves a negative number, whose only digit is
  the character eight places below `'0'`.
- `randomRange_iff`: a random number lies in the range it was asked for **exactly when** the
  state of the generator fits the width of the range.  The largest draw is `RANDOM_MAX`
  itself, so it is scaled to the width and not below it, and the scaled draw is cast to `int`.
-/

namespace BareBones.Userland.Cstandard

/-! ## Printing -/

/-- `digit + '0'`, for a digit that C computed as a remainder. -/
def digitToChar (digit : Int64) : Char := Char.ofNat (digit + 48).toInt.toNat

/-- The `do … while (number > 0)` loop of `numToString`, with `room` cells left on its
stack; the head of `stack` is the cell pushed last.  `none` is a push past the last cell. -/
def digitLoop : (room : Nat) → (number : Int64) → (stack : List Char) → Option (List Char)
  | 0, _, _ => none
  | room + 1, number, stack =>
    let stack := digitToChar (number % 10) :: stack
    let number := number / 10
    if number > 0 then digitLoop room number stack else some stack

/-- `numToString`: what it leaves in the buffer before the terminator. -/
def numToString (number : Int64) : Option (List Char) :=
  if number < 0 then (digitLoop 20 (number * -1) []).map ('-' :: ·)
  else digitLoop 20 number []

/-! ## Parsing -/

/-- `isNumber`. -/
def isNumber (c : Char) : Bool := '0' ≤ c && c ≤ '9'

/-- The `while` loop of `stringToInt`; `none` is its `return -1`. -/
def digitsToInt : (str : List Char) → (out : Int64) → Option Int64
  | [], out => some out
  | c :: str, out =>
    if isNumber c then digitsToInt str (out * 10 + Int64.ofInt (c.toNat - 48)) else none

/-- The text without its sign, and whether it had one. -/
def splitSign : List Char → Bool × List Char
  | '-' :: str => (true, str)
  | str => (false, str)

/-- `stringToInt`. -/
def stringToInt (str : List Char) : Int64 :=
  let (negative, str) := splitSign str
  match digitsToInt str 0 with
  | none => -1
  | some out => if negative then out * -1 else out

/-! ## What the text means -/

/-- The canonical decimal form: an optional minus sign and the digits from the highest
down, without a leading zero. -/
def decimal (z : Int) : List Char :=
  if z < 0 then '-' :: Nat.toDigits 10 z.natAbs else Nat.toDigits 10 z.natAbs

/-- The digits of a numeral: at least one, and nothing else. -/
def IsDigits (str : List Char) : Prop := str ≠ [] ∧ ∀ c ∈ str, isNumber c

instance (str : List Char) : Decidable (IsDigits str) :=
  @instDecidableAnd _ _ _ (List.decidableBAll (fun c ↦ isNumber c = true) str)

/-- A number with the sign it was written with. -/
def signed (negative : Bool) (n : Nat) : Int := if negative then -(n : Int) else n

/-- The decimal number written in a text: an optional minus sign and one digit or more,
with leading zeros allowed; `none` when the text is not a decimal number. -/
def numeral (str : List Char) : Option Int :=
  if IsDigits (splitSign str).2 then
    some (signed (splitSign str).1 (Nat.ofDigitChars 10 (splitSign str).2 0))
  else none

/-- What is asked of the text printed for `n`. -/
structure Printed (n : Int64) (text : List Char) : Prop where
  /-- At most twenty characters stand before the terminator. -/
  short : text.length ≤ 20
  /-- The text is the canonical form. -/
  canonical : text = decimal n.toInt
  /-- It reads as the number again. -/
  parsed : stringToInt text = n

/-! ## The digit loop -/

theorem digitToChar_eq {digit : Int64} {d : Nat} (hdigit : digit.toInt = d) (hd : d < 10) :
    digitToChar digit = d.digitChar := by
  have hsum : (digit + 48).toInt = d + 48 := by
    rw [Int64.toInt_add, hdigit]
    exact Int.bmod_eq_of_le (by simp; omega) (by simp; omega)
  rw [digitToChar, hsum]
  interval_cases d <;> rfl

/-- The number after one turn is the number without its last digit. -/
theorem toInt_div_ten {number : Int64} {m : Nat} (hm : number.toInt = m) :
    (number / 10).toInt = (m / 10 : Nat) := by
  rw [Int64.toInt_div_of_ne_right _ _ (by decide), hm]
  rfl

/-- The digit of one turn is the last one. -/
theorem toInt_mod_ten {number : Int64} {m : Nat} (hm : number.toInt = m) :
    (number % 10).toInt = (m % 10 : Nat) := by
  rw [Int64.toInt_mod, hm]
  rfl

/-- **The loop pushes the decimal digits**, and fails only for want of a cell. -/
theorem digitLoop_eq (room : Nat) (number : Int64) (m : Nat) (hm : number.toInt = m)
    (stack : List Char) : digitLoop room number stack =
      if (Nat.toDigits 10 m).length ≤ room then some (Nat.toDigits 10 m ++ stack) else none := by
  -- by induction on the cells that are left: one digit goes to each
  induction room generalizing number m stack with
  | zero =>
      have hpos : 0 < (Nat.toDigits 10 m).length := Nat.length_toDigits_pos
      rw [if_neg (by omega)]
      rfl
  | succ room ih =>
      have hdigit := digitToChar_eq (toInt_mod_ten hm) (Nat.mod_lt m (by decide))
      have hrest := toInt_div_ten hm
      have hmore : number / 10 > 0 ↔ 10 ≤ m := by
        rw [gt_iff_lt, Int64.lt_iff_toInt_lt, hrest]
        simp
        omega
      rw [digitLoop, hdigit]
      by_cases hten : 10 ≤ m
      · simp only [if_pos (hmore.2 hten)]
        rw [ih _ _ hrest, Nat.toDigits_of_base_le (by decide) hten]
        simp
      · simp only [if_neg (mt hmore.1 hten)]
        rw [Nat.toDigits_of_lt_base (by omega), Nat.mod_eq_of_lt (by omega)]
        simp

/-- Twenty cells are enough for every number of 64 bits that is not negative. -/
theorem digitLoop_twenty {number : Int64} {m : Nat} (hm : number.toInt = m) :
    digitLoop 20 number [] = some (Nat.toDigits 10 m) := by
  have hlt : m < 2 ^ 63 := by
    have := number.toInt_lt
    omega
  have hlen : (Nat.toDigits 10 m).length ≤ 20 :=
    (Nat.length_toDigits_le_iff (by decide) (by decide)).2 (hlt.trans (by decide))
  rw [digitLoop_eq _ _ _ hm, if_pos hlen, List.append_nil]

/-! ## The parse -/

theorem isNumber_iff {c : Char} : isNumber c ↔ 48 ≤ c.toNat ∧ c.toNat ≤ 57 := by
  simp only [isNumber, Bool.and_eq_true, decide_eq_true_eq, Char.le_def]
  exact Iff.rfl

theorem isNumber_of_isDigit {c : Char} (h : c.isDigit) : isNumber c := by
  simpa [isNumber, Char.isDigit, Char.le_def] using h

/-- The accumulation, from any number read so far. -/
theorem digitsToInt_eq (str : List Char) (m : Nat) (h : ∀ c ∈ str, isNumber c) :
    digitsToInt str (Int64.ofInt m) = some (Int64.ofInt (Nat.ofDigitChars 10 str m)) := by
  induction str generalizing m with
  | nil => simp [digitsToInt]
  | cons c str ih =>
      obtain ⟨hc, hstr⟩ := List.forall_mem_cons.1 h
      have hval := isNumber_iff.1 hc
      have hstep : Int64.ofInt m * 10 + Int64.ofInt (c.toNat - 48)
          = Int64.ofInt (10 * m + (c.toNat - 48) : Nat) := by
        have hcast : ((10 * m + (c.toNat - 48) : Nat) : Int) = m * 10 + (c.toNat - 48) := by
          omega
        rw [hcast, Int64.ofInt_add, Int64.ofInt_mul]
        rfl
      rw [digitsToInt, if_pos hc, hstep, ih _ hstr, Nat.ofDigitChars_cons]
      rfl

/-- Another character ends the loop, wherever it stands. -/
theorem digitsToInt_eq_none {str : List Char} {out : Int64} (h : ¬ ∀ c ∈ str, isNumber c) :
    digitsToInt str out = none := by
  induction str generalizing out with
  | nil => simp at h
  | cons c str ih =>
      rw [digitsToInt]
      split
      next hc =>
        apply ih
        intro hstr
        exact h (List.forall_mem_cons.2 ⟨hc, hstr⟩)
      next => rfl

/-- **The parse**: a numeral modulo `2 ^ 64`, zero for a text without digits, and `-1` for
any other text. -/
theorem stringToInt_eq (str : List Char) : stringToInt str =
    match numeral str with
    | some z => Int64.ofInt z
    | none => if (splitSign str).2 = [] then 0 else -1 := by
  unfold stringToInt numeral
  rcases splitSign str with ⟨negative, ds⟩
  by_cases hds : ∀ c ∈ ds, isNumber c
  · have hparse : digitsToInt ds 0 = some (Int64.ofInt (Nat.ofDigitChars 10 ds 0)) := by
      simpa using digitsToInt_eq ds 0 hds
    by_cases hempty : ds = []
    · subst hempty
      cases negative <;> simp [digitsToInt, IsDigits]
    · rw [if_pos ⟨hempty, hds⟩]
      cases negative with
      | true =>
          have hneg (x : Int64) : x * -1 = -x := by
            rw [Int64.mul_comm, ← Int64.neg_eq_neg_one_mul]
          simp [hparse, signed, hneg]
      | false => simp [hparse, signed]
  · have hempty : ds ≠ [] := by
      rintro rfl
      simp at hds
    have hnot : ¬ IsDigits ds := fun h ↦ hds h.2
    simp [digitsToInt_eq_none hds, hnot, hempty]

/-! ## The round trip -/

theorem isDigits_toDigits (m : Nat) : IsDigits (Nat.toDigits 10 m) :=
  ⟨Nat.toDigits_ne_nil, fun _ hc ↦
    isNumber_of_isDigit (Nat.isDigit_of_mem_toDigits (by decide) (by decide) hc)⟩

/-- No sign is split off where the text starts with a digit. -/
theorem splitSign_of_isDigits {str : List Char} (h : IsDigits str) :
    splitSign str = (false, str) := by
  unfold splitSign
  split
  next rest =>
    have hminus : isNumber '-' := h.2 '-' (by simp)
    simp [isNumber] at hminus
  next => rfl

/-- The canonical form is a numeral of the number. -/
theorem numeral_decimal (z : Int) : numeral (decimal z) = some z := by
  have hdigits := isDigits_toDigits z.natAbs
  unfold decimal numeral
  split
  next hneg =>
    have hsplit : splitSign ('-' :: Nat.toDigits 10 z.natAbs)
        = (true, Nat.toDigits 10 z.natAbs) := rfl
    rw [hsplit, if_pos hdigits]
    simp only [Nat.ofDigitChars_ten_toDigits, signed, if_true]
    congr 1
    omega
  next hpos =>
    rw [splitSign_of_isDigits hdigits, if_pos hdigits]
    simp only [Nat.ofDigitChars_ten_toDigits, signed]
    congr 1
    simp
    omega

theorem stringToInt_decimal (n : Int64) : stringToInt (decimal n.toInt) = n := by
  rw [stringToInt_eq, numeral_decimal]
  exact Int64.ofInt_toInt n

theorem length_decimal (n : Int64) : (decimal n.toInt).length ≤ 20 := by
  have hlow := n.le_toInt
  have hhigh := n.toInt_lt
  have hlen : (Nat.toDigits 10 n.toInt.natAbs).length ≤ 19 := by
    refine (Nat.length_toDigits_le_iff (by decide) (by decide)).2 ?_
    have : n.toInt.natAbs ≤ 2 ^ 63 := by omega
    exact lt_of_le_of_lt this (by decide)
  unfold decimal
  split
  · rw [List.length_cons]
    omega
  · omega

/-- The sign is dropped, but for the one number whose negation does not fit. -/
theorem toInt_mul_neg_one {n : Int64} (h : n ≠ Int64.minValue) :
    (n * -1).toInt = -n.toInt := by
  have hne : n.toInt ≠ -2 ^ 63 := fun heq ↦ h (Int64.toInt_inj.1 (heq.trans (by decide)))
  have hlow := n.le_toInt
  have hhigh := n.toInt_lt
  have hmul : (n * -1).toInt = (n.toInt * (-1)).bmod (2 ^ 64) := Int64.toInt_mul n (-1)
  rw [hmul, Int.mul_neg_one]
  exact Int.bmod_eq_of_le (by simp; omega) (by simp; omega)

theorem numToString_eq {n : Int64} (h : n ≠ Int64.minValue) :
    numToString n = some (decimal n.toInt) := by
  unfold numToString decimal
  by_cases hneg : n < 0
  · have hlt : n.toInt < 0 := Int64.lt_iff_toInt_lt.1 hneg
    have habs : (n * -1).toInt = n.toInt.natAbs := by
      rw [toInt_mul_neg_one h]
      omega
    rw [if_pos hneg, if_pos hlt, digitLoop_twenty habs]
    rfl
  · have hge : ¬ n.toInt < 0 := fun hlt ↦ hneg (Int64.lt_iff_toInt_lt.2 hlt)
    have habs : n.toInt = n.toInt.natAbs := by omega
    rw [if_neg hneg, if_neg hge, digitLoop_twenty habs]

/-- Where the negation does not change the sign, the loop makes one turn and pushes the
character eight places below `'0'`. -/
theorem numToString_minValue : numToString Int64.minValue = some ['-', '('] := by
  decide +kernel

/-- The digit stack never overflows. -/
theorem numToString_isSome (n : Int64) : (numToString n).isSome := by
  by_cases hmin : n = Int64.minValue
  · rw [hmin, numToString_minValue]
    rfl
  · rw [numToString_eq hmin]
    rfl

/-- **Printing and parsing are inverse exactly off the lowest number**: the text is at most
twenty characters long, canonical, and read as the number again, if and only if the number
is not `-2 ^ 63`. -/
theorem printed_iff (n : Int64) :
    (∃ text, numToString n = some text ∧ Printed n text) ↔ n ≠ Int64.minValue := by
  constructor
  · rintro ⟨text, htext, hprinted⟩ rfl
    rw [numToString_minValue, Option.some_inj] at htext
    have hparsed : stringToInt ['-', '('] = Int64.minValue := htext ▸ hprinted.parsed
    exact absurd hparsed (by decide +kernel)
  · intro h
    exact ⟨decimal n.toInt, numToString_eq h, length_decimal n, rfl, stringToInt_decimal n⟩

/-- `-9223372036854775808` is printed as a minus sign and an opening parenthesis. -/
theorem minValue_not_printed :
    ¬ ∀ n : Int64, ∃ text, numToString n = some text ∧ Printed n text := by
  intro h
  obtain ⟨text, htext, hprinted⟩ := h Int64.minValue
  rw [numToString_minValue, Option.some_inj] at htext
  have hparsed : stringToInt ['-', '('] = Int64.minValue := htext ▸ hprinted.parsed
  exact absurd hparsed (by decide +kernel)

/-! ## Random numbers -/

/-- `RANDOM_MAX`, the largest value of a draw. -/
def RANDOM_MAX : UInt64 := 0xFFFF

/-- `rng`: the state after `input`.  `S1` is a `short`, so the test against `0xAA55`
compares it as a signed number. -/
def rng (input : UInt16) : UInt16 :=
  let input := if input = 0x560A then 0 else input
  let S0 : UInt16 := input.toUInt8.toUInt16 <<< 8
  let S0 := S0 ^^^ input
  let input := ((S0 &&& 0xFF) <<< 8) ||| ((S0 &&& 0xFF00) >>> 8)
  let S0 := (S0.toUInt8.toUInt16 <<< 1) ^^^ input
  let S1 : Int16 := ((S0 >>> 1) ^^^ 0xFF00).toInt16
  if S0 &&& 1 = 0 then
    if S1.toInt = 0xAA55 then 0 else S1.toUInt16 ^^^ 0x1FF4
  else S1.toUInt16 ^^^ 0x8180

/-- `randomNext`: the draw, and the state it leaves. -/
def randomNext (rngCurrent : UInt16) : UInt16 × UInt16 := (rngCurrent, rng rngCurrent)

/-- `randomRange`: the value returned, and the state it leaves. -/
def randomRange (min max : Int64) (rngCurrent : UInt16) : UInt64 × UInt16 :=
  let range := (max - min).toUInt64 + 1
  let (next, rngCurrent) := randomNext rngCurrent
  let scaled := next.toUInt64 * range / RANDOM_MAX
  ((min + scaled.toInt64.toInt32.toInt64).toUInt64, rngCurrent)

/-- The state after `setRngSeed seed` and a number of draws. -/
def rngState (seed : UInt16) (draws : Nat) : UInt16 := (fun s ↦ (randomNext s).2)^[draws] seed

/-- The returned value, as the signed number the callers take it for, is in the range. -/
def InRange (min max : Int64) (result : UInt64) : Prop :=
  min ≤ result.toInt64 ∧ result.toInt64 ≤ max

/-- What the state and the width of the range have to be: the largest draw is taken only
over a range of `2 ^ 32` numbers or more, and the product of the draw and the width lies in
the lower half of its block of `65535 * 2 ^ 32`, so that the conversion to `int` keeps the sign. -/
def Fits (next : UInt16) (width : Int) : Prop :=
  (next ≠ 0xFFFF ∨ 2 ^ 32 ≤ width) ∧ next.toNat * width % (0xFFFF * 2 ^ 32) < 0xFFFF * 2 ^ 31

instance (next : UInt16) (width : Int) : Decidable (Fits next width) :=
  inferInstanceAs (Decidable (_ ∧ _))

theorem toInt_toInt64 {x : UInt64} (h : x.toNat < 2 ^ 63) : x.toInt64.toInt = x.toNat := by
  have hbits : x.toInt64.toInt = x.toBitVec.toInt := rfl
  have hnat : x.toBitVec.toNat = x.toNat := rfl
  rw [hbits, BitVec.toInt_eq_toNat_of_lt (by omega), hnat]

/-- `range` does not wrap. -/
theorem toNat_range {min max : Int64} (hle : min ≤ max)
    (hwide : max.toInt - min.toInt + 1 ≤ 2 ^ 48) :
    (((max - min).toUInt64 + 1).toNat : Int) = max.toInt - min.toInt + 1 := by
  have hle' : min.toInt ≤ max.toInt := Int64.le_iff_toInt_le.1 hle
  have hsub : (max - min).toInt = max.toInt - min.toInt := by
    rw [Int64.toInt_sub]
    exact Int.bmod_eq_of_le (by simp; omega) (by simp; omega)
  have hnat : ((max - min).toUInt64.toNat : Int) = max.toInt - min.toInt := by
    have hbits : (max - min).toUInt64.toNat = (max - min).toBitVec.toNat := rfl
    have hcond : (max - min).toInt = (max - min).toBitVec.toInt := rfl
    rw [hsub, BitVec.toInt_eq_toNat_cond] at hcond
    rw [hbits]
    split at hcond <;> omega
  have hone : (1 : UInt64).toNat = 1 := rfl
  rw [UInt64.toNat_add, hone]
  omega

/-- The scaled draw is at most the width, and it is the width exactly for the largest
draw. -/
theorem scaled_le {next width : Nat} (hnext : next ≤ 65535) :
    next * width / 65535 ≤ width := by
  refine Nat.div_le_of_le_mul ?_
  exact Nat.mul_le_mul_right width hnext

theorem scaled_lt {next width : Nat} (hnext : next < 65535) (hwidth : 0 < width) :
    next * width / 65535 < width :=
  Nat.div_lt_of_lt_mul (Nat.mul_lt_mul_of_pos_right hnext hwidth)

/-- The number added to `min`: the scaled draw as an `int`. -/
def offset (next width : Nat) : Int := ((next * width / 65535 : Nat) : Int).bmod (2 ^ 32)

/-- The `int` of a number that is the width for the largest draw and below it for the
others. -/
theorem bmod_iff {next width scaled : Nat} (htop : next = 65535 → scaled = width)
    (hlow : next ≠ 65535 → scaled < width) :
    0 ≤ (scaled : Int).bmod (2 ^ 32) ∧ (scaled : Int).bmod (2 ^ 32) < width ↔
      (next ≠ 65535 ∨ 2 ^ 32 ≤ width) ∧ scaled % 2 ^ 32 < 2 ^ 31 := by
  rw [Int.bmod_def]
  split <;> omega

/-- The lower half of the `int`s is the lower half of a block of products. -/
theorem scaled_mod_iff (product : Nat) :
    product / 65535 % 2 ^ 32 < 2 ^ 31 ↔ product % (65535 * 2 ^ 32) < 65535 * 2 ^ 31 := by
  rw [← Nat.mod_mul_right_div_self, Nat.div_lt_iff_lt_mul (by decide),
    Nat.mul_comm 65535 (2 ^ 31)]

/-- The offset lies below the width, and not below zero, exactly when the state fits the
width. -/
theorem offset_iff {next width : Nat} (hnext : next ≤ 65535) (hwidth : 0 < width) :
    0 ≤ offset next width ∧ offset next width < width ↔
      (next ≠ 65535 ∨ 2 ^ 32 ≤ width) ∧ next * width % (65535 * 2 ^ 32) < 65535 * 2 ^ 31 := by
  have htop : next = 65535 → next * width / 65535 = width := by
    rintro rfl
    exact Nat.mul_div_cancel_left width (by decide)
  have hlow : next ≠ 65535 → next * width / 65535 < width :=
    fun hne ↦ scaled_lt (by omega) hwidth
  rw [← scaled_mod_iff]
  exact bmod_iff htop hlow

/-- Adding an `int` to the lower bound leaves the range of 64 bits only where it leaves the
range asked for as well. -/
theorem bmod_mem_iff {min max width v : Int} (hmin : -2 ^ 63 ≤ min) (hmax : max < 2 ^ 63)
    (hwidth : max - min + 1 = width) (hle : min ≤ max) (hwide : width ≤ 2 ^ 48)
    (hlow : -2 ^ 31 ≤ v) (hhigh : v < 2 ^ 31) :
    min ≤ (min + v).bmod (2 ^ 64) ∧ (min + v).bmod (2 ^ 64) ≤ max ↔ 0 ≤ v ∧ v < width := by
  rw [Int.bmod_def]
  split <;> omega

/-- The value returned, for a width that does not overflow the product. -/
theorem toInt_randomRange {min max : Int64} (next : UInt16) {width : Nat} (hle : min ≤ max)
    (hwidth : max.toInt - min.toInt + 1 = width) (hwide : width ≤ 2 ^ 48) :
    (randomRange min max next).1.toInt64.toInt
      = (min.toInt + offset next.toNat width).bmod (2 ^ 64) := by
  have hnext : next.toNat ≤ 65535 := Nat.le_of_lt_succ next.toNat_lt
  have hrange : ((max - min).toUInt64 + 1).toNat = width := by
    have := toNat_range hle (by omega)
    omega
  have hscaled : (next.toUInt64 * ((max - min).toUInt64 + 1) / RANDOM_MAX).toNat
      = next.toNat * width / 65535 := by
    have hprod : next.toNat * width < 2 ^ 64 :=
      lt_of_le_of_lt (Nat.mul_le_mul hnext hwide) (by decide)
    have hmax : RANDOM_MAX.toNat = 65535 := rfl
    have hcast : next.toUInt64.toNat = next.toNat := rfl
    rw [UInt64.toNat_div, UInt64.toNat_mul, hmax, hcast, hrange, Nat.mod_eq_of_lt hprod]
  have hlt : (next.toUInt64 * ((max - min).toUInt64 + 1) / RANDOM_MAX).toNat < 2 ^ 63 := by
    have : next.toNat * width / 65535 ≤ width := scaled_le hnext
    omega
  have hval : (randomRange min max next).1.toInt64 = min +
    (next.toUInt64 * ((max - min).toUInt64 + 1) / RANDOM_MAX).toInt64.toInt32.toInt64 := rfl
  rw [hval, Int64.toInt_add, Int32.toInt_toInt64, Int64.toInt_toInt32, toInt_toInt64 hlt, hscaled]
  rfl

/-- **`randomRange` stays in its range exactly when the state fits the width**: after any
seed and any number of draws, for any bounds less than `2 ^ 48` apart. -/
theorem randomRange_iff (seed : UInt16) (draws : Nat) (min max : Int64) (hle : min ≤ max)
    (hwide : max.toInt - min.toInt + 1 ≤ 2 ^ 48) :
    InRange min max (randomRange min max (rngState seed draws)).1
      ↔ Fits (rngState seed draws) (max.toInt - min.toInt + 1) := by
  generalize rngState seed draws = next
  have hle' : min.toInt ≤ max.toInt := Int64.le_iff_toInt_le.1 hle
  obtain ⟨width, hwidth⟩ : ∃ width : Nat, max.toInt - min.toInt + 1 = width :=
    ⟨(max.toInt - min.toInt + 1).toNat, by omega⟩
  have hresult := toInt_randomRange next hle hwidth (by omega)
  have hlow : -2 ^ 31 ≤ offset next.toNat width := Int.le_bmod (by decide)
  have hhigh : offset next.toNat width < 2 ^ 31 := Int.bmod_lt (by decide)
  have hne : next ≠ 0xFFFF ↔ next.toNat ≠ 65535 := not_congr UInt16.toNat_inj.symm
  unfold InRange
  rw [Int64.le_iff_toInt_le, Int64.le_iff_toInt_le, hresult,
    bmod_mem_iff min.le_toInt max.toInt_lt hwidth hle' (by omega) hlow hhigh,
    offset_iff (Nat.le_of_lt_succ next.toNat_lt) (by omega), Fits, hwidth, hne, ← Nat.cast_mul]
  omega

/-- A draw over ten numbers. -/
theorem randomRange_ten :
    InRange 0 9 (randomRange 0 9 (rngState 1 2)).1 ↔ Fits (rngState 1 2) 10 :=
  randomRange_iff 1 2 0 9 (by decide) (by decide)

/-- The seed `0xFFFF` draws `10` from zero to nine. -/
theorem randomRange_leaves : ¬ ∀ (seed : UInt16) (draws : Nat) (min max : Int64), min ≤ max →
    max.toInt - min.toInt + 1 ≤ 2 ^ 48 →
    InRange min max (randomRange min max (rngState seed draws)).1 := by
  intro h
  have hten := (h 0xFFFF 0 0 9 (by decide) (by decide)).2
  exact absurd hten (by decide +kernel)

end BareBones.Userland.Cstandard
