import Mathlib.Data.List.Basic
import Mathlib.Tactic.NormNum

/-!
# Sleeping

`timer.c`: the counter `ticks` of the timer interrupt, the time in milliseconds that is
computed from it, and `sleep`, which reads this time in a loop until enough of it has
passed.

The counter is an `unsigned long`, and so is its product with the period, but
`milliseconds_elapsed` returns an `int`.  `sleep` stores what it returns in a `uint64_t`,
which extends its sign, and subtracts in `uint64_t`.  The low 32 bits of the difference are
always those of the time that has passed.  The high ones are zero as long as the `int` has
not fallen below its value at the call; after the product has passed `2 ^ 31` it has, and
the difference is a huge number: **`sleep` returns early exactly if this happens before its
time is over** (`sleep_never_early_iff`).

Interrupts are on while `sleep` is in its loop, and other processes may run between two
turns of the loop.  A run of `sleep` is therefore a list of moments, at each of which the
counter advances by one or the loop makes a turn.
-/

namespace BareBones.Drivers.Timer

/-- `PERIOD_MILLIS` -/
def PERIOD_MILLIS : UInt64 := 55

/-- `timer_handler`, without the sound. -/
def timer_handler (ticks : UInt64) : UInt64 := ticks + 1

/-- `milliseconds_elapsed` -/
def milliseconds_elapsed (ticks : UInt64) : Int32 := (ticks * PERIOD_MILLIS).toUInt32.toInt32

/-- An `int` that is converted to `uint64_t`. -/
def extended (i : Int32) : UInt64 := i.toInt64.toUInt64

/-- What can happen while a process is in the loop of `sleep`. -/
inductive Moment
  /-- The timer handler advances the counter. -/
  | tick
  /-- The loop looks at its condition, and computes `elapsed` if it goes on. -/
  | turn
deriving DecidableEq, Repr

/-- The loop of `sleep`, when the counter has advanced by `passed` since the call: what it
returns, and how far the counter has advanced then.  It is `none` if the loop still goes on
at the end of the list. -/
def sleepLoop (millis start : UInt64) :
    UInt64 → UInt64 → Nat → List Moment → Option (UInt64 × Nat)
  | _, _, _, [] => none
  | ticks, elapsed, passed, .tick :: moments =>
      sleepLoop millis start (timer_handler ticks) elapsed (passed + 1) moments
  | ticks, elapsed, passed, .turn :: moments =>
      if elapsed < millis then
        sleepLoop millis start ticks (extended (milliseconds_elapsed ticks) - start) passed moments
      else some (elapsed, passed)

/-- `sleep` -/
def sleep (millis ticks : UInt64) (moments : List Moment) : Option (UInt64 × Nat) :=
  sleepLoop millis (extended (milliseconds_elapsed ticks)) ticks 0 0 moments

/-! ## Words -/

theorem toInt_milliseconds_elapsed (ticks : UInt64) :
    (milliseconds_elapsed ticks).toInt = Int.bmod ((ticks.toNat * 55 : Nat) : Int) (2 ^ 32) := by
  have hword : (milliseconds_elapsed ticks).toBitVec.toNat =
    ticks.toNat * 55 % 2 ^ 64 % 2 ^ 32 := by
    change (ticks * PERIOD_MILLIS).toUInt32.toNat = _
    rw [UInt64.toNat_toUInt32, UInt64.toNat_mul]
    rfl
  change (milliseconds_elapsed ticks).toBitVec.toInt = _
  rw [BitVec.toInt_eq_toNat_bmod, hword, Int.bmod_def, Int.bmod_def]
  push_cast
  omega

theorem toNat_extended (i : Int32) : ((extended i).toNat : Int) = i.toInt % 2 ^ 64 := by
  have hsame : i.toInt64.toBitVec.toInt = i.toInt := i.toInt_toInt64
  have hlt := i.toInt64.toBitVec.isLt
  change (i.toInt64.toBitVec.toNat : Int) = _
  rw [BitVec.toInt_eq_toNat_cond] at hsame
  rw [← hsame]
  split
  · omega
  · omega

/-- The counter, when it has advanced by `n` since it was `ticks`. -/
def later (ticks : UInt64) (n : Nat) : UInt64 := ticks + UInt64.ofNat n

theorem later_zero (ticks : UInt64) : later ticks 0 = ticks := by simp [later]

theorem timer_handler_later (ticks : UInt64) (n : Nat) :
    timer_handler (later ticks n) = later ticks (n + 1) := by
  simp only [timer_handler, later, UInt64.ofNat_add, UInt64.add_assoc]
  rfl

theorem toInt_later (ticks : UInt64) (n : Nat) : (milliseconds_elapsed (later ticks n)).toInt =
    Int.bmod (((ticks.toNat + n) * 55 : Nat) : Int) (2 ^ 32) := by
  have hcounter : (later ticks n).toNat = (ticks.toNat + n % 2 ^ 64) % 2 ^ 64 := by
    rw [later, UInt64.toNat_add, UInt64.toNat_ofNat']
  rw [toInt_milliseconds_elapsed, hcounter, Int.bmod_def, Int.bmod_def]
  push_cast
  omega

/-- What `sleep` computes as `elapsed`, when the counter has advanced by `n`. -/
def elapsedAfter (ticks : UInt64) (n : Nat) : UInt64 :=
  extended (milliseconds_elapsed (later ticks n)) - extended (milliseconds_elapsed ticks)

/-- The `int` that `milliseconds_elapsed` returns is not below its value at the call, when the
counter has advanced by `n`. -/
def Level (ticks : UInt64) (n : Nat) : Prop :=
  (milliseconds_elapsed ticks).toInt ≤ (milliseconds_elapsed (later ticks n)).toInt

instance (ticks : UInt64) (n : Nat) : Decidable (Level ticks n) :=
  inferInstanceAs (Decidable (_ ≤ _))

/-- The `int`s differ by the time that has passed, or by `2 ^ 32` less. -/
theorem toInt_gap (ticks : UInt64) (n : Nat) :
    (milliseconds_elapsed (later ticks n)).toInt - (milliseconds_elapsed ticks).toInt =
      ((n * 55 % 2 ^ 32 : Nat) : Int) - if Level ticks n then 0 else 2 ^ 32 := by
  have hstart := toInt_milliseconds_elapsed ticks
  have hnow := toInt_later ticks n
  rw [Int.bmod_def] at hstart hnow
  push_cast at hstart hnow
  by_cases hlevel : Level ticks n
  · rw [if_pos hlevel]
    unfold Level at hlevel
    omega
  · rw [if_neg hlevel]
    unfold Level at hlevel
    omega

/-- **The low 32 bits of the difference are right.**  The high ones are those of a sign. -/
theorem toNat_elapsedAfter (ticks : UInt64) (n : Nat) : (elapsedAfter ticks n).toNat =
    n * 55 % 2 ^ 32 + if Level ticks n then 0 else 2 ^ 64 - 2 ^ 32 := by
  have hgap := toInt_gap ticks n
  have hstart := toNat_extended (milliseconds_elapsed ticks)
  have hnow := toNat_extended (milliseconds_elapsed (later ticks n))
  have hlt : n * 55 % 2 ^ 32 < 2 ^ 32 := Nat.mod_lt _ (by decide)
  rw [elapsedAfter, UInt64.toNat_sub]
  generalize n * 55 % 2 ^ 32 = low at hgap hlt ⊢
  by_cases hlevel : Level ticks n
  · rw [if_pos hlevel] at hgap ⊢
    omega
  · rw [if_neg hlevel] at hgap ⊢
    omega

/-- Every time modulo `2 ^ 32` is reached within `2 ^ 32` ticks: the period is odd. -/
theorem exists_ticks (residue : Nat) :
    ∃ n < 2 ^ 32, n * 55 % 2 ^ 32 = residue % 2 ^ 32 := by
  refine ⟨residue * 1483715975 % 2 ^ 32, Nat.mod_lt _ (by decide), ?_⟩
  omega

/-! ## Runs -/

/-- What `sleep` has computed last. -/
inductive Computed (ticks : UInt64) (passed : Nat) : UInt64 → Prop
  /-- Nothing yet. -/
  | start : Computed ticks passed 0
  /-- The time, when the counter had advanced by `n`. -/
  | turn {n : Nat} (hn : n ≤ passed) : Computed ticks passed (elapsedAfter ticks n)

theorem Computed.tick {ticks elapsed : UInt64} {passed : Nat} (h : Computed ticks passed elapsed) :
    Computed ticks (passed + 1) elapsed := by
  cases h with
  | start => exact .start
  | turn hn => exact .turn (Nat.le_succ_of_le hn)

/-- Whatever the loop returns, it has computed before. -/
theorem sleepLoop_computed {millis ticks elapsed r : UInt64} {passed n : Nat}
    {moments : List Moment} (h : Computed ticks passed elapsed)
    (hr : sleepLoop millis (extended (milliseconds_elapsed ticks)) (later ticks passed) elapsed
      passed moments = some (r, n)) :
    millis ≤ r ∧ Computed ticks n r := by
  induction moments generalizing elapsed passed with
  | nil => cases hr
  | cons moment moments ih =>
      cases moment with
      | tick =>
          rw [sleepLoop, timer_handler_later] at hr
          exact ih h.tick hr
      | turn =>
          rw [sleepLoop] at hr
          split at hr
          · exact ih (.turn le_rfl) hr
          next hle =>
              obtain ⟨rfl, rfl⟩ := Prod.mk.inj (Option.some.inj hr)
              exact ⟨UInt64.not_lt.mp hle, h⟩

/-- Some ticks, and then a turn of the loop and another. -/
theorem sleep_ticks {millis ticks : UInt64} {n : Nat} (hpos : 0 < millis)
    (hle : millis ≤ elapsedAfter ticks n) :
    sleep millis ticks (List.replicate n .tick ++ [.turn, .turn]) =
      some (elapsedAfter ticks n, n) := by
  have hloop : ∀ m passed, sleepLoop millis (extended (milliseconds_elapsed ticks))
      (later ticks passed) 0 passed (List.replicate m .tick ++ [.turn, .turn]) =
        sleepLoop millis (extended (milliseconds_elapsed ticks)) (later ticks (passed + m)) 0
          (passed + m) [.turn, .turn] := by
    intro m
    induction m with
    | zero => exact fun passed ↦ rfl
    | succ m ih =>
        intro passed
        rw [List.replicate_succ, List.cons_append, sleepLoop, timer_handler_later, ih,
          Nat.add_right_comm, Nat.add_assoc]
  have hstart := hloop n 0
  rw [later_zero, Nat.zero_add] at hstart
  rw [sleep, hstart, sleepLoop, if_pos hpos, sleepLoop]
  exact if_neg (UInt64.not_lt.mpr hle)

/-! ## Returning early -/

/-- Whenever `sleep(millis)`, called when the counter is `ticks`, returns, the counter has
advanced by `millis` milliseconds' worth of ticks. -/
def NeverEarly (millis ticks : UInt64) : Prop :=
  ∀ moments r n, sleep millis ticks moments = some (r, n) → millis.toNat ≤ n * 55

/-- The `int` that `milliseconds_elapsed` returns does not fall below its value at the call
before the time is over. -/
def Steady (millis ticks : UInt64) : Prop := ∀ n, n * 55 < millis.toNat → Level ticks n

/-- While the `int` is level, the time is right up to multiples of `2 ^ 32`, which make it
smaller. -/
theorem le_of_computed {millis ticks r : UInt64} {n : Nat} (hsteady : Steady millis ticks)
    (hle : millis ≤ r) (h : Computed ticks n r) : millis.toNat ≤ n * 55 := by
  have hle' : millis.toNat ≤ r.toNat := UInt64.le_iff_toNat_le.mp hle
  cases h with
  | start =>
      rw [UInt64.toNat_zero] at hle'
      omega
  | @turn m hm =>
      by_contra hearly
      have hlevel := hsteady m (by omega)
      rw [toNat_elapsedAfter, if_pos hlevel, Nat.add_zero] at hle'
      have := Nat.mod_le (m * 55) (2 ^ 32)
      omega

/-- Once the `int` has fallen, there is an early moment at which `elapsed` is large enough. -/
theorem exists_early {millis ticks : UInt64} {n : Nat} (hn : n * 55 < millis.toNat)
    (hlevel : ¬Level ticks n) : ∃ m, m * 55 < millis.toNat ∧ millis ≤ elapsedAfter ticks m := by
  have hlt := millis.toNat_lt
  by_cases hle : millis ≤ elapsedAfter ticks n
  · exact ⟨n, hn, hle⟩
  · -- such a long sleep sees every time modulo `2 ^ 32`, also the one just below the start
    rw [UInt64.le_iff_toNat_le, toNat_elapsedAfter, if_neg hlevel] at hle
    obtain ⟨m, hm, hresidue⟩ := exists_ticks (2 ^ 32 - 1)
    have hbelow := toInt_gap ticks n
    have habove := toInt_gap ticks m
    have hlow := (milliseconds_elapsed (later ticks n)).le_toInt
    have hhigh := (milliseconds_elapsed (later ticks m)).toInt_lt
    have hmod : n * 55 % 2 ^ 32 < 2 ^ 32 := Nat.mod_lt _ (by decide)
    rw [if_neg hlevel] at hbelow
    have hlevel' : ¬Level ticks m := by
      intro hlevel'
      rw [if_pos hlevel', hresidue] at habove
      omega
    refine ⟨m, by omega, ?_⟩
    rw [UInt64.le_iff_toNat_le, toNat_elapsedAfter, if_neg hlevel', hresidue]
    omega

/-- **`sleep` returns early exactly if the `int` falls before the time is over.** -/
theorem sleep_never_early_iff (millis ticks : UInt64) :
    NeverEarly millis ticks ↔ Steady millis ticks := by
  constructor
  · intro hnever n hn
    by_contra hlevel
    obtain ⟨m, hm, hle⟩ := exists_early hn hlevel
    have hpos : 0 < millis := by
      rw [UInt64.lt_iff_toNat_lt, UInt64.toNat_zero]
      omega
    have := hnever _ _ _ (sleep_ticks hpos hle)
    omega
  · intro hsteady moments r n hr
    have hr' : sleepLoop millis (extended (milliseconds_elapsed ticks)) (later ticks 0) 0 0
        moments = some (r, n) := by
      rw [later_zero]
      exact hr
    obtain ⟨hle, hcomputed⟩ := sleepLoop_computed .start hr'
    exact le_of_computed hsteady hle hcomputed

/-- Almost 25 days after the start, a sleep of a second is over after one tick. -/
theorem sleep_early : ¬∀ millis ticks : UInt64, NeverEarly millis ticks := by
  intro hclaim
  have hr : sleep 1000 39045157 [.tick, .turn, .turn] = some (18446744069414584375, 1) := by
    decide +kernel
  have := hclaim 1000 39045157 _ _ _ hr
  revert this
  decide

end BareBones.Drivers.Timer
