import BareBones.Drivers.Timer
import Mathlib.Data.List.Induction

/-!
# The speaker

`soundDriver.c`: channel 2 of the timer chip makes a square wave, two bits of the port
`0x61` let it through to the speaker, and `timer_handler` looks at every tick whether the
sound is over.

The time of the start is kept as a `uint32_t`, and so is the time that has passed.  In
contrast to `sleep`, which extends the sign of the `int` that `milliseconds_elapsed` returns,
the difference is therefore right also when the clock has passed `2 ^ 31` or `2 ^ 32`
milliseconds in the meantime (`toNat_elapsed`).

An abstract model says what is to be heard: at most one tone, which ends at the first tick
that finds its time over (`Tone`).  The driver simulates it (`Rep.step`).

## Key results

- `speaker_iff`: after any sequence of ticks and calls of `sys_play_sound`, the speaker is on
  if and only if the last call asked for a tone whose time no tick since has found over.
- `lasts_iff`: unless its time comes within 55 ms of `2 ^ 32`, such a tone lasts exactly as
  many ticks as it takes to make up its duration.
-/

namespace BareBones.Drivers

/-- Channel 2 of the timer chip: the divisor of its frequency, and the first of its two bytes
if the second has still to come. -/
structure Pit where
  reload : UInt16
  low : Option UInt8
deriving DecidableEq, Repr

/-- The static variables of `soundDriver.c` and `timer.c`, and the hardware. -/
structure Sound where
  ticks : UInt64
  sound_playing : Bool
  sound_start_time : UInt32
  sound_duration : UInt32
  /-- The port `0x61`. -/
  speaker : UInt8
  pit : Pit
deriving DecidableEq, Repr

namespace Sound

/-- `SPEAKER_PORT` -/
def SPEAKER_PORT : UInt16 := 0x61

/-- `PIT_CONTROL_PORT` -/
def PIT_CONTROL_PORT : UInt16 := 0x43

/-- `PIT_CHANNEL2_PORT` -/
def PIT_CHANNEL2_PORT : UInt16 := 0x42

/-- `PIT_FREQUENCY` -/
def PIT_FREQUENCY : UInt32 := 1193182

/-! ## The ports -/

/-- `readPort`, of which the driver reads one port only.  The port is a latch here: it reads as
what was written last.  In the chip only the bits 0 to 3 are, and the others show the state of the
hardware, whatever is written. -/
def readPort (port : UInt16) (s : Sound) : UInt8 := if port = SPEAKER_PORT then s.speaker else 0

/-- A byte for channel 2: the low one comes first. -/
def Pit.load (value : UInt8) (pit : Pit) : Pit :=
  match pit.low with
  | none => { pit with low := some value }
  | some low =>
      let high := value
      ⟨low.toUInt16 + 256 * high.toUInt16, none⟩

/-- `writePort`, for the three ports of the driver.  The control word `0xB6` announces two
bytes for channel 2. -/
def writePort (port : UInt16) (value : UInt8) (s : Sound) : Sound :=
  if port = SPEAKER_PORT then { s with speaker := value }
  else if port = PIT_CONTROL_PORT ∧ value = 0xB6 then { s with pit := { s.pit with low := none } }
  else if port = PIT_CHANNEL2_PORT then { s with pit := Pit.load value s.pit }
  else s

/-! ## The driver -/

/-- `setSpeakerFrequency` -/
def setSpeakerFrequency (frequency : UInt32) (s : Sound) : Sound :=
  if frequency = 0 then
    let speaker_status := readPort SPEAKER_PORT s
    writePort SPEAKER_PORT (speaker_status &&& 0xFC) s
  else
    let divisor := PIT_FREQUENCY / frequency
    let s := writePort PIT_CONTROL_PORT 0xB6 s
    let s := writePort PIT_CHANNEL2_PORT (divisor &&& 0xFF).toUInt8 s
    let s := writePort PIT_CHANNEL2_PORT ((divisor >>> 8) &&& 0xFF).toUInt8 s
    let speaker_status := readPort SPEAKER_PORT s
    writePort SPEAKER_PORT (speaker_status ||| 0x03) s

/-- `stopSound` -/
def stopSound (s : Sound) : Sound :=
  setSpeakerFrequency 0
    { s with sound_playing := false, sound_start_time := 0, sound_duration := 0 }

/-- The time as a `uint32_t`. -/
def now (ticks : UInt64) : UInt32 := (Timer.milliseconds_elapsed ticks).toUInt32

/-- `playSound` -/
def playSound (frequency duration_ms : UInt32) (s : Sound) : Sound :=
  if frequency = 0 ∨ duration_ms = 0 then stopSound s
  else
    setSpeakerFrequency frequency { s with
      sound_playing := true
      sound_start_time := now s.ticks
      sound_duration := duration_ms }

/-- `isSoundPlaying` -/
def isSoundPlaying (s : Sound) : Bool × Sound :=
  if ¬s.sound_playing then (false, s)
  else
    let elapsed := now s.ticks - s.sound_start_time
    if elapsed ≥ s.sound_duration then (false, stopSound s) else (true, s)

/-- `timer_handler` -/
def timer_handler (s : Sound) : Sound :=
  (isSoundPlaying { s with ticks := Timer.timer_handler s.ticks }).2

/-- What can happen to the driver. -/
inductive Event
  | tick
  | sysPlaySound (arg1 arg2 : UInt64)
deriving DecidableEq, Repr

/-- One event; `sysPlaySound` passes on the low halves of its arguments. -/
def step (s : Sound) : Event → Sound
  | .tick => timer_handler s
  | .sysPlaySound arg1 arg2 => playSound arg1.toUInt32 arg2.toUInt32 s

/-- The driver before its first event, and the port as the firmware has left it. -/
def start (ticks : UInt64) (port : UInt8) (pit : Pit) : Sound := ⟨ticks, false, 0, 0, port, pit⟩

/-! ## What the functions do -/

/-- The speaker is connected to channel 2. -/
def On (s : Sound) : Prop := s.speaker &&& 0x03 = 0x03

instance (s : Sound) : Decidable s.On := inferInstanceAs (Decidable (_ = _))

/-- The two bytes of a divisor, as channel 2 puts them together. -/
def divisor (frequency : UInt32) : UInt16 :=
  let divisor := PIT_FREQUENCY / frequency
  let low : UInt8 := (divisor &&& 0xFF).toUInt8
  let high : UInt8 := ((divisor >>> 8) &&& 0xFF).toUInt8
  low.toUInt16 + 256 * high.toUInt16

theorem toNat_divisor (frequency : UInt32) :
    (divisor frequency).toNat = 1193182 / frequency.toNat % 2 ^ 16 := by
  have hquotient : (PIT_FREQUENCY / frequency).toNat = 1193182 / frequency.toNat :=
    UInt32.toNat_div _ _
  unfold divisor
  dsimp only
  generalize PIT_FREQUENCY / frequency = q at hquotient ⊢
  have hlow : (q &&& 0xFF).toUInt8.toUInt16.toNat = q.toNat % 2 ^ 8 := by
    change (q.toNat &&& 2 ^ 8 - 1) % 2 ^ 8 = _
    rw [Nat.and_two_pow_sub_one_eq_mod, Nat.mod_mod]
  have hhigh : ((q >>> 8) &&& 0xFF).toUInt8.toUInt16.toNat = q.toNat / 2 ^ 8 % 2 ^ 8 := by
    change ((q.toNat >>> 8) &&& 2 ^ 8 - 1) % 2 ^ 8 = _
    rw [Nat.and_two_pow_sub_one_eq_mod, Nat.mod_mod, Nat.shiftRight_eq_div_pow]
  rw [UInt16.toNat_add, UInt16.toNat_mul, hlow, hhigh, ← hquotient]
  change (q.toNat % 2 ^ 8 + 256 * (q.toNat / 2 ^ 8 % 2 ^ 8) % 2 ^ 16) % 2 ^ 16 = _
  omega

theorem setSpeakerFrequency_of_ne {frequency : UInt32} (h : frequency ≠ 0) (s : Sound) :
    setSpeakerFrequency frequency s =
      { s with speaker := s.speaker ||| 0x03, pit := ⟨divisor frequency, none⟩ } := by
  rw [setSpeakerFrequency, if_neg h]
  rfl

theorem stopSound_eq (s : Sound) : stopSound s =
    { s with
      sound_playing := false
      sound_start_time := 0
      sound_duration := 0
      speaker := s.speaker &&& 0xFC } := rfl

/-- The two bits are set. -/
theorem or_and_self (b c : UInt8) : (b ||| c) &&& c = c := by
  apply UInt8.toBitVec_inj.mp
  ext i hi
  simp only [UInt8.toBitVec_and, UInt8.toBitVec_or, BitVec.getElem_and, BitVec.getElem_or]
  cases c.toBitVec[i] <;> simp

/-- The other bits stay. -/
theorem or_and_others (b : UInt8) : (b ||| 0x03) &&& 0xFC = b &&& 0xFC := by
  apply UInt8.toBitVec_inj.mp
  change (b.toBitVec ||| 0x03#8) &&& 0xFC#8 = b.toBitVec &&& 0xFC#8
  rw [BitVec.and_or_distrib_right, show 0x03#8 &&& 0xFC#8 = 0#8 by decide, BitVec.or_zero]

/-- **The difference is right** whenever it is computed. -/
theorem toNat_elapsed (ticks : UInt64) (n : Nat) :
    (now (Timer.later ticks n) - now ticks).toNat = n * 55 % 2 ^ 32 := by
  have hnow : ∀ t : UInt64, (now t).toNat = t.toNat * 55 % 2 ^ 64 % 2 ^ 32 := by
    intro t
    change (t * Timer.PERIOD_MILLIS).toUInt32.toNat = _
    rw [UInt64.toNat_toUInt32, UInt64.toNat_mul]
    rfl
  have hlater : (Timer.later ticks n).toNat = (ticks.toNat + n % 2 ^ 64) % 2 ^ 64 := by
    rw [Timer.later, UInt64.toNat_add, UInt64.toNat_ofNat']
  rw [UInt32.toNat_sub, hnow, hnow, hlater]
  omega

/-! ## What is to be heard -/

/-- A tone, and the number of ticks since it began. -/
structure Tone where
  frequency : UInt32
  duration_ms : UInt32
  passed : Nat
deriving DecidableEq, Repr

/-- The time of the tone is over when `n` ticks have passed. -/
def Over (duration_ms : UInt32) (n : Nat) : Prop := duration_ms.toNat ≤ n * 55 % 2 ^ 32

instance (duration_ms : UInt32) (n : Nat) : Decidable (Over duration_ms n) :=
  inferInstanceAs (Decidable (_ ≤ _))

/-- What is heard after an event.  A call ends the tone before it, and so does a tick that
finds its time over. -/
def heard (tone : Option Tone) : Event → Option Tone
  | .tick => tone.bind fun x ↦
      if Over x.duration_ms (x.passed + 1) then none else some { x with passed := x.passed + 1 }
  | .sysPlaySound arg1 arg2 =>
      if arg1.toUInt32 = 0 ∨ arg2.toUInt32 = 0 then none
      else some ⟨arg1.toUInt32, arg2.toUInt32, 0⟩

/-- The last call of `sys_play_sound` has asked for a tone, and no tick since has found its
time over. -/
def Sounds (es : List Event) (arg1 arg2 : UInt64) : Prop :=
  ∃ es₁ n, es = es₁ ++ .sysPlaySound arg1 arg2 :: List.replicate n .tick ∧
    arg1.toUInt32 ≠ 0 ∧ arg2.toUInt32 ≠ 0 ∧ ∀ m, 1 ≤ m → m ≤ n → ¬Over arg2.toUInt32 m

/-- The driver, and what is heard: the two bits of the port are set together, the others are
those of `port`, and channel 2 has the divisor of the tone. -/
structure Rep (port : UInt8) (s : Sound) (tone : Option Tone) : Prop where
  others : s.speaker &&& 0xFC = port &&& 0xFC
  playing : s.sound_playing = tone.isSome
  bits : s.speaker &&& 0x03 = if tone.isSome then 0x03 else 0
  sounds : ∀ x, tone = some x → s.sound_duration = x.duration_ms ∧
    s.pit = ⟨divisor x.frequency, none⟩ ∧
    ∃ ticks, s.sound_start_time = now ticks ∧ s.ticks = Timer.later ticks x.passed

namespace Rep

variable {port : UInt8} {s : Sound} {tone : Option Tone} {x : Tone}

theorem on_iff (h : Rep port s tone) : s.On ↔ tone.isSome := by
  unfold On
  rw [h.bits]
  cases tone with
  | none => simp
  | some x => simp

/-- The sound is stopped. -/
theorem stop (h : s.speaker &&& 0xFC = port &&& 0xFC) : Rep port (stopSound s) none where
  others := by
    rw [stopSound_eq]
    change s.speaker &&& 0xFC &&& 0xFC = _
    rw [UInt8.and_assoc, UInt8.and_self, h]
  playing := rfl
  bits := by
    rw [stopSound_eq]
    change s.speaker &&& 0xFC &&& 0x03 = _
    rw [UInt8.and_assoc]
    exact UInt8.and_zero
  sounds _ hx := by cases hx

/-- A call of `playSound`. -/
theorem play (h : s.speaker &&& 0xFC = port &&& 0xFC) (arg1 arg2 : UInt64) :
    Rep port (s.step (.sysPlaySound arg1 arg2)) (heard tone (.sysPlaySound arg1 arg2)) := by
  change Rep port (playSound arg1.toUInt32 arg2.toUInt32 s)
    (if arg1.toUInt32 = 0 ∨ arg2.toUInt32 = 0 then none
      else some ⟨arg1.toUInt32, arg2.toUInt32, 0⟩)
  unfold playSound
  by_cases hnothing : arg1.toUInt32 = 0 ∨ arg2.toUInt32 = 0
  · rw [if_pos hnothing, if_pos hnothing]
    exact stop h
  · rw [if_neg hnothing, if_neg hnothing]
    rw [setSpeakerFrequency_of_ne fun hzero ↦ hnothing (.inl hzero)]
    constructor
    · change (s.speaker ||| 0x03) &&& 0xFC = _
      rw [or_and_others, h]
    · rfl
    · change (s.speaker ||| 0x03) &&& 0x03 = _
      rw [or_and_self]
      rfl
    · rintro _ ⟨⟩
      exact ⟨rfl, rfl, s.ticks, rfl, (Timer.later_zero _).symm⟩

/-- A tick. -/
theorem tick (h : Rep port s tone) : Rep port (s.step .tick) (heard tone .tick) := by
  change Rep port (timer_handler s) (heard tone .tick)
  unfold timer_handler isSoundPlaying
  cases tone with
  | none =>
      rw [if_pos (by simp [h.playing])]
      exact ⟨h.others, h.playing, h.bits, fun _ hx ↦ by cases hx⟩
  | some x =>
      obtain ⟨hduration, hpit, ticks, hstart, hticks⟩ := h.sounds x rfl
      rw [if_neg (by simp [h.playing])]
      dsimp only
      have helapsed : (now (Timer.timer_handler s.ticks) - s.sound_start_time).toNat =
          (x.passed + 1) * 55 % 2 ^ 32 := by
        rw [hticks, hstart, Timer.timer_handler_later, toNat_elapsed]
      have hover : now (Timer.timer_handler s.ticks) - s.sound_start_time ≥ s.sound_duration ↔
          Over x.duration_ms (x.passed + 1) := by
        rw [ge_iff_le, UInt32.le_iff_toNat_le, helapsed, hduration]
        rfl
      by_cases hend : Over x.duration_ms (x.passed + 1)
      · have hheard : heard (some x) .tick = none := if_pos hend
        rw [if_pos (hover.mpr hend), hheard]
        exact stop h.others
      · have hheard : heard (some x) .tick = some { x with passed := x.passed + 1 } := if_neg hend
        rw [if_neg (mt hover.mp hend), hheard]
        refine ⟨h.others, h.playing, h.bits, ?_⟩
        rintro _ ⟨⟩
        refine ⟨hduration, hpit, ticks, hstart, ?_⟩
        change Timer.timer_handler s.ticks = _
        rw [hticks, Timer.timer_handler_later]

/-- **The driver simulates what is heard.** -/
theorem step (h : Rep port s tone) (e : Event) : Rep port (s.step e) (heard tone e) := by
  cases e with
  | tick => exact h.tick
  | sysPlaySound arg1 arg2 => exact play h.others arg1 arg2

theorem run (h : Rep port s tone) (es : List Event) :
    Rep port (es.foldl Sound.step s) (es.foldl heard tone) := by
  induction es generalizing s tone with
  | nil => exact h
  | cons e es ih => exact ih (h.step e)

theorem start (hquiet : port &&& 0x03 = 0) (ticks : UInt64) (pit : Pit) :
    Rep port (Sound.start ticks port pit) none := by
  constructor
  · rfl
  · rfl
  · exact hquiet
  · rintro _ ⟨⟩

end Rep

/-! ## Runs -/

/-- Ticks go by. -/
theorem heard_ticks (x : Tone) {n : Nat}
    (h : ∀ m, 1 ≤ m → m ≤ n → ¬Over x.duration_ms (x.passed + m)) :
    (List.replicate n Event.tick).foldl heard (some x) =
      some { x with passed := x.passed + n } := by
  induction n with
  | zero => rfl
  | succ n ih =>
      rw [List.replicate_succ', List.foldl_append, ih fun m hpos hle ↦
        h m hpos (Nat.le_succ_of_le hle)]
      exact if_neg (h (n + 1) (Nat.le_add_left 1 n) (Nat.le_refl _))

/-- The tone is heard as long as no tick finds its time over. -/
theorem isSome_heard_ticks (x : Tone) (n : Nat) :
    ((List.replicate n Event.tick).foldl heard (some x)).isSome ↔
      ∀ m, 1 ≤ m → m ≤ n → ¬Over x.duration_ms (x.passed + m) := by
  constructor
  · intro h
    induction n with
    | zero => exact fun m hpos hle ↦ absurd (hpos.trans hle) (Nat.not_succ_le_zero 0)
    | succ n ih =>
        rw [List.replicate_succ', List.foldl_append] at h
        by_cases hsome : ((List.replicate n Event.tick).foldl heard (some x)).isSome
        · have hall := ih hsome
          rw [heard_ticks x hall] at h
          intro m hpos hle
          rcases Nat.le_succ_iff.mp hle with hle | rfl
          · exact hall m hpos hle
          · intro hover
            have hnone : heard (some { x with passed := x.passed + n }) .tick = none := if_pos hover
            rw [List.foldl_cons, hnone] at h
            cases h
        · rw [Option.not_isSome_iff_eq_none.mp hsome] at h
          cases h
  · intro h
    rw [heard_ticks x h]
    rfl

/-- **What is heard** is the tone of the last call. -/
theorem heard_iff (es : List Event) (x : Tone) : es.foldl heard none = some x ↔
    ∃ es₁ arg1 arg2, es = es₁ ++ .sysPlaySound arg1 arg2 :: List.replicate x.passed .tick ∧
      arg1.toUInt32 = x.frequency ∧ arg2.toUInt32 = x.duration_ms ∧ arg1.toUInt32 ≠ 0 ∧
      arg2.toUInt32 ≠ 0 ∧ ∀ m, 1 ≤ m → m ≤ x.passed → ¬Over x.duration_ms m := by
  constructor
  · intro h
    induction es using List.reverseRecOn generalizing x with
    | nil => cases h
    | append_singleton es e ih =>
        rw [List.foldl_append] at h
        replace h : heard (es.foldl heard none) e = some x := h
        cases e with
        | tick =>
            obtain ⟨x', hx', hnext⟩ := Option.bind_eq_some_iff.mp h
            split at hnext
            · cases hnext
            next hover =>
                cases hnext
                obtain ⟨es₁, arg1, arg2, rfl, hfrequency, hduration, hne, hne', hall⟩ := ih x' hx'
                refine ⟨es₁, arg1, arg2, ?_, hfrequency, hduration, hne, hne', fun m hpos hle ↦ ?_⟩
                · rw [List.replicate_succ', List.append_assoc]
                  rfl
                · rcases Nat.le_succ_iff.mp hle with hle | rfl
                  · exact hall m hpos hle
                  · exact hover
        | sysPlaySound arg1 arg2 =>
            replace h : (if arg1.toUInt32 = 0 ∨ arg2.toUInt32 = 0 then none
                else some ⟨arg1.toUInt32, arg2.toUInt32, 0⟩) = some x := h
            split at h
            · cases h
            next hsome =>
                cases h
                obtain ⟨hne, hne'⟩ := not_or.mp hsome
                refine ⟨es, arg1, arg2, rfl, rfl, rfl, hne, hne', fun m hpos hle ↦ ?_⟩
                exact absurd (hpos.trans hle) (Nat.not_succ_le_zero 0)
  · rintro ⟨es₁, arg1, arg2, rfl, hfrequency, hduration, hne, hne', hall⟩
    have hcall : heard (es₁.foldl heard none) (.sysPlaySound arg1 arg2) =
        some ⟨arg1.toUInt32, arg2.toUInt32, 0⟩ := if_neg (not_or.mpr ⟨hne, hne'⟩)
    rw [List.foldl_append, List.foldl_cons, hcall, heard_ticks]
    · rw [hfrequency, hduration, Nat.zero_add]
    · intro m hpos hle
      dsimp only
      rw [hduration, Nat.zero_add]
      exact hall m hpos hle

/-- The state after a run, and what is heard then. -/
theorem rep_run {port : UInt8} (hquiet : port &&& 0x03 = 0) (ticks : UInt64) (pit : Pit)
    (es : List Event) : Rep port (es.foldl step (start ticks port pit)) (es.foldl heard none) :=
  (Rep.start hquiet ticks pit).run es

/-- A tone is heard if the last call has asked for it and its time is not over. -/
theorem heard_isSome_iff (es : List Event) :
    (es.foldl heard none).isSome ↔ ∃ arg1 arg2, Sounds es arg1 arg2 := by
  constructor
  · intro h
    obtain ⟨x, hx⟩ := Option.isSome_iff_exists.mp h
    obtain ⟨es₁, arg1, arg2, rfl, -, hduration, hne, hne', hall⟩ := (heard_iff es x).mp hx
    rw [← hduration] at hall
    exact ⟨arg1, arg2, es₁, x.passed, rfl, hne, hne', hall⟩
  · rintro ⟨arg1, arg2, es₁, n, rfl, hne, hne', hall⟩
    have hheard := (heard_iff _ ⟨arg1.toUInt32, arg2.toUInt32, n⟩).mpr
      ⟨es₁, arg1, arg2, rfl, rfl, rfl, hne, hne', hall⟩
    rw [hheard]
    rfl

/-- **The speaker.**  After any events, it is on if and only if the last call has asked for a
tone whose time no tick since has found over.  Then channel 2 has the low 16 bits of the
divisor of this tone.  The other bits of the port never change. -/
theorem speaker_iff {port : UInt8} (hquiet : port &&& 0x03 = 0) (ticks : UInt64) (pit : Pit)
    (es : List Event) :
    ((es.foldl step (start ticks port pit)).On ↔ ∃ arg1 arg2, Sounds es arg1 arg2) ∧
    (∀ arg1 arg2, Sounds es arg1 arg2 → (es.foldl step (start ticks port pit)).pit.reload.toNat =
      1193182 / arg1.toUInt32.toNat % 2 ^ 16) ∧
    (es.foldl step (start ticks port pit)).speaker &&& 0xFC = port &&& 0xFC := by
  have hrep := rep_run hquiet ticks pit es
  refine ⟨hrep.on_iff.trans (heard_isSome_iff es), ?_, hrep.others⟩
  rintro arg1 arg2 ⟨es₁, n, hes, hne, hne', hall⟩
  have hheard := (heard_iff es ⟨arg1.toUInt32, arg2.toUInt32, n⟩).mpr
    ⟨es₁, arg1, arg2, hes, rfl, rfl, hne, hne', hall⟩
  obtain ⟨-, hpit, -⟩ := hrep.sounds _ hheard
  rw [hpit]
  exact toNat_divisor _

/-- A tone of 440 Hz for 150 ms is on after two ticks, in which the clock has passed `2 ^ 32`
milliseconds. -/
theorem speaker_iff_wrap :
    ([Event.tick, .sysPlaySound 440 150, .tick, .tick].foldl step
      (start 78090313 0x30 ⟨0, none⟩)).On ∧
    ([Event.tick, .sysPlaySound 440 150, .tick, .tick].foldl step
      (start 78090313 0x30 ⟨0, none⟩)).pit.reload.toNat = 1193182 / 440 % 2 ^ 16 ∧
    now 78090314 > now 78090315 := by
  have hsounds : Sounds [.tick, .sysPlaySound 440 150, .tick, .tick] 440 150 := by
    refine ⟨[.tick], 2, rfl, by decide, by decide, fun m hpos hle ↦ ?_⟩
    have hm : m = 1 ∨ m = 2 := by omega
    rcases hm with rfl | rfl <;> decide
  obtain ⟨hon, hreload, -⟩ := speaker_iff (show (0x30 : UInt8) &&& 0x03 = 0 by decide) 78090313
    ⟨0, none⟩ [.tick, .sysPlaySound 440 150, .tick, .tick]
  exact ⟨hon.mpr ⟨440, 150, hsounds⟩, hreload 440 150 hsounds, by decide⟩

/-- A number of ticks makes up the duration when their time does, if it does not wrap. -/
theorem forall_not_over {duration_ms : UInt32} (hpos : duration_ms ≠ 0)
    (hshort : duration_ms.toNat ≤ 2 ^ 32 - 55) (n : Nat) :
    (∀ m, 1 ≤ m → m ≤ n → ¬Over duration_ms m) ↔ n * 55 < duration_ms.toNat := by
  have hpos' : 0 < duration_ms.toNat := Nat.pos_of_ne_zero fun h ↦ hpos (UInt32.toNat_inj.mp h)
  unfold Over
  generalize duration_ms.toNat = d at hshort hpos'
  constructor
  · intro h
    by_contra hlong
    have hfirst := h ((d + 54) / 55) (by omega) (by omega)
    omega
  · intro h m hm hle
    omega

/-- **A tone lasts as long as it should**, to a tick: whatever has happened before the call, it
is on after `n` ticks if and only if they do not make up its duration. -/
theorem lasts_iff (port : UInt8) (ticks : UInt64) (pit : Pit) (es : List Event)
    {arg1 arg2 : UInt64} (hfrequency : arg1.toUInt32 ≠ 0)
    (hduration : arg2.toUInt32 ≠ 0) (hshort : arg2.toUInt32.toNat ≤ 2 ^ 32 - 55) (n : Nat) :
    ((es ++ Event.sysPlaySound arg1 arg2 :: List.replicate n .tick).foldl step
      (start ticks port pit)).On ↔ n * 55 < arg2.toUInt32.toNat := by
  have hcall : heard none (.sysPlaySound arg1 arg2) =
      some ⟨arg1.toUInt32, arg2.toUInt32, 0⟩ := if_neg (not_or.mpr ⟨hfrequency, hduration⟩)
  have hticks := isSome_heard_ticks ⟨arg1.toUInt32, arg2.toUInt32, 0⟩ n
  simp only [Nat.zero_add] at hticks
  -- the call does not look at what is on before it
  obtain ⟨s, hs⟩ : ∃ s, s = es.foldl step (start ticks port pit) := ⟨_, rfl⟩
  have hplay : Rep s.speaker (s.step (.sysPlaySound arg1 arg2))
      (heard none (.sysPlaySound arg1 arg2)) := Rep.play rfl arg1 arg2
  rw [List.foldl_append, List.foldl_cons, ← hs, (hplay.run _).on_iff, hcall, hticks]
  exact forall_not_over hduration hshort n

/-- A tone of 150 ms is heard for two ticks, and the third one ends it. -/
theorem lasts_iff_three :
    ([Event.sysPlaySound 440 150, .tick, .tick].foldl step (start 7 0 ⟨0, none⟩)).On ∧
    ¬([Event.sysPlaySound 440 150, .tick, .tick, .tick].foldl step (start 7 0 ⟨0, none⟩)).On := by
  have hlasts : ∀ n, (([] ++ Event.sysPlaySound 440 150 :: List.replicate n .tick).foldl step
      (start 7 0 ⟨0, none⟩)).On ↔ n * 55 < 150 := by
    intro n
    exact lasts_iff 0 7 ⟨0, none⟩ []
      (show (440 : UInt64).toUInt32 ≠ 0 by decide) (show (150 : UInt64).toUInt32 ≠ 0 by decide)
      (by decide) n
  refine ⟨(hlasts 2).mpr (by decide), fun hon ↦ ?_⟩
  exact absurd ((hlasts 3).mp hon) (by decide)

end Sound

end BareBones.Drivers
