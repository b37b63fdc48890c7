import BareBones.Lib.Rows
import Mathlib.Data.UInt

/-!
# The kernel's `memset` and `memcpy`

The two routines of `lib.c` that move memory.  `memcpy` has a path for words, which is taken
when both pointers and the length are multiples of four, and a path for bytes; its comment says
that buffers that overlap are not supported.

They are not told apart by what they leave in memory: `memcpy_eq` gives the one memory that both
paths leave, for *all* pointers and lengths.  Where the destination lies behind the start of the
source and inside of it, what is copied is the gap between the two, over and over; two aligned
buffers are a multiple of four apart, so that a word is never read half copied.

**Key results**

- `memcpy_eq`: what `memcpy` leaves, on both paths; `memcpy_paths_agree` compares them.
- `memset_eq`: what `memset` leaves.
-/

namespace BareBones.Boot

open BareBones.Lib.Rows

/-- Physical memory, byte by byte. -/
abbrev Ram := Nat → UInt8

variable {m : Ram} {destination source length i j : Nat} {w : UInt32}

/-! ## Words in memory -/

/-- The `i`-th byte of a word, which comes first in memory when `i` is small. -/
def byteOf (w : UInt32) (i : Nat) : UInt8 := UInt8.ofNat (w.toNat / 256 ^ i)

/-- `*(uint32_t *) a` -/
def loadUint32 (m : Ram) (a : Nat) : UInt32 :=
  UInt32.ofNat ((m a).toNat + 256 * ((m (a + 1)).toNat + 256 * ((m (a + 2)).toNat +
    256 * (m (a + 3)).toNat)))

/-- `*(uint32_t *) a = w;` -/
def storeUint32 (m : Ram) (a : Nat) (w : UInt32) : Ram := blit m a 4 (byteOf w)

theorem toNat_loadUint32 (m : Ram) (a : Nat) : (loadUint32 m a).toNat =
    (m a).toNat + 256 * ((m (a + 1)).toNat + 256 * ((m (a + 2)).toNat +
      256 * (m (a + 3)).toNat)) := by
  have h₀ := (m a).toNat_lt
  have h₁ := (m (a + 1)).toNat_lt
  have h₂ := (m (a + 2)).toNat_lt
  have h₃ := (m (a + 3)).toNat_lt
  rw [loadUint32, UInt32.toNat_ofNat']
  exact Nat.mod_eq_of_lt (by omega)

/-- The bytes of the word that is read are those in memory. -/
theorem byteOf_loadUint32 (m : Ram) (a : Nat) (hi : i < 4) :
    byteOf (loadUint32 m a) i = m (a + i) := by
  have h₀ := (m a).toNat_lt
  have h₁ := (m (a + 1)).toNat_lt
  have h₂ := (m (a + 2)).toNat_lt
  have h₃ := (m (a + 3)).toNat_lt
  apply UInt8.toNat_inj.1
  rw [byteOf, toNat_loadUint32, UInt8.toNat_ofNat']
  obtain rfl | rfl | rfl | rfl : i = 0 ∨ i = 1 ∨ i = 2 ∨ i = 3 := by omega
  all_goals simp only [Nat.reducePow, Nat.add_zero]; omega

/-- The word that is read has the bytes in memory. -/
theorem loadUint32_eq {a : Nat} (h : ∀ i < 4, m (a + i) = byteOf w i) : loadUint32 m a = w := by
  have h₀ := congrArg UInt8.toNat (h 0 (by decide))
  have h₁ := congrArg UInt8.toNat (h 1 (by decide))
  have h₂ := congrArg UInt8.toNat (h 2 (by decide))
  have h₃ := congrArg UInt8.toNat (h 3 (by decide))
  have hw := w.toNat_lt
  simp only [byteOf, UInt8.toNat_ofNat', Nat.reducePow, Nat.add_zero] at h₀ h₁ h₂ h₃
  apply UInt32.toNat_inj.1
  rw [toNat_loadUint32]
  omega

/-! ## The routines -/

/-- `while (length--) dst[length] = chr;` -/
def memsetLoop (chr : UInt8) (destination : Nat) : (length : Nat) → Ram → Ram
  | 0, m => m
  | length + 1, m =>
      memsetLoop chr destination length (Function.update m (destination + length) chr)

/-- `memset(destination, c, length)` -/
def memset (destination : Nat) (c : Int32) (length : Nat) (m : Ram) : Ram :=
  memsetLoop c.toInt8.toUInt8 destination length m

/-- `memcpy(destination, source, length)` -/
def memcpy (destination source length : Nat) (m : Ram) : Ram :=
  if destination % 4 = 0 ∧ source % 4 = 0 ∧ length % 4 = 0 then
    forUpTo (length / 4) (fun i m ↦
      storeUint32 m (destination + 4 * i) (loadUint32 m (source + 4 * i))) m
  else
    forUpTo length (fun i m ↦ Function.update m (destination + i) (m (source + i))) m

/-! ## What they leave -/

/-- **What `memset` leaves.** -/
theorem memset_eq (destination : Nat) (c : Int32) (length : Nat) (m : Ram) :
    memset destination c length m = blit m destination length fun _ ↦ c.toInt8.toUInt8 := by
  unfold memset
  generalize c.toInt8.toUInt8 = chr
  induction length generalizing m with
  | zero =>
      funext j
      rw [memsetLoop, blit_other (by omega)]
  | succ length ih =>
      rw [memsetLoop, ih]
      funext j
      by_cases hj : j = destination + length
      · subst hj
        rw [blit_other (by omega), Function.update_self, blit_at length.lt_succ_self]
      · unfold blit
        rw [Function.update_of_ne hj]
        refine if_congr ?_ rfl rfl
        omega

/-- Which byte of the source ends up in the `i`-th byte of the destination. -/
def origin (destination source i : Nat) : Nat :=
  if source < destination then i % (destination - source) else i

/-- The bytes of the source that the loop reads next, when it has copied `i` bytes. -/
theorem blit_ahead (hj : source < destination → j < destination - source) :
    blit m destination i (fun i ↦ m (source + origin destination source i)) (source + i + j) =
      m (source + origin destination source (i + j)) := by
  unfold origin
  by_cases hlt : source < destination
  · have hj := hj hlt
    simp only [if_pos hlt]
    by_cases hahead : source + i + j < destination
    · -- the copy has not got there
      rw [blit_other (.inl hahead), Nat.mod_eq_of_lt (by omega), Nat.add_assoc]
    · obtain ⟨k, hk⟩ := Nat.exists_eq_add_of_le (not_lt.1 hahead)
      have hback : i + j = k + (destination - source) := by omega
      rw [hk, blit_at (by omega), hback, Nat.add_mod_right]
  · simp only [if_neg hlt]
    rw [blit_other (.inr (by omega)), Nat.add_assoc]

theorem memcpy_bytes (destination source length : Nat) (m : Ram) :
    forUpTo length (fun i m ↦ Function.update m (destination + i) (m (source + i))) m =
      blit m destination length fun i ↦ m (source + origin destination source i) := by
  refine forUpTo_rule (I := fun n m' ↦
    m' = blit m destination n fun i ↦ m (source + origin destination source i)) ?_ ?_
  · funext j
    rw [blit_other (by omega)]
  · rintro i m' - rfl
    have hread : blit m destination i (fun i ↦ m (source + origin destination source i))
        (source + i) = m (source + origin destination source i) :=
      blit_ahead (j := 0) (by omega)
    rw [hread, update_eq_blit, blit_append]
    refine blit_congr fun k hk ↦ ?_
    split
    next => rfl
    next hik => rw [show k = i by omega]

theorem memcpy_words (h : destination % 4 = 0 ∧ source % 4 = 0) (m : Ram) :
    forUpTo length (fun i m ↦
        storeUint32 m (destination + 4 * i) (loadUint32 m (source + 4 * i))) m =
      blit m destination (4 * length) fun i ↦ m (source + origin destination source i) := by
  refine forUpTo_rule (I := fun n m' ↦
    m' = blit m destination (4 * n) fun i ↦ m (source + origin destination source i)) ?_ ?_
  · funext j
    rw [blit_other (by omega)]
  · rintro i m' - rfl
    rw [storeUint32, blit_append]
    refine blit_congr fun k hk ↦ ?_
    split
    next => rfl
    next hik =>
        -- the buffers are a multiple of four apart: the whole word is still to be read
        obtain ⟨j, rfl⟩ := Nat.exists_eq_add_of_le (not_lt.1 hik)
        rw [Nat.add_sub_cancel_left, byteOf_loadUint32 _ _ (by omega), blit_ahead (by omega)]

/-- **What `memcpy` leaves**, for words as for bytes, and whether or not the two buffers
overlap. -/
theorem memcpy_eq (destination source length : Nat) (m : Ram) :
    memcpy destination source length m =
      blit m destination length fun i ↦ m (source + origin destination source i) := by
  unfold memcpy
  split
  next h =>
      rw [memcpy_words ⟨h.1, h.2.1⟩]
      congr 1
      omega
  next => exact memcpy_bytes destination source length m

/-- A copy to where the source does not reach, or towards lower addresses. -/
theorem memcpy_copies (h : destination ≤ source ∨ source + length ≤ destination) (m : Ram) :
    memcpy destination source length m = blit m destination length fun i ↦ m (source + i) := by
  rw [memcpy_eq]
  refine blit_congr fun i hi ↦ ?_
  unfold origin
  split
  next => rw [Nat.mod_eq_of_lt (by omega)]
  next => rfl

/-- **The path for words does what the path for bytes does**, on every memory and for all
pointers and lengths: the destination gets the source as it was before, or, where it begins
inside of the source, the bytes between the two starts over and over; all else stays. -/
theorem memcpy_paths_agree (destination source length : Nat) (m : Ram) :
    memcpy destination source length m =
        forUpTo length (fun i m ↦ Function.update m (destination + i) (m (source + i))) m ∧
      (∀ i < length, memcpy destination source length m (destination + i) =
        m (source + if source < destination then i % (destination - source) else i)) ∧
      ∀ j, j < destination ∨ destination + length ≤ j →
        memcpy destination source length m j = m j := by
  refine ⟨?_, fun i hi ↦ ?_, fun j hj ↦ ?_⟩
  · rw [memcpy_eq, memcpy_bytes]
  · rw [memcpy_eq, blit_at hi, origin]
  · rw [memcpy_eq, blit_other hj]

end BareBones.Boot
