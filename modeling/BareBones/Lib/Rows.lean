import Mathlib.Logic.Function.Basic
import Mathlib.Tactic.Ring

/-!
# Loops over the rows of a memory

An image in memory is rows of cells, a row every so many cells; what draws on it are counting
loops, one in the other, of which the inner one fills a row or a part of it.  Each of these
loops is the same step: it writes one block after the other, at a fixed distance, and what it
writes may depend on what the memory holds **from the block on**, but not on what it wrote
before.  A copy towards lower addresses, in place and in ascending order, is one of them.

* `blit` is a block that is written, `rect` are blocks at a fixed distance;
* `forUpTo_rows` says that the loop leaves a `rect` of what the *first* memory gives;
* `rect_eq_blit` says that blocks without gaps are one block, for the loop outside.

No address arithmetic beyond `a + y * stride + i` is needed to read the result: `rect_apply`.
-/

namespace BareBones.Lib.Rows

universe u

/-! ## Counting loops -/

section Loop

variable {σ : Type u} {n k : Nat} {body : Nat → σ → σ} {s : σ}

/-- `for (i = 0; i < n; i++) s = body(i, s);` -/
def forUpTo : (n : Nat) → (body : Nat → σ → σ) → σ → σ
  | 0, _, s => s
  | n + 1, body, s => body n (forUpTo n body s)

/-- The rule of the loop. -/
theorem forUpTo_rule {I : Nat → σ → Prop} (hstart : I 0 s)
    (hbody : ∀ i s, i < n → I i s → I (i + 1) (body i s)) : I n (forUpTo n body s) := by
  induction n with
  | zero => exact hstart
  | succ n ih =>
      refine hbody n _ n.lt_succ_self (ih ?_)
      intro i s hi
      exact hbody i s (Nat.lt_succ_of_lt hi)

/-- Bodies that do the same make loops that do the same. -/
theorem forUpTo_congr {body' : Nat → σ → σ} (h : ∀ i s, i < n → body i s = body' i s) :
    forUpTo n body s = forUpTo n body' s := by
  induction n with
  | zero => rfl
  | succ n ih =>
      show body n (forUpTo n body s) = body' n (forUpTo n body' s)
      rw [ih fun i s hi ↦ h i s (Nat.lt_succ_of_lt hi)]
      exact h n _ n.lt_succ_self

/-- A loop on a part of the state. -/
theorem forUpTo_map {τ : Type*} {f : σ → τ} {body' : Nat → τ → τ}
    (h : ∀ i s, i < n → body' i (f s) = f (body i s)) :
    forUpTo n body' (f s) = f (forUpTo n body s) := by
  induction n with
  | zero => rfl
  | succ n ih =>
      show body' n (forUpTo n body' (f s)) = f (body n (forUpTo n body s))
      rw [ih fun i s hi ↦ h i s (Nat.lt_succ_of_lt hi)]
      exact h n _ n.lt_succ_self

end Loop

/-! ## Blocks -/

variable {β : Type u} {m m' : Nat → β} {a n k i y r stride j : Nat} {v v' : Nat → β}
  {w : Nat → Nat → β}

/-- `n` cells from `a` on. -/
def blit (m : Nat → β) (a n : Nat) (v : Nat → β) : Nat → β := fun j ↦
  if a ≤ j ∧ j < a + n then v (j - a) else m j

theorem blit_at (h : i < n) : blit m a n v (a + i) = v i := by
  unfold blit
  rw [if_pos (by omega), Nat.add_sub_cancel_left]

theorem blit_other (h : j < a ∨ a + n ≤ j) : blit m a n v j = m j := by
  unfold blit
  rw [if_neg (by omega)]

theorem blit_congr (h : ∀ i < n, v i = v' i) : blit m a n v = blit m a n v' := by
  funext j
  unfold blit
  split
  next hj => exact h _ (by omega)
  next => rfl

/-- A single cell. -/
theorem update_eq_blit {b : β} : Function.update m a b = blit m a 1 (fun _ ↦ b) := by
  funext j
  unfold blit Function.update
  by_cases h : j = a
  · subst h
    simp
  · rw [dif_neg h, if_neg (by omega)]

/-- A block after a block. -/
theorem blit_append : blit (blit m a n v) (a + n) k v' =
    blit m a (n + k) (fun i ↦ if i < n then v i else v' (i - n)) := by
  funext j
  rcases Nat.lt_or_ge j a with hlt | ha
  · rw [blit_other (by omega), blit_other (by omega), blit_other (by omega)]
  obtain ⟨i, rfl⟩ := Nat.exists_eq_add_of_le ha
  by_cases hn : i < n
  · rw [blit_other (by omega), blit_at hn, blit_at (by omega), if_pos hn]
  by_cases hk : i < n + k
  · obtain ⟨l, rfl⟩ := Nat.exists_eq_add_of_le (not_lt.1 hn)
    have hl : l < k := by omega
    rw [← Nat.add_assoc, blit_at hl, Nat.add_assoc, blit_at hk, if_neg hn,
      Nat.add_sub_cancel_left]
  · rw [blit_other (by omega), blit_other (by omega), blit_other (by omega)]

/-! ## Blocks at a distance -/

/-- `n` blocks of `r` cells, one every `stride` cells, from `a` on. -/
def rect (m : Nat → β) (a stride r n : Nat) (w : Nat → Nat → β) : Nat → β := fun j ↦
  if a ≤ j ∧ (j - a) / stride < n ∧ (j - a) % stride < r then
    w ((j - a) / stride) ((j - a) % stride)
  else m j

/-- **What is at the `i`-th cell of the `y`-th row**. -/
theorem rect_apply (hi : i < stride) : rect m a stride r n w (a + y * stride + i) =
    if y < n ∧ i < r then w y i else m (a + y * stride + i) := by
  have hsub : a + y * stride + i - a = i + y * stride := by omega
  have hdiv : (i + y * stride) / stride = y := by
    rw [Nat.add_mul_div_right _ _ (by omega), Nat.div_eq_of_lt hi, Nat.zero_add]
  have hmod : (i + y * stride) % stride = i := by
    rw [Nat.add_mul_mod_self_right, Nat.mod_eq_of_lt hi]
  unfold rect
  rw [hsub, hdiv, hmod]
  simp only [show a ≤ a + y * stride + i by omega, true_and]

theorem rect_lt (h : j < a) : rect m a stride r n w j = m j := by
  unfold rect
  rw [if_neg (by omega)]

/-- Nothing is written behind the last row. -/
theorem rect_ge (hr : r ≤ stride) (h : a + n * stride ≤ j) :
    rect m a stride r n w j = m j := by
  unfold rect
  refine if_neg ?_
  rintro ⟨-, hrow, hcol⟩
  have hj := Nat.div_add_mod' (j - a) stride
  have hmul : ((j - a) / stride + 1) * stride ≤ n * stride := Nat.mul_le_mul_right stride hrow
  rw [Nat.add_mul] at hmul
  omega

/-- Nor behind the last block. -/
theorem rect_past (hn : 0 < n) (h : a + (n - 1) * stride + r ≤ j) :
    rect m a stride r n w j = m j := by
  unfold rect
  refine if_neg ?_
  rintro ⟨-, hrow, hcol⟩
  have hj := Nat.div_add_mod' (j - a) stride
  have hmul : (j - a) / stride * stride ≤ (n - 1) * stride :=
    Nat.mul_le_mul_right stride (by omega)
  omega

theorem rect_zero : rect m a stride r 0 w = m := by
  funext j
  simp only [rect, Nat.not_lt_zero, false_and, and_false, if_false]

/-- One block more. -/
theorem rect_succ (hr : r ≤ stride) : blit (rect m a stride r n w) (a + n * stride) r (w n) =
    rect m a stride r (n + 1) w := by
  funext j
  by_cases ha : j < a
  · rw [blit_other (.inl (by omega)), rect_lt ha, rect_lt ha]
  rcases Nat.eq_zero_or_pos stride with rfl | hpos
  · obtain rfl := Nat.le_zero.1 hr
    rw [blit_other (by omega)]
    simp only [rect, Nat.not_lt_zero, and_false, if_false]
  -- the cell by its row and its column
  obtain ⟨y, i, hi, rfl⟩ : ∃ y i, i < stride ∧ j = a + y * stride + i := by
    refine ⟨(j - a) / stride, (j - a) % stride, Nat.mod_lt _ hpos, ?_⟩
    have := Nat.div_add_mod' (j - a) stride
    omega
  rw [rect_apply hi]
  rcases lt_trichotomy y n with hlt | rfl | hgt
  · have hmul : (y + 1) * stride ≤ n * stride := Nat.mul_le_mul_right stride hlt
    rw [Nat.add_mul] at hmul
    rw [blit_other (by omega), rect_apply hi]
    simp only [hlt, show y < n + 1 by omega, true_and]
  · by_cases hr : i < r
    · rw [blit_at hr, if_pos ⟨y.lt_succ_self, hr⟩]
    · rw [blit_other (by omega), rect_apply hi, if_neg (by omega), if_neg (by omega)]
  · have hmul : (n + 1) * stride ≤ y * stride := Nat.mul_le_mul_right stride hgt
    rw [Nat.add_mul] at hmul
    rw [blit_other (by omega), rect_apply hi, if_neg (by omega), if_neg (by omega)]

/-- A single block. -/
theorem rect_one (hr : r ≤ stride) : rect m a stride r 1 w = blit m a r (w 0) := by
  rw [← rect_succ hr, rect_zero, Nat.zero_mul, Nat.add_zero]

/-- Blocks without gaps are one block. -/
theorem rect_eq_blit : rect m a stride stride n w =
    blit m a (n * stride) (fun i ↦ w (i / stride) (i % stride)) := by
  funext j
  unfold rect blit
  by_cases ha : a ≤ j
  · rcases Nat.eq_zero_or_pos stride with rfl | hpos
    · rw [if_neg (by omega), if_neg (by omega)]
    · have hiff : ((j - a) / stride < n ∧ (j - a) % stride < stride) ↔ j < a + n * stride := by
        rw [Nat.div_lt_iff_lt_mul hpos]
        have := Nat.mod_lt (j - a) hpos
        omega
      simp only [ha, true_and, hiff]
  · rw [if_neg (by omega), if_neg (by omega)]

/-- **A loop that writes block after block leaves what the first memory gives**, also where a
block is computed from the memory, as long as that is from the block on. -/
theorem forUpTo_rows {f : Nat → (Nat → β) → Nat → β} (hr : r ≤ stride)
    (hread : ∀ y < n, ∀ m', (∀ j, a + y * stride ≤ j → m' j = m j) →
      ∀ i < r, f y m' i = f y m i) :
    forUpTo n (fun y m ↦ blit m (a + y * stride) r (f y m)) m =
      rect m a stride r n (fun y ↦ f y m) := by
  refine forUpTo_rule (I := fun n m' ↦ m' = rect m a stride r n (fun y ↦ f y m)) ?_ ?_
  · exact rect_zero.symm
  · rintro y m' hy rfl
    rw [← rect_succ hr]
    refine blit_congr (hread y hy _ ?_)
    intro j hj
    exact rect_ge hr hj

/-- A copy in place towards lower addresses, one cell at a time. -/
theorem forUpTo_copy {b : Nat} (h : a ≤ b) :
    forUpTo n (fun i m ↦ Function.update m (a + i) (m (b + i))) m =
      blit m a n (fun i ↦ m (b + i)) := by
  have hstep : ∀ i (m : Nat → β), i < n → Function.update m (a + i) (m (b + i)) =
      blit m (a + i * 1) 1 fun _ ↦ m (b + i) := by
    intro i m _
    rw [update_eq_blit, Nat.mul_one]
  rw [forUpTo_congr hstep, forUpTo_rows (f := fun i m _ ↦ m (b + i)) le_rfl, rect_eq_blit,
    Nat.mul_one]
  · simp only [Nat.div_one]
  · intro i _ m' hm' _ _
    exact hm' _ (by omega)

end BareBones.Lib.Rows
