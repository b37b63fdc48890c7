import Mathlib.Data.Multiset.MapFold
import Mathlib.Data.Multiset.UnionInter
import Mathlib.Data.Multiset.ZeroCons
import Mathlib.Logic.Function.Basic

/-!
# Blocks that may be refused

A heap of blocks for programs that allocate and free.  Any request for a block may be refused:
which ones are is a function of their number (`refuses`), so that a statement about all of them
is about every pattern of failures.  A block that is granted gets the number of its request, and
never comes back.  To load from a block that is not allocated, to store to it or to free it is
no step at all, so a program that has run to its end has freed nothing twice.

`Runs f x n P r n' P'` describes the runs of a program by what it owns: when it starts at the
request `n` with the blocks `P`, it returns `r`, at the request `n'` and with the blocks `P'`,
and leaves alone all blocks that it does not own.  There is one rule for each operation, and
one for a sequence (`Runs.bind`).  The blocks that are owned form a multiset, so their order
does not matter.
-/

namespace BareBones.Lib

/-- A heap of blocks that hold values. -/
structure Blocks (V : Type) where
  /-- What an allocated block holds. -/
  cells : Nat → Option V
  /-- How many blocks have been requested. -/
  calls : Nat
  /-- The requests that are refused. -/
  refuses : Nat → Bool

/-- A program that works on blocks. -/
abbrev BlockM (V : Type) := StateT (Blocks V) Option

namespace Blocks

variable {V α β : Type}

/-! ## Operations -/

/-- Request a block. -/
def alloc (v : V) : BlockM V (Option Nat) := fun h ↦
  if h.refuses h.calls then some (none, { h with calls := h.calls + 1 })
  else some (some h.calls,
    { h with cells := Function.update h.cells h.calls (some v), calls := h.calls + 1 })

/-- Read a block. -/
def load (b : Nat) : BlockM V V := fun h ↦ (h.cells b).map fun v ↦ (v, h)

/-- Write a block. -/
def store (b : Nat) (v : V) : BlockM V Unit := fun h ↦
  (h.cells b).map fun _ ↦ ((), { h with cells := Function.update h.cells b (some v) })

/-- Give a block back. -/
def free (b : Nat) : BlockM V Unit := fun h ↦
  (h.cells b).map fun _ ↦ ((), { h with cells := Function.update h.cells b none })

/-- No block has been granted that has not been requested. -/
def Fresh (h : Blocks V) : Prop := ∀ b, h.calls ≤ b → h.cells b = none

/-! ## What is owned -/

/-- The heap has the blocks `P`, and otherwise those of `base`. -/
structure Owns (base : Nat → Option V) (P : Multiset (Nat × V)) (h : Blocks V) : Prop where
  nodup : (P.map Prod.fst).Nodup
  cell : ∀ b v, (b, v) ∈ P → h.cells b = some v
  apart : ∀ b v, (b, v) ∈ P → base b = none
  other : ∀ b, (∀ v, (b, v) ∉ P) → h.cells b = base b
  fresh : h.Fresh

variable {base : Nat → Option V} {P Q : Multiset (Nat × V)} {h : Blocks V} {b n n' m : Nat}
  {v w : V}

namespace Owns

/-- Nothing is owned yet. -/
theorem start (h : Blocks V) (hfresh : h.Fresh) : Owns h.cells 0 h where
  nodup := Multiset.nodup_zero
  cell _ _ hmem := absurd hmem (Multiset.notMem_zero _)
  apart _ _ hmem := absurd hmem (Multiset.notMem_zero _)
  other _ _ := rfl
  fresh := hfresh

/-- Nothing is owned any more. -/
theorem cells_eq (ho : Owns base 0 h) : h.cells = base := by
  funext b
  exact ho.other b fun v ↦ Multiset.notMem_zero _

/-- A block is owned once. -/
theorem notMem_of_cons (ho : Owns base ((b, v) ::ₘ P) h) : (b, w) ∉ P := by
  have hnodup := ho.nodup
  rw [Multiset.map_cons, Multiset.nodup_cons] at hnodup
  intro hmem
  exact hnodup.1 (Multiset.mem_map.2 ⟨(b, w), hmem, rfl⟩)

/-- Blocks that are there can be taken over. -/
theorem takeOver (hnodup : (P.map Prod.fst).Nodup) (hcell : ∀ b v, (b, v) ∈ P → h.cells b = some v)
    (hfresh : h.Fresh) [DecidablePred fun b ↦ ∃ v, (b, v) ∈ P] :
    Owns (fun b ↦ if ∃ v, (b, v) ∈ P then none else h.cells b) P h where
  nodup := hnodup
  cell := hcell
  apart _ v hmem := if_pos ⟨v, hmem⟩
  other _ hb := (if_neg fun ⟨v, hmem⟩ ↦ hb v hmem).symm
  fresh := hfresh

/-- So can a single one. -/
theorem takeOne (hcell : h.cells b = some v) (hfresh : h.Fresh) :
    Owns (Function.update h.cells b none) ((b, v) ::ₘ 0) h where
  nodup := by
    rw [Multiset.map_cons, Multiset.map_zero]
    exact Multiset.nodup_singleton b
  cell c w hmem := by
    cases Multiset.mem_singleton.1 hmem
    exact hcell
  apart c w hmem := by
    cases Multiset.mem_singleton.1 hmem
    exact Function.update_self _ _ _
  other c hc := by
    refine (Function.update_of_ne ?_ _ _).symm
    rintro rfl
    exact hc v (Multiset.mem_cons_self _ _)
  fresh := hfresh

/-- What is owned has been requested. -/
theorem lt_calls (ho : Owns base P h) (hmem : (b, v) ∈ P) : b < h.calls := by
  by_contra hle
  have hnone := ho.fresh b (not_lt.1 hle)
  rw [ho.cell b v hmem] at hnone
  cases hnone

/-- The blocks that are owned are those that have come. -/
theorem exists_mem_iff (ho : Owns base P h) :
    (∃ v, (b, v) ∈ P) ↔ base b = none ∧ h.cells b ≠ none := by
  constructor
  · rintro ⟨v, hmem⟩
    refine ⟨ho.apart b v hmem, ?_⟩
    rw [ho.cell b v hmem]
    exact Option.some_ne_none v
  · rintro ⟨hbase, hcell⟩
    by_contra hnone
    exact hcell ((ho.other b fun v hmem ↦ hnone ⟨v, hmem⟩).trans hbase)

/-- A new block. -/
theorem alloc (ho : Owns base P h) (v : V) :
    Owns base ((h.calls, v) ::ₘ P)
      { h with cells := Function.update h.cells h.calls (some v), calls := h.calls + 1 } := by
  have hfresh : ∀ w, (h.calls, w) ∉ P := by
    intro w hmem
    have hcell := ho.cell _ _ hmem
    rw [ho.fresh _ le_rfl] at hcell
    cases hcell
  refine ⟨?_, ?_, ?_, ?_, ?_⟩
  · rw [Multiset.map_cons, Multiset.nodup_cons]
    refine ⟨?_, ho.nodup⟩
    rw [Multiset.mem_map]
    rintro ⟨⟨b, w⟩, hmem, rfl⟩
    exact hfresh w hmem
  · intro b w hmem
    rcases Multiset.mem_cons.1 hmem with heq | hmem
    · cases heq
      exact Function.update_self _ _ _
    · have hne : b ≠ h.calls := by
        rintro rfl
        exact hfresh w hmem
      exact (Function.update_of_ne hne _ _).trans (ho.cell b w hmem)
  · intro b w hmem
    rcases Multiset.mem_cons.1 hmem with heq | hmem
    · cases heq
      rw [← ho.other _ hfresh]
      exact ho.fresh _ le_rfl
    · exact ho.apart b w hmem
  · intro b hb
    have hne : b ≠ h.calls := by
      rintro rfl
      exact hb v (Multiset.mem_cons_self _ _)
    refine (Function.update_of_ne hne _ _).trans (ho.other b fun w hmem ↦ ?_)
    exact hb w (Multiset.mem_cons_of_mem hmem)
  · intro b hb
    have hne : b ≠ h.calls := Nat.ne_of_gt hb
    exact (Function.update_of_ne hne _ _).trans (ho.fresh b (Nat.le_of_succ_le hb))

/-- Another value. -/
theorem store (ho : Owns base ((b, v) ::ₘ P) h) (w : V) :
    Owns base ((b, w) ::ₘ P) { h with cells := Function.update h.cells b (some w) } := by
  have hb := ho.cell b v (Multiset.mem_cons_self _ _)
  refine ⟨?_, ?_, ?_, ?_, ?_⟩
  · have hnodup := ho.nodup
    rwa [Multiset.map_cons] at hnodup ⊢
  · intro c u hmem
    rcases Multiset.mem_cons.1 hmem with heq | hmem
    · cases heq
      exact Function.update_self _ _ _
    · have hne : c ≠ b := fun heq ↦ ho.notMem_of_cons (heq ▸ hmem)
      exact (Function.update_of_ne hne _ _).trans (ho.cell c u (Multiset.mem_cons_of_mem hmem))
  · intro c u hmem
    rcases Multiset.mem_cons.1 hmem with heq | hmem
    · cases heq
      exact ho.apart b v (Multiset.mem_cons_self _ _)
    · exact ho.apart c u (Multiset.mem_cons_of_mem hmem)
  · intro c hc
    have hne : c ≠ b := by
      rintro rfl
      exact hc w (Multiset.mem_cons_self _ _)
    refine (Function.update_of_ne hne _ _).trans (ho.other c fun u hmem ↦ ?_)
    rcases Multiset.mem_cons.1 hmem with heq | hmem
    · exact hne (Prod.mk.inj heq).1
    · exact hc u (Multiset.mem_cons_of_mem hmem)
  · intro c hc
    have hne : c ≠ b := by
      rintro rfl
      cases (ho.fresh c hc).symm.trans hb
    exact (Function.update_of_ne hne _ _).trans (ho.fresh c hc)

/-- One block less. -/
theorem free (ho : Owns base ((b, v) ::ₘ P) h) :
    Owns base P { h with cells := Function.update h.cells b none } := by
  refine ⟨?_, ?_, ?_, ?_, ?_⟩
  · have hnodup := ho.nodup
    rw [Multiset.map_cons, Multiset.nodup_cons] at hnodup
    exact hnodup.2
  · intro c u hmem
    have hne : c ≠ b := by
      rintro rfl
      exact ho.notMem_of_cons hmem
    exact (Function.update_of_ne hne _ _).trans (ho.cell c u (Multiset.mem_cons_of_mem hmem))
  · exact fun c u hmem ↦ ho.apart c u (Multiset.mem_cons_of_mem hmem)
  · intro c hc
    by_cases hcb : c = b
    · subst hcb
      rw [ho.apart c v (Multiset.mem_cons_self _ _)]
      exact Function.update_self _ _ _
    · refine (Function.update_of_ne hcb _ _).trans (ho.other c fun u hmem ↦ ?_)
      rcases Multiset.mem_cons.1 hmem with heq | hmem
      · exact hcb (Prod.mk.inj heq).1
      · exact hc u hmem
  · intro c hc
    by_cases hcb : c = b
    · subst hcb
      exact Function.update_self _ _ _
    · exact (Function.update_of_ne hcb _ _).trans (ho.fresh c hc)

end Owns

/-! ## Runs -/

/-- What a program does, in terms of what it owns. -/
def Runs (f : Nat → Bool) (x : BlockM V α) (n : Nat) (P : Multiset (Nat × V)) (r : α) (n' : Nat)
    (P' : Multiset (Nat × V)) : Prop :=
  ∀ base h, h.refuses = f → h.calls = n → Owns base P h →
    ∃ h', x h = some (r, h') ∧ h'.refuses = f ∧ h'.calls = n' ∧ Owns base P' h'

namespace Runs

variable {f : Nat → Bool} {x : BlockM V α} {g : α → BlockM V β} {a : α} {r : β}
  {P' Q' : Multiset (Nat × V)}

theorem pure (a : α) : Runs f (pure a : BlockM V α) n P a n P :=
  fun _ h hf hn ho ↦ ⟨h, rfl, hf, hn, ho⟩

theorem bind (hx : Runs f x n P a m Q) (hg : Runs f (g a) m Q r n' P') :
    Runs f (x >>= g) n P r n' P' := by
  intro base h hf hn ho
  obtain ⟨h₁, hx, hf₁, hn₁, ho₁⟩ := hx base h hf hn ho
  obtain ⟨h₂, hg, hrest⟩ := hg base h₁ hf₁ hn₁ ho₁
  refine ⟨h₂, ?_, hrest⟩
  change (x h).bind _ = _
  rw [hx]
  exact hg

/-- A request that is granted, -/
theorem alloc (hn : f n = false) : Runs f (Blocks.alloc v) n P (some n) (n + 1) ((n, v) ::ₘ P) := by
  rintro base h rfl rfl ho
  refine ⟨{ h with cells := Function.update h.cells h.calls (some v), calls := h.calls + 1 }, ?_,
    rfl, rfl, ho.alloc v⟩
  rw [Blocks.alloc, hn]
  rfl

/-- and one that is refused. -/
theorem refused (hn : f n = true) : Runs f (Blocks.alloc v) n P none (n + 1) P := by
  rintro base h rfl rfl ho
  refine ⟨{ h with calls := h.calls + 1 }, ?_, rfl, rfl, ?_⟩
  · rw [Blocks.alloc, hn]
    rfl
  · exact ⟨ho.nodup, ho.cell, ho.apart, ho.other, fun b hb ↦ ho.fresh b (Nat.le_of_succ_le hb)⟩

theorem load (hmem : (b, v) ∈ P) : Runs f (Blocks.load b) n P v n P := by
  intro base h hf hn ho
  refine ⟨h, ?_, hf, hn, ho⟩
  rw [Blocks.load, ho.cell b v hmem]
  rfl

theorem store (hP : P = (b, v) ::ₘ Q) (w : V) :
    Runs f (Blocks.store b w) n P () n ((b, w) ::ₘ Q) := by
  subst hP
  intro base h hf hn ho
  refine ⟨{ h with cells := Function.update h.cells b (some w) }, ?_, hf, hn, ho.store w⟩
  rw [Blocks.store, ho.cell b v (Multiset.mem_cons_self _ _)]
  rfl

theorem free (hP : P = (b, v) ::ₘ Q) : Runs f (Blocks.free b) n P () n Q := by
  subst hP
  intro base h hf hn ho
  refine ⟨{ h with cells := Function.update h.cells b none }, ?_, hf, hn, ho.free⟩
  rw [Blocks.free, ho.cell b v (Multiset.mem_cons_self _ _)]
  rfl

/-- The blocks that are owned are distinct, and have been requested before. -/
theorem of_owned (hx : (P.map Prod.fst).Nodup → (∀ b v, (b, v) ∈ P → b < n) →
    Runs f x n P a m Q) : Runs f x n P a m Q := by
  intro base h hf hn ho
  exact hx ho.nodup (fun b v hmem ↦ hn ▸ ho.lt_calls hmem) base h hf hn ho

/-- A program that may look at the number of requests. -/
theorem of_calls {x : Nat → BlockM V α} (hx : Runs f (x n) n P a m Q) :
    Runs f (fun h ↦ x h.calls h) n P a m Q := by
  rintro base h hf rfl ho
  exact hx base h hf rfl ho

/-- The same blocks in another order. -/
theorem of_eq (hx : Runs f x n P a m Q) (hP : P' = P) (hQ : Q' = Q) : Runs f x n P' a m Q' := by
  subst hP hQ
  exact hx

end Runs

end Blocks

end BareBones.Lib
