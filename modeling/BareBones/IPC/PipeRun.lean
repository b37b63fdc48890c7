import BareBones.IPC.PipeInv
import Mathlib.Data.Finset.Card

/-!
# Runs of a pipe

The events of a pipe keep its invariant.  The rules `WriteRule.loop`,
`forceReadersWakeUp_rule` and `closeAllFDs_rule` carry a further property through
the loops of the code; the modules on the stream, on wake-ups and on the end of file
use them with their own.
-/

namespace BareBones.IPC

open BareBones.Lib BareBones.Process BareBones.Semaphores

namespace Sys

variable {strict : Prop} {s t : Sys} {x y : PipeSem} {pid : Int} {pr : Proc} {m : Sem}
  {cb : CircularBuffer} {c : Cont} {P : Int → Prop}

/-! ## Writes -/

/-- The obligations of a property `E n` of a write of `buf` after `n` bytes, and of
what is to hold when the process leaves the processor, `Q`. -/
structure WriteRule (strict : Prop) (call : Nat) (buf : List UInt8) (E : Nat → Sys → Prop)
    (Q : Sys → Prop) : Prop where
  /-- A slot is taken and the next byte written. -/
  byte : ∀ n s cb, Inv strict s → s.Running → E n s → n < buf.length →
    0 < (s.pipe.sem .freeSpaces).value → s.pipe.buffer.count < s.pipe.buffer.maxSize → cb.Wf →
    cb.contents = s.pipe.buffer.contents ++ [buf.getD n 0] →
    cb.maxSize = s.pipe.buffer.maxSize →
    E (n + 1) ((s.setSem .freeSpaces ⟨(s.pipe.sem .freeSpaces).value - 1, []⟩).written cb call
      (buf.getD n 0))
  /-- A slot is taken, but the buffer is full. -/
  full : ∀ n s, Inv strict s → s.Running → E n s → n < buf.length →
    0 < (s.pipe.sem .freeSpaces).value → s.pipe.buffer.count = s.pipe.buffer.maxSize →
    E n { s.setSem .freeSpaces ⟨(s.pipe.sem .freeSpaces).value - 1, []⟩ with
      fullWrites := s.fullWrites + 1 }
  /-- There is no slot. -/
  block : ∀ n s, Inv strict s → s.Running → E n s → n < buf.length →
    (s.pipe.sem .freeSpaces).value ≤ 0 → Q (s.blockOn .freeSpaces (.writeSlot call buf n))
  /-- Everything is written. -/
  done : ∀ n s, Inv strict s → s.Running → E n s → ¬n < buf.length → Q (s.post .writeMutex)

/-- The invariant needs nothing more. -/
theorem WriteRule.trivial (strict : Prop) (call : Nat) (buf : List UInt8) :
    WriteRule strict call buf (fun _ _ ↦ True) fun _ ↦ True :=
  ⟨fun _ _ _ _ _ _ _ _ _ _ _ _ ↦ True.intro, fun _ _ _ _ _ _ _ _ ↦ True.intro,
    fun _ _ _ _ _ _ _ ↦ True.intro, fun _ _ _ _ _ _ ↦ True.intro⟩

/-- A byte is written by a process that writes on. -/
theorem Inv.written_running (h : Inv strict s) (hrun : s.Running)
    (hholds : s.Holds s.procs.currentPID) (hcb : cb.Wf)
    (hsize : cb.maxSize = s.pipe.buffer.maxSize) (call : Nat) (b : UInt8) :
    Inv strict (s.written cb call b) ∧ (s.written cb call b).Running ∧
      (s.written cb call b).Holds (s.written cb call b).procs.currentPID := by
  have hcur : (s.written cb call b).procs.currentPID = s.procs.currentPID := by
    unfold Sys.written
    split
    · exact post_currentPID _ ((h.setBuffer hcb hsize).good.congr rfl rfl rfl) _
    · rfl
  have hends : (s.written cb call b).writeEnds = s.writeEnds := by
    unfold Sys.written
    split <;> rfl
  refine ⟨h.written hcb hsize _ _, Running.written h hrun hcb hsize _ _, ?_⟩
  rw [Holds, hcur, hends]
  exact hholds

theorem Inv.setFullWrites (h : Inv strict s) (n : Nat) : Inv strict { s with fullWrites := n } :=
  ⟨h.good.congr rfl rfl rfl, ⟨h.ends.count, h.ends.nonempty⟩, h.holding⟩

section WriteRule

variable {call : Nat} {buf : List UInt8} {E : Nat → Sys → Prop} {Q : Sys → Prop}

/-- **The loop of a write keeps what its rounds keep**, and does not run out of fuel. -/
theorem WriteRule.loop (rule : WriteRule strict call buf E Q) (fuel n : Nat)
    (hfuel : (s.pipe.sem .freeSpaces).tokens < fuel) (h : Inv strict s) (hrun : s.Running)
    (hholds : s.Holds s.procs.currentPID) (hE : E n s) :
    ∃ t, writeLoop call buf fuel n s = some t ∧ Inv strict t ∧ Q t := by
  refine writeLoop_spec
    (I := fun n s ↦ Inv strict s ∧ s.Running ∧ s.Holds s.procs.currentPID ∧ E n s)
    (fun n s hI ↦ ⟨hI.1.good.wf _, hI.1.good.buffer, hI.1.good.nodes, _, hI.2.1⟩)
    (fun n s hI hn hpos ↦ ?_)
    (fun n s hI hn hneg ↦ ⟨hI.1.blockOn hI.2.1 (by decide) rfl fun _ ↦ hI.2.2.1,
      rule.block n s hI.1 hI.2.1 hI.2.2.2 hn hneg⟩)
    (fun n s hI hn ↦ ⟨hI.1.post (by decide), rule.done n s hI.1 hI.2.1 hI.2.2.2 hn⟩)
    fuel n hfuel ⟨h, hrun, hholds, hE⟩
  obtain ⟨hinv, hrun, hholds, hE⟩ := hI
  have htake := hinv.take (x := .freeSpaces) (by decide) hpos
  dsimp only
  split
  next hroom =>
      obtain ⟨cb, hwrite, hwf, hcontents, hsize, -⟩ := hinv.good.buffer.write hroom (buf.getD n 0)
      rw [hwrite]
      obtain ⟨hinv', hrun', hholds'⟩ :=
        htake.written_running hrun hholds hwf hsize call (buf.getD n 0)
      exact ⟨hinv', hrun', hholds', rule.byte n s cb hinv hrun hE hn hpos hroom hwf hcontents hsize⟩
  next hroom =>
      have hfull : s.pipe.buffer.count = s.pipe.buffer.maxSize :=
        le_antisymm hinv.good.buffer.count_le (not_lt.mp hroom)
      exact ⟨htake.setFullWrites _, hrun, hholds, rule.full n s hinv hrun hE hn hpos hfull⟩

/-- **A write that was granted a slot goes on.** -/
theorem WriteRule.after (rule : WriteRule strict call buf E Q) (n : Nat) (h : Inv strict s)
    (hrun : s.Running) (hholds : s.Holds s.procs.currentPID)
    (hbyte : ∀ cb, s.pipe.buffer.count < s.pipe.buffer.maxSize → cb.Wf →
      cb.contents = s.pipe.buffer.contents ++ [buf.getD n 0] →
      cb.maxSize = s.pipe.buffer.maxSize → E (n + 1) (s.written cb call (buf.getD n 0)))
    (hfull : s.pipe.buffer.count = s.pipe.buffer.maxSize →
      E n { s with fullWrites := s.fullWrites + 1 }) :
    ∃ t, afterFreeSpaces (writeLoop call buf (s.fuel .freeSpaces)) call buf n s = some t ∧
      Inv strict t ∧ Q t := by
  rw [afterFreeSpaces_eq _ _ _ _ h.good.buffer]
  by_cases hroom : s.pipe.buffer.count < s.pipe.buffer.maxSize
  · obtain ⟨cb, hwrite, hwf, hcontents, hsize, -⟩ := h.good.buffer.write hroom (buf.getD n 0)
    obtain ⟨hinv', hrun', hholds'⟩ := h.written_running hrun hholds hwf hsize call (buf.getD n 0)
    rw [if_pos hroom, hwrite]
    refine rule.loop _ _ ?_ hinv' hrun' hholds' (hbyte cb hroom hwf hcontents hsize)
    rw [written_freeSpaces]
    exact Nat.lt_succ_self _
  · have hfull' := le_antisymm h.good.buffer.count_le (not_lt.mp hroom)
    rw [if_neg hroom]
    exact rule.loop _ _ (Nat.lt_succ_self _) (h.setFullWrites _) hrun hholds (hfull hfull')

end WriteRule

/-- `pipeWrite`, up to the point where it has `writeMutex` or waits for it. -/
theorem pipeWrite_outcome (h : Inv strict s) (hrun : s.Running) (buf : List UInt8) :
    let r : Sys := { s with calls := s.calls ++ [buf] }
    (0 < (s.pipe.sem .writeMutex).value ∧ pipeWrite s buf =
      writeLoop s.calls.length buf (r.fuel .freeSpaces) 0
        (r.setSem .writeMutex ⟨(s.pipe.sem .writeMutex).value - 1, []⟩)) ∨
    ((s.pipe.sem .writeMutex).value ≤ 0 ∧
      pipeWrite s buf = some (r.blockOn .writeMutex (.writeMutex s.calls.length buf))) := by
  intro r
  have hwf : (r.pipe.sem .writeMutex).Wf := h.good.wf _
  have hcur : r.procs.table r.procs.currentPID = some ⟨.RUNNING, .user⟩ := hrun
  rcases wait_spec hwf hcur h.good.nodes with ⟨hpos, hwait⟩ | ⟨hneg, s', hwait, hsusp⟩
  · refine .inl ⟨hpos, ?_⟩
    simp only [pipeWrite, r] at hwait ⊢
    rw [hwait]
    rfl
  · refine .inr ⟨hneg, ?_⟩
    simp only [pipeWrite, r] at hwait ⊢
    rw [hwait, if_pos rfl, hsusp]

/-- The new call is on record. -/
theorem Inv.setCalls (h : Inv strict s) (calls : List (List UInt8)) :
    Inv strict { s with calls := calls } :=
  ⟨h.good.congr rfl rfl rfl, ⟨h.ends.count, h.ends.nonempty⟩, h.holding⟩

/-- **A write keeps what its rounds keep**, if the property holds when it takes the lock
and when it waits for it. -/
theorem WriteRule.write {buf : List UInt8} {E : Nat → Sys → Prop} {Q : Sys → Prop}
    (rule : WriteRule strict s.calls.length buf E Q) (h : Inv strict s) (hrun : s.Running)
    (hholds : s.Holds s.procs.currentPID) (ht : pipeWrite s buf = some t)
    (hlock : 0 < (s.pipe.sem .writeMutex).value →
      E 0 (({ s with calls := s.calls ++ [buf] } : Sys).setSem .writeMutex
        ⟨(s.pipe.sem .writeMutex).value - 1, []⟩))
    (hwait : (s.pipe.sem .writeMutex).value ≤ 0 →
      Q (({ s with calls := s.calls ++ [buf] } : Sys).blockOn .writeMutex
        (.writeMutex s.calls.length buf))) : Inv strict t ∧ Q t := by
  have hcalls := h.setCalls (s.calls ++ [buf])
  rcases pipeWrite_outcome h hrun buf with ⟨hpos, hwrite⟩ | ⟨hneg, hwrite⟩
  · obtain ⟨t', ht', hboth⟩ := rule.loop _ 0 (Nat.lt_succ_self _)
      (hcalls.take (x := .writeMutex) (by decide) hpos) hrun hholds (hlock hpos)
    exact Option.some.inj (ht'.symm.trans (hwrite.symm.trans ht)) ▸ hboth
  · exact Option.some.inj (hwrite.symm.trans ht) ▸
      ⟨hcalls.blockOn hrun (by decide) rfl fun _ ↦ hholds, hwait hneg⟩

/-! ## Going on after a wait -/

theorem running_eq_some : s.running = some pr ↔
    s.procs.table s.procs.currentPID = some pr ∧ pr.state = .RUNNING := by
  simp [running, Option.filter_eq_some_iff]

theorem inUser_iff : s.inUser = true ↔ s.Running := by
  simp only [inUser, Option.any_eq_true, running_eq_some, decide_eq_true_eq, Running]
  constructor
  · rintro ⟨⟨st, c⟩, ⟨hcur, hst⟩, hc⟩
    simp only at hst hc
    rw [hcur, hst, hc]
  · intro hcur
    exact ⟨_, ⟨hcur, rfl⟩, rfl⟩

/-- A process that goes on is, for the invariant, outside the pipe. -/
theorem Inv.resume (h : Inv strict s) (hpr : s.running = some pr) :
    Inv strict (s.suspend .user) ∧ (s.suspend .user).Running ∧
      (pr.cont.Writing → (s.suspend .user).Holds (s.suspend .user).procs.currentPID) := by
  obtain ⟨hcur, hstate⟩ := running_eq_some.mp hpr
  have hprocs : (s.suspend .user).procs =
      s.procs.set s.procs.currentPID { pr with cont := .user } := Procs.setCont_of hcur _
  have hcurrent : (s.suspend .user).procs.currentPID = s.procs.currentPID := by
    rw [hprocs]
    rfl
  refine ⟨⟨?_, ⟨h.ends.count, h.ends.nonempty⟩, ?_⟩, ?_, fun hw ↦ ?_⟩
  · refine h.good.setProc { pr with cont := .user } hcur ?_ ?_ ?_ (.inr rfl) rfl
      (by rw [hprocs]; rfl) (by rw [hprocs]) <;> simp [hstate]
  · intro q pr' _ hq hlive hw
    rw [hprocs] at hq
    by_cases heq : q = s.procs.currentPID
    · subst heq
      obtain rfl := Option.some.inj ((Procs.set_self _ _ _).symm.trans hq)
      exact hw.elim
    · exact h.holding q pr' trivial ((Procs.set_other _ _ heq).symm.trans hq) hlive hw
  · rw [Running, hcurrent, hprocs, Procs.set_self, hstate]
  · rw [hcurrent]
    exact h.holding _ pr trivial hcur (by simp [hstate]) hw

/-- **What a process does when it goes on.** -/
theorem Inv.continueAt (h : Inv strict s) (hpr : s.running = some pr)
    (ht : Sys.continueAt (s.suspend .user) pr.cont = some t) :
    (∃ count, pr.cont = .readData count ∧ ReadOutcome true (s.suspend .user) count t) ∨
      (∃ call buf, pr.cont = .writeMutex call buf ∧
        writeLoop call buf ((s.suspend .user).fuel .freeSpaces) 0 (s.suspend .user) = some t) ∨
      ∃ call buf n, pr.cont = .writeSlot call buf n ∧
        afterFreeSpaces (writeLoop call buf ((s.suspend .user).fuel .freeSpaces)) call buf n
          (s.suspend .user) = some t := by
  obtain ⟨hinv, hrun, -⟩ := h.resume hpr
  have hcur := (running_eq_some.mp hpr).1
  cases hcont : pr.cont with
  | user =>
      rw [hcont] at ht
      cases ht
  | readData count =>
      rw [hcont] at ht
      obtain ⟨t', ht', hout⟩ := afterDataAvailable_outcome hinv.good hrun count
      have heq : t' = t := Option.some.inj (ht'.symm.trans ht)
      exact .inl ⟨count, rfl, heq ▸ hout⟩
  | readMutex count =>
      exact absurd (by rw [hcont]; rfl) (h.good.noMutex _ pr hcur)
  | writeMutex call buf =>
      rw [hcont] at ht
      exact .inr (.inl ⟨call, buf, rfl, ht⟩)
  | writeSlot call buf n =>
      rw [hcont] at ht
      exact .inr (.inr ⟨call, buf, n, rfl, ht⟩)

section WriteRule

variable {call n : Nat} {buf : List UInt8} {E : Nat → Sys → Prop} {Q : Sys → Prop}

/-- A writer that was granted the lock writes. -/
theorem WriteRule.resumeWrite (rule : WriteRule strict call buf E Q) (h : Inv strict s)
    (hpr : s.running = some pr) (hcont : pr.cont = .writeMutex call buf)
    (ht : writeLoop call buf ((s.suspend .user).fuel .freeSpaces) 0 (s.suspend .user) = some t)
    (hE : E 0 (s.suspend .user)) : Inv strict t ∧ Q t := by
  obtain ⟨hinv, hrun, hholds⟩ := h.resume hpr
  obtain ⟨t', ht', hboth⟩ := rule.loop _ 0 (Nat.lt_succ_self _) hinv hrun
    (hholds (by rw [hcont]; trivial)) hE
  exact Option.some.inj (ht'.symm.trans ht) ▸ hboth

/-- A writer that was granted a slot writes on. -/
theorem WriteRule.resumeSlot (rule : WriteRule strict call buf E Q) (h : Inv strict s)
    (hpr : s.running = some pr) (hcont : pr.cont = .writeSlot call buf n)
    (ht : afterFreeSpaces (writeLoop call buf ((s.suspend .user).fuel .freeSpaces)) call buf n
      (s.suspend .user) = some t)
    (hbyte : ∀ cb, s.pipe.buffer.count < s.pipe.buffer.maxSize → cb.Wf →
      cb.contents = s.pipe.buffer.contents ++ [buf.getD n 0] →
      cb.maxSize = s.pipe.buffer.maxSize →
      E (n + 1) ((s.suspend .user).written cb call (buf.getD n 0)))
    (hfull : s.pipe.buffer.count = s.pipe.buffer.maxSize →
      E n { s.suspend .user with fullWrites := s.fullWrites + 1 }) : Inv strict t ∧ Q t := by
  obtain ⟨hinv, hrun, hholds⟩ := h.resume hpr
  obtain ⟨t', ht', hboth⟩ := rule.after n hinv hrun (hholds (by rw [hcont]; trivial)) hbyte hfull
  exact Option.some.inj (ht'.symm.trans ht) ▸ hboth

end WriteRule

/-! ## Waking all readers -/

/-- What a post keeps, a flood of posts keeps. -/
theorem forceReadersWakeUp_rule {I : Sys → Prop}
    (hpost : ∀ s, I s → I (s.post .dataAvailable)) (n : Nat) (h : I s) :
    I (forceReadersWakeUp n s) := by
  induction n generalizing s with
  | zero => exact h
  | succ n ih => exact ih (hpost s h)

/-- What holds without the writer and is kept by posts is kept by `removePipeWriter`. -/
theorem removePipeWriter_rule {I : Sys → Prop} (hpost : ∀ s, I s → I (s.post .dataAvailable))
    (h : I { s with pipe := { s.pipe with writerCount := s.pipe.writerCount - 1 } }) :
    I (removePipeWriter s) := by
  unfold removePipeWriter
  dsimp only
  split
  · exact forceReadersWakeUp_rule hpost _ h
  · exact h

/-- Every reader is awake, and there is a token. -/
def Flooded (s : Sys) : Prop :=
  (s.pipe.sem .dataAvailable).blockedQueue = [] ∧ 0 < (s.pipe.sem .dataAvailable).value

theorem Flooded.post (h : Good strict s) (hflood : s.Flooded) :
    (s.post .dataAvailable).Flooded := by
  rcases post_spec (h.wf .dataAvailable) h.valid with
    ⟨dead, pid, rest, pr, hqueue, -, -, -, -⟩ | ⟨-, hpost⟩
  · rw [hflood.1] at hqueue
    simp at hqueue
  · rw [hpost]
    exact ⟨by simp, by simp only [setSem_self]; omega⟩

open Classical in
/-- The pids of the blocked processes. -/
noncomputable def blockedPids (s : Sys) : Finset Int :=
  (pids.erase IDLE_PID).filter s.procs.Blocked

theorem mem_blockedPids :
    pid ∈ s.blockedPids ↔ pid ∈ pids.erase IDLE_PID ∧ s.procs.Blocked pid := by
  classical
  exact Finset.mem_filter

theorem card_blockedPids (s : Sys) : s.blockedPids.card < MAX_PROCESSES.toNat := by
  classical
  exact (Finset.card_filter_le _ _).trans_lt (by decide)

/-- A post of `dataAvailable` wakes a process, unless nobody waits. -/
theorem post_blockedPids (h : Good strict s) : (s.post .dataAvailable).Flooded ∨
    (s.post .dataAvailable).blockedPids.card < s.blockedPids.card := by
  rcases post_spec (h.wf .dataAvailable) h.valid with
    ⟨dead, pid, rest, pr, -, -, hpid, hstate, hpost⟩ | ⟨-, hpost⟩
  · refine .inr (Finset.card_lt_card (Finset.ssubset_iff_of_subset (fun q hq ↦ ?_) |>.mpr
      ⟨pid, ?_, ?_⟩))
    · obtain ⟨hrange, pr', hq', hblocked⟩ := mem_blockedPids.mp hq
      refine mem_blockedPids.mpr ⟨hrange, ?_⟩
      obtain ⟨pr'', hq'', -, hor⟩ := post_table h hq'
      rcases hor with rfl | ⟨hb, -⟩
      · exact ⟨_, hq'', hblocked⟩
      · exact ⟨_, hq'', hb⟩
    · obtain ⟨hvalid, hidle⟩ := h.valid pid pr hpid
      exact mem_blockedPids.mpr ⟨Finset.mem_erase.mpr ⟨hidle, mem_pids.mpr hvalid⟩, pr, hpid,
        hstate⟩
    · rintro hmem
      obtain ⟨-, pr', hq', hblocked⟩ := mem_blockedPids.mp hmem
      rw [hpost] at hq'
      obtain rfl := Option.some.inj ((Procs.set_self _ _ _).symm.trans hq')
      cases hblocked
  · rw [hpost]
    exact .inl ⟨by simp, by simp only [setSem_self]; omega⟩

/-- **More posts than blocked processes wake every reader.** -/
theorem forceReadersWakeUp_flooded (n : Nat) (h : Good strict s)
    (hn : s.blockedPids.card < n ∨ s.Flooded) : (forceReadersWakeUp n s).Flooded := by
  induction n generalizing s with
  | zero => exact hn.resolve_left (Nat.not_lt_zero _)
  | succ n ih =>
      refine ih (h.post (by decide)) ?_
      rcases hn with hn | hflood
      · exact (post_blockedPids h).symm.imp_left fun hlt ↦ by omega
      · exact .inr (hflood.post h)

/-- The last writer wakes every reader. -/
theorem removePipeWriter_flooded (h : Good strict s)
    (hor : s.pipe.writerCount - 1 ≤ 0 ∨ s.Flooded) : (removePipeWriter s).Flooded := by
  unfold removePipeWriter
  dsimp only
  split
  · exact forceReadersWakeUp_flooded _
      (h.congr (t := { s with pipe := { s.pipe with writerCount := s.pipe.writerCount - 1 } })
        rfl rfl rfl) (.inl (card_blockedPids _))
  next hmore => exact hor.resolve_left hmore

theorem forceReadersWakeUp_writeEnds (n : Nat) (s : Sys) :
    (forceReadersWakeUp n s).writeEnds = s.writeEnds ∧
      (forceReadersWakeUp n s).pipe.writerCount = s.pipe.writerCount := by
  induction n generalizing s with
  | zero => exact ⟨rfl, rfl⟩
  | succ n ih => exact ih (s.post .dataAvailable)

theorem removePipeWriter_writeEnds (s : Sys) : (removePipeWriter s).writeEnds = s.writeEnds ∧
    (removePipeWriter s).pipe.writerCount = s.pipe.writerCount - 1 := by
  unfold removePipeWriter
  dsimp only
  split
  · exact forceReadersWakeUp_writeEnds _ _
  · exact ⟨rfl, rfl⟩

/-- A write end goes away. -/
theorem Good.removePipeWriter (h : Good strict s) (hhold : Holding P s) :
    Good strict (Sys.removePipeWriter s) ∧ Holding P (Sys.removePipeWriter s) :=
  removePipeWriter_rule (I := fun s ↦ Good strict s ∧ Holding P s)
    (fun s hI ↦ ⟨hI.1.post (by decide), hI.2.post hI.1 _⟩) ⟨h.congr rfl rfl rfl, hhold⟩

/-- Going through all write ends keeps what changing the list of them and
`removePipeWriter` keep. -/
theorem closeAllFDs_rule {I : Sys → Prop} (hends : ∀ s es, I s → I { s with writeEnds := es })
    (hremove : ∀ s, I s → I (removePipeWriter s)) (kept es : List (List Int)) (h : I s) :
    I (closeAllFDs pid kept es s) := by
  induction es generalizing kept s with
  | nil => exact h
  | cons e es ih =>
      unfold closeAllFDs
      split
      · exact ih _ (hremove _ (hends _ _ h))
      · exact ih _ (hends _ _ h)

/-- The other processes hold what they held. -/
theorem Holding.setWriteEnds {es : List (List Int)} (h : Holding (· ≠ pid) s)
    (hkeep : ∀ q, q ≠ pid → s.Holds q → ({ s with writeEnds := es } : Sys).Holds q) :
    Holding (· ≠ pid) { s with writeEnds := es } :=
  fun q pr hq hpr hlive hw ↦ hkeep q hq (h q pr hq hpr hlive hw)

/-- Closing all descriptors of a process. -/
theorem closeAllFDs_inv (kept es : List (List Int)) (h : Good strict s) (hends : Ends s)
    (hhold : Holding (· ≠ pid) s) (hes : s.writeEnds = kept ++ es) :
    Good strict (closeAllFDs pid kept es s) ∧ Ends (closeAllFDs pid kept es s) ∧
      Holding (· ≠ pid) (closeAllFDs pid kept es s) := by
  induction es generalizing kept s with
  | nil => exact ⟨h, hends, hhold⟩
  | cons e es ih =>
      have hcount := hends.count
      have hne := hends.nonempty
      rw [hes] at hcount hne
      unfold closeAllFDs
      split
      next hempty =>
          have hhold' : Holding (· ≠ pid) { s with writeEnds := kept ++ es } :=
            hhold.setWriteEnds fun q hq ⟨e', he', hqe⟩ ↦ by
              rw [hes, List.mem_append, List.mem_cons] at he'
              rcases he' with he' | rfl | he'
              · exact ⟨e', List.mem_append_left _ he', hqe⟩
              · have hmem : q ∈ e'.filter (· ≠ pid) := List.mem_filter.mpr ⟨hqe, by simpa using hq⟩
                rw [hempty] at hmem
                cases hmem
              · exact ⟨e', List.mem_append_right _ he', hqe⟩
          obtain ⟨hgood', hhold''⟩ :=
            (h.congr (t := { s with writeEnds := kept ++ es }) rfl rfl rfl).removePipeWriter hhold'
          obtain ⟨hwe, hwc⟩ := removePipeWriter_writeEnds { s with writeEnds := kept ++ es }
          refine ih kept hgood' ⟨?_, ?_⟩ hhold'' hwe
          · rw [hwe, hwc]
            simp only [hcount, List.length_append, List.length_cons]
            push_cast
            omega
          · rw [hwe]
            intro e' he'
            refine hne e' ?_
            rcases List.mem_append.mp he' with he' | he' <;> simp [he']
      next hnonempty =>
          refine ih _ (h.congr rfl rfl rfl) ⟨?_, ?_⟩ (hhold.setWriteEnds ?_) (by simp)
          · simp only [hcount, List.length_append, List.length_cons]
          · intro e' he'
            rcases List.mem_append.mp he' with he' | he'
            · exact hne e' (List.mem_append_left _ he')
            · rcases List.mem_cons.mp he' with rfl | he'
              · exact hnonempty
              · exact hne e' (by simp [he'])
          · rintro q hq ⟨e', he', hqe⟩
            rw [hes, List.mem_append, List.mem_cons] at he'
            rcases he' with he' | rfl | he'
            · exact ⟨e', List.mem_append_left _ he', hqe⟩
            · exact ⟨e'.filter (· ≠ pid), by simp, List.mem_filter.mpr ⟨hqe, by simpa using hq⟩⟩
            · exact ⟨e', by simp [he'], hqe⟩

/-! ## The step lemma -/

/-- A live process that is not blocked changes its state, or leaves the pipe. -/
theorem Inv.setProc (pr' : Proc) (h : Inv strict s) (hpid : s.procs.table pid = some pr)
    (hlive : pr.state ≠ .ZOMBIE) (hstate : pr.state ≠ .BLOCKED) (hstate' : pr'.state ≠ .BLOCKED)
    (hcont : pr'.cont = pr.cont ∨ pr'.cont = .user) (hpipe : t.pipe = s.pipe)
    (hnodes : t.procs.nodes = s.procs.nodes) (hends : t.writeEnds = s.writeEnds)
    (htable : t.procs.table = (s.procs.set pid pr').table) :
    Inv strict t := by
  refine ⟨h.good.setProc pr' hpid hlive hstate hstate' hcont hpipe hnodes htable,
    ⟨by rw [hpipe, hends, h.ends.count], hends ▸ h.ends.nonempty⟩, fun q pr'' _ hq hlive' hw ↦ ?_⟩
  rw [htable] at hq
  rw [Holds, hends]
  by_cases heq : q = pid
  · subst heq
    obtain rfl := Option.some.inj ((Procs.set_self _ _ _).symm.trans hq)
    rcases hcont with hcont | hcont <;> rw [hcont] at hw
    · exact h.holding q pr trivial hpid hlive hw
    · exact hw.elim
  · exact h.holding q pr'' trivial ((Procs.set_other _ _ heq).symm.trans hq) hlive' hw

/-- The processor is taken from the running process. -/
theorem Inv.preempt (h : Inv strict s) : Inv strict s.preempt := by
  unfold Sys.preempt
  split
  next hsome =>
      obtain ⟨pr, hpr⟩ := Option.isSome_iff_exists.mp hsome
      obtain ⟨hcur, hstate⟩ := running_eq_some.mp hpr
      refine h.setProc { pr with state := .READY } hcur (by simp [hstate]) (by simp [hstate])
        (by simp) (.inl rfl) rfl (Procs.setState_nodes _ _ _) rfl ?_
      rw [Procs.setState_of hcur]
  next => exact h

theorem preempt_pipe (s : Sys) : s.preempt.pipe = s.pipe := by
  unfold preempt
  split <;> rfl

/-- `pid` is queued at no semaphore of the pipe. -/
def NotQueued (s : Sys) (pid : Int) : Prop := ∀ x, pid ∉ (s.pipe.sem x).blockedQueue

/-- The events of a strict run: no pid is reused as long as it is queued. -/
def Event.Fresh (s : Sys) : Event → Prop
  | .create pid => s.NotQueued pid
  | _ => True

/-- Closing a descriptor changes the list of write ends, and removes a writer with the
last reference to its write end. -/
theorem closeFd_cases {i : Nat} (ht : closeFd s pid i = some t) :
    ∃ es, t = { s with writeEnds := es } ∨ t = removePipeWriter { s with writeEnds := es } := by
  unfold closeFd at ht
  split at ht
  · cases ht
  · split at ht
    · cases ht
    · split at ht
      · exact ⟨_, .inr (Option.some.inj ht).symm⟩
      · exact ⟨_, .inl (Option.some.inj ht).symm⟩

/-- A write end is closed. -/
theorem Inv.closeFd (h : Inv strict s) (hrun : s.Running) {i : Nat}
    (ht : Sys.closeFd s s.procs.currentPID i = some t) : Inv strict t := by
  have hother : Holding (· ≠ s.procs.currentPID) s := fun q pr _ ↦ h.holding q pr trivial
  have hall : ∀ u : Sys, Holding (· ≠ s.procs.currentPID) u → u.procs.currentPID =
      s.procs.currentPID → u.Running → Holding (fun _ ↦ True) u := by
    intro u hu hcur hurun q pr _ hq hlive hw
    by_cases heq : q = s.procs.currentPID
    · rw [heq, ← hcur, hurun] at hq
      obtain rfl := Option.some.inj hq
      exact hw.elim
    · exact hu q pr heq hq hlive hw
  unfold Sys.closeFd at ht
  split at ht
  · cases ht
  next e he =>
      have hlt : i < s.writeEnds.length := (List.getElem?_eq_some_iff.mp he).1
      have hget : s.writeEnds[i] = e := (List.getElem?_eq_some_iff.mp he).2
      split at ht
      · cases ht
      · split at ht
        next hlast =>
            obtain rfl := Option.some.inj ht
            have hhold : Holding (· ≠ s.procs.currentPID)
                { s with writeEnds := s.writeEnds.eraseIdx i } :=
              hother.setWriteEnds fun q hq ⟨e', he', hqe⟩ ↦ by
                obtain ⟨j, hj, rfl⟩ := List.mem_iff_getElem.mp he'
                have hji : j ≠ i := fun heq ↦ by
                  subst heq
                  have hmem := (List.mem_erase_of_ne hq).mpr (hget ▸ hqe)
                  rw [hlast] at hmem
                  cases hmem
                exact ⟨_, List.mem_eraseIdx_iff_getElem.mpr ⟨j, hj, hji, rfl⟩, hqe⟩
            obtain ⟨hgood, hhold'⟩ :=
              (h.good.congr (t := { s with writeEnds := s.writeEnds.eraseIdx i }) rfl rfl
                rfl).removePipeWriter hhold
            obtain ⟨hwe, hwc⟩ :=
              removePipeWriter_writeEnds { s with writeEnds := s.writeEnds.eraseIdx i }
            have hrun' := removePipeWriter_rule
              (I := fun u ↦ Good strict u ∧ u.Running ∧ u.procs.currentPID = s.procs.currentPID)
              (fun u hI ↦ ⟨hI.1.post (by decide), hI.2.1.post hI.1 _,
                (post_currentPID u hI.1 _).trans hI.2.2⟩)
              (s := { s with writeEnds := s.writeEnds.eraseIdx i })
              ⟨h.good.congr rfl rfl rfl, hrun, rfl⟩
            refine ⟨hgood, ⟨?_, ?_⟩, hall _ hhold' hrun'.2.2 hrun'.2.1⟩
            · rw [hwe, hwc, h.ends.count, List.length_eraseIdx_of_lt hlt]
              omega
            · rw [hwe]
              exact fun e' he' ↦ h.ends.nonempty e' (List.mem_of_mem_eraseIdx he')
        next hmore =>
            obtain rfl := Option.some.inj ht
            refine ⟨h.good.congr rfl rfl rfl, ⟨?_, fun e' he' ↦ ?_⟩, hall _ ?_ rfl hrun⟩
            · simp [h.ends.count]
            · rcases List.mem_or_eq_of_mem_set he' with he' | rfl
              · exact h.ends.nonempty e' he'
              · exact hmore
            · refine hother.setWriteEnds fun q hq ⟨e', he', hqe⟩ ↦ ?_
              obtain ⟨j, hj, rfl⟩ := List.mem_iff_getElem.mp he'
              by_cases hji : j = i
              · subst hji
                exact ⟨_, List.mem_set hj _, (List.mem_erase_of_ne hq).mpr (hget ▸ hqe)⟩
              · refine ⟨s.writeEnds[j], ?_, hqe⟩
                exact List.mem_iff_getElem.mpr ⟨j, by simpa using hj, by
                  rw [List.getElem_set_ne (Ne.symm hji)]⟩

/-- What an event does, by the path that it takes through the code. -/
inductive Outcome (s : Sys) : Event → Sys → Prop
  | dispatch {pid : Int} {pr : Proc} : s.preempt.procs.table pid = some pr → pr.state = .READY →
      Outcome s (.dispatch pid) { s.preempt with
        procs := { s.preempt.procs.set pid { pr with state := .RUNNING } with currentPID := pid } }
  | readNothing : s.Running → Outcome s (.read 0) (s.returnRead 0 [])
  | read {count : Nat} {t : Sys} : s.Running → 0 < count → ReadOutcome false s count t →
      Outcome s (.read count) t
  | write {buf : List UInt8} {t : Sys} : s.Running → s.Holds s.procs.currentPID →
      pipeWrite s buf = some t → Outcome s (.write buf) t
  | resumeRead {pr : Proc} {count : Nat} {t : Sys} : s.running = some pr →
      pr.cont = .readData count → ReadOutcome true (s.suspend .user) count t → Outcome s .resume t
  | resumeWrite {pr : Proc} {call : Nat} {buf : List UInt8} {t : Sys} : s.running = some pr →
      pr.cont = .writeMutex call buf →
      writeLoop call buf ((s.suspend .user).fuel .freeSpaces) 0 (s.suspend .user) = some t →
      Outcome s .resume t
  | resumeSlot {pr : Proc} {call : Nat} {buf : List UInt8} {n : Nat} {t : Sys} :
      s.running = some pr → pr.cont = .writeSlot call buf n →
      afterFreeSpaces (writeLoop call buf ((s.suspend .user).fuel .freeSpaces)) call buf n
        (s.suspend .user) = some t → Outcome s .resume t
  | create {pid : Int} : s.Running → ¬invalidPID pid → pid ≠ IDLE_PID → s.procs.table pid = none →
      Outcome s (.create pid) { s with
        procs := s.procs.set pid ⟨.READY, .user⟩
        writeEnds := s.writeEnds.map fun e ↦
          e ++ List.replicate (e.count s.procs.currentPID) pid }
  | reopen : s.Running → s.Holds s.procs.currentPID → Outcome s .reopen
      (addPipeWriter { s with writeEnds := s.writeEnds ++ [[s.procs.currentPID]] })
  | close {i : Nat} {t : Sys} : s.Running → closeFd s s.procs.currentPID i = some t →
      Outcome s (.close i) t
  | kill {pid : Int} {pr : Proc} : s.procs.table pid = some pr → pr.state ≠ .ZOMBIE →
      Outcome s (.kill pid) { closeAllFDs pid [] s.writeEnds s with
        procs := (closeAllFDs pid [] s.writeEnds s).procs.setState pid .ZOMBIE }
  | reap {pid : Int} {pr : Proc} : s.procs.table pid = some pr → pr.state = .ZOMBIE →
      Outcome s (.reap pid) { s with procs := { s.procs with
        table := fun q ↦ if q = pid then none else s.procs.table q } }

/-- **Every event takes one of these paths.** -/
theorem Inv.step_outcome (h : Inv strict s) {e : Event} (ht : step s e = some t) :
    Outcome s e t := by
  cases e with
  | dispatch pid =>
      simp only [step] at ht
      split at ht
      · cases ht
      next pr hpr =>
          split at ht
          · cases ht
          next hready => exact Option.some.inj ht ▸ .dispatch hpr (not_not.mp hready)
  | read count =>
      simp only [step] at ht
      split at ht
      next huser =>
          have hrun := inUser_iff.mp huser
          rcases pipeRead_outcome h.good hrun count with ⟨rfl, ht'⟩ | ⟨hpos, t', ht', hout⟩
          · exact Option.some.inj (ht'.symm.trans ht) ▸ .readNothing hrun
          · exact Option.some.inj (ht'.symm.trans ht) ▸ .read hrun hpos hout
      · cases ht
  | write buf =>
      simp only [step] at ht
      split at ht
      next huser => exact .write (inUser_iff.mp huser.1) huser.2 ht
      · cases ht
  | resume =>
      simp only [step] at ht
      split at ht
      · cases ht
      next pr hpr =>
          rcases h.continueAt hpr ht with ⟨count, hcont, hout⟩ | ⟨call, buf, hcont, hw⟩ |
            ⟨call, buf, n, hcont, hw⟩
          · exact .resumeRead hpr hcont hout
          · exact .resumeWrite hpr hcont hw
          · exact .resumeSlot hpr hcont hw
  | create pid =>
      simp only [step] at ht
      split at ht
      · cases ht
      next hnot =>
          obtain ⟨huser, hvalid, hidle, hfree⟩ := by simpa only [not_or] using hnot
          obtain rfl := Option.some.inj ht
          exact .create (inUser_iff.mp (by simpa using huser)) hvalid hidle (by simpa using hfree)
  | reopen =>
      simp only [step] at ht
      split at ht
      next huser => exact Option.some.inj ht ▸ .reopen (inUser_iff.mp huser.1) huser.2
      · cases ht
  | close i =>
      simp only [step] at ht
      split at ht
      next huser => exact .close (inUser_iff.mp huser) ht
      · cases ht
  | kill pid =>
      simp only [step] at ht
      split at ht
      · cases ht
      next pr hpr =>
          split at ht
          · cases ht
          next hlive => exact Option.some.inj ht ▸ .kill hpr hlive
  | reap pid =>
      simp only [step] at ht
      split at ht
      · cases ht
      next pr hpr =>
          split at ht
          · cases ht
          next hdead => exact Option.some.inj ht ▸ .reap hpr (not_not.mp hdead)

/-- The scheduler switches to a process. -/
theorem Inv.dispatch (h : Inv strict s) (hpr : s.procs.table pid = some pr)
    (hready : pr.state = .READY) : Inv strict { s with
      procs := { s.procs.set pid { pr with state := .RUNNING } with currentPID := pid } } :=
  h.setProc { pr with state := .RUNNING } hpr (by simp [hready]) (by simp [hready]) (by simp)
    (.inl rfl) rfl rfl rfl rfl

/-- A process is created: it holds what its creator holds. -/
theorem Inv.create (h : Inv strict s) (hvalid : ¬invalidPID pid) (hidle : pid ≠ IDLE_PID)
    (hqueue : strict → s.NotQueued pid) : Inv strict { s with
      procs := s.procs.set pid ⟨.READY, .user⟩
      writeEnds := s.writeEnds.map fun e ↦
        e ++ List.replicate (e.count s.procs.currentPID) pid } := by
  refine ⟨h.good.update (some ⟨.READY, .user⟩) rfl rfl (fun _ ↦ rfl) (fun _ ↦ ⟨hvalid, hidle⟩) ?_ ?_
    fun hs _ _ _ ↦ hqueue hs, ⟨?_, fun e he ↦ ?_⟩, fun q pr _ hq hlive hw ↦ ?_⟩
  · rintro _ ⟨⟩
    simp
  · rintro _ ⟨⟩
    simp [Cont.waitsOn]
  · simp [h.ends.count]
  · obtain ⟨e', he', rfl⟩ := List.mem_map.mp he
    simp [h.ends.nonempty e' he']
  · by_cases heq : q = pid
    · subst heq
      obtain rfl := Option.some.inj ((Procs.set_self _ _ _).symm.trans hq)
      exact hw.elim
    · obtain ⟨e, he, hqe⟩ :=
        h.holding q pr trivial ((Procs.set_other _ _ heq).symm.trans hq) hlive hw
      exact ⟨_, List.mem_map_of_mem he, List.mem_append_left _ hqe⟩

/-- A write end is cloned. -/
theorem Inv.reopen (h : Inv strict s) : Inv strict
    (addPipeWriter { s with writeEnds := s.writeEnds ++ [[s.procs.currentPID]] }) := by
  refine ⟨⟨h.good.wf, h.good.buffer, h.good.size, h.good.valid, h.good.nodes, h.good.mutex,
    h.good.noMutex, h.good.queued, h.good.nodup, h.good.waits⟩, ⟨?_, fun e he ↦ ?_⟩,
      fun q pr _ hq hlive hw ↦ ?_⟩
  · simp [addPipeWriter, h.ends.count]
  · rcases List.mem_append.mp he with he | he
    · exact h.ends.nonempty e he
    · simp [List.mem_singleton.mp he]
  · obtain ⟨e, he, hqe⟩ := h.holding q pr trivial hq hlive hw
    exact ⟨e, List.mem_append_left _ he, hqe⟩

/-- A process dies. -/
theorem Inv.kill (h : Inv strict s) (pid : Int) : Inv strict
    { closeAllFDs pid [] s.writeEnds s with
      procs := (closeAllFDs pid [] s.writeEnds s).procs.setState pid .ZOMBIE } := by
  obtain ⟨hgood, hends, hhold⟩ := closeAllFDs_inv [] s.writeEnds h.good h.ends
    (fun q pr _ ↦ h.holding q pr trivial) rfl
  generalize closeAllFDs pid [] s.writeEnds s = u at hgood hends hhold
  cases hpid : u.procs.table pid with
  | none =>
      have hsame : u.procs.setState pid .ZOMBIE = u.procs := by simp [Procs.setState, hpid]
      rw [hsame]
      refine ⟨hgood, hends, fun q pr _ hq ↦ hhold q pr ?_ hq⟩
      rintro rfl
      cases hpid.symm.trans hq
  | some pr =>
      rw [Procs.setState_of hpid]
      refine ⟨hgood.update (some { pr with state := .ZOMBIE }) rfl rfl (fun _ ↦ rfl)
        (fun _ ↦ hgood.valid pid pr hpid) ?_ ?_ ?_, ⟨hends.count, hends.nonempty⟩,
        fun q pr' _ hq hlive hw ↦ ?_⟩
      · rintro _ ⟨⟩
        simp
      · rintro _ ⟨⟩
        exact hgood.noMutex pid pr hpid
      · rintro _ _ ⟨⟩ hlive
        exact absurd rfl hlive
      · by_cases heq : q = pid
        · subst heq
          obtain rfl := Option.some.inj ((Procs.set_self _ _ _).symm.trans hq)
          exact absurd rfl hlive
        · exact hhold q pr' heq ((Procs.set_other _ _ heq).symm.trans hq) hlive hw

/-- A dead process is reaped. -/
theorem Inv.reap (h : Inv strict s) (pid : Int) : Inv strict { s with procs := { s.procs with
    table := fun q ↦ if q = pid then none else s.procs.table q } } := by
  refine ⟨h.good.update none rfl rfl (fun _ ↦ rfl) (nofun) (nofun) (nofun) (nofun),
    ⟨h.ends.count, h.ends.nonempty⟩, fun q pr _ hq hlive hw ↦ ?_⟩
  dsimp only at hq
  split at hq
  · cases hq
  · exact h.holding q pr trivial hq hlive hw

/-- **The invariant is kept by every event**, and its strict form by every event of a
strict run. -/
theorem inv_step (h : Inv strict s) {e : Event} (hfresh : strict → e.Fresh s)
    (ht : step s e = some t) : Inv strict t := by
  cases h.step_outcome ht with
  | dispatch hpr hready => exact h.preempt.dispatch hpr hready
  | readNothing hrun => exact h.returnRead _ _
  | read hrun _ hout => exact h.read hrun hout
  | write hrun hholds hw =>
      exact ((WriteRule.trivial _ _ _).write h hrun hholds hw (fun _ ↦ trivial) fun _ ↦ trivial).1
  | resumeRead hpr hcont hout => exact (h.resume hpr).1.read (h.resume hpr).2.1 hout
  | resumeWrite hpr hcont hw =>
      exact ((WriteRule.trivial _ _ _).resumeWrite h hpr hcont hw trivial).1
  | resumeSlot hpr hcont hw =>
      exact ((WriteRule.trivial _ _ _).resumeSlot h hpr hcont hw (fun _ _ _ _ _ ↦ trivial)
        fun _ ↦ trivial).1
  | create hrun hvalid hidle hfree => exact h.create hvalid hidle hfresh
  | reopen hrun hholds => exact h.reopen
  | close hrun hclose => exact h.closeFd hrun hclose
  | kill hpr hlive => exact h.kill _
  | reap hpr hdead => exact h.reap _

/-- **The invariant holds in every run.** -/
theorem inv_reach {ok : Sys → Event → Prop} (hok : strict → ∀ s e, ok s e → e.Fresh s)
    (h : Inv strict s) (hreach : Reach step ok s t) : Inv strict t :=
  hreach.invariant h fun u e _ hinv hu ht ↦ inv_step hinv (fun hs ↦ hok hs u e hu) ht

/-! ## Runs with room for the nodes -/

/-- Where the heap has room anyway, asking it changes nothing. -/
theorem stepOn_of_nodes (h : s.procs.nodes = true) (e : Event) : s.stepOn (e, true) = step s e := by
  have hsame : s.withNodes true = s := by
    rw [withNodes, ← h]
  rw [stepOn, hsame]

/-- A run in which everyone who blocks gets its node is a run on a heap that always has room. -/
theorem reach_of_nodes {ok : Sys → Event → Prop} (h : Inv False s)
    (hreach : Reach stepOn (fun s x ↦ ok s x.1 ∧ x.2 = true) s t) : Reach step ok s t := by
  induction hreach with
  | refl => exact .refl
  | tail _ hok hstep ih =>
      obtain ⟨hok, hnode⟩ := hok
      have hinv := inv_reach nofun h ih
      refine .tail ih hok ?_
      rw [← stepOn_of_nodes hinv.good.nodes, ← hnode]
      exact hstep

end Sys

end BareBones.IPC
