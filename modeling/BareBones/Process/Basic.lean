import Mathlib.Data.Finset.Image
import Mathlib.Data.Finset.Range
import Mathlib.Data.List.Basic

/-!
# States and pids of processes

The constants of `process.h` that every part of the kernel uses, and the interface
between the scheduler and the semaphores.
-/

namespace BareBones.Process

/-- The states of a process. -/
inductive State
  | READY
  | RUNNING
  | BLOCKED
  | ZOMBIE
deriving DecidableEq, Repr

/-- `MAX_PROCESSES`: valid pids lie below it. -/
def MAX_PROCESSES : Int := 64

/-- `IDLE_PID` -/
def IDLE_PID : Int := 0

/-- `INIT_PID` -/
def INIT_PID : Int := 1

/-- The range check at the head of the functions that take a pid. -/
def invalidPID (pid : Int) : Prop := pid < 0 ∨ pid ≥ MAX_PROCESSES

instance (pid : Int) : Decidable (invalidPID pid) := inferInstanceAs (Decidable (_ ∨ _))

/-- The valid pids. -/
def pids : Finset Int := (Finset.range MAX_PROCESSES.toNat).image Int.ofNat

theorem mem_pids {pid : Int} : pid ∈ pids ↔ ¬invalidPID pid := by
  simp only [pids, Finset.mem_image, Finset.mem_range, invalidPID, MAX_PROCESSES]
  constructor
  · rintro ⟨n, hn, rfl⟩
    simp only [Int.ofNat_eq_natCast]
    omega
  · intro hpid
    exact ⟨pid.toNat, by omega, by simp only [Int.ofNat_eq_natCast]; omega⟩

/-- What semaphores use of the scheduler. -/
class Scheduler (σ : Type*) where
  /-- The pid of the running process. -/
  getCurrentPID : σ → Int
  /-- Mark the running process as blocked. -/
  setCurrentBlocked : σ → σ
  /-- Wake a process up; `none` stands for the result `-1`, which changes nothing. -/
  setReady : Int → σ → Option σ
  /-- `mem_alloc` finds room for a node of a `blockedQueue`. -/
  hasNode : σ → Bool

end BareBones.Process
