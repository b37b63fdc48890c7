import BareBones.Process.Clock
import BareBones.Userland.Cstandard

/-!
# The commands on processes

`kill`, `nice` and `block` take a process, and a priority, from the text of their arguments.
The text goes through `stringToInt`, which counts modulo `2 ^ 64`; the number goes through the
cast to the `int16_t` and the `uint8_t` of the system call.  Only the sign of the 64-bit number
is checked before.

A command is a function of its arguments and of the kernel.  It names the one system call that
the kernel carried out, if any, leaves the kernel after it, and prints a text.  What the
kernel does in a call is that of `BareBones.Process.Kernel`.

**Key results**:
- `run_iff`: which call a command gets done: one of its own kinds, on the numbers that its
  arguments read as, that the kernel accepts.
- `actsOnTyped_iff`: a command acts only on what was typed **exactly when** the kernel would
  accept no call on numbers that the arguments read as without being their decimal form:
  numbers that differ by a multiple of `2 ^ 16` (of `2 ^ 8` for the priority), and the zero
  that a text without digits reads as.
-/

namespace BareBones.Userland.Commands

open BareBones.Process Cstandard

/-! ## Calls -/

/-- A system call on a process, after the casts. -/
inductive Call
  | kill (pid : Int)
  | nice (pid : Int) (priority : UInt8)
  | block (pid : Int)
  | unblock (pid : Int)
  deriving DecidableEq

/-- `sysKill`, `sysNice`, `sysBlock`, `sysUnblock`; `none` where the call returns `-1`.  The
switch to another process, where the caller kills itself, is `Kernel.terminateProcess`'s. -/
def Call.perform (closed : List Nat) : Call → Kernel → Option Kernel
  | .kill pid, k => k.terminate pid closed
  | .nice pid priority, k => k.setPriorityOnPID pid priority
  | .block pid, k => k.setBlocked pid
  | .unblock pid, k => k.sysUnblock pid

/-- The call as an event of the kernel. -/
def Call.event (closed : List Nat) : Call → Kernel.Event
  | .kill pid => .kill pid closed
  | .nice pid priority => .nice pid priority
  | .block pid => .block pid
  | .unblock pid => .unblock pid

/-- After the call the scheduler is called: the caller has killed itself. -/
def Call.switches : Call → Kernel → Bool
  | .kill pid, t => t.currentProcess.map Prod.fst = some pid
  | _, _ => false

/-- The process that a call is on. -/
def Call.pid : Call → Int
  | .kill pid | .nice pid _ | .block pid | .unblock pid => pid

/-! ## The commands -/

/-- What a command did: the call that was carried out, the kernel after it, and the text it
printed. -/
structure Outcome where
  call : Option Call
  kernel : Kernel
  report : List Char

/-- Make a call, and print the one text or the other. -/
def Call.make (c : Call) (closed : List Nat) (k : Kernel) (good bad : List Char) : Outcome :=
  match c.perform closed k with
  | some t => ⟨some c, t, good⟩
  | none => ⟨none, k, bad⟩

/-- `%d` of a value cast to `int`. -/
def formatInt (value : Int64) : List Char := (numToString value.toInt32.toInt64).getD []

/-- `killCommand` -/
def killCommand (argv : List (List Char)) (closed : List Nat) (k : Kernel) : Outcome :=
  match argv with
  | _ :: arg :: _ =>
      let pid := stringToInt arg
      let bad := "kill: no se pudo matar al pid ".toList ++ formatInt pid ++ ['\n']
      let good := "kill: pid ".toList ++ formatInt pid ++ " terminado\n".toList
      if pid < 0 then ⟨none, k, bad⟩
      else (Call.kill pid.toInt16.toInt).make closed k good bad
  | _ => ⟨none, k, "Usage: kill <pid>\n".toList⟩

/-- `niceCommand` -/
def niceCommand (argv : List (List Char)) (closed : List Nat) (k : Kernel) : Outcome :=
  match argv with
  | _ :: arg :: arg' :: _ =>
      let pid := stringToInt arg
      let prio := stringToInt arg'
      let bad := "nice: argumentos invalidos o pid ".toList ++ formatInt pid ++
        " no existe\n".toList
      let good := "nice: pid ".toList ++ formatInt pid ++ " -> prioridad ".toList ++
        formatInt prio ++ ['\n']
      if pid < 0 ∨ prio < 1 then ⟨none, k, bad⟩
      else (Call.nice pid.toInt16.toInt prio.toUInt64.toUInt8).make closed k good bad
  | _ => ⟨none, k, "Usage: nice <pid> <priority>\n".toList⟩

/-- `blockCommand` -/
def blockCommand (argv : List (List Char)) (closed : List Nat) (k : Kernel) : Outcome :=
  match argv with
  | _ :: arg :: _ =>
      let pid := stringToInt arg
      if pid < 0 then ⟨none, k, "block: pid invalido\n".toList⟩
      else
        match (Call.block pid.toInt16.toInt).perform closed k with
        | some t => ⟨some (.block pid.toInt16.toInt), t,
            "block: pid ".toList ++ formatInt pid ++ " bloqueado\n".toList⟩
        | none =>
            let good := "block: pid ".toList ++ formatInt pid ++ " desbloqueado\n".toList
            let bad := "block: no se pudo (pid ".toList ++ formatInt pid ++ ")\n".toList
            (Call.unblock pid.toInt16.toInt).make closed k good bad
  | _ => ⟨none, k, "Usage: block <pid>\n".toList⟩

/-- The three commands. -/
inductive Command
  | kill
  | nice
  | block

/-- Run a command. -/
def Command.run : Command → List (List Char) → List Nat → Kernel → Outcome
  | .kill => killCommand
  | .nice => niceCommand
  | .block => blockCommand

/-- The kinds of call that a command makes. -/
def Command.Makes : Command → Call → Prop
  | .kill, .kill _ | .nice, .nice _ _ | .block, .block _ | .block, .unblock _ => True
  | _, _ => False

/-! ## What was typed -/

/-- The arguments are the decimal numbers that the call is made with. -/
def Written (argv : List (List Char)) : Call → Prop
  | .nice pid priority => argv[1]?.bind numeral = some pid ∧
      argv[2]?.bind numeral = some (priority.toNat : Int)
  | c => argv[1]?.bind numeral = some c.pid

/-- A command reports an error and leaves the kernel as it was, or it gets one call done, with
the numbers that were typed. -/
def ActsOnTyped (cmd : Command) (argv : List (List Char)) (closed : List Nat) (k : Kernel) : Prop :=
  ((cmd.run argv closed k).call = none → (cmd.run argv closed k).kernel = k) ∧
    ∀ c, (cmd.run argv closed k).call = some c →
      Written argv c ∧ c.perform closed k = some (cmd.run argv closed k).kernel

/-- The number, before any reduction, that the parse takes a text for: zero without digits. -/
def readAs (text : List Char) : Option Int :=
  if (splitSign text).2 = [] then some 0 else numeral text

/-- A text reads as a pid: modulo `2 ^ 64` it is not negative, and modulo `2 ^ 16` it is the
pid. -/
def ReadsPid (text : List Char) (pid : Int) : Prop :=
  ∃ z ∈ readAs text, 0 ≤ z.bmod (2 ^ 64) ∧ z.bmod (2 ^ 16) = pid

/-- A text reads as a priority: modulo `2 ^ 64` it is positive, and modulo `2 ^ 8` it is the
priority. -/
def ReadsPriority (text : List Char) (priority : UInt8) : Prop :=
  ∃ z ∈ readAs text, 1 ≤ z.bmod (2 ^ 64) ∧ z % 2 ^ 8 = priority.toNat

/-- The arguments read as the numbers of a call. -/
def Reads (argv : List (List Char)) : Call → Prop
  | .nice pid priority => (∃ arg ∈ argv[1]?, ReadsPid arg pid) ∧
      ∃ arg ∈ argv[2]?, ReadsPriority arg priority
  | c => ∃ arg ∈ argv[1]?, ReadsPid arg c.pid

/-- The kernel accepts a call. -/
def Accepts (k : Kernel) : Call → Prop
  | .kill pid => k.CanTerminate pid
  | .nice pid priority => ¬invalidPID pid ∧ (k.processTable pid).isSome ∧ priority ≠ 0
  | .block pid => ¬invalidPID pid ∧ ¬Kernel.isUnkillable pid ∧
      (k.stateOf pid = some .RUNNING ∨ k.stateOf pid = some .READY)
  | .unblock pid => ¬invalidPID pid ∧ ¬Kernel.isUnkillable pid ∧ k.stateOf pid = some .BLOCKED

/-- No call that the kernel would accept is on numbers that the arguments read as without
being written in them. -/
def ReadsNoOther (cmd : Command) (argv : List (List Char)) (k : Kernel) : Prop :=
  ∀ c, cmd.Makes c → Accepts k c → Reads argv c → Written argv c

/-! ## How the text is read -/

/-- The parse, with the two texts that it takes for numbers without their being numerals. -/
theorem stringToInt_readAs (text : List Char) :
    stringToInt text = match readAs text with
      | some z => Int64.ofInt z
      | none => -1 := by
  rw [stringToInt_eq, readAs]
  by_cases hempty : (splitSign text).2 = []
  · have hnone : numeral text = none := by
      simp [numeral, IsDigits, hempty]
    have hread : (if (splitSign text).2 = [] then some 0 else numeral text) = some 0 :=
      if_pos hempty
    rw [hread, hnone]
    exact if_pos hempty
  · have hread : (if (splitSign text).2 = [] then some 0 else numeral text) = numeral text :=
      if_neg hempty
    rw [hread]
    cases numeral text with
    | none => exact if_neg hempty
    | some z => rfl

/-- A bound on the parse from zero on excludes the error value. -/
theorem exists_readAs_iff (text : List Char) (P : Int → Prop) (hneg : ¬P (-1)) :
    (∃ z ∈ readAs text, P (z.bmod (2 ^ 64))) ↔ P (stringToInt text).toInt := by
  rw [stringToInt_readAs]
  cases readAs text with
  | none => simpa using hneg
  | some z => simp [Int64.toInt_ofInt, Int64.size]

theorem readsPid_iff (text : List Char) (pid : Int) :
    ReadsPid text pid ↔ ¬ stringToInt text < 0 ∧ (stringToInt text).toInt16.toInt = pid := by
  have hmod (z : Int) : (z.bmod (2 ^ 64)).bmod (2 ^ 16) = z.bmod (2 ^ 16) :=
    Int.bmod_bmod_of_dvd (by decide)
  rw [Int64.not_lt, Int64.le_iff_toInt_le, Int64.toInt_toInt16]
  refine Iff.trans ?_ (exists_readAs_iff text (fun z ↦ 0 ≤ z ∧ z.bmod (2 ^ 16) = pid) (by simp))
  simp only [hmod]
  rfl

theorem readsPriority_iff (text : List Char) (priority : UInt8) :
    ReadsPriority text priority ↔
      ¬ stringToInt text < 1 ∧ (stringToInt text).toUInt64.toUInt8 = priority := by
  have hcast : (stringToInt text).toUInt64.toUInt8 = priority ↔
      (stringToInt text).toInt % 2 ^ 8 = priority.toNat := by
    have hbits : (stringToInt text).toUInt64.toNat = (stringToInt text).toBitVec.toNat := rfl
    have hint : (stringToInt text).toInt = (stringToInt text).toBitVec.toInt := rfl
    rw [← UInt8.toNat_inj, UInt64.toNat_toUInt8, hbits, hint, BitVec.toInt_eq_toNat_cond]
    split <;> omega
  have hmod (z : Int) : z.bmod (2 ^ 64) % 2 ^ 8 = z % 2 ^ 8 := by
    rw [Int.bmod_def]
    split <;> omega
  rw [Int64.not_lt, Int64.le_iff_toInt_le, hcast]
  refine Iff.trans ?_
    (exists_readAs_iff text (fun z ↦ 1 ≤ z ∧ z % 2 ^ 8 = priority.toNat) (by simp))
  simp only [hmod]
  rfl

/-! ## What the kernel accepts -/

theorem setBlocked_isSome_iff (k : Kernel) (pid : Int) :
    (k.setBlocked pid).isSome ↔ Accepts k (.block pid) := by
  unfold Kernel.setBlocked Accepts Kernel.stateOf
  by_cases hinvalid : invalidPID pid
  · simp [hinvalid]
  cases hp : k.processTable pid with
  | none => simp [hinvalid, hp]
  | some p =>
      by_cases hkill : Kernel.isUnkillable pid
      · simp [hinvalid, hkill]
      · cases hst : p.state <;> simp [hinvalid, hkill, hp, hst]

theorem sysUnblock_isSome_iff (k : Kernel) (pid : Int) :
    (k.sysUnblock pid).isSome ↔ Accepts k (.unblock pid) := by
  unfold Kernel.sysUnblock Kernel.setReady Accepts Kernel.stateOf Kernel.isUnkillable
  by_cases hkill : pid = IDLE_PID ∨ pid = INIT_PID
  · simp [hkill]
  by_cases hinvalid : invalidPID pid
  · simp [hinvalid]
  cases hp : k.processTable pid with
  | none => simp [hinvalid, hp]
  | some p => cases hst : p.state <;> simp [hinvalid, hkill, hp, hst]

/-- A call is carried out exactly when the kernel accepts it. -/
theorem perform_isSome_iff (c : Call) (closed : List Nat) (k : Kernel) :
    (c.perform closed k).isSome ↔ Accepts k c := by
  cases c with
  | kill pid => exact k.terminate_isSome_iff pid closed
  | nice pid priority =>
      unfold Call.perform Kernel.setPriorityOnPID Accepts
      by_cases hinvalid : invalidPID pid
      · simp [hinvalid]
      · cases hp : k.processTable pid <;> simp [hinvalid, hp]
  | block pid => exact setBlocked_isSome_iff k pid
  | unblock pid => exact sysUnblock_isSome_iff k pid

/-- A process that can be unblocked cannot be blocked. -/
theorem perform_block_eq_none {pid : Int} {closed : List Nat} {k : Kernel}
    (h : Accepts k (.unblock pid)) : (Call.block pid).perform closed k = none := by
  rw [← Option.not_isSome_iff_eq_none, perform_isSome_iff]
  rintro ⟨-, -, hrun | hready⟩
  · cases hrun.symm.trans h.2.2
  · cases hready.symm.trans h.2.2

/-- The event of a call takes the kernel to where the call leaves it, and on to the switch
where a process kills itself. -/
theorem step_event {c : Call} {closed : List Nat} {k t : Kernel} (hcaller : k.caller.isSome)
    (hc : c.perform closed k = some t) : k.step (c.event closed) =
      if c.switches t then t.schedule else some t := by
  obtain ⟨caller, hcaller⟩ := Option.isSome_iff_exists.1 hcaller
  cases c with
  | kill pid =>
      have hterminate : k.terminate pid closed = some t := hc
      by_cases hself : t.currentProcess.map Prod.fst = some pid <;>
        simp [Call.event, Call.switches, Kernel.step, hcaller, Kernel.terminateProcess, hterminate,
          hself]
  | nice pid priority =>
      have hnice : k.setPriorityOnPID pid priority = some t := hc
      simp [Call.event, Call.switches, Kernel.step, hcaller, hnice]
  | block pid =>
      have hblock : k.setBlocked pid = some t := hc
      simp [Call.event, Call.switches, Kernel.step, hcaller, hblock]
  | unblock pid =>
      have hunblock : k.sysUnblock pid = some t := hc
      simp [Call.event, Call.switches, Kernel.step, hcaller, hunblock]

/-! ## What a command gets done -/

/-- Without a call the kernel is as it was; with one it is what the call leaves. -/
structure Outcome.Sound (o : Outcome) (closed : List Nat) (k : Kernel) : Prop where
  error : o.call = none → o.kernel = k
  done : ∀ c, o.call = some c → c.perform closed k = some o.kernel

variable {c d : Call} {closed : List Nat} {k : Kernel} {good bad : List Char}

theorem Outcome.Sound.refused : Outcome.Sound ⟨none, k, bad⟩ closed k :=
  ⟨fun _ ↦ rfl, fun _ h ↦ absurd h (Option.some_ne_none _).symm⟩

theorem Outcome.Sound.carried {t : Kernel} (h : c.perform closed k = some t) :
    Outcome.Sound ⟨some c, t, good⟩ closed k := by
  constructor
  · intro hnone
    cases hnone
  · intro d hd
    obtain rfl := Option.some_inj.1 hd
    exact h

theorem make_sound : (c.make closed k good bad).Sound closed k := by
  unfold Call.make
  split
  next t ht => exact .carried ht
  next => exact .refused

theorem run_sound (cmd : Command) (argv : List (List Char)) (closed : List Nat) (k : Kernel) :
    (cmd.run argv closed k).Sound closed k := by
  cases cmd with
  | kill =>
      simp only [Command.run, killCommand]
      split
      next =>
        split
        · exact .refused
        · exact make_sound
      next => exact .refused
  | nice =>
      simp only [Command.run, niceCommand]
      split
      next =>
        split
        · exact .refused
        · exact make_sound
      next => exact .refused
  | block =>
      simp only [Command.run, blockCommand]
      split
      next =>
        split
        · exact .refused
        · split
          next t ht => exact .carried ht
          next => exact make_sound
      next => exact .refused

theorem make_call_iff : (c.make closed k good bad).call = some d ↔ d = c ∧ Accepts k d := by
  rw [← perform_isSome_iff d closed k]
  unfold Call.make
  constructor
  · intro h
    split at h
    next t ht =>
      obtain rfl := Option.some_inj.1 h
      exact ⟨rfl, by simp [ht]⟩
    next => cases h
  · rintro ⟨rfl, hsome⟩
    obtain ⟨t, ht⟩ := Option.isSome_iff_exists.1 hsome
    simp [ht]

theorem getElem?_one_eq_none {argv : List (List Char)}
    (h : ∀ name arg rest, argv = name :: arg :: rest → False) : argv[1]? = none := by
  rcases argv with - | ⟨name, - | ⟨arg, rest⟩⟩
  · rfl
  · rfl
  · exact (h name arg rest rfl).elim

theorem killCommand_call_iff (argv : List (List Char)) :
    (killCommand argv closed k).call = some c ↔
      Command.kill.Makes c ∧ Reads argv c ∧ Accepts k c := by
  unfold killCommand
  split
  next name arg rest =>
    cases c with
    | kill pid =>
        have hreads : Reads (name :: arg :: rest) (.kill pid) ↔ ReadsPid arg pid := by
          simp [Reads, Call.pid]
        rw [hreads, readsPid_iff]
        by_cases hneg : stringToInt arg < 0
        · simp [hneg]
        · simp only [if_neg hneg, make_call_iff, Call.kill.injEq, Command.Makes]
          grind
    | nice _ _ | block _ | unblock _ =>
        by_cases hneg : stringToInt arg < 0 <;> simp [hneg, make_call_iff, Command.Makes]
  next hshort =>
    have hnone := getElem?_one_eq_none hshort
    cases c <;> simp [Command.Makes, Reads, hnone]

theorem niceCommand_call_iff (argv : List (List Char)) :
    (niceCommand argv closed k).call = some c ↔
      Command.nice.Makes c ∧ Reads argv c ∧ Accepts k c := by
  unfold niceCommand
  split
  next name arg arg' rest =>
    cases c with
    | nice pid priority =>
        have hreads : Reads (name :: arg :: arg' :: rest) (.nice pid priority) ↔
            ReadsPid arg pid ∧ ReadsPriority arg' priority := by
          simp [Reads]
        rw [hreads, readsPid_iff, readsPriority_iff]
        by_cases hbad : stringToInt arg < 0 ∨ stringToInt arg' < 1
        · rw [if_pos hbad]
          simp
          grind
        · simp only [if_neg hbad, make_call_iff, Call.nice.injEq, Command.Makes]
          grind
    | kill _ | block _ | unblock _ =>
        by_cases hbad : stringToInt arg < 0 ∨ stringToInt arg' < 1 <;>
          simp [hbad, make_call_iff, Command.Makes]
  next hshort =>
    have hnone : argv[2]? = none := by
      rcases argv with - | ⟨name, - | ⟨arg, - | ⟨arg', rest⟩⟩⟩
      · rfl
      · rfl
      · rfl
      · exact absurd rfl (hshort name arg arg' rest)
    cases c <;> simp [Command.Makes, Reads, hnone]

theorem blockCommand_call_iff (argv : List (List Char)) :
    (blockCommand argv closed k).call = some c ↔
      Command.block.Makes c ∧ Reads argv c ∧ Accepts k c := by
  unfold blockCommand
  split
  next name arg rest =>
    have hreads (d : Call) (hd : Command.block.Makes d) : Reads (name :: arg :: rest) d ↔
        ¬ stringToInt arg < 0 ∧ (stringToInt arg).toInt16.toInt = d.pid := by
      rw [← readsPid_iff]
      cases d with
      | block _ | unblock _ => simp [Reads]
      | kill _ | nice _ _ => exact hd.elim
    by_cases hneg : stringToInt arg < 0
    · simp only [if_pos hneg]
      constructor
      · simp
      · rintro ⟨hmakes, hread, -⟩
        exact absurd hneg ((hreads c hmakes).1 hread).1
    · simp only [if_neg hneg]
      generalize hpid : (stringToInt arg).toInt16.toInt = pid at hreads
      -- the second call is made only where the first is refused
      split
      next t ht =>
        have hblock : Accepts k (.block pid) := (perform_isSome_iff _ closed k).1 (by simp [ht])
        constructor
        · intro h
          obtain rfl := Option.some_inj.1 h
          exact ⟨trivial, (hreads (.block pid) trivial).2 ⟨hneg, rfl⟩, hblock⟩
        · rintro ⟨hmakes, hread, haccepts⟩
          obtain ⟨-, rfl⟩ := (hreads c hmakes).1 hread
          cases c with
          | block _ => rfl
          | unblock _ =>
              have hrefused : (Call.block _).perform closed k = none :=
                perform_block_eq_none haccepts
              exact absurd ht (by simp [Call.pid, hrefused])
          | kill _ | nice _ _ => exact hmakes.elim
      next hrefused =>
        rw [make_call_iff]
        constructor
        · rintro ⟨rfl, haccepts⟩
          exact ⟨trivial, (hreads (.unblock pid) trivial).2 ⟨hneg, rfl⟩, haccepts⟩
        · rintro ⟨hmakes, hread, haccepts⟩
          obtain ⟨-, rfl⟩ := (hreads c hmakes).1 hread
          cases c with
          | unblock _ => exact ⟨rfl, haccepts⟩
          | block _ =>
              have hsome := (perform_isSome_iff _ closed k).2 haccepts
              exact absurd hsome (by simp_all [Call.pid])
          | kill _ | nice _ _ => exact hmakes.elim
  next hshort =>
    have hnone := getElem?_one_eq_none hshort
    cases c <;> simp [Command.Makes, Reads, hnone]

/-- **Which call a command gets done**: one of its own kinds, on the numbers that its arguments
read as, that the kernel accepts. -/
theorem run_iff (cmd : Command) (argv : List (List Char)) :
    (cmd.run argv closed k).call = some c ↔ cmd.Makes c ∧ Reads argv c ∧ Accepts k c := by
  cases cmd with
  | kill => exact killCommand_call_iff argv
  | nice => exact niceCommand_call_iff argv
  | block => exact blockCommand_call_iff argv

/-- **A command acts only on what was typed exactly when its arguments read as no other call
that the kernel would accept.** -/
theorem actsOnTyped_iff (cmd : Command) (argv : List (List Char)) (closed : List Nat)
    (k : Kernel) : ActsOnTyped cmd argv closed k ↔ ReadsNoOther cmd argv k := by
  have hsound := run_sound cmd argv closed k
  constructor
  · intro h c hmakes haccepts hreads
    exact (h.2 c ((run_iff cmd argv).2 ⟨hmakes, hreads, haccepts⟩)).1
  · intro h
    refine ⟨hsound.error, ?_⟩
    intro c hc
    obtain ⟨hmakes, hreads, haccepts⟩ := (run_iff cmd argv).1 hc
    exact ⟨h c hmakes haccepts hreads, hsound.done c hc⟩

/-- The shell has made the process with the pid 3, and is running. -/
def twoUsers : Kernel :=
  (Lib.run Kernel.step .initializeScheduler (Kernel.bootEvents ++ [.create])).getD
    .initializeScheduler

/-- `kill 65539` ends the process with the pid 3. -/
theorem kill_kills_other : ¬ ∀ (cmd : Command) (argv : List (List Char)) (closed : List Nat)
    (k : Kernel), ActsOnTyped cmd argv closed k := by
  intro h
  have hcall : (Command.kill.run ["kill".toList, "65539".toList] [] twoUsers).call
      = some (.kill 3) := by
    decide +kernel
  have hwritten := ((h .kill ["kill".toList, "65539".toList] [] twoUsers).2 _ hcall).1
  exact absurd hwritten (by unfold Written; decide +kernel)

/-- `nice 3 9` gives the process with the pid 3 the priority 9. -/
example : (Command.nice.run ["nice".toList, "3".toList, "9".toList] [] twoUsers).call
    = some (.nice 3 9) := by
  decide +kernel

end BareBones.Userland.Commands
