import BareBones.Lib.Program
import BareBones.Process.FdCounts
import Mathlib.Data.List.DropRight

/-!
# The shell

The model of how `shell.c` runs a line: the line is split into at most two stages, a process
is created for each of them, and its descriptors are those of the shell with a list of
overrides.

A line is a list of characters without the zero at its end.  Where the source overwrites a
character of the line to end a string, the functions return the pieces.  `runLine` is a program
in the sense of `BareBones.Lib.Program`: it makes system calls, and between two of them the
other processes make theirs (`others`).  That no descriptor is lost is proved in
`BareBones.Userland.ShellFds`.
-/

namespace BareBones.Userland.Shell

open BareBones.Lib BareBones.Process

/-- `MAX_TOKENS` -/
def MAX_TOKENS : Nat := 16

/-- `MAX_PIPELINE` -/
def MAX_PIPELINE : Nat := 2

/-- `STDIN` -/
def STDIN : Int := 0

/-- `STDOUT` -/
def STDOUT : Int := 1

/-- `STDERR` -/
def STDERR : Int := 2

/-! ## The line -/

/-- `c == ' ' || c == '\t'` -/
def isBlank (c : Char) : Bool := c = ' ' || c = '\t'

/-- `tokenize` -/
def tokenize : (maxTokens : Nat) → (str : List Char) → List (List Char)
  | 0, _ => []
  | maxTokens + 1, str =>
      let str := str.dropWhile isBlank
      if str = [] then []
      else str.takeWhile (!isBlank ·) :: tokenize maxTokens (str.dropWhile (!isBlank ·)).tail

/-- `splitPipeline`, with room for another `room` stages; `none` for `-1`. -/
def splitPipeline : (room : Nat) → (line : List Char) → Option (List (List Char))
  | room, line =>
      match line.dropWhile (· ≠ '|') with
      | [] => some [line]
      | _ :: p =>
          match room with
          | 0 => none
          | room + 1 => (splitPipeline room (p.dropWhile (· = ' '))).map
              (line.takeWhile (· ≠ '|') :: ·)

/-- `hasBackground`, with the line that is left. -/
def hasBackground (line : List Char) : Bool × List Char :=
  let line := line.rdropWhile isBlank
  if line.getLast? = some '&' then (true, line.dropLast.rdropWhile isBlank) else (false, line)

/-- The names of `validCommands`. -/
def validCommands : List String :=
  ["help", "clear", "echo", "datetime", "registers", "ls", "music", "zero", "invalid", "ps",
    "mem", "loop", "kill", "nice", "block", "cat", "wc", "filter", "mvar", "test_mm",
    "test_proc", "test_prio", "test_sync"]

/-- `getCommandIndex`; `none` for `-1`. -/
def getCommandIndex (name : List Char) : Option Nat :=
  if name = [] then none else validCommands.findIdx? fun c ↦ c.toList = name

/-! ## Running it -/

/-- A system call of the shell.  A process is created with the entry point of a command. -/
inductive Call
  | write (fd : Int) (text : List Char)
  | reopen (fd : Int)
  | pipe
  | createProcess (cmdIdx : Nat) (argv : List (List Char)) (overrides : List FdOverride)
  | close (fd : Int)
  | foreground (pid : Int)
  | kill (pid : Int)
  | waitpid (pid : Int)

/-- What the shell learns from it.  `sys_pipe` answers the two descriptors, unless it
fails. -/
abbrev Call.Ans : Call → Type
  | .reopen _ | .createProcess _ _ _ => Int
  | .pipe => Option (Int × Int)
  | .write _ _ | .close _ | .foreground _ | .kill _ | .waitpid _ => Unit

/-- A function of the shell. -/
abbrev Sh := Prog Call Call.Ans

/-- A system call, and its answer. -/
def sys (c : Call) : Sh c.Ans := Prog.request c

/-- `sys_write` -/
def sys_write (fd : Int) (text : List Char) : Sh Unit := sys (.write fd text)

/-- `sys_reopen` -/
def sys_reopen (fd : Int) : Sh Int := sys (.reopen fd)

/-- `sys_pipe` -/
def sys_pipe : Sh (Option (Int × Int)) := sys .pipe

/-- `sys_create_process_with_fds` -/
def sys_create_process_with_fds (cmdIdx : Nat) (argv : List (List Char))
    (overrides : List FdOverride) : Sh Int :=
  sys (.createProcess cmdIdx argv overrides)

/-- `sys_close` -/
def sys_close (fd : Int) : Sh Unit := sys (.close fd)

/-- `sys_foreground` -/
def sys_foreground (pid : Int) : Sh Unit := sys (.foreground pid)

/-- `sys_kill` -/
def sys_kill (pid : Int) : Sh Unit := sys (.kill pid)

/-- `sys_waitpid` -/
def sys_waitpid (pid : Int) : Sh Unit := sys (.waitpid pid)

/-- `putChar` -/
def putChar (c : Char) : Sh Unit := sys_write STDOUT [c]

/-- `overrides` of `runStage` -/
def overrides (stdinFd stdoutFd : Int) (closeFds : List Int) : List FdOverride :=
  (if stdinFd = -1 then [⟨STDIN, -1⟩] else if stdinFd ≠ STDIN then [⟨STDIN, stdinFd⟩] else []) ++
  (if stdoutFd ≠ STDOUT then [⟨STDOUT, stdoutFd⟩] else []) ++
  closeFds.map fun fd ↦ ⟨fd, -1⟩

/-- `runStage` -/
def runStage (stageStr : List Char) (stdinFd stdoutFd : Int) (background : Bool)
    (closeFds : List Int) : Sh Int :=
  match tokenize MAX_TOKENS stageStr with
  | [] => pure (-1)
  | name :: args =>
      match getCommandIndex name with
      | none => do
          sys_write STDERR "\x1bfFF4040;Command not found: ".toList
          sys_write STDERR name
          sys_write STDERR "\x1br;\n".toList
          pure (-1)
      | some cmdIdx => do
          let pid ← sys_create_process_with_fds cmdIdx (name :: args)
            (overrides stdinFd stdoutFd closeFds)
          if pid < 0 then do
            sys_write STDERR "shell: cannot spawn\n".toList
            pure (-1)
          else do
            if !background then sys_foreground pid
            pure pid

/-- `if (fd >= 0) sys_close(fd)` -/
def closeIfOpen (fd : Int) : Sh Unit := if fd ≥ 0 then sys_close fd else pure ()

/-- `firstStdin` of `runLine` -/
def firstStdin (background : Bool) (childStdin : Int) : Int :=
  if childStdin < 0 then if background then -1 else STDIN
  else if background then -1 else childStdin

/-- `runLine` for one stage -/
def runSingle (background : Bool) (childStdin : Int) (stage : List Char) : Sh Unit := do
  let pid ← runStage stage (firstStdin background childStdin) STDOUT background
    (if childStdin ≥ 0 then [childStdin] else [])
  if pid ≥ 0 ∧ !background then do
    sys_waitpid pid
    putChar '\n'
  closeIfOpen childStdin

/-- `runLine` for two stages, from where the ends of the pipe have been closed -/
def waitStages (background : Bool) (childStdin pid1 pid2 : Int) : Sh Unit := do
  if pid2 < 0 then do
    sys_kill pid1
    if !background then sys_waitpid pid1
    closeIfOpen childStdin
  else do
    if !background then do
      sys_waitpid pid1
      sys_waitpid pid2
      putChar '\n'
    closeIfOpen childStdin

/-- `runLine` for two stages, from where the first one has been created -/
def runSecond (background : Bool) (childStdin : Int) (pipeFds : Int × Int) (pid1 : Int)
    (stage : List Char) : Sh Unit := do
  let pid2 ← runStage stage pipeFds.1 STDOUT background
    (pipeFds.2 :: if childStdin ≥ 0 then [childStdin] else [])
  sys_close pipeFds.1
  sys_close pipeFds.2
  waitStages background childStdin pid1 pid2

/-- `runLine` for two stages -/
def runPipeline (background : Bool) (childStdin : Int) (stage₁ stage₂ : List Char) : Sh Unit := do
  match ← sys_pipe with
  | none => do
      sys_write STDERR "shell: cannot create pipe\n".toList
      closeIfOpen childStdin
  | some pipeFds => do
      let stdin := firstStdin background childStdin
      let pid1 ← runStage stage₁ stdin pipeFds.2 background
        (pipeFds.1 :: if childStdin ≥ 0 ∧ childStdin ≠ stdin then [childStdin] else [])
      if pid1 < 0 then do
        sys_close pipeFds.1
        sys_close pipeFds.2
        closeIfOpen childStdin
      else runSecond background childStdin pipeFds pid1 stage₂

/-- `runLine` -/
def runLine (line : List Char) : Sh Unit :=
  let (background, line) := hasBackground line
  match splitPipeline (MAX_PIPELINE - 1) line with
  | none => sys_write STDERR "shell: solo se admite un `|` por linea\n".toList
  | some [] => pure ()
  | some [stage] => do runSingle background (← sys_reopen STDIN) stage
  | some (stage₁ :: stage₂ :: _) => do
      runPipeline background (← sys_reopen STDIN) stage₁ stage₂

/-! ## Among other processes -/

/-- The ends of the pipe of a line: the descriptors of the shell, and what they refer to. -/
structure PipeEnds where
  readFd : Int
  writeFd : Int
  readEnd : Nat
  writeEnd : Nat
deriving DecidableEq

/-- What can be seen of a line that runs: the descriptors of all processes, the pipe that
`sys_pipe` has made for the line, and the processes that have been created for its stages. -/
structure Session where
  fds : Fds
  pipe : Option PipeEnds
  stages : List Int

/-- Nothing has been done for a line yet. -/
def Session.start (s : Fds) : Session := ⟨s, none, []⟩

/-- The ends that the descriptors of the shell refer to. -/
def pipeEnds (s : Fds) (shell : Int) (pipeFds : Int × Int) : Option PipeEnds :=
  (s.getFd shell pipeFds.1).bind fun readEnd ↦ (s.getFd shell pipeFds.2).map fun writeEnd ↦
    ⟨pipeFds.1, pipeFds.2, readEnd, writeEnd⟩

/-- What a system call of the process `shell` does to the descriptors.  `sys_kill` closes those
of the process, if it is one that can be killed; `sys_waitpid` frees it, if it is there. -/
def exec (shell : Int) : (c : Call) → Session → c.Ans → Session → Prop
  | .write _ _, s, _, t | .foreground _, s, _, t => t = s
  | .reopen fd, s, r, t => ∃ room fds, s.fds.reopenFd shell fd room = some (r, fds) ∧
      t = { s with fds := fds }
  | .pipe, s, pipeFds, t => ∃ roomPipe roomRead roomWrite r fds,
      s.fds.sysPipe shell true roomPipe roomRead roomWrite = some ((r, pipeFds), fds) ∧
      t = { s with fds := fds, pipe := pipeFds.bind (pipeEnds fds shell) }
  | .createProcess _ _ overrides, s, pid, t => ∃ room fds,
      s.fds.startNewProcessWithFds (some shell) overrides room = some (pid, fds) ∧
      t = { s with fds := fds, stages := if pid < 0 then s.stages else s.stages ++ [pid] }
  | .close fd, s, _, t => ∃ r fds, s.fds.closeFd shell fd = some (r, fds) ∧
      t = { s with fds := fds }
  | .kill pid, s, _, t => t = s ∨ ∃ fds, s.fds.closeAllFDs pid = some fds ∧
      t = { s with fds := fds }
  | .waitpid pid, s, _, t => t = s ∨ ∃ fds, s.fds.removeProcess pid = some fds ∧
      t = { s with fds := fds }

/-- The process `p` refers to `a`. -/
def Holds (s : Fds) (p : Int) (a : Nat) : Prop := ∃ i, i < MAX_FDS ∧ s.slot p i = some a

/-- An event that is not the doing of the shell, and not its end.  The functions that only
others call are no events. -/
def OfOthers (shell : Int) (s : Fds) : Fds.Event → Prop
  | .closeFd p _ | .dupFd p _ _ | .reopenFd p _ _ | .sysPipe p _ _ _ _ | .closeAllFDs p
  | .remove p => p ≠ shell
  | .create (some p) _ _ => p ≠ shell ∧ s.processTable p ≠ none
  | .create none _ _ | .openFd _ _ _ | .addFd _ _ | .copyFdTable _ _ => False

/-- Nobody reopens an end of the pipe, or creates a process that inherits one. -/
def KeepsEnds (s : Session) : Fds.Event → Prop
  | .reopenFd p fd _ => ∀ e ∈ s.pipe,
      s.fds.getFd p fd ≠ some e.readEnd ∧ s.fds.getFd p fd ≠ some e.writeEnd
  | .create (some p) _ _ => ∀ e ∈ s.pipe, ¬Holds s.fds p e.readEnd ∧ ¬Holds s.fds p e.writeEnd
  | _ => True

/-- What the other processes do; if `keep`, they keep the ends of the pipe to themselves. -/
def others (shell : Int) (keep : Prop) (s t : Session) : Prop :=
  ∃ e, OfOthers shell s.fds e ∧ (keep → KeepsEnds s e) ∧
    ∃ fds, s.fds.step e = some fds ∧ t = { s with fds := fds }

end BareBones.Userland.Shell
