import BareBones.Process.FdEffects
import BareBones.Userland.Shell

/-!
# The shell loses no descriptor

Whatever its system calls answer, and whatever the other processes do meanwhile, the shell has
the descriptors it had when `runLine` returns; and if both stages of a line have been created,
the first one alone refers to the writing end of the pipe and the second one alone to the
reading end, so that the second stage reads the end of file once the first one is gone
(`runLine_restores`).

`At` says what is known between two calls: the table of the shell, the pipe, the stages, and
who refers to the ends of the pipe (`Wires`).  There is one rule for each call that the shell
makes, and what the others do keeps `At` (`At.others`).
-/

namespace BareBones.Userland.Shell

open BareBones.Lib BareBones.IPC BareBones.IPC.Heap BareBones.Process BareBones.Process.Fds

variable {shell p q pid : Int} {s t : Fds} {e : PipeEnds} {stages : List Int} {a x : Nat}
  {ev : Fds.Event}

theorem holds_of_slot {i : Nat} (hi : i < MAX_FDS) (h : s.slot p i = some a) : Holds s p a :=
  ⟨i, hi, h⟩

/-! ## What the others do -/

/-- What an event of another process changes. -/
structure Effect (shell : Int) (s : Fds) (ev : Fds.Event) (t : Fds) : Prop where
  slot : ∀ j, j < MAX_FDS → t.slot shell j = s.slot shell j
  alive : t.processTable shell = none ↔ s.processTable shell = none
  /-- A process refers to what it has referred to, to what is new, or to what it has inherited. -/
  holds : ∀ q a, Holds t q a → Holds s q a ∨ s.heap.nextFile ≤ a ∨
    ∃ cur overrides room, ev = .create (some cur) overrides room ∧ Holds s cur a
  /-- A new end belongs to a new pipe, or to that of an end that is reopened. -/
  heap : Grows (fun a pipe _ ↦ s.heap.nextFile ≤ a ∧ (pipe = some s.heap.nextPipe ∨
    ∃ p fd room b f, ev = .reopenFd p fd room ∧ s.getFd p fd = some b ∧
      s.heap.files b = some f ∧ pipe = f.pipe)) s.heap t.heap

namespace Effect

/-- A slot of another process changes. -/
theorem of_changes {new : Nat → Option Nat → UInt8 → Prop} {fd : Int} {v : Option Nat}
    (h : Changes new s t p fd v) (hp : p ≠ shell)
    (hv : ∀ a, v = some a → Holds s p a ∨ s.heap.nextFile ≤ a)
    (hnew : ∀ a pipe flags, new a pipe flags → s.heap.nextFile ≤ a ∧ ∃ p fd room b f,
      ev = .reopenFd p fd room ∧ s.getFd p fd = some b ∧ s.heap.files b = some f ∧
        pipe = f.pipe) : Effect shell s ev t where
  slot j hj := by
    rw [h.slot shell j hj, if_neg fun heq ↦ hp heq.1.symm]
  alive := h.table shell
  holds q a := by
    rintro ⟨j, hj, ha⟩
    rw [h.slot q j hj] at ha
    split at ha
    next heq =>
        rw [heq.1]
        exact (hv a ha).imp_right .inl
    · exact .inl ⟨j, hj, ha⟩
  heap := h.heap.mono fun a pipe flags hf ↦ (hnew a pipe flags hf).imp_right .inr

/-- The descriptors of another process are closed. -/
theorem of_closed (hslot : ∀ q j, j < MAX_FDS → t.slot q j = if q = p then none else s.slot q j)
    (halive : t.processTable shell = none ↔ s.processTable shell = none)
    (hheap : Keeps s.heap t.heap) (hp : p ≠ shell) : Effect shell s ev t where
  slot j hj := by
    rw [hslot shell j hj, if_neg hp.symm]
  alive := halive
  holds q a := by
    rintro ⟨j, hj, ha⟩
    rw [hslot q j hj] at ha
    split at ha
    · cases ha
    · exact .inl ⟨j, hj, ha⟩
  heap := .of_keeps hheap

/-- Nothing changes. -/
theorem refl : Effect shell s ev s :=
  ⟨fun _ _ ↦ rfl, Iff.rfl, fun _ _ h ↦ .inl h, .refl _⟩

/-- What an override or an inherited table refers to is referred to by the parent. -/
theorem inherited {overrides : List FdOverride} {j : Nat} (hj : j < MAX_FDS)
    (h : overridden (fun j ↦ if q = IDLE_PID then none else s.slot q j) overrides j = some a) :
    Holds s q a := by
  obtain ⟨i, hi, hsome⟩ := overridden_mem overrides hj h
  split at hsome
  · cases hsome
  · exact ⟨i, hi, hsome⟩

/-- Another process makes a pipe. -/
theorem sysPipe {userFds roomPipe roomRead roomWrite : Bool} {r : Int × Option (Int × Int)}
    (hp : p ≠ shell) (h : s.sysPipe p userFds roomPipe roomRead roomWrite = some (r, t)) :
    Effect shell s ev t := by
  rcases sysPipe_effect h with ⟨-, hun⟩ | ⟨i, j, -, hpiped⟩
  · refine ⟨fun k hk ↦ hun.slot shell k hk, hun.table shell, ?_, ?_⟩
    · rintro q a ⟨k, hk, ha⟩
      rw [hun.slot q k hk] at ha
      exact .inl ⟨k, hk, ha⟩
    · exact hun.heap.mono fun a pipe _ hnew ↦ ⟨hnew.1, .inl hnew.2⟩
  · refine ⟨fun k hk ↦ ?_, hpiped.table shell, ?_, ?_⟩
    · rw [hpiped.slot shell k hk, if_neg fun heq ↦ hp heq.1.symm, if_neg fun heq ↦ hp heq.1.symm]
    · rintro q a ⟨k, hk, ha⟩
      rw [hpiped.slot q k hk] at ha
      split at ha
      · exact .inr (.inl (Nat.le_of_eq (Option.some.inj ha)))
      · split at ha
        · exact .inr (.inl (Nat.le_of_succ_le (Nat.le_of_eq (Option.some.inj ha))))
        · exact .inl ⟨k, hk, ha⟩
    · refine hpiped.heap.mono fun a pipe _ hnew ↦ ⟨?_, .inl hnew.1⟩
      rcases hnew.2 with ⟨ha, -⟩ | ⟨ha, -⟩ <;> omega

/-- **What an event of another process changes.** -/
theorem of_step (hof : OfOthers shell s ev) (halive : s.processTable shell ≠ none)
    (h : s.step ev = some t) : Effect shell s ev t := by
  cases ev with
  | closeFd p fd =>
      obtain ⟨⟨r, u⟩, hu, rfl⟩ := Option.map_eq_some_iff.mp h
      refine .of_changes (closeFd_effect hu) hof ?_ ?_
      · rintro a ⟨⟩
      · exact fun _ _ _ hf ↦ hf.elim
  | dupFd p oldFd newFd =>
      obtain ⟨⟨r, u⟩, hu, rfl⟩ := Option.map_eq_some_iff.mp h
      refine .of_changes (dupFd_effect hu) hof ?_ ?_
      · intro a ha
        obtain ⟨-, hfd, hslot⟩ := getFd_eq_some ha
        exact .inl ⟨_, hfd, hslot⟩
      · exact fun _ _ _ hf ↦ hf.elim
  | reopenFd p fd room =>
      obtain ⟨⟨r, u⟩, hu, rfl⟩ := Option.map_eq_some_iff.mp h
      refine .of_changes (reopenFd_effect hu).1 hof ?_ ?_
      · rintro a ⟨⟩
        exact .inr (Nat.le_refl _)
      · rintro a pipe - ⟨rfl, b, f, hb, hf, hpipe⟩
        exact ⟨Nat.le_refl _, p, fd, room, b, f, rfl, hb, hf, hpipe⟩
  | closeAllFDs p =>
      obtain ⟨hslot, htable, hheap⟩ := closeAllFDs_effect h
      exact .of_closed hslot (htable shell) hheap hof
  | remove p =>
      obtain ⟨hslot, htable, -, hheap⟩ := removeProcess_effect h
      exact .of_closed hslot (htable shell (Ne.symm hof)) hheap hof
  | sysPipe p userFds roomPipe roomRead roomWrite =>
      obtain ⟨⟨r, u⟩, hu, rfl⟩ := Option.map_eq_some_iff.mp h
      exact .sysPipe hof hu
  | create currentProcess overrides room =>
      cases currentProcess with
      | none => exact hof.elim
      | some cur =>
          obtain ⟨⟨r, u⟩, hu, rfl⟩ := Option.map_eq_some_iff.mp h
          rcases created_effect hof.2 hu with ⟨-, rfl⟩ | hcreated
          · exact refl
          have hne : shell ≠ r := by
            rintro rfl
            exact halive hcreated.fresh
          refine ⟨fun j hj ↦ hcreated.slot shell j hj hne, ?_, ?_, .of_keeps hcreated.heap⟩
          · rw [hcreated.table shell, and_iff_right hne]
          · rintro q a ⟨j, hj, ha⟩
            by_cases hq : q = r
            · subst hq
              rw [hcreated.child j hj] at ha
              exact .inr (.inr ⟨cur, overrides, room, rfl, inherited hj ha⟩)
            · rw [hcreated.slot q j hj hq] at ha
              exact .inl ⟨j, hj, ha⟩
  | openFd p f fd => exact hof.elim
  | addFd p f => exact hof.elim
  | copyFdTable target source => exact hof.elim

end Effect

/-! ## The ends of the pipe -/

/-- Who refers to the ends of the pipe `x`, of which the shell knows the descriptors `e`. -/
structure Wires (shell : Int) (stages : List Int) (e : PipeEnds) (x : Nat) (s : Fds) : Prop where
  shellRead : ∀ j : Nat, j < MAX_FDS → s.slot shell j = some e.readEnd → j = e.readFd
  shellWrite : ∀ j : Nat, j < MAX_FDS → s.slot shell j = some e.writeEnd → j = e.writeFd
  /-- Apart from the shell, the first stage has the writing end and the second stage the
  reading end. -/
  write : ∀ q, q ≠ shell → Holds s q e.writeEnd → stages[0]? = some q
  read : ∀ q, q ≠ shell → Holds s q e.readEnd → stages[1]? = some q
  /-- The pipe has no other ends. -/
  file : ∀ a f, s.heap.files a = some f → f.pipe = some x →
    a = e.readEnd ∧ f.flags = FILE_READ ∨ a = e.writeEnd ∧ f.flags = FILE_WRITE
  readEnd : ∀ f, s.heap.files e.readEnd = some f → f.pipe = some x
  readFile : e.readEnd < s.heap.nextFile
  writeFile : e.writeEnd < s.heap.nextFile
  keyboard : e.writeEnd ≠ keyboardBuffer
  pipe : x < s.heap.nextPipe

namespace Wires

/-- No end of the pipe is made, and only the right processes have got one. -/
theorem frame {new : Nat → Option Nat → UInt8 → Prop} {stages' : List Int}
    (h : Wires shell stages e x s)
    (hshell : ∀ j, j < MAX_FDS → t.slot shell j = s.slot shell j ∨ t.slot shell j = none)
    (hwrite : ∀ q, q ≠ shell → Holds t q e.writeEnd → stages'[0]? = some q)
    (hread : ∀ q, q ≠ shell → Holds t q e.readEnd → stages'[1]? = some q)
    (hheap : Grows new s.heap t.heap)
    (hnew : ∀ a pipe flags, new a pipe flags → s.heap.nextFile ≤ a ∧ pipe ≠ some x) :
    Wires shell stages' e x t where
  shellRead j hj hsome := by
    rcases hshell j hj with heq | hnone
    · exact h.shellRead j hj (heq ▸ hsome)
    · cases hnone.symm.trans hsome
  shellWrite j hj hsome := by
    rcases hshell j hj with heq | hnone
    · exact h.shellWrite j hj (heq ▸ hsome)
    · cases hnone.symm.trans hsome
  write := hwrite
  read := hread
  file a f' hf' hx := by
    rcases hheap.file a f' hf' with ⟨f, hf, hpipe, hflags⟩ | hmade
    · exact hflags ▸ h.file a f hf (hpipe.trans hx)
    · exact absurd hx (hnew _ _ _ hmade).2
  readEnd f' hf' := by
    rcases hheap.file _ f' hf' with ⟨f, hf, hpipe, -⟩ | hmade
    · exact hpipe ▸ h.readEnd f hf
    · exact absurd (hnew _ _ _ hmade).1 (Nat.not_le.mpr h.readFile)
  readFile := Nat.lt_of_lt_of_le h.readFile hheap.nextFile
  writeFile := Nat.lt_of_lt_of_le h.writeFile hheap.nextFile
  keyboard := h.keyboard
  pipe := Nat.lt_of_lt_of_le h.pipe hheap.nextPipe

/-- Somebody else does something, and keeps the ends. -/
theorem others {u : Session} (h : Wires shell stages e x u.fds) (he : u.pipe = some e)
    (heffect : Effect shell u.fds ev t) (hkeep : KeepsEnds u ev) :
    Wires shell stages e x t := by
  have hholds : ∀ q a, a < u.fds.heap.nextFile → (∀ cur overrides room,
      ev = .create (some cur) overrides room → ¬Holds u.fds cur a) → Holds t q a →
      Holds u.fds q a := by
    intro q a hold hcreate hqa
    rcases heffect.holds q a hqa with hqa | hnew | ⟨cur, overrides, room, hev, hcur⟩
    · exact hqa
    · exact absurd hnew (Nat.not_le.mpr hold)
    · exact absurd hcur (hcreate cur overrides room hev)
  refine h.frame (fun j hj ↦ .inl (heffect.slot j hj)) (fun q hq hqa ↦ h.write q hq ?_)
    (fun q hq hqa ↦ h.read q hq ?_) heffect.heap ?_
  · refine hholds q _ h.writeFile ?_ hqa
    rintro cur overrides room rfl
    exact (hkeep e he).2
  · refine hholds q _ h.readFile ?_ hqa
    rintro cur overrides room rfl
    exact (hkeep e he).1
  · rintro a pipe - ⟨hnew, rfl | ⟨p, fd, room, b, f, rfl, hb, hf, rfl⟩⟩
    · exact ⟨hnew, fun heq ↦ Nat.ne_of_gt h.pipe (Option.some.inj heq)⟩
    · refine ⟨hnew, fun hx ↦ ?_⟩
      obtain ⟨hread, hwrite⟩ := hkeep e he
      rcases h.file b f hf hx with ⟨rfl, -⟩ | ⟨rfl, -⟩
      · exact hread hb
      · exact hwrite hb

/-- A stage is created, with overrides that leave it the right end. -/
theorem created {overrides : List FdOverride} (h : Wires shell stages e x s)
    (hcreated : Created s t shell pid overrides) (halive : s.processTable shell ≠ none)
    (hread : ∀ j, j < MAX_FDS → overridden (s.slot shell) overrides j = some e.readEnd →
      stages.length = 1)
    (hwrite : ∀ j, j < MAX_FDS → overridden (s.slot shell) overrides j = some e.writeEnd →
      stages.length = 0) :
    Wires shell (stages ++ [pid]) e x t := by
  have hne : shell ≠ pid := by
    rintro rfl
    exact halive hcreated.fresh
  -- a child of the idle process inherits nothing
  have hchild : ∀ j b, j < MAX_FDS → t.slot pid j = some b →
      overridden (s.slot shell) overrides j = some b := by
    intro j b hj hsome
    rw [hcreated.child j hj] at hsome
    by_cases hidle : shell = IDLE_PID
    · simp only [if_pos hidle] at hsome
      obtain ⟨i, -, hi⟩ := overridden_mem overrides hj hsome
      cases hi
    · simpa only [if_neg hidle] using hsome
  have hholds : ∀ q b, Holds t q b → Holds s q b ∨
      q = pid ∧ ∃ j, j < MAX_FDS ∧ overridden (s.slot shell) overrides j = some b := by
    rintro q b ⟨j, hj, hb⟩
    by_cases hq : q = pid
    · subst hq
      exact .inr ⟨rfl, j, hj, hchild j b hj hb⟩
    · rw [hcreated.slot q j hj hq] at hb
      exact .inl ⟨j, hj, hb⟩
  have hstage : ∀ {n : Nat} {q : Int}, stages[n]? = some q → (stages ++ [pid])[n]? = some q := by
    intro n q hn
    obtain ⟨hlt, -⟩ := List.getElem?_eq_some_iff.mp hn
    rwa [List.getElem?_append_left hlt]
  have hself : ∀ {n : Nat}, stages.length = n → (stages ++ [pid])[n]? = some pid := by
    rintro n rfl
    exact List.getElem?_concat_length
  refine h.frame (fun j hj ↦ .inl (hcreated.slot shell j hj hne)) (fun q hq hqa ↦ ?_)
    (fun q hq hqa ↦ ?_) hcreated.heap fun _ _ _ hmade ↦ hmade.elim
  · rcases hholds q _ hqa with hqa | ⟨rfl, j, hj, hsome⟩
    · exact hstage (h.write q hq hqa)
    · exact hself (hwrite j hj hsome)
  · rcases hholds q _ hqa with hqa | ⟨rfl, j, hj, hsome⟩
    · exact hstage (h.read q hq hqa)
    · exact hself (hread j hj hsome)

/-- The wires of a pipe that has just been made. -/
theorem piped {i j : Nat} (hinv : Inv s ∅ ∅) (h : Piped s t shell i j) :
    Wires shell [] ⟨i, j, s.heap.nextFile, s.heap.nextFile + 1⟩ s.heap.nextPipe t := by
  have hold : ∀ q k b, k < MAX_FDS → s.slot q k = some b → b < s.heap.nextFile := by
    intro q k b hk hb
    obtain ⟨f, hf⟩ := hinv.slot_live hk hb
    by_contra hge
    cases (hinv.heap.nextFile b (Nat.le_of_not_lt hge)).symm.trans hf
  have hend : ∀ q k b, k < MAX_FDS → t.slot q k = some b → s.heap.nextFile ≤ b →
      q = shell ∧ (k = i ∧ b = s.heap.nextFile ∨ k = j ∧ b = s.heap.nextFile + 1) := by
    intro q k b hk hb hle
    rw [h.slot q k hk] at hb
    split at hb
    next heq => exact ⟨heq.1, .inl ⟨heq.2, (Option.some.inj hb).symm⟩⟩
    · split at hb
      next heq => exact ⟨heq.1, .inr ⟨heq.2, (Option.some.inj hb).symm⟩⟩
      · exact absurd hle (Nat.not_le.mpr (hold q k b hk hb))
  have hmade : ∀ a f', t.heap.files a = some f' → s.heap.nextFile ≤ a ∨
      f'.pipe = some s.heap.nextPipe → NewEnds s.heap a f'.pipe f'.flags := by
    intro a f' hf' hnew
    rcases h.heap.file a f' hf' with ⟨f, hf, hpipe, -⟩ | hmade
    · exfalso
      rcases hnew with hle | hx
      · cases (hinv.heap.nextFile a hle).symm.trans hf
      · obtain ⟨x, c, hx', hc⟩ := hinv.heap.pipe_live hf
        obtain rfl := Option.some.inj (hx'.symm.trans (hpipe.trans hx))
        cases (hinv.heap.nextPipe _ (Nat.le_refl _)).symm.trans hc
    · exact hmade
  have hkeyboard : keyboardBuffer < s.heap.nextFile := by
    by_contra hge
    have hnone := hinv.heap.nextFile _ (Nat.le_of_not_lt hge)
    have hrefs := (hinv.exact.freed _).mp hnone
    rw [refs, if_pos rfl] at hrefs
    exact Nat.succ_ne_zero _ hrefs
  refine {
    shellRead := fun k hk hsome ↦ ?_
    shellWrite := fun k hk hsome ↦ ?_
    write := fun q hq hqa ↦ ?_
    read := fun q hq hqa ↦ ?_
    file := fun a f' hf' hx ↦ ?_
    readEnd := fun f' hf' ↦ ?_
    readFile := Nat.lt_of_succ_lt h.nextFile
    writeFile := h.nextFile
    keyboard := ?_
    pipe := h.nextPipe }
  · rcases (hend _ k _ hk hsome (Nat.le_refl _)).2 with ⟨rfl, -⟩ | ⟨-, heq⟩
    · rfl
    · exact absurd heq (Nat.succ_ne_self _).symm
  · rcases (hend _ k _ hk hsome (Nat.le_succ _)).2 with ⟨-, heq⟩ | ⟨rfl, -⟩
    · exact absurd heq (Nat.succ_ne_self _)
    · rfl
  · obtain ⟨k, hk, hsome⟩ := hqa
    exact absurd (hend q k _ hk hsome (Nat.le_succ _)).1 hq
  · obtain ⟨k, hk, hsome⟩ := hqa
    exact absurd (hend q k _ hk hsome (Nat.le_refl _)).1 hq
  · exact (hmade a f' hf' (.inr hx)).2
  · exact (hmade _ f' hf' (.inl (Nat.le_refl _))).1
  · exact Nat.ne_of_gt (Nat.lt_succ_of_lt hkeyboard)

end Wires

/-- **The stages of a line have the ends of its pipe**, and nobody else has.  Once the first
one has let go of the writing end, the second one reads the end of file: the pipe it reads from
has no writer. -/
structure Wired (s : Fds) (e : PipeEnds) (pid1 pid2 : Int) : Prop where
  write : ∀ q, Holds s q e.writeEnd → q = pid1
  read : ∀ q, Holds s q e.readEnd → q = pid2
  eof : ¬Holds s pid1 e.writeEnd → ∀ f x c, s.heap.files e.readEnd = some f →
    f.pipe = some x → s.heap.pipes x = some c → c.writerCount = 0

/-- The shell has closed its ends. -/
theorem Wires.wired {pid1 pid2 : Int} (h : Wires shell [pid1, pid2] e x s) (hinv : Inv s ∅ ∅)
    (hread : s.getFd shell e.readFd = none) (hwrite : s.getFd shell e.writeFd = none) :
    Wired s e pid1 pid2 := by
  have hshell : ∀ fd b, s.getFd shell fd = none →
      (∀ j : Nat, j < MAX_FDS → s.slot shell j = some b → j = fd) → ¬Holds s shell b := by
    rintro fd b hnone honly ⟨j, hj, hb⟩
    rw [← honly j hj hb, getFd_eq hj, hb] at hnone
    cases hnone
  have hwriter : ∀ q, Holds s q e.writeEnd → q = pid1 := by
    intro q hq
    have hne : q ≠ shell := by
      rintro rfl
      exact hshell _ _ hwrite h.shellWrite hq
    exact (Option.some.inj (h.write q hne hq)).symm
  refine ⟨hwriter, fun q hq ↦ ?_, fun hgone f y c hf hy hc ↦ ?_⟩
  · have hne : q ≠ shell := by
      rintro rfl
      exact hshell _ _ hread h.shellRead hq
    exact (Option.some.inj (h.read q hne hq)).symm
  · -- nobody refers to the writing end, so it has been freed
    obtain rfl := Option.some.inj (hy.symm.trans (h.readEnd f hf))
    have hrefs : s.refs e.writeEnd = 0 := by
      rw [refs, if_neg h.keyboard, Nat.add_zero, count_eq_zero]
      rintro ⟨q, j⟩ hq hsome
      have hholds := holds_of_slot (mem_descriptors.mp hq).2 hsome
      exact hgone (hwriter q hholds ▸ hholds)
    have hfreed := (hinv.exact.freed _).mpr hrefs
    have hwriters : s.heap.writers y = 0 := by
      rw [Heap.writers, count_eq_zero]
      rintro b - ⟨hpipe, hwrites⟩
      obtain ⟨g, hg, hgy⟩ := Option.bind_eq_some_iff.mp hpipe
      rcases h.file b g hg hgy with ⟨rfl, hflags⟩ | ⟨rfl, -⟩
      · rw [Heap.writes, hg, Option.any_some, FileAccess.writes, hflags] at hwrites
        exact absurd hwrites (by decide)
      · cases hfreed.symm.trans hg
    rw [(hinv.exact.pipe y c hc).2, hwriters]
    rfl

/-! ## Between two calls -/

/-- The table `T` with `v` at the descriptor `fd`. -/
def put (T : Nat → Option Nat) (fd : Int) (v : Option Nat) (j : Nat) : Option Nat :=
  if (j : Int) = fd then v else T j

/-- What is known between two calls of the shell.  Who refers to the ends of the pipe is known
if the others keep them. -/
structure At (shell : Int) (keep : Prop) (T : Nat → Option Nat) (pipe : Option PipeEnds)
    (stages : List Int) (s : Session) : Prop where
  inv : Inv s.fds ∅ ∅
  alive : s.fds.processTable shell ≠ none
  slot : ∀ j, j < MAX_FDS → s.fds.slot shell j = T j
  pipe_eq : s.pipe = pipe
  stages_eq : s.stages = stages
  ne : ∀ p ∈ stages, p ≠ shell
  wires : keep → ∀ e, pipe = some e → ∃ x, Wires shell stages e x s.fds

/-- If both stages have been created and the shell has closed its ends of the pipe, the
stages have them. -/
def Good (shell : Int) (keep : Prop) (s : Session) : Prop :=
  keep → ∀ e pid1 pid2, s.pipe = some e → s.stages = [pid1, pid2] →
    s.fds.getFd shell e.readFd = none → s.fds.getFd shell e.writeFd = none →
    Wired s.fds e pid1 pid2

namespace At

variable {keep : Prop} {T T' : Nat → Option Nat} {pipe : Option PipeEnds} {u v : Session}

theorem congr (h : At shell keep T pipe stages u) (hT : ∀ j, j < MAX_FDS → T j = T' j) :
    At shell keep T' pipe stages u :=
  { h with slot := fun j hj ↦ (h.slot j hj).trans (hT j hj) }

theorem good (h : At shell keep T pipe stages u) : Good shell keep u := by
  intro hkeep e pid1 pid2 he hstages hread hwrite
  obtain ⟨x, hwires⟩ := h.wires hkeep e (h.pipe_eq.symm.trans he)
  rw [← h.stages_eq, hstages] at hwires
  exact hwires.wired h.inv hread hwrite

/-- **What the others do keeps what is known.** -/
theorem others (h : At shell keep T pipe stages u) (hothers : others shell keep u v) :
    At shell keep T pipe stages v := by
  obtain ⟨ev, hof, hkeeps, fds, hstep, rfl⟩ := hothers
  have heffect : Effect shell u.fds ev fds := .of_step hof h.alive hstep
  have hpasses : ev.Passes u.fds := by
    cases ev with
    | openFd p f fd => exact hof.elim
    | addFd p f => exact hof.elim
    | _ => trivial
  obtain ⟨fds', hstep', hinv⟩ := h.inv.step hpasses
  obtain rfl := Option.some.inj (hstep'.symm.trans hstep)
  refine ⟨hinv, fun hnone ↦ h.alive (heffect.alive.mp hnone), fun j hj ↦ ?_, h.pipe_eq, h.stages_eq,
    h.ne, fun hkeep e he ↦ ?_⟩
  · exact (heffect.slot j hj).trans (h.slot j hj)
  · obtain ⟨x, hwires⟩ := h.wires hkeep e he
    exact ⟨x, hwires.others (h.pipe_eq.trans he) heffect (hkeeps hkeep)⟩

end At

/-! ## One rule for each call -/

section

variable {keep : Prop} {α : Type} {T : Nat → Option Nat} {pipe : Option PipeEnds} {u : Session}
  {Q : α → Session → Prop}

/-- The shell runs `f` from the state `u`, and `Q` holds when it has returned. -/
abbrev Runs (shell : Int) (keep : Prop) (Q : α → Session → Prop) (f : Sh α) (u : Session) : Prop :=
  f.Safe (exec shell) (others shell keep) (Good shell keep) Q u

theorem call_runs {c : Call} {next : c.Ans → Sh α} (hu : At shell keep T pipe stages u)
    (hgo : ∀ v, At shell keep T pipe stages v → ∃ r w, exec shell c v r w)
    (hnext : ∀ v r w, At shell keep T pipe stages v → exec shell c v r w →
      Runs shell keep Q (next r) w) : Runs shell keep Q (.call c next) u :=
  .call (fun _ _ ↦ At.others) (fun v hv ↦ ⟨hv.good, hgo v hv, fun r w ↦ hnext v r w hv⟩) hu

/-- The shell returns. -/
theorem pure_runs {r : α} (hu : At shell keep T pipe stages u)
    (hQ : ∀ v, At shell keep T pipe stages v → Q r v) : Runs shell keep Q (pure r) u :=
  .pure (fun _ _ ↦ At.others) (fun v hv ↦ ⟨hv.good, hQ v hv⟩) hu

/-- A call that changes no descriptor. -/
theorem silent_runs {c : Call} {next : c.Ans → Sh α} (hu : At shell keep T pipe stages u)
    (hgo : ∀ v, ∃ r, exec shell c v r v) (hsame : ∀ v r w, exec shell c v r w → w = v)
    (hnext : ∀ r v, At shell keep T pipe stages v → Runs shell keep Q (next r) v) :
    Runs shell keep Q (.call c next) u := by
  refine call_runs hu (fun v _ ↦ ?_) fun v r w hv hw ↦ ?_
  · obtain ⟨r, hr⟩ := hgo v
    exact ⟨r, v, hr⟩
  · exact hsame v r w hw ▸ hnext r v hv

theorem write_runs {fd : Int} {text : List Char} {next : Unit → Sh α}
    (hu : At shell keep T pipe stages u)
    (hnext : ∀ v, At shell keep T pipe stages v → Runs shell keep Q (next ()) v) :
    Runs shell keep Q (.call (.write fd text) next) u :=
  silent_runs hu (fun _ ↦ ⟨(), rfl⟩) (fun _ _ _ h ↦ h) fun _ ↦ hnext

theorem foreground_runs {next : Unit → Sh α} (hu : At shell keep T pipe stages u)
    (hnext : ∀ v, At shell keep T pipe stages v → Runs shell keep Q (next ()) v) :
    Runs shell keep Q (.call (.foreground pid) next) u :=
  silent_runs hu (fun _ ↦ ⟨(), rfl⟩) (fun _ _ _ h ↦ h) fun _ ↦ hnext

/-- A call that does at most what the others may do as well. -/
theorem removal_runs {c : Call} {next : c.Ans → Sh α} (ev : Fds.Event)
    (hu : At shell keep T pipe stages u) (hgo : ∀ v, ∃ r, exec shell c v r v)
    (hof : ∀ v : Session, OfOthers shell v.fds ev ∧ KeepsEnds v ev)
    (hexec : ∀ v r w, exec shell c v r w → w = v ∨ ∃ fds, v.fds.step ev = some fds ∧
      w = { v with fds := fds })
    (hnext : ∀ r v, At shell keep T pipe stages v → Runs shell keep Q (next r) v) :
    Runs shell keep Q (.call c next) u := by
  refine call_runs hu (fun v _ ↦ ?_) fun v r w hv hw ↦ hnext r w ?_
  · obtain ⟨r, hr⟩ := hgo v
    exact ⟨r, v, hr⟩
  · rcases hexec v r w hw with rfl | hstep
    · exact hv
    · exact hv.others ⟨ev, (hof v).1, fun _ ↦ (hof v).2, hstep⟩

theorem kill_runs {next : Unit → Sh α} (hu : At shell keep T pipe stages u) (hpid : pid ∈ stages)
    (hnext : ∀ v, At shell keep T pipe stages v → Runs shell keep Q (next ()) v) :
    Runs shell keep Q (.call (.kill pid) next) u :=
  removal_runs (.closeAllFDs pid) hu (fun _ ↦ ⟨(), .inl rfl⟩) (fun _ ↦ ⟨hu.ne pid hpid, trivial⟩)
    (fun _ _ _ h ↦ h) fun _ ↦ hnext

theorem waitpid_runs {next : Unit → Sh α} (hu : At shell keep T pipe stages u) (hpid : pid ∈ stages)
    (hnext : ∀ v, At shell keep T pipe stages v → Runs shell keep Q (next ()) v) :
    Runs shell keep Q (.call (.waitpid pid) next) u :=
  removal_runs (.remove pid) hu (fun _ ↦ ⟨(), .inl rfl⟩) (fun _ ↦ ⟨hu.ne pid hpid, trivial⟩)
    (fun _ _ _ h ↦ h) fun _ ↦ hnext

/-- The shell closes a descriptor. -/
theorem close_runs {fd : Int} {next : Unit → Sh α} (hu : At shell keep T pipe stages u)
    (hnext : ∀ v, At shell keep (put T fd none) pipe stages v → Runs shell keep Q (next ()) v) :
    Runs shell keep Q (.call (.close fd) next) u := by
  refine call_runs hu (fun v hv ↦ ?_) ?_
  · obtain ⟨r, fds, hclose, -⟩ := hv.inv.closeFd shell fd
    exact ⟨(), _, r, fds, hclose, rfl⟩
  · rintro v ⟨⟩ w hv ⟨r, fds, hclose, rfl⟩
    have hsets := closeFd_effect hclose
    obtain ⟨r', fds', hclose', hinv, -⟩ := hv.inv.closeFd shell fd
    obtain ⟨-, rfl⟩ := Prod.mk.inj (Option.some.inj (hclose'.symm.trans hclose))
    have hslot : ∀ j, j < MAX_FDS → fds'.slot shell j = put T fd none j := by
      intro j hj
      rw [hsets.slot shell j hj, put, hv.slot j hj]
      simp only [true_and]
    have hother : ∀ q b, q ≠ shell → Holds fds' q b → Holds v.fds q b := by
      rintro q b hq ⟨j, hj, hb⟩
      rw [hsets.slot q j hj, if_neg fun heq ↦ hq heq.1] at hb
      exact ⟨j, hj, hb⟩
    refine hnext _ ⟨hinv, fun hnone ↦ hv.alive ((hsets.table shell).mp hnone), hslot, hv.pipe_eq,
      hv.stages_eq, hv.ne, fun hkeep e he ↦ ?_⟩
    obtain ⟨x, hwires⟩ := hv.wires hkeep e he
    refine ⟨x, hwires.frame (fun j hj ↦ ?_) (fun q hq hqa ↦ hwires.write q hq (hother q _ hq hqa))
      (fun q hq hqa ↦ hwires.read q hq (hother q _ hq hqa)) hsets.heap fun _ _ _ hf ↦ hf.elim⟩
    rw [hsets.slot shell j hj]
    split
    · exact .inr rfl
    · exact .inl rfl

/-- The shell reopens a descriptor, before it makes a pipe. -/
theorem reopen_runs {fd : Int} {next : Int → Sh α} (hu : At shell keep T none stages u)
    (hfail : ∀ r v, r < 0 → At shell keep T none stages v → Runs shell keep Q (next r) v)
    (hnext : ∀ (i : Nat) a v, i < MAX_FDS → T i = none →
      At shell keep (put T i (some a)) none stages v → Runs shell keep Q (next i) v) :
    Runs shell keep Q (.call (.reopen fd) next) u := by
  refine call_runs hu (fun v hv ↦ ?_) ?_
  · obtain ⟨r, fds, hreopen, -⟩ := hv.inv.reopenFd shell fd true
    exact ⟨r, _, true, fds, hreopen, rfl⟩
  · rintro v (r : Int) w hv ⟨room, fds, hreopen, rfl⟩
    obtain ⟨hchanges, hfree⟩ := reopenFd_effect hreopen
    obtain ⟨r', fds', hreopen', hinv⟩ := hv.inv.reopenFd shell fd room
    obtain ⟨-, rfl⟩ := Prod.mk.inj (Option.some.inj (hreopen'.symm.trans hreopen))
    have hat : At shell keep (put T r (some v.fds.heap.nextFile)) none stages
        { v with fds := fds' } := by
      refine ⟨hinv, fun hnone ↦ hv.alive ((hchanges.table shell).mp hnone), fun j hj ↦ ?_,
        hv.pipe_eq, hv.stages_eq, hv.ne, fun _ e he ↦ (by cases he)⟩
      rw [hchanges.slot shell j hj, put, hv.slot j hj]
      simp only [true_and]
    by_cases hr : 0 ≤ r
    · obtain ⟨i, hi, rfl, hnone⟩ := hfree hr
      exact hnext i _ _ hi ((hv.slot i hi).symm.trans hnone) hat
    · refine hfail r _ (by omega) (hat.congr fun j _ ↦ if_neg ?_)
      omega

/-- The shell makes the pipe. -/
theorem pipe_runs {next : Option (Int × Int) → Sh α} (hu : At shell keep T none [] u)
    (hfail : ∀ v, At shell keep T none [] v → Runs shell keep Q (next none) v)
    (hnext : ∀ (i j : Nat) a b v, i < MAX_FDS → j < MAX_FDS → i ≠ j → T i = none → T j = none →
      At shell keep (put (put T j (some b)) i (some a)) (some ⟨i, j, a, b⟩) [] v →
      Runs shell keep Q (next (some (i, j))) v) :
    Runs shell keep Q (.call .pipe next) u := by
  refine call_runs hu (fun v hv ↦ ?_) ?_
  · obtain ⟨⟨r, pipeFds⟩, fds, hpipe, -⟩ := hv.inv.sysPipe shell true true true true
    exact ⟨pipeFds, _, true, true, true, r, fds, hpipe, rfl⟩
  · rintro v pipeFds w hv ⟨roomPipe, roomRead, roomWrite, r, fds, hpipe, rfl⟩
    obtain ⟨r', fds', hpipe', hinv⟩ := hv.inv.sysPipe shell true roomPipe roomRead roomWrite
    obtain ⟨-, rfl⟩ := Prod.mk.inj (Option.some.inj (hpipe'.symm.trans hpipe))
    rcases sysPipe_effect hpipe with ⟨rfl, hun⟩ | ⟨i, j, rfl, hpiped⟩
    · refine hfail _ ⟨hinv, fun hnone ↦ hv.alive ((hun.table shell).mp hnone), fun j hj ↦ ?_, rfl,
        hv.stages_eq, hv.ne, fun _ e he ↦ (by cases he)⟩
      exact (hun.slot shell j hj).trans (hv.slot j hj)
    · have hslot : ∀ k, k < MAX_FDS → fds'.slot shell k =
          put (put T j (some (v.fds.heap.nextFile + 1))) i (some v.fds.heap.nextFile) k := by
        intro k hk
        rw [hpiped.slot shell k hk, put, put, hv.slot k hk]
        simp only [true_and, Int.natCast_inj]
      have hends : pipeEnds fds' shell ((i : Int), (j : Int)) =
          some ⟨i, j, v.fds.heap.nextFile, v.fds.heap.nextFile + 1⟩ := by
        rw [pipeEnds, getFd_eq hpiped.read.1, getFd_eq hpiped.write.1, hslot i hpiped.read.1,
          hslot j hpiped.write.1]
        simp only [put, Int.natCast_inj, if_neg hpiped.ne.symm, if_true, Option.bind_some,
          Option.map_some]
      refine hnext i j _ _ _ hpiped.read.1 hpiped.write.1 hpiped.ne
        ((hv.slot i hpiped.read.1).symm.trans hpiped.read.2)
        ((hv.slot j hpiped.write.1).symm.trans hpiped.write.2)
        ⟨hinv, fun hnone ↦ hv.alive ((hpiped.table shell).mp hnone), hslot, hends, hv.stages_eq,
          hv.ne, fun _ e he ↦ ?_⟩
      obtain rfl := Option.some.inj he
      exact ⟨_, .piped hv.inv hpiped⟩

/-- The shell creates a process for a stage, with overrides that leave it the right end. -/
theorem createProcess_runs {cmdIdx : Nat} {argv : List (List Char)} {overrides : List FdOverride}
    {next : Int → Sh α} (hu : At shell keep T pipe stages u)
    (hends : keep → ∀ e, pipe = some e → ∀ j, j < MAX_FDS →
      (overridden T overrides j = some e.readEnd → stages.length = 1) ∧
      (overridden T overrides j = some e.writeEnd → stages.length = 0))
    (hfail : ∀ r v, r < 0 → At shell keep T pipe stages v → Runs shell keep Q (next r) v)
    (hnext : ∀ r v, 0 ≤ r → At shell keep T pipe (stages ++ [r]) v →
      Runs shell keep Q (next r) v) :
    Runs shell keep Q (.call (.createProcess cmdIdx argv overrides) next) u := by
  refine call_runs hu (fun v hv ↦ ?_) ?_
  · obtain ⟨r, fds, hcreate, -⟩ := hv.inv.startNewProcessWithFds (some shell) overrides true
    exact ⟨r, _, true, fds, hcreate, rfl⟩
  · rintro v (r : Int) w hv ⟨room, fds, hcreate, rfl⟩
    obtain ⟨r', fds', hcreate', hinv⟩ :=
      hv.inv.startNewProcessWithFds (some shell) overrides room
    obtain ⟨-, rfl⟩ := Prod.mk.inj (Option.some.inj (hcreate'.symm.trans hcreate))
    rcases created_effect hv.alive hcreate with ⟨hneg, rfl⟩ | hcreated
    · rw [if_pos hneg]
      exact hfail r _ hneg hv
    · have hr : 0 ≤ r := by
        have hvalid := hcreated.valid
        rw [invalidPID] at hvalid
        omega
      have hne : shell ≠ r := by
        rintro rfl
        exact hv.alive hcreated.fresh
      have hT : ∀ j, j < MAX_FDS →
          overridden (v.fds.slot shell) overrides j = overridden T overrides j :=
        overridden_congr overrides hv.slot
      rw [if_neg (Int.not_lt.mpr hr)]
      refine hnext r _ hr ⟨hinv, fun hnone ↦ hv.alive ((hcreated.table shell).mp hnone).2,
        fun j hj ↦ (hcreated.slot shell j hj hne).trans (hv.slot j hj), hv.pipe_eq,
        congrArg (· ++ [r]) hv.stages_eq, ?_, fun hkeep e he ↦ ?_⟩
      · intro p hp
        rcases List.mem_append.mp hp with hp | hp
        · exact hv.ne p hp
        · exact List.mem_singleton.mp hp ▸ hne.symm
      · obtain ⟨x, hwires⟩ := hv.wires hkeep e he
        refine ⟨x, hwires.created hcreated hv.alive (fun j hj hsome ↦ ?_) fun j hj hsome ↦ ?_⟩
        · exact (hends hkeep e he j hj).1 (hT j hj ▸ hsome)
        · exact (hends hkeep e he j hj).2 (hT j hj ▸ hsome)

/-! ## A stage -/

/-- `runStage` creates a process, or it fails and nothing is left of it. -/
theorem runStage_runs {stageStr : List Char} {stdinFd stdoutFd : Int} {background : Bool}
    {closeFds : List Int} (hu : At shell keep T pipe stages u)
    (hends : keep → ∀ e, pipe = some e → ∀ j, j < MAX_FDS →
      (overridden T (overrides stdinFd stdoutFd closeFds) j = some e.readEnd → stages.length = 1) ∧
      (overridden T (overrides stdinFd stdoutFd closeFds) j = some e.writeEnd →
        stages.length = 0)) :
    Runs shell keep (fun pid v ↦ pid < 0 ∧ At shell keep T pipe stages v ∨
      0 ≤ pid ∧ At shell keep T pipe (stages ++ [pid]) v)
      (runStage stageStr stdinFd stdoutFd background closeFds) u := by
  have hfail : ∀ v, At shell keep T pipe stages v → Runs shell keep (fun pid v ↦
      pid < 0 ∧ At shell keep T pipe stages v ∨ 0 ≤ pid ∧ At shell keep T pipe (stages ++ [pid]) v)
      (pure (-1)) v := fun v hv ↦ pure_runs hv fun w hw ↦ .inl ⟨by decide, hw⟩
  unfold runStage
  split
  · exact hfail u hu
  · split
    · refine write_runs hu fun v hv ↦ ?_
      refine write_runs hv fun v hv ↦ ?_
      exact write_runs hv hfail
    · refine createProcess_runs hu hends (fun r v hr hv ↦ ?_) fun r v hr hv ↦ ?_
      · simp only [Prog.pure_bind, if_pos hr]
        exact write_runs hv hfail
      · have hdone : ∀ v, At shell keep T pipe (stages ++ [r]) v → Runs shell keep (fun pid v ↦
            pid < 0 ∧ At shell keep T pipe stages v ∨
              0 ≤ pid ∧ At shell keep T pipe (stages ++ [pid]) v) (pure r) v :=
          fun v hv ↦ pure_runs hv fun w hw ↦ .inr ⟨hr, hw⟩
        simp only [Prog.pure_bind, if_neg (Int.not_lt.mpr hr)]
        split
        · exact foreground_runs hv hdone
        · exact hdone v hv

/-! ## A line -/

/-- The shell has the descriptors `T₀` again, and has closed its ends of the pipe. -/
def Restored (shell : Int) (T₀ : Nat → Option Nat) (v : Session) : Prop :=
  (∀ j, j < MAX_FDS → v.fds.slot shell j = T₀ j) ∧
    ∀ e, v.pipe = some e → v.fds.getFd shell e.readFd = none ∧ v.fds.getFd shell e.writeFd = none

/-- The descriptors of the pipe are free in `T₀`. -/
def Spare (T₀ : Nat → Option Nat) (pipe : Option PipeEnds) : Prop :=
  ∀ e, pipe = some e → ∃ i j : Nat, i < MAX_FDS ∧ j < MAX_FDS ∧ e.readFd = i ∧ e.writeFd = j ∧
    T₀ i = none ∧ T₀ j = none

theorem At.restored (h : At shell keep T pipe stages u) (hspare : Spare T pipe) :
    Restored shell T u := by
  refine ⟨h.slot, fun e he ↦ ?_⟩
  obtain ⟨i, j, hi, hj, hread, hwrite, hi', hj'⟩ := hspare e (h.pipe_eq.symm.trans he)
  constructor
  · rw [hread, getFd_eq hi, h.slot i hi, hi']
  · rw [hwrite, getFd_eq hj, h.slot j hj, hj']

/-- The table `T` is `T₀` with what has been reopened as `fd`, if that is a descriptor. -/
structure Reopened (T₀ T : Nat → Option Nat) (fd : Int) : Prop where
  std : fd < 0 ∨ 3 ≤ fd
  close : ∀ j, j < MAX_FDS → put T fd none j = T₀ j
  used : ∀ i : Nat, T i = none → (i : Int) ≠ fd

namespace Reopened

variable {T₀ : Nat → Option Nat} {childStdin : Int} {i : Nat}

/-- `sys_reopen` has failed. -/
theorem of_neg (h : childStdin < 0) : Reopened T T childStdin where
  std := .inl h
  close j _ := if_neg (by omega)
  used i _ := by omega

/-- `sys_reopen` has found a free descriptor. -/
theorem of_slot {a : Nat} (hstd : ∀ j, j < 3 → T j ≠ none) (hi : T i = none) :
    Reopened T (put T i (some a)) i where
  std := by
    have hle : 3 ≤ i := Nat.le_of_not_lt fun hlt ↦ hstd i hlt hi
    omega
  close j _ := by
    unfold put
    split
    next heq => rw [Int.natCast_inj.mp heq, hi]
    · rfl
  used k hk := by
    unfold put at hk
    split at hk
    · cases hk
    · assumption

/-- What is free now has been free before. -/
theorem free (h : Reopened T₀ T childStdin) (hi : i < MAX_FDS) (hnone : T i = none) :
    T₀ i = none := by
  rw [← h.close i hi, put, if_neg (h.used i hnone), hnone]

theorem three_le (h : Reopened T₀ T childStdin) (hstd : ∀ j, j < 3 → T₀ j ≠ none)
    (hi : i < MAX_FDS) (hnone : T i = none) : 3 ≤ i :=
  Nat.le_of_not_lt fun hlt ↦ hstd i hlt (h.free hi hnone)

end Reopened

variable {T₀ : Nat → Option Nat} {childStdin : Int} {background : Bool}

/-- At last, the shell closes what it has reopened. -/
theorem closeIfOpen_runs (hu : At shell keep T pipe stages u) (hT : Reopened T₀ T childStdin)
    (hspare : Spare T₀ pipe) :
    Runs shell keep (fun _ v ↦ Restored shell T₀ v) (closeIfOpen childStdin) u := by
  have hdone : ∀ v, At shell keep (put T childStdin none) pipe stages v →
      Runs shell keep (fun _ v ↦ Restored shell T₀ v) (pure ()) v :=
    fun v hv ↦ pure_runs hv fun w hw ↦ (hw.congr hT.close).restored hspare
  unfold closeIfOpen
  split
  · exact close_runs hu hdone
  next hneg => exact hdone u (hu.congr fun j _ ↦ (if_neg (by omega)).symm)

theorem runSingle_runs {stage : List Char} (hu : At shell keep T none stages u)
    (hT : Reopened T₀ T childStdin) :
    Runs shell keep (fun _ v ↦ Restored shell T₀ v) (runSingle background childStdin stage) u := by
  have hclose : ∀ {stages : List Int} v, At shell keep T none stages v → Runs shell keep
      (fun _ v ↦ Restored shell T₀ v) (closeIfOpen childStdin) v :=
    fun v hv ↦ closeIfOpen_runs hv hT fun e he ↦ (by cases he)
  refine .bind (runStage_runs hu fun _ e he ↦ (by cases he)) ?_
  rintro pid v (⟨hneg, hv⟩ | ⟨hpid, hv⟩)
  · rw [if_neg fun h ↦ Int.not_lt.mpr h.1 hneg]
    exact hclose v hv
  · split
    · refine waitpid_runs hv (List.mem_append_right _ List.mem_cons_self) fun v hv ↦ ?_
      exact write_runs hv hclose
    · exact hclose v hv

/-! ## Two stages -/

/-- The shell waits for both stages, or gets rid of the first one. -/
theorem waitStages_runs {pid1 pid2 : Int} (hu : At shell keep T pipe stages u)
    (hT : Reopened T₀ T childStdin) (hspare : Spare T₀ pipe) (hpid1 : pid1 ∈ stages)
    (hpid2 : 0 ≤ pid2 → pid2 ∈ stages) :
    Runs shell keep (fun _ v ↦ Restored shell T₀ v)
      (waitStages background childStdin pid1 pid2) u := by
  have hclose : ∀ v, At shell keep T pipe stages v → Runs shell keep
      (fun _ v ↦ Restored shell T₀ v) (closeIfOpen childStdin) v :=
    fun v hv ↦ closeIfOpen_runs hv hT hspare
  unfold waitStages
  split
  · refine kill_runs hu hpid1 fun v hv ↦ ?_
    dsimp only [Prog.pure_bind]
    split
    · exact waitpid_runs hv hpid1 hclose
    · exact hclose v hv
  next hpid =>
      split
      · refine waitpid_runs hu hpid1 fun v hv ↦ ?_
        refine waitpid_runs hv (hpid2 (Int.not_lt.mp hpid)) fun v hv ↦ ?_
        exact write_runs hv hclose
      · exact hclose u hu

theorem overrides_target {stdinFd stdoutFd : Int} {closeFds : List Int} {o : FdOverride}
    (ho : o ∈ overrides stdinFd stdoutFd closeFds) :
    o.targetFd = -1 ∨ o.targetFd = stdinFd ∨ o.targetFd = stdoutFd := by
  unfold overrides at ho
  rw [List.mem_append, List.mem_append, List.mem_map] at ho
  rcases ho with (ho | ho) | ⟨fd, -, rfl⟩
  · split at ho
    · exact .inl (List.mem_singleton.mp ho ▸ rfl)
    · split at ho
      · exact .inr (.inl (List.mem_singleton.mp ho ▸ rfl))
      · cases ho
  · split at ho
    · exact .inr (.inr (List.mem_singleton.mp ho ▸ rfl))
    · cases ho
  · exact .inl rfl

/-- An end is kept from a stage whose overrides close its descriptor and never duplicate it. -/
theorem overrides_avoid {stdinFd stdoutFd : Int} {closeFds : List Int} {i b : Nat}
    (hT : ∀ j : Nat, j < MAX_FDS → T j = some b → (j : Int) = i) (hstdin : stdinFd ≠ i)
    (hstdout : stdoutFd ≠ i) (hclose : (i : Int) ∈ closeFds) :
    ∀ j, j < MAX_FDS → overridden T (overrides stdinFd stdoutFd closeFds) j ≠ some b := by
  refine overridden_avoids _ hT (fun o ho ↦ ?_) ⟨⟨i, -1⟩, ?_, rfl⟩
  · rcases overrides_target ho with h | h | h
    · omega
    · exact h ▸ hstdin
    · exact h ▸ hstdout
  · exact List.mem_append_right _ (List.mem_map.mpr ⟨_, hclose, rfl⟩)

theorem firstStdin_ne {i : Nat} (hi : 3 ≤ i) (hne : (i : Int) ≠ childStdin) :
    firstStdin background childStdin ≠ i := by
  unfold firstStdin STDIN
  split <;> split <;> omega

/-- The descriptors of the shell while its pipe is open. -/
structure Piping (T₀ T : Nat → Option Nat) (childStdin : Int) (i j : Nat) : Prop where
  reopened : Reopened T₀ T childStdin
  read : i < MAX_FDS ∧ T i = none ∧ 3 ≤ i
  write : j < MAX_FDS ∧ T j = none ∧ 3 ≤ j
  ne : i ≠ j

namespace Piping

variable {i j a b : Nat}

theorem spare (h : Piping T₀ T childStdin i j) : Spare T₀ (some ⟨i, j, a, b⟩) := by
  intro e he
  obtain rfl := Option.some.inj he
  exact ⟨i, j, h.read.1, h.write.1, rfl, rfl, h.reopened.free h.read.1 h.read.2.1,
    h.reopened.free h.write.1 h.write.2.1⟩

/-- The shell closes its ends. -/
theorem close_runs {f : Sh Unit} {Q : Unit → Session → Prop} (h : Piping T₀ T childStdin i j)
    (hu : At shell keep (put (put T j (some b)) i (some a)) pipe stages u)
    (hnext : ∀ v, At shell keep T pipe stages v → Runs shell keep Q f v) :
    Runs shell keep Q (.call (.close i) fun _ ↦ .call (.close j) fun _ ↦ f) u := by
  refine Shell.close_runs hu fun v hv ↦ Shell.close_runs hv fun v hv ↦ ?_
  refine hnext v (hv.congr fun k _ ↦ ?_)
  unfold put
  have hread := h.read.2.1
  have hwrite := h.write.2.1
  split
  next heq => rw [Int.natCast_inj.mp heq, hwrite]
  · split
    next heq => rw [Int.natCast_inj.mp heq, hread]
    · rfl

theorem second_runs {pid1 : Int} {stage : List Char} (h : Piping T₀ T childStdin i j)
    (hu : At shell keep (put (put T j (some b)) i (some a)) (some ⟨i, j, a, b⟩) [pid1] u) :
    Runs shell keep (fun _ v ↦ Restored shell T₀ v)
      (runSecond background childStdin (i, j) pid1 stage) u := by
  have hclose : ∀ {stages : List Int} v, At shell keep T (some ⟨i, j, a, b⟩) stages v →
      Runs shell keep (fun _ v ↦ Restored shell T₀ v) (closeIfOpen childStdin) v :=
    fun v hv ↦ closeIfOpen_runs hv h.reopened h.spare
  refine .bind (runStage_runs hu fun hkeep e he k hk ↦ ⟨fun _ ↦ rfl, fun hsome ↦ ?_⟩) ?_
  · obtain rfl := Option.some.inj he
    obtain ⟨x, hwires⟩ := hu.wires hkeep _ rfl
    refine absurd hsome (overrides_avoid (fun l hl hb ↦ ?_) ?_ ?_ List.mem_cons_self k hk)
    · exact hwires.shellWrite l hl ((hu.slot l hl).trans hb)
    · exact fun heq ↦ h.ne (Int.natCast_inj.mp heq)
    · have hle := h.write.2.2
      unfold STDOUT
      omega
  · rintro pid2 v (⟨hneg, hv⟩ | ⟨hpid, hv⟩)
    · exact h.close_runs hv fun v hv ↦ waitStages_runs hv h.reopened h.spare
        List.mem_cons_self fun hpid ↦ absurd hneg (Int.not_lt.mpr hpid)
    · exact h.close_runs hv fun v hv ↦ waitStages_runs hv h.reopened h.spare
        List.mem_cons_self fun _ ↦ List.mem_append_right _ List.mem_cons_self

end Piping

theorem runPipeline_runs {stage₁ stage₂ : List Char} (hu : At shell keep T none [] u)
    (hT : Reopened T₀ T childStdin) (hstd : ∀ j, j < 3 → T₀ j ≠ none) :
    Runs shell keep (fun _ v ↦ Restored shell T₀ v)
      (runPipeline background childStdin stage₁ stage₂) u := by
  refine pipe_runs hu (fun v hv ↦ ?_) fun i j a b v hi hj hne hi' hj' hv ↦ ?_
  · exact write_runs hv fun v hv ↦ closeIfOpen_runs hv hT fun e he ↦ (by cases he)
  · have hpiping : Piping T₀ T childStdin i j :=
      ⟨hT, ⟨hi, hi', hT.three_le hstd hi hi'⟩, ⟨hj, hj', hT.three_le hstd hj hj'⟩, hne⟩
    dsimp only [Prog.pure_bind]
    refine .bind (runStage_runs hv fun hkeep e he k hk ↦ ⟨fun hsome ↦ ?_, fun _ ↦ rfl⟩) ?_
    · obtain rfl := Option.some.inj he
      obtain ⟨x, hwires⟩ := hv.wires hkeep _ rfl
      refine absurd hsome (overrides_avoid (fun l hl ha ↦ ?_) ?_ ?_ List.mem_cons_self k hk)
      · exact hwires.shellRead l hl ((hv.slot l hl).trans ha)
      · exact firstStdin_ne hpiping.read.2.2 (hT.used i hi')
      · exact fun heq ↦ hne (Int.natCast_inj.mp heq).symm
    · rintro pid1 v (⟨hneg, hv⟩ | ⟨hpid, hv⟩)
      · rw [if_pos hneg]
        exact hpiping.close_runs hv fun v hv ↦ closeIfOpen_runs hv hT hpiping.spare
      · rw [if_neg (Int.not_lt.mpr hpid)]
        exact hpiping.second_runs hv

/-- **`runLine` restores the descriptors of the shell.** -/
theorem runLine_runs (hu : At shell keep T none [] u) (hstd : ∀ j, j < 3 → T j ≠ none)
    (line : List Char) : Runs shell keep (fun _ v ↦ Restored shell T v) (runLine line) u := by
  have hspare : Spare T none := fun e he ↦ (by cases he)
  have hdone : ∀ v, At shell keep T none [] v →
      Runs shell keep (fun _ v ↦ Restored shell T v) (pure ()) v :=
    fun v hv ↦ pure_runs hv fun w hw ↦ hw.restored hspare
  have hreopen : ∀ next : Int → Sh Unit, (∀ T' c v, Reopened T T' c →
      At shell keep T' none [] v → Runs shell keep (fun _ v ↦ Restored shell T v) (next c) v) →
      Runs shell keep (fun _ v ↦ Restored shell T v) (.call (.reopen STDIN) next) u :=
    fun next hnext ↦ reopen_runs hu (fun r v hr hv ↦ hnext T r v (.of_neg hr) hv)
      fun i a v _ hi hv ↦ hnext _ i v (.of_slot hstd hi) hv
  unfold runLine
  dsimp only
  split
  · exact write_runs hu hdone
  · exact hdone u hu
  · exact hreopen _ fun T' c v hT hv ↦ runSingle_runs hv hT
  · exact hreopen _ fun T' c v hT hv ↦ runPipeline_runs hv hT hstd

end

/-! ## Alone -/

/-- What a system call does if the heap has room, nobody else runs, and the processes that the
shell waits for have gone. -/
def alone (shell : Int) : (c : Call) → Session → Option (c.Ans × Session)
  | .write _ _, s | .foreground _, s => some ((), s)
  | .reopen fd, s => (s.fds.reopenFd shell fd true).map fun x ↦ (x.1, { s with fds := x.2 })
  | .pipe, s => (s.fds.sysPipe shell true true true true).map fun x ↦
      (x.1.2, { s with fds := x.2, pipe := x.1.2.bind (pipeEnds x.2 shell) })
  | .createProcess _ _ overrides, s =>
      (s.fds.startNewProcessWithFds (some shell) overrides true).map fun (x : Int × Fds) ↦
        (x.1, { s with fds := x.2, stages := if x.1 < 0 then s.stages else s.stages ++ [x.1] })
  | .close fd, s => (s.fds.closeFd shell fd).map fun x ↦ ((), { s with fds := x.2 })
  | .kill pid, s => (s.fds.closeAllFDs pid).map fun fds ↦ ((), { s with fds := fds })
  | .waitpid pid, s => (s.fds.removeProcess pid).map fun fds ↦ ((), { s with fds := fds })

theorem exec_of_alone {c : Call} {u v : Session} {r : c.Ans}
    (h : alone shell c u = some (r, v)) : exec shell c u r v := by
  cases c with
  | write fd text => exact (congrArg Prod.snd (Option.some.inj h)).symm
  | foreground pid => exact (congrArg Prod.snd (Option.some.inj h)).symm
  | reopen fd =>
      obtain ⟨x, hx, heq⟩ := Option.map_eq_some_iff.mp h
      obtain ⟨rfl, rfl⟩ := Prod.mk.inj heq
      exact ⟨true, _, hx, rfl⟩
  | pipe =>
      obtain ⟨x, hx, heq⟩ := Option.map_eq_some_iff.mp h
      obtain ⟨rfl, rfl⟩ := Prod.mk.inj heq
      exact ⟨true, true, true, _, _, hx, rfl⟩
  | createProcess cmdIdx argv overrides =>
      obtain ⟨x, hx, heq⟩ := Option.map_eq_some_iff.mp h
      obtain ⟨rfl, rfl⟩ := Prod.mk.inj heq
      exact ⟨true, _, hx, rfl⟩
  | close fd =>
      obtain ⟨x, hx, heq⟩ := Option.map_eq_some_iff.mp h
      obtain ⟨-, rfl⟩ := Prod.mk.inj heq
      exact ⟨x.1, x.2, hx, rfl⟩
  | kill pid =>
      obtain ⟨fds, hfds, heq⟩ := Option.map_eq_some_iff.mp h
      exact .inr ⟨fds, hfds, (Prod.mk.inj heq).2.symm⟩
  | waitpid pid =>
      obtain ⟨fds, hfds, heq⟩ := Option.map_eq_some_iff.mp h
      exact .inr ⟨fds, hfds, (Prod.mk.inj heq).2.symm⟩

/-- Run a function of the shell. -/
def runAlone {α : Type} (shell : Int) : Sh α → Session → Option (α × Session)
  | .pure r, s => some (r, s)
  | .call c next, s => (alone shell c s).bind fun x ↦ runAlone shell (next x.1) x.2

theorem steps_of_runAlone {α : Type} {keep : Prop} {f : Sh α} : ∀ {u v : Session} {r : α},
    runAlone shell f u = some (r, v) →
    Relation.ReflTransGen (Prog.Step (exec shell) (others shell keep)) (f, u) (.pure r, v) := by
  induction f with
  | pure r =>
      intro u v r h
      obtain ⟨rfl, rfl⟩ := Prod.mk.inj (Option.some.inj h)
      exact .refl
  | call c next ih =>
      intro u v r h
      obtain ⟨⟨r', w⟩, hw, h⟩ := Option.bind_eq_some_iff.mp h
      exact .head (.call (exec_of_alone hw)) (ih r' h)

/-! ## The result -/

/-- **The shell loses no descriptor, and its pipelines end.**  From any state in which the
standard descriptors of the shell are open, whatever the system calls answer and whatever the
other processes do, `runLine` can always go on, and when it returns, the table of the shell is
what it was before.  As long as the other processes neither reopen an end of the pipe nor
create a process that inherits one, the ends of a pipe with both stages created are where they
belong from when the shell has closed its own, and at the latest when it returns. -/
theorem runLine_restores {s₀ : Fds}
    (hs₀ : Reach Fds.step (fun s e ↦ e.Passes s) Fds.init s₀)
    (hopen : ∀ fd, fd = STDIN ∨ fd = STDOUT ∨ fd = STDERR → s₀.isOpenFd shell fd = true)
    (line : List Char) :
    (∀ f t, Relation.ReflTransGen (Prog.Step (exec shell) (others shell False))
        (runLine line, .start s₀) (f, t) →
      (∀ c next, f = .call c next → ∃ r u, exec shell c t r u) ∧
        (f = .pure () → ∀ j, j < MAX_FDS → t.fds.slot shell j = s₀.slot shell j)) ∧
      ∀ f t, Relation.ReflTransGen (Prog.Step (exec shell) (others shell True))
          (runLine line, .start s₀) (f, t) →
        ∀ e pid1 pid2, t.pipe = some e → t.stages = [pid1, pid2] →
          (t.fds.getFd shell e.readFd = none ∧ t.fds.getFd shell e.writeFd = none) ∨
            f = .pure () → Wired t.fds e pid1 pid2 := by
  have hinv : Inv s₀ ∅ ∅ := .of_reach hs₀
  have hstd : ∀ j, j < 3 → s₀.slot shell j ≠ none := by
    intro j hj hnone
    have hfd : (j : Int) = STDIN ∨ (j : Int) = STDOUT ∨ (j : Int) = STDERR := by
      unfold STDIN STDOUT STDERR
      omega
    have hlt : j < MAX_FDS := Nat.lt_trans hj (by decide)
    have hsome := hopen j hfd
    rw [isOpenFd, getFd_eq hlt, hnone] at hsome
    cases hsome
  have halive : s₀.processTable shell ≠ none := fun hnone ↦
    hstd 0 (by decide) (slot_of_none hnone)
  have hstart : ∀ keep, At shell keep (s₀.slot shell) none [] (.start s₀) := fun keep ↦
    ⟨hinv, halive, fun _ _ ↦ rfl, rfl, rfl, fun p hp ↦ (by cases hp), fun _ e he ↦ (by cases he)⟩
  refine ⟨fun f t hrun ↦ ⟨?_, ?_⟩, fun f t hrun e pid1 pid2 he hstages hclosed ↦ ?_⟩
  · rintro c next rfl
    exact ((runLine_runs (hstart _) hstd line).steps hrun).goesOn
  · rintro rfl
    exact ((runLine_runs (hstart _) hstd line).steps hrun).returned.1
  · have hruns := (runLine_runs (hstart _) hstd line).steps hrun
    have hends : t.fds.getFd shell e.readFd = none ∧ t.fds.getFd shell e.writeFd = none := by
      rcases hclosed with hclosed | rfl
      · exact hclosed
      · exact hruns.returned.2 e he
    exact hruns.invariant trivial e pid1 pid2 he hstages hends.1 hends.2

/-- The first process is the shell.  It runs two stages in the background: the first one, with
no input, refers twice to the writing end. -/
theorem runLine_restores_cat : ∃ (s₀ : Fds) (t : Session),
    Relation.ReflTransGen (Prog.Step (exec 2) (others 2 True))
      (runLine "cat | wc &".toList, .start s₀) (.pure (), t) ∧
      (t.pipe = some ⟨4, 5, 3, 4⟩ ∧ t.stages = [3, 4] ∧ t.fds.slot 3 1 = some 4 ∧
        t.fds.slot 4 0 = some 3) ∧
      Wired t.fds ⟨4, 5, 3, 4⟩ 3 4 ∧
      ∀ j, j < MAX_FDS → t.fds.slot 2 j = s₀.slot 2 j := by
  let es : List Fds.Event := [.create (some 1) [] true, .dupFd 2 0 1, .dupFd 2 0 2]
  have hobs : ((run Fds.step Fds.init es).bind fun s₀ ↦
      (runAlone 2 (runLine "cat | wc &".toList) (.start s₀)).map fun x ↦
        decide ((∀ fd ∈ [STDIN, STDOUT, STDERR], s₀.isOpenFd 2 fd = true) ∧
          x.2.pipe = some ⟨4, 5, 3, 4⟩ ∧ x.2.stages = [3, 4] ∧ x.2.fds.slot 3 1 = some 4 ∧
          x.2.fds.slot 4 0 = some 3)) = some true := by
    decide +kernel
  have hguard : Guarded Fds.step (fun s e ↦ e.Passes s) Fds.init es := by
    decide +kernel
  obtain ⟨s₀, hs₀, hobs⟩ := Option.bind_eq_some_iff.mp hobs
  obtain ⟨⟨⟨⟩, t⟩, ht, hobs⟩ := Option.map_eq_some_iff.mp hobs
  obtain ⟨hopen, hpipe, hstages, hwriter, hreader⟩ := of_decide_eq_true hobs
  have hstd : ∀ fd, fd = STDIN ∨ fd = STDOUT ∨ fd = STDERR → s₀.isOpenFd 2 fd = true :=
    fun fd hfd ↦ hopen fd (by simpa using hfd)
  have hmain := runLine_restores (.of_run hs₀ hguard) hstd "cat | wc &".toList
  exact ⟨s₀, t, steps_of_runAlone ht, ⟨hpipe, hstages, hwriter, hreader⟩,
    hmain.2 _ t (steps_of_runAlone ht) _ 3 4 hpipe hstages (.inr rfl),
    (hmain.1 _ t (steps_of_runAlone ht)).2 rfl⟩

end BareBones.Userland.Shell
