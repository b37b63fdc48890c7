import BareBones.IPC.PipeReaders
import BareBones.IPC.ReadFd

/-!
# One reader behind a descriptor

A program that reads its standard input calls `readFd` with a buffer of one size until a call
returns nothing.  One call is one or more reads of the pipe, since a read that has brought only
NULs is done again.  So a run of the program is a run of the pipe (`Follows.reach`), and what its
calls have returned is a function of what the reads of the pipe have returned (`fdReads`).

The descriptor blocks, and nobody requests the end of the file on it.  The heap is asked for a
node as in `Sys.stepOn`.

**Key results.**

* `follows_reach`: what the calls return, in every run.
* `Follows.chunks`: the calls return chunks that are not empty, a beginning of what was written
  without its NULs; or all of it in such chunks, and then nothing.
-/

namespace BareBones.IPC.FdReader

open BareBones.Lib BareBones.Process BareBones.Semaphores

/-- What the calls of `readFd` have returned. -/
def reads (x : FdReader) : List (List UInt8) := x.returned.map (·.bytes)

theorem reads_returns (x : FdReader) (count : Nat) (result : Int) (bytes : List UInt8) :
    (x.returns count result bytes).reads = x.reads ++ [bytes] := List.map_append

/-- What the calls of `readFd` return when the reads of the pipe return `reads`. -/
def fdReads (reads : List (List UInt8)) : List (List UInt8) :=
  reads.filterMap fun bytes ↦
    if bytes = [] then some [] else if strip bytes = [] then none else some (strip bytes)

theorem fdReads_append (reads reads' : List (List UInt8)) :
    fdReads (reads ++ reads') = fdReads reads ++ fdReads reads' := List.filterMap_append

theorem fdReads_nil : fdReads [[]] = [[]] := rfl

/-- A read of NULs is not returned. -/
theorem fdReads_nuls {bytes : List UInt8} (hne : bytes ≠ []) (hstrip : strip bytes = []) :
    fdReads [bytes] = [] := by
  simp [fdReads, hne, hstrip]

/-- Any other one is, without its NULs. -/
theorem fdReads_data {bytes : List UInt8} (hstrip : strip bytes ≠ []) :
    fdReads [bytes] = [strip bytes] := by
  have hne : bytes ≠ [] := by
    rintro rfl
    exact hstrip rfl
  simp [fdReads, hne, hstrip]

/-- Chunks that are not empty stay so, and make up the same text without its NULs. -/
theorem fdReads_chunks {cs : List (List UInt8)} (hcs : ∀ x ∈ cs, x ≠ []) :
    (∀ x ∈ fdReads cs, x ≠ []) ∧ (fdReads cs).flatten = strip cs.flatten := by
  induction cs with
  | nil => exact ⟨fun _ hx ↦ absurd hx List.not_mem_nil, rfl⟩
  | cons bytes cs ih =>
      obtain ⟨hne, hflat⟩ := ih fun x hx ↦ hcs x (List.mem_cons_of_mem bytes hx)
      have hbytes := hcs bytes List.mem_cons_self
      rw [show bytes :: cs = [bytes] ++ cs from rfl, fdReads_append, List.flatten_append,
        List.flatten_append, strip_append, hflat]
      by_cases hstrip : strip bytes = []
      · rw [fdReads_nuls hbytes hstrip]
        refine ⟨hne, ?_⟩
        rw [show [bytes].flatten = bytes from List.append_nil _, hstrip]
        rfl
      · rw [fdReads_data hstrip]
        refine ⟨fun x hx ↦ ?_, ?_⟩
        · rcases List.mem_append.1 hx with hx | hx
          · rwa [List.mem_singleton.1 hx]
          · exact hne x hx
        · rw [show [bytes].flatten = bytes from List.append_nil _,
            show [strip bytes].flatten = strip bytes from List.append_nil _]

/-- One event, and what `mem_alloc` answers if the event blocks a process. -/
def stepOn (reader : Int) (x : FdReader) (z : Event × Bool) : Option FdReader :=
  step reader (x.setSys (x.sys.withNodes z.2)) z.1

/-- The process `r` reads with `readFd`, `count` bytes at a time, and is not killed; all calls
block, nobody is killed inside the pipe, and nobody requests the end of the file. -/
def OneReader (r : Int) (count : Nat) (x : FdReader) : Event → Prop
  | .pipe (.sys (.kill pid)) => pid ≠ r ∧ (Sys.Event.kill pid).KillsOutside x.sys
  | .pipe (.sys _) => True
  | .readFd n => n = count
  | .pipe (.read _) | .pipe (.write _) | .requestEof | .closeFd => False

instance (r : Int) (count : Nat) (x : FdReader) : (e : Event) → Decidable (OneReader r count x e)
  | .pipe (.sys (.kill _)) => inferInstanceAs (Decidable (_ ∧ _))
  | .readFd _ => inferInstanceAs (Decidable (_ = _))
  | .pipe (.sys (.dispatch _)) | .pipe (.sys (.read _)) | .pipe (.sys (.write _))
  | .pipe (.sys .resume) | .pipe (.sys (.create _)) | .pipe (.sys .reopen)
  | .pipe (.sys (.close _)) | .pipe (.sys (.reap _)) => isTrue trivial
  | .pipe (.read _) | .pipe (.write _) | .requestEof | .closeFd => isFalse not_false

/-! ## One read of the pipe -/

section Read

variable {strict : Prop} {s t : Sys} {woken : Bool} {count : Nat}

/-- A read that has found data leaves its caller running. -/
theorem drained_current (hinv : s.Inv strict) (hrun : s.Running) (count : Nat) :
    (s.drained count).procs.currentPID = s.procs.currentPID := by
  obtain ⟨u, hinv', -, hframe, -, -, heq⟩ := hinv.drained hrun count
  rw [heq]
  split
  · exact (Sys.post_currentPID u hinv'.good _).trans hframe.current
  · exact hframe.current

/-- A read waits, and has returned nothing yet, or it returns to its caller. -/
theorem readOutcome_result (hinv : s.Inv strict) (hrun : s.Running)
    (hout : Sys.ReadOutcome woken s count t) :
    (t.inUser = false ∧ t.results = s.results) ∨
      (t.inUser = true ∧ t.procs.currentPID = s.procs.currentPID ∧
        ∃ bytes, t.results = s.results ++ [⟨s.procs.currentPID, count, bytes⟩]) := by
  cases hout with
  | eof _ _ => exact .inr ⟨Sys.inUser_iff.2 hrun, rfl, [], rfl⟩
  | taken _ _ hpos =>
      have htake := hinv.take (x := .dataAvailable) (by decide) hpos
      obtain ⟨-, hrun', -, hresults, -⟩ := htake.drained_result hrun count
      exact .inr ⟨Sys.inUser_iff.2 hrun', drained_current htake hrun count, _, hresults⟩
  | granted _ _ =>
      obtain ⟨-, hrun', -, hresults, -⟩ := hinv.drained_result hrun count
      exact .inr ⟨Sys.inUser_iff.2 hrun', drained_current hinv hrun count, _, hresults⟩
  | block _ _ =>
      refine .inl ⟨?_, rfl⟩
      by_contra huser
      have hrun' : (s.procs.set s.procs.currentPID ⟨.BLOCKED, .readData count⟩).table
          s.procs.currentPID = some ⟨.RUNNING, .user⟩ :=
        Sys.inUser_iff.1 (Bool.eq_true_of_not_eq_false huser)
      cases (Procs.set_self _ _ _).symm.trans hrun'

end Read

/-! ## The run of the pipe -/

variable {data : Nat → UInt8} {creator r : Int} {count : Nat} {x y : FdReader} {s : Sys}

/-- **The run of the program is a run of the pipe**, and its calls return what the reads of the
pipe return, as `fdReads` says. -/
structure Follows (data : Nat → UInt8) (creator r : Int) (count : Nat) (x : FdReader) : Prop where
  reach : Reach Sys.step (Sys.OneReader r count) (Sys.init data creator) x.sys
  modes : ∀ pid, x.pipe.nonblocking pid = false
  fd : x.fd = some FILE_READ
  eofRequest : x.eofRequest = false
  returned : x.reads = fdReads (x.sys.readsOf r)

namespace Follows

/-- One more event of the pipe, without a result of the reader. -/
theorem extend (h : Follows data creator r count x) {e : Sys.Event}
    (hok : Sys.OneReader r count x.sys e) (hs : Sys.step x.sys e = some s)
    (hresults : s.results = x.sys.results) {f : Int → Bool} (hf : ∀ pid, f pid = false) :
    Follows data creator r count { x with pipe := ⟨s, f⟩ } where
  reach := h.reach.tail hok hs
  modes := hf
  fd := h.fd
  eofRequest := h.eofRequest
  returned := by
    have hreads : s.readsOf r = x.sys.readsOf r := by
      rw [Sys.readsOf, Sys.readsOf, hresults]
    change x.reads = fdReads (s.readsOf r)
    rw [hreads]
    exact h.returned

/-- **One round of `readFd`**: the read of the pipe, and what `readFd` makes of it. -/
theorem round (h : Follows data creator r count x) {e : Sys.Event}
    (hok : Sys.OneReader r count x.sys e) (hs : Sys.step x.sys e = some s)
    (hresult : (s.inUser = false ∧ s.results = x.sys.results) ∨ (s.inUser = true ∧
      s.procs.currentPID = r ∧ ∃ bytes, s.results = x.sys.results ++ [⟨r, count, bytes⟩]))
    {f : Int → Bool} (hf : ∀ pid, f pid = false) {loop : FdReader → Option FdReader}
    (hloop : ∀ u, Follows data creator r count u → u.sys.inUser = true →
      u.sys.procs.currentPID = r → loop u = some y → Follows data creator r count y)
    (hy : afterFileRead loop count ({ x with pipe := ⟨s, f⟩ }, blockingResult s) = some y) :
    Follows data creator r count y := by
  rcases hresult with ⟨hwaits, hresults⟩ | ⟨huser, hcurrent, bytes, hresults⟩
  · have hnone : blockingResult s = none := if_neg (by rw [hwaits]; simp)
    rw [hnone] at hy
    cases hy
    exact h.extend hok hs hresults hf
  · have hread : readBytes s = bytes := readBytes_concat hresults
    have hsome : blockingResult s = some ((bytes.length : Int), bytes) := by
      rw [← hread]
      exact if_pos huser
    have hreads : s.readsOf r = x.sys.readsOf r ++ [bytes] := by
      rw [Sys.readsOf, Sys.readsOf, hresults, List.filter_append, List.map_append]
      simp
    -- what a call returns goes behind what the others have returned
    have hreturns : ∀ (result : Int) (bytes' : List UInt8), fdReads [bytes] = [bytes'] →
        Follows data creator r count
          (({ x with pipe := ⟨s, f⟩ } : FdReader).returns count result bytes') := by
      intro result bytes' hone
      refine ⟨h.reach.tail hok hs, hf, h.fd, h.eofRequest, ?_⟩
      change (({ x with pipe := ⟨s, f⟩ } : FdReader).returns count result bytes').reads =
        fdReads (s.readsOf r)
      rw [hreads, fdReads_append, hone, reads_returns, ← h.returned]
      rfl
    rw [hsome] at hy
    by_cases hnil : bytes = []
    · subst hnil
      cases hy
      exact hreturns 0 [] fdReads_nil
    · have hpos : ¬(bytes.length : Int) ≤ 0 := by
        have := List.length_pos_iff.2 hnil
        omega
      obtain ⟨hout, htake⟩ := compact_eq bytes
      simp only [afterFileRead, if_neg hpos, Int.toNat_natCast] at hy
      by_cases hstrip : strip bytes = []
      · rw [hstrip] at hout
        simp only [hout, List.length_nil, gt_iff_lt, lt_irrefl, if_false] at hy
        rw [if_neg (by rw [h.eofRequest]; simp)] at hy
        refine hloop ({ x with pipe := ⟨s, f⟩ } : FdReader)
          ⟨h.reach.tail hok hs, hf, h.fd, h.eofRequest, ?_⟩ huser hcurrent hy
        change x.reads = fdReads (s.readsOf r)
        rw [hreads, fdReads_append, fdReads_nuls hnil hstrip, List.append_nil, h.returned]
      · have hlt : (compact bytes.length 0 0 bytes).2 > 0 := by
          rw [hout]
          exact List.length_pos_iff.2 hstrip
        rw [if_pos hlt, htake] at hy
        cases hy
        exact hreturns _ _ (fdReads_data hstrip)

/-- A blocking read through the descriptor is a read of the pipe. -/
theorem fileRead_eq (h : Follows data creator r count x) (n : Nat) :
    x.fileRead n = (Sys.pipeRead x.sys n).map fun s ↦
      ({ x with pipe := ⟨s, (x.pipe.setMode false).nonblocking⟩ }, blockingResult s) := by
  have hreadable : ¬(!isReadable x.fd) = true := by
    rw [h.fd]
    decide
  have hblocking : ¬isNonblocking x.fd = true := by
    rw [h.fd]
    decide
  rw [fileRead, if_neg hreadable, if_neg hblocking]
  rfl

/-- Its caller reads in blocking mode, as all do. -/
theorem setMode (h : Follows data creator r count x) (pid : Int) :
    (x.pipe.setMode false).nonblocking pid = false := by
  change Function.update x.pipe.nonblocking x.sys.procs.currentPID false pid = false
  rw [Function.update_apply]
  split
  · rfl
  · exact h.modes pid

section Valid

variable (hvalid : ¬invalidPID creator) (hidle : creator ≠ IDLE_PID)

include hvalid hidle

theorem readerInv (h : Follows data creator r count x) : Sys.ReaderInv r count x.sys :=
  Sys.readerInv_reach hvalid hidle h.reach

/-- An event that is no read returns nothing. -/
theorem results_eq (h : Follows data creator r count x) (hcount : 0 < count) {e : Sys.Event}
    (hnoRead : e.NoRead x.sys) (hs : Sys.step x.sys e = some s) : s.results = x.sys.results := by
  have hreader := h.readerInv hvalid hidle
  have hflow : x.sys.Flow x.sys.results := by
    refine ⟨rfl, hreader.delivery.stream.bytes, fun pid pr hpr n hn ↦ ?_⟩
    rw [(hreader.reader.asks pid pr hpr n hn).2]
    exact hcount
  exact (hflow.step hreader.delivery.inv hnoRead hs).results

/-- **The loop of `readFd`**, by induction on the rounds it may still take. -/
theorem readLoop (h : Follows data creator r count x) (hcount : 0 < count) (fuel : Nat)
    (huser : x.sys.inUser = true) (hcurrent : x.sys.procs.currentPID = r)
    (hy : FdReader.readLoop count fuel x = some y) : Follows data creator r count y := by
  induction fuel generalizing x with
  | zero => cases hy
  | succ fuel ih =>
      have hinv := (h.readerInv hvalid hidle).delivery.inv
      have hrun := Sys.inUser_iff.1 huser
      obtain ⟨hzero, -⟩ | ⟨-, s, hs, hout⟩ := Sys.pipeRead_outcome hinv.good hrun count
      · exact absurd hzero hcount.ne'
      have hstep : Sys.step x.sys (.read count) = some s := (if_pos huser).trans hs
      have hok : Sys.OneReader r count x.sys (.read count) := by
        refine ⟨trivial, fun n hn ↦ ?_⟩
        cases hn
        exact ⟨hcurrent, rfl⟩
      rw [FdReader.readLoop, h.fileRead_eq, hs] at hy
      have hresult := readOutcome_result hinv hrun hout
      rw [hcurrent] at hresult
      exact h.round hok hstep hresult h.setMode
        (fun u hu huser' hcurrent' hloop ↦ ih hu huser' hcurrent' hloop) hy

/-- **A reader that goes on after its wait.** -/
theorem resume (h : Follows data creator r count x) (hcount : 0 < count)
    (hy : x.resume = some y) : Follows data creator r count y := by
  have hreader := h.readerInv hvalid hidle
  have hok : Sys.OneReader r count x.sys .resume := ⟨trivial, fun n hn ↦ by cases hn⟩
  cases hpr : x.sys.running with
  | none =>
      simp only [FdReader.resume, hpr] at hy
      cases hy
  | some pr =>
      have hcur := (Sys.running_eq_some.1 hpr).1
      have hcont : ∀ {s}, Sys.continueAt (x.sys.suspend .user) pr.cont = some s →
          Sys.step x.sys .resume = some s := by
        intro s hs
        simp only [Sys.step, hpr]
        exact hs
      cases hreads : pr.cont.reads with
      | none =>
          simp only [FdReader.resume, hpr, hreads] at hy
          obtain ⟨m, hm, rfl⟩ := Option.map_eq_some_iff.1 hy
          have hblocking : ¬x.pipe.nonblocking x.pipe.sys.procs.currentPID = true := by
            rw [h.modes]
            decide
          rw [Mixed.resume, if_neg hblocking] at hm
          obtain ⟨s, hs, rfl⟩ := Option.map_eq_some_iff.1 hm
          have hnoRead : Sys.Event.NoRead x.sys .resume := by
            intro pr' hpr'
            rw [← Option.some.inj (hpr.symm.trans hpr')]
            exact hreads
          exact h.extend hok hs (h.results_eq hvalid hidle hcount hnoRead hs) h.modes
      | some n =>
          obtain ⟨hcurrent, rfl⟩ := hreader.reader.asks _ pr hcur n hreads
          have hinv := hreader.delivery.inv
          obtain ⟨hinv', hrun, -⟩ := hinv.resume hpr
          -- a reader that waits does so for data, as the lock is free between the events
          have hdata : pr.cont = .readData n := by
            cases hc : pr.cont with
            | readData m =>
                rw [hc] at hreads
                exact congrArg Cont.readData (Option.some.inj hreads)
            | readMutex m => exact absurd (by rw [hc]; rfl) (hinv.good.noMutex _ pr hcur)
            | user | writeMutex _ _ | writeSlot _ _ _ =>
                rw [hc] at hreads
                cases hreads
          obtain ⟨s, hs, hout⟩ := Sys.afterDataAvailable_outcome hinv'.good hrun n
          have hcontinue : Sys.continueAt (x.sys.suspend .user) (.readData n) = some s := hs
          have hread : x.continueRead pr.cont = some (x.setSys s, blockingResult s) := by
            rw [hdata]
            change (Sys.continueAt (x.sys.suspend .user) (.readData n)).map _ = _
            rw [hcontinue]
            rfl
          have hresult := readOutcome_result hinv' hrun hout
          have hsame : (x.sys.suspend .user).procs.currentPID = r := by
            rw [Sys.suspend, Procs.setCont_of hcur]
            exact hcurrent
          rw [hsame] at hresult
          simp only [FdReader.resume, hpr, hreads, hread, Option.bind_some] at hy
          have hstep := hcont (hdata ▸ hcontinue)
          exact h.round hok hstep hresult h.modes
            (fun u hu huser' hcurrent' hloop ↦
              hu.readLoop hvalid hidle hcount _ huser' hcurrent' hloop) hy

/-- **Every event keeps the run of the pipe.** -/
theorem step (h : Follows data creator r count x) (hcount : 0 < count) {e : Event}
    (hok : OneReader r count x e) (hy : step r x e = some y) : Follows data creator r count y := by
  have hpipe : ∀ {e : Sys.Event} {s : Sys}, Sys.step x.sys e = some s →
      Sys.OneReader r count x.sys e → e.NoRead x.sys → ∀ {f : Int → Bool},
      (∀ pid, f pid = false) → Follows data creator r count { x with pipe := ⟨s, f⟩ } := by
    intro e s hs hok hnoRead f hf
    exact h.extend hok hs (h.results_eq hvalid hidle hcount hnoRead hs) hf
  cases e with
  | requestEof | closeFd => exact hok.elim
  | readFd n =>
      obtain rfl : n = count := hok
      simp only [FdReader.step] at hy
      split at hy
      next huser =>
        have hopen : ¬x.fd = none := by
          rw [h.fd]
          exact Option.some_ne_none _
        rw [readFd, if_neg hopen, if_neg (by rw [h.eofRequest]; decide)] at hy
        exact h.readLoop hvalid hidle hcount _ huser.1 huser.2 hy
      · cases hy
  | pipe e =>
      cases e with
      | read _ | write _ => exact hok.elim
      | sys e =>
          cases e with
          | read _ => cases hy
          | resume => exact h.resume hvalid hidle hcount hy
          | kill pid =>
              obtain ⟨m, hm, rfl⟩ := Option.map_eq_some_iff.1 hy
              obtain ⟨s, hs, rfl⟩ := Option.map_eq_some_iff.1 hm
              rw [if_neg hok.1]
              exact hpipe hs ⟨hok.2, fun n hn ↦ by cases hn⟩ trivial h.modes
          | write buf =>
              obtain ⟨m, hm, rfl⟩ := Option.map_eq_some_iff.1 hy
              obtain ⟨s, hs, rfl⟩ := Option.map_eq_some_iff.1 hm
              exact hpipe hs ⟨trivial, fun n hn ↦ by cases hn⟩ trivial h.setMode
          | dispatch _ | create _ | reopen | close _ | reap _ =>
              obtain ⟨m, hm, rfl⟩ := Option.map_eq_some_iff.1 hy
              obtain ⟨s, hs, rfl⟩ := Option.map_eq_some_iff.1 hm
              exact hpipe hs ⟨trivial, fun n hn ↦ by cases hn⟩ trivial h.modes

/-- **What the reader has been given**: chunks that are not empty, a beginning of what was written
without its NULs, and nothing else; or all of it in such chunks, the end, and nothing after it. -/
theorem chunks (h : Follows data creator r count x) (hcount : 0 < count) :
    ∃ cs, (∀ c ∈ cs, c ≠ []) ∧ cs.flatten <+: strip x.sys.calls.flatten ∧
      (x.reads = cs ∨ (cs.flatten = strip x.sys.calls.flatten ∧
        x.sys.Exhausted ∧ ∃ after, x.reads = cs ++ [] :: after)) := by
  have hreader := h.readerInv hvalid hidle
  obtain ⟨cs, hcs, hbegins, hreads⟩ := hreader.chunks hcount
  obtain ⟨hne, hflat⟩ := fdReads_chunks hcs
  refine ⟨fdReads cs, hne, ?_, ?_⟩
  · rw [hflat]
    exact hbegins.filter _
  · rw [h.returned, hflat]
    rcases hreads with hreads | ⟨hall, after, hreads⟩
    · exact .inl (congrArg fdReads hreads)
    · refine .inr ⟨congrArg strip hall, ?_, fdReads after, ?_⟩
      · have hmem : [] ∈ x.sys.readsOf r := by
          rw [hreads]
          exact List.mem_append_right _ List.mem_cons_self
        exact hreader.exhausted hcount hmem
      · rw [hreads, fdReads_append]
        rfl

end Valid

end Follows

/-- The system when `creator` has just opened the pipe. -/
theorem follows_init (data : Nat → UInt8) (creator r : Int) (count : Nat) :
    Follows data creator r count (init data creator FILE_READ) :=
  ⟨.refl, fun _ ↦ rfl, rfl, rfl, rfl⟩

/-- **Every run of the program is a run of the pipe.** -/
theorem follows_reach (hvalid : ¬invalidPID creator) (hidle : creator ≠ IDLE_PID)
    (hcount : 0 < count)
    (hreach : Reach (stepOn r) (fun x z ↦ OneReader r count x z.1 ∧ z.2 = true)
      (init data creator FILE_READ) x) : Follows data creator r count x := by
  apply hreach.invariant (follows_init data creator r count)
  rintro x ⟨e, nodes⟩ y h ⟨hok, hnodes⟩ hy
  have hgood := (h.readerInv hvalid hidle).delivery.inv.good
  have hsame : x.setSys (x.sys.withNodes true) = x := by
    rw [Sys.withNodes, ← hgood.nodes]
    rfl
  obtain rfl : nodes = true := hnodes
  rw [stepOn, hsame] at hy
  exact h.step hvalid hidle hcount hok hy

end BareBones.IPC.FdReader
