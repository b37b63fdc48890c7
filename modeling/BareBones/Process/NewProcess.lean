import BareBones.Process.Objects

/-!
# The construction of a process

`newProcess`, `freeProcess` and the copy of the arguments of `process.c`, with every request for
memory that they make.  The process and its stack are requested first, and a refusal is
checked; then two queues and two semaphores, whose results are stored unchecked; and then the
copy of `argv`, which frees what it has copied if a request is refused.

So `newProcess` is all or nothing unless the process and its stack are granted, a queue or a
semaphore is refused and the copy of `argv` succeeds: then it returns a process with a null
pointer in it.  `Fits` says this of the pattern of refusals, and **it is exact**
(`newProcess_allOrNothing_iff`).
-/

namespace BareBones.Process.NewProcess

open BareBones.Lib BareBones.Lib.Blocks BareBones.Process.Objects

/-- `MAX_PROCESS_NAME_LENGTH` -/
def MAX_PROCESS_NAME_LENGTH : Nat := 32

/-- An `argv` that the kernel is given: the strings of its array, some of them null. -/
abbrev Args := Option (Nat → Option (List UInt8))

/-! ## The copy of the arguments -/

/-- The pointers in an array. -/
def entriesOf (out : Nat) : K (List Ptr) := do
  match ← load out with
  | .array entries => pure entries
  | _ => failure

/-- `out[i] = p` -/
def setEntry (out i : Nat) (p : Ptr) : K Unit := do
  store out (.array ((← entriesOf out).set i p))

/-- `if (out[j]) mem_free(out[j])`, for some entries. -/
def freeEntries : List Ptr → K Unit
  | [] => pure ()
  | none :: entries => freeEntries entries
  | some b :: entries => do
      free b
      freeEntries entries

/-- The loop of `deepCopyArgv` for `rest` entries, from the entry `i` on; false if it has
freed everything. -/
def copyStrings (argv : Nat → Option (List UInt8)) (out : Nat) : (rest i : Nat) → K Bool
  | 0, _ => pure true
  | rest + 1, i =>
      match argv i with
      | none => copyStrings argv out rest (i + 1)
      | some s => do
          let copy ← alloc (.str [])
          setEntry out i copy
          match copy with
          | none => do
              freeEntries ((← entriesOf out).take i)
              free out
              pure false
          | some copy => do
              store copy (.str s)
              copyStrings argv out rest (i + 1)

/-- `deepCopyArgv` -/
def deepCopyArgv (argc : Int) (argv : Args) : K Ptr :=
  match argv with
  | none => pure none
  | some argv =>
      if argc ≤ 0 then pure none
      else do
        match ← alloc (.array (List.replicate argc.toNat none)) with
        | none => pure none
        | some out => do
            if ← copyStrings argv out argc.toNat 0 then pure (some out) else pure none

/-- `freeArgv` -/
def freeArgv (argc : Int) : Ptr → K Unit
  | none => pure ()
  | some argv => do
      freeEntries ((← entriesOf argv).take argc.toNat)
      free argv

/-! ## Processes -/

/-- A process before its fields are written. -/
def blank : ProcessCDT where
  pid := 0
  ppid := 0
  stackBase := none
  stackSize := 0
  rip := 0
  state := .READY
  name := []
  priorityLevel := 0
  remainingQuantums := 0
  children := none
  terminatedChildren := none
  terminated := none
  childTerminated := none
  argc := 0
  argv := none
  fdTable := fun _ ↦ none
  eofRequests := fun _ ↦ false

/-- `(argc > 0 && argv != 0) ? deepCopyArgv(argc, argv) : 0` -/
def copyArgs (argc : Int) (argv : Args) : K Ptr :=
  if argc > 0 ∧ argv.isSome then deepCopyArgv argc argv else pure none

/-- `newProcess`.  The fields are written at its end. -/
def newProcess (entryPoint : Nat) (name : Option (List UInt8)) (stackSize : Nat) (pid : Int)
    (priorityLevel : Nat) (argc : Int) (argv : Args) : K Ptr := do
  match ← alloc (.process blank) with
  | none => pure none
  | some process => do
      match ← alloc .stack with
      | none => do
          free process
          pure none
      | some stackBase => do
          let children ← newQueue
          let terminatedChildren ← newQueue
          let terminated ← newSemaphore 0
          let childTerminated ← newSemaphore 0
          let copy ← copyArgs argc argv
          if (argc > 0 ∧ argv.isSome) ∧ copy = none then do
            freeQueue children
            freeQueue terminatedChildren
            freeSemaphore terminated
            freeSemaphore childTerminated
            free stackBase
            free process
            pure none
          else do
            store process (.process
              { pid := pid
                ppid := INIT_PID
                stackBase := some stackBase
                stackSize := stackSize
                rip := entryPoint
                state := .READY
                name := (name.getD []).take (MAX_PROCESS_NAME_LENGTH - 1)
                priorityLevel := priorityLevel
                remainingQuantums := priorityLevel
                children := children
                terminatedChildren := terminatedChildren
                terminated := terminated
                childTerminated := childTerminated
                argc := if argc > 0 ∧ argv.isSome then argc else 0
                argv := copy
                fdTable := fun _ ↦ none
                eofRequests := fun _ ↦ false })
            pure (some process)

/-- `freeProcess` -/
def freeProcess : Ptr → K Unit
  | none => pure ()
  | some process => do
      let p ← processOf process
      freeArgv p.argc p.argv
      mem_free p.stackBase
      freeQueue p.children
      freeQueue p.terminatedChildren
      freeSemaphore p.terminated
      freeSemaphore p.childTerminated
      free process

/-! ## All or nothing -/

/-- The arguments that `newProcess` copies. -/
def argsOf (argc : Int) : Args → List (Option (List UInt8))
  | none => []
  | some argv => (List.range argc.toNat).map argv

/-- The process has a copy of the arguments, in an array and strings of its own. -/
structure DeepCopy (h h' : Blocks Obj) (p : ProcessCDT) (args : List (Option (List UInt8))) :
    Prop where
  argc : p.argc = args.length
  null : args = [] → p.argv = none
  copy : args ≠ [] → ∃ out entries, p.argv = some out ∧ New h h' out ∧
    h'.cells out = some (.array entries) ∧
    List.Forall₂ (fun (e : Ptr) s ↦ e.bind h'.cells = s.map Obj.str ∧ (e = none ↔ s = none) ∧
      ∀ b ∈ e, New h h' b) entries args

/-- A stack. -/
def IsStack (h : Blocks Obj) (s : Ptr) : Prop := ∃ b, s = some b ∧ h.cells b = some .stack

/-- From `h`, the process `p` has been built completely, at `b`. -/
structure Built (h h' : Blocks Obj) (b : Nat) (p : ProcessCDT) (args : List (Option (List UInt8))) :
    Prop where
  old : ∀ c, h.cells c ≠ none → h'.cells c = h.cells c
  new : New h h' b
  process : h'.cells b = some (.process p)
  stack : IsStack h' p.stackBase
  children : IsQueue h' p.children
  terminatedChildren : IsQueue h' p.terminatedChildren
  terminated : IsSem h' 0 p.terminated
  childTerminated : IsSem h' 0 p.childTerminated
  argv : DeepCopy h h' p args
  /-- Whatever has become of the other blocks, `freeProcess` frees those that are new. -/
  free : ∀ later : Blocks Obj, later.Fresh → (∀ c, New h h' c → later.cells c = h'.cells c) →
    ∃ after, freeProcess (some b) later = some ((), after) ∧
      ∀ c, (New h h' c → after.cells c = none) ∧ (¬New h h' c → after.cells c = later.cells c)

/-- `newProcess` either returns null and has freed whatever it was granted, or returns a complete
process. -/
def AllOrNothing (h : Blocks Obj) (x : K Ptr) (args : List (Option (List UInt8))) : Prop :=
  ∃ r h', x h = some (r, h') ∧
    (r = none ∧ h'.cells = h.cells ∨ ∃ b p, r = some b ∧ Built h h' b p args)

/-- How many requests the copy of the arguments makes: the array, and a block for each string. -/
def copyCalls (args : List (Option (List UInt8))) : Nat :=
  if args = [] then 0 else 1 + args.countP Option.isSome

/-- The number of the first request for the copy. -/
def copyStart (f : Nat → Bool) (n : Nat) : Nat :=
  n + 4 + semCalls f (n + 4) + semCalls f (n + 4 + semCalls f (n + 4))

/-- The process or its stack is refused; or the queues and semaphores are granted; or a block
for the copy of the arguments is refused. -/
def Fits (f : Nat → Bool) (n : Nat) (args : List (Option (List UInt8))) : Prop :=
  f n = true ∨ f (n + 1) = true ∨ (∀ k < 6, f (n + 2 + k) = false) ∨
    ∃ k < copyCalls args, f (copyStart f n + k) = true

/-! ## What the copy leaves on the heap -/

/-- The strings of a copy, with their blocks, if the requests from `n` on are granted. -/
def copied : (n : Nat) → List (Option (List UInt8)) → List (Option (Nat × List UInt8))
  | _, [] => []
  | n, none :: args => none :: copied n args
  | n, some s :: args => some (n, s) :: copied (n + 1) args

/-- The pointers to the strings. -/
def entries (copies : List (Option (Nat × List UInt8))) : List Ptr :=
  copies.map (Option.map Prod.fst)

/-- The blocks of the strings. -/
def strCells : List (Option (Nat × List UInt8)) → Multiset (Nat × Obj)
  | [] => 0
  | none :: copies => strCells copies
  | some (b, s) :: copies => (b, .str s) ::ₘ strCells copies

/-- The blocks of the array and of the strings. -/
def argvCells : Ptr → List (Option (Nat × List UInt8)) → Multiset (Nat × Obj)
  | none, _ => 0
  | some out, copies => (out, .array (entries copies)) ::ₘ strCells copies

variable {f : Nat → Bool} {n i out : Nat} {P Q : Multiset (Nat × Obj)}
  {copies copies' : List (Option (Nat × List UInt8))} {args : List (Option (List UInt8))}

theorem strCells_append : strCells (copies ++ copies') = strCells copies + strCells copies' := by
  induction copies with
  | nil => exact (zero_add _).symm
  | cons c copies ih =>
      cases c with
      | none => exact ih
      | some c => rw [List.cons_append, strCells, strCells, ih, Multiset.cons_add]

theorem runs_entriesOf {es : List Ptr} {b : Nat} (hmem : (b, .array es) ∈ P) :
    Runs f (entriesOf b) n P es n P := (Runs.load hmem).bind (.pure _)

theorem runs_freeEntries :
    Runs f (freeEntries (entries copies)) n (strCells copies + P) () n P := by
  induction copies with
  | nil => exact (Runs.pure ()).of_eq (zero_add P) rfl
  | cons c copies ih =>
      cases c with
      | none => exact ih
      | some c =>
          refine Runs.bind (Runs.free (v := .str c.2) (Q := strCells copies + P) ?_) ih
          rw [strCells, Multiset.cons_add]

theorem runs_setEntry {es : List Ptr} {p : Ptr} (hP : P = (out, .array es) ::ₘ Q) :
    Runs f (setEntry out i p) n P () n ((out, .array (es.set i p)) ::ₘ Q) := by
  subst hP
  exact (runs_entriesOf (Multiset.mem_cons_self _ _)).bind (.store rfl _)

/-- The requests for the strings are granted. -/
def granted (f : Nat → Bool) : (n : Nat) → List (Option (List UInt8)) → Bool
  | _, [] => true
  | n, none :: args => granted f n args
  | n, some _ :: args => !f n && granted f (n + 1) args

theorem granted_eq_true :
    granted f n args = true ↔ ∀ k < args.countP Option.isSome, f (n + k) = false := by
  induction args generalizing n with
  | nil => simp [granted]
  | cons a args ih =>
      cases a with
      | none =>
          rw [granted, ih]
          simp
      | some s =>
          rw [granted, Bool.and_eq_true, Bool.not_eq_true', ih,
            List.countP_cons_of_pos (by rfl)]
          constructor
          · rintro ⟨hn, hrest⟩ k hk
            cases k with
            | zero => exact hn
            | succ k =>
                rw [← Nat.add_assoc, Nat.add_right_comm]
                exact hrest k (Nat.lt_of_succ_lt_succ hk)
          · intro hall
            refine ⟨hall 0 (Nat.succ_pos _), fun k hk ↦ ?_⟩
            rw [Nat.add_right_comm]
            exact hall (k + 1) (Nat.succ_lt_succ hk)

/-- The entry behind those that are done. -/
theorem set_entries (rest : Nat) (p : Ptr) :
    (entries copies ++ List.replicate (rest + 1) none).set copies.length p =
      entries copies ++ p :: List.replicate rest none := by
  have hlength : (entries copies).length = copies.length := List.length_map ..
  rw [← hlength, List.set_append_right _ _ le_rfl, Nat.sub_self, List.replicate_succ,
    List.set_cons_zero]

theorem take_entries (es : List Ptr) :
    (entries copies ++ es).take copies.length = entries copies := by
  have hlength : (entries copies).length = copies.length := List.length_map ..
  rw [← hlength, List.take_left]

/-- **The loop copies the strings, or frees all that it has copied.**  It starts behind the
strings of `copies`. -/
theorem runs_copyStrings (argv : Nat → Option (List UInt8)) (rest : Nat)
    (hi : i = copies.length) (hargs : args = (List.range' i rest).map argv) :
    ∃ n', ∀ P, Runs f (copyStrings argv out rest i) n
      ((out, .array (entries copies ++ List.replicate rest none)) ::ₘ (strCells copies + P))
      (granted f n args) n'
      (if granted f n args then argvCells (some out) (copies ++ copied n args) + P else P) := by
  induction rest generalizing i n copies args with
  | zero =>
      subst hargs
      refine ⟨n, fun P ↦ (Runs.pure true).of_eq rfl ?_⟩
      rw [List.range'_zero, List.map_nil, granted, if_pos rfl, copied, List.append_nil,
        List.replicate_zero, List.append_nil, argvCells, Multiset.cons_add]
  | succ rest ih =>
      rw [List.range'_succ, List.map_cons] at hargs
      rw [copyStrings]
      cases ha : argv i with
      | none =>
          have hentries : entries copies ++ List.replicate (rest + 1) none =
              entries (copies ++ [none]) ++ List.replicate rest none := by
            rw [entries, entries, List.map_append, List.append_assoc]
            rfl
          have hlength : i + 1 = (copies ++ [none]).length := by simp [hi]
          obtain ⟨n', hrun⟩ := ih (n := n) hlength rfl
          rw [ha] at hargs
          refine ⟨n', fun P ↦ ?_⟩
          have hrun := hrun P
          rw [hargs, granted, copied, hentries, List.append_cons copies none (copied n _)]
          have hcells : strCells (copies ++ [none]) = strCells copies :=
            strCells_append.trans (add_zero _)
          rwa [hcells] at hrun
      | some s =>
          rw [ha] at hargs
          rw [hargs, granted]
          cases hn : f n with
          | true =>
              -- The string is refused: the array is as it was, and everything is freed.
              refine ⟨n + 1, fun P ↦ (Runs.refused hn).bind (Runs.bind (runs_setEntry rfl) ?_)⟩
              rw [hi, set_entries]
              refine Runs.bind (runs_entriesOf (Multiset.mem_cons_self _ _)) ?_
              rw [take_entries]
              refine Runs.bind (Runs.of_eq runs_freeEntries (Multiset.add_cons _ _ _).symm rfl) ?_
              exact Runs.bind (.free rfl) (.pure false)
          | false =>
              have hlength : i + 1 = (copies ++ [some (n, s)]).length := by simp [hi]
              obtain ⟨n', hrun⟩ := ih (n := n + 1) hlength rfl
              refine ⟨n', fun P ↦ (Runs.alloc hn).bind (Runs.bind (runs_setEntry
                (Multiset.cons_swap _ _ _)) ?_)⟩
              rw [hi, set_entries]
              refine Runs.bind (Runs.store (Multiset.cons_swap _ _ _) _) ?_
              rw [copied, List.append_cons copies _ (copied (n + 1) _), Bool.not_false,
                Bool.true_and, ← hi]
              refine (hrun P).of_eq ?_ rfl
              have hentries : entries (copies ++ [some (n, s)]) ++ List.replicate rest none =
                  entries copies ++ some n :: List.replicate rest none := by
                rw [entries, entries, List.map_append, List.append_assoc]
                rfl
              have hcells : strCells (copies ++ [some (n, s)]) + P =
                  (n, .str s) ::ₘ (strCells copies + P) := by
                rw [strCells_append, strCells, strCells, Multiset.add_cons, add_zero,
                  Multiset.cons_add]
              rw [hentries, hcells, Multiset.cons_swap]

/-- The copy that the requests from `n` on are for. -/
def copyAt (f : Nat → Bool) (n : Nat) (args : List (Option (List UInt8))) : Ptr :=
  if f n || !granted f (n + 1) args then none else some n

theorem runs_deepCopyArgv {argc : Int} {argv : Nat → Option (List UInt8)} (hargc : 0 < argc)
    (hargs : args = argsOf argc (some argv)) :
    ∃ n', ∀ P, Runs f (deepCopyArgv argc (some argv)) n P (copyAt f n args) n'
      (argvCells (copyAt f n args) (copied (n + 1) args) + P) := by
  rw [argsOf, List.range_eq_range'] at hargs
  rw [deepCopyArgv, if_neg (not_le_of_gt hargc), copyAt]
  cases hn : f n with
  | true =>
      exact ⟨n + 1, fun P ↦ (Runs.refused hn).bind (.of_eq (.pure none) rfl (zero_add P))⟩
  | false =>
      obtain ⟨n', hrun⟩ := @runs_copyStrings f (n + 1) 0 n [] args argv argc.toNat rfl hargs
      refine ⟨n', fun P ↦ (Runs.alloc hn).bind (Runs.bind (Runs.of_eq (hrun P) ?_ rfl) ?_)⟩
      · rw [strCells, zero_add]
        rfl
      · cases granted f (n + 1) args with
        | true => exact Runs.pure _
        | false => exact (Runs.pure none).of_eq rfl (zero_add P)

/-! ## What a process owns -/

/-- The block of a stack. -/
def stackCells : Ptr → Multiset (Nat × Obj)
  | none => 0
  | some b => {(b, .stack)}

/-- The blocks of a process. -/
def processCells (b : Nat) (p : ProcessCDT) (queue₁ queue₂ : Ptr)
    (copies : List (Option (Nat × List UInt8))) : Multiset (Nat × Obj) :=
  (b, .process p) ::ₘ (stackCells p.stackBase + queueCells p.children [] +
    queueCells p.terminatedChildren [] + semCells p.terminated 0 queue₁ +
    semCells p.childTerminated 0 queue₂ + argvCells p.argv copies)

theorem runs_freeArgv {argc : Int} {argv : Ptr} (hlength : copies.length ≤ argc.toNat) :
    Runs f (freeArgv argc argv) n (argvCells argv copies + P) () n P := by
  cases argv with
  | none => exact (Runs.pure ()).of_eq (zero_add P) rfl
  | some out =>
      have hmem : (out, Obj.array (entries copies)) ∈ argvCells (some out) copies + P := by
        rw [argvCells, Multiset.cons_add]
        exact Multiset.mem_cons_self _ _
      have hcells : argvCells (some out) copies + P =
          strCells copies + (out, Obj.array (entries copies)) ::ₘ P := by
        rw [argvCells, Multiset.cons_add, Multiset.add_cons]
      refine Runs.bind (runs_entriesOf hmem) ?_
      rw [List.take_of_length_le (by rwa [entries, List.length_map])]
      exact Runs.bind (Runs.of_eq runs_freeEntries hcells rfl) (Runs.free rfl)

theorem runs_mem_free {b : Ptr} : Runs f (mem_free b) n (stackCells b + P) () n P := by
  cases b with
  | none => exact (Runs.pure ()).of_eq (zero_add P) rfl
  | some b => exact Runs.free (Multiset.singleton_add _ _)

/-- **`freeProcess` frees the blocks of the process.** -/
theorem runs_freeProcess {b : Nat} {p : ProcessCDT} {queue₁ queue₂ : Ptr}
    (hlength : copies.length ≤ p.argc.toNat) :
    Runs f (freeProcess (some b)) n (processCells b p queue₁ queue₂ copies + P) () n P := by
  have hmem : (b, Obj.process p) ∈ processCells b p queue₁ queue₂ copies + P := by
    rw [processCells, Multiset.cons_add]
    exact Multiset.mem_cons_self _ _
  have hcells : processCells b p queue₁ queue₂ copies + P =
      argvCells p.argv copies + (stackCells p.stackBase + (queueCells p.children [] +
        (queueCells p.terminatedChildren [] + (semCells p.terminated 0 queue₁ +
          (semCells p.childTerminated 0 queue₂ + (b, .process p) ::ₘ P))))) := by
    rw [processCells, ← Multiset.singleton_add, ← Multiset.singleton_add]
    abel
  refine Runs.bind (runs_processOf hmem) ?_
  refine Runs.bind (Runs.of_eq (runs_freeArgv hlength) hcells rfl) ?_
  refine Runs.bind runs_mem_free (Runs.bind runs_freeQueue (Runs.bind runs_freeQueue ?_))
  exact Runs.bind runs_freeSemaphore (Runs.bind runs_freeSemaphore (.free rfl))

/-! ## What `newProcess` does -/

variable {entryPoint stackSize priorityLevel : Nat} {name : Option (List UInt8)} {pid argc : Int}
  {argv : Args}

theorem argsOf_ne_nil : argsOf argc argv ≠ [] ↔ argc > 0 ∧ argv.isSome := by
  cases argv with
  | none => simp [argsOf]
  | some argv =>
      rw [argsOf, Ne, List.map_eq_nil_iff, List.range_eq_nil]
      simp only [Option.isSome_some, and_true]
      omega

theorem length_argsOf (h : argsOf argc argv ≠ []) : ((argsOf argc argv).length : Int) = argc := by
  obtain ⟨hargc, hargv⟩ := argsOf_ne_nil.1 h
  cases argv with
  | none => cases hargv
  | some argv =>
      rw [argsOf, List.length_map, List.length_range]
      omega

/-- The copy of the arguments of a process that is requested from `n` on. -/
def copyOf (f : Nat → Bool) (n : Nat) (args : List (Option (List UInt8))) : Ptr :=
  if args = [] then none else copyAt f (copyStart f n) args

theorem runs_copyArgs :
    ∃ n', ∀ P, Runs f (copyArgs argc argv) (copyStart f n) P (copyOf f n (argsOf argc argv)) n'
      (argvCells (copyOf f n (argsOf argc argv)) (copied (copyStart f n + 1) (argsOf argc argv)) +
        P) := by
  rw [copyArgs, copyOf]
  by_cases hargs : argsOf argc argv = []
  · rw [if_neg fun h ↦ argsOf_ne_nil.2 h hargs, if_pos hargs]
    exact ⟨_, fun P ↦ (Runs.pure none).of_eq rfl (zero_add P)⟩
  · obtain ⟨hargc, hargv⟩ := argsOf_ne_nil.1 hargs
    rw [if_pos ⟨hargc, hargv⟩, if_neg hargs]
    obtain ⟨a, rfl⟩ := Option.isSome_iff_exists.1 hargv
    exact runs_deepCopyArgv hargc rfl

/-- The process that is requested from `n` on. -/
def processAt (f : Nat → Bool) (n : Nat) (entryPoint : Nat) (name : Option (List UInt8))
    (stackSize : Nat) (pid : Int) (priorityLevel : Nat) (argc : Int) (argv : Args) :
    ProcessCDT where
  pid := pid
  ppid := INIT_PID
  stackBase := some (n + 1)
  stackSize := stackSize
  rip := entryPoint
  state := .READY
  name := (name.getD []).take (MAX_PROCESS_NAME_LENGTH - 1)
  priorityLevel := priorityLevel
  remainingQuantums := priorityLevel
  children := queueAt f (n + 2)
  terminatedChildren := queueAt f (n + 3)
  terminated := semAt f (n + 4)
  childTerminated := semAt f (n + 4 + semCalls f (n + 4))
  argc := if argc > 0 ∧ argv.isSome then argc else 0
  argv := copyOf f n (argsOf argc argv)
  fdTable := fun _ ↦ none
  eofRequests := fun _ ↦ false

/-- Its blocks. -/
def blocksAt (f : Nat → Bool) (n : Nat) (p : ProcessCDT) (args : List (Option (List UInt8))) :
    Multiset (Nat × Obj) :=
  processCells n p (some (n + 5)) (some (n + 4 + semCalls f (n + 4) + 1))
    (copied (copyStart f n + 1) args)

/-- Everything is freed when the copy of the arguments fails. -/
theorem runs_rollback {children terminatedChildren terminated childTerminated q₁ q₂ : Ptr}
    {stackBase process : Nat} {v : Obj} :
    Runs f (do
      freeQueue children
      freeQueue terminatedChildren
      freeSemaphore terminated
      freeSemaphore childTerminated
      free stackBase
      free process
      pure none) n
      (semCells childTerminated 0 q₂ + (semCells terminated 0 q₁ +
        (queueCells terminatedChildren [] + (queueCells children [] +
          (stackBase, .stack) ::ₘ (process, v) ::ₘ P)))) (none : Ptr) n P := by
  have hcells : semCells childTerminated 0 q₂ + (semCells terminated 0 q₁ +
      (queueCells terminatedChildren [] + (queueCells children [] +
        (stackBase, .stack) ::ₘ (process, v) ::ₘ P))) =
      queueCells children [] + (queueCells terminatedChildren [] + (semCells terminated 0 q₁ +
        (semCells childTerminated 0 q₂ + (stackBase, .stack) ::ₘ (process, v) ::ₘ P))) := by
    abel
  refine Runs.bind (Runs.of_eq runs_freeQueue hcells rfl) (Runs.bind runs_freeQueue ?_)
  refine Runs.bind runs_freeSemaphore (Runs.bind runs_freeSemaphore ?_)
  exact Runs.bind (.free rfl) (Runs.bind (.free rfl) (.pure none))

/-- The block of the process is one of those that are owned. -/
theorem cons_process {v : Nat × Obj} (A B C D E : Multiset (Nat × Obj)) (s : Nat × Obj) :
    A + (B + (C + (D + (E + s ::ₘ v ::ₘ P)))) =
      v ::ₘ ({s} + E + D + C + B + A + P) := by
  rw [← Multiset.singleton_add, ← Multiset.singleton_add, ← Multiset.singleton_add]
  abel

/-- **What `newProcess` does** when the process and its stack are granted. -/
theorem runs_newProcess (hprocess : f n = false) (hstack : f (n + 1) = false) :
    ∃ n', Runs f (newProcess entryPoint name stackSize pid priorityLevel argc argv) n P
      (if argsOf argc argv ≠ [] ∧ copyOf f n (argsOf argc argv) = none then none else some n) n'
      (if argsOf argc argv ≠ [] ∧ copyOf f n (argsOf argc argv) = none then P
       else blocksAt f n (processAt f n entryPoint name stackSize pid priorityLevel argc argv)
        (argsOf argc argv) + P) := by
  obtain ⟨n', hcopy⟩ := @runs_copyArgs f n argc argv
  refine ⟨n', ?_⟩
  refine Runs.bind (.alloc hprocess) (Runs.bind (.alloc hstack) ?_)
  refine Runs.bind runs_newQueue (Runs.bind runs_newQueue ?_)
  refine Runs.bind runs_newSemaphore (Runs.bind runs_newSemaphore (Runs.bind (hcopy _) ?_))
  by_cases hfail : argsOf argc argv ≠ [] ∧ copyOf f n (argsOf argc argv) = none
  · -- The copy has failed, and freed its own blocks.
    rw [if_pos hfail, if_pos hfail, if_pos ⟨argsOf_ne_nil.1 hfail.1, hfail.2⟩, hfail.2, argvCells,
      zero_add]
    exact runs_rollback
  · rw [if_neg hfail, if_neg hfail, if_neg fun h ↦ hfail ⟨argsOf_ne_nil.2 h.1, h.2⟩]
    refine Runs.bind (Runs.store (cons_process _ _ _ _ _ _) _) ((Runs.pure (some n)).of_eq rfl ?_)
    rw [blocksAt, processCells, Multiset.cons_add]
    rfl

/-! ## The condition -/

variable {h h' : Blocks Obj} {b : Nat} {p : ProcessCDT}

/-- The copy fails if and only if one of its requests is refused. -/
theorem copy_fails_iff :
    (args ≠ [] ∧ copyOf f n args = none) ↔ ∃ k < copyCalls args, f (copyStart f n + k) = true := by
  by_cases hargs : args = []
  · simp [hargs, copyCalls]
  rw [copyOf, if_neg hargs, copyCalls, if_neg hargs, copyAt]
  generalize copyStart f n = c
  constructor
  · rintro ⟨-, hnone⟩
    by_contra hall
    push Not at hall
    have hfirst : f c = false := by simpa using hall 0 (by omega)
    have hrest : granted f (c + 1) args = true := by
      refine granted_eq_true.2 fun k hk ↦ ?_
      rw [Nat.add_assoc, Nat.add_comm 1 k]
      simpa using hall (k + 1) (by omega)
    rw [hfirst, hrest] at hnone
    cases hnone
  · rintro ⟨k, hk, hrefused⟩
    refine ⟨hargs, if_pos ?_⟩
    cases k with
    | zero => simp [show f c = true from hrefused]
    | succ k =>
        have hnot : granted f (c + 1) args ≠ true := fun hall ↦ by
          have hgranted := granted_eq_true.1 hall k (by omega)
          rw [Nat.add_assoc, Nat.add_comm 1 k, hrefused] at hgranted
          cases hgranted
        simp [hnot]

theorem length_copied : (copied n args).length = args.length := by
  induction args generalizing n with
  | nil => rfl
  | cons a args ih => cases a <;> simp [copied, ih]

theorem argc_processAt :
    (processAt f n entryPoint name stackSize pid priorityLevel argc argv).argc =
      (argsOf argc argv).length := by
  by_cases hargs : argsOf argc argv = []
  · rw [hargs]
    exact if_neg fun h ↦ argsOf_ne_nil.2 h hargs
  · rw [length_argsOf hargs]
    exact if_pos (argsOf_ne_nil.1 hargs)

/-- The strings of a copy are those that are copied. -/
theorem forall₂_copied (hcells : ∀ b v, (b, v) ∈ strCells (copied n args) →
      h'.cells b = some v ∧ New h h' b) :
    List.Forall₂ (fun (e : Ptr) s ↦ e.bind h'.cells = s.map Obj.str ∧ (e = none ↔ s = none) ∧
      ∀ b ∈ e, New h h' b) (entries (copied n args)) args := by
  induction args generalizing n with
  | nil => exact .nil
  | cons a args ih =>
      cases a with
      | none => exact .cons ⟨rfl, by simp, by simp⟩ (ih hcells)
      | some s =>
          have hhead := hcells n (.str s) (Multiset.mem_cons_self _ _)
          refine .cons ⟨hhead.1, by simp, ?_⟩
            (ih fun b v hmem ↦ hcells b v (Multiset.mem_cons_of_mem hmem))
          rintro b hb
          cases hb
          exact hhead.2

/-- The blocks that a complete process is built from. -/
theorem mem_blocksAt {x : Nat × Obj} :
    x ∈ blocksAt f n p args ↔ x = (n, .process p) ∨ x ∈ stackCells p.stackBase ∨
      x ∈ queueCells p.children [] ∨ x ∈ queueCells p.terminatedChildren [] ∨
      x ∈ semCells p.terminated 0 (some (n + 5)) ∨
      x ∈ semCells p.childTerminated 0 (some (n + 4 + semCalls f (n + 4) + 1)) ∨
      x ∈ argvCells p.argv (copied (copyStart f n + 1) args) := by
  rw [blocksAt, processCells, Multiset.mem_cons]
  simp only [Multiset.mem_add, or_assoc]

theorem isStack_of (hcells : ∀ x ∈ stackCells (some b), h.cells x.1 = some x.2) :
    IsStack h (some b) := ⟨b, rfl, hcells _ (Multiset.mem_singleton_self _)⟩

theorem deepCopy_of {out : Ptr} (hargc : p.argc = args.length) (hargv : p.argv = out)
    (hnull : args = [] ↔ out = none)
    (hcells : ∀ b v, (b, v) ∈ argvCells out (copied n args) → h'.cells b = some v ∧ New h h' b) :
    DeepCopy h h' p args where
  argc := hargc
  null hargs := hargv.trans (hnull.1 hargs)
  copy hargs := by
    cases out with
    | none => exact absurd (hnull.2 rfl) hargs
    | some out =>
        obtain ⟨hcell, hnew⟩ := hcells out _ (Multiset.mem_cons_self _ _)
        refine ⟨out, _, hargv, hnew, hcell, forall₂_copied fun b v hmem ↦ ?_⟩
        exact hcells b v (Multiset.mem_cons_of_mem hmem)

/-- The process frees what it owns, and nothing else. -/
theorem free_of {queue₁ queue₂ : Ptr} (hlength : copies.length ≤ p.argc.toNat)
    (ho : Owns h.cells (processCells b p queue₁ queue₂ copies) h') (later : Blocks Obj)
    (hfresh : later.Fresh) (hsame : ∀ c, New h h' c → later.cells c = h'.cells c) :
    ∃ after, freeProcess (some b) later = some ((), after) ∧
      ∀ c, (New h h' c → after.cells c = none) ∧
        (¬New h h' c → after.cells c = later.cells c) := by
  classical
  have hcell : ∀ c v, (c, v) ∈ processCells b p queue₁ queue₂ copies → later.cells c = some v :=
    fun c v hmem ↦ (hsame c (ho.exists_mem_iff.1 ⟨v, hmem⟩)).trans (ho.cell c v hmem)
  have hrun := @runs_freeProcess later.refuses later.calls 0 copies b p queue₁ queue₂ hlength
  rw [add_zero] at hrun
  obtain ⟨after, hafter, -, -, hnone⟩ :=
    hrun _ later rfl rfl (Owns.takeOver ho.nodup hcell hfresh)
  refine ⟨after, hafter, fun c ↦ ⟨fun hnew ↦ ?_, fun hnew ↦ ?_⟩⟩
  · rw [hnone.cells_eq]
    exact if_pos (ho.exists_mem_iff.2 hnew)
  · rw [hnone.cells_eq]
    exact if_neg fun hmem ↦ hnew (ho.exists_mem_iff.1 hmem)

/-- A process with all its queues and semaphores is complete. -/
theorem built_of (ho : Owns h.cells (blocksAt f n p args) h') (hargc : p.argc = args.length)
    (hargv : p.argv = copyOf f n args) (hcopy : ¬(args ≠ [] ∧ copyOf f n args = none))
    (hstack : p.stackBase = some b) (hchildren : p.children ≠ none)
    (hterminatedChildren : p.terminatedChildren ≠ none) (hterminated : p.terminated ≠ none)
    (hchildTerminated : p.childTerminated ≠ none) : Built h h' n p args := by
  have hcell : ∀ x ∈ blocksAt f n p args, h'.cells x.1 = some x.2 := fun x ↦ ho.cell x.1 x.2
  have hprocess : (n, Obj.process p) ∈ blocksAt f n p args := mem_blocksAt.2 (.inl rfl)
  constructor
  · exact fun c hc ↦ ho.other c fun v hmem ↦ hc (ho.apart c v hmem)
  · exact ho.exists_mem_iff.1 ⟨_, hprocess⟩
  · exact hcell _ hprocess
  · rw [hstack]
    exact isStack_of fun x hx ↦ hcell x (mem_blocksAt.2 (by simp [hstack, hx]))
  · exact isQueue_of hchildren fun x hx ↦ hcell x (mem_blocksAt.2 (by simp [hx]))
  · exact isQueue_of hterminatedChildren fun x hx ↦ hcell x (mem_blocksAt.2 (by simp [hx]))
  · exact isSem_of (b := n + 5) hterminated fun x hx ↦ hcell x (mem_blocksAt.2 (by simp [hx]))
  · exact isSem_of (b := n + 4 + semCalls f (n + 4) + 1) hchildTerminated fun x hx ↦
      hcell x (mem_blocksAt.2 (by simp [hx]))
  · refine deepCopy_of (n := copyStart f n + 1) hargc hargv ?_ fun c v hmem ↦ ?_
    · constructor
      · exact fun hargs ↦ if_pos hargs
      · exact fun hnone ↦ by_contra fun hargs ↦ hcopy ⟨hargs, hnone⟩
    · have hmem : (c, v) ∈ blocksAt f n p args := mem_blocksAt.2 (by simp [hargv, hmem])
      exact ⟨ho.cell c v hmem, ho.exists_mem_iff.1 ⟨v, hmem⟩⟩
  · refine free_of ?_ ho
    rw [length_copied, hargc, Int.toNat_natCast]

/-- The six requests of the queues and semaphores. -/
theorem complete_iff :
    (queueAt f (n + 2) ≠ none ∧ queueAt f (n + 3) ≠ none ∧ semAt f (n + 4) ≠ none ∧
      semAt f (n + 4 + semCalls f (n + 4)) ≠ none) ↔ ∀ k < 6, f (n + 2 + k) = false := by
  have hqueue : ∀ m, queueAt f m ≠ none ↔ f m = false := by
    intro m
    rw [queueAt]
    cases f m <;> simp
  have hsem : ∀ m, semAt f m ≠ none ↔ f m = false ∧ f (m + 1) = false := by
    intro m
    rw [semAt]
    cases f m <;> cases f (m + 1) <;> simp
  rw [hqueue, hqueue, hsem, hsem]
  constructor
  · rintro ⟨h₂, h₃, ⟨h₄, h₅⟩, h₆, h₇⟩ k hk
    have hcalls : semCalls f (n + 4) = 2 := by
      rw [semCalls, h₄]
      rfl
    rw [hcalls] at h₆ h₇
    have hcases : k = 0 ∨ k = 1 ∨ k = 2 ∨ k = 3 ∨ k = 4 ∨ k = 5 := by omega
    rcases hcases with rfl | rfl | rfl | rfl | rfl | rfl <;> assumption
  · intro hall
    have h₄ : f (n + 4) = false := hall 2 (by decide)
    have hcalls : semCalls f (n + 4) = 2 := by
      rw [semCalls, h₄]
      rfl
    rw [hcalls]
    exact ⟨hall 0 (by decide), hall 1 (by decide), ⟨h₄, hall 3 (by decide)⟩,
      hall 4 (by decide), hall 5 (by decide)⟩

/-- **`newProcess` is all or nothing if and only if the refusals fit.** -/
theorem newProcess_allOrNothing_iff (h : Blocks Obj) (hfresh : h.Fresh) (entryPoint : Nat)
    (name : Option (List UInt8)) (stackSize : Nat) (pid : Int) (priorityLevel : Nat) (argc : Int)
    (argv : Args) :
    AllOrNothing h (newProcess entryPoint name stackSize pid priorityLevel argc argv)
        (argsOf argc argv) ↔
      Fits h.refuses h.calls (argsOf argc argv) := by
  have hstart := Owns.start h hfresh
  -- A run that ends with nothing.
  have hnothing : (∃ n', Runs h.refuses
      (newProcess entryPoint name stackSize pid priorityLevel argc argv) h.calls 0 none n' 0) →
      AllOrNothing h (newProcess entryPoint name stackSize pid priorityLevel argc argv)
        (argsOf argc argv) := by
    rintro ⟨n', hrun⟩
    obtain ⟨h', heq, -, -, ho⟩ := hrun _ h rfl rfl hstart
    exact ⟨none, h', heq, .inl ⟨rfl, ho.cells_eq⟩⟩
  cases hprocess : h.refuses h.calls with
  | true =>
      refine iff_of_true (hnothing ⟨h.calls + 1, ?_⟩) (.inl hprocess)
      exact Runs.bind (.refused hprocess) (.pure none)
  | false =>
  cases hstack : h.refuses (h.calls + 1) with
  | true =>
      refine iff_of_true (hnothing ⟨h.calls + 2, ?_⟩) (.inr (.inl hstack))
      refine Runs.bind (.alloc hprocess) (Runs.bind (.refused hstack) ?_)
      exact Runs.bind (.free rfl) (.pure none)
  | false =>
  obtain ⟨n', hrun⟩ := @runs_newProcess h.refuses h.calls 0 entryPoint stackSize priorityLevel name
    pid argc argv hprocess hstack
  rw [Fits, hprocess, hstack, ← copy_fails_iff, ← complete_iff]
  simp only [Bool.false_eq_true, false_or]
  by_cases hfail : argsOf argc argv ≠ [] ∧
      copyOf h.refuses h.calls (argsOf argc argv) = none
  · rw [if_pos hfail, if_pos hfail] at hrun
    exact iff_of_true (hnothing ⟨n', hrun⟩) (.inr hfail)
  rw [if_neg hfail, if_neg hfail, add_zero] at hrun
  obtain ⟨h', heq, -, -, ho⟩ := hrun _ h rfl rfl hstart
  rw [or_iff_left hfail]
  constructor
  · rintro ⟨r, h₂, heq₂, hcases⟩
    obtain ⟨rfl, rfl⟩ := Prod.mk.inj (Option.some.inj (heq.symm.trans heq₂))
    obtain ⟨hnone, -⟩ | ⟨b, p, hb, hbuilt⟩ := hcases
    · cases hnone
    cases hb
    have hp := hbuilt.process.symm.trans (ho.cell _ _ (mem_blocksAt.2 (.inl rfl)))
    cases hp
    exact ⟨hbuilt.children.ne_none, hbuilt.terminatedChildren.ne_none, hbuilt.terminated.ne_none,
      hbuilt.childTerminated.ne_none⟩
  · rintro ⟨hchildren, hterminatedChildren, hterminated, hchildTerminated⟩
    refine ⟨_, h', heq, .inr ⟨h.calls, _, rfl, built_of ho argc_processAt rfl hfail rfl hchildren
      hterminatedChildren hterminated hchildTerminated⟩⟩

/-- Two arguments, the second one null, and nothing is refused. -/
theorem newProcess_allOrNothing_granted :
    AllOrNothing ⟨fun _ ↦ none, 0, fun _ ↦ false⟩
      (newProcess 0 (some [119, 99]) 32768 2 1 2
        (some fun i ↦ if i = 0 then some [119, 99] else none))
      [some [119, 99], none] :=
  (newProcess_allOrNothing_iff ⟨fun _ ↦ none, 0, fun _ ↦ false⟩ (fun _ _ ↦ rfl) 0
    (some [119, 99]) 32768 2 1 2 (some fun i ↦ if i = 0 then some [119, 99] else none)).2
    (.inr (.inr (.inl fun _ _ ↦ rfl)))

/-- The queue of the children is refused, and a process without it is returned. -/
theorem newProcess_null_children :
    ¬AllOrNothing ⟨fun _ ↦ none, 0, fun k ↦ k = 2⟩ (newProcess 0 none 32768 2 1 0 none) [] := by
  rintro ⟨r, h', heq, ⟨rfl, -⟩ | ⟨b, p, rfl, hbuilt⟩⟩
  · have hr := congrArg (Option.map Prod.fst) heq
    cases hr
  · obtain ⟨hb, rfl⟩ := Prod.mk.inj (Option.some.inj heq)
    cases hb
    cases hbuilt.process
    exact hbuilt.children.ne_none rfl

end BareBones.Process.NewProcess
