import BareBones.Lib.Stores

/-!
# The context switch and the first stack of a process

`_irq00Handler` saves the registers of the process that it interrupts with `pushState`, lets
`schedule` choose a stack, and goes on with `popState` and `iretq` on that stack.  For a
process that has never run, nobody has pushed anything: `prepareStack` writes the words that
`pushState` and an interrupt would have left behind.

The memory is one of bytes with addresses of 64 bits, so that a stack may lie anywhere, also
across the end of the address space.  `pushAll` and `popWords` are what a sequence of pushes
and of pops do to it, and **the words that were pushed are popped in the reverse order**
(`popWords_pushAll`).  From this follow what the assembly code does to its own frames
(`popState_pushState`) and to the one that the C code has built (`first_switch`).
-/

namespace BareBones.Process.ContextSwitch

open BareBones.Lib BareBones.Lib.Stores

/-! ## Words on a stack -/

/-- The address of byte `i` of the word at `sp`. -/
def byteOf (sp : UInt64) (i : Nat) : UInt64 := sp + UInt64.ofNat i

/-- A word is stored. -/
def storeWord (sp v : UInt64) : List (UInt64 × UInt8) := bytesAt (byteOf sp) (toBytes 8 v.toNat)

/-- A word is loaded. -/
def loadWord (m : UInt64 → UInt8) (sp : UInt64) : UInt64 :=
  UInt64.ofNat (ofBytes (read m (byteOf sp) 8))

/-- `*(--sp) = v`, for the words of a list. -/
def pushAll : UInt64 → List UInt64 → List (UInt64 × UInt8)
  | _, [] => []
  | sp, v :: vs => storeWord (sp - 8) v ++ pushAll (sp - 8) vs

/-- The stack pointer after `n` pushes. -/
def pushed : UInt64 → Nat → UInt64
  | sp, 0 => sp
  | sp, n + 1 => pushed (sp - 8) n

/-- The words that `n` pops find. -/
def popWords (m : UInt64 → UInt8) : UInt64 → Nat → List UInt64
  | _, 0 => []
  | sp, n + 1 => loadWord m sp :: popWords m (sp + 8) n

/-! ## Registers -/

/-- The general registers that are saved, which is all of them but `rsp`. -/
inductive Reg
  | rax | rbx | rcx | rdx | rbp | rdi | rsi | r8 | r9 | r10 | r11 | r12 | r13 | r14 | r15
deriving DecidableEq, Repr

/-- The processor, as far as a context switch changes it. -/
structure Cpu where
  mem : UInt64 → UInt8
  regs : Reg → UInt64
  rsp : UInt64
  rip : UInt64
  cs : UInt64
  rflags : UInt64
  ss : UInt64

namespace Cpu

/-- `push` of a register. -/
def push (c : Cpu) (r : Reg) : Cpu :=
  { c with mem := apply c.mem (storeWord (c.rsp - 8) (c.regs r)), rsp := c.rsp - 8 }

/-- `pop` into a register. -/
def pop (c : Cpu) (r : Reg) : Cpu :=
  { c with regs := Function.update c.regs r (loadWord c.mem c.rsp), rsp := c.rsp + 8 }

/-- `pushState` -/
def pushState (c : Cpu) : Cpu :=
  [.rax, .rbx, .rcx, .rdx, .rbp, .rdi, .rsi, .r8, .r9, .r10, .r11, .r12, .r13, .r14, .r15].foldl
    push c

/-- `popState` -/
def popState (c : Cpu) : Cpu :=
  [.r15, .r14, .r13, .r12, .r11, .r10, .r9, .r8, .rsi, .rdi, .rbp, .rdx, .rcx, .rbx, .rax].foldl
    pop c

/-- `iretq` pops the instruction pointer, the code segment, the flags, the stack pointer and
the stack segment. -/
def iretq (c : Cpu) : Cpu :=
  { c with
    rip := loadWord c.mem c.rsp
    cs := loadWord c.mem (c.rsp + 8)
    rflags := loadWord c.mem (c.rsp + 8 + 8)
    rsp := loadWord c.mem (c.rsp + 8 + 8 + 8)
    ss := loadWord c.mem (c.rsp + 8 + 8 + 8 + 8) }

/-- The end of `_irq00Handler`: the stack that `schedule` has returned, then `popState` and
`iretq`. -/
def switchTo (c : Cpu) (rsp : UInt64) : Cpu := ({ c with rsp := rsp }.popState).iretq

end Cpu

/-! ## The first stack -/

/-- `DEFAULT_STACK_SIZE` -/
def DEFAULT_STACK_SIZE : UInt64 := 0x8000

/-- `KERNEL_CS` -/
def KERNEL_CS : UInt64 := 0x8

/-- `KERNEL_SS` -/
def KERNEL_SS : UInt64 := 0x0

/-- `INITIAL_RFLAGS` -/
def INITIAL_RFLAGS : UInt64 := 0x202

/-- What `prepareStack` reads of a process: `argc` and `argv` are the fields in which
`newProcess` has stored them. -/
structure ProcessCDT where
  stackBase : UInt64
  stackSize : UInt64
  rsp : UInt64
  rip : UInt64
  argc : Int32
  argv : UInt64

/-- The part of `newProcess` about the stack.  `argc` and `argv` are what it stores: the count of
the caller and the copy of its arguments where the count is positive and there are arguments, and
otherwise 0 and `NULL`. -/
def newProcess (entryPoint stackBase stackSize : UInt64) (argc : Int32) (argv : UInt64) :
    ProcessCDT where
  stackBase := stackBase
  stackSize := stackSize
  rsp := stackBase + stackSize
  rip := entryPoint
  argc := argc
  argv := argv

/-- `getStackMisalignment` -/
def getStackMisalignment (process : ProcessCDT) : UInt64 :=
  if process.stackBase = 0 ∨ process.rsp = 0 then 0
  else
    let mis := (process.rsp - process.stackBase) % 8
    if mis ≠ 0 then 8 - mis else 0

/-- The words that `prepareStack` writes, in its order. -/
def firstWords (process : ProcessCDT) : List UInt64 :=
  [KERNEL_SS, process.rsp, INITIAL_RFLAGS, KERNEL_CS, process.rip] ++ List.replicate 5 0 ++
    [process.argc.toUInt32.toUInt64, process.argv] ++ List.replicate 8 0

/-- `prepareStack`: what it writes, and the process with its stack pointer. -/
def prepareStack (process : ProcessCDT) : List (UInt64 × UInt8) × ProcessCDT :=
  let sp := process.rsp - getStackMisalignment process
  (pushAll sp (firstWords process),
    { process with rsp := pushed sp (firstWords process).length })

/-! ## Pushing and popping -/

/-- The address that lies `d` bytes below `sp`. -/
def below (sp : UInt64) (d : Nat) : UInt64 := sp - UInt64.ofNat d

theorem below_inj {sp : UInt64} {d d' : Nat} (hd : d < 2 ^ 64) (hd' : d' < 2 ^ 64)
    (h : below sp d = below sp d') : d = d' := by
  have htoNat := congrArg UInt64.toNat h
  simp only [below, UInt64.toNat_sub, UInt64.toNat_ofNat'] at htoNat
  omega

theorem below_push (sp : UInt64) (d : Nat) : below (sp - 8) d = below sp (d + 8) := by
  have height : (8 : UInt64).toNat = 8 := rfl
  apply UInt64.toNat_inj.mp
  simp only [below, UInt64.toNat_sub, UInt64.toNat_ofNat', height]
  omega

theorem byteOf_below (sp : UInt64) {d i : Nat} (hi : i ≤ d) :
    byteOf (below sp d) i = below sp (d - i) := by
  apply UInt64.toNat_inj.mp
  simp only [byteOf, below, UInt64.toNat_sub, UInt64.toNat_add, UInt64.toNat_ofNat']
  omega

theorem below_pop (sp : UInt64) (d : Nat) : below sp (d + 8) + 8 = below sp d :=
  byteOf_below sp (Nat.le_add_left 8 d)

theorem pushed_eq (sp : UInt64) (n : Nat) : pushed sp n = below sp (8 * n) := by
  induction n generalizing sp with
  | zero => exact (UInt64.sub_zero sp).symm
  | succ n ih => rw [pushed, ih, below_push, Nat.mul_succ]

/-- Whatever is pushed lies below the stack pointer, but not below where that ends. -/
theorem exists_depth {sp : UInt64} {vs : List UInt64} {s : UInt64 × UInt8} (h : s ∈ pushAll sp vs) :
    ∃ d, 1 ≤ d ∧ d ≤ 8 * vs.length ∧ s.1 = below sp d := by
  induction vs generalizing sp with
  | nil => cases h
  | cons v vs ih =>
      rw [List.length_cons]
      rcases List.mem_append.mp h with h | h
      · obtain ⟨i, hi, heq⟩ := exists_of_mem_bytesAt h
        rw [length_toBytes] at hi
        exact ⟨8 - i, by omega, by omega, heq.trans (byteOf_below sp hi.le)⟩
      · obtain ⟨d, hd, hle, heq⟩ := ih h
        exact ⟨d + 8, by omega, by omega, heq.trans (below_push sp d)⟩

theorem distinct_byteOf (sp : UInt64) : Distinct (byteOf sp) 8 := by
  intro i hi j hj heq
  have htoNat := congrArg UInt64.toNat heq
  simp only [byteOf, UInt64.toNat_add, UInt64.toNat_ofNat'] at htoNat
  omega

theorem loadWord_storeWord (m : UInt64 → UInt8) (sp v : UInt64) :
    loadWord (apply m (storeWord sp v)) sp = v := by
  have hread : read (apply m (storeWord sp v)) (byteOf sp) 8 = toBytes 8 v.toNat := by
    refine read_eq (length_toBytes 8 v.toNat) fun i hi ↦ apply_bytesAt ?_ hi
    rw [length_toBytes]
    exact distinct_byteOf sp
  have hlt : v.toNat % 256 ^ 8 = v.toNat := Nat.mod_eq_of_lt v.toNat_lt
  rw [loadWord, hread, ofBytes_toBytes, hlt, UInt64.ofNat_toNat]

theorem pushed_pop (sp : UInt64) (n : Nat) : pushed sp (n + 1) + 8 = pushed sp n := by
  rw [pushed_eq, pushed_eq, Nat.mul_succ, below_pop]

/-- The last word that is popped is the one that was pushed first. -/
theorem popWords_succ (m : UInt64 → UInt8) (sp : UInt64) (n : Nat) :
    popWords m (pushed sp n) (n + 1) = popWords m (pushed sp n) n ++ [loadWord m sp] := by
  induction n with
  | zero => rfl
  | succ n ih =>
      rw [popWords, pushed_pop, ih, popWords, pushed_pop, List.cons_append]

/-- **Words are popped in the reverse of the order in which they were pushed.** -/
theorem popWords_pushAll (m : UInt64 → UInt8) (sp : UInt64) {vs : List UInt64}
    (hlength : 8 * vs.length < 2 ^ 64) :
    popWords (apply m (pushAll sp vs)) (pushed sp vs.length) vs.length = vs.reverse := by
  induction vs generalizing m sp with
  | nil => rfl
  | cons v vs ih =>
      rw [List.length_cons] at hlength ⊢
      have hlater := ih (apply m (storeWord (sp - 8) v)) (sp - 8) (by omega)
      -- the later words lie below the first one
      have hfirst : loadWord (apply m (pushAll sp (v :: vs))) (sp - 8) = v := by
        rw [pushAll, apply_append]
        refine Eq.trans ?_ (loadWord_storeWord m (sp - 8) v)
        refine congrArg (fun bs ↦ UInt64.ofNat (ofBytes bs)) (read_apply fun s hs i hi heq ↦ ?_)
        obtain ⟨d, hd, hle, hs⟩ := exists_depth hs
        have hbyte : below sp (d + 8) = below sp (8 - i) := by
          rw [← below_push, ← hs, heq]
          exact byteOf_below sp hi.le
        have := below_inj (by omega) (by omega) hbyte
        omega
      rw [← apply_append, ← pushAll] at hlater
      rw [pushed, popWords_succ, hlater, hfirst, List.reverse_cons]

/-! ## Saving and restoring registers -/

namespace Cpu

/-- Registers are pushed. -/
theorem foldl_push (c : Cpu) (rs : List Reg) : rs.foldl push c =
    { c with
      mem := apply c.mem (pushAll c.rsp (rs.map c.regs)), rsp := pushed c.rsp rs.length } := by
  induction rs generalizing c with
  | nil => rfl
  | cons r rs ih =>
      rw [List.foldl_cons, ih, List.map_cons, pushAll, apply_append]
      rfl

/-- Registers are popped, each one once, so that a later pop does not overwrite it; `n` more
words can be popped after them. -/
theorem foldl_pop (c : Cpu) {rs : List Reg} (hnodup : rs.Nodup) (n : Nat) :
    rs.map (rs.foldl pop c).regs ++ popWords c.mem (rs.foldl pop c).rsp n =
        popWords c.mem c.rsp (rs.length + n) ∧
      (rs.foldl pop c).mem = c.mem ∧ ∀ r ∉ rs, (rs.foldl pop c).regs r = c.regs r := by
  induction rs generalizing c with
  | nil =>
      rw [List.length_nil, Nat.zero_add]
      exact ⟨rfl, rfl, fun _ _ ↦ rfl⟩
  | cons r rs ih =>
      obtain ⟨hr, hnodup⟩ := List.nodup_cons.mp hnodup
      obtain ⟨hpopped, hmem, hother⟩ := ih (c.pop r) hnodup
      rw [List.foldl_cons]
      refine ⟨?_, hmem, fun r' hr' ↦ ?_⟩
      · rw [List.length_cons, Nat.add_right_comm, popWords, List.map_cons, List.cons_append,
          hother r hr]
        congr 1
        exact Function.update_self _ _ _
      · rw [hother r' (List.not_mem_of_not_mem_cons hr')]
        exact Function.update_of_ne (List.ne_of_not_mem_cons hr') _ _

/-- The order of `pushState`. -/
def saved : List Reg :=
  [.rax, .rbx, .rcx, .rdx, .rbp, .rdi, .rsi, .r8, .r9, .r10, .r11, .r12, .r13, .r14, .r15]

theorem mem_saved (r : Reg) : r ∈ saved := by
  cases r <;> decide

/-- `popState` pops the registers in the reverse of the order of `pushState`. -/
theorem popState_eq (c : Cpu) : c.popState = saved.reverse.foldl pop c := rfl

theorem foldl_pop_rsp (c : Cpu) {rs : List Reg} {sp : UInt64} (h : c.rsp = pushed sp rs.length) :
    (rs.foldl pop c).rsp = sp := by
  induction rs generalizing c with
  | nil => exact h
  | cons r rs ih =>
      refine ih (c.pop r) ?_
      change c.rsp + 8 = _
      rw [h, List.length_cons, pushed_pop]

/-- If the words on the stack are those of the registers `f`, they are popped into them, and
whatever words lie above can be popped after them. -/
theorem popState_regs (c : Cpu) (f : Reg → UInt64) (words : List UInt64)
    (h : popWords c.mem c.rsp (saved.length + words.length) = (saved.map f).reverse ++ words) :
    c.popState.regs = f ∧ popWords c.mem c.popState.rsp words.length = words := by
  have hnodup : saved.reverse.Nodup := by decide
  obtain ⟨hpopped, -, -⟩ := c.foldl_pop hnodup words.length
  rw [← popState_eq, List.length_reverse, h, ← List.map_reverse] at hpopped
  obtain ⟨hregs, hwords⟩ := List.append_inj hpopped (by rw [List.length_map, List.length_map])
  refine ⟨?_, hwords⟩
  ext r
  rw [List.map_inj_left.mp hregs r (List.mem_reverse.mpr (mem_saved r))]

/-- **`popState` restores the registers that `pushState` has saved.** -/
theorem popState_pushState (c : Cpu) :
    c.pushState.popState.regs = c.regs ∧ c.pushState.popState.rsp = c.rsp := by
  have hpush : c.pushState = { c with
      mem := apply c.mem (pushAll c.rsp (saved.map c.regs)), rsp := pushed c.rsp saved.length } :=
    c.foldl_push saved
  have hlength : (saved.map c.regs).length = saved.length := List.length_map _
  constructor
  · refine (popState_regs c.pushState c.regs [] ?_).1
    rw [hpush, List.append_nil, ← popWords_pushAll c.mem c.rsp (by rw [hlength]; decide), hlength]
    rfl
  · exact foldl_pop_rsp _ (by rw [hpush]; rfl)

end Cpu

/-! ## The first switch to a process -/

/-- The general registers of a process that starts. -/
def firstRegs (argc : Int32) (argv : UInt64) : Reg → UInt64
  | .rdi => argc.toUInt32.toUInt64
  | .rsi => argv
  | _ => 0

/-- The words that `iretq` pops. -/
def interruptFrame (process : ProcessCDT) : List UInt64 :=
  [process.rip, KERNEL_CS, INITIAL_RFLAGS, process.rsp, KERNEL_SS]

/-- The words are those that an interrupt and `pushState` would leave behind. -/
theorem firstWords_eq (process : ProcessCDT) : firstWords process =
    (interruptFrame process).reverse ++ Cpu.saved.map (firstRegs process.argc process.argv) := rfl

/-- The stack of `DEFAULT_STACK_SIZE` bytes leaves the stack pointer aligned with its base. -/
theorem getStackMisalignment_newProcess (entryPoint stackBase argv : UInt64) (argc : Int32) :
    getStackMisalignment (newProcess entryPoint stackBase DEFAULT_STACK_SIZE argc argv) = 0 := by
  have hoffset : stackBase + DEFAULT_STACK_SIZE - stackBase = DEFAULT_STACK_SIZE := by
    rw [UInt64.add_comm, UInt64.add_sub_cancel]
  unfold getStackMisalignment newProcess
  dsimp only
  rw [hoffset]
  split
  · rfl
  · rfl

/-- `prepareStack`, and later the switch to the process. -/
def Cpu.start (c : Cpu) (process : ProcessCDT) : Cpu :=
  { c with mem := apply c.mem (prepareStack process).1 }.switchTo (prepareStack process).2.rsp

/-- The words of `prepareStack` are popped in the order that `popState` and `iretq` expect. -/
theorem popWords_prepareStack (m : UInt64 → UInt8) {process : ProcessCDT}
    (hmis : getStackMisalignment process = 0) :
    popWords (apply m (prepareStack process).1) (prepareStack process).2.rsp
        (Cpu.saved.length + (interruptFrame process).length) =
      (Cpu.saved.map (firstRegs process.argc process.argv)).reverse ++ interruptFrame process := by
  have hlength : 8 * (firstWords process).length < 2 ^ 64 := by simp [firstWords]
  have hpops := popWords_pushAll m process.rsp hlength
  rw [prepareStack, hmis, UInt64.sub_zero]
  refine hpops.trans ?_
  rw [firstWords_eq, List.reverse_append, List.reverse_reverse]

/-- **`popState` and `iretq` take down what `prepareStack` has built.** -/
theorem start_spec (c : Cpu) {process : ProcessCDT} (hmis : getStackMisalignment process = 0) :
    (c.start process).regs = firstRegs process.argc process.argv ∧
      (c.start process).rip = process.rip ∧ (c.start process).cs = KERNEL_CS ∧
      (c.start process).rflags = INITIAL_RFLAGS ∧ (c.start process).rsp = process.rsp ∧
      (c.start process).ss = KERNEL_SS := by
  have hpops := popWords_prepareStack c.mem hmis
  rw [Cpu.start, Cpu.switchTo]
  generalize (prepareStack process).1 = written at hpops ⊢
  generalize (prepareStack process).2.rsp = rsp at hpops ⊢
  generalize hstack : ({ { c with mem := apply c.mem written } with rsp := rsp } : Cpu) = stack
  have hmem : stack.mem = apply c.mem written := by rw [← hstack]
  have hrsp : stack.rsp = rsp := by rw [← hstack]
  rw [← hmem, ← hrsp] at hpops
  obtain ⟨hregs, hwords⟩ := stack.popState_regs _ _ hpops
  have hmem' : stack.popState.mem = stack.mem :=
    (stack.foldl_pop (show Cpu.saved.reverse.Nodup by decide) 0).2.1
  rw [← hmem'] at hwords
  simp only [interruptFrame, popWords, List.length_cons, List.length_nil, List.cons.injEq,
    and_true] at hwords
  exact ⟨hregs, hwords⟩

/-- What a process finds when it starts: the processor, and what has been written to memory
for it. -/
structure Starts (entryPoint stackBase argv : UInt64) (argc : Int32) (c : Cpu)
    (written : List (UInt64 × UInt8)) : Prop where
  rip : c.rip = entryPoint
  rdi : ((c.regs .rdi).toNat : Int) = argc.toInt
  rsi : c.regs .rsi = argv
  others : ∀ r, r ≠ .rdi → r ≠ .rsi → c.regs r = 0
  cs : c.cs = 0x8
  rflags : c.rflags = 0x202
  ss : c.ss = 0
  rsp : c.rsp = stackBase + DEFAULT_STACK_SIZE
  /-- Every byte lies in the stack, counted from its base. -/
  inside : ∀ s ∈ written, s.1 - stackBase < DEFAULT_STACK_SIZE

/-- `argc` is passed as an unsigned word. -/
theorem toNat_argc {argc : Int32} (h : 0 ≤ argc.toInt) :
    (argc.toUInt32.toUInt64.toNat : Int) = argc.toInt := by
  have hsigned : argc.toInt = argc.toBitVec.toInt := rfl
  have hword : argc.toUInt32.toUInt64.toNat = argc.toBitVec.toNat := rfl
  rw [hsigned, BitVec.toInt_eq_toNat_cond] at h ⊢
  rw [hword]
  split at h
  · rw [if_pos ‹_›]
  · have := argc.toBitVec.isLt
    omega

/-- The words of `prepareStack` lie in the stack. -/
theorem below_sub_lt (stackBase : UInt64) {d : Nat} (hd : 1 ≤ d) (hle : d ≤ 160) :
    below (stackBase + DEFAULT_STACK_SIZE) d - stackBase < DEFAULT_STACK_SIZE := by
  have hsize : DEFAULT_STACK_SIZE.toNat = 0x8000 := rfl
  have hlt := stackBase.toNat_lt
  have hdepth : d % 2 ^ 64 = d := Nat.mod_eq_of_lt (by omega)
  rw [UInt64.lt_iff_toNat_lt]
  simp only [below, UInt64.toNat_sub, UInt64.toNat_add, UInt64.toNat_ofNat', hsize, hdepth]
  omega

/-- **The stack that `prepareStack` builds is one that `popState` and `iretq` take down**, and
`popState` restores what `pushState` has saved. -/
theorem first_switch (entryPoint stackBase argv : UInt64) {argc : Int32} (hargc : 0 ≤ argc.toInt)
    (c : Cpu) :
    Starts entryPoint stackBase argv argc
        (c.start (newProcess entryPoint stackBase DEFAULT_STACK_SIZE argc argv))
        (prepareStack (newProcess entryPoint stackBase DEFAULT_STACK_SIZE argc argv)).1 ∧
      ∀ r, c.pushState.popState.regs r = c.regs r := by
  constructor
  · have hmis := getStackMisalignment_newProcess entryPoint stackBase argv argc
    obtain ⟨hregs, hrip, hcs, hrflags, hrsp, hss⟩ := start_spec c hmis
    constructor
    · exact hrip
    · rw [hregs]
      exact toNat_argc hargc
    · exact congrFun hregs .rsi
    · intro r hrdi hrsi
      rw [hregs]
      cases r with
      | rdi => exact absurd rfl hrdi
      | rsi => exact absurd rfl hrsi
      | _ => rfl
    · exact hcs
    · exact hrflags
    · exact hss
    · exact hrsp
    · intro s hs
      rw [prepareStack, hmis, UInt64.sub_zero] at hs
      obtain ⟨d, hd, hle, heq⟩ := exists_depth hs
      rw [heq]
      exact below_sub_lt stackBase hd (by simpa [firstWords] using hle)
  · intro r
    rw [c.popState_pushState.1]

/-- A process with two arguments, on a processor whose memory and registers hold ones. -/
theorem first_switch_two :
    let c : Cpu := ⟨fun _ ↦ 0xFF, fun _ ↦ 0xFF, 0xFF, 0xFF, 0xFF, 0xFF, 0xFF⟩
    Starts 0x400000 0x600000 0x700000 2
        (c.start (newProcess 0x400000 0x600000 DEFAULT_STACK_SIZE 2 0x700000))
        (prepareStack (newProcess 0x400000 0x600000 DEFAULT_STACK_SIZE 2 0x700000)).1 ∧
      ∀ r, c.pushState.popState.regs r = c.regs r :=
  first_switch 0x400000 0x600000 0x700000 (by decide) _

end BareBones.Process.ContextSwitch
