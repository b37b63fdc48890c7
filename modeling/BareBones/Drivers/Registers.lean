import Mathlib.Algebra.BigOperators.Group.List.Basic
import Mathlib.Data.List.Induction
import Mathlib.Tactic.NormNum

/-!
# The register dump

`registers.c`: each keyboard interrupt takes down the registers before it reads its byte, the
byte of F6 keeps them, and the command `registers` prints what has been kept.

The text of a dump is put together in a buffer of 600 bytes, without a check.  Its length does
not depend on the registers, and nothing of them is lost in it.

## Key results

- `printSnapshot_eq`: the command prints the registers of the last interrupt with the byte of
  F6, and nothing before the first.
- `registers_dump`: what it prints fits the buffer, and only these registers have this text.
-/

namespace BareBones.Drivers

/-- `StackFrame` -/
structure StackFrame where
  rax : UInt64
  rbx : UInt64
  rcx : UInt64
  rdx : UInt64
  rsi : UInt64
  rdi : UInt64
  rbp : UInt64
  rsp : UInt64
  r8 : UInt64
  r9 : UInt64
  r10 : UInt64
  r11 : UInt64
  r12 : UInt64
  r13 : UInt64
  r14 : UInt64
  r15 : UInt64
  rip : UInt64
  rflags : UInt64
  cs : UInt64
  ss : UInt64
deriving DecidableEq, Repr

namespace Registers

/-! ## Text -/

/-- The table of `uint64ToHex`. -/
def hexChars : List Char := "0123456789ABCDEF".toList

/-- `uint64ToHex`, without the zero at the end. -/
def uint64ToHex (value : UInt64) : List Char :=
  '0' :: 'x' :: (List.range 16).reverse.map fun i ↦
    hexChars.getD ((value >>> UInt64.ofNat (i * 4)) &&& 0xF).toNat '0'

/-- `add_register_to_buffer`; the buffer is the text up to `pos`. -/
def add_register_to_buffer (output_buffer : List Char) (reg_name : String) (value : UInt64) :
    List Char :=
  output_buffer ++ reg_name.toList ++ uint64ToHex value ++ ['\n']

/-- The calls of `add_register_to_buffer` in `print_registers`. -/
def lines (frame : StackFrame) : List (String × UInt64) := [
  ("RAX: ", frame.rax), ("RBX: ", frame.rbx), ("RCX: ", frame.rcx), ("RDX: ", frame.rdx),
  ("RSI: ", frame.rsi), ("RDI: ", frame.rdi), ("RBP: ", frame.rbp), ("RSP: ", frame.rsp),
  ("R8:  ", frame.r8), ("R9:  ", frame.r9), ("R10: ", frame.r10), ("R11: ", frame.r11),
  ("R12: ", frame.r12), ("R13: ", frame.r13), ("R14: ", frame.r14), ("R15: ", frame.r15),
  ("RIP: ", frame.rip), ("RFLAGS: ", frame.rflags), ("CS:  ", frame.cs), ("SS:  ", frame.ss)]

/-- `header` -/
def header : List Char := "\n=== REGISTER DUMP ===\n".toList

/-- `footer` -/
def footer : List Char := "==================\n\n".toList

/-- The size of `output_buffer`. -/
def BUFFER_SIZE : Nat := 600

/-- `print_registers`: the text that it writes. -/
def print_registers (frame : StackFrame) : List Char :=
  (lines frame).foldl (fun output_buffer line ↦
    add_register_to_buffer output_buffer line.1 line.2) header ++ footer

/-! ## Snapshots -/

/-- The static variables of `registers.c`. -/
structure Snapshots where
  snapshot : StackFrame
  savedSnapshot : StackFrame
  snapshotTaken : Bool
deriving DecidableEq, Repr

/-- `MULTI_BYTE_SCANCODE` -/
def MULTI_BYTE_SCANCODE : UInt8 := 0xE0

/-- `SNAPSHOT_SCANCODE` -/
def SNAPSHOT_SCANCODE : UInt8 := 0x40

/-- `createRegisterSnapshot` -/
def createRegisterSnapshot (frame : StackFrame) (r : Snapshots) : Snapshots :=
  { r with snapshot := frame }

/-- `saveRegisterSnapshot` -/
def saveRegisterSnapshot (r : Snapshots) : Snapshots :=
  { r with snapshotTaken := true, savedSnapshot := r.snapshot }

/-- `printSnapshot`: the text, if a snapshot has been taken. -/
def printSnapshot (r : Snapshots) : Option (List Char) :=
  if ¬r.snapshotTaken then none else some (print_registers r.savedSnapshot)

/-- A keyboard interrupt: the registers it finds, and the byte, if there is one. -/
structure Interrupt where
  frame : StackFrame
  scancode : Option UInt8
deriving DecidableEq, Repr

/-- What `keyboardInterrupt` does about snapshots. -/
def keyboardInterrupt (scancode : Option UInt8) (r : Snapshots) : Snapshots :=
  match scancode with
  | none => r
  | some scancode =>
      if scancode = MULTI_BYTE_SCANCODE then r
      else if scancode = SNAPSHOT_SCANCODE then saveRegisterSnapshot r
      else r

/-- `_irq01Handler` -/
def irq01Handler (r : Snapshots) (i : Interrupt) : Snapshots :=
  keyboardInterrupt i.scancode (createRegisterSnapshot i.frame r)

/-- No snapshot has been taken yet. -/
def start (frame : StackFrame) : Snapshots := ⟨frame, frame, false⟩

/-- The last interrupt that brought the byte of F6. -/
def lastF6 (is : List Interrupt) : Option Interrupt :=
  is.reverse.find? fun i ↦ i.scancode = some SNAPSHOT_SCANCODE

/-! ## What a dump says -/

theorem hexChars_injective {m n : Nat} (hm : m < 16) (hn : n < 16)
    (h : hexChars.getD m '0' = hexChars.getD n '0') : m = n := by
  have hall : ∀ m < 16, ∀ n < 16, hexChars.getD m '0' = hexChars.getD n '0' → m = n := by decide
  exact hall m hm n hn h

/-- A digit of the text is one of the number. -/
theorem toNat_digit (value : UInt64) {i : Nat} (hi : i < 16) :
    ((value >>> UInt64.ofNat (i * 4)) &&& 0xF).toNat = value.toNat / 16 ^ i % 16 := by
  have hshift : (UInt64.ofNat (i * 4)).toNat % 64 = i * 4 := by
    rw [UInt64.toNat_ofNat']
    omega
  rw [UInt64.toNat_and, UInt64.toNat_shiftRight, hshift]
  change value.toNat >>> (i * 4) &&& 2 ^ 4 - 1 = _
  rw [Nat.and_two_pow_sub_one_eq_mod, Nat.shiftRight_eq_div_pow, Nat.mul_comm, Nat.pow_mul]

/-- Numbers with the same digits are equal. -/
theorem mod_eq_of_digits {a b n : Nat} (h : ∀ i < n, a / 16 ^ i % 16 = b / 16 ^ i % 16) :
    a % 16 ^ n = b % 16 ^ n := by
  induction n with
  | zero => rw [Nat.pow_zero, Nat.mod_one, Nat.mod_one]
  | succ n ih =>
      have hlow := ih fun i hi ↦ h i (Nat.lt_succ_of_lt hi)
      have hdigit := h n (Nat.lt_succ_self n)
      rw [Nat.mod_pow_succ, Nat.mod_pow_succ, hlow, hdigit]

/-- Nothing of the number is lost. -/
theorem uint64ToHex_injective {v w : UInt64} (h : uint64ToHex v = uint64ToHex w) : v = w := by
  have hdigits : ∀ i < 16, v.toNat / 16 ^ i % 16 = w.toNat / 16 ^ i % 16 := by
    intro i hi
    have hsame := List.map_inj_left.mp (List.cons.inj (List.cons.inj h).2).2 i (by simpa using hi)
    rw [toNat_digit v hi, toNat_digit w hi] at hsame
    exact hexChars_injective (Nat.mod_lt _ (by decide)) (Nat.mod_lt _ (by decide)) hsame
  have hall := mod_eq_of_digits hdigits
  have hv : v.toNat < 16 ^ 16 := v.toNat_lt
  have hw : w.toNat < 16 ^ 16 := w.toNat_lt
  rw [Nat.mod_eq_of_lt hv, Nat.mod_eq_of_lt hw] at hall
  exact UInt64.toNat_inj.mp hall

theorem length_uint64ToHex (value : UInt64) : (uint64ToHex value).length = 18 := by
  simp [uint64ToHex]

/-- The text of some lines. -/
def text (ls : List (String × UInt64)) : List Char :=
  ls.flatMap fun line ↦ line.1.toList ++ uint64ToHex line.2 ++ ['\n']

theorem foldl_lines (output_buffer : List Char) (ls : List (String × UInt64)) :
    ls.foldl (fun output_buffer line ↦ add_register_to_buffer output_buffer line.1 line.2)
      output_buffer = output_buffer ++ text ls := by
  induction ls generalizing output_buffer with
  | nil => exact (List.append_nil _).symm
  | cons line ls ih =>
      rw [List.foldl_cons, ih]
      simp [text, add_register_to_buffer]

theorem print_registers_eq (frame : StackFrame) :
    print_registers frame = header ++ text (lines frame) ++ footer := by
  rw [print_registers, foldl_lines]

/-- Lines with the same names and the same text have the same values. -/
theorem text_injective {ls ls' : List (String × UInt64)}
    (hnames : ls.map Prod.fst = ls'.map Prod.fst) (h : text ls = text ls') : ls = ls' := by
  induction ls generalizing ls' with
  | nil => exact (List.map_eq_nil_iff.mp hnames.symm).symm
  | cons line ls ih =>
      cases ls' with
      | nil => cases hnames
      | cons line' ls' =>
          obtain ⟨hname, hrest⟩ := List.cons.inj hnames
          obtain ⟨name, value⟩ := line
          obtain ⟨name', value'⟩ := line'
          obtain rfl : name = name' := hname
          have hsplit : name.toList ++ uint64ToHex value ++ ['\n'] ++ text ls =
              name.toList ++ uint64ToHex value' ++ ['\n'] ++ text ls' := h
          obtain ⟨hline, htext⟩ := List.append_inj hsplit (by simp [length_uint64ToHex])
          have hvalue := List.append_cancel_left (List.append_cancel_right hline)
          rw [uint64ToHex_injective hvalue, ih hrest htext]

/-- **Only these registers have this text.** -/
theorem print_registers_injective {f g : StackFrame} (h : print_registers f = print_registers g) :
    f = g := by
  rw [print_registers_eq, print_registers_eq] at h
  have htext := List.append_cancel_left (List.append_cancel_right h)
  have hnames : (lines f).map Prod.fst = (lines g).map Prod.fst := rfl
  have hlines := text_injective hnames htext
  cases f
  cases g
  simpa [lines] using hlines

theorem length_text (ls : List (String × UInt64)) :
    (text ls).length = ((ls.map Prod.fst).map fun name ↦ name.toList.length + 19).sum := by
  induction ls with
  | nil => rfl
  | cons line ls ih =>
      have hcons : text (line :: ls) =
          line.1.toList ++ uint64ToHex line.2 ++ ['\n'] ++ text ls := rfl
      rw [hcons, List.map_cons, List.map_cons, List.sum_cons, List.length_append, ih,
        List.length_append, List.length_append, length_uint64ToHex]
      rfl

/-- Every dump has the same length. -/
theorem length_print_registers (frame : StackFrame) : (print_registers frame).length = 526 := by
  have hheader : header.length = 23 := by decide +kernel
  have hfooter : footer.length = 20 := by decide +kernel
  have hlines : (text (lines frame)).length = 483 := by
    rw [length_text]
    simp only [lines, List.map_cons, List.map_nil]
    decide +kernel
  rw [print_registers_eq, List.length_append, List.length_append, hheader, hfooter, hlines]

/-! ## What the command prints -/

/-- **The command prints the registers of the last F6.** -/
theorem printSnapshot_eq (frame : StackFrame) (is : List Interrupt) :
    printSnapshot (is.foldl irq01Handler (start frame)) =
      (lastF6 is).map fun i ↦ print_registers i.frame := by
  induction is using List.reverseRecOn with
  | nil => rfl
  | append_singleton is i ih =>
      rw [List.foldl_append]
      change printSnapshot (irq01Handler (is.foldl irq01Handler (start frame)) i) = _
      unfold lastF6 at ih ⊢
      rw [List.reverse_append, List.reverse_singleton, List.singleton_append, List.find?_cons]
      by_cases hF6 : i.scancode = some SNAPSHOT_SCANCODE
      · simp only [hF6, decide_true, Option.map_some]
        unfold irq01Handler
        rw [hF6]
        rfl
      · simp only [hF6, decide_false]
        rw [← ih]
        unfold irq01Handler keyboardInterrupt
        split
        · rfl
        next scancode hscancode =>
            have hne : scancode ≠ SNAPSHOT_SCANCODE := by
              rintro rfl
              exact hF6 hscancode
            rw [if_neg hne, ite_self]
            rfl

/-- **The dump.**  Before the first F6 the command prints nothing.  Afterwards it prints a text
that fits the buffer with its zero, and that no registers have but those that the last
interrupt with the byte of F6 has found. -/
theorem registers_dump (frame : StackFrame) (is : List Interrupt) :
    (lastF6 is = none → printSnapshot (is.foldl irq01Handler (start frame)) = none) ∧
    ∀ i, lastF6 is = some i → ∃ dump,
      printSnapshot (is.foldl irq01Handler (start frame)) = some dump ∧
      dump.length + 1 ≤ BUFFER_SIZE ∧ ∀ f, print_registers f = dump ↔ f = i.frame := by
  refine ⟨fun hnone ↦ ?_, fun i hi ↦ ⟨print_registers i.frame, ?_, ?_, fun f ↦ ?_⟩⟩
  · rw [printSnapshot_eq, hnone, Option.map_none]
  · rw [printSnapshot_eq, hi, Option.map_some]
  · rw [length_print_registers]
    decide
  · constructor
    · exact print_registers_injective
    · rintro rfl
      rfl

end Registers

end BareBones.Drivers
