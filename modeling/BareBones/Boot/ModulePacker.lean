import BareBones.Boot.KernelLib

/-!
# The module packer

`mp.bin` is the tool of the build that appends the modules of userland to the kernel: the image
is the kernel, the number of modules in a word, and for each module its size in a word and its
bytes.

A file is read in pieces of `BUFFER_SIZE` until `feof` says that a read came to its end, which
takes one more read, of nothing, where the size is a multiple of the piece (`write_file_eq`).

**Key results**

- `buildImage_eq`: the image of any list of files that can be read.
-/

namespace BareBones.Boot

/-- The file system of the host: what is in a file that can be read. -/
abbrev Host := String → Option (List UInt8)

/-- A `FILE` that is read: the bytes that are left of it, and the indicator of `feof`. -/
structure Source where
  left : List UInt8
  feof : Bool

/-- `fopen(name, "r")` -/
def fopen (host : Host) (name : String) : Option Source := (host name).map (⟨·, false⟩)

/-- `fread(buffer, 1, size, source)`, with the bytes that are in the buffer after it. -/
def fread (size : Nat) (source : Source) : List UInt8 × Source :=
  (source.left.take size,
    { left := source.left.drop size
      feof := source.feof || source.left.length < size })

def BUFFER_SIZE : Nat := 128

/-- What `write_file(target, source)` appends to the target. -/
def write_file (source : Source) : List UInt8 :=
  if source.feof then []
  else (fread BUFFER_SIZE source).1 ++ write_file (fread BUFFER_SIZE source).2
termination_by source.left.length + (if source.feof then 0 else 1)
decreasing_by
  next h =>
    have hleft : (fread BUFFER_SIZE source).2.left.length = source.left.length - 128 :=
      List.length_drop
    by_cases hlast : source.left.length < 128
    · have hend : (fread BUFFER_SIZE source).2.feof = true := by
        simp only [fread, BUFFER_SIZE, hlast, decide_true, Bool.or_true]
      rw [hleft, if_pos hend, if_neg h]
      omega
    · have hmore : ¬(fread BUFFER_SIZE source).2.feof = true := by
        simp only [fread, BUFFER_SIZE, hlast, decide_false, Bool.or_false]
        exact h
      rw [hleft, if_neg hmore, if_neg h]
      omega

/-- The bytes of a word in a file. -/
def bytesOf (w : UInt32) : List UInt8 := [byteOf w 0, byteOf w 1, byteOf w 2, byteOf w 3]

/-- What `write_size(target, filename)` appends to the target. -/
def write_size (content : List UInt8) : List UInt8 := bytesOf (UInt32.ofNat content.length)

/-- What the loop over the files after the first one appends to the target. -/
def appendModules (host : Host) : List String → Option (List UInt8)
  | [] => some []
  | name :: names => do
      let source ← fopen host name
      let rest ← appendModules host names
      some (write_size source.left ++ write_file source ++ rest)

/-- `buildImage(fileArray, output_file)`, with what is in the output file after it. -/
def buildImage (host : Host) : List String → Option (List UInt8)
  | [] => none
  | kernel :: names => do
      let source ← fopen host kernel
      let rest ← appendModules host names
      some (write_file source ++ bytesOf (UInt32.ofNat names.length) ++ rest)

/-- `checkFiles(fileArray)` -/
def checkFiles (host : Host) (fileArray : List String) : Bool :=
  fileArray.all fun name ↦ (host name).isSome

/-- `main` after its arguments have been parsed, with what is in the output file when it
returns 0. -/
def packModules (host : Host) (fileArray : List String) : Option (List UInt8) :=
  if checkFiles host fileArray then buildImage host fileArray else none

/-! ## The image -/

/-- What follows the kernel in the image. -/
def payload (modules : List (List UInt8)) : List UInt8 :=
  bytesOf (UInt32.ofNat modules.length) ++
    modules.flatMap fun content ↦ bytesOf (UInt32.ofNat content.length) ++ content

@[simp] theorem length_bytesOf (w : UInt32) : (bytesOf w).length = 4 := rfl

/-- The pieces that are read are the file. -/
theorem write_file_eq (content : List UInt8) : write_file ⟨content, false⟩ = content := by
  induction hn : content.length using Nat.strong_induction_on generalizing content with
  | h n ih =>
      subst hn
      rw [write_file]
      simp only [fread, Bool.false_eq_true, if_false, Bool.false_or]
      by_cases hlast : content.length < BUFFER_SIZE
      · rw [decide_eq_true hlast, write_file, if_pos rfl, List.append_nil,
          List.take_of_length_le hlast.le]
      · have hshort : (content.drop BUFFER_SIZE).length < content.length := by
          simp only [List.length_drop, BUFFER_SIZE] at hlast ⊢
          omega
        rw [decide_eq_false hlast, ih _ hshort _ rfl, List.take_append_drop]

theorem appendModules_eq {host : Host} {names : List String} {modules : List (List UInt8)}
    (h : names.map host = modules.map some) : appendModules host names =
      some (modules.flatMap fun content ↦ bytesOf (UInt32.ofNat content.length) ++ content) := by
  induction names generalizing modules with
  | nil =>
      obtain rfl : modules = [] := List.map_eq_nil_iff.1 h.symm
      rfl
  | cons name names ih =>
      cases modules with
      | nil => cases h
      | cons content modules =>
          obtain ⟨hname, hnames⟩ := List.cons.inj h
          rw [appendModules, fopen, hname, ih hnames, List.flatMap_cons]
          simp only [Option.map_some, Option.bind_eq_bind, Option.bind_some, write_size,
            write_file_eq]

/-- **The image of the files**: the kernel and its payload. -/
theorem packModules_eq {host : Host} {kernelFile : String} {names : List String}
    {kernel : List UInt8} {modules : List (List UInt8)} (hkernel : host kernelFile = some kernel)
    (hmodules : names.map host = modules.map some) :
    packModules host (kernelFile :: names) = some (kernel ++ payload modules) := by
  have hcheck : checkFiles host (kernelFile :: names) := by
    rw [checkFiles, List.all_cons, hkernel, Option.isSome_some, Bool.true_and, List.all_eq_true]
    intro name hname
    have hmem : host name ∈ modules.map some := hmodules ▸ List.mem_map_of_mem hname
    obtain ⟨content, -, hcontent⟩ := List.mem_map.1 hmem
    rw [← hcontent, Option.isSome_some]
  have hlength : names.length = modules.length := by
    simpa using congrArg List.length hmodules
  rw [packModules, if_pos hcheck, buildImage, fopen, hkernel, appendModules_eq hmodules]
  simp only [Option.map_some, Option.bind_eq_bind, Option.bind_some, write_file_eq, hlength,
    payload, List.append_assoc]

end BareBones.Boot
