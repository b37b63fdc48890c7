import BareBones.Boot.ModulePacker

/-!
# The module loader

At boot the image of the packer lies in memory from `0x100000` on.  `loadModules` reads the
payload behind the kernel and copies each module to its address, and `clearBSS` then zeroes the
part of memory where the payload was: the sections of the linker script follow each other, and
nothing of `.bss` is in the image.

The loop reads what it has not yet overwritten, so that what must not meet are the targets and
the payload, and any two targets (`Loads`).

**Key results**

- `loadModules_payload`: the loader undoes the packer, for all modules.
- `initializeKernelBinary_boots`: the kernel, both modules and a clean `.bss` after booting.
-/

namespace BareBones.Boot

open BareBones.Lib.Rows

variable {m m' : Ram} {a b n k : Nat} {bs cs : List UInt8}

/-! ## Bytes in memory -/

/-- The bytes `bs` lie in memory from `a` on. -/
def Holds (m : Ram) (a : Nat) (bs : List UInt8) : Prop :=
  ∀ i (h : i < bs.length), m (a + i) = bs[i]

/-- Neither of two regions reaches into the other one. -/
def Apart (a n b k : Nat) : Prop := a + n ≤ b ∨ b + k ≤ a

instance (a n b k : Nat) : Decidable (Apart a n b k) := inferInstanceAs (Decidable (_ ∨ _))

/-- Nor into a part of it. -/
theorem Apart.mono {b' k' : Nat} (h : Apart a n b k) (hb : b ≤ b') (hk : b' + k' ≤ b + k) :
    Apart a n b' k' := by
  rcases h with hle | hle
  · exact .inl (hle.trans hb)
  · exact .inr (hk.trans hle)

theorem holds_append : Holds m a (bs ++ cs) ↔ Holds m a bs ∧ Holds m (a + bs.length) cs := by
  constructor
  · intro h
    constructor
    · intro i hi
      rw [h i (by rw [List.length_append]; omega), List.getElem_append_left hi]
    · intro i hi
      rw [Nat.add_assoc, h (bs.length + i) (by rw [List.length_append]; omega),
        List.getElem_append_right (by omega)]
      congr 1
      omega
  · rintro ⟨hbs, hcs⟩ i hi
    by_cases hlt : i < bs.length
    · rw [hbs i hlt, List.getElem_append_left hlt]
    · obtain ⟨j, rfl⟩ := Nat.exists_eq_add_of_le (not_lt.1 hlt)
      rw [List.length_append] at hi
      rw [← Nat.add_assoc, hcs j (by omega), List.getElem_append_right (by omega)]
      congr 1
      omega

/-- Bytes stay where nothing is written. -/
theorem Holds.congr (h : Holds m a bs) (heq : ∀ i < bs.length, m' (a + i) = m (a + i)) :
    Holds m' a bs := by
  intro i hi
  rw [heq i hi, h i hi]

theorem Holds.blit {v : Nat → UInt8} (h : Holds m b bs) (hapart : Apart a n b bs.length) :
    Holds (blit m a n v) b bs := by
  refine h.congr fun i hi ↦ blit_other ?_
  rcases hapart with hle | hle
  · exact .inr (by omega)
  · exact .inl (by omega)

/-- A word of a file is the word that is read. -/
theorem loadUint32_of_holds {w : UInt32} (h : Holds m a (bytesOf w)) : loadUint32 m a = w := by
  refine loadUint32_eq fun i hi ↦ ?_
  rw [h i (by rwa [length_bytesOf])]
  obtain rfl | rfl | rfl | rfl : i = 0 ∨ i = 1 ∨ i = 2 ∨ i = 3 := by omega
  all_goals rfl

/-! ## The loader -/

/-- `readUint32(&address)`, with the pointer after it. -/
def readUint32 (m : Ram) (address : Nat) : UInt32 × Nat := (loadUint32 m address, address + 4)

/-- `loadModule(&module, targetModuleAddress)`, with the pointer after it. -/
def loadModule (m : Ram) (module targetModuleAddress : Nat) : Ram × Nat :=
  let (moduleSize, module) := readUint32 m module
  (memcpy targetModuleAddress module moduleSize.toNat m, module + moduleSize.toNat)

/-- The loop of `loadModules`; there is no result where it would read behind the array of the
targets. -/
def loadLoop : (count : Nat) → (targets : List Nat) → (m : Ram) → (currentModule : Nat) →
    Option Ram
  | 0, _, m, _ => some m
  | _ + 1, [], _, _ => none
  | count + 1, target :: targets, m, currentModule =>
      let (m, currentModule) := loadModule m currentModule target
      loadLoop count targets m currentModule

/-- `loadModules(payloadStart, targetModuleAddress)` -/
def loadModules (payloadStart : Nat) (targets : List Nat) (m : Ram) : Option Ram :=
  let (moduleCount, currentModule) := readUint32 m payloadStart
  loadLoop moduleCount.toNat targets m currentModule

/-- The modules may be copied to the targets: no target meets the payload, which lies from `a`
on and is `n` bytes long, and none meets another one. -/
structure Loads (targets : List Nat) (modules : List (List UInt8)) (a n : Nat) : Prop where
  room : modules.length ≤ targets.length
  sizes : ∀ content ∈ modules, content.length < 2 ^ 32
  payload : ∀ p ∈ targets.zip modules, Apart p.1 p.2.length a n
  targets : (targets.zip modules).Pairwise fun p q ↦ Apart p.1 p.2.length q.1 q.2.length

/-- The modules of a payload, each with its size. -/
def sections (modules : List (List UInt8)) : List UInt8 :=
  modules.flatMap fun content ↦ bytesOf (UInt32.ofNat content.length) ++ content

/-- What the loop leaves: every module at its target, and all else as it was. -/
structure Loaded (m m' : Ram) (targets : List Nat) (modules : List (List UInt8)) : Prop where
  holds : ∀ p ∈ targets.zip modules, Holds m' p.1 p.2
  other : ∀ j, (∀ p ∈ targets.zip modules, j < p.1 ∨ p.1 + p.2.length ≤ j) → m' j = m j

/-- One module is copied. -/
theorem loadModule_eq {target : Nat} (hsize : bs.length < 2 ^ 32)
    (hm : Holds m a (bytesOf (UInt32.ofNat bs.length) ++ bs))
    (hapart : Apart target bs.length a (4 + bs.length)) :
    loadModule m a target = (blit m target bs.length (fun i ↦ m (a + 4 + i)),
      a + 4 + bs.length) := by
  obtain ⟨hword, -⟩ := holds_append.1 hm
  have hread : (loadUint32 m a).toNat = bs.length := by
    rw [loadUint32_of_holds hword, UInt32.toNat_ofNat', Nat.mod_eq_of_lt hsize]
  simp only [loadModule, readUint32, hread]
  rw [memcpy_copies]
  rcases hapart with hle | hle
  · exact .inl (by omega)
  · exact .inr (by omega)

theorem loadLoop_sections {targets : List Nat} {modules : List (List UInt8)}
    (hm : Holds m a (sections modules))
    (hloads : Loads targets modules a (sections modules).length) :
    ∃ m', loadLoop modules.length targets m a = some m' ∧ Loaded m m' targets modules := by
  induction modules generalizing m a targets with
  | nil =>
      refine ⟨m, rfl, fun p hp ↦ ?_, fun j _ ↦ rfl⟩
      rw [List.zip_nil_right] at hp
      exact absurd hp List.not_mem_nil
  | cons content modules ih =>
      cases targets with
      | nil => exact absurd hloads.room (by simp)
      | cons target targets =>
          have hsections : sections (content :: modules) =
              (bytesOf (UInt32.ofNat content.length) ++ content) ++ sections modules := rfl
          have hlen : (sections (content :: modules)).length =
              4 + content.length + (sections modules).length := by
            rw [hsections, List.length_append, List.length_append, length_bytesOf]
          have hzip : (target :: targets).zip (content :: modules) =
              (target, content) :: targets.zip modules := rfl
          rw [hsections] at hm
          obtain ⟨hfirst, hrest⟩ := holds_append.1 hm
          rw [List.length_append, length_bytesOf] at hrest
          obtain ⟨hroom, hsizes, hpayload, htargets⟩ := hloads
          rw [hlen] at hpayload
          rw [hzip] at hpayload htargets
          obtain ⟨happart, hapart'⟩ := List.pairwise_cons.1 htargets
          have hhere := hpayload _ List.mem_cons_self
          have hcopy := loadModule_eq (hsizes content List.mem_cons_self) hfirst
            (hhere.mono le_rfl (by omega))
          -- the copy leaves the rest of the payload as it was
          have hkept : Holds (blit m target content.length fun i ↦ m (a + 4 + i))
              (a + (4 + content.length)) (sections modules) :=
            hrest.blit (hhere.mono (by omega) (by omega))
          rw [← Nat.add_assoc] at hkept
          obtain ⟨m', hrun, hloaded⟩ := ih hkept {
            room := Nat.le_of_succ_le_succ hroom
            sizes := fun c hc ↦ hsizes c (List.mem_cons_of_mem _ hc)
            payload := fun p hp ↦
              (hpayload p (List.mem_cons_of_mem _ hp)).mono (by omega) (by omega)
            targets := hapart' }
          refine ⟨m', ?_, ?_, ?_⟩
          · rw [List.length_cons, loadLoop, hcopy]
            exact hrun
          · intro p hp
            rw [hzip] at hp
            rcases List.mem_cons.1 hp with rfl | hp
            · -- the modules that follow leave the first one as it is
              intro i (hi : i < content.length)
              rw [hloaded.other (target + i) fun q hq ↦ ?_, blit_at hi]
              · obtain ⟨-, hcontent⟩ := holds_append.1 hfirst
                rw [length_bytesOf] at hcontent
                exact hcontent i hi
              · have hq' : Apart target content.length q.1 q.2.length := happart q hq
                rcases hq' with hle | hle
                · exact .inl (by omega)
                · exact .inr (by omega)
            · exact hloaded.holds p hp
          · intro j hj
            rw [hzip] at hj
            rw [hloaded.other j fun p hp ↦ hj p (List.mem_cons_of_mem _ hp),
              blit_other (hj _ List.mem_cons_self)]

/-- The loader finds what the packer has put behind the kernel. -/
theorem loadModules_loaded {targets : List Nat} {modules : List (List UInt8)}
    (hcount : modules.length < 2 ^ 32) (hm : Holds m a (payload modules))
    (hloads : Loads targets modules a (payload modules).length) :
    ∃ m', loadModules a targets m = some m' ∧ Loaded m m' targets modules := by
  obtain ⟨hword, hsections⟩ := holds_append.1 hm
  rw [length_bytesOf] at hsections
  have hlength : (payload modules).length = 4 + (sections modules).length := by
    rw [payload, List.length_append, length_bytesOf, sections]
  have hread : (loadUint32 m a).toNat = modules.length := by
    rw [loadUint32_of_holds hword, UInt32.toNat_ofNat', Nat.mod_eq_of_lt hcount]
  rw [hlength] at hloads
  simp only [loadModules, readUint32, hread]
  exact loadLoop_sections hsections { hloads with
    payload := fun p hp ↦ (hloads.payload p hp).mono (by omega) (by omega) }

/-- **The loader undoes the packer**: wherever the image of a kernel and its modules lies in
memory, each module gets to its target, and nothing else changes. -/
theorem packModules_loads {host : Host} {kernelFile : String} {names : List String}
    {kernel : List UInt8} {modules : List (List UInt8)} {targets : List Nat}
    (hkernel : host kernelFile = some kernel) (hmodules : names.map host = modules.map some)
    (hcount : modules.length < 2 ^ 32)
    (hloads : Loads targets modules (a + kernel.length) (payload modules).length) :
    ∃ image, packModules host (kernelFile :: names) = some image ∧ ∀ m, Holds m a image →
      ∃ m', loadModules (a + kernel.length) targets m = some m' ∧ Loaded m m' targets modules := by
  refine ⟨_, packModules_eq hkernel hmodules, fun m hm ↦ ?_⟩
  obtain ⟨-, hpayload⟩ := holds_append.1 hm
  exact loadModules_loaded hcount hpayload hloads

/-- The files of a build: a kernel of three bytes and two modules, of five bytes and of none. -/
def smallBuild : Host := fun name ↦
  if name = "kernel.bin" then some [1, 2, 3]
  else if name = "0000-sampleCodeModule.bin" then some [4, 5, 6, 7, 8]
  else if name = "0001-sampleDataModule.bin" then some []
  else none

theorem packModules_loads_two : ∃ image, packModules smallBuild ["kernel.bin",
      "0000-sampleCodeModule.bin", "0001-sampleDataModule.bin"] = some image ∧
    ∀ m, Holds m 0x100000 image →
      ∃ m', loadModules 0x100003 [0x400000, 0x500000] m = some m' ∧
        Loaded m m' [0x400000, 0x500000] [[4, 5, 6, 7, 8], []] := by
  have hkernel : smallBuild "kernel.bin" = some [1, 2, 3] := rfl
  exact packModules_loads hkernel rfl (by decide) ⟨by decide, by decide, by decide, by decide⟩

/-! ## The kernel boots -/

/-- The symbols of the linker script: `.text` and `.data` are in the image and `.bss` is not. -/
structure Layout where
  endOfKernelBinary : Nat
  bss : Nat
  endOfKernel : Nat
  text_le : 0x100000 ≤ endOfKernelBinary
  binary_le : endOfKernelBinary ≤ bss
  bss_le : bss ≤ endOfKernel

namespace Layout

variable (l : Layout)

def text : Nat := 0x100000

def sampleCodeModuleAddress : Nat := 0x400000

def sampleDataModuleAddress : Nat := 0x500000

def PageSize : Nat := 0x1000

/-- `clearBSS(&bss, &endOfKernel - &bss)` -/
def clearBSS (m : Ram) : Ram := memset l.bss 0 (l.endOfKernel - l.bss) m

/-- `getStackBase()` -/
def getStackBase : Nat := l.endOfKernel + PageSize * 8 - 8

/-- `initializeKernelBinary()`, with the memory after it. -/
def initializeKernelBinary (m : Ram) : Option (Ram × Nat) := do
  let m ← loadModules l.endOfKernelBinary [sampleCodeModuleAddress, sampleDataModuleAddress] m
  some (l.clearBSS m, l.getStackBase)

/-- **The kernel boots** from the image of the build: kernel and modules are where they belong
and `.bss` is zero, though the image lay across it, and the rest of memory is as it was. -/
theorem initializeKernelBinary_boots {host : Host} {kernelFile codeFile dataFile : String}
    {kernel code data : List UInt8} (hkernel : host kernelFile = some kernel)
    (hcode : host codeFile = some code) (hdata : host dataFile = some data)
    (hbinary : text + kernel.length = l.endOfKernelBinary)
    (hend : l.endOfKernel ≤ sampleCodeModuleAddress)
    (hsize : l.endOfKernelBinary + (payload [code, data]).length ≤ sampleCodeModuleAddress)
    (hroom : sampleCodeModuleAddress + code.length ≤ sampleDataModuleAddress) :
    ∃ image, packModules host [kernelFile, codeFile, dataFile] = some image ∧
      ∀ m, Holds m text image → ∃ m', l.initializeKernelBinary m = some (m', l.getStackBase) ∧
        Holds m' text kernel ∧ Holds m' sampleCodeModuleAddress code ∧
        Holds m' sampleDataModuleAddress data ∧
        (∀ j, l.bss ≤ j → j < l.endOfKernel → m' j = 0) ∧
        ∀ j, j < l.bss ∨ l.endOfKernel ≤ j →
          j < sampleCodeModuleAddress ∨ sampleCodeModuleAddress + code.length ≤ j →
          j < sampleDataModuleAddress ∨ sampleDataModuleAddress + data.length ≤ j → m' j = m j := by
  have hlengths : (payload [code, data]).length = 12 + code.length + data.length := by
    simp [payload]
    omega
  simp only [sampleCodeModuleAddress, sampleDataModuleAddress, text] at *
  have hmodules : [codeFile, dataFile].map host = [code, data].map some := by
    rw [List.map_cons, List.map_cons, List.map_nil, hcode, hdata]
    rfl
  refine ⟨_, packModules_eq hkernel hmodules, fun m hm ↦ ?_⟩
  obtain ⟨hkernel, hpayload⟩ := holds_append.1 hm
  rw [hbinary] at hpayload
  have hloads : Loads [0x400000, 0x500000] [code, data] l.endOfKernelBinary
      (payload [code, data]).length := {
      room := by simp
      sizes := by simp; omega
      payload := by
        simp only [List.zip_cons_cons, List.zip_nil_right, List.mem_cons, List.not_mem_nil,
          or_false, forall_eq_or_imp, forall_eq]
        exact ⟨.inr (by omega), .inr (by omega)⟩
      targets := by simp [Apart]; omega }
  obtain ⟨m', hrun, hholds, hother⟩ := loadModules_loaded (by simp) hpayload hloads
  simp only [List.zip_cons_cons, List.zip_nil_right, List.mem_cons, List.not_mem_nil, or_false,
    forall_eq_or_imp, forall_eq] at hholds hother
  obtain ⟨hcode', hdata'⟩ := hholds
  have hcleared : ∀ j, l.bss ≤ j → j < l.endOfKernel → l.clearBSS m' j = 0 := by
    intro j hle hlt
    obtain ⟨i, rfl⟩ := Nat.exists_eq_add_of_le hle
    rw [clearBSS, memset_eq, blit_at (by omega)]
    rfl
  have hkept : ∀ j, j < l.bss ∨ l.endOfKernel ≤ j → l.clearBSS m' j = m' j := by
    intro j hj
    have hle := l.bss_le
    rw [clearBSS, memset_eq, blit_other (by omega)]
  have htext := l.text_le
  have hle := l.binary_le
  refine ⟨l.clearBSS m', ?_, ?_, ?_, ?_, hcleared, ?_⟩
  · rw [initializeKernelBinary]
    simp only [sampleCodeModuleAddress, sampleDataModuleAddress, hrun, Option.bind_eq_bind,
      Option.bind_some]
  · refine hkernel.congr fun i hi ↦ ?_
    rw [hkept _ (.inl (by omega)), hother _ ⟨.inl (by omega), .inl (by omega)⟩]
  · exact hcode'.congr fun i _ ↦ hkept _ (.inr (by omega))
  · exact hdata'.congr fun i _ ↦ hkept _ (.inr (by omega))
  · intro j hbss hcode hdata
    rw [hkept j hbss, hother j ⟨hcode, hdata⟩]

/-- A kernel that ends in the middle of a page, and one page of `.bss` behind it. -/
def small : Layout where
  endOfKernelBinary := 0x100003
  bss := 0x101000
  endOfKernel := 0x102000
  text_le := by decide
  binary_le := by decide
  bss_le := by decide

theorem initializeKernelBinary_boots_small : ∃ image, packModules smallBuild ["kernel.bin",
      "0000-sampleCodeModule.bin", "0001-sampleDataModule.bin"] = some image ∧
    ∀ m, Holds m text image → ∃ m', small.initializeKernelBinary m = some (m', 0x109FF8) ∧
      Holds m' text [1, 2, 3] ∧ Holds m' sampleCodeModuleAddress [4, 5, 6, 7, 8] ∧
      Holds m' sampleDataModuleAddress [] ∧
      (∀ j, small.bss ≤ j → j < small.endOfKernel → m' j = 0) ∧
      ∀ j, j < small.bss ∨ small.endOfKernel ≤ j →
        j < sampleCodeModuleAddress ∨ sampleCodeModuleAddress + 5 ≤ j →
        j < sampleDataModuleAddress ∨ sampleDataModuleAddress + 0 ≤ j → m' j = m j := by
  have hcode : smallBuild "0000-sampleCodeModule.bin" = some [4, 5, 6, 7, 8] := rfl
  exact small.initializeKernelBinary_boots rfl hcode rfl rfl (by decide) (by decide) (by decide)

end Layout

end BareBones.Boot
