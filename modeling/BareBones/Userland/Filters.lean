import BareBones.IPC.FdDelivery
import BareBones.Userland.Shell
import BareBones.Userland.Stdio
import Mathlib.Data.List.Basic

/-!
# The commands at the end of a pipe

`cat`, `wc` and `filter` read their standard input until a read returns nothing, and write to
their standard output.  A command is a function of what its reads have returned so far; an
empty list is a read that returned zero or an error, after which the command leaves.

How a stream is cut into reads depends on the schedule of the processes.  What the commands
write, taken together, does not: it is a function of the bytes (`Filter.spec`).

**Key results.**

* `run_chunks`: what a command has written, whatever the reads that the stream came in.
* `pipeline_output`: at the end of a pipe a command leaves exactly when its reads have come
  to the end of the stream, and has then written `Filter.spec` of all that the processes at the
  other end wrote, NULs aside, in every run in which nobody is killed inside the pipe.
-/

namespace BareBones.Userland.Filters

open BareBones.Lib BareBones.Process BareBones.IPC Shell Stdio Cstandard

/-! ## The commands -/

/-- What a command has written, each write with its descriptor, and whether it has left. -/
structure Output where
  writes : List (Int × List UInt8)
  left : Bool
  deriving DecidableEq

/-- One more write, before the others. -/
def Output.write (o : Output) (fd : Int) (buf : List UInt8) : Output :=
  { o with writes := (fd, buf) :: o.writes }

/-- What was written to a descriptor. -/
def Output.text (o : Output) (fd : Int) : List UInt8 :=
  (o.writes.filter (·.1 = fd)).flatMap (·.2)

/-- The text of a string, as bytes. -/
def toBytes (text : List Char) : List UInt8 := text.map fun c ↦ UInt8.ofNat c.toNat

/-- `writeStr(STDERR, s); sys_exit();` -/
def refuse (s : String) : Output := ⟨[(STDERR, toBytes s.toList)], true⟩

/-- `catCommand` -/
def catCommand : (reads : List (List UInt8)) → Output
  | [] => ⟨[], false⟩
  | buf :: reads => if buf = [] then ⟨[], true⟩ else (catCommand reads).write STDOUT buf

/-- The counters of `wcCommand`. -/
structure Counts where
  lines : Int32
  words : Int32
  chars : Int32
  inWord : Bool
  deriving DecidableEq

/-- `c == ' ' || c == '\n' || c == '\t'` -/
def isSpace (c : UInt8) : Bool := c = 32 || c = 10 || c = 9

/-- The body of the loop over the bytes of a read. -/
def Counts.count (k : Counts) (c : UInt8) : Counts :=
  let k := { k with chars := k.chars + 1 }
  let k := if c = 10 then { k with lines := k.lines + 1 } else k
  if isSpace c then { k with inWord := false }
  else if !k.inWord then { k with inWord := true, words := k.words + 1 }
  else k

/-- What `wcCommand` prints, one character at a time. -/
def Counts.print (k : Counts) : Output :=
  let text := (vprintf "\n %d lineas, %d palabras, %d caracteres\n".toList
    [.int k.lines, .int k.words, .int k.chars]).getD []
  ⟨(toBytes text).map fun c ↦ (STDOUT, [c]), true⟩

/-- The loop of `wcCommand`. -/
def wcLoop : (reads : List (List UInt8)) → (k : Counts) → Output
  | [], _ => ⟨[], false⟩
  | buf :: reads, k => if buf = [] then k.print else wcLoop reads (buf.foldl Counts.count k)

/-- `wcCommand` -/
def wcCommand (argc : Nat) (reads : List (List UInt8)) : Output :=
  if argc > 1 then refuse "wc does not allow parameters\n" else wcLoop reads ⟨0, 0, 0, false⟩

/-- `isUpper` -/
def isUpper (c : UInt8) : Bool := 65 ≤ c && c ≤ 90

/-- `toLower` -/
def toLower (c : UInt8) : UInt8 := if isUpper c then c + 32 else c

/-- `isVowel` -/
def isVowel (c : UInt8) : Bool :=
  let c := toLower c
  c = 97 || c = 101 || c = 105 || c = 111 || c = 117

/-- The loop of `filterCommand`. -/
def filterLoop : (reads : List (List UInt8)) → Output
  | [] => ⟨[], false⟩
  | buf :: reads =>
      if buf = [] then ⟨[], true⟩
      else
        let out := buf.filter (!isVowel ·)
        if 0 < out.length then (filterLoop reads).write STDOUT out else filterLoop reads

/-- `filterCommand` -/
def filterCommand (argc : Nat) (reads : List (List UInt8)) : Output :=
  if argc > 1 then refuse "Filter does not allow parameter\n" else filterLoop reads

/-- A command that reads its standard input. -/
inductive Filter
  | cat
  | wc
  | filter
  deriving DecidableEq

/-- How many bytes it asks for: the size of its buffer. -/
def Filter.size : Filter → Nat
  | .cat => 64
  | .wc | .filter => 128

/-- What it has done after some reads. -/
def Filter.run : Filter → (argc : Nat) → (reads : List (List UInt8)) → Output
  | .cat, _, reads => catCommand reads
  | .wc, argc, reads => wcCommand argc reads
  | .filter, argc, reads => filterCommand argc reads

/-! ## What they are for -/

/-- The words of a stream are its pieces between spaces, those that are not empty. -/
def words (stream : List UInt8) : List (List UInt8) :=
  (stream.splitOnP isSpace).filter (· ≠ [])

/-- The number that `%d` prints for a count: it has 32 bits. -/
def shown (n : Nat) : List Char := decimal (Int32.ofNat n).toInt

/-- What a command writes for a stream. -/
def Filter.spec : Filter → List UInt8 → List UInt8
  | .cat, stream => stream
  | .wc, stream => toBytes ("\n ".toList ++ shown (stream.count 10) ++ " lineas, ".toList ++
      shown (words stream).length ++ " palabras, ".toList ++ shown stream.length ++
      " caracteres\n".toList)
  | .filter, stream => stream.filter (!isVowel ·)

/-! ## Counting -/

/-- The number of words that begin in a stream, after a byte of a word or not. -/
def wordsFrom (inWord : Bool) (stream : List UInt8) : Nat :=
  let pieces := stream.splitOnP isSpace
  (if inWord then pieces.tail else pieces).countP (· ≠ [])

theorem splitOnP_cons (c : UInt8) (stream : List UInt8) :
    ∃ piece pieces, stream.splitOnP isSpace = piece :: pieces ∧
      (c :: stream).splitOnP isSpace =
        if isSpace c then [] :: piece :: pieces else (c :: piece) :: pieces := by
  obtain ⟨piece, pieces, heq⟩ := List.exists_cons_of_ne_nil (List.splitOnP_ne_nil isSpace stream)
  refine ⟨piece, pieces, heq, ?_⟩
  rw [List.splitOnP_cons_eq_if_modifyHead, heq]
  split <;> rfl

theorem wordsFrom_cons (inWord : Bool) (c : UInt8) (stream : List UInt8) :
    wordsFrom inWord (c :: stream) = (if isSpace c then wordsFrom false stream
      else (if inWord then 0 else 1) + wordsFrom true stream) := by
  obtain ⟨piece, pieces, heq, hcons⟩ := splitOnP_cons c stream
  unfold wordsFrom
  rw [hcons, heq]
  by_cases hspace : isSpace c = true
  · rw [if_pos hspace, if_pos hspace]
    cases inWord <;> simp
  · rw [if_neg hspace, if_neg hspace]
    cases inWord
    · simp [Nat.add_comm]
    · simp

/-- One byte. -/
theorem count_eq (k : Counts) (c : UInt8) : k.count c =
    ⟨if c = 10 then k.lines + 1 else k.lines,
      if isSpace c then k.words else if k.inWord then k.words else k.words + 1,
      k.chars + 1, !isSpace c⟩ := by
  rcases k with ⟨lines, words, chars, inWord⟩
  unfold Counts.count
  by_cases hline : c = 10
  · subst hline
    rfl
  · rw [if_neg hline]
    by_cases hspace : isSpace c = true
    · simp [hline, hspace]
    · cases inWord <;> simp [hline, hspace]

/-- **The counters**, after any bytes. -/
theorem foldl_count (stream : List UInt8) (k : Counts) :
    (stream.foldl Counts.count k).lines = k.lines + Int32.ofNat (stream.count 10) ∧
      (stream.foldl Counts.count k).words =
        k.words + Int32.ofNat (wordsFrom k.inWord stream) ∧
      (stream.foldl Counts.count k).chars = k.chars + Int32.ofNat stream.length := by
  induction stream generalizing k with
  | nil =>
      have hzero : wordsFrom k.inWord [] = 0 := by cases k.inWord <;> rfl
      rw [hzero]
      simp
  | cons c stream ih =>
      obtain ⟨hlines, hwords, hchars⟩ := ih (k.count c)
      rw [List.foldl_cons]
      refine ⟨hlines.trans ?_, hwords.trans ?_, hchars.trans ?_⟩
      · rw [count_eq, List.count_cons]
        by_cases hline : c = 10
        · simp [hline, Int32.ofNat_add, Int32.add_assoc, Int32.add_comm]
        · simp [hline]
      · rw [count_eq, wordsFrom_cons]
        by_cases hspace : isSpace c = true
        · simp [hspace]
        · cases hin : k.inWord
          · simp [hspace, Int32.ofNat_add, Int32.add_assoc]
          · simp [hspace]
      · rw [count_eq, List.length_cons, Int32.ofNat_add, Int32.add_comm (Int32.ofNat _),
          ← Int32.add_assoc]
        rfl

/-! ## What the commands write -/

/-- The format of `wcCommand`, in fields. -/
def wcFields (k : Counts) : List Field :=
  [.plain '\n', .plain ' ', .int k.lines ' '] ++ "lineas, ".toList.map .plain ++
    [.int k.words ' '] ++ "palabras, ".toList.map .plain ++ [.int k.chars ' '] ++
    "caracteres\n".toList.map .plain

/-- A text without percent signs is its own format. -/
theorem literal_plain (text : List Char) (h : text.all (· ≠ '%') = true) :
    (text.map Field.plain).flatMap Field.printFormat = text := by
  induction text with
  | nil => rfl
  | cons c text ih =>
      rw [List.all_cons, Bool.and_eq_true, decide_eq_true_eq] at h
      rw [List.map_cons, List.flatMap_cons, ih h.2]
      change literal c ++ text = c :: text
      rw [literal, if_neg h.1]
      rfl

theorem wcFields_format (k : Counts) : (wcFields k).flatMap Field.printFormat =
    "\n %d lineas, %d palabras, %d caracteres\n".toList := by
  rw [wcFields]
  simp only [List.flatMap_append]
  rw [literal_plain _ rfl, literal_plain _ rfl, literal_plain _ rfl]
  rfl

theorem wcFields_args (k : Counts) :
    (wcFields k).flatMap Field.args = [.int k.lines, .int k.words, .int k.chars] := by
  simp [wcFields, Field.args]

theorem text_wcFields (k : Counts) : (wcFields k).flatMap Field.text =
    "\n ".toList ++ decimal k.lines.toInt ++ " lineas, ".toList ++ decimal k.words.toInt ++
      " palabras, ".toList ++ decimal k.chars.toInt ++ " caracteres\n".toList := by
  have hplain : ∀ text : List Char, (text.map Field.plain).flatMap Field.text = text := by
    intro text
    rw [List.flatMap_map]
    exact List.flatMap_singleton' text
  have hstart : "\n ".toList = ['\n', ' '] := rfl
  have hlines : " lineas, ".toList = ' ' :: "lineas, ".toList := rfl
  have hwords : " palabras, ".toList = ' ' :: "palabras, ".toList := rfl
  have hchars : " caracteres\n".toList = ' ' :: "caracteres\n".toList := rfl
  rw [hstart, hlines, hwords, hchars]
  simp only [wcFields, List.flatMap_append, hplain, List.flatMap_cons, Field.text,
    List.append_assoc, List.append_nil, List.cons_append, List.nil_append]

/-- Characters that are written one by one. -/
theorem text_singles (bytes : List UInt8) (left : Bool) :
    (⟨bytes.map fun c ↦ (STDOUT, [c]), left⟩ : Output).text STDOUT = bytes := by
  induction bytes with
  | nil => rfl
  | cons c bytes ih => exact congrArg (c :: ·) ih

/-- What `wc` prints. -/
theorem print_text (k : Counts) : k.print.text STDOUT =
    toBytes ("\n ".toList ++ decimal k.lines.toInt ++ " lineas, ".toList ++
      decimal k.words.toInt ++ " palabras, ".toList ++ decimal k.chars.toInt ++
      " caracteres\n".toList) := by
  unfold Counts.print
  rw [← wcFields_format k, ← wcFields_args k, vprintf_fields, Option.getD_some, text_singles,
    text_wcFields]

@[simp] theorem write_left (o : Output) (fd : Int) (buf : List UInt8) :
    (o.write fd buf).left = o.left := rfl

@[simp] theorem write_text (o : Output) (fd : Int) (buf : List UInt8) :
    (o.write fd buf).text fd = buf ++ o.text fd := by
  simp [Output.write, Output.text]

/-- The state of a command after chunks that are not empty: `cat`. -/
theorem catCommand_append {cs : List (List UInt8)} (hcs : ∀ x ∈ cs, x ≠ [])
    (reads : List (List UInt8)) : (catCommand (cs ++ reads)).left = (catCommand reads).left ∧
      (catCommand (cs ++ reads)).text STDOUT = cs.flatten ++ (catCommand reads).text STDOUT := by
  induction cs with
  | nil => exact ⟨rfl, rfl⟩
  | cons buf cs ih =>
      obtain ⟨hleft, htext⟩ := ih fun x hx ↦ hcs x (List.mem_cons_of_mem buf hx)
      rw [List.cons_append, catCommand, if_neg (hcs buf List.mem_cons_self), List.flatten_cons]
      exact ⟨hleft, by rw [write_text, htext, List.append_assoc]⟩

/-- The same for `filter`: a chunk of vowels is not written at all. -/
theorem filterLoop_append {cs : List (List UInt8)} (hcs : ∀ x ∈ cs, x ≠ [])
    (reads : List (List UInt8)) : (filterLoop (cs ++ reads)).left = (filterLoop reads).left ∧
      (filterLoop (cs ++ reads)).text STDOUT =
        cs.flatten.filter (!isVowel ·) ++ (filterLoop reads).text STDOUT := by
  induction cs with
  | nil => exact ⟨rfl, rfl⟩
  | cons buf cs ih =>
      obtain ⟨hleft, htext⟩ := ih fun x hx ↦ hcs x (List.mem_cons_of_mem buf hx)
      rw [List.cons_append, filterLoop, if_neg (hcs buf List.mem_cons_self), List.flatten_cons,
        List.filter_append]
      dsimp only
      split
      · exact ⟨hleft, by rw [write_text, htext, List.append_assoc]⟩
      next hempty =>
          have hnil : buf.filter (!isVowel ·) = [] := List.length_eq_zero_iff.mp (by omega)
          rw [hnil]
          exact ⟨hleft, htext⟩

/-- And for `wc`, which writes nothing yet. -/
theorem wcLoop_append {cs : List (List UInt8)} (hcs : ∀ x ∈ cs, x ≠ [])
    (reads : List (List UInt8)) (k : Counts) :
    wcLoop (cs ++ reads) k = wcLoop reads (cs.flatten.foldl Counts.count k) := by
  induction cs generalizing k with
  | nil => rfl
  | cons buf cs ih =>
      rw [List.cons_append, wcLoop, if_neg (hcs buf List.mem_cons_self), List.flatten_cons,
        List.foldl_append]
      exact ih (fun x hx ↦ hcs x (List.mem_cons_of_mem buf hx)) _

/-- The counters of `wc` at the end of a stream. -/
theorem print_counted (stream : List UInt8) :
    (stream.foldl Counts.count ⟨0, 0, 0, false⟩).print.text STDOUT = Filter.wc.spec stream := by
  obtain ⟨hlines, hwords, hchars⟩ := foldl_count stream ⟨0, 0, 0, false⟩
  have hcount : wordsFrom false stream = (words stream).length := List.countP_eq_length_filter
  rw [print_text, hlines, hwords, hchars]
  simp only [Int32.zero_add, hcount]
  rfl

variable (cmd : Filter) {argc : Nat} {cs : List (List UInt8)}

/-- **While the stream goes on** a command has not left, and has written a beginning of what it
is to write. -/
theorem run_open (hargc : argc ≤ 1) (hcs : ∀ x ∈ cs, x ≠ []) {stream : List UInt8}
    (hstream : cs.flatten <+: stream) :
    (cmd.run argc cs).left = false ∧ (cmd.run argc cs).text STDOUT <+: cmd.spec stream := by
  have hnot : ¬argc > 1 := by omega
  rw [← List.append_nil cs]
  cases cmd with
  | cat =>
      obtain ⟨hleft, htext⟩ := catCommand_append hcs []
      refine ⟨hleft, ?_⟩
      change (catCommand (cs ++ [])).text STDOUT <+: stream
      rw [htext]
      simpa [catCommand, Output.text] using hstream
  | wc =>
      have hrun : Filter.wc.run argc (cs ++ []) = ⟨[], false⟩ := by
        change wcCommand argc (cs ++ []) = _
        rw [wcCommand, if_neg hnot, wcLoop_append hcs]
        rfl
      rw [hrun]
      exact ⟨rfl, List.nil_prefix⟩
  | filter =>
      have hrun : Filter.filter.run argc (cs ++ []) = filterLoop (cs ++ []) := if_neg hnot
      obtain ⟨hleft, htext⟩ := filterLoop_append hcs []
      rw [hrun]
      refine ⟨hleft, ?_⟩
      rw [htext]
      have hnil : (filterLoop []).text STDOUT = [] := rfl
      rw [hnil, List.append_nil]
      exact hstream.filter (!isVowel ·)

/-- **At the end of the stream** it leaves, and has written what it is to write. -/
theorem run_closed (hargc : argc ≤ 1) (hcs : ∀ x ∈ cs, x ≠ []) (after : List (List UInt8)) :
    (cmd.run argc (cs ++ [] :: after)).left = true ∧
      (cmd.run argc (cs ++ [] :: after)).text STDOUT = cmd.spec cs.flatten := by
  have hnot : ¬argc > 1 := by omega
  cases cmd with
  | cat =>
      obtain ⟨hleft, htext⟩ := catCommand_append hcs ([] :: after)
      refine ⟨hleft, htext.trans ?_⟩
      exact List.append_nil cs.flatten
  | wc =>
      have hrun : Filter.wc.run argc (cs ++ [] :: after) =
          (cs.flatten.foldl Counts.count ⟨0, 0, 0, false⟩).print := by
        change wcCommand argc (cs ++ [] :: after) = _
        rw [wcCommand, if_neg hnot, wcLoop_append hcs]
        rfl
      rw [hrun]
      exact ⟨rfl, print_counted cs.flatten⟩
  | filter =>
      have hrun : Filter.filter.run argc (cs ++ [] :: after) = filterLoop (cs ++ [] :: after) :=
        if_neg hnot
      obtain ⟨hleft, htext⟩ := filterLoop_append hcs ([] :: after)
      rw [hrun]
      refine ⟨hleft, htext.trans ?_⟩
      exact List.append_nil _

/-! ## In a pipeline -/

/-- **A pipeline writes what it should.**  One process `r` runs a command without arguments, and is
the only one that reads from a pipe, through a descriptor that blocks, with a buffer of the size
that the command has; any number of processes write to it.  In every run in which nobody is killed
inside the pipe, nobody requests the end of the file, and a process that blocks gets the node of
the queue, what the command has written is a beginning of what it is to write for all that was
written to the pipe without its NULs, in the order of the calls.  It leaves exactly when a read has
come to the end of the stream, and has then written all of it. -/
theorem pipeline_output (cmd : Filter) {argc : Nat} (hargc : argc ≤ 1) (data : Nat → UInt8)
    {creator r : Int} (hvalid : ¬invalidPID creator) (hidle : creator ≠ IDLE_PID) {x : FdReader}
    (hreach : Reach (FdReader.stepOn r)
      (fun x z ↦ FdReader.OneReader r cmd.size x z.1 ∧ z.2 = true)
      (FdReader.init data creator FILE_READ) x) :
    (cmd.run argc x.reads).text STDOUT <+: cmd.spec (strip x.sys.calls.flatten) ∧
    ((cmd.run argc x.reads).left = true ↔ [] ∈ x.reads) ∧
    ((cmd.run argc x.reads).left = true →
      (cmd.run argc x.reads).text STDOUT = cmd.spec (strip x.sys.calls.flatten) ∧
      x.sys.pipe.buffer.contents = [] ∧ x.sys.pipe.writerCount = 0) := by
  have hsize : 0 < cmd.size := by cases cmd <;> decide
  have hfollows := FdReader.follows_reach hvalid hidle hsize hreach
  obtain ⟨cs, hcs, hbegins, hreads | ⟨hall, hexhausted, after, hreads⟩⟩ :=
    hfollows.chunks hvalid hidle hsize
  · obtain ⟨hleft, htext⟩ := run_open cmd hargc hcs hbegins
    rw [hreads, hleft]
    have hnot : [] ∉ cs := fun hmem ↦ hcs [] hmem rfl
    exact ⟨htext, ⟨fun heq ↦ absurd heq Bool.false_ne_true, fun hmem ↦ absurd hmem hnot⟩,
      fun heq ↦ absurd heq Bool.false_ne_true⟩
  · obtain ⟨hleft, htext⟩ := run_closed cmd hargc hcs after
    rw [hall] at htext
    have hmem : [] ∈ cs ++ [] :: after := List.mem_append_right _ List.mem_cons_self
    rw [hreads]
    exact ⟨htext ▸ List.prefix_rfl, ⟨fun _ ↦ hmem, fun _ ↦ hleft⟩, fun _ ↦ ⟨htext, hexhausted⟩⟩

/-- `wc` waits before anything is written, and counts the text of two writes, one with a NUL. -/
theorem pipeline_output_wc : ∃ x : FdReader,
    x.reads = [[104, 111, 108, 97, 32, 109, 10, 99, 104], []] ∧
    (Filter.wc.run 1 x.reads).text STDOUT <+: Filter.wc.spec (strip x.sys.calls.flatten) ∧
    ((Filter.wc.run 1 x.reads).left = true ↔ [] ∈ x.reads) ∧
    ((Filter.wc.run 1 x.reads).left = true →
      (Filter.wc.run 1 x.reads).text STDOUT = Filter.wc.spec (strip x.sys.calls.flatten) ∧
      x.sys.pipe.buffer.contents = [] ∧ x.sys.pipe.writerCount = 0) := by
  let es : List (FdReader.Event × Bool) :=
    [.pipe (.sys (.create 3)), .pipe (.sys (.create 4)), .pipe (.sys (.close 0)),
      .pipe (.sys (.dispatch 4)), .pipe (.sys (.close 0)), .readFd 128,
      .pipe (.sys (.dispatch 3)), .pipe (.sys (.write [104, 111, 108, 97, 32])),
      .pipe (.sys (.write [109, 10, 0, 99, 104])), .pipe (.sys (.close 0)),
      .pipe (.sys (.dispatch 4)), .pipe (.sys .resume), .readFd 128].map fun e ↦ (e, true)
  have hrun : (run (FdReader.stepOn 4) (FdReader.init (fun _ ↦ 0) 2 FILE_READ) es).map
      (fun x : FdReader ↦ decide (x.reads = [[104, 111, 108, 97, 32, 109, 10, 99, 104], []])) =
      some true := by
    decide +kernel
  have hguard : Guarded (FdReader.stepOn 4)
      (fun x z ↦ FdReader.OneReader 4 Filter.wc.size x z.1 ∧ z.2 = true)
      (FdReader.init (fun _ ↦ 0) 2 FILE_READ) es := by
    decide +kernel
  obtain ⟨x, hx, hobs⟩ := Option.map_eq_some_iff.mp hrun
  exact ⟨x, of_decide_eq_true hobs, pipeline_output .wc le_rfl _ (by decide) (by decide)
    (.of_run hx hguard)⟩

/-- Two lines and three words, whatever the chunks. -/
example : Filter.wc.spec [104, 111, 108, 97, 32, 109, 10, 99, 104] =
    toBytes "\n 1 lineas, 3 palabras, 9 caracteres\n".toList := by decide +kernel

end BareBones.Userland.Filters
