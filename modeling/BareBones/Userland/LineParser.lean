import BareBones.Userland.Shell

/-!
# The line parser of the shell

The passes of `shell.c` over a line work in place: `hasBackground` cuts the line off at its
end, `splitPipeline` ends the first stage where the `|` was, and `tokenize` ends every token
where a blank was.  What they hand out are pointers into the buffer, which are read much later,
when other passes have written to it.  The functions here have the buffer as their state and
return positions in it; they are `none` where the source would read behind the end of the
buffer.

`Str buf p s` says that the string `s` stands at the position `p`.  In its terms, each pass in
place does what its counterpart of `BareBones.Userland.Shell` does to lists of characters, and
leaves alone what stands elsewhere in the buffer (`tokenize_spec`, `splitPipeline_spec`,
`hasBackground_spec`).  So the two versions of `runLine` make the same calls
(`run_runLine`), and what they are is proved about the one on lists.

The grammar is stated without the passes: `Strips` is about the end of a line, and `words` are
the maximal runs of characters that are no blanks.  **Every run of `runLine` creates the
processes that the grammar tells** (`runLine_grammar`).
-/

namespace BareBones.Userland.LineParser

open BareBones.Lib BareBones.Process
open Shell (Sh Call MAX_TOKENS MAX_PIPELINE STDIN STDOUT STDERR isBlank getCommandIndex sys_write
  sys_reopen sys_pipe sys_create_process_with_fds sys_close sys_foreground sys_waitpid putChar
  overrides closeIfOpen firstStdin waitStages)

/-- A buffer that a line is in: what stands behind the zero at its end is arbitrary. -/
abbrev Buf := List Char

/-! ## The passes -/

/-- How many characters a loop `while (p(*str)) str++` passes over, from the start of what is
given. -/
def scan (p : Char → Bool) : List Char → Option Nat
  | [] => none
  | c :: cs => if p c then (scan p cs).map (· + 1) else some 0

/-- `while (p(*str)) str++` -/
def skip (p : Char → Bool) (buf : Buf) (str : Nat) : Option Nat :=
  (scan p (buf.drop str)).map (str + ·)

/-- `strlen` -/
def strlen (buf : Buf) (str : Nat) : Option Nat := scan (· != '\x00') (buf.drop str)

/-- What a function reads that is given the string at `str`. -/
def string (buf : Buf) (str : Nat) : Option (List Char) :=
  (strlen buf str).map fun len ↦ (buf.drop str).take len

/-- `tokenize` -/
def tokenize : (maxTokens : Nat) → (buf : Buf) → (str : Nat) → Option (List Nat × Buf)
  | 0, buf, _ => some ([], buf)
  | maxTokens + 1, buf, str => do
      let str ← skip isBlank buf str
      if (← buf[str]?) = '\x00' then some ([], buf)
      else do
        let stop ← skip (fun c ↦ c != '\x00' && !isBlank c) buf str
        if (← buf[stop]?) = '\x00' then some ([str], buf)
        else do
          let (tokens, buf) ← tokenize maxTokens (buf.set stop '\x00') (stop + 1)
          some (str :: tokens, buf)

/-- `splitPipeline` from the stage at `p` on, with room for another `room` stages; the inner
`none` is `-1`. -/
def splitPipeline : (room : Nat) → (line : Buf) → (p : Nat) → Option (Option (List Nat) × Buf)
  | room, line, p => do
      let stop ← skip (fun c ↦ c != '\x00' && c != '|') line p
      if (← (line)[stop]?) = '|' then
        match room with
        | 0 => some (none, line)
        | room + 1 => do
            let line := line.set stop '\x00'
            let (stages, line) ← splitPipeline room line (← skip (· == ' ') line (stop + 1))
            some (stages.map (p :: ·), line)
      else some (some [p], line)

/-- `while (len > 0 && (line[len-1] == ' ' || line[len-1] == '\t')) line[--len] = '\0'` -/
def trimBlanks : (line : Buf) → (len : Nat) → Option (Nat × Buf)
  | line, 0 => some (0, line)
  | line, len + 1 => do
      if isBlank (← (line)[len]?) then trimBlanks (line.set len '\x00') len
      else some (len + 1, line)

/-- `hasBackground` -/
def hasBackground (line : Buf) : Option (Bool × Buf) := do
  let (len, line) ← trimBlanks line (← strlen line 0)
  match len with
  | 0 => some (false, line)
  | len + 1 =>
      if (← (line)[len]?) = '&' then do
        let (_, line) ← trimBlanks (line.set len '\x00') len
        some (true, line)
      else some (false, line)

/-! ## Running a line -/

/-- What is computed in the buffer, in a program. -/
def compute {α : Type} (x : Option α) : OptionT Sh α := OptionT.mk (pure x)

/-- `runStage` -/
def runStage (buf : Buf) (stageStr : Nat) (stdinFd stdoutFd : Int) (background : Bool)
    (closeFds : List Int) : OptionT Sh (Int × Buf) := do
  let (tokens, buf) ← compute (tokenize MAX_TOKENS buf stageStr)
  match tokens with
  | [] => pure (-1, buf)
  | name :: _ => do
      let command ← compute (string buf name)
      match getCommandIndex command with
      | none => do
          sys_write STDERR "\x1bfFF4040;Command not found: ".toList
          sys_write STDERR command
          sys_write STDERR "\x1br;\n".toList
          pure (-1, buf)
      | some cmdIdx => do
          let argv ← compute (tokens.mapM (string buf))
          let pid ← sys_create_process_with_fds cmdIdx argv (overrides stdinFd stdoutFd closeFds)
          if pid < 0 then do
            sys_write STDERR "shell: cannot spawn\n".toList
            pure (-1, buf)
          else do
            if !background then sys_foreground pid
            pure (pid, buf)

/-- `runLine` for one stage -/
def runSingle (buf : Buf) (background : Bool) (childStdin : Int) (stage : Nat) :
    OptionT Sh Unit := do
  let (pid, _) ← runStage buf stage (firstStdin background childStdin) STDOUT background
    (if childStdin ≥ 0 then [childStdin] else [])
  if pid ≥ 0 ∧ !background then do
    sys_waitpid pid
    putChar '\n'
  closeIfOpen childStdin

/-- `runLine` for two stages, from where the first one has been created -/
def runSecond (buf : Buf) (background : Bool) (childStdin : Int) (pipeFds : Int × Int)
    (pid1 : Int) (stage : Nat) : OptionT Sh Unit := do
  let (pid2, _) ← runStage buf stage pipeFds.1 STDOUT background
    (pipeFds.2 :: if childStdin ≥ 0 then [childStdin] else [])
  sys_close pipeFds.1
  sys_close pipeFds.2
  waitStages background childStdin pid1 pid2

/-- `runLine` for two stages -/
def runPipeline (buf : Buf) (background : Bool) (childStdin : Int) (stage₁ stage₂ : Nat) :
    OptionT Sh Unit := do
  let pipeFds ← OptionT.lift sys_pipe
  match pipeFds with
  | none => do
      sys_write STDERR "shell: cannot create pipe\n".toList
      closeIfOpen childStdin
  | some pipeFds => do
      let stdin := firstStdin background childStdin
      let (pid1, buf) ← runStage buf stage₁ stdin pipeFds.2 background
        (pipeFds.1 :: if childStdin ≥ 0 ∧ childStdin ≠ stdin then [childStdin] else [])
      if pid1 < 0 then do
        sys_close pipeFds.1
        sys_close pipeFds.2
        closeIfOpen childStdin
      else runSecond buf background childStdin pipeFds pid1 stage₂

/-- `runLine` -/
def runLine (line : Buf) : OptionT Sh Unit := do
  let (background, line) ← compute (hasBackground line)
  let (stages, line) ← compute (splitPipeline (MAX_PIPELINE - 1) line 0)
  match stages with
  | none => sys_write STDERR "shell: solo se admite un `|` por linea\n".toList
  | some [] => pure ()
  | some [stage] => do runSingle line background (← sys_reopen STDIN) stage
  | some (stage₁ :: stage₂ :: _) => do
      runPipeline line background (← sys_reopen STDIN) stage₁ stage₂

/-! ## Strings in a buffer -/

/-- The string `s` stands at the position `p` of the buffer. -/
def Str (buf : Buf) (p : Nat) (s : List Char) : Prop :=
  '\x00' ∉ s ∧ s ++ ['\x00'] <+: buf.drop p

/-- A loop over a string stops at its end at the latest. -/
theorem scan_append {f g : Char → Bool} {s rest : List Char} (hzero : f '\x00' = false)
    (hfg : ∀ c ∈ s, f c = g c) :
    scan f (s ++ '\x00' :: rest) = some (s.takeWhile g).length := by
  induction s with
  | nil => simp [scan, hzero]
  | cons c s ih =>
      have ih := ih fun d hd ↦ hfg d (List.mem_cons_of_mem c hd)
      cases hc : g c <;> simp [scan, hfg c, hc, ih]

theorem head_dropWhile {c d : Char} {cs : List Char} {s : List Char}
    (h : s.dropWhile (· ≠ d) = c :: cs) : c = d := by
  have hhead := List.head?_dropWhile_not (· ≠ d) s
  rw [h] at hhead
  simpa using hhead

theorem drop_length_takeWhile (g : Char → Bool) (s : List Char) :
    s.drop (s.takeWhile g).length = s.dropWhile g :=
  calc s.drop (s.takeWhile g).length
      = (s.takeWhile g ++ s.dropWhile g).drop (s.takeWhile g).length := by
        rw [List.takeWhile_append_dropWhile]
    _ = s.dropWhile g := List.drop_left

namespace Str

variable {buf buf' : Buf} {p k : Nat} {s : List Char} {f g : Char → Bool}

theorem getElem? (h : Str buf p s) (hk : k ≤ s.length) :
    buf[p + k]? = (s ++ ['\x00'])[k]? := by
  obtain ⟨rest, hrest⟩ := h.2
  rw [← List.getElem?_drop, ← hrest, List.getElem?_append_left]
  rw [List.length_append, List.length_singleton]
  omega

theorem of_getElem? (hs : '\x00' ∉ s)
    (h : ∀ k ≤ s.length, buf[p + k]? = (s ++ ['\x00'])[k]?) : Str buf p s := by
  refine ⟨hs, List.prefix_iff_getElem?.2 fun k hk ↦ ?_⟩
  rw [List.length_append, List.length_singleton] at hk
  rw [List.getElem?_drop, h k (by omega), List.getElem?_eq_getElem]

/-- What stands in a part of the buffer depends on that part only. -/
theorem congr (h : Str buf p s) (hagree : ∀ i, p ≤ i → i ≤ p + s.length → buf'[i]? = buf[i]?) :
    Str buf' p s := by
  refine of_getElem? h.1 fun k hk ↦ ?_
  rw [hagree _ (Nat.le_add_right p k) (by omega), h.getElem? hk]

/-- The end of a string is a string. -/
theorem drop (h : Str buf p s) (hk : k ≤ s.length) : Str buf (p + k) (s.drop k) := by
  refine of_getElem? (fun hmem ↦ h.1 (List.mem_of_mem_drop hmem)) fun i hi ↦ ?_
  rw [List.length_drop] at hi
  rw [Nat.add_assoc, h.getElem? (by omega), ← List.drop_append_of_le_length hk,
    List.getElem?_drop]

/-- The first character, or the zero if there is none. -/
theorem head (h : Str buf p s) : buf[p]? = some (s.headD '\x00') := by
  rw [← Nat.add_zero p, h.getElem? (Nat.zero_le _)]
  cases s <;> rfl

/-- There is no zero in a string. -/
theorem ne_zero (h : Str buf p s) {c : Char} (hc : c ∈ s) : c ≠ '\x00' := by
  rintro rfl
  exact h.1 hc

/-- A loop over a string passes over the characters that it is about. -/
theorem skip (h : Str buf p s) (hzero : f '\x00' = false) (hfg : ∀ c ∈ s, f c = g c) :
    skip f buf p = some (p + (s.takeWhile g).length) ∧
      Str buf (p + (s.takeWhile g).length) (s.dropWhile g) := by
  constructor
  · obtain ⟨rest, hrest⟩ := h.2
    rw [LineParser.skip, ← hrest, List.append_assoc, List.singleton_append,
      scan_append hzero hfg, Option.map_some]
  · have hdrop := h.drop (List.takeWhile_prefix g (l := s)).length_le
    rwa [drop_length_takeWhile] at hdrop

theorem strlen (h : Str buf p s) : strlen buf p = some s.length := by
  obtain ⟨rest, hrest⟩ := h.2
  have hall : s.takeWhile (fun _ ↦ true) = s := List.takeWhile_eq_self_iff.2 fun _ _ ↦ rfl
  rw [LineParser.strlen, ← hrest, List.append_assoc, List.singleton_append,
    scan_append (g := fun _ ↦ true) rfl fun c hc ↦ bne_iff_ne.2 (h.ne_zero hc), hall]

theorem string (h : Str buf p s) : string buf p = some s := by
  obtain ⟨rest, hrest⟩ := h.2
  rw [LineParser.string, h.strlen, ← hrest, Option.map_some, List.append_assoc, List.take_left]

/-- A zero that is written into a string ends it; -/
theorem cut (h : Str buf p s) (hk : k < s.length) :
    Str (buf.set (p + k) '\x00') p (s.take k) := by
  have hget := h.getElem? hk.le
  refine of_getElem? (fun hmem ↦ h.1 (List.mem_of_mem_take hmem)) fun i hi ↦ ?_
  rw [List.length_take, min_eq_left hk.le] at hi
  obtain rfl | hlt := hi.eq_or_lt
  · rw [List.getElem?_set_self', hget, List.getElem?_append_left hk, List.getElem?_eq_getElem hk,
      List.getElem?_append_right (by simp)]
    simp [hk.le]
  · rw [List.getElem?_set_ne (by omega), h.getElem? (by omega),
      List.getElem?_append_left (by omega), List.getElem?_append_left (by simp; omega),
      List.getElem?_take_of_lt hlt]

/-- behind it stands the rest. -/
theorem rest (h : Str buf p s) (hk : k < s.length) :
    Str (buf.set (p + k) '\x00') (p + k + 1) (s.drop (k + 1)) :=
  (h.drop hk).congr fun _ hi _ ↦ List.getElem?_set_ne (by omega)

end Str

/-! ## The passes and the functions on lists -/

variable {buf line : Buf} {p : Nat} {s : List Char}

/-- A pass over `s` at `p` leaves alone what stands elsewhere. -/
def Elsewhere (p : Nat) (s : List Char) (buf buf' : Buf) : Prop :=
  ∀ i, i < p ∨ p + s.length ≤ i → buf'[i]? = buf[i]?

@[simp] theorem tokenize_nil (n : Nat) : Shell.tokenize n [] = [] := by
  cases n <;> rfl

/-- What `Shell.tokenize` does when there is a token. -/
theorem tokenize_succ {n : Nat} (h : s.dropWhile isBlank ≠ []) :
    Shell.tokenize (n + 1) s = (s.dropWhile isBlank).takeWhile (!isBlank ·) ::
      Shell.tokenize n ((s.dropWhile isBlank).dropWhile (!isBlank ·)).tail := by
  rw [Shell.tokenize, if_neg h]

/-- A loop stays within the string. -/
theorem length_skip (g : Char → Bool) (s : List Char) :
    p + (s.takeWhile g).length + (s.dropWhile g).length = p + s.length := by
  rw [Nat.add_assoc, ← List.length_append, List.takeWhile_append_dropWhile]

/-- **`tokenize` hands out the tokens**, as pointers into the buffer that it has written to. -/
theorem tokenize_spec (n : Nat) (h : Str buf p s) :
    ∃ tokens buf', tokenize n buf p = some (tokens, buf') ∧
      List.Forall₂ (Str buf') tokens (Shell.tokenize n s) ∧ Elsewhere p s buf buf' := by
  induction n generalizing buf p s with
  | zero => exact ⟨[], buf, rfl, .nil, fun _ _ ↦ rfl⟩
  | succ n ih =>
      obtain ⟨hskip, h₁⟩ := h.skip (f := isBlank) rfl fun _ _ ↦ rfl
      have hq := length_skip (p := p) isBlank s
      have hpq := Nat.le_add_right p (s.takeWhile isBlank).length
      generalize p + (s.takeWhile isBlank).length = q at hskip h₁ hq hpq
      generalize hs₁ : s.dropWhile isBlank = s₁ at h₁ hq
      cases s₁ with
      | nil =>
          refine ⟨[], buf, ?_, ?_, fun _ _ ↦ rfl⟩
          · simp [tokenize, hskip, h₁.head]
          · simp [Shell.tokenize, hs₁]
      | cons c cs =>
          have hne : s.dropWhile isBlank ≠ [] := by
            rw [hs₁]
            exact List.cons_ne_nil c cs
          have hc := h₁.ne_zero List.mem_cons_self
          obtain ⟨hstop, h₂⟩ := h₁.skip (f := fun c ↦ c != '\x00' && !isBlank c)
            (g := (!isBlank ·)) rfl fun d hd ↦ by simp [h₁.ne_zero hd]
          have hr := length_skip (p := q) (!isBlank ·) (c :: cs)
          have htake : (c :: cs).take ((c :: cs).takeWhile (!isBlank ·)).length =
              (c :: cs).takeWhile (!isBlank ·) :=
            List.prefix_iff_eq_take.1 (List.takeWhile_prefix _) |>.symm
          rw [tokenize_succ hne, hs₁]
          cases hs₂ : (c :: cs).dropWhile (!isBlank ·) with
          | nil =>
              -- The token ends with the string, and nothing is written.
              have hall := List.takeWhile_append_dropWhile (p := (!isBlank ·)) (l := c :: cs)
              rw [hs₂, List.append_nil] at hall
              rw [hs₂] at h₂
              refine ⟨[q], buf, ?_, ?_, fun _ _ ↦ rfl⟩
              · simp [tokenize, hskip, h₁.head, hc, hstop, h₂.head]
              · rw [List.tail_nil, tokenize_nil, hall]
                exact .cons h₁ .nil
          | cons d ds =>
              rw [hs₂] at h₂ hr
              have hd := h₂.ne_zero List.mem_cons_self
              rw [List.length_cons] at hr
              have hk : ((c :: cs).takeWhile (!isBlank ·)).length < (c :: cs).length := by omega
              have hcut := h₁.cut hk
              have hrest := h₂.rest (k := 0) (Nat.zero_lt_succ _)
              rw [htake] at hcut
              rw [Nat.add_zero, List.drop_succ_cons, List.drop_zero] at hrest
              obtain ⟨tokens, buf', htokens, hstr, helse⟩ := ih hrest
              refine ⟨q :: tokens, buf', ?_, .cons ?_ hstr, ?_⟩
              · simp [tokenize, hskip, h₁.head, hc, hstop, h₂.head, hd, htokens]
              · exact hcut.congr fun i _ hi ↦ helse i (.inl (by omega))
              · intro i hi
                rw [helse i (by omega), List.getElem?_set_ne (by omega)]

/-- The strings stand in the buffer from a position on, one behind the other. -/
inductive Strs (buf : Buf) : Nat → List Nat → List (List Char) → Prop
  | nil (lo : Nat) : Strs buf lo [] []
  | cons {lo p : Nat} {s : List Char} {ps : List Nat} {ss : List (List Char)} (hp : lo ≤ p)
      (h : Str buf p s) (hs : Strs buf (p + s.length + 1) ps ss) : Strs buf lo (p :: ps) (s :: ss)

theorem Strs.mono {lo lo' : Nat} {ps : List Nat} {ss : List (List Char)}
    (h : Strs buf lo ps ss) (hlo : lo' ≤ lo) : Strs buf lo' ps ss := by
  cases h with
  | nil => exact .nil lo'
  | cons hp h hs => exact .cons (hlo.trans hp) h hs

/-- The end of a stage. -/
theorem Str.stage (h : Str buf p s) :
    LineParser.skip (fun c ↦ c != '\x00' && c != '|') buf p =
        some (p + (s.takeWhile (· ≠ '|')).length) ∧
      Str buf (p + (s.takeWhile (· ≠ '|')).length) (s.dropWhile (· ≠ '|')) :=
  h.skip rfl fun c hc ↦ Bool.eq_iff_iff.2 (by simp [h.ne_zero hc])

/-- The last stage. -/
theorem splitPipeline_last (room : Nat) (h : Str buf p s) (hs : s.dropWhile (· ≠ '|') = []) :
    splitPipeline room buf p = some (some [p], buf) ∧ Shell.splitPipeline room s = some [s] := by
  obtain ⟨hstop, h₁⟩ := h.stage
  rw [hs] at h₁
  generalize p + (s.takeWhile (· ≠ '|')).length = stop at hstop h₁
  constructor
  · rw [splitPipeline, hstop]
    simp [h₁.head]
  · rw [Shell.splitPipeline, hs]

/-- **`splitPipeline` hands out the stages**, or finds that there are too many. -/
theorem splitPipeline_spec (room : Nat) (h : Str buf p s) :
    ∃ stages buf', splitPipeline room buf p = some (stages, buf') ∧
      Option.Rel (Strs buf' p) stages (Shell.splitPipeline room s) ∧
      ∀ i, i < p → buf'[i]? = buf[i]? := by
  induction room generalizing buf p s with
  | zero =>
      obtain ⟨hstop, h₁⟩ := h.stage
      cases hs : s.dropWhile (· ≠ '|') with
      | nil =>
          obtain ⟨heq, hlist⟩ := splitPipeline_last 0 h hs
          exact ⟨_, buf, heq, hlist ▸ .some (.cons le_rfl h (.nil _)), fun _ _ ↦ rfl⟩
      | cons c cs =>
          have hc := head_dropWhile hs
          rw [hs, hc] at h₁
          generalize p + (s.takeWhile (· ≠ '|')).length = stop at hstop h₁
          refine ⟨none, buf, ?_, ?_, fun _ _ ↦ rfl⟩
          · rw [splitPipeline, hstop]
            simp [h₁.head]
          · rw [Shell.splitPipeline, hs]
            exact .none
  | succ room ih =>
      obtain ⟨hstop, h₁⟩ := h.stage
      cases hs : s.dropWhile (· ≠ '|') with
      | nil =>
          obtain ⟨heq, hlist⟩ := splitPipeline_last (room + 1) h hs
          exact ⟨_, buf, heq, hlist ▸ .some (.cons le_rfl h (.nil _)), fun _ _ ↦ rfl⟩
      | cons c cs =>
          have hc := head_dropWhile hs
          have hlen := length_skip (p := p) (· ≠ '|') s
          rw [hs, hc] at h₁
          rw [hs, List.length_cons] at hlen
          have hcut := h.cut (k := (s.takeWhile (· ≠ '|')).length) (by omega)
          have hrest := h₁.rest (k := 0) (Nat.zero_lt_succ _)
          rw [List.prefix_iff_eq_take.1 (List.takeWhile_prefix _) |>.symm] at hcut
          rw [Nat.add_zero, List.drop_succ_cons, List.drop_zero] at hrest
          generalize hk : (s.takeWhile (· ≠ '|')).length = k at hstop h₁ hcut hrest hlen
          obtain ⟨hspaces, h₂⟩ := hrest.skip (f := (· == ' ')) (g := (· = ' ')) rfl fun _ _ ↦ rfl
          obtain ⟨stages, buf', heq, hrel, hsame⟩ := ih h₂
          refine ⟨stages.map (p :: ·), buf', ?_, ?_, ?_⟩
          · rw [splitPipeline, hstop]
            simp [h₁.head, hspaces, heq]
          · rw [Shell.splitPipeline, hs]
            dsimp only
            generalize Shell.splitPipeline room (cs.dropWhile (· = ' ')) = stages' at hrel ⊢
            cases hrel with
            | none => exact .none
            | some hstrs =>
                refine .some (.cons le_rfl (hcut.congr fun i _ hi ↦ hsame i ?_) (hstrs.mono ?_))
                · rw [hk] at hi
                  omega
                · rw [hk]
                  omega
          · intro i hi
            rw [hsame i (by omega), List.getElem?_set_ne (by omega)]

/-- The last character of a string, and the string without it. -/
theorem Str.concat {c : Char} (h : Str buf 0 (s ++ [c])) :
    buf[s.length]? = some c ∧ Str (buf.set s.length '\x00') 0 s := by
  have hlt : s.length < (s ++ [c]).length := by
    rw [List.length_append]
    exact Nat.lt_succ_self _
  have hget := h.getElem? hlt.le
  have hcut := h.cut hlt
  rw [List.take_left] at hcut
  rw [Nat.zero_add] at hget hcut
  refine ⟨?_, hcut⟩
  rw [hget, List.append_assoc, List.getElem?_append_right le_rfl, Nat.sub_self]
  rfl

/-- The blanks at the end are overwritten. -/
theorem trimBlanks_spec (h : Str buf 0 s) :
    ∃ buf', trimBlanks buf s.length = some ((s.rdropWhile isBlank).length, buf') ∧
      Str buf' 0 (s.rdropWhile isBlank) := by
  induction s using List.reverseRecOn generalizing buf with
  | nil => exact ⟨buf, rfl, h⟩
  | append_singleton s c ih =>
      obtain ⟨hget, hcut⟩ := h.concat
      rw [List.length_append, List.length_singleton, trimBlanks, hget]
      cases hc : isBlank c with
      | true =>
          rw [List.rdropWhile_concat_pos _ _ _ hc]
          obtain ⟨buf', heq, hstr⟩ := ih hcut
          exact ⟨buf', by simpa [hc] using heq, hstr⟩
      | false =>
          rw [List.rdropWhile_concat_neg _ _ _ (by simp [hc])]
          exact ⟨buf, by simp [hc], h⟩

/-- **`hasBackground` finds the `&`**, and cuts the line off before it. -/
theorem hasBackground_spec (h : Str buf 0 s) :
    ∃ buf', hasBackground buf = some ((Shell.hasBackground s).1, buf') ∧
      Str buf' 0 (Shell.hasBackground s).2 := by
  obtain ⟨buf₁, htrim, h₁⟩ := trimBlanks_spec h
  rw [hasBackground, h.strlen, Shell.hasBackground]
  dsimp only
  obtain hnil | ⟨t, c, ht⟩ := (s.rdropWhile isBlank).eq_nil_or_concat
  · rw [hnil] at htrim h₁ ⊢
    exact ⟨buf₁, by simp [htrim], by simpa using h₁⟩
  · rw [List.concat_eq_append] at ht
    rw [ht] at htrim h₁ ⊢
    obtain ⟨hget, hcut⟩ := h₁.concat
    by_cases hc : c = '&'
    · obtain ⟨buf₂, htrim', h₂⟩ := trimBlanks_spec hcut
      exact ⟨buf₂, by simp [htrim, hget, htrim', hc], by simpa [hc] using h₂⟩
    · exact ⟨buf₁, by simp [htrim, hget, hc], by simpa [hc] using h₁⟩

/-! ## Both versions of the program -/

theorem run_compute_bind {α β : Type} {x : Option α} {a : α} (h : x = some a)
    (f : α → OptionT Sh β) : (compute x >>= f).run = (f a).run := by
  rw [h]
  rfl

theorem run_liftM_bind {α β : Type} (x : Sh α) (f : α → OptionT Sh β) :
    ((liftM x : OptionT Sh α) >>= f).run = x >>= fun a ↦ (f a).run :=
  OptionT.run_bind_lift x f

theorem mapM_string {tokens : List Nat} {strs : List (List Char)}
    (h : List.Forall₂ (Str buf) tokens strs) : tokens.mapM (string buf) = some strs := by
  induction h with
  | nil => rfl
  | cons hstr _ ih => rw [List.mapM_cons, hstr.string, ih]; rfl

theorem run_liftM {α : Type} (x : Sh α) : (liftM x : OptionT Sh α).run = some <$> x :=
  (OptionT.run_lift x).trans (bind_pure_comp some x)

/-- A stage that stands in the buffer is run as the list of its characters is, and what stands
elsewhere remains. -/
theorem run_runStage (h : Str buf p s) (stdinFd stdoutFd : Int) (background : Bool)
    (closeFds : List Int) :
    ∃ buf', (runStage buf p stdinFd stdoutFd background closeFds).run =
        (fun pid ↦ some (pid, buf')) <$> Shell.runStage s stdinFd stdoutFd background closeFds ∧
      Elsewhere p s buf buf' := by
  obtain ⟨tokens, buf', htokens, hstrs, helse⟩ := tokenize_spec MAX_TOKENS h
  refine ⟨buf', ?_, helse⟩
  have hargv := mapM_string hstrs
  rw [runStage, Shell.runStage]
  generalize Shell.tokenize MAX_TOKENS s = strs at hstrs hargv ⊢
  rw [run_compute_bind htokens]
  cases hstrs with
  | nil => rw [map_pure]; rfl
  | @cons name command _ args hname _ =>
      dsimp only
      rw [run_compute_bind hname.string]
      cases getCommandIndex command with
      | none =>
          simp only [run_liftM_bind, map_bind]
          rfl
      | some cmdIdx =>
          dsimp only
          rw [run_compute_bind hargv]
          rw [run_liftM_bind, map_bind]
          refine bind_congr fun pid ↦ ?_
          split
          · simp only [run_liftM_bind, map_bind]
            rfl
          · split
            · simp only [run_liftM_bind, map_bind, map_pure, OptionT.run_pure]
            · rw [map_pure, OptionT.run_pure]

/-- What follows a stage, in both versions. -/
theorem run_runStage_bind (h : Str buf p s) (stdinFd stdoutFd : Int) (background : Bool)
    (closeFds : List Int) :
    ∃ buf', Elsewhere p s buf buf' ∧ ∀ {α : Type} (f : Int × Buf → OptionT Sh α),
      (runStage buf p stdinFd stdoutFd background closeFds >>= f).run =
        Shell.runStage s stdinFd stdoutFd background closeFds >>=
          fun pid ↦ (f (pid, buf')).run := by
  obtain ⟨buf', hrun, helse⟩ := run_runStage h stdinFd stdoutFd background closeFds
  refine ⟨buf', helse, fun f ↦ ?_⟩
  rw [OptionT.run_bind, hrun, Option.elimM, bind_map_left]
  rfl

theorem run_runSingle (h : Str buf p s) (background : Bool) (childStdin : Int) :
    (runSingle buf background childStdin p).run =
      some <$> Shell.runSingle background childStdin s := by
  obtain ⟨buf', -, hrun⟩ := run_runStage_bind h (firstStdin background childStdin) STDOUT
    background (if childStdin ≥ 0 then [childStdin] else [])
  rw [runSingle, Shell.runSingle, hrun, map_bind]
  refine bind_congr fun pid ↦ ?_
  dsimp only
  split
  · simp only [run_liftM_bind, run_liftM, map_bind]
  · rw [run_liftM]

theorem run_runSecond (h : Str buf p s) (background : Bool) (childStdin : Int)
    (pipeFds : Int × Int) (pid1 : Int) :
    (runSecond buf background childStdin pipeFds pid1 p).run =
      some <$> Shell.runSecond background childStdin pipeFds pid1 s := by
  obtain ⟨buf', -, hrun⟩ := run_runStage_bind h pipeFds.1 STDOUT background
    (pipeFds.2 :: if childStdin ≥ 0 then [childStdin] else [])
  rw [runSecond, Shell.runSecond, hrun]
  simp only [run_liftM_bind, run_liftM, map_bind]

theorem run_runPipeline {p₁ p₂ : Nat} {s₁ s₂ : List Char} (h₁ : Str buf p₁ s₁)
    (h₂ : Str buf p₂ s₂) (hlt : p₁ + s₁.length < p₂) (background : Bool) (childStdin : Int) :
    (runPipeline buf background childStdin p₁ p₂).run =
      some <$> Shell.runPipeline background childStdin s₁ s₂ := by
  rw [runPipeline, Shell.runPipeline, OptionT.run_bind_lift, map_bind]
  refine bind_congr fun pipeFds ↦ ?_
  cases pipeFds with
  | none => simp only [run_liftM_bind, run_liftM, map_bind]
  | some pipeFds =>
      obtain ⟨buf', helse, hrun⟩ := run_runStage_bind h₁ (firstStdin background childStdin)
        pipeFds.2 background (pipeFds.1 :: if childStdin ≥ 0 ∧
          childStdin ≠ firstStdin background childStdin then [childStdin] else [])
      dsimp only
      rw [hrun, map_bind]
      refine bind_congr fun pid1 ↦ ?_
      dsimp only
      split
      · simp only [run_liftM_bind, run_liftM, map_bind]
      · -- What the first stage has left in the buffer does not concern the second one.
        exact run_runSecond (h₂.congr fun i hi _ ↦ helse i (.inr (by omega))) background childStdin
          pipeFds pid1

/-- **The line in the buffer is run as the list of its characters is.** -/
theorem run_runLine (h : Str line 0 s) : (runLine line).run = some <$> Shell.runLine s := by
  obtain ⟨line₁, hbackground, h₁⟩ := hasBackground_spec h
  obtain ⟨stages, line₂, hstages, hrel, -⟩ := splitPipeline_spec (MAX_PIPELINE - 1) h₁
  rw [runLine, run_compute_bind hbackground, Shell.runLine]
  dsimp only
  rw [run_compute_bind hstages]
  generalize Shell.splitPipeline (MAX_PIPELINE - 1) (Shell.hasBackground s).2 = strs at hrel ⊢
  cases hrel with
  | none => exact run_liftM _
  | some hstrs =>
      cases hstrs with
      | nil => rfl
      | cons hp hstr hstrs =>
          cases hstrs with
          | nil =>
              dsimp only
              rw [run_liftM_bind, map_bind]
              exact bind_congr fun childStdin ↦ run_runSingle hstr _ childStdin
          | cons hp' hstr' _ =>
              dsimp only
              rw [run_liftM_bind, map_bind]
              exact bind_congr fun childStdin ↦
                run_runPipeline hstr hstr' (by omega) _ childStdin

/-! ## The grammar -/

/-- The maximal runs of characters that are no blanks. -/
def words (s : List Char) : List (List Char) := (s.splitOnP isBlank).filter (· ≠ [])

/-- The end of a line: blanks, and one `&` with the blanks before it. -/
inductive Strips : (line : List Char) → (background : Bool) → (rest : List Char) → Prop
  | foreground {rest blanks : List Char} (hblanks : ∀ c ∈ blanks, isBlank c)
      (hrest : ∀ c ∈ rest.getLast?, ¬isBlank c ∧ c ≠ '&') : Strips (rest ++ blanks) false rest
  | background {rest blanks blanks' : List Char} (hblanks : ∀ c ∈ blanks, isBlank c)
      (hblanks' : ∀ c ∈ blanks', isBlank c) (hrest : ∀ c ∈ rest.getLast?, ¬isBlank c) :
      Strips (rest ++ blanks ++ '&' :: blanks') true rest

/-- The command that a stage names, with the `argv` of its process. -/
def command (s : List Char) : Option (Nat × List (List Char)) :=
  let argv := (words s).take MAX_TOKENS
  (argv.head?.bind getCommandIndex).map (·, argv)

/-- The processes of a list of stages: a stage that names no command is the last one. -/
def started : List (Option (Nat × List (List Char))) → List (Nat × List (List Char))
  | [] | none :: _ => []
  | some c :: stages => c :: started stages

/-- The processes that are created, by the index of the command and by `argv`. -/
def creations (l : List (Sigma Call.Ans)) : List (Nat × List (List Char)) :=
  l.filterMap fun x ↦
    match x.1 with
    | .createProcess cmdIdx argv _ => some (cmdIdx, argv)
    | _ => none

/-- The call has not failed. -/
def Succeeds : Sigma Call.Ans → Prop
  | ⟨.pipe, pipeFds⟩ => pipeFds ≠ none
  | ⟨.createProcess _ _ _, pid⟩ => 0 ≤ pid
  | _ => True

/-! ### The tokens of a stage -/

theorem words_cons (c : Char) (s : List Char) (hc : isBlank c) : words (c :: s) = words s := by
  rw [words, List.splitOnP_cons_eq_if_modifyHead, if_pos hc, List.filter_cons_of_neg (by simp)]
  rfl

/-- Blanks at the beginning do not matter. -/
theorem words_dropWhile {f : Char → Bool} (hf : ∀ c, f c → isBlank c) (s : List Char) :
    words (s.dropWhile f) = words s := by
  induction s with
  | nil => rfl
  | cons c s ih =>
      cases hc : f c with
      | true => rw [List.dropWhile_cons_of_pos hc, ih, words_cons c s (hf c hc)]
      | false => rw [List.dropWhile_cons_of_neg (by simp [hc])]

/-- The first word. -/
theorem words_of_head {c : Char} {cs : List Char} (hc : isBlank c = false) :
    words (c :: cs) = (c :: cs).takeWhile (!isBlank ·) ::
      words ((c :: cs).dropWhile (!isBlank ·)).tail := by
  have hall : ∀ d ∈ (c :: cs).takeWhile (!isBlank ·), isBlank d = false := fun d hd ↦ by
    simpa using List.mem_takeWhile_imp hd
  have hne : (c :: cs).takeWhile (!isBlank ·) ≠ [] := by
    rw [List.takeWhile_cons_of_pos (by simp [hc])]
    exact List.cons_ne_nil _ _
  have happ := List.takeWhile_append_dropWhile (p := (!isBlank ·)) (l := c :: cs)
  generalize (c :: cs).takeWhile (!isBlank ·) = w at hall hne happ ⊢
  cases hrest : (c :: cs).dropWhile (!isBlank ·) with
  | nil =>
      rw [hrest, List.append_nil] at happ
      rw [← happ, words, List.splitOnP_eq_singleton hall, List.filter_cons_of_pos (by simp [hne])]
      rfl
  | cons d ds =>
      have hd := List.head?_dropWhile_not (!isBlank ·) (c :: cs)
      rw [hrest] at happ hd
      rw [← happ, words, List.splitOnP_append_cons_of_forall_mem hall d (by simpa using hd),
        List.filter_cons_of_pos (by simp [hne])]
      rfl

/-- **The tokens of a stage are its first words.** -/
theorem tokenize_eq_words (n : Nat) (s : List Char) : Shell.tokenize n s = (words s).take n := by
  induction n generalizing s with
  | zero => rfl
  | succ n ih =>
      rw [← words_dropWhile (fun _ h ↦ h) s]
      cases hs : s.dropWhile isBlank with
      | nil => simp [Shell.tokenize, hs, words]
      | cons c cs =>
          have hc := List.head?_dropWhile_not isBlank s
          rw [hs] at hc
          rw [tokenize_succ (by simp [hs]), hs, ih, words_of_head (by simpa using hc),
            List.take_succ_cons]

/-! ### The stages of a line -/

/-- Spaces before the first stage do not matter. -/
theorem map_command_dropWhile (s : List Char) :
    ((s.dropWhile (· = ' ')).splitOn '|').map command = (s.splitOn '|').map command := by
  induction s with
  | nil => rfl
  | cons c s ih =>
      by_cases hc : c = ' '
      · rw [List.dropWhile_cons_of_pos (by simp [hc]), ih, List.splitOn_cons_eq_if_modifyHead,
          if_neg (by simp [hc])]
        cases hs : s.splitOn '|' with
        | nil => rfl
        | cons t ts =>
            have hwords := words_cons c t (by simp [hc, isBlank])
            simp [command, hwords]
      · rw [List.dropWhile_cons_of_neg (by simp [hc])]

theorem count_dropWhile (s : List Char) : (s.dropWhile (· = ' ')).count '|' = s.count '|' := by
  induction s with
  | nil => rfl
  | cons c s ih =>
      by_cases hc : c = ' '
      · rw [List.dropWhile_cons_of_pos (by simp [hc]), ih, hc]
        rfl
      · rw [List.dropWhile_cons_of_neg (by simp [hc])]

theorem forall_ne_of_notMem {s : List Char} (hs : '|' ∉ s) : ∀ c ∈ s, decide (c ≠ '|') = true := by
  intro c hc
  rw [decide_eq_true_iff]
  rintro rfl
  exact hs hc

/-- Up to the first `|`. -/
theorem dropWhile_append {s t : List Char} (hs : '|' ∉ s) :
    (s ++ '|' :: t).dropWhile (· ≠ '|') = '|' :: t ∧ (s ++ '|' :: t).takeWhile (· ≠ '|') = s := by
  constructor
  · rw [List.dropWhile_append_of_pos (forall_ne_of_notMem hs)]
    rfl
  · rw [List.takeWhile_append_of_pos (forall_ne_of_notMem hs)]
    exact List.append_nil s

/-- A line with a `|` in it, and room for the stage behind it. -/
theorem splitPipeline_append {room : Nat} {s t : List Char} (hs : '|' ∉ s) :
    Shell.splitPipeline (room + 1) (s ++ '|' :: t) =
      (Shell.splitPipeline room (t.dropWhile (· = ' '))).map (s :: ·) := by
  rw [Shell.splitPipeline, (dropWhile_append hs).1, (dropWhile_append hs).2]

/-- A line without a `|` is one stage. -/
theorem splitPipeline_one {room : Nat} (hs : '|' ∉ s) :
    Shell.splitPipeline room s = some [s] := by
  rw [Shell.splitPipeline, List.dropWhile_eq_nil_iff.2 (forall_ne_of_notMem hs)]

/-- **There are no more stages than there is room for**, -/
theorem splitPipeline_eq_none {room : Nat} (h : room < s.count '|') :
    Shell.splitPipeline room s = none := by
  induction room generalizing s with
  | zero =>
      obtain ⟨t, u, rfl, ht⟩ := List.eq_append_cons_of_mem (List.count_pos_iff.1 h)
      rw [Shell.splitPipeline, (dropWhile_append ht).1]
  | succ room ih =>
      have hmem := List.count_pos_iff.1 (Nat.zero_lt_of_lt h)
      obtain ⟨t, u, rfl, ht⟩ := List.eq_append_cons_of_mem hmem
      rw [List.count_append, List.count_eq_zero.2 ht, Nat.zero_add, List.count_cons_self] at h
      rw [splitPipeline_append ht, ih (by rw [count_dropWhile]; omega)]
      rfl

/-- **and they are the segments of the line.** -/
theorem splitPipeline_eq_some {room : Nat} (h : s.count '|' ≤ room) :
    ∃ stages, Shell.splitPipeline room s = some stages ∧ stages.length ≤ room + 1 ∧
      stages.map command = (s.splitOn '|').map command := by
  induction room generalizing s with
  | zero =>
      have hs := List.count_eq_zero.1 (Nat.le_zero.1 h)
      exact ⟨[s], splitPipeline_one hs, le_rfl, by rw [List.splitOn_eq_singleton hs]⟩
  | succ room ih =>
      by_cases hmem : '|' ∈ s
      · obtain ⟨t, u, rfl, ht⟩ := List.eq_append_cons_of_mem hmem
        rw [List.count_append, List.count_eq_zero.2 ht, Nat.zero_add, List.count_cons_self] at h
        obtain ⟨stages, hstages, hlen, hmap⟩ := ih (s := u.dropWhile (· = ' '))
          (by rw [count_dropWhile]; omega)
        refine ⟨t :: stages, ?_, Nat.succ_le_succ hlen, ?_⟩
        · rw [splitPipeline_append ht, hstages, Option.map_some]
        · rw [List.map_cons, hmap, map_command_dropWhile, List.splitOn_append_cons_self,
            List.splitOn_eq_singleton ht]
          rfl
      · exact ⟨[s], splitPipeline_one hmem, by simp, by rw [List.splitOn_eq_singleton hmem]⟩

/-! ### The calls of a stage -/

variable {l l₁ l₂ : List (Sigma Call.Ans)}

@[simp] theorem creations_nil : creations [] = [] := rfl

@[simp] theorem creations_append : creations (l₁ ++ l₂) = creations l₁ ++ creations l₂ :=
  List.filterMap_append

/-- A program that creates no process, with what it returns. -/
def Quiet {α : Type} (p : Sh α) (Q : α → Prop) : Prop :=
  ∀ l a, p.Returns l a → creations l = [] ∧ Q a

namespace Quiet

variable {α β : Type} {p : Sh α} {f : α → Sh β} {Q : α → Prop} {R : β → Prop}

theorem pure {a : α} (ha : Q a) : Quiet (pure a : Sh α) Q := by
  intro l b h
  obtain ⟨rfl, rfl⟩ := Prog.returns_pure.1 h
  exact ⟨rfl, ha⟩

theorem bind (hp : Quiet p Q) (hf : ∀ a, Quiet (f a) R) : Quiet (p >>= f) R := by
  intro l b h
  obtain ⟨l₁, l₂, a, rfl, h₁, h₂⟩ := Prog.returns_bind.1 h
  rw [creations_append, (hp l₁ a h₁).1, (hf a l₂ b h₂).1]
  exact ⟨rfl, (hf a l₂ b h₂).2⟩

theorem sys {c : Call} (hc : ∀ b, creations [⟨c, b⟩] = []) : Quiet (Shell.sys c) fun _ ↦ True := by
  intro l b h
  rw [Prog.returns_request.1 h]
  exact ⟨hc b, trivial⟩

theorem sys_write (fd : Int) (text : List Char) : Quiet (Shell.sys_write fd text) fun _ ↦ True :=
  sys fun _ ↦ rfl

theorem sys_close (fd : Int) : Quiet (Shell.sys_close fd) fun _ ↦ True := sys fun _ ↦ rfl

theorem sys_waitpid (pid : Int) : Quiet (Shell.sys_waitpid pid) fun _ ↦ True := sys fun _ ↦ rfl

theorem closeIfOpen (fd : Int) : Quiet (Shell.closeIfOpen fd) fun _ ↦ True := by
  rw [Shell.closeIfOpen]
  split
  · exact sys_close fd
  · exact pure trivial

theorem waitStages (background : Bool) (childStdin pid1 pid2 : Int) :
    Quiet (Shell.waitStages background childStdin pid1 pid2) fun _ ↦ True := by
  rw [Shell.waitStages]
  split
  · refine bind (sys fun _ ↦ rfl) fun _ ↦ ?_
    dsimp only
    split
    · exact bind (sys_waitpid pid1) fun _ ↦ closeIfOpen childStdin
    · exact closeIfOpen childStdin
  · dsimp only
    split
    · exact bind (sys_waitpid pid1) fun _ ↦ bind (sys_waitpid pid2) fun _ ↦
        bind (sys_write STDOUT _) fun _ ↦ closeIfOpen childStdin
    · exact closeIfOpen childStdin

end Quiet

/-- **A stage creates the process of its command**, or none. -/
theorem creations_runStage {stdinFd stdoutFd pid : Int} {background : Bool} {closeFds : List Int}
    (h : (Shell.runStage s stdinFd stdoutFd background closeFds).Returns l pid) :
    creations l = (command s).toList ∧ (command s = none → pid < 0) ∧
      ((∀ x ∈ l, Succeeds x) → command s ≠ none → 0 ≤ pid) := by
  rw [command, ← tokenize_eq_words]
  rw [Shell.runStage] at h
  cases hs : Shell.tokenize MAX_TOKENS s with
  | nil =>
      rw [hs] at h
      obtain ⟨rfl, rfl⟩ := Prog.returns_pure.1 h
      exact ⟨rfl, fun _ ↦ by decide, fun _ hne ↦ absurd rfl hne⟩
  | cons name args =>
      rw [hs] at h
      dsimp only [List.head?_cons, Option.bind_some] at h ⊢
      cases hidx : getCommandIndex name with
      | none =>
          rw [hidx] at h
          dsimp only at h
          have hquiet : creations l = [] ∧ pid < 0 := by
            refine Quiet.bind (R := (· < 0)) (Quiet.sys_write _ _) (fun _ ↦ ?_) l pid h
            exact .bind (.sys_write _ _) fun _ ↦ .bind (.sys_write _ _) fun _ ↦ .pure (by decide)
          exact ⟨hquiet.1, fun _ ↦ hquiet.2, fun _ hne ↦ absurd rfl hne⟩
      | some cmdIdx =>
          rw [hidx] at h
          dsimp only at h
          obtain ⟨l₁, l₂, pid', rfl, h₁, h₂⟩ := Prog.returns_bind.1 h
          cases Prog.returns_request.1 h₁
          have hquiet : creations l₂ = [] ∧ (0 ≤ pid' → 0 ≤ pid) := by
            split at h₂
            next hneg =>
                have hwrite := Quiet.sys_write STDERR "shell: cannot spawn\n".toList
                refine hwrite.bind (R := fun pid ↦ 0 ≤ pid' → 0 ≤ pid)
                  (fun _ ↦ Quiet.pure fun hpos ↦ ?_) l₂ pid h₂
                omega
            next =>
                split at h₂
                · have hforeground : Quiet (sys_foreground pid') fun _ ↦ True := .sys fun _ ↦ rfl
                  exact hforeground.bind (R := fun pid ↦ 0 ≤ pid' → 0 ≤ pid)
                    (fun _ ↦ Quiet.pure id) l₂ pid h₂
                · exact Quiet.pure (Q := fun pid ↦ 0 ≤ pid' → 0 ≤ pid) id l₂ pid h₂
          refine ⟨?_, fun hne ↦ absurd hne (Option.some_ne_none _),
            fun hall _ ↦ hquiet.2 (hall _ List.mem_cons_self)⟩
          rw [creations_append, hquiet.1]
          rfl

/-! ### The calls of a line -/

theorem creations_runSingle {background : Bool} {childStdin : Int} {a : Unit}
    (h : (Shell.runSingle background childStdin s).Returns l a) :
    creations l = (command s).toList := by
  rw [Shell.runSingle] at h
  obtain ⟨l₁, l₂, pid, rfl, h₁, h₂⟩ := Prog.returns_bind.1 h
  have hquiet : creations l₂ = [] := by
    split at h₂
    · exact ((Quiet.sys_waitpid pid).bind (fun _ ↦ (Quiet.sys_write STDOUT _).bind
        fun _ ↦ Quiet.closeIfOpen childStdin) l₂ a h₂).1
    · exact (Quiet.closeIfOpen childStdin l₂ a h₂).1
  rw [creations_append, hquiet, List.append_nil, (creations_runStage h₁).1]

theorem creations_runSecond {background : Bool} {childStdin pid1 : Int} {pipeFds : Int × Int}
    {a : Unit} (h : (Shell.runSecond background childStdin pipeFds pid1 s).Returns l a) :
    creations l = (command s).toList := by
  rw [Shell.runSecond] at h
  obtain ⟨l₁, l₂, pid2, rfl, h₁, h₂⟩ := Prog.returns_bind.1 h
  have hquiet := (Quiet.sys_close pipeFds.1).bind (fun _ ↦ (Quiet.sys_close pipeFds.2).bind
    fun _ ↦ Quiet.waitStages background childStdin pid1 pid2) l₂ a h₂
  rw [creations_append, hquiet.1, List.append_nil, (creations_runStage h₁).1]

/-- The second stage is run only if the process of the first one has been created. -/
theorem creations_runPipeline {s₁ s₂ : List Char} {background : Bool} {childStdin : Int} {a : Unit}
    (h : (Shell.runPipeline background childStdin s₁ s₂).Returns l a) :
    creations l <+: started [command s₁, command s₂] ∧
      ((∀ x ∈ l, Succeeds x) → creations l = started [command s₁, command s₂]) := by
  rw [Shell.runPipeline] at h
  obtain ⟨l₀, l, pipeFds, rfl, h₀, hrun⟩ := Prog.returns_bind.1 h
  cases Prog.returns_request.1 h₀
  rw [creations_append, show creations [⟨Call.pipe, pipeFds⟩] = [] from rfl, List.nil_append]
  cases pipeFds with
  | none =>
      have hquiet := (Quiet.sys_write STDERR "shell: cannot create pipe\n".toList).bind
        (fun _ ↦ Quiet.closeIfOpen childStdin) l a hrun
      rw [hquiet.1]
      exact ⟨List.nil_prefix, fun hall ↦ absurd rfl (hall _ List.mem_cons_self)⟩
  | some pipeFds =>
      obtain ⟨l₁, l₂, pid1, rfl, h₁, h₂⟩ := Prog.returns_bind.1 hrun
      obtain ⟨hcreate, hunknown, hknown⟩ := creations_runStage h₁
      rw [creations_append, hcreate]
      split at h₂
      next hneg =>
          have hquiet := (Quiet.sys_close pipeFds.1).bind (fun _ ↦ (Quiet.sys_close pipeFds.2).bind
            fun _ ↦ Quiet.closeIfOpen childStdin) l₂ a h₂
          rw [hquiet.1]
          cases hcmd : command s₁ with
          | none => exact ⟨List.nil_prefix, fun _ ↦ rfl⟩
          | some c =>
              refine ⟨List.prefix_append [c] _, fun hall ↦ ?_⟩
              have hpos := hknown (fun x hx ↦ hall x (by simp [hx])) (by simp [hcmd])
              omega
      next hpos =>
          have hsecond := creations_runSecond h₂
          cases hcmd : command s₁ with
          | none => exact absurd (hunknown hcmd) hpos
          | some c =>
              have heq : started [some c, command s₂] = c :: (command s₂).toList := by
                cases command s₂ <;> rfl
              rw [hsecond, heq]
              exact ⟨List.prefix_rfl, fun _ ↦ rfl⟩

/-- **What a line creates**, once its end is stripped. -/
theorem creations_runLine {a : Unit} (h : (Shell.runLine s).Returns l a) :
    (1 < (Shell.hasBackground s).2.count '|' → creations l = []) ∧
    ((Shell.hasBackground s).2.count '|' ≤ 1 →
      creations l <+: started (((Shell.hasBackground s).2.splitOn '|').map command) ∧
      ((∀ x ∈ l, Succeeds x) →
        creations l = started (((Shell.hasBackground s).2.splitOn '|').map command))) := by
  rw [Shell.runLine] at h
  dsimp only at h
  generalize (Shell.hasBackground s).2 = rest at h ⊢
  constructor
  · intro hmany
    rw [splitPipeline_eq_none (show MAX_PIPELINE - 1 < _ from hmany)] at h
    exact (Quiet.sys_write _ _ l a h).1
  · intro hfew
    obtain ⟨stages, hstages, hlen, hmap⟩ :=
      splitPipeline_eq_some (show _ ≤ MAX_PIPELINE - 1 from hfew)
    rw [hstages] at h
    rw [← hmap]
    obtain _ | ⟨stage₁, _ | ⟨stage₂, _ | _⟩⟩ := stages
    · obtain ⟨rfl, -⟩ := Prog.returns_pure.1 h
      exact ⟨List.prefix_rfl, fun _ ↦ rfl⟩
    · obtain ⟨l₁, l₂, childStdin, rfl, h₁, h₂⟩ := Prog.returns_bind.1 h
      cases Prog.returns_request.1 h₁
      have heq : creations l₂ = started [command stage₁] := by
        rw [creations_runSingle h₂]
        cases command stage₁ <;> rfl
      rw [creations_append, heq]
      exact ⟨List.prefix_rfl, fun _ ↦ rfl⟩
    · obtain ⟨l₁, l₂, childStdin, rfl, h₁, h₂⟩ := Prog.returns_bind.1 h
      cases Prog.returns_request.1 h₁
      obtain ⟨hinitial, hall⟩ := creations_runPipeline h₂
      exact ⟨hinitial, fun hsucceeds ↦ hall fun x hx ↦ hsucceeds x (List.mem_cons_of_mem _ hx)⟩
    · exact absurd hlen (by simp [MAX_PIPELINE])

/-! ### The end of a line -/

theorem rdropWhile_append {rest blanks : List Char} (hblanks : ∀ c ∈ blanks, isBlank c)
    (hrest : ∀ c ∈ rest.getLast?, ¬isBlank c) : (rest ++ blanks).rdropWhile isBlank = rest := by
  induction blanks using List.reverseRecOn with
  | nil =>
      rw [List.append_nil, List.rdropWhile_eq_self_iff]
      exact fun hne ↦ hrest _ (List.getLast?_eq_some_getLast hne)
  | append_singleton blanks c ih =>
      rw [← List.append_assoc, List.rdropWhile_concat_pos _ _ _ (hblanks c (by simp))]
      exact ih fun d hd ↦ hblanks d (by simp [hd])

/-- What is left has no blank at its end. -/
theorem getLast?_rdropWhile {c : Char} (hc : c ∈ (s.rdropWhile isBlank).getLast?) :
    ¬isBlank c := by
  have hne : s.rdropWhile isBlank ≠ [] := by
    rintro hnil
    simp [hnil] at hc
  rw [List.getLast?_eq_some_getLast hne, Option.mem_some_iff] at hc
  rw [← hc]
  exact List.rdropWhile_last_not isBlank s hne

/-- A line ends in one way only. -/
theorem Strips.hasBackground {rest : List Char} {background : Bool}
    (h : Strips line background rest) : Shell.hasBackground line = (background, rest) := by
  cases h with
  | foreground hblanks hrest =>
      rw [Shell.hasBackground, rdropWhile_append hblanks fun c hc ↦ (hrest c hc).1]
      exact if_neg fun hlast ↦ (hrest '&' hlast).2 rfl
  | @background _ blanks blanks' hblanks hblanks' hrest =>
      have happ : rest ++ blanks ++ '&' :: blanks' = (rest ++ blanks ++ ['&']) ++ blanks' := by simp
      rw [Shell.hasBackground, happ, rdropWhile_append hblanks' (by simp [isBlank])]
      simp [rdropWhile_append hblanks hrest]

/-- Every line ends in this way. -/
theorem strips_hasBackground (line : List Char) :
    Strips line (Shell.hasBackground line).1 (Shell.hasBackground line).2 := by
  have happ := List.rdropWhile_append_rtakeWhile (p := isBlank) (l := line)
  rw [Shell.hasBackground]
  split
  next hlast =>
      obtain ⟨rest, hrest⟩ := List.getLast?_eq_some_iff.1 hlast
      rw [hrest, List.dropLast_concat]
      have hstrips := Strips.background (fun c (hc : c ∈ rest.rtakeWhile isBlank) ↦
        List.mem_rtakeWhile_imp hc) (fun c (hc : c ∈ line.rtakeWhile isBlank) ↦
        List.mem_rtakeWhile_imp hc) fun c (hc : c ∈ (rest.rdropWhile isBlank).getLast?) ↦
        getLast?_rdropWhile hc
      rwa [List.rdropWhile_append_rtakeWhile, List.append_cons, ← hrest, happ] at hstrips
  next hlast =>
      have hstrips := Strips.foreground (fun c (hc : c ∈ line.rtakeWhile isBlank) ↦
        List.mem_rtakeWhile_imp hc) fun c (hc : c ∈ (line.rdropWhile isBlank).getLast?) ↦
        ⟨getLast?_rdropWhile hc, fun heq ↦ hlast (heq ▸ hc)⟩
      rwa [happ] at hstrips

/-- So its end is found in one way only. -/
theorem Strips.unique {rest rest' : List Char} {background background' : Bool}
    (h : Strips line background rest) (h' : Strips line background' rest') :
    background = background' ∧ rest = rest' :=
  Prod.mk.inj (h.hasBackground.symm.trans h'.hasBackground)

/-- **`runLine` accepts its grammar.**  The line is in a buffer, with a zero at its end and
anything behind it.  Whatever the system calls answer, the passes stay in the buffer; a line with
more than one `|` creates nothing; and else the processes that are created are those that the
segments name, in their order and with their first words as `argv`, up to where a segment names
no command or a call fails. -/
theorem runLine_grammar (line garbage : List Char) (hline : '\x00' ∉ line) :
    ∃ background rest, Strips line background rest ∧
      (∃ buf, hasBackground (line ++ '\x00' :: garbage) = some (background, buf) ∧ Str buf 0 rest) ∧
      ∀ l r, (runLine (line ++ '\x00' :: garbage)).run.Returns l r →
        r = some () ∧
        (1 < rest.count '|' → creations l = []) ∧
        (rest.count '|' ≤ 1 →
          creations l <+: started ((rest.splitOn '|').map command) ∧
          ((∀ x ∈ l, Succeeds x) → creations l = started ((rest.splitOn '|').map command))) := by
  have hstr : Str (line ++ '\x00' :: garbage) 0 line := ⟨hline, garbage, by simp⟩
  refine ⟨_, _, strips_hasBackground line, hasBackground_spec hstr, fun l r hrun ↦ ?_⟩
  rw [run_runLine hstr] at hrun
  obtain ⟨a, ha, rfl⟩ := Prog.returns_map.1 hrun
  exact ⟨rfl, creations_runLine ha⟩

/-- Two stages in the background, with blanks around the `|` and the `&`. -/
theorem runLine_grammar_pipeline :
    (∃ buf, hasBackground ("ls |\twc  a & ".toList ++ ['\x00']) = some (true, buf) ∧
      Str buf 0 "ls |\twc  a".toList) ∧
    ∀ l r, (runLine ("ls |\twc  a & ".toList ++ ['\x00'])).run.Returns l r →
      creations l <+: [(5, ["ls".toList]), (16, ["wc".toList, "a".toList])] := by
  obtain ⟨background, rest, hstrips, hbuf, hcalls⟩ :=
    runLine_grammar "ls |\twc  a & ".toList [] (by decide)
  have hblank : ∀ c ∈ [' '], isBlank c := List.forall_mem_singleton.2 rfl
  have hlast : "ls |\twc  a".toList.getLast? = some 'a' := by decide
  have hstrips' : Strips "ls |\twc  a & ".toList true "ls |\twc  a".toList := by
    refine @Strips.background "ls |\twc  a".toList [' '] [' '] hblank hblank fun c hc ↦ ?_
    rw [hlast] at hc
    cases hc
    decide
  obtain ⟨rfl, rfl⟩ := hstrips.unique hstrips'
  refine ⟨hbuf, fun l r hrun ↦ ?_⟩
  obtain ⟨-, -, hfew⟩ := hcalls l r hrun
  have hstarted : started (("ls |\twc  a".toList.splitOn '|').map command) =
      [(5, ["ls".toList]), (16, ["wc".toList, "a".toList])] := by decide +kernel
  rw [← hstarted]
  exact (hfew (by decide)).1

end BareBones.Userland.LineParser
