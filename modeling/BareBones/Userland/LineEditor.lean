import BareBones.Userland.Terminal
import Mathlib.Algebra.Order.Ring.Int
import Mathlib.Data.List.Infix
import Mathlib.Tactic.Linarith
import Mathlib.Tactic.Ring

/-!
# The line editor

`readLine` of `shell.c` keeps the line in a buffer and echoes what it accepts, one byte a
keystroke; the terminal draws the echo with a cursor of its own.  Neither knows of the other.

A screen is here the character that each cell shows, the one that was drawn there last; the
colours, and that a character and a rectangle cover a cell, are not looked at.  Cells and
cursors are counted through from the top: the last column of a row, once it is drawn, and the
first one of the next row are the same position (`pos`).

**Key results**:
- `drawNormalChar_pos`, `backspace_pos`: what the two steps of the terminal are on positions.
- `agrees_iff`: the screen shows the line, with the cursor behind it, after every keystroke
  **exactly when** no Backspace takes back a tab, which is drawn as four blanks and of which the
  terminal erases one.
-/

namespace BareBones.Userland.LineEditor

open Terminal

/-! ## The editor -/

/-- The local variables of `readLine`, and what it has returned. -/
structure Editor where
  line : Nat → UInt8
  idx : Nat
  returned : Option Int

namespace Editor

/-- `line[0..idx)` -/
def content (e : Editor) : List UInt8 := (List.range e.idx).map e.line

/-- `isPrintableAscii` -/
def isPrintableAscii (c : UInt8) : Bool :=
  let symbol := SPACE ≤ c && c ≤ letter '~'
  let validSpecial := c = NEWLINE || c = BACKSPACE || c = TAB
  symbol || validSpecial

/-- One turn of `readLine` and its echo; `none` is the end of the input.  Once it has returned,
it reads no more. -/
def readKey (maxLen : Int) (e : Editor) (key : Option UInt8) : Editor × List UInt8 :=
  if e.returned.isSome then (e, [])
  else
    match key with
    | none => ({ e with returned := some (-1) }, [])
    | some c =>
        if c = 0 then (e, [])
        else if c = NEWLINE then
          ({ e with line := Function.update e.line e.idx 0, returned := some e.idx }, [NEWLINE])
        else if c = BACKSPACE then
          if e.idx > 0 then
            ({ e with idx := e.idx - 1, line := Function.update e.line (e.idx - 1) 0 }, [BACKSPACE])
          else (e, [])
        else if e.idx < maxLen - 1 ∧ isPrintableAscii c then
          ({ e with line := Function.update e.line e.idx c, idx := e.idx + 1 }, [c])
        else (e, [])

/-- `readLine` as it begins, on a buffer with any contents. -/
def start (line : Nat → UInt8) : Editor := ⟨line, 0, none⟩

/-- The keystrokes one after the other, and the whole echo. -/
def readKeys (maxLen : Int) : (e : Editor) → List (Option UInt8) → Editor × List UInt8
  | e, [] => (e, [])
  | e, key :: keys =>
      let (e, echo) := e.readKey maxLen key
      let (e, echo') := readKeys maxLen e keys
      (e, echo ++ echo')

end Editor

/-! ## The screen -/

/-- The character that each cell shows, by column and row. -/
abbrev Cells := Int → Int → UInt8

/-- What a system call does to the cells of a screen with so many rows. -/
def draw (rows : Int) (s : Cells) : Draw → Cells
  | .char c x y _ _ => fun col row ↦
      if col = x / CHAR_W ∧ row = (y - BASELINE_Y) / CHAR_H then c else s col row
  | .rect _ x y width height => fun col row ↦
      if x ≤ col * CHAR_W ∧ col * CHAR_W < x + width ∧ y ≤ row * CHAR_H ∧ row * CHAR_H < y + height
      then SPACE else s col row
  | .scroll pixelRows _ => fun col row ↦
      if row < rows - pixelRows / CHAR_H then s col (row + pixelRows / CHAR_H) else SPACE
  | .background _ => fun _ _ ↦ SPACE

/-- Several of them. -/
def drawAll (rows : Int) (s : Cells) (ds : List Draw) : Cells := ds.foldl (draw rows) s

/-- The cell at a position. -/
def cellAt (cols : Int) (s : Cells) (p : Int) : UInt8 := s (p % cols) (p / cols)

/-- The cells from the position `a` to the one before `b`. -/
def cellsBetween (cols : Int) (s : Cells) (a b : Int) : List UInt8 :=
  (List.range (b - a).toNat).map fun i : Nat ↦ cellAt cols s (a + i)

/-- The position of the cursor. -/
def pos (t : Term) : Int := t.cursorRow * t.cols + t.cursorCol

/-- The cursors are at the same position: past the last column of a row is the first column of
the next one. -/
def SamePosition (t u : Term) : Prop :=
  (t.cursorRow = u.cursorRow ∧ t.cursorCol = u.cursorCol) ∨
    (t.cursorCol = t.cols ∧ u.cursorCol = 0 ∧ u.cursorRow = t.cursorRow + 1) ∨
    (u.cursorCol = u.cols ∧ t.cursorCol = 0 ∧ t.cursorRow = u.cursorRow + 1)

/-- What a character of the line looks like: a tab is blanks. -/
def expand (c : UInt8) : List UInt8 := if c = TAB then List.replicate TAB_WIDTH SPACE else [c]

/-- What a line looks like. -/
def shown (line : List UInt8) : List UInt8 := line.flatMap expand

/-- The terminal `t`, with the cells `s`, shows the line from where the prompt left `t₀`. -/
structure Agrees (t₀ : Term) (line : List UInt8) (t : Term) (s : Cells) : Prop where
  /-- The cells from the end of the prompt to the cursor show exactly the line. -/
  cells : pos t₀ ≤ pos t ∧ cellsBetween t.cols s (pos t₀) (pos t) = shown line
  /-- The cursor is where printing the line would put it. -/
  cursor : ∃ u ds, t₀.feed line = some (u, ds) ∧ SamePosition t u

/-! ## Cells and positions -/

section Positions

variable {cols rows : Int} {s s' : Cells} {a b c p col row : Int} {ds ds' : List Draw}

theorem drawAll_append : drawAll rows s (ds ++ ds') = drawAll rows (drawAll rows s ds) ds' :=
  List.foldl_append

/-- A position is one cell. -/
theorem cell_iff (hcol : 0 ≤ col ∧ col < cols) :
    p % cols = col ∧ p / cols = row ↔ p = row * cols + col := by
  have hcols : 0 < cols := hcol.1.trans_lt hcol.2
  rw [and_comm, Int.ediv_emod_unique hcols]
  constructor
  · rintro ⟨h, -⟩
    rw [← h]
    ring
  · rintro rfl
    exact ⟨by ring, hcol⟩

theorem length_cellsBetween : (cellsBetween cols s a b).length = (b - a).toNat := by
  simp [cellsBetween]

theorem cellsBetween_congr (h : ∀ p, p < b → cellAt cols s p = cellAt cols s' p) :
    cellsBetween cols s a b = cellsBetween cols s' a b := by
  refine List.map_congr_left ?_
  intro i hi
  have := List.mem_range.1 hi
  exact h _ (by omega)

theorem cellsBetween_append (hab : a ≤ b) (hbc : b ≤ c) :
    cellsBetween cols s a c = cellsBetween cols s a b ++ cellsBetween cols s b c := by
  have hsplit : (c - a).toNat = (b - a).toNat + (c - b).toNat := by omega
  unfold cellsBetween
  rw [hsplit, List.range_add, List.map_append, List.map_map]
  congr 1
  refine List.map_congr_left ?_
  intro i _
  have hpos : a + ((b - a).toNat + i : Nat) = b + i := by omega
  simp only [Function.comp_apply, hpos]

theorem cellsBetween_succ : cellsBetween cols s a (a + 1) = [cellAt cols s a] := by
  simp [cellsBetween]

/-- A character in a cell. -/
theorem cellAt_char (rows : Int) (hcol : 0 ≤ col ∧ col < cols) (ch : UInt8) (fg bg : UInt32) :
    cellAt cols (draw rows s (.char ch (col * CHAR_W) (row * CHAR_H + BASELINE_Y) fg bg)) p =
      if p = row * cols + col then ch else cellAt cols s p := by
  have hx : col * CHAR_W / CHAR_W = col := Int.mul_ediv_cancel _ (by decide)
  have hy : (row * CHAR_H + BASELINE_Y - BASELINE_Y) / CHAR_H = row := by
    rw [Int.add_sub_cancel]
    exact Int.mul_ediv_cancel _ (by decide)
  unfold cellAt draw
  simp only [hx, hy, cell_iff hcol]

/-- A blank in a cell leaves the others. -/
theorem cellAt_rect (rows : Int) (hcol : 0 ≤ col ∧ col < cols) (color : UInt32)
    (hp : p ≠ row * cols + col) :
    cellAt cols (draw rows s (.rect color (col * CHAR_W)
      (row * CHAR_H + BASELINE_Y - BASELINE_Y) CHAR_W CHAR_H)) p = cellAt cols s p := by
  unfold cellAt draw
  refine if_neg ?_
  rintro ⟨h1, h2, h3, h4⟩
  unfold CHAR_W at h1 h2
  unfold CHAR_H BASELINE_Y at h3 h4
  exact hp ((cell_iff hcol).1 ⟨by omega, by omega⟩)

/-- In their bounds, cursors at the same position are those that count as the same. -/
theorem samePosition_of_pos {t u : Term} (ht : t.Bounded) (hu : u.Bounded) (hcols : u.cols = t.cols)
    (h : pos t = pos u) : SamePosition t u := by
  have h1 := ht.cols
  have h2 := ht.cursorCol
  have h3 := hu.cursorCol
  unfold pos at h
  unfold SamePosition
  rw [hcols] at h h3 ⊢
  rcases lt_trichotomy t.cursorRow u.cursorRow with hlt | heq | hgt
  · have hmul : (t.cursorRow + 1) * t.cols ≤ u.cursorRow * t.cols :=
      Int.mul_le_mul_of_nonneg_right hlt (by omega)
    have hrow : u.cursorRow = t.cursorRow + 1 := by
      by_contra hne
      have hmul : (t.cursorRow + 2) * t.cols ≤ u.cursorRow * t.cols :=
        Int.mul_le_mul_of_nonneg_right (by omega) (by omega)
      linarith
    rw [Int.add_mul] at hmul
    rw [hrow, Int.add_mul] at h
    exact .inr (.inl ⟨by omega, by omega, hrow⟩)
  · rw [heq] at h
    exact .inl ⟨heq, by omega⟩
  · have hrow : t.cursorRow = u.cursorRow + 1 := by
      by_contra hne
      have hmul : (u.cursorRow + 2) * t.cols ≤ t.cursorRow * t.cols :=
        Int.mul_le_mul_of_nonneg_right (by omega) (by omega)
      linarith
    rw [hrow, Int.add_mul] at h
    exact .inr (.inr ⟨by omega, by omega, hrow⟩)

end Positions

/-! ## Printing and erasing -/

/-- A step that draws `cs` in the cells from the cursor on, leaves the cells before, and moves
the cursor behind them. -/
structure Prints (t : Term) (cs : List UInt8) (r : Term × List Draw) : Prop where
  bounded : r.1.Bounded
  cols : r.1.cols = t.cols
  rows : r.1.rows = t.rows
  escState : r.1.escState = t.escState
  moved : pos r.1 = pos t + cs.length
  drawn : ∀ s, cellsBetween t.cols (drawAll t.rows s r.2) (pos t) (pos r.1) = cs
  other : ∀ s p, p < pos t →
    cellAt t.cols (drawAll t.rows s r.2) p = cellAt t.cols s p

section Steps

variable {t u v : Term} {cs cs' : List UInt8} {ds ds' : List Draw} {r : Term × List Draw}
    {c : UInt8}

namespace Prints

theorem nothing (h : t.Bounded) : Prints t [] (t, []) := by
  refine ⟨h, rfl, rfl, rfl, (Int.add_zero _).symm, ?_, fun _ _ _ ↦ rfl⟩
  intro s
  simp [cellsBetween]

/-- One after the other. -/
theorem trans (h : Prints t cs (u, ds)) (h' : Prints u cs' (v, ds')) :
    Prints t (cs ++ cs') (v, ds ++ ds') := by
  have hpos := h.moved
  have hpos' := h'.moved
  have hcols := h.cols
  have hrows := h.rows
  simp only at hpos hpos' hcols hrows
  refine ⟨h'.bounded, h'.cols.trans h.cols, h'.rows.trans h.rows, h'.escState.trans h.escState,
    ?_, ?_, ?_⟩
  · simp only [hpos', hpos, List.length_append]
    omega
  · intro s
    have hsame : cellsBetween t.cols (drawAll t.rows (drawAll t.rows s ds) ds')
        (pos t) (pos u) = cs := by
      rw [← h.drawn s]
      refine cellsBetween_congr fun p hp ↦ ?_
      rw [← hcols, ← hrows]
      exact h'.other _ p hp
    have hnew := h'.drawn (drawAll t.rows s ds)
    rw [hcols, hrows] at hnew
    rw [drawAll_append, cellsBetween_append (b := pos u) (by omega) (by simp only; omega),
      hsame, hnew]
  · intro s p hp
    have hother := h'.other (drawAll t.rows s ds) p (by omega)
    rw [hcols, hrows] at hother
    rw [drawAll_append, hother]
    exact h.other s p hp

/-- A single character. -/
theorem single (hb : r.1.Bounded) (hcols : r.1.cols = t.cols) (hrows : r.1.rows = t.rows)
    (hst : r.1.escState = t.escState) (hpos : pos r.1 = pos t + 1)
    (hcells : ∀ s p, cellAt t.cols (drawAll t.rows s r.2) p =
      if p = pos t then c else cellAt t.cols s p) : Prints t [c] r := by
  refine ⟨hb, hcols, hrows, hst, hpos, ?_, ?_⟩
  · intro s
    rw [hpos, cellsBetween_succ, hcells, if_pos rfl]
  · intro s p hp
    rw [hcells, if_neg (by omega)]

end Prints

/-- Drawing in the cell of the cursor. -/
theorem drawHere_prints (h : t.Bounded) (hcol : t.cursorCol < t.cols) (c : UInt8) :
    Prints t [c] (t.drawHere c) := by
  have hkeeps := h.drawHere hcol c
  refine .single hkeeps.bounded rfl rfl rfl ?_ ?_
  · show t.cursorRow * t.cols + (t.cursorCol + 1) = t.cursorRow * t.cols + t.cursorCol + 1
    omega
  · intro s p
    exact cellAt_char t.rows ⟨h.cursorCol.1, hcol⟩ c t.fgColor t.bgColor

/-- **A character is drawn at the position of the cursor**, where the screen has one, also if
the cursor stands past the end of its row. -/
theorem drawNormalChar_prints (h : t.Bounded) (hfit : pos t < t.rows * t.cols) (c : UInt8) :
    Prints t [c] (t.drawNormalChar c) := by
  by_cases hwrap : t.cursorCol < t.cols
  · rw [Term.drawNormalChar_of_lt hwrap]
    exact drawHere_prints h hwrap c
  · have hcols := h.cols
    have hcol : t.cursorCol = t.cols := le_antisymm h.cursorCol.2 (not_lt.1 hwrap)
    -- there is a row below, so nothing scrolls
    have hrow : t.cursorRow + 1 < t.rows := by
      unfold pos at hfit
      by_contra hlast
      have hmul : t.rows * t.cols ≤ (t.cursorRow + 1) * t.cols :=
        Int.mul_le_mul_of_nonneg_right (not_lt.1 hlast) (by omega)
      rw [Int.add_mul] at hmul
      omega
    have hnewline : t.newline = ({ t with cursorCol := 0, cursorRow := t.cursorRow + 1 }, []) := by
      unfold Term.newline
      exact if_neg (not_le.2 hrow)
    rw [Term.drawNormalChar_of_wrap (not_lt.1 hwrap), hnewline, List.nil_append]
    have hbelow := h.moved 0 (t.cursorRow + 1) ⟨le_rfl, by omega⟩
      ⟨by have := h.cursorRow; omega, hrow⟩
    have hprints := drawHere_prints hbelow (show (0 : Int) < t.cols by omega) c
    have hpos : pos { t with cursorCol := 0, cursorRow := t.cursorRow + 1 } = pos t := by
      show (t.cursorRow + 1) * t.cols + 0 = t.cursorRow * t.cols + t.cursorCol
      rw [hcol, Int.add_mul]
      omega
    exact ⟨hprints.bounded, hprints.cols, hprints.rows, hprints.escState,
      hprints.moved.trans (by rw [hpos]), fun s ↦ hpos ▸ hprints.drawn s,
      fun s p hp ↦ hprints.other s p (hpos.symm ▸ hp)⟩

theorem drawBlanks_prints (h : t.Bounded) (n : Nat) (hfit : pos t + n ≤ t.rows * t.cols) :
    Prints t (List.replicate n SPACE) (t.drawBlanks n) := by
  induction n generalizing t with
  | zero => exact .nothing h
  | succ n ih =>
      have hone := drawNormalChar_prints h (by omega) SPACE
      have hrest := ih hone.bounded (by
        rw [hone.moved, hone.rows, hone.cols]
        simp only [List.length_singleton]
        omega)
      exact hone.trans hrest

/-- The characters that `readLine` puts in the line. -/
def Accepted (c : UInt8) : Prop := Editor.isPrintableAscii c = true ∧ c ≠ NEWLINE ∧ c ≠ BACKSPACE

/-- The terminal prints a character of the line. -/
theorem termPutChar_prints (h : t.Bounded) (hst : t.escState = .ST_NORMAL) (hc : Accepted c)
    (hfit : pos t + (expand c).length ≤ t.rows * t.cols) :
    ∃ r, t.termPutChar c = some r ∧ Prints t (expand c) r := by
  obtain ⟨hprint, hnewline, hback⟩ := hc
  have hne : ∀ d, Editor.isPrintableAscii d = false → c ≠ d := by
    rintro d hd rfl
    rw [hprint] at hd
    cases hd
  refine ⟨t.putNormal c, ?_, ?_⟩
  · simp only [Term.termPutChar, hst]
  · simp only [Term.putNormal, if_neg (hne ESC rfl), if_neg (hne 0 rfl), if_neg hnewline,
      if_neg (hne RETURN rfl), if_neg hback, if_neg (hne FORM_FEED rfl)]
    unfold expand at hfit ⊢
    split
    next htab =>
      rw [if_pos htab, List.length_replicate] at hfit
      exact drawBlanks_prints h _ hfit
    next htab =>
      rw [if_neg htab] at hfit
      exact drawNormalChar_prints h (by simpa using Int.lt_of_add_one_le hfit) c

/-- The terminal prints a line that fits. -/
theorem feed_prints (h : t.Bounded) (hst : t.escState = .ST_NORMAL) (line : List UInt8)
    (hline : ∀ c ∈ line, Accepted c) (hfit : pos t + (shown line).length ≤ t.rows * t.cols) :
    ∃ r, t.feed line = some r ∧ Prints t (shown line) r := by
  induction line generalizing t with
  | nil => exact ⟨_, rfl, .nothing h⟩
  | cons c line ih =>
      obtain ⟨hc, hline⟩ := List.forall_mem_cons.1 hline
      have hlen : (shown (c :: line)).length = (expand c).length + (shown line).length := by
        simp [shown]
      obtain ⟨⟨u, ds⟩, hput, hprints⟩ := termPutChar_prints h hst hc (by omega)
      obtain ⟨⟨v, ds'⟩, hrun, hprints'⟩ := ih hprints.bounded (hprints.escState.trans hst) hline (by
        rw [hprints.moved, hprints.rows, hprints.cols]
        omega)
      refine ⟨(v, ds ++ ds'), ?_, hprints.trans hprints'⟩
      simp only [Term.feed, hput, Option.bind_some, hrun, Option.map_some]

theorem blank_other {rows : Int} (hcol : 0 ≤ t.cursorCol ∧ t.cursorCol < t.cols) (s : Cells)
    {p : Int} (hp : p < pos t) :
    cellAt t.cols (drawAll rows s t.blank.2) p = cellAt t.cols s p :=
  cellAt_rect rows hcol t.bgColor (ne_of_lt hp)

/-- **Backspace goes back one position** and leaves the cells before it. -/
theorem backspace_erases (h : t.Bounded) (hst : t.escState = .ST_NORMAL) (hpos : 0 < pos t) :
    ∃ r, t.termPutChar BACKSPACE = some r ∧ r.1.Bounded ∧ r.1.cols = t.cols ∧ r.1.rows = t.rows ∧
      r.1.escState = t.escState ∧ pos r.1 = pos t - 1 ∧
        ∀ s p, p < pos r.1 → cellAt t.cols (drawAll t.rows s r.2) p = cellAt t.cols s p := by
  have hkeeps := h.backspace
  refine ⟨t.backspace, ?_, hkeeps.bounded, hkeeps.cols, hkeeps.rows, ?_⟩
  · simp only [Term.termPutChar, hst]
    rfl
  have hcol := h.cursorCol
  have hcols := h.cols
  unfold Term.backspace
  split
  next hfirst =>
    have hrow : t.cursorRow ≠ 0 := by
      intro hrow
      rw [pos, hrow, hfirst] at hpos
      omega
    rw [if_neg hrow]
    have hback : (t.cursorRow - 1) * t.cols + (t.cols - 1) = pos t - 1 := by
      rw [pos, hfirst, Int.sub_mul]
      omega
    refine ⟨rfl, hback, ?_⟩
    intro s p hp
    have hlast : 0 ≤ t.cols - 1 ∧ t.cols - 1 < t.cols := by omega
    exact blank_other hlast s hp
  next hfirst =>
    have hback : t.cursorRow * t.cols + (t.cursorCol - 1) = pos t - 1 := by
      rw [pos]
      omega
    refine ⟨rfl, hback, ?_⟩
    intro s p hp
    have hbefore : 0 ≤ t.cursorCol - 1 ∧ t.cursorCol - 1 < t.cols := by omega
    exact blank_other hbefore s hp

end Steps

/-! ## Keystrokes -/

namespace Editor

variable {maxLen : Int} {e : Editor}

theorem readKeys_concat (e : Editor) (keys : List (Option UInt8)) (key : Option UInt8) :
    e.readKeys maxLen (keys ++ [key]) =
      (((e.readKeys maxLen keys).1.readKey maxLen key).1,
        (e.readKeys maxLen keys).2 ++ ((e.readKeys maxLen keys).1.readKey maxLen key).2) := by
  induction keys generalizing e with
  | nil => simp [readKeys]
  | cons k keys ih => simp [readKeys, ih]

theorem content_push (c : UInt8) :
    content { e with line := Function.update e.line e.idx c, idx := e.idx + 1 } =
      e.content ++ [c] := by
  unfold content
  rw [List.range_succ, List.map_append]
  congr 1
  · refine List.map_congr_left ?_
    intro i hi
    exact Function.update_of_ne (Nat.ne_of_lt (List.mem_range.1 hi)) _ _
  · simp

theorem content_pop (h : 0 < e.idx) : ∃ c, e.content =
    content { e with idx := e.idx - 1, line := Function.update e.line (e.idx - 1) 0 } ++ [c] := by
  obtain ⟨n, hn⟩ := Nat.exists_eq_succ_of_ne_zero (Nat.ne_of_gt h)
  refine ⟨e.line n, ?_⟩
  unfold content
  simp only [hn, Nat.succ_eq_add_one, Nat.add_sub_cancel, List.range_succ, List.map_append,
    List.map_cons, List.map_nil, List.append_cancel_right_eq]
  refine List.map_congr_left ?_
  intro i hi
  exact (Function.update_of_ne (Nat.ne_of_lt (List.mem_range.1 hi)) _ _).symm

/-- **What a keystroke does** while the line is read on: nothing, one character more and its
echo, or one character less and a backspace. -/
inductive Keyed (e : Editor) (key : Option UInt8) : Editor × List UInt8 → Prop
  | ignored (he : key ≠ some BACKSPACE ∨ e.content = []) : Keyed e key (e, [])
  | accepted {e' : Editor} {c : UInt8} (hkey : key ≠ some BACKSPACE) (hc : Accepted c)
      (he : e'.content = e.content ++ [c]) : Keyed e key (e', [c])
  | erased {e' : Editor} {c : UInt8} (hkey : key = some BACKSPACE)
      (he : e.content = e'.content ++ [c]) : Keyed e key (e', [BACKSPACE])

theorem keyed_readKey (key : Option UInt8) (hreturned : (e.readKey maxLen key).1.returned = none) :
    e.returned = none ∧ Keyed e key (e.readKey maxLen key) := by
  unfold readKey at hreturned ⊢
  split at hreturned
  next hr =>
    rw [hreturned] at hr
    cases hr
  next hr =>
    have hnone : e.returned = none := Option.not_isSome_iff_eq_none.1 hr
    refine ⟨hnone, ?_⟩
    rw [if_neg hr]
    cases key with
    | none => cases hreturned
    | some c =>
        simp only at hreturned ⊢
        by_cases hzero : c = 0
        · rw [if_pos hzero]
          exact .ignored (.inl (by rw [hzero]; decide))
        rw [if_neg hzero] at hreturned ⊢
        by_cases hnewline : c = NEWLINE
        · rw [if_pos hnewline] at hreturned
          cases hreturned
        rw [if_neg hnewline] at hreturned ⊢
        by_cases hback : c = BACKSPACE
        · rw [if_pos hback]
          split
          next hidx =>
            obtain ⟨d, hd⟩ := content_pop hidx
            exact .erased (congrArg some hback) hd
          next hidx =>
            refine .ignored (.inr ?_)
            rw [content, Nat.eq_zero_of_not_pos hidx]
            rfl
        · have hkey : some c ≠ some BACKSPACE := fun h ↦ hback (Option.some_inj.1 h)
          rw [if_neg hback]
          split
          next hroom => exact .accepted hkey ⟨hroom.2, hnewline, hback⟩ (content_push c)
          next => exact .ignored (.inl hkey)

/-- Backspace never ends the line. -/
theorem returned_backspace {key : Option UInt8} (h : e.returned = none)
    (hkey : key = some BACKSPACE) : (e.readKey maxLen key).1.returned = none := by
  subst hkey
  unfold readKey
  rw [if_neg (by simp [h])]
  show (if BACKSPACE = 0 then _ else _ : Editor × List UInt8).1.returned = none
  rw [if_neg (by decide), if_neg (by decide), if_pos rfl]
  split
  · exact h
  · exact h

end Editor

/-! ## Both together -/

/-- After some keystrokes, as long as the line is read on, the terminal shows it. -/
def AgreesAfter (maxLen : Int) (line : Nat → UInt8) (t₀ : Term) (s₀ : Cells)
    (keys : List (Option UInt8)) : Prop :=
  ((Editor.start line).readKeys maxLen keys).1.returned = none →
    ∃ t ds, t₀.feed ((Editor.start line).readKeys maxLen keys).2 = some (t, ds) ∧
      Agrees t₀ ((Editor.start line).readKeys maxLen keys).1.content t (drawAll t₀.rows s₀ ds)

/-- The keystroke takes back a tab. -/
def ErasesTab (e : Editor) (key : Option UInt8) : Prop :=
  key = some BACKSPACE ∧ e.content.getLast? = some TAB

/-- The screen has cells for the line. -/
def Fits (t₀ : Term) (line : List UInt8) : Prop := pos t₀ + (shown line).length ≤ t₀.rows * t₀.cols

/-- All of the echo prints the line that there is. -/
structure Synced (t₀ : Term) (e : Editor) (echo : List UInt8) : Prop where
  accepted : ∀ c ∈ e.content, Accepted c
  prints : ∃ r, t₀.feed echo = some r ∧ Prints t₀ (shown e.content) r

section Run

variable {t₀ t : Term} {e : Editor} {echo cs : List UInt8} {ds : List Draw} {c : UInt8}
  {key : Option UInt8} {x : Editor × List UInt8} {maxLen : Int} {line : Nat → UInt8} {s₀ : Cells}

@[simp] theorem shown_append (l l' : List UInt8) : shown (l ++ l') = shown l ++ shown l' :=
  List.flatMap_append

@[simp] theorem shown_singleton (c : UInt8) : shown [c] = expand c := List.append_nil _

/-- A character is taken back. -/
theorem Prints.erase (h : Prints t₀ (cs ++ [c]) (t, ds)) (hst : t₀.escState = .ST_NORMAL)
    (h₀ : t₀.Bounded) : ∃ r, t.termPutChar BACKSPACE = some r ∧ Prints t₀ cs (r.1, ds ++ r.2) := by
  have hpos : pos t = pos t₀ + cs.length + 1 := by
    rw [h.moved, List.length_append, List.length_singleton]
    omega
  have hstart : 0 ≤ pos t₀ :=
    Int.add_nonneg (Int.mul_nonneg h₀.cursorRow.1 (by have := h₀.cols; omega)) h₀.cursorCol.1
  have hbounded : t.Bounded := h.bounded
  obtain ⟨r, hput, hb, hcols, hrows, hstate, hback, hother⟩ :=
    backspace_erases hbounded (h.escState.trans hst) (by omega)
  have hnew : pos r.1 = pos t₀ + cs.length := by omega
  have hcols₀ : t.cols = t₀.cols := h.cols
  have hrows₀ : t.rows = t₀.rows := h.rows
  rw [hcols₀, hrows₀] at hother
  refine ⟨r, hput, hb, hcols.trans h.cols, hrows.trans h.rows, hstate.trans h.escState, hnew, ?_,
    ?_⟩
  · intro s
    have hdrawn := h.drawn s
    -- the cells up to the one that was blanked are as they were
    have hsplit : cellsBetween t₀.cols (drawAll t₀.rows s ds) (pos t₀) (pos t) =
        cellsBetween t₀.cols (drawAll t₀.rows s ds) (pos t₀) (pos r.1) ++
          cellsBetween t₀.cols (drawAll t₀.rows s ds) (pos r.1) (pos t) :=
      cellsBetween_append (by omega) (by omega)
    rw [drawAll_append, cellsBetween_congr (hother _)]
    refine (List.append_inj (hsplit.symm.trans hdrawn) ?_).1
    rw [length_cellsBetween]
    omega
  · intro s p hp
    rw [drawAll_append, hother _ p (by omega)]
    exact h.other s p hp

/-- A keystroke that takes back no tab keeps the two in step. -/
theorem Synced.keyed (h : Synced t₀ e echo) (h₀ : t₀.Bounded) (hst : t₀.escState = .ST_NORMAL)
    (hkeyed : Editor.Keyed e key x) (hfits : Fits t₀ x.1.content) (htab : ¬ ErasesTab e key) :
    Synced t₀ x.1 (echo ++ x.2) := by
  obtain ⟨⟨t, ds⟩, hfeed, hprints⟩ := h.prints
  cases hkeyed with
  | ignored he =>
      rw [List.append_nil]
      exact h
  | @accepted e' c hkey hc he =>
      unfold Fits at hfits
      rw [he, shown_append, shown_singleton, List.length_append] at hfits
      have hpos := hprints.moved
      obtain ⟨r, hput, hmore⟩ :=
        termPutChar_prints hprints.bounded (hprints.escState.trans hst) hc (by
        rw [hpos, hprints.rows, hprints.cols]
        omega)
      have hone : t.feed [c] = some (r.1, r.2) := by
        simp [Term.feed, hput]
      refine ⟨?_, (r.1, ds ++ r.2), Term.feed_append hfeed hone, ?_⟩
      · rw [he]
        intro d hd
        rcases List.mem_append.1 hd with hd | hd
        · exact h.accepted d hd
        · obtain rfl := List.mem_singleton.1 hd
          exact hc
      · rw [he, shown_append, shown_singleton]
        exact hprints.trans hmore
  | @erased e' c hkey he =>
      have hc : c ≠ TAB := by
        rintro rfl
        exact htab ⟨hkey, by rw [he, List.getLast?_append]; rfl⟩
      rw [he, shown_append, shown_singleton, expand, if_neg hc] at hprints
      obtain ⟨r, hput, hless⟩ := hprints.erase hst h₀
      have hone : t.feed [BACKSPACE] = some (r.1, r.2) := by
        simp [Term.feed, hput]
      refine ⟨?_, (r.1, ds ++ r.2), Term.feed_append hfeed hone, hless⟩
      intro d hd
      refine h.accepted d ?_
      rw [he]
      exact List.mem_append_left _ hd

/-- Two that are in step agree. -/
theorem Synced.agrees (h : Synced t₀ e echo) (h₀ : t₀.Bounded) (hst : t₀.escState = .ST_NORMAL)
    (hfits : Fits t₀ e.content) (s₀ : Cells) :
    ∃ t ds, t₀.feed echo = some (t, ds) ∧ Agrees t₀ e.content t (drawAll t₀.rows s₀ ds) := by
  obtain ⟨⟨t, ds⟩, hfeed, hprints⟩ := h.prints
  obtain ⟨⟨u, ds'⟩, hline, hprints'⟩ := feed_prints h₀ hst e.content h.accepted hfits
  have hpos : pos t = pos t₀ + (shown e.content).length := hprints.moved
  have hcols : t.cols = t₀.cols := hprints.cols
  refine ⟨t, ds, hfeed, ⟨by omega, ?_⟩, u, ds', hline, ?_⟩
  · rw [hcols]
    exact hprints.drawn s₀
  · exact samePosition_of_pos hprints.bounded hprints'.bounded
      (hprints'.cols.trans hprints.cols.symm) (hprints.moved.trans hprints'.moved.symm)

/-- **A tab that is taken back** leaves three of its blanks before the cursor. -/
theorem Synced.not_agrees (h : Synced t₀ e echo) (h₀ : t₀.Bounded) (hst : t₀.escState = .ST_NORMAL)
    (hkeyed : Editor.Keyed e key x) (htab : ErasesTab e key) {s : Cells}
    (hfeed : t₀.feed (echo ++ x.2) = some (t, ds)) : ¬ Agrees t₀ x.1.content t s := by
  obtain ⟨⟨u, ds'⟩, hecho, hprints⟩ := h.prints
  obtain ⟨hback, hlast⟩ := htab
  cases hkeyed with
  | ignored he =>
      rcases he with hkey | hnil
      · exact absurd hback hkey
      · rw [hnil] at hlast
        cases hlast
  | accepted hkey => exact absurd hback hkey
  | @erased e' c hkey he =>
      have hc : c = TAB := by simpa [he] using hlast
      subst hc
      have hbounded : u.Bounded := hprints.bounded
      have hpos : pos u = pos t₀ + ((shown e'.content).length + 4 : Nat) := by
        rw [hprints.moved, he, shown_append, shown_singleton, List.length_append]
        rfl
      have hstart : 0 ≤ pos t₀ :=
        Int.add_nonneg (Int.mul_nonneg h₀.cursorRow.1 (by have := h₀.cols; omega)) h₀.cursorCol.1
      obtain ⟨r, hput, -, -, -, -, hmoved, -⟩ :=
        backspace_erases hbounded (hprints.escState.trans hst) (by omega)
      have hone : u.feed [BACKSPACE] = some (r.1, r.2) := by
        simp [Term.feed, hput]
      cases hfeed.symm.trans (Term.feed_append hecho hone)
      intro hagrees
      have hcells : cellsBetween r.1.cols s (pos t₀) (pos r.1) = shown e'.content := hagrees.cells.2
      have hlen := congrArg List.length hcells
      rw [length_cellsBetween] at hlen
      omega

/-- As long as no tab is taken back, the two are in step. -/
theorem synced_readKeys (h₀ : t₀.Bounded) (hst : t₀.escState = .ST_NORMAL)
    (keys : List (Option UInt8))
    (hfits : ∀ p, p <+: keys → Fits t₀ ((Editor.start line).readKeys maxLen p).1.content)
    (htab : ∀ p key, p ++ [key] <+: keys →
      ((Editor.start line).readKeys maxLen p).1.returned = none →
        ¬ ErasesTab ((Editor.start line).readKeys maxLen p).1 key)
    (hreturned : ((Editor.start line).readKeys maxLen keys).1.returned = none) :
    Synced t₀ ((Editor.start line).readKeys maxLen keys).1
      ((Editor.start line).readKeys maxLen keys).2 := by
  -- by induction on the keystrokes, from the last one back
  induction keys using List.reverseRecOn with
  | nil => exact ⟨fun c hc ↦ absurd hc List.not_mem_nil, _, rfl, .nothing h₀⟩
  | append_singleton keys key ih =>
      have hsub : keys <+: keys ++ [key] := List.prefix_append keys [key]
      have hlast := hfits _ (List.prefix_refl _)
      rw [Editor.readKeys_concat] at hlast hreturned ⊢
      obtain ⟨hbefore, hkeyed⟩ := Editor.keyed_readKey key hreturned
      have hsynced := ih (fun p hp ↦ hfits p (hp.trans hsub))
        (fun p k hp ↦ htab p k (hp.trans hsub)) hbefore
      exact hsynced.keyed h₀ hst hkeyed hlast (htab keys key (List.prefix_refl _) hbefore)

/-- If the two agree all the time, then no tab is taken back. -/
theorem not_erasesTab (h₀ : t₀.Bounded) (hst : t₀.escState = .ST_NORMAL)
    (keys : List (Option UInt8))
    (hfits : ∀ p, p <+: keys → Fits t₀ ((Editor.start line).readKeys maxLen p).1.content)
    (hagrees : ∀ p, p <+: keys → AgreesAfter maxLen line t₀ s₀ p) (p : List (Option UInt8))
    (key : Option UInt8) (hp : p ++ [key] <+: keys)
    (hreturned : ((Editor.start line).readKeys maxLen p).1.returned = none) :
    ¬ ErasesTab ((Editor.start line).readKeys maxLen p).1 key := by
  -- by induction on the number of keystrokes: the ones before took back none
  induction hn : p.length using Nat.strong_induction_on generalizing p key with
  | h n ih =>
      have hsub : p <+: keys := (List.prefix_append p [key]).trans hp
      have hsynced := synced_readKeys h₀ hst p (fun q hq ↦ hfits q (hq.trans hsub))
        (fun q k hq hr ↦ ih q.length
          (by have := hq.length_le; rw [List.length_append, List.length_singleton] at this; omega)
          q k (hq.trans hsub) hr rfl) hreturned
      intro htab
      have hafter := hagrees _ hp
      unfold AgreesAfter at hafter
      rw [Editor.readKeys_concat] at hafter
      have hon : ((Editor.readKeys maxLen _ p).1.readKey maxLen key).1.returned = none :=
        Editor.returned_backspace hreturned htab.1
      obtain ⟨t, ds, hfeed, hshown⟩ := hafter hon
      exact hsynced.not_agrees h₀ hst (Editor.keyed_readKey key hon).2 htab hfeed hshown

end Run

/-! ## When they agree -/

/-- **The screen shows the line and the cursor stands behind it after every keystroke exactly
when no Backspace takes back a tab**, from any prompt, with any cells on the screen, as long as
it has cells for the line. -/
theorem agrees_iff (maxLen : Int) (line : Nat → UInt8) (t₀ : Term) (s₀ : Cells)
    (keys : List (Option UInt8)) (h₀ : t₀.Bounded) (hst : t₀.escState = .ST_NORMAL)
    (hfits : ∀ p, p <+: keys → Fits t₀ ((Editor.start line).readKeys maxLen p).1.content) :
    (∀ p, p <+: keys → AgreesAfter maxLen line t₀ s₀ p) ↔
      ∀ p key, p ++ [key] <+: keys → ((Editor.start line).readKeys maxLen p).1.returned = none →
        ¬ ErasesTab ((Editor.start line).readKeys maxLen p).1 key := by
  constructor
  · intro hagrees p key hp hreturned
    exact not_erasesTab h₀ hst keys hfits hagrees p key hp hreturned
  · intro htab p hp hreturned
    have hsynced := synced_readKeys h₀ hst p (fun q hq ↦ hfits q (hq.trans hp))
      (fun q k hq ↦ htab q k (hq.trans hp)) hreturned
    exact hsynced.agrees h₀ hst (hfits p hp) s₀

/-- The terminal of a small screen as it starts. -/
def smallTerm : Term := (Term.initLayout 80 32).clearScreen.1

theorem smallTerm_bounded : smallTerm.Bounded :=
  (Bounded.initLayout (by decide) (by decide)).clearScreen.bounded

/-- A letter, Backspace and a tab. -/
theorem agrees_letter_backspace_tab : AgreesAfter 128 (fun _ ↦ 0) smallTerm (fun _ _ ↦ SPACE)
    [some (letter 'a'), some BACKSPACE, some TAB] := by
  refine (agrees_iff 128 (fun _ ↦ 0) smallTerm (fun _ _ ↦ SPACE)
    [some (letter 'a'), some BACKSPACE, some TAB] smallTerm_bounded rfl ?_).2 ?_ _
      (List.prefix_refl _)
  · intro p hp
    have hmem := (List.mem_inits p _).2 hp
    simp only [List.inits, List.map_cons, List.map_nil, List.mem_cons, List.not_mem_nil,
      or_false] at hmem
    rcases hmem with rfl | rfl | rfl | rfl
    all_goals
      unfold Fits
      decide +kernel
  · rintro p key ⟨rest, hrest⟩ - ⟨rfl, hlast⟩
    rcases p with _ | ⟨x, _ | ⟨y, _ | ⟨z, p⟩⟩⟩
    · simp [letter, BACKSPACE] at hrest
    · obtain rfl : x = some (letter 'a') := by simpa using congrArg List.head? hrest
      exact absurd hlast (by decide)
    · simp [TAB, BACKSPACE] at hrest
    · simp at hrest

/-- Tab and Backspace: the line is empty, and the cursor stands in the fourth column. -/
theorem tab_backspace_disagrees : smallTerm.Bounded ∧ Fits smallTerm [TAB] ∧
    ¬ AgreesAfter 128 (fun _ ↦ 0) smallTerm (fun _ _ ↦ SPACE) [some TAB, some BACKSPACE] := by
  refine ⟨smallTerm_bounded, ?_, ?_⟩
  · unfold Fits
    decide +kernel
  intro h
  obtain ⟨t, ds, hfeed, hagrees⟩ := h (by decide)
  have hcol : (smallTerm.feed [TAB, BACKSPACE]).map (fun r ↦ pos r.1) = some 3 := by
    decide +kernel
  have hpos : pos t = 3 := by
    have hrun : smallTerm.feed [TAB, BACKSPACE] = some (t, ds) := hfeed
    rw [hrun] at hcol
    exact Option.some_inj.1 hcol
  have hlen := congrArg List.length hagrees.cells.2
  rw [length_cellsBetween, hpos] at hlen
  exact absurd hlen (by decide +kernel)

end BareBones.Userland.LineEditor
