import Mathlib.Data.Int.Order.Basic
import Mathlib.Data.List.Basic
import Mathlib.Logic.Function.Basic

/-!
# The terminal

`terminal.c`: the process that draws what comes through its standard input.  It keeps a
cursor, in columns and rows of cells of 8 by 16 pixels, two colours, and the state of a parser
of escape sequences, and handles one byte at a time (`termPutChar`).

A byte is a step on the static variables that makes some system calls (`Draw`), in pixels as
the code computes them.  A store past the end of the payload buffer is no step.

**Key results**:
- `Bounded.termPutChar`: every byte is a step, keeps the cursor and the length of the payload
  in their bounds, and draws in cells of the screen only.
- `escape_quiet`: an escape sequence that is not `c` or `b` draws nothing and leaves the cursor,
  however long its payload is.
- `terminal_in_bounds`: both, for every screen with a cell and every stream of bytes.
-/

namespace BareBones.Userland.Terminal

/-! ## Constants -/

/-- `CHAR_W` -/
def CHAR_W : Int := 8

/-- `CHAR_H` -/
def CHAR_H : Int := 16

/-- `BASELINE_Y` -/
def BASELINE_Y : Int := 12

/-- `TAB_WIDTH` -/
def TAB_WIDTH : Nat := 4

/-- `DEFAULT_FG` -/
def DEFAULT_FG : UInt32 := 0xFFFFFF

/-- `DEFAULT_BG` -/
def DEFAULT_BG : UInt32 := 0x000000

/-- `ESC_PAYLOAD_MAX` -/
def ESC_PAYLOAD_MAX : Int := 16

/-- `ESC` -/
def ESC : UInt8 := 0x1B

/-- `'\b'` -/
def BACKSPACE : UInt8 := 0x08

/-- `'\t'` -/
def TAB : UInt8 := 0x09

/-- `'\n'` -/
def NEWLINE : UInt8 := 0x0A

/-- `'\f'` -/
def FORM_FEED : UInt8 := 0x0C

/-- `'\r'` -/
def RETURN : UInt8 := 0x0D

/-- `' '` -/
def SPACE : UInt8 := 0x20

/-- `';'` -/
def SEMICOLON : UInt8 := 0x3B

/-- A letter, as a byte. -/
def letter (c : Char) : UInt8 := UInt8.ofNat c.toNat

/-! ## State -/

/-- `EscState` -/
inductive EscState
  | ST_NORMAL
  | ST_ESC_CMD
  | ST_ESC_PAYLOAD
  deriving DecidableEq

/-- The static variables, without the size of the screen in pixels. -/
structure Term where
  cursorCol : Int
  cursorRow : Int
  cols : Int
  rows : Int
  fgColor : UInt32
  bgColor : UInt32
  escState : EscState
  escCmd : UInt8
  escPayload : Int → UInt8
  escPayloadLen : Int

/-- A system call that draws. -/
inductive Draw
  /-- `sys_draw_char(c, x, y, fgColor, bgColor, 1)` -/
  | char (c : UInt8) (x y : Int) (fgColor bgColor : UInt32)
  /-- `sys_draw_rect(color, x, y, width, height)` -/
  | rect (color : UInt32) (x y width height : Int)
  /-- `sys_scroll_up(pixelRows, fillColor)` -/
  | scroll (pixelRows : Int) (fillColor : UInt32)
  /-- `sys_background(color)` -/
  | background (color : UInt32)
  deriving DecidableEq

/-- A character or a rectangle is drawn in a cell of the screen. -/
def Draw.InCell (cols rows : Int) : Draw → Prop
  | .char _ x y _ _ => ∃ col row, 0 ≤ col ∧ col < cols ∧ 0 ≤ row ∧ row < rows ∧
      x = col * CHAR_W ∧ y = row * CHAR_H + BASELINE_Y
  | .rect _ x y width height => ∃ col row, 0 ≤ col ∧ col < cols ∧ 0 ≤ row ∧ row < rows ∧
      x = col * CHAR_W ∧ y = row * CHAR_H ∧ width = CHAR_W ∧ height = CHAR_H
  | .scroll _ _ | .background _ => True

/-! ## Colours -/

/-- `isNumber` -/
def isNumber (c : UInt8) : Bool := letter '0' ≤ c && c ≤ letter '9'

/-- `toLower` -/
def toLower (c : UInt8) : UInt8 :=
  if letter 'A' ≤ c ∧ c ≤ letter 'Z' then c + (letter 'a' - letter 'A') else c

/-- The loop of `hexStringToInt`.  Its error value is the character, as a signed number. -/
def hexDigitsToInt : (str : List UInt8) → (out : UInt64) → Int32
  | [], out => out.toUInt32.toInt32
  | c :: str, out =>
      let c := toLower c
      if !isNumber c ∧ (c < letter 'a' ∨ c > letter 'f') then c.toInt8.toInt32
      else
        let value := if isNumber c then c - letter '0' else c - letter 'a' + 10
        hexDigitsToInt str (out * 16 + value.toUInt64)

/-- `hexStringToInt` -/
def hexStringToInt (str : List UInt8) : Int32 :=
  match str with
  | c :: rest =>
      if c = letter '-' then -1
      else if c = letter '0' ∧ rest.head?.map toLower = some (letter 'x') then
        hexDigitsToInt rest.tail 0
      else hexDigitsToInt str 0
  | [] => hexDigitsToInt str 0

/-! ## Steps -/

namespace Term

/-- `initLayout`, on the variables as the process starts. -/
def initLayout (screenW screenH : UInt16) : Term where
  cursorCol := 0
  cursorRow := 0
  cols := screenW.toNat / CHAR_W
  rows := screenH.toNat / CHAR_H
  fgColor := DEFAULT_FG
  bgColor := DEFAULT_BG
  escState := .ST_NORMAL
  escCmd := 0
  escPayload := fun _ ↦ 0
  escPayloadLen := 0

/-- `clearScreen` -/
def clearScreen (t : Term) : Term × List Draw :=
  ({ t with cursorCol := 0, cursorRow := 0 }, [.background t.bgColor])

/-- `newline` -/
def newline (t : Term) : Term × List Draw :=
  let t := { t with cursorCol := 0, cursorRow := t.cursorRow + 1 }
  if t.cursorRow ≥ t.rows then
    ({ t with cursorRow := t.rows - 1 }, [.scroll CHAR_H t.bgColor])
  else (t, [])

/-- The end of `backspace`: blank the cell of the cursor. -/
def blank (t : Term) : Term × List Draw :=
  let x := t.cursorCol * CHAR_W
  let y := t.cursorRow * CHAR_H + BASELINE_Y
  (t, [.rect t.bgColor x (y - BASELINE_Y) CHAR_W CHAR_H])

/-- `backspace` -/
def backspace (t : Term) : Term × List Draw :=
  if t.cursorCol = 0 then
    if t.cursorRow = 0 then (t, [])
    else blank { t with cursorRow := t.cursorRow - 1, cursorCol := t.cols - 1 }
  else blank { t with cursorCol := t.cursorCol - 1 }

/-- The payload up to its terminator, as a string. -/
def payload (t : Term) : List UInt8 :=
  ((List.range ESC_PAYLOAD_MAX.toNat).map fun i : Nat ↦ t.escPayload i).takeWhile (· ≠ 0)

/-- `applyEscape` -/
def applyEscape (t : Term) (cmd : UInt8) (payload : List UInt8) : Term × List Draw :=
  if cmd = letter 'c' then t.clearScreen
  else if cmd = letter 'f' then
    ({ t with fgColor := (hexStringToInt payload).toUInt32 }, [])
  else if cmd = letter 'b' then
    clearScreen { t with bgColor := (hexStringToInt payload).toUInt32 }
  else if cmd = letter 'r' then ({ t with fgColor := DEFAULT_FG, bgColor := DEFAULT_BG }, [])
  else (t, [])

/-- The second half of `drawNormalChar`: draw in the cell of the cursor, and move it on. -/
def drawHere (c : UInt8) (t : Term) : Term × List Draw :=
  let x := t.cursorCol * CHAR_W
  let y := t.cursorRow * CHAR_H + BASELINE_Y
  ({ t with cursorCol := t.cursorCol + 1 }, [.char c x y t.fgColor t.bgColor])

/-- `drawNormalChar` -/
def drawNormalChar (c : UInt8) (t : Term) : Term × List Draw :=
  let (t, ds) := if t.cursorCol ≥ t.cols then t.newline else (t, [])
  let (t, ds') := t.drawHere c
  (t, ds ++ ds')

/-- So many blanks. -/
def drawBlanks : (n : Nat) → (t : Term) → Term × List Draw
  | 0, t => (t, [])
  | n + 1, t =>
      let (t, ds) := t.drawNormalChar SPACE
      let (t, ds') := drawBlanks n t
      (t, ds ++ ds')

/-- `escPayload[i] = c`; `none` past the end of the array. -/
def storePayload (t : Term) (i : Int) (c : UInt8) : Option Term :=
  if 0 ≤ i ∧ i < ESC_PAYLOAD_MAX then
    some { t with escPayload := Function.update t.escPayload i c }
  else none

/-- The end of an escape sequence, with the terminator of its payload stored. -/
def endEscape (t : Term) : Term × List Draw :=
  let (t, ds) := t.applyEscape t.escCmd t.payload
  ({ t with escState := .ST_NORMAL }, ds)

/-- The part of `termPutChar` outside of escape sequences. -/
def putNormal (c : UInt8) (t : Term) : Term × List Draw :=
  if c = ESC then ({ t with escState := .ST_ESC_CMD }, [])
  else if c = 0 then (t, [])
  else if c = NEWLINE then t.newline
  else if c = RETURN then ({ t with cursorCol := 0 }, [])
  else if c = BACKSPACE then t.backspace
  else if c = FORM_FEED then t.clearScreen
  else if c = TAB then t.drawBlanks TAB_WIDTH
  else t.drawNormalChar c

/-- `termPutChar` -/
def termPutChar (c : UInt8) (t : Term) : Option (Term × List Draw) :=
  match t.escState with
  | .ST_ESC_CMD =>
      some ({ t with escCmd := c, escPayloadLen := 0, escState := .ST_ESC_PAYLOAD }, [])
  | .ST_ESC_PAYLOAD =>
      if c = SEMICOLON then
        (t.storePayload t.escPayloadLen 0).map endEscape
      else if t.escPayloadLen < ESC_PAYLOAD_MAX - 1 then
        (t.storePayload t.escPayloadLen c).map fun t ↦
          ({ t with escPayloadLen := t.escPayloadLen + 1 }, [])
      else some (t, [])
  | .ST_NORMAL => some (t.putNormal c)

/-- The bytes of a stream, one after the other. -/
def feed : (cs : List UInt8) → (t : Term) → Option (Term × List Draw)
  | [], t => some (t, [])
  | c :: cs, t => (t.termPutChar c).bind fun r ↦
      (feed cs r.1).map fun r' ↦ (r'.1, r.2 ++ r'.2)

/-- `terminalProcess`, once it has read the bytes. -/
def terminalProcess (screenW screenH : UInt16) (cs : List UInt8) : Option (Term × List Draw) :=
  let (t, ds) := (initLayout screenW screenH).clearScreen
  (t.feed cs).map fun r ↦ (r.1, ds ++ r.2)

/-! ## Bounds -/

/-- The cursor is on the screen, or past the end of a row, and the payload in its buffer. -/
structure Bounded (t : Term) : Prop where
  cols : 1 ≤ t.cols
  rows : 1 ≤ t.rows
  cursorCol : 0 ≤ t.cursorCol ∧ t.cursorCol ≤ t.cols
  cursorRow : 0 ≤ t.cursorRow ∧ t.cursorRow < t.rows
  escPayloadLen : 0 ≤ t.escPayloadLen ∧ t.escPayloadLen < ESC_PAYLOAD_MAX

/-- A step goes from bounded variables to bounded ones of the same screen, and draws in its
cells. -/
structure Keeps (t : Term) (r : Term × List Draw) : Prop where
  bounded : Bounded r.1
  cols : r.1.cols = t.cols
  rows : r.1.rows = t.rows
  inCell : ∀ d ∈ r.2, d.InCell t.cols t.rows

section Steps

variable {t u v : Term} {ds ds' : List Draw} {c : UInt8}

namespace Keeps

/-- Nothing is drawn, and the cursor stays. -/
theorem quiet (h : Bounded u) (hcols : u.cols = t.cols) (hrows : u.rows = t.rows) :
    Keeps t (u, []) := ⟨h, hcols, hrows, fun _ hd ↦ absurd hd List.not_mem_nil⟩

/-- One step after the other. -/
theorem trans (h : Keeps t (u, ds)) (h' : Keeps u (v, ds')) : Keeps t (v, ds ++ ds') := by
  refine ⟨h'.bounded, h'.cols.trans h.cols, h'.rows.trans h.rows, ?_⟩
  intro d hd
  rcases List.mem_append.1 hd with hd | hd
  · exact h.inCell d hd
  · have hcell := h'.inCell d hd
    rwa [h.cols, h.rows] at hcell

end Keeps

/-- The cursor may be anywhere in its bounds. -/
theorem Bounded.moved (h : Bounded t) (col row : Int) (hcol : 0 ≤ col ∧ col ≤ t.cols)
    (hrow : 0 ≤ row ∧ row < t.rows) : Bounded { t with cursorCol := col, cursorRow := row } :=
  ⟨h.cols, h.rows, hcol, hrow, h.escPayloadLen⟩

theorem Bounded.clearScreen (h : Bounded t) : Keeps t t.clearScreen := by
  have hrows := h.rows
  have hcols := h.cols
  refine ⟨h.moved _ _ ⟨le_rfl, by omega⟩ ⟨le_rfl, by omega⟩, rfl, rfl, ?_⟩
  intro d hd
  obtain rfl := List.mem_singleton.1 hd
  trivial

/-- A new line, with or without a scroll, starts at the first column. -/
theorem Bounded.newline (h : Bounded t) : Keeps t t.newline ∧ t.newline.1.cursorCol = 0 := by
  have hrow := h.cursorRow
  have hrows := h.rows
  have hcols := h.cols
  unfold Term.newline
  simp only
  split
  · refine ⟨⟨h.moved _ _ ⟨le_rfl, by omega⟩ ⟨by omega, by omega⟩, rfl, rfl, ?_⟩, rfl⟩
    intro d hd
    obtain rfl := List.mem_singleton.1 hd
    trivial
  · exact ⟨.quiet (h.moved _ _ ⟨le_rfl, by omega⟩ ⟨by omega, by omega⟩) rfl rfl, rfl⟩

/-- The cell of a cursor that is not past the end of its row is on the screen. -/
theorem Bounded.drawHere (h : Bounded t) (hcol : t.cursorCol < t.cols) (c : UInt8) :
    Keeps t (t.drawHere c) := by
  have hnonneg := h.cursorCol.1
  refine ⟨h.moved _ _ ⟨by omega, by omega⟩ h.cursorRow, rfl, rfl, ?_⟩
  intro d hd
  obtain rfl := List.mem_singleton.1 hd
  exact ⟨t.cursorCol, t.cursorRow, hnonneg, hcol, h.cursorRow.1, h.cursorRow.2, rfl, rfl⟩

/-- Past the end of a row a character goes to the next one. -/
theorem drawNormalChar_of_wrap (h : t.cols ≤ t.cursorCol) (c : UInt8) : t.drawNormalChar c =
    ((t.newline.1.drawHere c).1, t.newline.2 ++ (t.newline.1.drawHere c).2) := by
  simp only [drawNormalChar, if_pos h]

theorem drawNormalChar_of_lt (h : t.cursorCol < t.cols) (c : UInt8) :
    t.drawNormalChar c = t.drawHere c := by
  simp only [drawNormalChar, if_neg (not_le.2 h), List.nil_append]

theorem Bounded.drawNormalChar (h : Bounded t) (c : UInt8) : Keeps t (t.drawNormalChar c) := by
  by_cases hwrap : t.cursorCol < t.cols
  · rw [drawNormalChar_of_lt hwrap]
    exact h.drawHere hwrap c
  · rw [drawNormalChar_of_wrap (not_lt.1 hwrap)]
    obtain ⟨hkeeps, hcol⟩ := h.newline
    refine hkeeps.trans (hkeeps.bounded.drawHere ?_ c)
    have := hkeeps.bounded.cols
    omega

theorem Bounded.drawBlanks (h : Bounded t) (n : Nat) : Keeps t (t.drawBlanks n) := by
  induction n generalizing t with
  | zero => exact .quiet h rfl rfl
  | succ n ih =>
      have hkeeps := h.drawNormalChar SPACE
      exact hkeeps.trans (ih hkeeps.bounded)

/-- The cell that is blanked is the one of the cursor. -/
theorem Bounded.blank (h : Bounded t) (hcol : t.cursorCol < t.cols) : Keeps t t.blank := by
  refine ⟨h, rfl, rfl, ?_⟩
  intro d hd
  obtain rfl := List.mem_singleton.1 hd
  exact ⟨t.cursorCol, t.cursorRow, h.cursorCol.1, hcol, h.cursorRow.1, h.cursorRow.2, rfl,
    Int.add_sub_cancel _ _, rfl, rfl⟩

theorem Bounded.backspace (h : Bounded t) : Keeps t t.backspace := by
  have hcol := h.cursorCol
  have hrow := h.cursorRow
  have hcols := h.cols
  unfold Term.backspace
  split
  · split
    · exact .quiet h rfl rfl
    · -- to the end of the row before
      have hmoved := h.moved (t.cols - 1) (t.cursorRow - 1) ⟨by omega, by omega⟩
        ⟨by omega, by omega⟩
      have hkeeps := hmoved.blank (Int.sub_one_lt_of_le le_rfl)
      exact ⟨hkeeps.bounded, hkeeps.cols, hkeeps.rows, hkeeps.inCell⟩
  · have hmoved := h.moved (t.cursorCol - 1) t.cursorRow ⟨by omega, by omega⟩ hrow
    have hkeeps := hmoved.blank (Int.sub_one_lt_of_le hcol.2)
    exact ⟨hkeeps.bounded, hkeeps.cols, hkeeps.rows, hkeeps.inCell⟩

theorem Bounded.applyEscape (h : Bounded t) (cmd : UInt8) (payload : List UInt8) :
    Keeps t (t.applyEscape cmd payload) := by
  have hcolour (fg bg : UInt32) : Bounded { t with fgColor := fg, bgColor := bg } :=
    ⟨h.cols, h.rows, h.cursorCol, h.cursorRow, h.escPayloadLen⟩
  unfold Term.applyEscape
  split
  · exact h.clearScreen
  split
  · exact .quiet (hcolour _ _) rfl rfl
  split
  · have hkeeps := (hcolour t.fgColor (hexStringToInt payload).toUInt32).clearScreen
    exact ⟨hkeeps.bounded, hkeeps.cols, hkeeps.rows, hkeeps.inCell⟩
  split
  · exact .quiet (hcolour _ _) rfl rfl
  · exact .quiet h rfl rfl

theorem Bounded.putNormal (h : Bounded t) (c : UInt8) : Keeps t (t.putNormal c) := by
  have hcols := h.cols
  unfold Term.putNormal
  split
  · exact .quiet ⟨h.cols, h.rows, h.cursorCol, h.cursorRow, h.escPayloadLen⟩ rfl rfl
  split
  · exact .quiet h rfl rfl
  split
  · exact h.newline.1
  split
  · exact .quiet (h.moved _ _ ⟨le_rfl, by omega⟩ h.cursorRow) rfl rfl
  split
  · exact h.backspace
  split
  · exact h.clearScreen
  split
  · exact h.drawBlanks _
  · exact h.drawNormalChar c

/-- A store inside of the buffer is a step. -/
theorem storePayload_eq {i : Int} (h : 0 ≤ i ∧ i < ESC_PAYLOAD_MAX) (c : UInt8) :
    t.storePayload i c = some { t with escPayload := Function.update t.escPayload i c } := if_pos h

/-- **Every byte is a step**, and keeps the bounds. -/
theorem Bounded.termPutChar (h : Bounded t) (c : UInt8) :
    ∃ r, t.termPutChar c = some r ∧ Keeps t r := by
  have hlen := h.escPayloadLen
  unfold Term.termPutChar
  cases t.escState with
  | ST_NORMAL => exact ⟨_, rfl, h.putNormal c⟩
  | ST_ESC_CMD =>
      refine ⟨_, rfl, .quiet ⟨h.cols, h.rows, h.cursorCol, h.cursorRow, ?_⟩ rfl rfl⟩
      constructor
      · exact le_rfl
      · show (0 : Int) < ESC_PAYLOAD_MAX
        decide
  | ST_ESC_PAYLOAD =>
      simp only
      have hstored (b : UInt8) :
          Bounded { t with escPayload := Function.update t.escPayload t.escPayloadLen b } :=
        ⟨h.cols, h.rows, h.cursorCol, h.cursorRow, hlen⟩
      split
      · rw [storePayload_eq hlen]
        have hkeeps := (hstored 0).applyEscape t.escCmd
          (payload { t with escPayload := Function.update t.escPayload t.escPayloadLen 0 })
        refine ⟨_, rfl, ⟨?_, hkeeps.cols, hkeeps.rows, hkeeps.inCell⟩⟩
        have hb := hkeeps.bounded
        exact ⟨hb.cols, hb.rows, hb.cursorCol, hb.cursorRow, hb.escPayloadLen⟩
      split
      next hroom =>
        rw [storePayload_eq hlen]
        refine ⟨_, rfl, .quiet ⟨h.cols, h.rows, h.cursorCol, h.cursorRow, ?_⟩ rfl rfl⟩
        constructor
        · show 0 ≤ t.escPayloadLen + 1
          omega
        · show t.escPayloadLen + 1 < ESC_PAYLOAD_MAX
          omega
      next => exact ⟨_, rfl, .quiet h rfl rfl⟩

/-- **A stream is a run**, and keeps the bounds. -/
theorem Bounded.feed (h : Bounded t) (cs : List UInt8) : ∃ r, t.feed cs = some r ∧ Keeps t r := by
  induction cs generalizing t with
  | nil => exact ⟨_, rfl, .quiet h rfl rfl⟩
  | cons c cs ih =>
      obtain ⟨⟨u, ds⟩, hstep, hkeeps⟩ := h.termPutChar c
      obtain ⟨⟨v, ds'⟩, hrun, hkeeps'⟩ := ih hkeeps.bounded
      refine ⟨(v, ds ++ ds'), ?_, hkeeps.trans hkeeps'⟩
      simp only [Term.feed, hstep, Option.bind_some, hrun, Option.map_some]

/-! ## Escape sequences -/

/-- The cursor is where it was. -/
structure SameCursor (t u : Term) : Prop where
  cursorCol : u.cursorCol = t.cursorCol
  cursorRow : u.cursorRow = t.cursorRow

/-- Streams follow one another. -/
theorem feed_append {cs cs' : List UInt8} (h : t.feed cs = some (u, ds))
    (h' : u.feed cs' = some (v, ds')) : t.feed (cs ++ cs') = some (v, ds ++ ds') := by
  induction cs generalizing t ds with
  | nil =>
      obtain ⟨rfl, rfl⟩ := Prod.mk.inj (Option.some_inj.1 h)
      exact h'
  | cons c cs ih =>
      obtain ⟨⟨w, es⟩, hstep, hrest⟩ := Option.bind_eq_some_iff.1 h
      obtain ⟨⟨x, es'⟩, hrun, heq⟩ := Option.map_eq_some_iff.1 hrest
      obtain ⟨rfl, rfl⟩ := Prod.mk.inj heq
      have htail := ih hrun
      simp only [List.cons_append, feed, hstep, Option.bind_some, htail, Option.map_some,
        List.append_assoc]

/-- A payload is kept, or dropped where the buffer is full, and nothing else happens. -/
theorem feed_payload (h : Bounded t) (hst : t.escState = .ST_ESC_PAYLOAD) (cs : List UInt8)
    (hcs : SEMICOLON ∉ cs) : ∃ u, t.feed cs = some (u, []) ∧ Bounded u ∧ SameCursor t u ∧
      u.escState = .ST_ESC_PAYLOAD ∧ u.escCmd = t.escCmd := by
  induction cs generalizing t with
  | nil => exact ⟨t, rfl, h, ⟨rfl, rfl⟩, hst, rfl⟩
  | cons c cs ih =>
      have hc : c ≠ SEMICOLON := fun heq ↦ hcs (heq ▸ List.mem_cons_self)
      have hcs : SEMICOLON ∉ cs := fun hmem ↦ hcs (List.mem_cons_of_mem c hmem)
      have hlen := h.escPayloadLen
      have hstep : ∃ w, t.termPutChar c = some (w, []) ∧ Bounded w ∧ SameCursor t w ∧
          w.escState = .ST_ESC_PAYLOAD ∧ w.escCmd = t.escCmd := by
        simp only [Term.termPutChar, hst, if_neg hc]
        split
        next hroom =>
          rw [storePayload_eq hlen]
          refine ⟨_, rfl, ⟨h.cols, h.rows, h.cursorCol, h.cursorRow, ?_⟩, ⟨rfl, rfl⟩, hst, rfl⟩
          constructor
          · show 0 ≤ t.escPayloadLen + 1
            omega
          · show t.escPayloadLen + 1 < ESC_PAYLOAD_MAX
            omega
        next => exact ⟨t, rfl, h, ⟨rfl, rfl⟩, hst, rfl⟩
      obtain ⟨w, hput, hw, hsame, hwst, hwcmd⟩ := hstep
      obtain ⟨u, hrun, hu, hsame', hust, hucmd⟩ := ih hw hwst hcs
      refine ⟨u, ?_, hu, ⟨hsame'.cursorCol.trans hsame.cursorCol,
        hsame'.cursorRow.trans hsame.cursorRow⟩, hust, hucmd.trans hwcmd⟩
      simp only [feed, hput, Option.bind_some, hrun, Option.map_some, List.nil_append]

/-- A command that is not `c` or `b` draws nothing. -/
theorem applyEscape_quiet {cmd : UInt8} (hclear : cmd ≠ letter 'c') (hback : cmd ≠ letter 'b')
    (payload : List UInt8) :
    (t.applyEscape cmd payload).2 = [] ∧ SameCursor t (t.applyEscape cmd payload).1 := by
  simp only [Term.applyEscape, if_neg hclear, if_neg hback]
  split
  · exact ⟨rfl, rfl, rfl⟩
  split
  · exact ⟨rfl, rfl, rfl⟩
  · exact ⟨rfl, rfl, rfl⟩

/-- Nor does the end of its sequence. -/
theorem termPutChar_semicolon (h : Bounded t) (hst : t.escState = .ST_ESC_PAYLOAD)
    (hclear : t.escCmd ≠ letter 'c') (hback : t.escCmd ≠ letter 'b') :
    ∃ u, t.termPutChar SEMICOLON = some (u, []) ∧ SameCursor t u := by
  let w : Term := { t with escPayload := Function.update t.escPayload t.escPayloadLen 0 }
  obtain ⟨hdraw, hcursor⟩ := applyEscape_quiet (t := w) hclear hback w.payload
  have hput : t.termPutChar SEMICOLON = some (endEscape w) := by
    simp only [Term.termPutChar, hst, if_pos]
    rw [storePayload_eq h.escPayloadLen]
    rfl
  refine ⟨(endEscape w).1, hput.trans (congrArg some (Prod.ext rfl hdraw)), ?_, ?_⟩
  · exact hcursor.cursorCol
  · exact hcursor.cursorRow

/-- **An escape sequence that is not `c` or `b` draws nothing and leaves the cursor**, whether
it has come to its end or not. -/
theorem escape_quiet (h : Bounded t) (hst : t.escState = .ST_NORMAL) {cmd : UInt8}
    (hclear : cmd ≠ letter 'c') (hback : cmd ≠ letter 'b') {cs : List UInt8}
    (hcs : SEMICOLON ∉ cs) {last : List UInt8} (hlast : last = [] ∨ last = [SEMICOLON]) :
    ∃ u, t.feed (ESC :: cmd :: cs ++ last) = some (u, []) ∧ SameCursor t u := by
  -- the command is read
  have hcmd : ∃ w, t.feed [ESC, cmd] = some (w, []) ∧ Bounded w ∧ SameCursor t w ∧
      w.escState = .ST_ESC_PAYLOAD ∧ w.escCmd = cmd := by
    refine ⟨{ t with escState := .ST_ESC_PAYLOAD, escCmd := cmd, escPayloadLen := 0 }, ?_,
      ⟨h.cols, h.rows, h.cursorCol, h.cursorRow, ?_⟩, ⟨rfl, rfl⟩, rfl, rfl⟩
    · simp [feed, Term.termPutChar, hst, putNormal]
    · constructor
      · exact le_rfl
      · show (0 : Int) < ESC_PAYLOAD_MAX
        decide
  obtain ⟨w, hw, hwb, hwsame, hwst, hwcmd⟩ := hcmd
  obtain ⟨u, hu, hub, husame, hust, hucmd⟩ := feed_payload hwb hwst cs hcs
  have hbody : t.feed (ESC :: cmd :: cs) = some (u, []) := feed_append hw hu
  have hsame : SameCursor t u := ⟨husame.cursorCol.trans hwsame.cursorCol,
    husame.cursorRow.trans hwsame.cursorRow⟩
  rcases hlast with rfl | rfl
  · refine ⟨u, ?_, hsame⟩
    rw [List.append_nil]
    exact hbody
  · -- and applied
    obtain ⟨v, hv, hvsame⟩ := termPutChar_semicolon hub hust (by rwa [hucmd, hwcmd])
      (by rwa [hucmd, hwcmd])
    have hend : u.feed [SEMICOLON] = some (v, []) := by
      simp only [feed, hv, Option.bind_some, Option.map_some, List.nil_append]
    exact ⟨v, feed_append hbody hend, hvsame.cursorCol.trans hsame.cursorCol,
      hvsame.cursorRow.trans hsame.cursorRow⟩

end Steps

end Term

/-! ## The process -/

open Term

/-- The terminal starts with its cursor in the first cell. -/
theorem Bounded.initLayout {screenW screenH : UInt16} (hw : 8 ≤ screenW) (hh : 16 ≤ screenH) :
    Term.Bounded (Term.initLayout screenW screenH) := by
  have hw' : 8 ≤ screenW.toNat := UInt16.le_iff_toNat_le.1 hw
  have hh' : 16 ≤ screenH.toNat := UInt16.le_iff_toNat_le.1 hh
  have hcols : 1 ≤ (screenW.toNat : Int) / 8 := by omega
  have hrows : 1 ≤ (screenH.toNat : Int) / 16 := by omega
  refine ⟨hcols, hrows, ⟨le_rfl, ?_⟩, ⟨le_rfl, ?_⟩, le_rfl, ?_⟩
  · show 0 ≤ (screenW.toNat : Int) / 8
    omega
  · show 0 < (screenH.toNat : Int) / 16
    omega
  · show (0 : Int) < ESC_PAYLOAD_MAX
    decide

/-- **The terminal stays in its bounds**: on every screen with a cell and for every stream of
bytes, all stores are in the payload buffer, the cursor and the length of the payload are in
their bounds, characters and rectangles are drawn in cells of the screen, and from then on any
escape sequence that is not `c` or `b`, with any payload and finished or not, draws nothing and
leaves the cursor. -/
theorem terminal_in_bounds (screenW screenH : UInt16) (hw : 8 ≤ screenW) (hh : 16 ≤ screenH)
    (cs : List UInt8) : ∃ t ds, terminalProcess screenW screenH cs = some (t, ds) ∧
      t.cols = screenW.toNat / CHAR_W ∧ t.rows = screenH.toNat / CHAR_H ∧ Bounded t ∧
      (∀ d ∈ ds, d.InCell t.cols t.rows) ∧
      (t.escState = .ST_NORMAL → ∀ cmd payload last, cmd ≠ letter 'c' → cmd ≠ letter 'b' →
        SEMICOLON ∉ payload → last = [] ∨ last = [SEMICOLON] →
        ∃ u, t.feed (ESC :: cmd :: payload ++ last) = some (u, []) ∧ SameCursor t u) := by
  have hstart := (Bounded.initLayout hw hh).clearScreen
  obtain ⟨⟨t, ds⟩, hrun, hkeeps⟩ := hstart.bounded.feed cs
  have hall := hstart.trans hkeeps
  have hprocess : terminalProcess screenW screenH cs =
      some (t, (Term.initLayout screenW screenH).clearScreen.2 ++ ds) := by
    simp only [terminalProcess, hrun, Option.map_some]
  refine ⟨t, _, hprocess, hall.cols, hall.rows, hall.bounded, ?_, ?_⟩
  · intro d hd
    rw [hall.cols, hall.rows]
    exact hall.inCell d hd
  · intro hst cmd payload last hclear hback hpayload hlast
    exact escape_quiet hall.bounded hst hclear hback hpayload hlast

/-- A character, a tab, a backspace and the begin of a sequence. -/
theorem terminal_in_bounds_tab : ∃ t ds,
    terminalProcess 640 480 [letter 'a', TAB, BACKSPACE, ESC] = some (t, ds) ∧ Bounded t := by
  obtain ⟨t, ds, hrun, -, -, hbounded, -⟩ :=
    terminal_in_bounds 640 480 (by decide) (by decide) [letter 'a', TAB, BACKSPACE, ESC]
  exact ⟨t, ds, hrun, hbounded⟩

end BareBones.Userland.Terminal
