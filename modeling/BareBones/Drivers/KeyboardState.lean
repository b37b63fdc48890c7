import BareBones.Drivers.Keyboard

/-!
# What the keyboard driver knows of the keys

The bytes of the keyboard are events of keys: a byte with the bit `0x80` ends a press, one
without begins it, and the prefix `0xE0` says that the next byte is about another key, with a
row of the table of its own, `KEYCODE_SHIFT` higher.  `decode` takes the bytes for these
events, without any of the driver's variables.

The driver is **faithful** after some bytes if its table says which keys are held, if its flag
is set exactly after a prefix, and if CapsLock is active after an odd number of presses of it.

**Key results**:
- `faithful_concat_iff`: a byte keeps the driver faithful exactly when it `KeepsUp`.  A byte
  does not where it is one of the shortcuts Ctrl+C and Ctrl+D, which `keyboardInterrupt` treats
  before `getKeyPress` and without it: the key is not marked as pressed, and a prefix is not
  used up.  Nor does it where it changes the entry `0x7F`, which the key `0x7F` has in common
  with the key `0x00` with the prefix.
- `faithful_iff`: the driver is faithful all along **exactly when** every byte keeps up.
- `keyboardInterrupt_keyboard`: the interrupt leaves the variables that `Keyboard.key` leaves.
-/

namespace BareBones.Drivers

namespace Keyboard

/-! ## Events -/

/-- A key: whether its scancodes have the prefix, and the code without the release bit. -/
structure Key where
  extended : Bool
  code : UInt8
  deriving DecidableEq

/-- The entry of the table that a key is tracked under. -/
def Key.keycode (k : Key) : UInt8 := if k.extended then k.code + KEYCODE_SHIFT else k.code

/-- A key is pressed, or released. -/
structure KeyEvent where
  key : Key
  make : Bool
  deriving DecidableEq

/-- What a byte says, other than the prefix. -/
def eventOf (extended : Bool) (b : UInt8) : KeyEvent := ⟨⟨extended, b &&& 0x7F⟩, b &&& 0x80 = 0⟩

/-- The events of some bytes; `extended` tells whether there was a prefix just before. -/
def decode : (extended : Bool) → List UInt8 → List KeyEvent
  | _, [] => []
  | extended, b :: bs =>
      if b = MULTI_BYTE_SCANCODE then decode true bs else eventOf extended b :: decode false bs

/-- The last event of the key was a press. -/
def held (bs : List UInt8) (k : Key) : Bool :=
  ((decode false bs).filter (·.key = k)).getLast?.any (·.make)

/-- The last byte was the prefix. -/
def prefixed (bs : List UInt8) : Bool := bs.getLast? = some MULTI_BYTE_SCANCODE

/-- A press of CapsLock. -/
def capsLockMake : KeyEvent := ⟨⟨false, CAPSLOCK⟩, true⟩

/-- The static variables as the kernel starts. -/
def released : Keyboard := ⟨fun _ ↦ false, false, false⟩

/-- The static variables after some bytes. -/
def after (bs : List UInt8) : Keyboard := bs.foldl (fun kb b ↦ (kb.key b).2) released

/-- The driver knows what the bytes say. -/
structure Faithful (bs : List UInt8) (kb : Keyboard) : Prop where
  /-- A key is marked as pressed exactly if its last event was a press. -/
  pressed : ∀ k : Key, k.code < 0x80 → kb.isPressed k.keycode = held bs k
  /-- The prefix is about the next byte, and about no later one. -/
  multiByteFlag : kb.multiByteFlag = prefixed bs
  /-- CapsLock is the parity of its presses. -/
  capsLock : kb.capsLockActive = decide ((decode false bs).countP (· = capsLockMake) % 2 = 1)

/-- The byte is no shortcut, unless of a key that is marked as pressed already; and where it is
about one of the two keys that share an entry, it leaves the entry as it is. -/
structure KeepsUp (kb : Keyboard) (b : UInt8) : Prop where
  shortcut : kb.processControl b ≠ 0 → kb.multiByteFlag = false ∧ kb.isPressed b = true
  shared : b ≠ MULTI_BYTE_SCANCODE → (eventOf kb.multiByteFlag b).key.keycode = KEYCODE_SHIFT →
    kb.isPressed KEYCODE_SHIFT = (eventOf kb.multiByteFlag b).make

/-! ## Codes -/

theorem and_0x7F_lt (b : UInt8) : b &&& 0x7F < 0x80 := by
  have h : (b &&& 0x7F).toNat = b.toNat % 2 ^ 7 := Nat.and_two_pow_sub_one_eq_mod b.toNat 7
  rw [UInt8.lt_iff_toNat_lt, h]
  exact Nat.mod_lt _ (by decide)

theorem toNat_keycode {k : Key} (hk : k.code < 0x80) :
    k.keycode.toNat = if k.extended then k.code.toNat + 127 else k.code.toNat := by
  have hlt : k.code.toNat < 128 := UInt8.lt_iff_toNat_lt.1 hk
  unfold Key.keycode
  split
  · have hadd : (k.code + KEYCODE_SHIFT).toNat = (k.code.toNat + 127) % 256 := rfl
    omega
  · rfl

/-- Two keys share an entry only if it is `KEYCODE_SHIFT`. -/
theorem eq_of_keycode {k l : Key} (hk : k.code < 0x80) (hl : l.code < 0x80)
    (h : k.keycode = l.keycode) (hne : l.keycode ≠ KEYCODE_SHIFT) : k = l := by
  have hcode : k.keycode.toNat = l.keycode.toNat := congrArg UInt8.toNat h
  have hshift : l.keycode.toNat ≠ 127 := fun heq ↦ hne (UInt8.toNat_inj.1 heq)
  rw [toNat_keycode hk, toNat_keycode hl] at hcode
  rw [toNat_keycode hl] at hshift
  rcases k with ⟨ke, kc⟩
  rcases l with ⟨le, lc⟩
  have hk' : kc.toNat < 128 := UInt8.lt_iff_toNat_lt.1 hk
  have hl' : lc.toNat < 128 := UInt8.lt_iff_toNat_lt.1 hl
  rw [Key.mk.injEq, ← UInt8.toNat_inj]
  cases ke <;> cases le <;> simp at hcode hshift ⊢ <;> omega

/-- The entry of CapsLock is its own. -/
theorem keycode_eq_capsLock_iff {k : Key} (hk : k.code < 0x80) :
    k.keycode = CAPSLOCK ↔ k = ⟨false, CAPSLOCK⟩ := by
  constructor
  · intro h
    exact eq_of_keycode hk (by decide) h (by decide)
  · rintro rfl
    rfl

/-! ## One byte more -/

theorem decode_concat (extended : Bool) (bs : List UInt8) (b : UInt8) :
    decode extended (bs ++ [b]) = decode extended bs ++
      if b = MULTI_BYTE_SCANCODE then []
      else [eventOf (if bs = [] then extended else prefixed bs) b] := by
  induction bs generalizing extended with
  | nil =>
      simp only [List.nil_append, decode, if_true]
  | cons a bs ih =>
      have hlast : ∀ x, (if bs = [] then x else prefixed bs) =
          if bs = [] then x else prefixed (a :: bs) := by
        intro x
        split
        next => rfl
        next hne =>
          obtain ⟨c, cs, rfl⟩ := List.exists_cons_of_ne_nil hne
          simp [prefixed]
      have ha : bs = [] → prefixed (a :: bs) = decide (a = MULTI_BYTE_SCANCODE) := by
        rintro rfl
        simp [prefixed]
      simp only [List.cons_append, decode]
      split
      next hprefix =>
        rw [ih, hlast]
        grind
      next hcode =>
        rw [ih, hlast]
        grind

theorem decode_false_concat (bs : List UInt8) (b : UInt8) :
    decode false (bs ++ [b]) = decode false bs ++
      if b = MULTI_BYTE_SCANCODE then [] else [eventOf (prefixed bs) b] := by
  rw [decode_concat]
  split
  next => rfl
  next =>
    split
    next h =>
      subst h
      rfl
    next => rfl

theorem prefixed_concat (bs : List UInt8) (b : UInt8) :
    prefixed (bs ++ [b]) = decide (b = MULTI_BYTE_SCANCODE) := by
  simp [prefixed]

theorem held_concat (bs : List UInt8) (b : UInt8) (k : Key) : held (bs ++ [b]) k =
    if b = MULTI_BYTE_SCANCODE then held bs k
    else if k = (eventOf (prefixed bs) b).key then (eventOf (prefixed bs) b).make
    else held bs k := by
  unfold held
  rw [decode_false_concat]
  split
  next => rw [List.append_nil]
  next =>
    rw [List.filter_append, List.filter_singleton]
    split
    next h =>
      subst h
      simp
    next h =>
      have hne : ¬ (eventOf (prefixed bs) b).key = k := fun heq ↦ h heq.symm
      simp [hne]

/-! ## One byte of the driver -/

/-- The table after an event. -/
def marked (kb : Keyboard) (e : KeyEvent) : Keyboard where
  keyboardStatus := Function.update kb.keyboardStatus e.key.keycode e.make
  multiByteFlag := false
  capsLockActive := kb.capsLockActive ^^ decide (e = capsLockMake)

/-- `getKeyPress`, from the code on that the key has in the table. -/
def enter (kb : Keyboard) (normalizedCode scancode : UInt8) : UInt8 × Keyboard :=
  let releaseFlag := scancode &&& 0x80 ≠ 0
  let kb := { kb with keyboardStatus := fun code ↦
    if code = normalizedCode then !releaseFlag else kb.keyboardStatus code }
  if releaseFlag then (0, kb)
  else if normalizedCode = CAPSLOCK then (0, { kb with capsLockActive := !kb.capsLockActive })
  else if normalizedCode.toNat < scancodeToAscii.length then
    let map := if kb.shouldShift normalizedCode then shiftedScancodeToAscii else scancodeToAscii
    (map.getD normalizedCode.toNat 0, kb)
  else if normalizedCode ≥ KEYCODE_SHIFT then (normalizedCode, kb)
  else (0, kb)

theorem getKeyPress_enter (kb : Keyboard) (b : UInt8) : kb.getKeyPress b =
    enter { kb with multiByteFlag := false } (eventOf kb.multiByteFlag b).key.keycode b := by
  rcases kb with ⟨status, extended, caps⟩
  cases extended with
  | false => rfl
  | true => rfl

theorem enter_keyboard (kb : Keyboard) (n b : UInt8) : (enter kb n b).2 =
    { kb with
      keyboardStatus := Function.update kb.keyboardStatus n (decide (b &&& 0x80 = 0))
      capsLockActive := kb.capsLockActive ^^ decide (n = CAPSLOCK ∧ b &&& 0x80 = 0) } := by
  have hstatus : (fun code ↦ if code = n then !decide (b &&& 0x80 ≠ 0) else kb.keyboardStatus code)
      = Function.update kb.keyboardStatus n (decide (b &&& 0x80 = 0)) := by
    funext code
    by_cases hcode : code = n
    · subst hcode
      simp
    · simp [hcode]
  unfold enter
  simp only [hstatus]
  by_cases hrelease : b &&& 0x80 = 0
  · by_cases hcaps : n = CAPSLOCK
    · simp [hrelease, hcaps]
    · simp only [hrelease, hcaps]
      split_ifs <;> simp_all
  · simp [hrelease]

/-- `getKeyPress` enters the event of the byte in the table. -/
theorem getKeyPress_keyboard (kb : Keyboard) (b : UInt8) :
    (kb.getKeyPress b).2 = kb.marked (eventOf kb.multiByteFlag b) := by
  have hcaps : (eventOf kb.multiByteFlag b).key.keycode = CAPSLOCK ∧ b &&& 0x80 = 0 ↔
      eventOf kb.multiByteFlag b = capsLockMake := by
    rw [keycode_eq_capsLock_iff (and_0x7F_lt b)]
    simp [eventOf, capsLockMake]
  rw [getKeyPress_enter, enter_keyboard]
  simp only [marked, hcaps]
  rfl

theorem processControl_ne_zero_iff (kb : Keyboard) (b : UInt8) : kb.processControl b ≠ 0 ↔
    kb.isPressed LCONTROL = true ∧ (b = PRESS_C ∨ b = PRESS_D) := by
  unfold processControl
  cases kb.isPressed LCONTROL with
  | false => simp
  | true =>
      simp only [Bool.not_true, Bool.false_eq_true, if_false, true_and]
      split
      next h => simp [h, END_OF_TEXT]
      next h =>
        split
        next h' => simp [h', END_OF_TRANSMISSION]
        next h' => simp [h, h']

/-! ## Keeping up -/

section Step

variable {bs : List UInt8} {kb : Keyboard} {b : UInt8}

/-- After the prefix. -/
theorem Faithful.concat_prefix (h : Faithful bs kb) :
    Faithful (bs ++ [MULTI_BYTE_SCANCODE]) { kb with multiByteFlag := true } := by
  refine ⟨?_, ?_, ?_⟩
  · intro k hk
    rw [held_concat, if_pos rfl]
    exact h.pressed k hk
  · rw [prefixed_concat]
    rfl
  · rw [decode_false_concat, if_pos rfl, List.append_nil]
    exact h.capsLock

/-- The two keys that share an entry, seen from either of them. -/
theorem exists_shared {k : Key} (hk : k.keycode = KEYCODE_SHIFT) :
    ∃ l : Key, l.code < 0x80 ∧ l.keycode = k.keycode ∧ l ≠ k := by
  rw [hk]
  rcases k with ⟨extended, code⟩
  cases extended with
  | false => exact ⟨⟨true, 0⟩, by decide, by decide, by simp⟩
  | true => exact ⟨⟨false, 0x7F⟩, by decide, by decide, by simp⟩

/-- CapsLock is a parity. -/
theorem countP_concat (es : List KeyEvent) (e : KeyEvent) :
    decide ((es ++ [e]).countP (· = capsLockMake) % 2 = 1)
      = (decide (es.countP (· = capsLockMake) % 2 = 1) ^^ decide (e = capsLockMake)) := by
  rw [List.countP_append]
  by_cases he : e = capsLockMake
  · simp [he]
    grind
  · simp [he]

/-- After a byte that goes through `getKeyPress`. -/
theorem Faithful.concat_event_iff (h : Faithful bs kb) (hb : b ≠ MULTI_BYTE_SCANCODE) :
    Faithful (bs ++ [b]) (kb.marked (eventOf kb.multiByteFlag b)) ↔
      ((eventOf kb.multiByteFlag b).key.keycode = KEYCODE_SHIFT →
        kb.isPressed KEYCODE_SHIFT = (eventOf kb.multiByteFlag b).make) := by
  have hcode : (eventOf kb.multiByteFlag b).key.code < 0x80 := and_0x7F_lt b
  have hheld (k : Key) : held (bs ++ [b]) k = if k = (eventOf kb.multiByteFlag b).key
      then (eventOf kb.multiByteFlag b).make else held bs k := by
    rw [held_concat, if_neg hb, h.multiByteFlag]
  have hdecode : decode false (bs ++ [b]) = decode false bs ++ [eventOf kb.multiByteFlag b] := by
    rw [decode_false_concat, if_neg hb, h.multiByteFlag]
  generalize eventOf kb.multiByteFlag b = e at hcode hheld hdecode
  constructor
  · intro hafter hshift
    obtain ⟨l, hl, hsame, hne⟩ := exists_shared hshift
    have hpressed := hafter.pressed l hl
    rw [hheld, if_neg hne, ← h.pressed l hl, hsame, hshift] at hpressed
    have hentry : (kb.marked e).isPressed KEYCODE_SHIFT = e.make := by
      rw [← hshift]
      exact Function.update_self _ _ _
    exact hpressed.symm.trans hentry
  · intro hshared
    refine ⟨?_, ?_, ?_⟩
    · intro k hk
      rw [hheld]
      split
      next heq =>
        subst heq
        exact Function.update_self _ _ _
      next hne =>
        rw [← h.pressed k hk]
        by_cases hsame : k.keycode = e.key.keycode
        · -- the entry is the shared one
          have hshift : e.key.keycode = KEYCODE_SHIFT := by
            by_contra hshift
            exact hne (eq_of_keycode hk hcode hsame hshift)
          rw [hsame, hshift, hshared hshift, ← hshift]
          exact Function.update_self _ _ _
        · exact Function.update_of_ne hsame _ _
    · rw [prefixed_concat, decide_eq_false hb]
      rfl
    · rw [hdecode, countP_concat, ← h.capsLock]
      rfl

/-- After a shortcut, which leaves the driver as it is. -/
theorem Faithful.concat_shortcut_iff (h : Faithful bs kb) (hb : b = PRESS_C ∨ b = PRESS_D) :
    Faithful (bs ++ [b]) kb ↔ kb.multiByteFlag = false ∧ kb.isPressed b = true := by
  have hprefix : b ≠ MULTI_BYTE_SCANCODE := by
    rcases hb with rfl | rfl <;> decide
  have hevent : eventOf false b = ⟨⟨false, b⟩, true⟩ := by
    rcases hb with rfl | rfl <;> rfl
  have hcode : b < 0x80 := by
    rcases hb with rfl | rfl <;> decide
  have hcaps : ∀ extended, eventOf extended b ≠ capsLockMake := by
    rcases hb with rfl | rfl <;> decide
  constructor
  · intro hafter
    have hflag : kb.multiByteFlag = false := by
      rw [hafter.multiByteFlag, prefixed_concat, decide_eq_false hprefix]
    refine ⟨hflag, ?_⟩
    have hpressed := hafter.pressed ⟨false, b⟩ hcode
    rwa [held_concat, if_neg hprefix, ← h.multiByteFlag, hflag, hevent, if_pos rfl] at hpressed
  · rintro ⟨hflag, hpressed⟩
    refine ⟨?_, ?_, ?_⟩
    · intro k hk
      rw [held_concat, if_neg hprefix, ← h.multiByteFlag, hflag, hevent]
      split
      next heq =>
        subst heq
        exact hpressed
      next => exact h.pressed k hk
    · rw [prefixed_concat, decide_eq_false hprefix, hflag]
    · rw [decode_false_concat, if_neg hprefix, countP_concat, decide_eq_false (hcaps _),
        Bool.xor_false]
      exact h.capsLock

/-- **A byte keeps the driver faithful exactly when it keeps up.** -/
theorem faithful_concat_iff (h : Faithful bs kb) :
    Faithful (bs ++ [b]) (kb.key b).2 ↔ KeepsUp kb b := by
  by_cases hprefix : b = MULTI_BYTE_SCANCODE
  · subst hprefix
    have hno : ¬ kb.processControl MULTI_BYTE_SCANCODE ≠ 0 := by
      rw [processControl_ne_zero_iff]
      rintro ⟨-, h | h⟩ <;> cases h
    exact ⟨fun _ ↦ ⟨fun hctrl ↦ absurd hctrl hno, fun hne ↦ absurd rfl hne⟩,
      fun _ ↦ h.concat_prefix⟩
  by_cases hctrl : kb.processControl b ≠ 0
  · have hkey : (kb.key b).2 = kb := by
      simp [key, hprefix, hctrl]
    have hb := ((processControl_ne_zero_iff kb b).1 hctrl).2
    rw [hkey, h.concat_shortcut_iff hb]
    constructor
    · intro hok
      refine ⟨fun _ ↦ hok, fun _ hshift ↦ ?_⟩
      rw [hok.1] at hshift
      rcases hb with rfl | rfl <;> exact absurd hshift (by decide)
    · intro hkeeps
      exact hkeeps.shortcut hctrl
  · have hkey : (kb.key b).2 = kb.marked (eventOf kb.multiByteFlag b) := by
      rw [← getKeyPress_keyboard]
      simp only [key, if_neg hprefix, if_neg hctrl]
    rw [hkey, h.concat_event_iff hprefix]
    exact ⟨fun hshared ↦ ⟨fun hno ↦ absurd hno hctrl, fun _ ↦ hshared⟩,
      fun hkeeps ↦ hkeeps.shared hprefix⟩

end Step

/-! ## All bytes -/

theorem faithful_nil : Faithful [] released := ⟨fun _ _ ↦ rfl, rfl, rfl⟩

theorem after_concat (bs : List UInt8) (b : UInt8) : after (bs ++ [b]) = ((after bs).key b).2 := by
  simp [after]

/-- **The driver is faithful after each byte exactly when each byte keeps up.** -/
theorem faithful_iff (bs : List UInt8) : (∀ p, p <+: bs → Faithful p (after p)) ↔
    ∀ p b, p ++ [b] <+: bs → KeepsUp (after p) b := by
  constructor
  · intro h p b hp
    have hbefore := h p ((List.prefix_append p [b]).trans hp)
    have hafter := h (p ++ [b]) hp
    rw [after_concat] at hafter
    exact (faithful_concat_iff hbefore).1 hafter
  · intro h p
    -- by induction on the bytes that have come
    induction p using List.reverseRecOn with
    | nil => exact fun _ ↦ faithful_nil
    | append_singleton p b ih =>
        intro hp
        rw [after_concat]
        have hbefore := ih ((List.prefix_append p [b]).trans hp)
        exact (faithful_concat_iff hbefore).2 (h p b hp)

/-- Ctrl+C: the table does not say that C is pressed. -/
theorem ctrlC_not_pressed :
    ¬ ∀ bs p : List UInt8, p <+: bs → Faithful p (after p) := by
  intro h
  have hfaithful := h [LCONTROL, PRESS_C] _ (List.prefix_refl _)
  exact absurd (hfaithful.pressed ⟨false, PRESS_C⟩ (by decide)) (by decide)

end Keyboard

/-! ## The interrupt -/

namespace Console

theorem forEachInFG_keyboard {action : Int → Console → Console}
    (haction : ∀ pid s, (action pid s).keyboard = s.keyboard) (s : Console) :
    (s.forEachInFG action).keyboard = s.keyboard := by
  unfold forEachInFG
  generalize (List.range Process.MAX_PROCESSES.toNat).map Int.ofNat = pids
  induction pids generalizing s with
  | nil => rfl
  | cons pid pids ih =>
      rw [List.foldl_cons, ih]
      split
      · exact haction pid s
      · rfl

theorem fileWrite_keyboard {s : Console} {c : UInt8} {r : Console × Option IPC.PipeSem}
    (h : s.fileWrite c = some r) : r.1.keyboard = s.keyboard := by
  unfold fileWrite at h
  split at h
  next =>
    obtain rfl := Option.some_inj.1 h
    rfl
  next p hp =>
    obtain ⟨x, hx, rfl⟩ := Option.map_eq_some_iff.1 h
    rfl

/-- **The interrupt leaves the variables of the keys as `Keyboard.key` leaves them**, whatever
it does with the key. -/
theorem keyboardInterrupt_keyboard {s : Console} {scancode : UInt8} {closed : Int → List Nat}
    {r : Console × Option IPC.PipeSem × UInt8} (h : s.keyboardInterrupt scancode closed = some r) :
    r.1.keyboard = (s.keyboard.key scancode).2 := by
  unfold keyboardInterrupt at h
  simp only at h
  split at h
  · obtain rfl := Option.some_inj.1 h
    rfl
  split at h
  · obtain rfl := Option.some_inj.1 h
    have hkill (pid : Int) (u : Console) : (killFromIsr closed pid u).keyboard = u.keyboard := rfl
    have hall := forEachInFG_keyboard hkill { s with keyboard := (s.keyboard.key scancode).2 }
    exact hall
  split at h
  · obtain ⟨x, hx, rfl⟩ := Option.map_eq_some_iff.1 h
    refine (fileWrite_keyboard hx).trans (forEachInFG_keyboard ?_ _)
    intro pid s
    unfold requestEofOnKbdFg
    split <;> rfl
  · obtain ⟨x, hx, rfl⟩ := Option.map_eq_some_iff.1 h
    exact fileWrite_keyboard hx

end Console

end BareBones.Drivers
