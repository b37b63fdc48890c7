import BareBones.Lib.Shares
import BareBones.Process.KernelOps

/-!
# Proportional round robin

What `schedule` does when nothing happens but timer ticks.  `dispatch` puts a process on a
fresh quantum and uses its first tick at once, every further tick uses one more, and the
tick that finds none left sends the process to the back of `readyQueue`.  So a process of
priority `f c` owns `f c` ticks, counted from the one that dispatches it, and the ready
processes take their turns in the order of the queue: this is the rotation with shares of
`Lib.Shares` (`round_robin`).

The node that `enqueue` needs comes from the heap, and `schedule` does not look at the
result of `enqueue`.  A tick is therefore a function of what the heap has room for, which
other users of the heap decide; the rotation goes on as long as there is room for the nodes
of `readyQueue`, and it loses a process at the first tick that finds none
(`rotation_broken`).
-/

namespace BareBones.Process.Kernel

open BareBones.Lib

/-- A timer interrupt, with the room that it finds in the heap. -/
def tick (room : Node → Bool) (k : Kernel) : Option Kernel := { k with nodes := room }.schedule

/-- The first `n` ticks of a run that consists of ticks only. -/
def ticks (room : Nat → Node → Bool) (k : Kernel) : Nat → Option Kernel
  | 0 => some k
  | n + 1 => (ticks room k n).bind (tick (room n))

/-- The process that tick `n` leaves on the CPU. -/
def owner (room : Nat → Node → Bool) (k : Kernel) (n : Nat) : Option Int :=
  (k.ticks room (n + 1)).bind fun t ↦ t.current.map Prod.fst

/-- Every tick finds room for a node of `readyQueue`. -/
def Roomy (room : Nat → Node → Bool) : Prop := ∀ n, room n .readyQueue = true

/-- The process `c` is ready to run and has the priority `f c`. -/
def Ready (f : Int → Nat) (k : Kernel) (c : Int) : Prop :=
  ∃ p, k.processTable c = some p ∧ p.state = .READY ∧ p.priorityLevel = f c ∧ 1 ≤ f c

/-- It is `c`'s turn for `r` more ticks, and `queue` waits. -/
structure Turn (f : Int → Nat) (k : Kernel) (c : Int) (r : Nat) (queue : List Int) : Prop where
  enabled : k.schedulerEnabled = true
  running : ∃ p, k.current = some (c, p) ∧ p.state = .RUNNING ∧ p.remainingQuantums = r ∧
    p.priorityLevel = f c ∧ 1 ≤ f c
  waiting : k.readyQueue = queue
  nodup : (c :: queue).Nodup
  ready : ∀ d ∈ queue, Ready f k d

/-- After `r` more ticks of the running process, if there is one, the processes of `order`
take turns in this order. -/
inductive Rotation (f : Int → Nat) (k : Kernel) : Nat → List Int → Prop
  /-- Nobody runs, or `currentProcess` has been blocked or terminated. -/
  | waiting {order : List Int} (enabled : k.schedulerEnabled = true)
      (current : k.currentProcess = none ∨ ∃ cur p, k.current = some (cur, p) ∧
        p.state ≠ .RUNNING)
      (hqueue : k.readyQueue = order) (nonempty : order ≠ []) (nodup : order.Nodup)
      (ready : ∀ c ∈ order, Ready f k c) : Rotation f k 0 order
  /-- A process runs, and will go to the back of the queue. -/
  | running {c : Int} {r : Nat} {queue : List Int} (turn : Turn f k c r queue) :
      Rotation f k r (queue ++ [c])

variable {f : Int → Nat} {k t : Kernel} {room : Nat → Node → Bool} {nodes : Node → Bool}
  {c d : Int} {r n : Nat} {queue order : List Int}

/-! ## Ticks -/

/-- Ticks after ticks. -/
theorem ticks_add (h : k.ticks room n = some t) (m : Nat) :
    k.ticks room (n + m) = t.ticks (fun i ↦ room (n + i)) m := by
  induction m with
  | zero => exact h
  | succ m ih =>
      rw [← Nat.add_assoc]
      exact congrArg (·.bind (tick (room (n + m)))) ih

theorem owner_add (h : k.ticks room n = some t) (m : Nat) :
    k.owner room (n + m) = t.owner (fun i ↦ room (n + i)) m := by
  unfold owner
  rw [Nat.add_assoc, ticks_add h]

/-- The first tick, and the others. -/
theorem ticks_succ (h : k.tick (room 0) = some t) (m : Nat) :
    k.ticks room (m + 1) = t.ticks (fun i ↦ room (1 + i)) m := by
  rw [Nat.add_comm]
  exact ticks_add (n := 1) h m

theorem Roomy.add (h : Roomy room) (m : Nat) : Roomy fun i ↦ room (m + i) := fun _ ↦ h _

/-! ## One tick -/

theorem Ready.congr (h : Ready f k d) (htable : t.processTable d = k.processTable d) :
    Ready f t d := by
  obtain ⟨p, hp, hready⟩ := h
  exact ⟨p, htable.trans hp, hready⟩

/-- `dispatch` takes the head of the queue. -/
theorem dispatch_cons (hqueue : k.readyQueue = c :: queue) {p : ProcessCDT}
    (hp : k.processTable c = some p) : k.dispatch = some (k.dispatched c p.inst queue) := by
  simp only [dispatch, getNextPID, hqueue, hp]
  rfl

/-- The head of the queue gets its turn; the tick that dispatches it is the first of it. -/
theorem Turn.of_dispatch (enabled : k.schedulerEnabled = true)
    (hqueue : k.readyQueue = c :: queue) (hnodup : (c :: queue).Nodup)
    (hready : ∀ d ∈ c :: queue, Ready f k d) :
    ∃ t, k.dispatch = some t ∧ Turn f t c (f c - 1) queue := by
  obtain ⟨p, hp, hstate, hpriority, hpos⟩ := hready c List.mem_cons_self
  refine ⟨_, dispatch_cons hqueue hp, ?_⟩
  constructor
  · exact enabled
  · refine ⟨{ p with state := .RUNNING, remainingQuantums := p.priorityLevel - 1 }, ?_, rfl, ?_,
      hpriority, hpos⟩
    · refine current_eq_some.mpr ⟨rfl, ?_⟩
      change (k.modify c _).processTable c = _
      rw [modify_self, hp]
      rfl
    · rw [hpriority]
  · rfl
  · exact hnodup
  · intro d hd
    refine (hready d (List.mem_cons_of_mem _ hd)).congr (modify_other _ _ fun heq ↦ ?_)
    rw [heq] at hd
    exact (List.nodup_cons.mp hnodup).1 hd

/-- A running process with a quantum left goes on. -/
theorem schedule_running (enabled : k.schedulerEnabled = true) {p : ProcessCDT}
    (hcur : k.current = some (c, p)) (hrun : p.state = .RUNNING)
    (hquantums : 0 < p.remainingQuantums) : k.schedule = some (k.modify c fun p ↦
      { p with remainingQuantums := p.remainingQuantums - 1 }) := by
  have hpointer : k.currentProcess ≠ none := by
    rw [(current_eq_some.mp hcur).1]
    exact Option.some_ne_none _
  rw [schedule, if_neg (not_not.mpr enabled), if_neg hpointer]
  simp only [hcur]
  rw [if_pos hrun, if_pos hquantums]

/-- One without is preempted. -/
theorem schedule_preempt (enabled : k.schedulerEnabled = true) {p : ProcessCDT}
    (hcur : k.current = some (c, p)) (hrun : p.state = .RUNNING)
    (hquantums : p.remainingQuantums = 0) : k.schedule =
      ((k.setState c .READY).enqueueReady c).dispatch := by
  have hpointer : k.currentProcess ≠ none := by
    rw [(current_eq_some.mp hcur).1]
    exact Option.some_ne_none _
  rw [schedule, if_neg (not_not.mpr enabled), if_neg hpointer]
  simp only [hcur]
  rw [if_pos hrun, if_neg (by omega)]

/-- If nobody runs, the next process is dispatched. -/
theorem schedule_idle (enabled : k.schedulerEnabled = true)
    (hcur : k.currentProcess = none ∨ ∃ cur p, k.current = some (cur, p) ∧ p.state ≠ .RUNNING) :
    k.schedule = k.dispatch := by
  rw [schedule, if_neg (not_not.mpr enabled)]
  rcases hcur with hnone | ⟨cur, p, hcur, hrun⟩
  · rw [if_pos hnone]
  · have hpointer : k.currentProcess ≠ none := by
      rw [(current_eq_some.mp hcur).1]
      exact Option.some_ne_none _
    rw [if_neg hpointer]
    simp only [hcur]
    rw [if_neg hrun]

/-- A turn does not depend on the room in the heap. -/
theorem Turn.setRoom (h : Turn f k c r queue) (nodes : Node → Bool) :
    Turn f { k with nodes := nodes } c r queue :=
  ⟨h.enabled, h.running, h.waiting, h.nodup, h.ready⟩

/-- A tick within a turn uses one quantum. -/
theorem Turn.tick_succ (h : Turn f k c (r + 1) queue) (nodes : Node → Bool) :
    ∃ t, k.tick nodes = some t ∧ Turn f t c r queue := by
  replace h := h.setRoom nodes
  rw [tick]
  generalize { k with nodes := nodes } = k at h
  obtain ⟨p, hcur, hrun, hquantums, hpriority, hpos⟩ := h.running
  obtain ⟨hpointer, hp⟩ := current_eq_some.mp hcur
  refine ⟨_, schedule_running h.enabled hcur hrun (by omega), ?_⟩
  constructor
  · exact h.enabled
  · refine ⟨{ p with remainingQuantums := p.remainingQuantums - 1 }, ?_, hrun, ?_, hpriority, hpos⟩
    · refine current_eq_some.mpr ⟨hpointer, ?_⟩
      rw [modify_self, hp]
      rfl
    · change p.remainingQuantums - 1 = r
      omega
  · exact h.waiting
  · exact h.nodup
  · intro d hd
    refine (h.ready d hd).congr (modify_other _ _ fun heq ↦ ?_)
    rw [heq] at hd
    exact (List.nodup_cons.mp h.nodup).1 hd

/-- The tick that finds no quantum left sends the process to the back of the queue and
dispatches the head. -/
theorem Turn.tick_zero (h : Turn f k c 0 queue) (hroom : nodes .readyQueue = true)
    (horder : queue ++ [c] = d :: order) :
    ∃ t, k.tick nodes = some t ∧ Turn f t d (f d - 1) order := by
  replace h := h.setRoom nodes
  rw [tick]
  replace hroom : { k with nodes := nodes }.nodes .readyQueue = true := hroom
  generalize { k with nodes := nodes } = k at h hroom
  obtain ⟨p, hcur, hrun, hquantums, hpriority, hpos⟩ := h.running
  rw [schedule_preempt h.enabled hcur hrun hquantums]
  have hnodup : (queue ++ [c]).Nodup := (List.perm_append_singleton c queue).nodup_iff.mpr h.nodup
  refine Turn.of_dispatch h.enabled ?_ (horder ▸ hnodup) ?_
  · rw [← horder, ← h.waiting]
    change k.enqueue .readyQueue k.readyQueue c = _
    rw [enqueue, if_pos hroom]
  · rw [← horder]
    intro e he
    rcases List.mem_append.mp he with he | he
    · refine (h.ready e he).congr (modify_other _ _ fun heq ↦ ?_)
      rw [heq] at he
      exact (List.nodup_cons.mp h.nodup).1 he
    · obtain rfl := List.mem_singleton.mp he
      refine ⟨{ p with state := .READY }, ?_, rfl, hpriority, hpos⟩
      change (k.setState e .READY).processTable e = _
      rw [setState, modify_self, (current_eq_some.mp hcur).2]
      rfl

/-- **A dispatch**: the tick at the end of a turn starts the turn of the next process. -/
theorem Rotation.tick (h : Rotation f k 0 (c :: queue)) (hroom : nodes .readyQueue = true) :
    ∃ t, k.tick nodes = some t ∧ Turn f t c (f c - 1) queue := by
  generalize horder : c :: queue = order at h
  generalize hzero : 0 = r at h
  cases h with
  | waiting enabled current hqueue nonempty nodup ready =>
      subst horder
      rw [Kernel.tick, schedule_idle (k := { k with nodes := nodes }) enabled current]
      exact Turn.of_dispatch (k := { k with nodes := nodes }) enabled hqueue nodup ready
  | running turn =>
      subst hzero
      exact turn.tick_zero hroom horder.symm

/-! ## A turn -/

/-- What is left of a turn. -/
theorem Turn.ticks (h : Turn f k c r queue) (room : Nat → Node → Bool) (hn : n ≤ r) :
    ∃ t, k.ticks room n = some t ∧ Turn f t c (r - n) queue := by
  induction n with
  | zero => exact ⟨k, rfl, h⟩
  | succ n ih =>
      obtain ⟨t, ht, hturn⟩ := ih (by omega)
      rw [show r - n = r - (n + 1) + 1 by omega] at hturn
      obtain ⟨u, hu, hnext⟩ := hturn.tick_succ (room n)
      exact ⟨u, by rw [Kernel.ticks, ht]; exact hu, hnext⟩

theorem Turn.owner_eq (h : Turn f t c r queue) (ht : k.ticks room (n + 1) = some t) :
    k.owner room n = some c := by
  obtain ⟨p, hcur, -⟩ := h.running
  rw [owner, ht, Option.bind_some, hcur]
  rfl

/-- The running process keeps the CPU until its quantums are used. -/
theorem Rotation.lead (h : Rotation f k r order) (room : Nat → Node → Bool) :
    ∃ t, k.ticks room r = some t ∧ Rotation f t 0 order := by
  cases h with
  | waiting enabled current hqueue nonempty nodup ready =>
      exact ⟨k, rfl, .waiting enabled current hqueue nonempty nodup ready⟩
  | running turn =>
      obtain ⟨t, ht, hturn⟩ := turn.ticks room le_rfl
      rw [Nat.sub_self] at hturn
      exact ⟨t, ht, .running hturn⟩

/-- **The process at the head of the rotation owns its share of the ticks**, while the
others wait in the queue; -/
theorem Rotation.turn (h : Rotation f k 0 (c :: queue)) (hroom : Roomy room) (hn : n < f c) :
    ∃ t, k.ticks room (n + 1) = some t ∧ Turn f t c (f c - 1 - n) queue := by
  obtain ⟨t, ht, hturn⟩ := h.tick (hroom 0)
  obtain ⟨u, hu, hlater⟩ := hturn.ticks (fun i ↦ room (1 + i)) (n := n) (by omega)
  exact ⟨u, by rw [ticks_succ ht, hu], hlater⟩

theorem Rotation.share_pos (h : Rotation f k r order) (hc : c ∈ order) : 1 ≤ f c := by
  cases h with
  | waiting enabled current hqueue nonempty nodup ready =>
      obtain ⟨p, -, -, -, hpos⟩ := ready c hc
      exact hpos
  | running turn =>
      rcases List.mem_append.mp hc with hc | hc
      · obtain ⟨p, -, -, -, hpos⟩ := turn.ready c hc
        exact hpos
      · obtain ⟨p, -, -, -, -, hpos⟩ := turn.running
        rwa [List.mem_singleton.mp hc]

/-- and then it comes last in the rotation. -/
theorem Rotation.rotate (h : Rotation f k 0 (c :: queue)) (hroom : Roomy room) :
    ∃ t, k.ticks room (f c) = some t ∧ Rotation f t 0 (queue ++ [c]) := by
  have hpos := h.share_pos List.mem_cons_self
  obtain ⟨t, ht, hturn⟩ := h.turn (n := f c - 1) hroom (by omega)
  rw [Nat.sub_add_cancel hpos] at ht
  rw [Nat.sub_self] at hturn
  exact ⟨t, ht, .running hturn⟩

/-! ## The rotation -/

theorem Rotation.nodup (h : Rotation f k r order) : order.Nodup := by
  cases h with
  | waiting enabled current hqueue nonempty nodup ready => exact nodup
  | running turn => exact (List.perm_append_singleton _ _).nodup_iff.mpr turn.nodup

theorem Rotation.nonempty (h : Rotation f k r order) : order ≠ [] := by
  cases h with
  | waiting enabled current hqueue nonempty nodup ready => exact nonempty
  | running turn => simp

/-- The owner of every tick. -/
theorem Rotation.owner_eq (h : Rotation f k 0 order) (hroom : Roomy room) (n : Nat) :
    k.owner room n = (shares f order)[n % (shares f order).length]? := by
  induction n using Nat.strong_induction_on generalizing k room order with
  | _ n ih =>
      cases order with
      | nil => exact absurd rfl h.nonempty
      | cons c queue =>
          rcases Nat.lt_or_ge n (f c) with hn | hn
          · obtain ⟨t, ht, hturn⟩ := h.turn hroom hn
            rw [hturn.owner_eq ht, slot_turn hn]
          · have hpos := h.share_pos List.mem_cons_self
            obtain ⟨t, ht, hrotation⟩ := h.rotate hroom
            have hlater := ih (n - f c) (by omega) hrotation (hroom.add (f c))
            rw [← slot_rotate hn hpos, ← hlater, ← owner_add ht, Nat.add_sub_cancel' hn]

/-- **Proportional round robin.**  The processes of `order` share the CPU in the ratio of
their priorities `f`.  From the first dispatch on, which is after `r` ticks if the running
process has `r` quantums left:

* the head `c` of the rotation keeps the CPU for `f c` ticks, then it is at the back of
  the rotation, and the next process is dispatched;
* tick `n` belongs to slot `n` of the rotation;
* in every window as long as a round, each process owns as many ticks as its priority. -/
structure Proportional (f : Int → Nat) (room : Nat → Node → Bool) (k : Kernel) (r : Nat)
    (order : List Int) : Prop where
  turn : ∀ c queue, order = c :: queue → ∀ n < f c,
    ∃ t, k.ticks room (r + (n + 1)) = some t ∧ Turn f t c (f c - 1 - n) queue
  back : ∀ c queue, order = c :: queue →
    ∃ t, k.ticks room (r + f c) = some t ∧ Rotation f t 0 (queue ++ [c])
  next : ∀ c queue d rest, order = c :: queue → queue ++ [c] = d :: rest →
    ∃ t, k.ticks room (r + f c + 1) = some t ∧ Turn f t d (f d - 1) rest
  slot : ∀ n, k.owner room (r + n) = (shares f order)[n % (order.map f).sum]?
  window : ∀ c ∈ order, ∀ n, ((List.range (order.map f).sum).countP fun i ↦
    k.owner room (r + (n + i)) = some c) = f c

/-- **Timer ticks share the CPU in proportion to the priorities**, whatever the ready
processes are, as long as there is room for the nodes of `readyQueue`. -/
theorem round_robin (h : Rotation f k r order) (hroom : Roomy room) :
    Proportional f room k r order := by
  obtain ⟨k', hk', hstart⟩ := h.lead room
  have hroom' := hroom.add r
  have howner : ∀ n, k.owner room (r + n) = (shares f order)[n % (order.map f).sum]? := by
    intro n
    rw [owner_add hk', hstart.owner_eq hroom', length_shares]
  refine ⟨?_, ?_, ?_, howner, ?_⟩
  · rintro c queue rfl n hn
    obtain ⟨t, ht, hturn⟩ := hstart.turn hroom' hn
    exact ⟨t, by rw [ticks_add hk', ht], hturn⟩
  · rintro c queue rfl
    obtain ⟨t, ht, hrotation⟩ := hstart.rotate hroom'
    exact ⟨t, by rw [ticks_add hk', ht], hrotation⟩
  · rintro c queue d rest rfl hqueue
    obtain ⟨t, ht, hrotation⟩ := hstart.rotate hroom'
    rw [hqueue] at hrotation
    obtain ⟨u, hu, hturn⟩ := hrotation.tick (hroom (r + f c))
    refine ⟨u, ?_, hturn⟩
    rw [ticks, ticks_add hk', ht]
    exact hu
  · intro c hc n
    simp only [howner, ← length_shares]
    exact count_window hstart.nodup hc n

/-- The idle process and `init`, once `init` has the priority 3. -/
theorem round_robin_init :
    let f : Int → Nat := fun pid ↦ if pid = INIT_PID then 3 else 1
    let k := { (initializeScheduler.setPriorityOnPID INIT_PID 3).getD boot with
      schedulerEnabled := true }
    Rotation f k 0 [IDLE_PID, INIT_PID] ∧ Roomy (fun _ _ ↦ true) ∧
      Proportional f (fun _ _ ↦ true) k 0 [IDLE_PID, INIT_PID] := by
  intro f k
  have hrotation : Rotation f k 0 [IDLE_PID, INIT_PID] := by
    refine .waiting rfl (.inl rfl) rfl (by decide) (by decide) ?_
    intro c hc
    rcases List.mem_pair.mp hc with rfl | rfl
    · exact ⟨_, rfl, rfl, rfl, by decide⟩
    · exact ⟨_, rfl, rfl, rfl, by decide⟩
  exact ⟨hrotation, fun _ ↦ rfl, round_robin hrotation fun _ ↦ rfl⟩

/-- One full heap, at the tick that ends the turn of the shell: it never runs again. -/
theorem rotation_broken : ¬∀ k : Kernel, Reach step (fun _ _ ↦ True) initializeScheduler k →
    ∀ f r order, Rotation f k r order → ∀ room, Proportional f room k r order := by
  intro hclaim
  let room : Nat → Node → Bool := fun n _ ↦ n ≠ 0
  have hrun : (run step initializeScheduler bootEvents).map (fun k ↦
      decide (k.schedulerEnabled = true ∧ k.currentProcess = some (2, 2) ∧ k.readyQueue = [0] ∧
        k.processTable 0 = some ⟨0, 1, .READY, 1, 0, [], [], .user⟩ ∧
        k.processTable 2 = some ⟨2, 1, .RUNNING, 1, 0, [], [], .user⟩)) = some true := by
    decide +kernel
  have howner : ((run step initializeScheduler bootEvents).bind fun k ↦ k.owner room 1) =
      some 0 := by
    decide +kernel
  obtain ⟨k, hk, hobs⟩ := Option.map_eq_some_iff.mp hrun
  obtain ⟨enabled, hpointer, hqueue, hidle, hshell⟩ := of_decide_eq_true hobs
  rw [hk, Option.bind_some] at howner
  have hturn : Turn (fun _ ↦ 1) k 2 0 [0] := by
    constructor
    · exact enabled
    · exact ⟨_, current_eq_some.mpr ⟨hpointer, hshell⟩, rfl, rfl, rfl, le_rfl⟩
    · exact hqueue
    · decide
    · intro d hd
      obtain rfl := List.mem_singleton.mp hd
      exact ⟨_, hidle, rfl, rfl, le_rfl⟩
  have hslot := (hclaim k (.of_run hk (.of_true _ _)) _ 0 _ (.running hturn) room).slot 1
  rw [Nat.zero_add, howner] at hslot
  cases hslot

end BareBones.Process.Kernel
