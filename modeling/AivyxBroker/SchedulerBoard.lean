import AivyxBroker.SchedulerRuns
import AivyxBroker.WakeFlags

/-!
# The scheduler without queues

What the scheduler is for, stated without its wait queues: a table of slots
and, for every parked call, whether it was woken since it parked. Setting a
slot free wakes the calls that prefer it or, if none of those still sleeps,
the calls without usable preference. The scheduler refines this machine event
by event, so the order of its queues and the senders that calls leave behind
in them have no influence on any output of any run.
-/

namespace AivyxBroker.Scheduler

open RunInvariant WakeSignal

/-- The slots, and the parked calls with the hints they were made with. -/
structure Board where
  /-- The occupancy table. -/
  slots : List SlotState
  /-- Counts admissions. -/
  clock : ℕ
  /-- Who is parked, and who of them was woken. -/
  calls : Flags (Option SlotHint)

/-- A board over unused slots. -/
def Board.new (numSlots : ℕ) : Board := ⟨List.replicate numSlots SlotState.default,0,Flags.empty⟩

/-- The table as the scheduler's data with nobody queued. -/
def Board.table (b : Board) : Inner := ⟨b.slots,fun _ => none,[],b.clock⟩

/-- A call is admitted by the table, or parks. -/
def Board.attempt (b : Board) (caller : ℕ) (hint : Option SlotHint) : Output×Board :=
  match tryAdmitLocked b.table hint with
  | some (admission,table) =>
    (.admitted caller admission,⟨table.slots,table.clock,b.calls.leave caller⟩)
  | none => (.parked caller,{b with calls := b.calls.park caller hint})

/-- Change one slot of the table. -/
def Board.modify (b : Board) (slotId : ℕ) (f : SlotState → SlotState) : Board :=
  {b with slots := b.slots.modify slotId f}

/-- The calls that prefer a slot, or those without usable preference. -/
def Board.prefers (b : Board) (slot : Option ℕ) (hint : Option SlotHint) : Bool :=
  preference b.slots.length hint==slot

/-- A slot becomes free: its own sleepers wake, or else the general ones. -/
def Board.free (b : Board) (slotId : ℕ) : Board :=
  let target := if b.calls.anyUnwoken (b.prefers (some slotId))=true then some slotId else none
  {b.modify slotId fun slot => {slot with busy := false} with calls := b.calls.wake (b.prefers target)}

/-- The abstract semantics, on the events of the scheduler. -/
def Board.step (b : Board) : Event → Option (Output×Board)
  | .admitCall hint => some ({b with calls := b.calls.arrive}.attempt b.calls.next hint)
  | .repoll caller =>
    match b.calls.waiting caller with
    | some w => if w.woken=true then some (b.attempt caller w.arg) else none
    | none => none
  | .timeOut caller =>
    match b.calls.waiting caller with
    | some _ => some (.timedOut caller,{b with calls := b.calls.leave caller})
    | none => none
  | .cancel caller =>
    match b.calls.waiting caller with
    | some _ => some (.cancelled caller,{b with calls := b.calls.leave caller})
    | none => none
  | .release slotId =>
    match b.slots[slotId]? with
    | some _ => some (.unit,b.free slotId)
    | none => some (.unit,b)
  | .reconcileSeededIdle slotId =>
    match b.slots[slotId]? with
    | some slot => some (.unit,if slot.seededUnowned=true then b.free slotId else b)
    | none => some (.unit,b)
  | .markResident slotId model prefixHash =>
    some (.unit,b.modify slotId fun slot =>
      {slot with residentPrefix := some prefixHash, residentModel := model})
  | .clearResident slotId =>
    some (.unit,b.modify slotId fun slot => {slot with residentPrefix := none, residentModel := none})
  | .seedBusy slotId =>
    some (.unit,b.modify slotId fun slot => {slot with busy := true, seededUnowned := true})

/-- The board of a scheduler state. -/
def State.board (st : State) : Board := ⟨st.inner.slots,st.inner.clock,st.callers.flags⟩

/-- The data without the queues. -/
def Inner.bare (inner : Inner) : Inner :=
  {inner with slotWaiters := fun _ => none, globalWaiters := []}

@[simp] theorem bare_slots (inner : Inner) : inner.bare.slots=inner.slots := rfl

@[simp] theorem bare_holds (inner : Inner) (hint : Option SlotHint) (slotId : ℕ) :
    inner.bare.holds hint slotId=inner.holds hint slotId := rfl

/-- Claiming does not look at the queues. -/
@[simp] theorem claim_bare (inner : Inner) (slotId : ℕ) :
    inner.bare.claim slotId=(inner.claim slotId).bare := rfl

/-- Nor does admission without usable preference. -/
theorem admitAny_bare (inner : Inner) (hint : Option SlotHint) :
    admitAny inner.bare hint=(admitAny inner hint).map fun r => (r.1,r.2.bare) := by
  simp only [admitAny,bare_slots,claim_bare,bare_holds]
  generalize (hint.bind fun h => inner.slots.findIdx? fun slot => !slot.busy && h.isResidentIn slot)=found
  cases found with
  | some idx => rfl
  | none => cases leastRecentlyUsed inner.slots <;> rfl

/-- Nor does any admission. -/
theorem tryAdmitLocked_bare (inner : Inner) (hint : Option SlotHint) :
    tryAdmitLocked inner.bare hint=(tryAdmitLocked inner hint).map fun r => (r.1,r.2.bare) := by
  unfold tryAdmitLocked
  cases hint.bind SlotHint.preferredSlot with
  | none => exact admitAny_bare inner hint
  | some preferred =>
    dsimp only [bare_slots]
    cases hs : inner.slots[preferred]? with
    | none => exact admitAny_bare inner hint
    | some slot =>
      dsimp only
      split <;> rfl

/-- The board follows a pass of the `admit` loop. -/
theorem attempt_board (st : State) (caller turn : ℕ) (hint : Option SlotHint) :
    st.board.attempt caller hint=
      ((st.attempt caller turn hint).1,(st.attempt caller turn hint).2.board) := by
  have htable : st.board.table=st.inner.bare := rfl
  unfold Board.attempt State.attempt admitLocked
  rw [htable,tryAdmitLocked_bare]
  cases htry : tryAdmitLocked st.inner hint with
  | none => simp [State.board]
  | some r => simp [State.board,Inner.bare]

/-- Whether a wake finds a live waiter of the slot's own. -/
theorem Queued.any_live {n : ℕ} {st : State} (h : Queued n st) (slotId : ℕ) :
    (st.inner.queue (some slotId)).any st.callers.live=
      st.board.calls.anyUnwoken (st.board.prefers (some slotId)) := by
  rw [h.exact.any_live]
  unfold Board.prefers
  rw [show st.board.slots.length=n from h.size]
  rfl

/-- The board follows a slot that is set free. -/
theorem Queued.freed_board {n : ℕ} {st : State} (h : Queued n st) (slotId : ℕ) :
    (st.freed slotId).board=st.board.free slotId := by
  have hslots : (st.freed slotId).inner.slots=
      st.inner.slots.modify slotId fun slot => {slot with busy := false} :=
    (wakeWaitersFor_spec _ _ _).1
  have hclock : (st.freed slotId).inner.clock=st.inner.clock := wakeWaitersFor_clock ..
  have hown := h.any_live slotId
  have hdrains : ∀ k,Drains st.inner st.callers slotId k ↔
      (k==some slotId || k==none && !(st.inner.queue (some slotId)).any st.callers.live)=true := by
    intro k
    simp [Drains]
  have hwoken : (st.freed slotId).callers.flags=st.callers.flags.wake fun hint =>
      preference n hint==some slotId ||
        preference n hint==none && !(st.inner.queue (some slotId)).any st.callers.live := by
    rw [freed_callers]
    refine h.exact.flags_sendAll (fun k => k==some slotId ||
      k==none && !(st.inner.queue (some slotId)).any st.callers.live) fun tx => ?_
    rw [mem_popped]
    exact exists_congr fun k => and_congr_left fun _ => hdrains k
  unfold State.board Board.free Board.modify
  dsimp only
  rw [hslots,hclock,hwoken]
  refine congrArg (Board.mk _ _) (Flags.wake_congr fun c w hw hs => ?_)
  have hprefers : ∀ k hint,Board.prefers ⟨st.inner.slots,st.inner.clock,st.callers.flags⟩ k hint=
      (preference n hint==k) := by
    intro k hint
    unfold Board.prefers
    rw [h.size]
  rw [hown,hprefers]
  by_cases hany : st.callers.flags.anyUnwoken (st.board.prefers (some slotId))=true
  · have hany' := hany
    simp only [State.board] at hany'
    simp [State.board,hany']
  · -- no waiter of the slot's own sleeps, so this one is not among them
    have hne : preference n w.arg≠some slotId := by
      intro hk
      refine hany (Flags.anyUnwoken_iff.mpr ⟨c,?_,w,hw,hs,?_⟩)
      · obtain ⟨p,hp,-⟩ := Option.map_eq_some_iff.mp hw
        exact h.exact.bounded c p hp
      · exact (hprefers _ _).trans (beq_iff_eq.mpr hk)
    rw [Bool.not_eq_true] at hany
    have hany' := hany
    simp only [State.board] at hany'
    simp [State.board,hany',hne]

/-- The board takes the same step as the scheduler, with the same output. -/
theorem step_board {n : ℕ} {st : State} (h : Queued n st) (event : Event) :
    Board.step st.board event=(step st event).map fun r => (r.1,r.2.board) := by
  have hfree := h.freed_board
  cases event with
  | admitCall hint => exact congrArg some (attempt_board ⟨st.inner,st.callers.arrive⟩ _ _ _)
  | repoll caller =>
    have hattempt := attempt_board st caller
    simp only [Board.step,step,State.board,Callers.flags_waiting] at hattempt ⊢
    cases hp : st.callers.parked caller with
    | none => rfl
    | some p =>
      dsimp only [Option.map_some]
      split
      · exact congrArg some (hattempt _ _)
      · rfl
  | timeOut caller =>
    simp only [Board.step,step,State.board,Callers.flags_waiting]
    cases st.callers.parked caller <;> simp
  | cancel caller =>
    simp only [Board.step,step,State.board,Callers.flags_waiting]
    cases st.callers.parked caller <;> simp
  | release slotId =>
    simp only [Board.step,step,release]
    have hslot : st.board.slots[slotId]?=st.inner.slots[slotId]? := rfl
    rw [hslot]
    cases st.inner.slots[slotId]? with
    | none => rfl
    | some slot => exact congrArg (fun b => some (Output.unit,b)) (hfree slotId).symm
  | reconcileSeededIdle slotId =>
    simp only [Board.step,step,reconcileSeededIdle]
    have hslot : st.board.slots[slotId]?=st.inner.slots[slotId]? := rfl
    rw [hslot]
    cases st.inner.slots[slotId]? with
    | none => rfl
    | some slot =>
      dsimp only
      split
      · exact congrArg (fun b => some (Output.unit,b)) (hfree slotId).symm
      · rfl
  | markResident => rfl
  | clearResident => rfl
  | seedBusy => rfl

/-- Over every list of events, the scheduler and the board without queues give
the same outputs and end with the same table and the same woken calls. -/
theorem scheduler_refines_board (n : ℕ) (events : List Event) : exec Board.step (Board.new n) events=
    (exec step (State.new n) events).map fun r => (r.1,r.2.board) := by
  have hexec : exec Board.step (State.new n).board (events.map id)=_ :=
    exec_map State.board id (fun _ _ _ _ h hs => Queued.step h (step_effect hs))
      (fun _ event h => step_board h event) (queued_new n)
  rw [List.map_id] at hexec
  refine hexec.trans (congrArg (Option.map · _) (funext fun r => ?_))
  simp

end AivyxBroker.Scheduler
