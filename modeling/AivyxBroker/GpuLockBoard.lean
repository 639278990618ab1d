import AivyxBroker.GpuLockLease
import AivyxBroker.WakeFlags

/-!
# The GPU lock without its queue

The lock's purpose, stated without the queue: a holder, the clock, and for
every parked call whether the lock was freed since it parked. Freeing the lock
wakes everybody. The lock refines this machine event by event, so neither the
order in which calls queued nor the senders of calls that left have any
influence on an output.
-/

namespace AivyxBroker.GpuLock

open RunInvariant WakeSignal

variable {L : Type*}

/-- The holder and the parked calls. -/
structure Board (L : Type*) where
  /-- The holder, if the lock is taken. -/
  held : Option (Held L)
  /-- Who is parked, and who of them was woken. -/
  calls : Flags Unit
  /-- The clock. -/
  now : ℕ
  /-- The lease ids drawn so far. -/
  issued : List L

/-- A free lock nobody asked for. -/
def Board.new : Board L := ⟨none,Flags.empty,0,[]⟩

/-- A call takes a free lock, or parks. -/
def Board.attempt (b : Board L) (caller : ℕ) (lease : L) : Output L×Board L :=
  match b.held with
  | none => (.granted caller lease,
      ⟨some ⟨lease,b.now⟩,b.calls.leave caller,b.now,lease::b.issued⟩)
  | some _ => (.parked caller,{b with calls := b.calls.park caller ()})

/-- The holder is gone, and everybody parked is woken. -/
def Board.free (b : Board L) : Board L :=
  {b with held := none, calls := b.calls.wake fun _ => true}

/-- The board of a lock state. -/
def State.board (st : State L) : Board L := ⟨st.inner.held,st.callers.flags,st.now,st.issued⟩

/-- The board follows a pass of the `acquire` loop. -/
theorem attempt_board (st : State L) (caller turn : ℕ) (lease : L) :
    st.board.attempt caller lease=
      ((st.attempt caller turn lease).1,(st.attempt caller turn lease).2.board) := by
  unfold Board.attempt State.attempt acquireLocked
  have hheld : st.board.held=st.inner.held := rfl
  rw [hheld]
  cases hh : st.inner.held with
  | none => simp [State.board]
  | some h => simp [State.board,hh]

/-- Draining the queue wakes every parked call. -/
theorem Queued.flags_sendAll {st : State L} (h : Queued st) :
    (st.callers.sendAll st.inner.waiters).flags=st.callers.flags.wake fun _ => true :=
  h.exact.flags_sendAll (fun _ => true) fun tx => by simp

variable [DecidableEq L]

/-- The abstract semantics, on the events of the lock. -/
def Board.step (maxHold : ℕ) (b : Board L) : Event L → Option (Output L×Board L)
  | .acquire lease =>
    if lease∈b.issued then none
    else some ({b with calls := b.calls.arrive}.attempt b.calls.next lease)
  | .repoll caller lease =>
    match b.calls.waiting caller with
    | some w => if w.woken=true ∧ lease∉b.issued then some (b.attempt caller lease) else none
    | none => none
  | .timeOut caller =>
    match b.calls.waiting caller with
    | some _ => some (.timedOut caller,{b with calls := b.calls.leave caller})
    | none => none
  | .cancel caller =>
    match b.calls.waiting caller with
    | some _ => some (.cancelled caller,{b with calls := b.calls.leave caller})
    | none => none
  | .release lease =>
    match b.held with
    | some h =>
      if h.lease=lease then some (.released (.ok ()),b.free)
      else some (.released (.error .unknownLease),b)
    | none => some (.released (.error .unknownLease),b)
  | .reapExpired =>
    match b.held with
    | some h =>
      if maxHold<b.now-h.acquiredAt then some (.reaped (some h.lease),b.free)
      else some (.reaped none,b)
    | none => some (.reaped none,b)
  | .tick span => some (.ticked,{b with now := b.now+span})

/-- The board takes the same step as the lock, with the same output. -/
theorem step_board {maxHold : ℕ} {st : State L} (h : Queued st) (event : Event L) :
    Board.step maxHold st.board event=
      (step maxHold st event).map fun r => (r.1,r.2.board) := by
  have hwake := h.flags_sendAll
  have hheld : st.board.held=st.inner.held := rfl
  cases event with
  | acquire lease =>
    have hattempt := attempt_board {st with callers := st.callers.arrive} st.callers.next 0 lease
    simp only [Board.step,step]
    split
    · rename_i hin
      rw [if_pos (show lease∈st.issued from hin)]
      rfl
    · rename_i hnew
      rw [if_neg (show lease∉st.issued from hnew)]
      exact congrArg some hattempt
  | repoll caller lease =>
    have hwaiting : st.board.calls.waiting caller=
        (st.callers.parked caller).map fun p => ⟨p.arg,p.sent⟩ := rfl
    simp only [Board.step,step]
    rw [hwaiting]
    cases st.callers.parked caller with
    | none => rfl
    | some p =>
      by_cases hok : p.sent=true ∧ lease∉st.issued
      · refine (if_pos hok).trans ?_
        dsimp only
        rw [if_pos hok]
        exact congrArg some (attempt_board ..)
      · refine (if_neg hok).trans ?_
        dsimp only
        rw [if_neg hok]
        rfl
  | timeOut caller =>
    simp only [Board.step,step,State.board,Callers.flags_waiting]
    cases st.callers.parked caller <;> simp
  | cancel caller =>
    simp only [Board.step,step,State.board,Callers.flags_waiting]
    cases st.callers.parked caller <;> simp
  | release lease =>
    simp only [Board.step,step,release,hheld]
    cases hh : st.inner.held with
    | none => rfl
    | some held =>
      dsimp only
      split
      · simp [Board.free,wakeAll,State.board,hwake]
      · rfl
  | reapExpired =>
    have hnow : st.board.now=st.now := rfl
    simp only [Board.step,step,reapExpired,hheld,hnow]
    cases hh : st.inner.held with
    | none => rfl
    | some held =>
      dsimp only
      split
      · simp [Board.free,wakeAll,State.board,hwake]
      · rfl
  | tick => rfl

/-- Over every list of events, the lock and the board without a queue give
the same outputs and end with the same holder and the same woken calls. -/
theorem gpuLock_refines_board (maxHold : ℕ) (events : List (Event L)) :
    exec (Board.step maxHold) Board.new events=
      (exec (step maxHold) State.new events).map fun r => (r.1,r.2.board) := by
  have hnew : Queued (State.new : State L) := ⟨exact_empty _ fun _ => rfl,fun _ => rfl⟩
  have hexec : exec (Board.step maxHold) (State.new : State L).board (events.map id)=_ :=
    exec_map State.board id (fun _ _ _ _ h hs => Queued.step h (step_effect hs))
      (fun _ event h => step_board h event) hnew
  rw [List.map_id] at hexec
  refine hexec.trans (congrArg (Option.map · _) (funext fun r => ?_))
  simp

end AivyxBroker.GpuLock
