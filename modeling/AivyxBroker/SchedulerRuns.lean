import AivyxBroker.RunInvariant
import AivyxBroker.Scheduler

/-!
# Interleavings of scheduler calls

A run interleaves the critical sections of any number of `admit` calls with
releases, reconciliations, residency updates and seeding. A live `admit` call
between two of its critical sections is parked; it may time out or be dropped
at any moment then, and it may be re-polled once its wake was sent. Consuming
the wake and retrying are one step, since nothing can observe the scheduler
between them. The wait queues' representation invariant is established here.
-/

namespace AivyxBroker.Scheduler

open RunInvariant WakeSignal

/-- The scheduler with its live parked `admit` calls. -/
structure State where
  /-- The data behind the mutex. -/
  inner : Inner
  /-- Parked calls with the hints they were made with. -/
  callers : Callers (Option SlotHint)

/-- One atomic action on the scheduler. -/
inductive Event where
  /-- A new call runs to its first await. -/
  | admitCall (hint : Option SlotHint)
  /-- A parked call whose wake was sent is polled and retries. -/
  | repoll (caller : ℕ)
  /-- A parked call's deadline passes. -/
  | timeOut (caller : ℕ)
  /-- A parked call's future is dropped. -/
  | cancel (caller : ℕ)
  /-- A slot is released. -/
  | release (slotId : ℕ)
  /-- The background task saw the slot idle at the server. -/
  | reconcileSeededIdle (slotId : ℕ)
  /-- A handler records what the slot holds. -/
  | markResident (slotId : ℕ) (model : Option String) (prefixHash : String)
  /-- A handler forgets what the slot holds. -/
  | clearResident (slotId : ℕ)
  /-- Startup marks the slot busy. -/
  | seedBusy (slotId : ℕ)
  deriving DecidableEq

/-- What the action returned. -/
inductive Output where
  /-- An `admit` call returned this admission. -/
  | admitted (caller : ℕ) (admission : Admission)
  /-- An `admit` call queued and parked. -/
  | parked (caller : ℕ)
  /-- An `admit` call returned `Timeout`. -/
  | timedOut (caller : ℕ)
  /-- An `admit` call was dropped. -/
  | cancelled (caller : ℕ)
  /-- The other operations return nothing. -/
  | unit
  deriving DecidableEq

/-- A newly built scheduler. -/
def State.new (numSlots : ℕ) : State := ⟨Inner.new numSlots,Callers.empty⟩

/-- Run one pass of the `admit` loop for `caller`'s given wait. -/
def State.attempt (st : State) (caller turn : ℕ) (hint : Option SlotHint) : Output×State :=
  match admitLocked st.inner hint ⟨caller,turn⟩ with
  | (some admission,inner) => (.admitted caller admission,⟨inner,st.callers.leave caller⟩)
  | (none,inner) => (.parked caller,⟨inner,st.callers.park caller hint turn⟩)

/-- The interleaving semantics: every operation is enabled at any time, but
only parked calls can leave, and only woken ones can be re-polled. -/
def step (st : State) : Event → Option (Output×State)
  | .admitCall hint =>
    some ({st with callers := st.callers.arrive}.attempt st.callers.next 0 hint)
  | .repoll caller =>
    match st.callers.parked caller with
    | some p => if p.sent=true then some (st.attempt caller (p.turn+1) p.arg) else none
    | none => none
  | .timeOut caller =>
    match st.callers.parked caller with
    | some _ => some (.timedOut caller,{st with callers := st.callers.leave caller})
    | none => none
  | .cancel caller =>
    match st.callers.parked caller with
    | some _ => some (.cancelled caller,{st with callers := st.callers.leave caller})
    | none => none
  | .release slotId =>
    let (inner,callers) := release st.inner st.callers slotId
    some (.unit,⟨inner,callers⟩)
  | .reconcileSeededIdle slotId =>
    let (inner,callers) := reconcileSeededIdle st.inner st.callers slotId
    some (.unit,⟨inner,callers⟩)
  | .markResident slotId model prefixHash =>
    some (.unit,{st with inner := markResident st.inner slotId model prefixHash})
  | .clearResident slotId => some (.unit,{st with inner := clearResident st.inner slotId})
  | .seedBusy slotId => some (.unit,{st with inner := seedBusy st.inner slotId})

/-- The event starts a pass of the `admit` loop: of a new call, or of a
parked one that was woken. -/
inductive Attempts (st : State) : Event → Callers (Option SlotHint) → ℕ → ℕ →
    Option SlotHint → Prop
  /-- A new call gets the next name. -/
  | arrive (hint : Option SlotHint) :
    Attempts st (.admitCall hint) st.callers.arrive st.callers.next 0 hint
  /-- A woken call retries with its own hint. -/
  | retry (caller : ℕ) (p : Parked (Option SlotHint)) (hp : st.callers.parked caller=some p)
    (hsent : p.sent=true) : Attempts st (.repoll caller) st.callers caller (p.turn+1) p.arg

/-- An arriving call is not parked yet, and a woken one still is. -/
theorem Attempts.parked_eq {st : State} {event : Event} {callers : Callers (Option SlotHint)}
    {caller turn : ℕ} {hint : Option SlotHint} (hc : Attempts st event callers caller turn hint) :
    callers.parked=st.callers.parked := by
  cases hc <;> rfl

/-- A slot set free: not busy any more, with its waiters woken. -/
def State.freed (st : State) (slotId : ℕ) : State :=
  let inner := st.inner.modifySlot slotId fun slot => {slot with busy := false}
  ⟨(wakeWaitersFor inner st.callers slotId).1,(wakeWaitersFor inner st.callers slotId).2⟩

/-- What a step can do. Every fact about runs is derived from these cases. -/
inductive Effect (st : State) : Event → Output → State → Prop
  /-- A call returns with a slot. -/
  | admitted {event : Event} {callers : Callers (Option SlotHint)} {caller turn : ℕ}
      {hint : Option SlotHint} (a : Admission) (hc : Attempts st event callers caller turn hint)
      (htry : tryAdmitLocked st.inner hint=some (a,st.inner.claim a.slotId)) :
      Effect st event (.admitted caller a) ⟨st.inner.claim a.slotId,callers.leave caller⟩
  /-- A call finds no slot, queues and parks. -/
  | parked {event : Event} {callers : Callers (Option SlotHint)} {caller turn : ℕ}
      {hint : Option SlotHint} (hc : Attempts st event callers caller turn hint)
      (htry : tryAdmitLocked st.inner hint=none) :
      Effect st event (.parked caller)
        ⟨enqueue st.inner hint ⟨caller,turn⟩,callers.park caller hint turn⟩
  /-- A parked call leaves without a slot. -/
  | leave {event : Event} {output : Output} (caller : ℕ) (p : Parked (Option SlotHint))
      (hp : st.callers.parked caller=some p)
      (he : event=.timeOut caller ∧ output=.timedOut caller ∨
        event=.cancel caller ∧ output=.cancelled caller) :
      Effect st event output {st with callers := st.callers.leave caller}
  /-- A slot is set free. -/
  | freed {event : Event} (slotId : ℕ) (slot : SlotState)
      (hs : st.inner.slots[slotId]?=some slot)
      (he : event=.release slotId ∨
        event=.reconcileSeededIdle slotId ∧ slot.seededUnowned=true) :
      Effect st event .unit (st.freed slotId)
  /-- A release out of range, or a reconciliation of a slot not seeded. -/
  | ignored {event : Event} (slotId : ℕ)
      (he : event=.release slotId ∧ st.inner.slots[slotId]?=none ∨
        event=.reconcileSeededIdle slotId ∧
          ∀ slot,st.inner.slots[slotId]?=some slot → slot.seededUnowned=false) :
      Effect st event .unit st
  /-- Residency bookkeeping. -/
  | resident {event : Event} (slotId : ℕ) (prefixHash model : Option String)
      (he : (∃ h,event=.markResident slotId model h ∧ prefixHash=some h) ∨
        event=.clearResident slotId ∧ prefixHash=none ∧ model=none) :
      Effect st event .unit {st with inner := st.inner.modifySlot slotId fun slot =>
        {slot with residentPrefix := prefixHash, residentModel := model}}
  /-- A slot is seeded busy. -/
  | seeded (slotId : ℕ) :
      Effect st (.seedBusy slotId) .unit {st with inner := seedBusy st.inner slotId}

/-- One pass of the loop either admits or parks. -/
theorem attempt_effect {st : State} {event : Event} {callers : Callers (Option SlotHint)}
    {caller turn : ℕ} {hint : Option SlotHint} (hc : Attempts st event callers caller turn hint) :
    Effect st event (State.attempt ⟨st.inner,callers⟩ caller turn hint).1
      (State.attempt ⟨st.inner,callers⟩ caller turn hint).2 := by
  unfold State.attempt admitLocked
  cases htry : tryAdmitLocked st.inner hint with
  | none => exact .parked hc htry
  | some r =>
    obtain ⟨a,inner⟩ := r
    obtain rfl := (tryAdmitLocked_some htry).2.1
    exact .admitted a hc htry

/-- The step function does nothing but these effects. -/
theorem step_effect {st st' : State} {event : Event} {output : Output}
    (h : step st event=some (output,st')) : Effect st event output st' := by
  cases event with
  | admitCall hint =>
    obtain ⟨rfl,rfl⟩ := Prod.mk.inj (Option.some.inj h).symm
    exact attempt_effect (.arrive hint)
  | repoll caller =>
    simp only [step] at h
    split at h
    · rename_i p hp
      split at h
      · rename_i hsent
        obtain ⟨rfl,rfl⟩ := Prod.mk.inj (Option.some.inj h).symm
        exact attempt_effect (.retry caller p hp hsent)
      · cases h
    · cases h
  | timeOut caller =>
    simp only [step] at h
    split at h
    · rename_i p hp
      cases h
      exact .leave caller p hp (.inl ⟨rfl,rfl⟩)
    · cases h
  | cancel caller =>
    simp only [step] at h
    split at h
    · rename_i p hp
      cases h
      exact .leave caller p hp (.inr ⟨rfl,rfl⟩)
    · cases h
  | release slotId =>
    simp only [step,release] at h
    cases hs : st.inner.slots[slotId]? with
    | none =>
      rw [hs] at h
      cases h
      exact .ignored slotId (.inl ⟨rfl,hs⟩)
    | some slot =>
      rw [hs] at h
      cases h
      exact .freed slotId slot hs (.inl rfl)
  | reconcileSeededIdle slotId =>
    simp only [step,reconcileSeededIdle] at h
    cases hs : st.inner.slots[slotId]? with
    | none =>
      rw [hs] at h
      cases h
      exact .ignored slotId (.inr ⟨rfl,by simp [hs]⟩)
    | some slot =>
      rw [hs] at h
      dsimp only at h
      split at h
      · rename_i hu
        cases h
        exact .freed slotId slot hs (.inr ⟨rfl,hu⟩)
      · rename_i hu
        cases h
        exact .ignored slotId (.inr ⟨rfl,fun slot' hs' => by cases hs.symm.trans hs'; simpa using hu⟩)
  | markResident slotId model prefixHash =>
    cases h
    exact .resident slotId (some prefixHash) model (.inl ⟨prefixHash,rfl,rfl⟩)
  | clearResident slotId =>
    cases h
    exact .resident slotId none none (.inr ⟨rfl,rfl,rfl⟩)
  | seedBusy slotId =>
    cases h
    exact .seeded slotId

/-- A new call is admitted at once, or queues and parks. -/
theorem Effect.of_admitCall {st st' : State} {hint : Option SlotHint} {output : Output}
    (h : Effect st (.admitCall hint) output st') :
    (∃ a,tryAdmitLocked st.inner hint=some (a,st.inner.claim a.slotId) ∧
      output=.admitted st.callers.next a ∧
      st'=⟨st.inner.claim a.slotId,st.callers.arrive.leave st.callers.next⟩) ∨
    tryAdmitLocked st.inner hint=none ∧ output=.parked st.callers.next ∧
      st'=⟨enqueue st.inner hint ⟨st.callers.next,0⟩,
        st.callers.arrive.park st.callers.next hint 0⟩ := by
  cases h with
  | admitted a hc htry =>
    cases hc
    exact .inl ⟨a,htry,rfl,rfl⟩
  | parked hc htry =>
    cases hc
    exact .inr ⟨htry,rfl,rfl⟩
  | leave _ _ _ he => rcases he with ⟨he,-⟩ | ⟨he,-⟩ <;> cases he
  | freed _ _ _ he => rcases he with he | ⟨he,-⟩ <;> cases he
  | ignored _ he => rcases he with ⟨he,-⟩ | ⟨he,-⟩ <;> cases he
  | resident _ _ _ he => rcases he with ⟨_,he,-⟩ | ⟨he,-⟩ <;> cases he

/-- A woken call is admitted, or queues and parks once more. -/
theorem Effect.of_repoll {st st' : State} {caller : ℕ} {output : Output}
    (h : Effect st (.repoll caller) output st') :
    ∃ p,st.callers.parked caller=some p ∧ p.sent=true ∧
      ((∃ a,tryAdmitLocked st.inner p.arg=some (a,st.inner.claim a.slotId) ∧
        output=.admitted caller a ∧ st'=⟨st.inner.claim a.slotId,st.callers.leave caller⟩) ∨
      tryAdmitLocked st.inner p.arg=none ∧ output=.parked caller ∧
        st'=⟨enqueue st.inner p.arg ⟨caller,p.turn+1⟩,
          st.callers.park caller p.arg (p.turn+1)⟩) := by
  cases h with
  | admitted a hc htry =>
    cases hc with
    | retry _ p hp hsent => exact ⟨p,hp,hsent,.inl ⟨a,htry,rfl,rfl⟩⟩
  | parked hc htry =>
    cases hc with
    | retry _ p hp hsent => exact ⟨p,hp,hsent,.inr ⟨htry,rfl,rfl⟩⟩
  | leave _ _ _ he => rcases he with ⟨he,-⟩ | ⟨he,-⟩ <;> cases he
  | freed _ _ _ he => rcases he with he | ⟨he,-⟩ <;> cases he
  | ignored _ he => rcases he with ⟨he,-⟩ | ⟨he,-⟩ <;> cases he
  | resident _ _ _ he => rcases he with ⟨_,he,-⟩ | ⟨he,-⟩ <;> cases he

/-- A release sets its slot free if there is one. -/
theorem Effect.of_release {st st' : State} {slotId : ℕ} {output : Output}
    (h : Effect st (.release slotId) output st') : output=.unit ∧
      ((∃ slot,st.inner.slots[slotId]?=some slot ∧ st'=st.freed slotId) ∨
      st.inner.slots[slotId]?=none ∧ st'=st) := by
  cases h with
  | admitted _ hc => cases hc
  | parked hc => cases hc
  | leave _ _ _ he => rcases he with ⟨he,-⟩ | ⟨he,-⟩ <;> cases he
  | freed _ slot hs he =>
    rcases he with he | ⟨he,-⟩ <;> cases he
    exact ⟨rfl,.inl ⟨slot,hs,rfl⟩⟩
  | ignored _ he =>
    rcases he with ⟨he,hnone⟩ | ⟨he,-⟩ <;> cases he
    exact ⟨rfl,.inr ⟨hnone,rfl⟩⟩
  | resident _ _ _ he => rcases he with ⟨_,he,-⟩ | ⟨he,-⟩ <;> cases he

/-- A reconciliation sets its slot free if that is seeded. -/
theorem Effect.of_reconcileSeededIdle {st st' : State} {slotId : ℕ} {output : Output}
    (h : Effect st (.reconcileSeededIdle slotId) output st') : output=.unit ∧
      ((∃ slot,st.inner.slots[slotId]?=some slot ∧ slot.seededUnowned=true ∧
        st'=st.freed slotId) ∨
      (∀ slot,st.inner.slots[slotId]?=some slot → slot.seededUnowned=false) ∧ st'=st) := by
  cases h with
  | admitted _ hc => cases hc
  | parked hc => cases hc
  | leave _ _ _ he => rcases he with ⟨he,-⟩ | ⟨he,-⟩ <;> cases he
  | freed _ slot hs he =>
    rcases he with he | ⟨he,hu⟩ <;> cases he
    exact ⟨rfl,.inl ⟨slot,hs,hu,rfl⟩⟩
  | ignored _ he =>
    rcases he with ⟨he,-⟩ | ⟨he,hu⟩ <;> cases he
    exact ⟨rfl,.inr ⟨hu,rfl⟩⟩
  | resident _ _ _ he => rcases he with ⟨_,he,-⟩ | ⟨he,-⟩ <;> cases he

/-- The senders a wake pops: the slot's own queue, and the global queue
unless one of the first sends succeeded. -/
def popped (inner : Inner) (callers : Callers (Option SlotHint)) (slotId : ℕ) : List Sender :=
  inner.queue (some slotId)++
    if (inner.queue (some slotId)).any callers.live=true then [] else inner.globalWaiters

/-- Which queues a wake drains. -/
def Drains (inner : Inner) (callers : Callers (Option SlotHint)) (slotId : ℕ) :
    Option ℕ → Prop :=
  fun k => k=some slotId ∨ k=none ∧ (inner.queue (some slotId)).any callers.live=false

/-- A wake changes queues and wake flags only: the drained queues are empty,
the others as before, and exactly the popped senders are sent. -/
theorem wakeWaitersFor_spec (inner : Inner) (callers : Callers (Option SlotHint)) (slotId : ℕ) :
    (wakeWaitersFor inner callers slotId).1.slots=inner.slots ∧
    (wakeWaitersFor inner callers slotId).2=callers.sendAll (popped inner callers slotId) ∧
    (∀ k,Drains inner callers slotId k →
      (wakeWaitersFor inner callers slotId).1.queue k=[]) ∧
    (∀ k,¬Drains inner callers slotId k →
      (wakeWaitersFor inner callers slotId).1.queue k=inner.queue k) ∧
    (∀ s,(wakeWaitersFor inner callers slotId).1.slotWaiters s≠none →
      inner.slotWaiters s≠none) := by
  have hqueue : ∀ s,inner.queue (some s)=(inner.slotWaiters s).getD [] := fun _ => rfl
  unfold wakeWaitersFor popped Drains
  simp only [hqueue]
  cases hq : inner.slotWaiters slotId with
  | none =>
    simp only [Option.getD_none,List.any_nil,Bool.false_eq_true,if_false,List.nil_append,and_true]
    refine ⟨trivial,trivial,?_,?_,fun s h => h⟩
    · rintro k (rfl | rfl)
      · exact (hqueue slotId).trans (by rw [hq]; rfl)
      · rfl
    · intro k hk
      cases k with
      | none => exact absurd (.inr rfl) hk
      | some s => rfl
  | some queue =>
    simp only [Option.getD_some,Callers.drain_eq]
    have hkeys : ∀ s,Function.update inner.slotWaiters slotId (some []) s≠none →
        inner.slotWaiters s≠none := by
      intro s
      rw [Function.update_apply]
      split
      · rename_i hs
        rw [hs,hq]
        simp
      · exact id
    by_cases hl : queue.any callers.live=true
    · simp only [hl,if_true,List.append_nil,Bool.true_eq_false,and_false,or_false]
      refine ⟨trivial,trivial,?_,?_,hkeys⟩
      · rintro k rfl
        simp [Inner.queue]
      · intro k hk
        cases k with
        | none => rfl
        | some s => simp [Inner.queue,show s≠slotId from fun hs => hk (by rw [hs])]
    · rw [Bool.not_eq_true] at hl
      simp only [hl,Bool.false_eq_true,if_false,and_true]
      refine ⟨trivial,(List.foldl_append ..).symm,?_,?_,hkeys⟩
      · rintro k (rfl | rfl)
        · simp [Inner.queue]
        · rfl
      · intro k hk
        cases k with
        | none => exact absurd (.inr rfl) hk
        | some s =>
          simp [Inner.queue,show s≠slotId from fun hs => hk (by rw [hs]; exact .inl rfl)]

/-- A popped sender comes from a drained queue, and all of those are popped. -/
theorem mem_popped {inner : Inner} {callers : Callers (Option SlotHint)} {slotId : ℕ}
    (tx : Sender) : tx∈popped inner callers slotId ↔
      ∃ k,Drains inner callers slotId k ∧ tx∈inner.queue k := by
  unfold popped Drains
  rw [List.mem_append]
  by_cases hl : (inner.queue (some slotId)).any callers.live=true
  · simp [hl]
  · rw [Bool.not_eq_true] at hl
    simp only [hl,Bool.false_eq_true,if_false,and_true,or_and_right,exists_or,exists_eq_left]
    rfl

/-- The occupancy after slot `slotId` was set free. -/
theorem freed_slot (st : State) (slotId s : ℕ) : (st.freed slotId).inner.slots[s]?=
    if slotId=s then st.inner.slots[s]?.map fun slot => {slot with busy := false}
    else st.inner.slots[s]? := by
  unfold State.freed
  dsimp only
  rw [(wakeWaitersFor_spec _ _ _).1,modifySlot_slot]

/-- Setting a slot free adds it to the free slots of the table. -/
theorem freed_free {st : State} {slotId s : ℕ} : (st.freed slotId).inner.Free s ↔
    s=slotId ∧ (∃ slot,st.inner.slots[slotId]?=some slot) ∨ st.inner.Free s := by
  unfold Inner.Free
  rw [freed_slot]
  by_cases hs : slotId=s
  · subst hs
    cases hslot : st.inner.slots[slotId]? <;> simp
  · simp [hs,Ne.symm hs]

/-- Setting a slot free sends exactly the popped senders. -/
theorem freed_callers (st : State) (slotId : ℕ) :
    (st.freed slotId).callers=st.callers.sendAll (popped st.inner st.callers slotId) :=
  (wakeWaitersFor_spec (st.inner.modifySlot slotId _) st.callers slotId).2.1

/-- The queues after slot `slotId` was set free: empty if its wake drains
them, else as before. -/
theorem freed_queue (st : State) (slotId : ℕ) (k : Option ℕ) :
    (Drains st.inner st.callers slotId k → (st.freed slotId).inner.queue k=[]) ∧
    (¬Drains st.inner st.callers slotId k →
      (st.freed slotId).inner.queue k=st.inner.queue k) := by
  obtain ⟨-,-,hdrained,hkept,-⟩ := wakeWaitersFor_spec
    (st.inner.modifySlot slotId fun slot => {slot with busy := false}) st.callers slotId
  exact ⟨hdrained k,hkept k⟩

/-- Setting a slot free makes no queue. -/
theorem freed_keys {st : State} {slotId s : ℕ} :
    (st.freed slotId).inner.slotWaiters s≠none → st.inner.slotWaiters s≠none :=
  (wakeWaitersFor_spec (st.inner.modifySlot slotId _) st.callers slotId).2.2.2.2 s

/-- Residency updates and claims of other slots aside, a slot update that
does not clear `busy` frees nothing. -/
theorem modifySlot_free {inner : Inner} {slotId s : ℕ} {f : SlotState → SlotState}
    (hf : ∀ slot,slot.busy=true → (f slot).busy=true)
    (h : (inner.modifySlot slotId f).Free s) : inner.Free s := by
  obtain ⟨slot,hs,hb⟩ := h
  rw [modifySlot_slot] at hs
  split at hs
  · obtain ⟨slot',hs',rfl⟩ := Option.map_eq_some_iff.mp hs
    refine ⟨slot',hs',?_⟩
    cases hb' : slot'.busy with
    | false => rfl
    | true =>
      rw [hf slot' hb'] at hb
      cases hb
  · exact ⟨slot,hs,hb⟩

/-- Queueing appends the sender to the queue the hint's preference names. -/
theorem enqueue_queue (inner : Inner) (hint : Option SlotHint) (tx : Sender) (k : Option ℕ) :
    (enqueue inner hint tx).queue k=
      if k=preference inner.slots.length hint then inner.queue k++[tx] else inner.queue k := by
  unfold enqueue
  cases hp : preference inner.slots.length hint with
  | none => cases k <;> simp [Inner.queue]
  | some p =>
    cases k with
    | none => simp [Inner.queue]
    | some s =>
      by_cases hs : s=p
      · subst hs
        simp [Inner.queue]
      · simp [Inner.queue,hs]

@[simp] theorem enqueue_slots (inner : Inner) (hint : Option SlotHint) (tx : Sender) :
    (enqueue inner hint tx).slots=inner.slots := by
  unfold enqueue
  split <;> rfl

@[simp] theorem enqueue_clock (inner : Inner) (hint : Option SlotHint) (tx : Sender) :
    (enqueue inner hint tx).clock=inner.clock := by
  unfold enqueue
  split <;> rfl

@[simp] theorem wakeWaitersFor_clock (inner : Inner) (callers : Callers (Option SlotHint))
    (slotId : ℕ) : (wakeWaitersFor inner callers slotId).1.clock=inner.clock := by
  unfold wakeWaitersFor
  split
  · dsimp only
    split <;> rfl
  · rfl

/-- The representation invariant of the wait queues over `numSlots` slots. -/
structure Queued (numSlots : ℕ) (st : State) : Prop where
  /-- The table keeps its length. -/
  size : st.inner.slots.length=numSlots
  /-- Only slots of the table have a queue. -/
  keys : ∀ s,st.inner.slotWaiters s≠none → s<numSlots
  /-- Senders match parked calls, each in the queue its preference names. -/
  exact : Exact (preference numSlots) st.inner.queue st.callers
  /-- A free slot has no waiter of its own queued. -/
  drained : ∀ s,st.inner.Free s → st.inner.queue (some s)=[]

/-- The queues match the callers at every pass of the loop. -/
theorem Queued.attempts {n : ℕ} {st : State} (h : Queued n st) {event : Event}
    {callers : Callers (Option SlotHint)} {caller turn : ℕ} {hint : Option SlotHint}
    (hc : Attempts st event callers caller turn hint) :
    Exact (preference n) st.inner.queue callers ∧ caller<callers.next ∧
      ∀ k tx,tx∈st.inner.queue k → tx.caller=caller → tx.turn<turn := by
  cases hc with
  | arrive => exact ⟨h.exact.arrive,Nat.lt_succ_self _,h.exact.fresh_arrival⟩
  | retry caller p hp => exact ⟨h.exact,h.exact.bounded _ _ hp,h.exact.fresh_retry hp⟩

/-- No step changes the number of slots. -/
theorem Effect.size {st st' : State} {event : Event} {output : Output}
    (heff : Effect st event output st') : st'.inner.slots.length=st.inner.slots.length := by
  cases heff with
  | admitted => exact claim_length ..
  | parked => rw [enqueue_slots]
  | leave => rfl
  | freed => exact (congrArg List.length (wakeWaitersFor_spec ..).1).trans (modifySlot_length ..)
  | ignored => rfl
  | resident => exact modifySlot_length ..
  | seeded => exact modifySlot_length ..

/-- Every step keeps the representation invariant. -/
theorem Queued.step {n : ℕ} {st st' : State} {event : Event} {output : Output}
    (h : Queued n st) (heff : Effect st event output st') : Queued n st' := by
  have hsize := heff.size.trans h.size
  cases heff with
  | admitted a hc htry =>
    refine ⟨hsize,h.keys,(h.attempts hc).1.leave _,fun s hs => ?_⟩
    exact h.drained s (claim_free.mp hs).2
  | @parked _ callers caller turn hint hc htry =>
    obtain ⟨hexact,hnamed,hfresh⟩ := h.attempts hc
    have hqueue := enqueue_queue st.inner hint ⟨caller,turn⟩
    rw [h.size] at hqueue
    refine ⟨hsize,fun s hs => ?_,?_,fun s hs => ?_⟩
    · revert hs
      unfold enqueue
      rw [h.size]
      cases hp : preference n hint with
      | none => exact h.keys s
      | some p =>
        dsimp only
        rw [Function.update_apply]
        split
        · rename_i hs
          exact fun _ => hs ▸ (preference_eq_some.mp hp).2
        · exact h.keys s
    · refine hexact.park hnamed hfresh ?_ fun k hk => ?_
      · rw [hqueue,if_pos rfl]
      · rw [hqueue,if_neg hk]
    · have hfree : st.inner.Free s := by
        simpa only [Inner.Free,enqueue_slots] using hs
      have hne : some s≠preference n hint := by
        intro hp
        exact tryAdmitLocked_none_iff.mp htry s (.inl (h.size.symm ▸ hp.symm)) hfree
      rw [hqueue,if_neg hne]
      exact h.drained s hfree
  | leave caller p hp he => exact ⟨h.size,h.keys,h.exact.leave caller,h.drained⟩
  | freed slotId slot hs he =>
    have hqueue := freed_queue st slotId
    refine ⟨hsize,fun s hk => h.keys s (freed_keys hk),?_,fun s hfree => ?_⟩
    · rw [freed_callers]
      exact h.exact.drain (Drains st.inner st.callers slotId) mem_popped (fun k => (hqueue k).1)
        fun k => (hqueue k).2
    · by_cases hd : Drains st.inner st.callers slotId (some s)
      · exact (hqueue _).1 hd
      · rw [(hqueue _).2 hd]
        rcases freed_free.mp hfree with ⟨rfl,-⟩ | hfree
        · exact absurd (.inl rfl) hd
        · exact h.drained s hfree
  | ignored => exact h
  | resident slotId prefixHash model he =>
    exact ⟨hsize,h.keys,h.exact,fun s hs =>
      h.drained s (modifySlot_free (by exact fun _ hb => hb) hs)⟩
  | seeded slotId =>
    exact ⟨hsize,h.keys,h.exact,fun s hs =>
      h.drained s (modifySlot_free (fun _ _ => rfl) hs)⟩

/-- A new scheduler has empty queues. -/
theorem queued_new (n : ℕ) : Queued n (State.new n) := by
  refine ⟨by simp [State.new,Inner.new],fun s hs => absurd rfl hs,?_,?_⟩
  · refine exact_empty _ fun k => ?_
    cases k <;> rfl
  · exact fun s _ => rfl

/-- The representation invariant holds after every run. -/
theorem queued_of_run {n : ℕ} {ok : State → Event → Prop} {trace : List (Event×Output)}
    {st : State} (h : RunWhen step ok (State.new n) trace st) : Queued n st :=
  h.invariant (Queued n) (queued_new n) fun _ _ _ _ hi _ hs => hi.step (step_effect hs)

/-- A call that starts a pass of the loop was not over, and the pass makes no
other call live again. -/
theorem Attempts.gone {st : State} {event : Event} {callers : Callers (Option SlotHint)}
    {caller turn : ℕ} {hint : Option SlotHint} (h : Attempts st event callers caller turn hint) :
    ¬st.callers.Gone caller ∧ ∀ c,st.callers.Gone c → c≠caller ∧ callers.Gone c := by
  cases h with
  | arrive =>
    exact ⟨fun hg => Nat.lt_irrefl _ hg.1,fun c hg => ⟨hg.1.ne,Nat.lt_succ_of_lt hg.1,hg.2⟩⟩
  | retry _ p hp =>
    refine ⟨fun hg => ?_,fun c hg => ⟨?_,hg⟩⟩
    · rw [hg.2] at hp
      cases hp
    · rintro rfl
      rw [hg.2] at hp
      cases hp

/-- A call that is over stays over. -/
theorem Effect.gone {st st' : State} {event : Event} {output : Output} {c : ℕ}
    (h : Effect st event output st') (hg : st.callers.Gone c) : st'.callers.Gone c := by
  cases h with
  | admitted a hc =>
    obtain ⟨-,hlt,hparked⟩ := hc.gone.2 c hg
    exact ⟨hlt,by simp [Callers.leave_parked,hparked]⟩
  | parked hc =>
    obtain ⟨hne,hlt,hparked⟩ := hc.gone.2 c hg
    exact ⟨hlt,by simp [Callers.park_parked,hne,hparked]⟩
  | leave => exact ⟨hg.1,by simp [Callers.leave_parked,hg.2]⟩
  | freed slotId =>
    rw [freed_callers,Callers.Gone,Callers.sendAll_next,Callers.sendAll_parked,hg.2]
    exact ⟨hg.1,rfl⟩
  | ignored => exact hg
  | resident => exact hg
  | seeded => exact hg

/-- An admission comes from a pass of the loop that claimed a slot. -/
theorem Effect.of_admitted {st st' : State} {event : Event} {c : ℕ} {a : Admission}
    (h : Effect st event (.admitted c a) st') : ∃ callers turn hint,
      Attempts st event callers c turn hint ∧
      tryAdmitLocked st.inner hint=some (a,st.inner.claim a.slotId) ∧
      st'=⟨st.inner.claim a.slotId,callers.leave c⟩ := by
  generalize ho : Output.admitted c a=output at h
  cases h with
  | admitted _ hc htry =>
    cases ho
    exact ⟨_,_,_,hc,htry,rfl⟩
  | parked => cases ho
  | leave _ _ _ he => rcases he with ⟨-,rfl⟩ | ⟨-,rfl⟩ <;> cases ho
  | freed => cases ho
  | ignored => cases ho
  | resident => cases ho
  | seeded => cases ho

/-- An admission ends its call. -/
theorem Effect.admitted_gone {n : ℕ} {st st' : State} {event : Event} {c : ℕ} {a : Admission}
    (hq : Queued n st) (h : Effect st event (.admitted c a) st') :
    ¬st.callers.Gone c ∧ st'.callers.Gone c := by
  obtain ⟨callers,turn,hint,hc,-,rfl⟩ := h.of_admitted
  exact ⟨hc.gone.1,(hq.attempts hc).2.1,by simp [Callers.leave_parked]⟩

end AivyxBroker.Scheduler
