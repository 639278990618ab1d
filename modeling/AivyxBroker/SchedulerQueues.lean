import AivyxBroker.SchedulerRuns

/-!
# The wait queues as their users rely on them

A parked `admit` call whose wake was not sent has one sender in all the queues
together, that of its current wait. Senders of earlier waits are gone, since a
call retries only after its wake was sent. Dead senders of calls that left stay
until the next drain, but never in the queue of a free slot: whatever sets a
slot free wakes every waiter of that slot.
-/

namespace AivyxBroker.Scheduler

open RunInvariant WakeSignal

/-- The wait queues are well formed. -/
structure WellQueued (st : State) : Prop where
  /-- Only slots of the table have a queue of their own. -/
  keys : ∀ s,st.inner.slotWaiters s≠none → s<st.inner.slots.length
  /-- A live call whose wake is not sent has the sender of its current wait in
  the preferred slot's queue, or in the global one without usable preference. -/
  placed : ∀ c p,st.callers.parked c=some p → p.sent=false →
    ⟨c,p.turn⟩∈st.inner.queue (preference st.inner.slots.length p.arg)
  /-- That queue holds no other sender of the call, and the others hold none. -/
  alone : ∀ c p,st.callers.parked c=some p → p.sent=false → ∀ k,
    (st.inner.queue k).countP (fun tx => tx.caller==c)=
      if k=preference st.inner.slots.length p.arg then 1 else 0
  /-- A free slot has no sender queued, dead or live. -/
  drained : ∀ s,st.inner.Free s → st.inner.queue (some s)=[]
  /-- Nor a live waiter whose wake is not sent. -/
  woken : ∀ s,st.inner.Free s → ∀ c p,st.callers.parked c=some p →
    preference st.inner.slots.length p.arg=some s → p.sent=true

variable {n : ℕ} {st st' : State} {event : Event} {output : Output} {s : ℕ}

/-- A call that starts a pass of the loop has no sender in any queue. -/
theorem Attempts.no_sender {callers : Callers (Option SlotHint)} {caller turn : ℕ}
    {hint : Option SlotHint} (hc : Attempts st event callers caller turn hint)
    (hq : Queued n st) (hcur : Current st.inner.queue st.callers) :
    ∀ k tx,tx∈st.inner.queue k → tx.caller≠caller := by
  cases hc with
  | arrive =>
    intro k tx ht he
    exact absurd (hq.exact.fresh_arrival k tx ht he) (Nat.not_lt_zero _)
  | retry _ p hp hsent => exact hq.exact.no_sender hcur hp hsent

/-- No step leaves a sender of an earlier wait behind. -/
theorem Effect.current (heff : Effect st event output st') (hq : Queued n st)
    (hcur : Current st.inner.queue st.callers) : Current st'.inner.queue st'.callers := by
  cases heff with
  | admitted a hc htry => exact (hcur.of_parked_eq hc.parked_eq).leave _
  | @parked _ callers caller turn hint hc htry =>
    have hqueue := enqueue_queue st.inner hint ⟨caller,turn⟩
    exact (hcur.of_parked_eq hc.parked_eq).park hint (hc.no_sender hq hcur)
      ((hqueue _).trans (if_pos rfl)) fun k hk => (hqueue k).trans (if_neg hk)
  | leave caller => exact hcur.leave caller
  | freed slotId =>
    have hqueue := freed_queue st slotId
    rw [freed_callers]
    exact hcur.drain (Drains st.inner st.callers slotId) _ (fun k => (hqueue k).1)
      fun k => (hqueue k).2
  | ignored => exact hcur
  | resident => exact hcur
  | seeded => exact hcur

/-- No run leaves a sender of an earlier wait behind. -/
theorem current_of_run {ok : State → Event → Prop} {trace : List (Event×Output)}
    (h : RunWhen Scheduler.step ok (State.new n) trace st) :
    Current st.inner.queue st.callers := by
  refine (h.invariant (fun st => Queued n st ∧ Current st.inner.queue st.callers)
    ⟨queued_new n,current_empty _ fun k => ?_⟩ fun _ _ _ _ hi _ hs =>
      ⟨hi.1.step (step_effect hs),(step_effect hs).current hi.1 hi.2⟩).2
  cases k <;> rfl

/-- Without earlier senders, the representation invariant makes the queues
well formed. -/
theorem Queued.wellQueued (h : Queued n st) (hcur : Current st.inner.queue st.callers) :
    WellQueued st := by
  obtain ⟨rfl,hkeys,hexact,hdrained⟩ := h
  refine ⟨hkeys,hexact.queued,fun c p hp hs => hexact.countP_caller hcur hp hs,hdrained,
    fun s hs c p hp hpref => ?_⟩
  exact hexact.sent_of_queue_nil hp (hpref ▸ hdrained s hs)

/-- Only setting a slot free makes it free. -/
theorem Effect.freed_of_free (heff : Effect st event output st') (hbusy : ¬st.inner.Free s)
    (hfree : st'.inner.Free s) : st'=st.freed s := by
  cases heff with
  | admitted => exact absurd (claim_free.mp hfree).2 hbusy
  | parked =>
    rw [Inner.Free,enqueue_slots] at hfree
    exact absurd hfree hbusy
  | leave => exact absurd hfree hbusy
  | freed slotId =>
    rcases freed_free.mp hfree with ⟨rfl,-⟩ | hfree
    · rfl
    · exact absurd hfree hbusy
  | ignored => exact absurd hfree hbusy
  | resident => exact absurd (modifySlot_free (by exact fun _ hb => hb) hfree) hbusy
  | seeded => exact absurd (modifySlot_free (by exact fun _ _ => rfl) hfree) hbusy

/-- Setting a slot free wakes its live waiters, all of them. -/
theorem WellQueued.freed_woken (h : WellQueued st) {c : ℕ} {p : Parked (Option SlotHint)}
    (hp : st.callers.parked c=some p) (hpref : preference st.inner.slots.length p.arg=some s) :
    (st.freed s).callers.parked c=some {p with sent := true} := by
  rw [freed_callers,Callers.sendAll_parked_eq_some]
  refine ⟨p,hp,congrArg (Parked.mk p.arg p.turn) ?_⟩
  cases hs : p.sent with
  | true => rfl
  | false =>
    have hin := hpref ▸ h.placed c p hp hs
    have hpopped : ⟨c,p.turn⟩∈popped st.inner st.callers s := (mem_popped _).mpr ⟨_,.inl rfl,hin⟩
    simp [hpopped]

/-- After every run the wait queues are well formed, and a step that makes a
busy slot free leaves all the live waiters of that slot parked and woken. -/
theorem scheduler_waiters_queued {trace : List (Event×Output)}
    (h : Run Scheduler.step (State.new n) trace st) :
    WellQueued st ∧ ∀ event output st' s,Scheduler.step st event=some (output,st') →
      ¬st.inner.Free s → st'.inner.Free s → ∀ c p,st.callers.parked c=some p →
        preference st.inner.slots.length p.arg=some s →
        st'.callers.parked c=some {p with sent := true} := by
  have hwell := (queued_of_run h).wellQueued (current_of_run h)
  refine ⟨hwell,fun event output st' s hs hbusy hfree c p hp hpref => ?_⟩
  rw [(step_effect hs).freed_of_free hbusy hfree]
  exact hwell.freed_woken hp hpref

/-- The first of two waiters for slot 0 times out, the other is woken, loses
the slot to a newcomer and queues again, once; the next release wakes it. -/
theorem scheduler_waiters_queued_again : ∃ trace st st',
    Run Scheduler.step (State.new 1) trace st ∧ WellQueued st ∧
    st.inner.queue (some 0)=[⟨2,1⟩] ∧ st.inner.queue none=[⟨3,0⟩] ∧
    Scheduler.step st (.release 0)=some (.unit,st') ∧
    st'.callers.parked 2=some ⟨some ⟨"p",some 0,none⟩,1,true⟩ := by
  have h : Run Scheduler.step (State.new 1) _ _ := run_of_exec
    (show exec Scheduler.step (State.new 1) [.admitCall none,.admitCall (some ⟨"p",some 0,none⟩),
      .admitCall (some ⟨"p",some 0,none⟩),.admitCall (some ⟨"p",some 7,none⟩),.timeOut 1,.release 0,
      .admitCall none,.repoll 2]=some _ from rfl)
  obtain ⟨hwell,hwoken⟩ := scheduler_waiters_queued h
  refine ⟨_,_,_,h,hwell,rfl,rfl,rfl,?_⟩
  refine hwoken (.release 0) .unit _ 0 rfl ?_ ⟨_,rfl,rfl⟩ 2 ⟨some ⟨"p",some 0,none⟩,1,false⟩ rfl rfl
  rintro ⟨slot,hs,hb⟩
  cases hs
  cases hb

end AivyxBroker.Scheduler
