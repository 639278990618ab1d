import AivyxBroker.SchedulerRuns

/-!
# Preferences for slots that do not exist

A client may prefer a slot that the table does not have, as after a restart
with fewer slots. Two places read the preference: the admission attempt and
the choice of the wait queue. Since both drop it when it is out of range,
dropping it from the hints beforehand changes nothing: every step on the
cleaned state is the cleaned step. So two schedules that differ in such
preferences only show the same.
-/

namespace AivyxBroker.Scheduler

open RunInvariant WakeSignal

/-- The hint without a preference for a slot the table does not have. -/
def SlotHint.usable (numSlots : ℕ) (h : SlotHint) : SlotHint :=
  {h with preferredSlot := h.preferredSlot.filter fun slotId => slotId<numSlots}

/-- The event with its hint cleaned. -/
def Event.usable (numSlots : ℕ) : Event → Event
  | .admitCall hint => .admitCall (hint.map (SlotHint.usable numSlots))
  | event => event

/-- The state with the hints of all parked calls cleaned. -/
def State.usable (numSlots : ℕ) (st : State) : State :=
  ⟨st.inner,st.callers.map (Option.map (SlotHint.usable numSlots))⟩

/-- A cleaned hint has the same usable preference. -/
@[simp] theorem preference_usable (n : ℕ) (hint : Option SlotHint) :
    preference n (hint.map (SlotHint.usable n))=preference n hint := by
  cases hint with
  | none => rfl
  | some h => simp [preference,SlotHint.usable,Option.filter_filter]

/-- The admission attempt reads no other preference. -/
theorem tryAdmitLocked_usable {n : ℕ} {inner : Inner} (hn : inner.slots.length=n)
    (hint : Option SlotHint) :
    tryAdmitLocked inner (hint.map (SlotHint.usable n))=tryAdmitLocked inner hint := by
  rw [tryAdmitLocked_eq,tryAdmitLocked_eq,hn,preference_usable]
  cases hint <;> rfl

/-- Neither does the choice of the wait queue. -/
theorem enqueue_usable {n : ℕ} {inner : Inner} (hn : inner.slots.length=n)
    (hint : Option SlotHint) (tx : Sender) :
    enqueue inner (hint.map (SlotHint.usable n)) tx=enqueue inner hint tx := by
  unfold enqueue
  rw [hn,preference_usable]

/-- A pass of the loop on cleaned hints. -/
theorem attempt_usable {n : ℕ} {st : State} (hn : st.inner.slots.length=n) (caller turn : ℕ)
    (hint : Option SlotHint) :
    (st.usable n).attempt caller turn (hint.map (SlotHint.usable n))=
      ((st.attempt caller turn hint).1,(st.attempt caller turn hint).2.usable n) := by
  unfold State.attempt admitLocked State.usable
  dsimp only
  rw [tryAdmitLocked_usable hn,enqueue_usable hn]
  cases tryAdmitLocked st.inner hint with
  | none => simp only [Callers.map_park]
  | some r => simp only [Callers.map_leave]

/-- Waking is blind to what the callers ask for. -/
theorem wakeWaitersFor_usable (n : ℕ) (inner : Inner) (callers : Callers (Option SlotHint))
    (slotId : ℕ) :
    wakeWaitersFor inner (callers.map (Option.map (SlotHint.usable n))) slotId=
      ((wakeWaitersFor inner callers slotId).1,
        (wakeWaitersFor inner callers slotId).2.map (Option.map (SlotHint.usable n))) := by
  unfold wakeWaitersFor
  cases inner.slotWaiters slotId with
  | none => simp only [Callers.map_sendAll]
  | some queue =>
    simp only [Callers.drain_eq,Callers.map_live,Callers.map_sendAll]
    split <;> rfl

/-- Every step on the cleaned state is the cleaned step. -/
theorem step_usable {n : ℕ} {st : State} (hn : st.inner.slots.length=n) (event : Event) :
    step (st.usable n) (event.usable n)=(step st event).map fun r => (r.1,r.2.usable n) := by
  cases event with
  | admitCall hint =>
    exact congrArg some
      (@attempt_usable n ⟨st.inner,st.callers.arrive⟩ hn st.callers.next 0 hint)
  | repoll caller =>
    simp only [step,Event.usable,State.usable,Callers.map_parked]
    cases st.callers.parked caller with
    | none => rfl
    | some p =>
      simp only [Option.map_some]
      split
      · exact congrArg some (attempt_usable hn caller (p.turn+1) p.arg)
      · rfl
  | timeOut caller =>
    simp only [step,Event.usable,State.usable,Callers.map_leave,Callers.map_parked]
    cases st.callers.parked caller <;> rfl
  | cancel caller =>
    simp only [step,Event.usable,State.usable,Callers.map_leave,Callers.map_parked]
    cases st.callers.parked caller <;> rfl
  | release slotId =>
    simp only [step,Event.usable,State.usable,release,wakeWaitersFor_usable]
    cases st.inner.slots[slotId]? <;> rfl
  | reconcileSeededIdle slotId =>
    simp only [step,Event.usable,State.usable,reconcileSeededIdle,wakeWaitersFor_usable]
    cases st.inner.slots[slotId]? with
    | none => rfl
    | some slot =>
      dsimp only
      split <;> rfl
  | markResident slotId model prefixHash => rfl
  | clearResident slotId => rfl
  | seedBusy slotId => rfl

/-- Whether a step sends the wake of the caller. -/
def woken (st st' : State) (caller : ℕ) : Bool :=
  (st.callers.parked caller).any (fun p => !p.sent) &&
    (st'.callers.parked caller).any fun p => p.sent

/-- What a step shows. -/
structure Observation where
  /-- The result it returned. -/
  output : Output
  /-- The slots, the queues and the clock after it. -/
  inner : Inner
  /-- The callers it woke. -/
  woken : ℕ → Bool

/-- A step with all it shows. -/
def watch (st : State) (event : Event) : Option (Observation×State) :=
  (step st event).map fun r => (⟨r.1,r.2.inner,woken st r.2⟩,r.2)

/-- What a schedule shows on a new scheduler, step by step; nothing if one of
its events is not possible when its turn comes. -/
def observations (numSlots : ℕ) (events : List Event) : Option (List Observation) :=
  (exec watch (State.new numSlots) events).map fun r => r.1.map Prod.snd

/-- The same event, unless it is a call whose preference is out of range and
was replaced by none. -/
inductive Forgets (numSlots : ℕ) : Event → Event → Prop
  /-- Nothing is replaced. -/
  | same (event : Event) : Forgets numSlots event event
  /-- The preference is replaced; the content is kept. -/
  | admitCall (h : SlotHint) (slotId : ℕ) (hp : h.preferredSlot=some slotId)
    (hn : numSlots ≤ slotId) :
    Forgets numSlots (.admitCall (some h)) (.admitCall (some {h with preferredSlot := none}))

/-- Events that differ in such preferences are the same when cleaned. -/
theorem Forgets.usable {n : ℕ} {event event' : Event} (h : Forgets n event event') :
    event.usable n=event'.usable n := by
  cases h with
  | same => rfl
  | admitCall h slotId hp hn =>
    simp only [Event.usable,Option.map_some,SlotHint.usable,hp,Option.filter_some,
      Nat.not_lt.mpr hn,decide_false,Bool.false_eq_true,if_false,Option.filter_none]

/-- A step on the cleaned state shows the same. -/
theorem watch_usable {n : ℕ} {st : State} (hn : st.inner.slots.length=n) (event : Event) :
    watch (st.usable n) (event.usable n)=(watch st event).map fun r => (r.1,r.2.usable n) := by
  have hparked : ∀ (t : State) (f : Parked (Option SlotHint) → Bool) (c : ℕ),
      (∀ p,f ⟨p.arg.map (SlotHint.usable n),p.turn,p.sent⟩=f p) →
      ((t.usable n).callers.parked c).any f=(t.callers.parked c).any f := by
    intro t f c hf
    unfold State.usable
    dsimp only
    rw [Callers.map_parked]
    cases t.callers.parked c with
    | none => rfl
    | some p => exact hf p
  have hwoken : ∀ t,woken (st.usable n) (t.usable n)=woken st t := by
    intro t
    funext c
    unfold woken
    rw [hparked _ _ _ fun _ => rfl,hparked _ _ _ fun _ => rfl]
  unfold watch
  rw [step_usable hn,Option.map_map,Option.map_map]
  refine congrArg (Option.map · (step st event)) (funext fun r => ?_)
  simp only [Function.comp_apply,hwoken]
  rfl

/-- A step keeps the number of slots. -/
theorem watch_size {st st' : State} {event : Event} {seen : Observation}
    (h : watch st event=some (seen,st')) : st'.inner.slots.length=st.inner.slots.length := by
  obtain ⟨⟨output,_⟩,hs,hr⟩ := Option.map_eq_some_iff.mp h
  cases hr
  exact (step_effect hs).size

/-- A schedule shows the same with all its hints cleaned. -/
theorem observations_usable (n : ℕ) (events : List Event) :
    observations n (events.map (Event.usable n))=observations n events := by
  have hsize : (State.new n).inner.slots.length=n := by simp [State.new,Inner.new]
  have hclean : (State.new n).usable n=State.new n := rfl
  have h := @exec_map _ _ _ _ _ watch (State.new n) watch (fun st => st.inner.slots.length=n)
    (State.usable n) (Event.usable n) (fun _ _ _ _ hi hs => (watch_size hs).trans hi)
    (fun _ event hi => watch_usable hi event) events hsize
  unfold observations
  rw [hclean] at h
  rw [h,Option.map_map]
  refine congrArg (Option.map · (exec watch (State.new n) events)) (funext fun r => ?_)
  exact List.map_map

/-- A preference out of range is no preference: schedules that differ in such
preferences only show the same after every step, the results with their
slots, the table, the queues and the callers woken, and are possible alike. -/
theorem unusable_preference_ignored {n : ℕ} {events events' : List Event}
    (h : List.Forall₂ (Forgets n) events events') :
    observations n events=observations n events' := by
  have hclean : events.map (Event.usable n)=events'.map (Event.usable n) := by
    induction h with
    | nil => rfl
    | cons hhead _ ih => rw [List.map_cons,List.map_cons,hhead.usable,ih]
  rw [←observations_usable,hclean,observations_usable]

/-- On one slot a call that prefers slot 7 waits and retries as one without a
preference does. -/
theorem unusable_preference_ignored_retry :
    (observations 1 [.admitCall none,.admitCall (some ⟨"p",some 7,none⟩),.release 0,
      .repoll 1]).isSome=true ∧
    observations 1 [.admitCall none,.admitCall (some ⟨"p",some 7,none⟩),.release 0,.repoll 1]=
      observations 1 [.admitCall none,.admitCall (some ⟨"p",none,none⟩),.release 0,.repoll 1] :=
  ⟨rfl,unusable_preference_ignored (.cons (.same _)
    (.cons (.admitCall ⟨"p",some 7,none⟩ 7 rfl (by decide))
      (.cons (.same _) (.cons (.same _) .nil))))⟩

end AivyxBroker.Scheduler
