import AivyxBroker.SchedulerRuns

/-!
# Lost wake-ups and pre-emption

The wake policy withholds the global wakes of a freed slot when one of the
slot's own waiters was reached. If that waiter leaves before its re-poll,
nobody is woken in its place: this is the one way a free slot is left beside
a waiter nobody will wake, and runs without it lose no wake-up. Withholding
covers one release only. A general waiter woken by another release chooses
among all free slots, so it may take a slot its own waiter was woken for;
exactly the ranking of the free slots decides whether it does.
-/

namespace AivyxBroker.Scheduler

open RunInvariant WakeSignal

variable {n : ℕ} {st st' : State} {event : Event} {output : Output}
  {trace : List (Event×Output)}

/-- Wherever a slot is free beside a waiter that may take it and whose wake
was not sent, some call that may take it has been woken and not re-polled. -/
def WakeCovered (n : ℕ) (st : State) : Prop :=
  ∀ s,st.inner.Free s →
    (∃ c p,st.callers.parked c=some p ∧ p.sent=false ∧ MayTake n p.arg s) →
    ∃ c p,st.callers.parked c=some p ∧ p.sent=true ∧ MayTake n p.arg s

/-- The parked call that an event ends, by time-out or drop. -/
def Event.leaver : Event → Option ℕ
  | .timeOut caller => some caller
  | .cancel caller => some caller
  | _ => none

/-- A call that leaves takes only its name out of the parked ones. -/
theorem Effect.of_leaver {c : ℕ} (h : Effect st event output st') (hc : event.leaver=some c) :
    st'={st with callers := st.callers.leave c} := by
  cases h with
  | leave caller p hp he =>
    rcases he with ⟨rfl,-⟩ | ⟨rfl,-⟩ <;> cases hc <;> rfl
  | admitted _ ha => cases ha <;> cases hc
  | parked ha => cases ha <;> cases hc
  | freed _ _ _ he => rcases he with rfl | ⟨rfl,-⟩ <;> cases hc
  | ignored _ he => rcases he with ⟨rfl,-⟩ | ⟨rfl,-⟩ <;> cases hc
  | resident _ _ _ he => rcases he with ⟨_,rfl,-⟩ | ⟨rfl,-⟩ <;> cases hc
  | seeded => cases hc

/-- Some general waiter is parked on a wake that was not sent. -/
def GeneralUnsent (n : ℕ) (st : State) : Prop :=
  ∃ c p,st.callers.parked c=some p ∧ p.sent=false ∧ preference n p.arg=none

/-- Some waiter for slot `s` other than `c` has been woken and not re-polled. -/
def SpecificWoken (n : ℕ) (st : State) (s : ℕ) (c : Option ℕ) : Prop :=
  ∃ c' p,some c'≠c ∧ st.callers.parked c'=some p ∧ p.sent=true ∧ preference n p.arg=some s

/-- The condition on steps: a woken waiter for a free slot leaves only if no
general waiter is left unsent or another woken waiter for the slot remains. -/
def KeepsWake (n : ℕ) (st : State) (event : Event) : Prop :=
  ∀ c p s,event.leaver=some c → st.callers.parked c=some p → p.sent=true →
    preference n p.arg=some s → st.inner.Free s → GeneralUnsent n st →
    SpecificWoken n st s (some c)

/-- The invariant behind covered wakes: a free slot beside an unsent general
waiter has a woken waiter of its own, the one the wake was withheld for. -/
def Deferred (n : ℕ) (st : State) : Prop :=
  ∀ s,st.inner.Free s → GeneralUnsent n st → SpecificWoken n st s none

/-- A deferred wake is a covered one, as free slots have empty queues. -/
theorem Deferred.covered (hq : Queued n st) (h : Deferred n st) : WakeCovered n st := by
  rintro s hs ⟨c,p,hp,hsent,hmay⟩
  rcases hmay with hpref | hpref
  · have hnow := hq.exact.sent_of_queue_nil hp (hpref.symm ▸ hq.drained s hs)
    rw [hsent] at hnow
    cases hnow
  · obtain ⟨c',p',-,hp',hsent',hpref'⟩ := h s hs ⟨c,p,hp,hsent,hpref⟩
    exact ⟨c',p',hp',hsent',.inl hpref'⟩

/-- Setting slot `slotId` free keeps wakes deferred: either a waiter of its
own was reached, or the global queue was drained and no general waiter is
left unsent. -/
theorem Deferred.freed (hq : Queued n st) (h : Deferred n st) (slotId : ℕ) :
    Deferred n (st.freed slotId) := by
  rintro s hs ⟨c,p,hp,hsent,hpref⟩
  rw [freed_callers] at hp
  obtain ⟨q,hqp,rfl⟩ := Callers.sendAll_parked_eq_some.mp hp
  simp only [Bool.or_eq_false_iff,decide_eq_false_iff_not] at hsent
  have hin := hq.exact.queued c q hqp hsent.1
  have hlive : (st.inner.queue (some slotId)).any st.callers.live=true := by
    by_contra hl
    refine hsent.2 ((mem_popped _).mpr ⟨preference n q.arg,.inr ⟨hpref,?_⟩,hin⟩)
    simpa using hl
  rcases freed_free.mp hs with ⟨rfl,-⟩ | hs
  · obtain ⟨tx,htx,hl⟩ := List.any_eq_true.mp hlive
    obtain ⟨r,hr,hturn⟩ := Callers.live_iff.mp hl
    obtain hlt | ⟨-,-,hk⟩ := hq.exact.current _ tx r htx hr
    · omega
    · refine ⟨tx.caller,⟨r.arg,r.turn,true⟩,by simp,?_,rfl,hk.symm⟩
      rw [freed_callers,Callers.sendAll_parked_eq_some]
      refine ⟨r,hr,?_⟩
      have hpop : (⟨tx.caller,r.turn⟩ : Sender)∈popped st.inner st.callers s := by
        rw [hturn]
        exact List.mem_append_left _ htx
      simp [hpop]
  · obtain ⟨c',p',-,hp',hsent',hpref'⟩ := h s hs ⟨c,q,hqp,hsent.1,hpref⟩
    refine ⟨c',⟨p'.arg,p'.turn,true⟩,by simp,?_,rfl,hpref'⟩
    rw [freed_callers,Callers.sendAll_parked_eq_some]
    exact ⟨p',hp',by simp [hsent']⟩

/-- An attempt of a call that is not a woken waiter for slot `s` leaves the
woken waiters for `s` in place. -/
theorem SpecificWoken.attempt {s : ℕ} {callers : Callers (Option SlotHint)} {caller turn : ℕ}
    {hint : Option SlotHint} {inner : Inner} {parked : Callers (Option SlotHint)}
    (h : SpecificWoken n st s none) (hc : Attempts st event callers caller turn hint)
    (hq : Queued n st) (hpref : preference n hint≠some s)
    (hother : ∀ c,c≠caller → parked.parked c=callers.parked c) :
    SpecificWoken n ⟨inner,parked⟩ s none := by
  obtain ⟨c',p',-,hp',hsent',hpref'⟩ := h
  refine ⟨c',p',by simp,?_,hsent',hpref'⟩
  have hne : c'≠caller := by
    rintro rfl
    cases hc with
    | arrive => exact absurd (hq.exact.bounded _ _ hp') (Nat.lt_irrefl _)
    | retry _ p hp =>
      cases hp.symm.trans hp'
      exact hpref hpref'
  rw [hother c' hne,hc.parked_eq]
  exact hp'

/-- Every step that meets the condition keeps wakes deferred. -/
theorem Deferred.step (hq : Queued n st) (h : Deferred n st) (hok : KeepsWake n st event)
    (heff : Effect st event output st') : Deferred n st' := by
  cases heff with
  | @admitted _ callers caller turn hint a hc htry =>
    rintro s hs ⟨c,p,hp,hsent,hpref⟩
    obtain ⟨hne,hs⟩ := claim_free.mp hs
    obtain ⟨-,hp⟩ := Callers.leave_parked_eq_some.mp hp
    refine (h s hs ⟨c,p,hc.parked_eq ▸ hp,hsent,hpref⟩).attempt hc hq (fun hs' => ?_) fun c' hc' => ?_
    · obtain ⟨-,-,-,hchosen⟩ := tryAdmitLocked_some htry
      rw [hq.size,hs'] at hchosen
      rcases hchosen with hchosen | ⟨hchosen,-⟩
      · exact hne (Option.some.inj hchosen)
      · cases hchosen
    · rw [Callers.leave_parked,if_neg hc']
  | @parked _ callers caller turn hint hc htry =>
    rintro s hs ⟨c,p,hp,hsent,hpref⟩
    have hfree : st.inner.Free s := by
      simpa only [Inner.Free,enqueue_slots] using hs
    have hbusy := fun hmay => tryAdmitLocked_none_iff.mp htry s hmay hfree
    rw [hq.size] at hbusy
    -- the parking call is not the unsent general waiter: it found no slot free
    have hunsent : GeneralUnsent n st := by
      rw [Callers.park_parked] at hp
      split at hp
      · cases hp
        exact absurd (.inr hpref) hbusy
      · exact ⟨c,p,hc.parked_eq ▸ hp,hsent,hpref⟩
    refine (h s hfree hunsent).attempt hc hq (fun hs' => hbusy (.inl hs')) fun c' hc' => ?_
    rw [Callers.park_parked,if_neg hc']
  | leave caller p hp he =>
    rintro s hs ⟨c,q,hqp,hsent,hpref⟩
    have hunsent : GeneralUnsent n st := ⟨c,q,(Callers.leave_parked_eq_some.mp hqp).2,hsent,hpref⟩
    have hleaver : event.leaver=some caller := by
      rcases he with ⟨rfl,-⟩ | ⟨rfl,-⟩ <;> rfl
    obtain ⟨c',p',hp'⟩ : SpecificWoken n st s (some caller) := by
      obtain ⟨c',p',-,hp',hsent',hpref'⟩ := h s hs hunsent
      by_cases hc : c'=caller
      · subst hc
        exact hok c' p' s hleaver hp' hsent' hpref' hs hunsent
      · exact ⟨c',p',by simpa using hc,hp',hsent',hpref'⟩
    obtain ⟨hne,hp',hsent',hpref'⟩ := hp'
    exact ⟨c',p',by simp,Callers.leave_parked_eq_some.mpr ⟨by simpa using hne,hp'⟩,hsent',hpref'⟩
  | freed slotId slot hs he => exact h.freed hq slotId
  | ignored => exact h
  | resident slotId prefixHash model he =>
    exact fun s hs hg => h s (modifySlot_free (by exact fun _ hb => hb) hs) hg
  | seeded slotId => exact fun s hs hg => h s (modifySlot_free (by exact fun _ _ => rfl) hs) hg

/-- Wakes stay deferred in every run that meets the condition. -/
theorem deferred_of_run (h : RunWhen Scheduler.step (KeepsWake n) (State.new n) trace st) :
    Deferred n st := by
  refine (h.invariant (fun st => Queued n st ∧ Deferred n st) ⟨queued_new n,?_⟩
    fun _ _ _ _ hi hok hs => ⟨hi.1.step (step_effect hs),hi.2.step hi.1 hok (step_effect hs)⟩).2
  rintro s - ⟨c,p,hp,-⟩
  cases hp

/-- Every woken general waiter may be dropped, one by one, by steps that all
meet the condition; nothing else changes. -/
theorem drop_woken_generals (st : State) (k : ℕ) :
    ∃ rest u,RunWhen Scheduler.step (KeepsWake n) st rest u ∧ u.inner=st.inner ∧
      ∀ c p,u.callers.parked c=some p ↔ st.callers.parked c=some p ∧
        ¬(c<k ∧ p.sent=true ∧ preference n p.arg=none) := by
  induction k with
  | zero => exact ⟨[],st,.start,rfl,by simp⟩
  | succ k ih =>
    obtain ⟨rest,u,hrun,hinner,hparked⟩ := ih
    by_cases hw : ∃ p,u.callers.parked k=some p ∧ p.sent=true ∧ preference n p.arg=none
    · obtain ⟨p,hp,hsent,hpref⟩ := hw
      have hstep : Scheduler.step u (.cancel k)=
          some (.cancelled k,{u with callers := u.callers.leave k}) := by
        simp only [Scheduler.step,hp]
      have hok : KeepsWake n u (.cancel k) := by
        rintro c q s hc hq - hqs
        cases hc
        cases hp.symm.trans hq
        rw [hpref] at hqs
        cases hqs
      refine ⟨_,_,hrun.next hok hstep,hinner,fun c q => ?_⟩
      rw [Callers.leave_parked_eq_some,hparked]
      constructor
      · rintro ⟨hne,hq,hno⟩
        exact ⟨hq,fun hk => hno ⟨lt_of_le_of_ne (Nat.le_of_lt_succ hk.1) hne,hk.2⟩⟩
      · rintro ⟨hq,hno⟩
        refine ⟨?_,hq,fun hk => hno ⟨Nat.lt_succ_of_lt hk.1,hk.2⟩⟩
        rintro rfl
        cases ((hparked _ _).mp hp).1.symm.trans hq
        exact hno ⟨by omega,hsent,hpref⟩
    · refine ⟨rest,u,hrun,hinner,fun c q => ?_⟩
      rw [hparked]
      refine and_congr_right fun hq => not_congr ⟨fun hk => ⟨Nat.lt_succ_of_lt hk.1,hk.2⟩,?_⟩
      rintro ⟨hlt,hrest⟩
      refine ⟨lt_of_le_of_ne (by omega) ?_,hrest⟩
      rintro rfl
      exact hw ⟨q,(hparked _ _).mpr ⟨hq,fun h => absurd h.1 (Nat.lt_irrefl _)⟩,hrest⟩

/-- A step that breaks the condition leaves a state from which steps meeting
it reach an uncovered wake. -/
theorem uncovered_of_not_keepsWake (hq : Queued n st) (hok : ¬KeepsWake n st event)
    (heff : Effect st event output st') :
    ∃ rest u,RunWhen Scheduler.step (KeepsWake n) st' rest u ∧ ¬WakeCovered n u := by
  simp only [KeepsWake,not_forall] at hok
  obtain ⟨c,p,s,hleaver,hp,hsent,hpref,hfree,⟨g,r,hr,hrsent,hrpref⟩,hnone⟩ := hok
  have hst := heff.of_leaver hleaver
  obtain ⟨rest,u,hrun,hinner,hparked⟩ := drop_woken_generals (n:=n) st' st'.callers.next
  refine ⟨rest,u,hrun,fun hcovered => ?_⟩
  have hmem : ∀ c' p',st'.callers.parked c'=some p' ↔ c'≠c ∧ st.callers.parked c'=some p' := by
    intro c' p'
    rw [hst]
    exact Callers.leave_parked_eq_some
  have hgc : g≠c := by
    rintro rfl
    cases hp.symm.trans hr
    rw [hsent] at hrsent
    cases hrsent
  have hgu : u.callers.parked g=some r := by
    refine (hparked g r).mpr ⟨(hmem g r).mpr ⟨hgc,hr⟩,fun ⟨_,hs,_⟩ => ?_⟩
    rw [hrsent] at hs
    cases hs
  have hsfree : u.inner.Free s := by
    rw [hinner,hst]
    exact hfree
  obtain ⟨c',p',hp',hsent',hmay⟩ := hcovered s hsfree ⟨g,r,hgu,hrsent,.inr hrpref⟩
  obtain ⟨hp',hno⟩ := (hparked c' p').mp hp'
  obtain ⟨hne,hp'⟩ := (hmem c' p').mp hp'
  have hnext : st'.callers.next=st.callers.next := by rw [hst]; rfl
  rcases hmay with hspec | hgen
  · exact hnone ⟨c',p',by simpa using hne,hp',hsent',hspec⟩
  · exact hno ⟨hnext.symm ▸ hq.exact.bounded _ _ hp',hsent',hgen⟩

/-- No wake-up is lost in any run whose steps all meet the condition, and the
condition is exact: a step that breaks it is followed, by steps that meet it,
by a free slot beside a live waiter that nobody will wake. -/
theorem scheduler_wake_covered (n : ℕ) :
    (∀ trace st,RunWhen Scheduler.step (KeepsWake n) (State.new n) trace st → WakeCovered n st) ∧
    (∀ trace st event output st',RunWhen Scheduler.step (KeepsWake n) (State.new n) trace st →
      Scheduler.step st event=some (output,st') → ¬KeepsWake n st event →
      ∃ rest u,RunWhen Scheduler.step (KeepsWake n) st' rest u ∧ ¬WakeCovered n u) :=
  ⟨fun _ _ h => (deferred_of_run h).covered (queued_of_run h),
    fun _ _ _ _ _ h hs hok => uncovered_of_not_keepsWake (queued_of_run h) hok (step_effect hs)⟩

/-- The specific waiter a freed slot's wake went to is dropped before its
re-poll: the general waiter behind it is never woken, though the only slot is
free. -/
theorem scheduler_wake_lost :
    ¬∀ trace st,Run Scheduler.step (State.new 1) trace st → WakeCovered 1 st := by
  intro hall
  have h : Run Scheduler.step (State.new 1) _ _ := run_of_exec
    (show exec Scheduler.step (State.new 1) [.admitCall none,.admitCall (some ⟨"p",some 0,none⟩),
      .admitCall none,.release 0,.cancel 1]=some _ from rfl)
  obtain ⟨c,p,hp,hsent,-⟩ := hall _ _ h 0 ⟨_,rfl,rfl⟩ ⟨2,⟨none,0,false⟩,rfl,rfl,.inr rfl⟩
  rcases c with _ | _ | _ | c <;> cases hp
  cases hsent

/-- The entry admits a parked general waiter onto a slot that a live parked
call prefers. -/
inductive Preempts (n : ℕ) (st : State) : Event×Output → Prop
  /-- The general waiter is re-polled and returns with the slot. -/
  | intro (caller : ℕ) (p : Parked (Option SlotHint)) (a : Admission) (c' : ℕ)
    (p' : Parked (Option SlotHint)) (hp : st.callers.parked caller=some p)
    (hgeneral : preference n p.arg=none) (hp' : st.callers.parked c'=some p')
    (hspecific : preference n p'.arg=some a.slotId) :
    Preempts n st (.repoll caller,.admitted caller a)

/-- No entry of the trace pre-empts a specific waiter. -/
def NoPreemption (n : ℕ) (trace : List (Event×Output)) : Prop :=
  ∀ pre entry post st,trace=pre++entry::post → Run Scheduler.step (State.new n) pre st →
    ¬Preempts n st entry

/-- The condition on re-polls of general waiters: the free slot that ranks
first for the call is not one that a live parked call prefers. -/
def YieldsFirst (n : ℕ) (st : State) (event : Event) : Prop :=
  ∀ c p s,event=.repoll c → st.callers.parked c=some p → preference n p.arg=none →
    st.inner.RanksFirst p.arg s →
    ∀ c' p',st.callers.parked c'=some p' → preference n p'.arg≠some s

/-- Without usable preference a call is admitted to the slot ranking first. -/
theorem general_ranksFirst {hint : Option SlotHint} {a : Admission} {inner : Inner}
    (hq : Queued n st) (hgeneral : preference n hint=none)
    (htry : tryAdmitLocked st.inner hint=some (a,inner)) : st.inner.RanksFirst hint a.slotId := by
  obtain ⟨-,-,-,hchosen⟩ := tryAdmitLocked_some htry
  rw [hq.size,hgeneral] at hchosen
  rcases hchosen with hchosen | ⟨-,hchosen⟩
  · cases hchosen
  · exact hchosen

/-- A re-poll of a general waiter pre-empts a specific one exactly if the
free slot ranking first for it is one a parked call prefers. -/
theorem preempts_iff (hq : Queued n st) (hs : Scheduler.step st event=some (output,st')) :
    Preempts n st (event,output) ↔ ¬YieldsFirst n st event := by
  constructor
  · rintro ⟨c,p,a,c',p',hp,hgeneral,hp',hspecific⟩ hyields
    refine hyields c p a.slotId rfl hp hgeneral ?_ c' p' hp' hspecific
    obtain ⟨callers,turn,hint,hc,htry,-⟩ := (step_effect hs).of_admitted
    cases hc with
    | retry _ q hq' =>
      cases hp.symm.trans hq'
      exact general_ranksFirst hq hgeneral htry
  · intro hyields
    simp only [YieldsFirst,not_forall] at hyields
    obtain ⟨c,p,s,rfl,hp,hgeneral,hranks,c',p',hp',hspecific⟩ := hyields
    rw [not_not] at hspecific
    obtain ⟨q,hq',-,hresult⟩ := (step_effect hs).of_repoll
    cases hp.symm.trans hq'
    rcases hresult with ⟨a,htry,rfl,-⟩ | ⟨htry,-,-⟩
    · have hchosen := general_ranksFirst hq hgeneral htry
      exact .intro c p a c' p' hp hgeneral hp' (hranks.unique hchosen ▸ hspecific)
    · refine absurd hranks.free (tryAdmitLocked_none_iff.mp htry s (.inr ?_))
      rw [hq.size,hgeneral]

/-- In every run, no specific waiter is pre-empted by a general one exactly
if every re-poll of a general waiter finds ranking first a free slot that no
parked call prefers. -/
theorem scheduler_noPreemption_iff (h : Run Scheduler.step (State.new n) trace st) :
    NoPreemption n trace ↔
      RunWhen Scheduler.step (YieldsFirst n) (State.new n) trace st := by
  constructor
  · intro hno
    induction h with
    | start => exact .start
    | @next trace t u event output hr _ hs ih =>
      refine .next (ih fun pre entry post v he => ?_) ?_ hs
      · exact hno pre entry (post++[(event,output)]) v (by rw [he]; simp)
      · by_contra hyields
        exact hno trace _ [] t rfl hr ((preempts_iff (queued_of_run hr) hs).mpr hyields)
  · rintro hrun pre ⟨event,output⟩ post v rfl hpre
    obtain ⟨t,t',ht,hok,hs,-⟩ := hrun.cut
    obtain rfl := hpre.det ht
    exact fun hp => (preempts_iff (queued_of_run ht) hs).mp hp hok

/-- Slot 1 is taken before slot 0, a general call and one for slot 0 park, and
both slots are released. -/
def bothWoken : List (Event×Output) :=
  [(.admitCall (some ⟨"p",some 1,none⟩),.admitted 0 ⟨1,false⟩),
    (.admitCall none,.admitted 1 ⟨0,false⟩),(.admitCall none,.parked 2),
    (.admitCall (some ⟨"p",some 0,none⟩),.parked 3),(.release 1,.unit),(.release 0,.unit)]

/-- The general call is polled before the one that waits for slot 0, which is
free. Slot 1 was used less recently, so the general call leaves slot 0 alone. -/
theorem scheduler_noPreemption_yielded :
    NoPreemption 2 (bothWoken++[(.repoll 2,.admitted 2 ⟨1,false⟩)]) := by
  have hwoken : Run Scheduler.step (State.new 2) bothWoken _ := run_of_exec
    (show exec Scheduler.step (State.new 2) (bothWoken.map Prod.fst)=some (bothWoken,_) from rfl)
  have hrun : Run Scheduler.step (State.new 2) (bothWoken++[(.repoll 2,.admitted 2 ⟨1,false⟩)]) _ :=
    hwoken.next trivial rfl
  refine (scheduler_noPreemption_iff hrun).mpr (.next (hwoken.strengthen ?_) ?_ rfl)
  · intro entry hm t c p s he
    rw [bothWoken] at hm
    simp only [List.mem_cons,List.not_mem_nil,or_false] at hm
    rcases hm with rfl | rfl | rfl | rfl | rfl | rfl <;> cases he
  · rintro c p s he hp hgeneral hranks c' p' hp' hpref
    cases he
    cases hp
    obtain rfl := hranks.unique (general_ranksFirst (queued_of_run hwoken) hgeneral rfl)
    rcases c' with _ | _ | _ | _ | c' <;> cases hp' <;> cases hpref

/-- Slot 1's release wakes a general waiter, slot 1 is taken by a newcomer,
and slot 0's release wakes only its own waiter. Both are woken now, and the
general one, polled first, takes slot 0. -/
theorem scheduler_waiter_preempted :
    ¬∀ n trace st,Run Scheduler.step (State.new n) trace st → NoPreemption n trace := by
  intro hall
  have hpre : Run Scheduler.step (State.new 2) _ _ := run_of_exec
    (show exec Scheduler.step (State.new 2) [.admitCall none,.admitCall none,.admitCall none,
      .admitCall (some ⟨"p",some 0,none⟩),.release 1,.admitCall none,.release 0]=some _ from rfl)
  have hall' : Run Scheduler.step (State.new 2) (_++[(.repoll 2,.admitted 2 ⟨0,false⟩)]) _ :=
    hpre.next trivial rfl
  exact hall 2 _ _ hall' _ _ [] _ rfl hpre
    (.intro 2 ⟨none,0,true⟩ _ 3 ⟨some ⟨"p",some 0,none⟩,0,true⟩ rfl rfl rfl rfl)

end AivyxBroker.Scheduler
