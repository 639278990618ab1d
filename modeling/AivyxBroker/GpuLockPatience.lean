import AivyxBroker.GpuLockReaper

/-!
# How long a client of the GPU lock has to wait

An acquire call keeps the deadline it started with over all its retries, and
the runtime polls an elapsed time-out within some `lag`. A call that is woken
at the last moment may still be granted the lock after its deadline. If its
client has given up by then, nobody holds the lease, and the lock is lost until
the reap task ends it. Whether this can happen is a matter of three numbers:
it cannot if and only if clients have more patience than the queue time-out
and the lag together.
-/

namespace AivyxBroker.GpuLock

open RunInvariant WakeSignal

variable {L : Type*}

/-- The lock and the instants when its acquire calls arrived. -/
structure Timed (L : Type*) where
  /-- The lock. -/
  lock : State L
  /-- When a call arrived. -/
  arrived : ℕ → ℕ

/-- A new lock without calls. -/
def Timed.new : Timed L := ⟨State.new,fun _ => 0⟩

/-- The runtime polls every elapsed time-out in time: while a call waits, time
does not pass its queue time-out and the lag. Nothing else takes time. -/
def Timely (queueTimeout lag : ℕ) (s : Timed L) : Event L → Prop
  | .tick span => ∀ c p,s.lock.callers.parked c=some p →
    s.lock.now+span ≤ s.arrived c+queueTimeout+lag
  | _ => True

/-- No acquire call has waited for longer than its time-out and the lag. -/
def Punctual (queueTimeout lag : ℕ) (s : Timed L) : Prop :=
  ∀ c p,s.lock.callers.parked c=some p → s.lock.now ≤ s.arrived c+queueTimeout+lag

/-- Who waits after a step waited before, or has arrived with it. -/
theorem Effect.parked {maxHold : ℕ} {st st' : State L} {event : Event L} {output : Output L}
    (h : Effect maxHold st event output st') {c : ℕ} {p : Parked Unit}
    (hp : st'.callers.parked c=some p) :
    c=st.callers.next ∨ ∃ p',st.callers.parked c=some p' := by
  cases h with
  | grant callers caller _ _ _ hc =>
    have hp' := (Callers.leave_parked_eq_some.mp hp).2
    rcases hc with ⟨rfl,-⟩ | ⟨rfl,-⟩ <;> exact .inr ⟨p,hp'⟩
  | park callers caller turn _ _ _ hc =>
    rw [Callers.park_parked] at hp
    split at hp
    · rename_i hcaller
      rcases hc with ⟨-,rfl,-⟩ | ⟨-,p',hp',-⟩
      · exact .inl hcaller
      · exact .inr ⟨p',hcaller ▸ hp'⟩
    · rcases hc with ⟨rfl,-⟩ | ⟨rfl,-⟩ <;> exact .inr ⟨p,hp⟩
  | leave => exact .inr ⟨p,(Callers.leave_parked_eq_some.mp hp).2⟩
  | finish =>
    obtain ⟨p',hp',-⟩ := Callers.sendAll_parked_eq_some.mp hp
    exact .inr ⟨p',hp'⟩
  | refuse | tick => exact .inr ⟨p,hp⟩

/-- Only an attempt to take the lock names a call or grants a lease. -/
theorem Effect.settled {maxHold : ℕ} {st st' : State L} {event : Event L} {output : Output L}
    (h : Effect maxHold st event output st') (hacquire : ∀ lease,event≠.acquire lease)
    (hrepoll : ∀ caller lease,event≠.repoll caller lease) :
    st'.callers.next=st.callers.next ∧ ∀ c l,output≠.granted c l := by
  cases h with
  | grant _ _ _ _ _ _ he =>
    rcases he with he | he
    · exact absurd he (hacquire _)
    · exact absurd he (hrepoll _ _)
  | park _ _ _ _ _ _ _ he =>
    rcases he with he | he
    · exact absurd he (hacquire _)
    · exact absurd he (hrepoll _ _)
  | leave _ he => rcases he with ⟨-,rfl⟩ | ⟨-,rfl⟩ <;> exact ⟨rfl,fun _ _ he => (by cases he)⟩
  | finish _ _ he =>
    rcases he with ⟨-,rfl⟩ | ⟨-,rfl,-⟩ <;>
      exact ⟨Callers.sendAll_next _ _,fun _ _ he => (by cases he)⟩
  | refuse he => rcases he with ⟨_,-,rfl,-⟩ | ⟨-,rfl⟩ <;> exact ⟨rfl,fun _ _ he => (by cases he)⟩
  | tick => exact ⟨rfl,fun _ _ he => (by cases he)⟩

/-- A time-out elapses in its own time; nothing else has to wait. -/
def Timed.Due (queueTimeout : ℕ) (s : Timed L) : Event L → Prop
  | .timeOut caller => s.arrived caller+queueTimeout ≤ s.lock.now
  | _ => True

instance (queueTimeout : ℕ) (s : Timed L) (event : Event L) : Decidable (s.Due queueTimeout event) := by
  unfold Timed.Due
  split <;> infer_instance

/-- An acquire action notes when its call arrives. -/
def Timed.note (s : Timed L) : Event L → ℕ → ℕ
  | .acquire _ => Function.update s.arrived s.lock.callers.next s.lock.now
  | _ => s.arrived

/-- Any other action notes nothing. -/
theorem note_of_ne {s : Timed L} {event : Event L} (h : ∀ lease,event≠.acquire lease) :
    s.note event=s.arrived := by
  cases event with
  | acquire lease => exact absurd rfl (h lease)
  | _ => rfl

/-- After a timely action, no call that waited before it has waited too long. -/
theorem Punctual.until {queueTimeout lag : ℕ} {s : Timed L} {event : Event L}
    (h : Punctual queueTimeout lag s) (ho : Timely queueTimeout lag s event) {c : ℕ}
    {p : Parked Unit} (hp : s.lock.callers.parked c=some p) :
    s.lock.now+event.span ≤ s.arrived c+queueTimeout+lag := by
  cases event with
  | tick span => exact ho c p hp
  | _ => exact h c p hp

/-- An attempt is the given caller's, and names nobody. -/
theorem attempt_caller (st : State L) (caller turn : ℕ) (lease : L) :
    (∀ c l,(st.attempt caller turn lease).1=.granted c l → c=caller) ∧
      (st.attempt caller turn lease).2.callers.next=st.callers.next := by
  unfold State.attempt
  split
  · refine ⟨fun c l he => ?_,rfl⟩
    cases he
    rfl
  · exact ⟨fun c l he => (by cases he),rfl⟩

/-- A lock held since the start, and its client's call gone. -/
def heldSince (a : L) : Timed L :=
  ⟨⟨⟨some ⟨a,0⟩,[]⟩,Callers.empty.arrive.leave 0,0,[a]⟩,fun _ => 0⟩

/-- A second call waits since the start, and this is how late it is now. -/
def waitedFor (a : L) (now : ℕ) : Timed L :=
  ⟨⟨⟨some ⟨a,0⟩,[⟨1,0⟩]⟩,(Callers.empty.arrive.leave 0).arrive.park 1 () 0,now,[a]⟩,fun _ => 0⟩

/-- The same when the lock has been released. -/
def wokenAfter (a : L) (now : ℕ) : Timed L :=
  ⟨⟨⟨none,[]⟩,((Callers.empty.arrive.leave 0).arrive.park 1 () 0).sendAll [⟨1,0⟩],now,[a]⟩,
    fun _ => 0⟩

/-- The last call is the only one that waits, and it is woken. -/
theorem wokenAfter_parked (a : L) (now : ℕ) :
    (wokenAfter a now).lock.callers.parked 1=some ⟨(),0,true⟩ := by
  rw [wokenAfter,Callers.sendAll_parked,Callers.park_parked]
  rfl

variable [DecidableEq L] {maxHold queueTimeout lag : ℕ}

/-- A step of the lock beside the clock. -/
def timedStep (maxHold queueTimeout : ℕ) (s : Timed L) (event : Event L) :
    Option (Output L×Timed L) :=
  if s.Due queueTimeout event then
    (step maxHold s.lock event).map fun r => (r.1,⟨r.2,s.note event⟩)
  else none

/-- Every lease is granted to a client that is still there: each gives up when
its patience has run out since its call arrived. -/
def Attended (L : Type*) [DecidableEq L] (maxHold queueTimeout lag patience : ℕ) : Prop :=
  ∀ trace (s : Timed L) event caller lease s',
    RunWhen (timedStep maxHold queueTimeout) (Timely queueTimeout lag) Timed.new trace s →
    timedStep maxHold queueTimeout s event=some (.granted caller lease,s') →
      s'.lock.now<s'.arrived caller+patience

/-- A timed step is one of the lock. -/
theorem timedStep_lock {s s' : Timed L} {event : Event L} {output : Output L}
    (h : timedStep maxHold queueTimeout s event=some (output,s')) :
    step maxHold s.lock event=some (output,s'.lock) ∧ s'.arrived=s.note event := by
  unfold timedStep at h
  split at h
  · obtain ⟨r,hr,he⟩ := Option.map_eq_some_iff.mp h
    cases he
    exact ⟨hr,rfl⟩
  · cases h

/-- A step of the lock that is due is a timed step. -/
theorem timedStep_of_due {s : Timed L} {event : Event L} {output : Output L} {st : State L}
    {arrived : ℕ → ℕ} (hdue : s.Due queueTimeout event)
    (hs : step maxHold s.lock event=some (output,st)) (ha : s.note event=arrived) :
    timedStep maxHold queueTimeout s event=some (output,⟨st,arrived⟩) := by
  rw [timedStep,if_pos hdue,hs,ha]
  rfl

/-- What a step has to do with arrivals: an acquire action names its call, and
grants to no other; any other action names none, and grants to one that waited. -/
theorem step_arrival {st st' : State L} {event : Event L} {output : Output L}
    (h : step maxHold st event=some (output,st')) :
    (∃ lease,event=.acquire lease) ∧ (∀ c l,output=.granted c l → c=st.callers.next) ∨
      (∀ lease,event≠.acquire lease) ∧ st'.callers.next=st.callers.next ∧
        ∀ c l,output=.granted c l → ∃ p,st.callers.parked c=some p := by
  cases event with
  | acquire lease =>
    simp only [step] at h
    split at h
    · cases h
    · have hcaller := (attempt_caller {st with callers := st.callers.arrive} st.callers.next 0 lease).1
      rw [Option.some.inj h] at hcaller
      exact .inl ⟨⟨lease,rfl⟩,hcaller⟩
  | repoll caller lease =>
    refine .inr ⟨fun _ he => (by cases he),?_⟩
    simp only [step] at h
    split at h
    · rename_i p hp
      split at h
      · obtain ⟨hcaller,hnext⟩ := attempt_caller st caller (p.turn+1) lease
        rw [Option.some.inj h] at hcaller hnext
        exact ⟨hnext,fun c l he => ⟨p,hcaller c l he ▸ hp⟩⟩
      · cases h
    · cases h
  | timeOut | cancel | release | reapExpired | tick =>
    obtain ⟨hnext,hno⟩ := (step_effect h).settled (fun _ he => (by cases he))
      fun _ _ he => (by cases he)
    exact .inr ⟨fun _ he => (by cases he),hnext,fun c l he => absurd he (hno c l)⟩

/-- A timely step keeps every call punctual. -/
theorem Punctual.step {s s' : Timed L} {event : Event L} {output : Output L}
    (hq : Queued s.lock) (h : Punctual queueTimeout lag s) (ho : Timely queueTimeout lag s event)
    (hs : timedStep maxHold queueTimeout s event=some (output,s')) :
    Punctual queueTimeout lag s' := by
  intro c p hp
  obtain ⟨hlock,harrived⟩ := timedStep_lock hs
  have heff := step_effect hlock
  have hnow := heff.now
  have hbound := (hq.step heff).exact.bounded c p hp
  rcases step_arrival hlock with ⟨⟨lease,rfl⟩,-⟩ | ⟨hother,hnext,-⟩
  · have hspan : (Event.acquire lease : Event L).span=0 := rfl
    have hnote : s'.arrived=Function.update s.arrived s.lock.callers.next s.lock.now := harrived
    rcases heff.parked hp with rfl | ⟨p',hp'⟩
    · rw [hnote,Function.update_self]
      omega
    · have hold := hq.exact.bounded c p' hp'
      have hc := h.until ho hp'
      rw [hnote,Function.update_of_ne hold.ne]
      omega
  · rcases heff.parked hp with rfl | ⟨p',hp'⟩
    · omega
    · have hc := h.until ho hp'
      rw [harrived,note_of_ne hother]
      omega

/-- Every call is punctual in every run. -/
theorem punctual_of_run {trace : List (Event L×Output L)} {s : Timed L}
    (h : RunWhen (timedStep maxHold queueTimeout) (Timely queueTimeout lag) Timed.new trace s) :
    Queued s.lock ∧ Punctual queueTimeout lag s := by
  refine h.invariant (fun s => Queued s.lock ∧ Punctual queueTimeout lag s)
    ⟨⟨exact_empty _ fun _ => rfl,fun _ => rfl⟩,fun c p hp => (by cases hp)⟩ ?_
  rintro t event output u ⟨hq,hp⟩ ho hs
  exact ⟨hq.step (step_effect (timedStep_lock hs).1),hp.step hq ho hs⟩

/-- With enough patience, no lease goes to a client that has given up. -/
theorem attended_of_lt {patience : ℕ} (h : queueTimeout+lag<patience) :
    Attended L maxHold queueTimeout lag patience := by
  intro trace s event caller lease s' hr hs
  obtain ⟨-,hp⟩ := punctual_of_run hr
  obtain ⟨hlock,harrived⟩ := timedStep_lock hs
  have hnow := (step_effect hlock).now
  rw [harrived]
  rcases step_arrival hlock with ⟨⟨lease',rfl⟩,hgrant⟩ | ⟨hother,-,hgrant⟩
  · have hspan : (Event.acquire lease' : Event L).span=0 := rfl
    obtain rfl := hgrant caller lease rfl
    rw [Timed.note,Function.update_self]
    omega
  · obtain ⟨p,hparked⟩ := hgrant caller lease rfl
    have hc := hp caller p hparked
    have hspan : event.span=0 := by
      cases event with
      | tick span => cases hlock
      | _ => rfl
    rw [note_of_ne hother]
    omega

/-- Without enough patience, a lease can be granted to nobody: a client waits
for a lock that is released when it has just given up. -/
theorem not_attended_of_le {patience : ℕ} {a b : L} (hab : a≠b) (h : patience ≤ queueTimeout+lag) :
    ¬Attended L maxHold queueTimeout lag patience := by
  intro hall
  have harrived : ∀ c,Function.update (fun _ : ℕ => 0) c 0=fun _ => 0 := fun c =>
    Function.update_eq_self c _
  have htick : Timely queueTimeout lag (waitedFor a 0) (.tick patience) := by
    intro c p _
    dsimp only [waitedFor]
    omega
  have h1 : timedStep maxHold queueTimeout Timed.new (.acquire a)=
      some (.granted 0 a,heldSince a) := by
    refine timedStep_of_due trivial ?_ (harrived 0)
    rw [step,if_neg (by simp [Timed.new,State.new])]
    rfl
  have h2 : timedStep maxHold queueTimeout (heldSince a) (.acquire b)=
      some (.parked 1,waitedFor a 0) := by
    refine timedStep_of_due trivial ?_ (harrived 1)
    rw [step,if_neg (by simpa [heldSince] using hab.symm)]
    rfl
  have h3 : timedStep maxHold queueTimeout (waitedFor a 0) (.tick patience)=
      some (.ticked,waitedFor a patience) := by
    refine timedStep_of_due trivial ?_ rfl
    simp only [step,waitedFor,Nat.zero_add]
  have h4 : timedStep maxHold queueTimeout (waitedFor a patience) (.release a)=
      some (.released (.ok ()),wokenAfter a patience) := by
    refine timedStep_of_due trivial ?_ rfl
    simp only [step,release,waitedFor,if_true]
    rfl
  have h5 : timedStep maxHold queueTimeout (wokenAfter a patience) (.repoll 1 b)=
      some (.granted 1 b,⟨((wokenAfter a patience).lock.attempt 1 1 b).2,fun _ => 0⟩) := by
    refine timedStep_of_due trivial ?_ rfl
    simp only [step,wokenAfter_parked]
    rw [if_pos ⟨trivial,by simpa [wokenAfter] using hab.symm⟩]
    rfl
  have hparked : RunWhen (timedStep maxHold queueTimeout) (Timely queueTimeout lag) Timed.new
      [(.acquire a,.granted 0 a),(.acquire b,.parked 1)] (waitedFor a 0) :=
    (RunWhen.single trivial h1).next trivial h2
  have hrun : RunWhen (timedStep maxHold queueTimeout) (Timely queueTimeout lag) Timed.new
      (([(.acquire a,.granted 0 a),(.acquire b,.parked 1)]++[(.tick patience,.ticked)])++
        [(.release a,.released (.ok ()))]) (wokenAfter a patience) :=
    (hparked.next htick h3).next trivial h4
  have hlate := hall _ _ _ _ _ _ hrun h5
  change patience<0+patience at hlate
  omega

/-- No lease is ever granted to a client that has given up, if and only if
clients have more patience than the queue time-out and the lag together. -/
theorem gpuLock_attended_iff {a b : L} (hab : a≠b) (maxHold queueTimeout lag patience : ℕ) :
    Attended L maxHold queueTimeout lag patience ↔ queueTimeout+lag<patience :=
  ⟨fun h => Nat.lt_of_not_le fun hle => not_attended_of_le hab hle h,attended_of_lt⟩

/-- The default time-out of 280 seconds serves clients that wait for 300, on a
machine that is late by up to 19. -/
theorem gpuLock_attended_default : Attended ℕ 900 280 19 300 ↔ 280+19<300 :=
  gpuLock_attended_iff Nat.zero_ne_one 900 280 19 300

end AivyxBroker.GpuLock
