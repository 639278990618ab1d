import AivyxBroker.GpuLockLease

/-!
# The reap task beside the GPU lock

A background task calls `reap_expired` at every tick of an interval whose
first tick is immediate. A late tick fires at once, and the next one is due an
interval after the late one was due. The runtime polls the task within some
`lag` of its due time; that is all that is assumed of it. Whatever callers do,
crashing with the lock included, a lease then ends before it is older than
its bound by an interval and that lag, and nobody sleeps longer than that in
one wait.
-/

namespace AivyxBroker.GpuLock

open RunInvariant WakeSignal

variable {L : Type*}

/-- The lock and the instant the reap task's next tick is due. -/
structure Supervised (L : Type*) where
  /-- The lock. -/
  lock : State L
  /-- When the interval's next tick is due. -/
  due : ℕ

/-- A new lock, and a task whose first tick is due at once. -/
def Supervised.new : Supervised L := ⟨State.new,0⟩

/-- The reap task keeps its appointments: time does not pass a due tick by
more than `lag`. -/
def Prompt (lag : ℕ) (s : Supervised L) (event : Event L) : Prop :=
  s.lock.now+event.span ≤ s.due+lag

instance (lag : ℕ) (s : Supervised L) (event : Event L) : Decidable (Prompt lag s event) :=
  inferInstanceAs (Decidable (_≤_))

/-- The event is a tick of the reap task. -/
def Event.isReap : Event L → Bool
  | .reapExpired => true
  | _ => false

/-- Read off the trace and the state: a call parked this long ago, and still
sleeps in that wait. -/
def AsleepFor (trace : List (Event L×Output L)) (st : State L) (c span : ℕ) : Prop :=
  ∃ pre entry post,trace=pre++entry::post ∧ entry.2=.parked c ∧ (∀ e∈post,e.2≠.parked c) ∧
    (∃ p,st.callers.parked c=some p ∧ p.sent=false) ∧ elapsed post=span

/-- What the ticks of the reap task say about the holder. -/
structure Watched (maxHold interval lag : ℕ) (s : Supervised L) : Prop where
  /-- The task is not behind by more than the lag. -/
  prompt : s.lock.now ≤ s.due+lag
  /-- The next tick is at most an interval away. -/
  soon : s.due ≤ s.lock.now+interval
  /-- The next tick is due while no hold is older than this. -/
  young : ∀ h,s.lock.inner.held=some h → h.acquiredAt ≤ s.lock.now ∧
    s.due ≤ h.acquiredAt+maxHold+interval

/-- The clock moves by the span of the event. -/
theorem Effect.now {maxHold : ℕ} {st st' : State L} {event : Event L} {output : Output L}
    (h : Effect maxHold st event output st') : st'.now=st.now+event.span := by
  cases h with
  | grant _ _ _ _ _ _ he => rcases he with rfl | rfl <;> rfl
  | park _ _ _ _ _ _ _ he => rcases he with rfl | rfl <;> rfl
  | leave _ he => rcases he with ⟨rfl,-⟩ | ⟨rfl,-⟩ <;> rfl
  | finish _ _ he => rcases he with ⟨rfl,-⟩ | ⟨rfl,-⟩ <;> rfl
  | refuse he => rcases he with ⟨_,rfl,-⟩ | ⟨rfl,-⟩ <;> rfl
  | tick => rfl

/-- A hold lasts until the entry that ends it, or is new. -/
theorem Effect.held {maxHold : ℕ} {st st' : State L} {event : Event L} {output : Output L}
    (h : Effect maxHold st event output st') {held : Held L} (hh : st'.inner.held=some held) :
    st.inner.held=some held ∨ st.inner.held=none ∧ held.acquiredAt=st'.now := by
  cases h with
  | grant _ _ _ hfree =>
    cases hh
    exact .inr ⟨hfree,rfl⟩
  | park | leave | refuse | tick => exact .inl hh
  | finish => cases hh

/-- A granted lease is the new holder's. -/
theorem Effect.granted_held {maxHold : ℕ} {st st' : State L} {event : Event L} {c : ℕ} {l : L}
    (h : Effect maxHold st event (.granted c l) st') : st'.inner.held=some ⟨l,st'.now⟩ := by
  generalize ho : Output.granted c l=output at h
  cases h with
  | grant =>
    cases ho
    rfl
  | park => cases ho
  | leave _ he => rcases he with ⟨-,rfl⟩ | ⟨-,rfl⟩ <;> cases ho
  | finish _ _ he => rcases he with ⟨-,rfl⟩ | ⟨-,rfl,-⟩ <;> cases ho
  | refuse he => rcases he with ⟨_,-,rfl,-⟩ | ⟨-,rfl⟩ <;> cases ho
  | tick => cases ho

/-- A call parks behind a holder, and its wake is not sent yet. -/
theorem Effect.parked_held {maxHold : ℕ} {st st' : State L} {event : Event L} {c : ℕ}
    (h : Effect maxHold st event (.parked c) st') : (∃ held,st'.inner.held=some held) ∧
      ∃ turn,st'.callers.parked c=some ⟨(),turn,false⟩ := by
  generalize ho : Output.parked c=output at h
  cases h with
  | park callers caller turn lease held hheld =>
    cases ho
    exact ⟨⟨held,hheld⟩,turn,by rw [Callers.park_parked,if_pos rfl]⟩
  | grant => cases ho
  | leave _ he => rcases he with ⟨-,rfl⟩ | ⟨-,rfl⟩ <;> cases ho
  | finish _ _ he => rcases he with ⟨-,rfl⟩ | ⟨-,rfl,-⟩ <;> cases ho
  | refuse he => rcases he with ⟨_,-,rfl,-⟩ | ⟨-,rfl⟩ <;> cases ho
  | tick => cases ho

/-- An attempt wakes nobody and forgets no name. -/
theorem arrived_or_not {callers callers' : Callers Unit}
    (h : callers'=callers.arrive ∨ callers'=callers) :
    callers'.parked=callers.parked ∧ callers.next ≤ callers'.next := by
  rcases h with rfl | rfl
  · exact ⟨rfl,Nat.le_succ _⟩
  · exact ⟨rfl,le_rfl⟩

/-- No hold is older than its bound, an interval and the lag. -/
theorem Watched.age_le {maxHold interval lag : ℕ} {s : Supervised L}
    (h : Watched maxHold interval lag s) {held : Held L} (hh : s.lock.inner.held=some held) :
    s.lock.now-held.acquiredAt ≤ maxHold+interval+lag := by
  have hp := h.prompt
  have hy := h.young held hh
  omega

variable [DecidableEq L]

/-- A reap that leaves a holder saw it within its bound. -/
theorem reapExpired_young {maxHold : ℕ} {st st' : State L} {output : Output L}
    (h : step maxHold st .reapExpired=some (output,st')) {held : Held L}
    (hh : st'.inner.held=some held) :
    st.inner.held=some held ∧ st.now-held.acquiredAt ≤ maxHold := by
  simp only [step,reapExpired] at h
  cases hold : st.inner.held with
  | none =>
    rw [hold] at h
    cases h
    rw [hold] at hh
    cases hh
  | some held' =>
    rw [hold] at h
    dsimp only at h
    split at h
    · cases h
      cases hh
    · rename_i hyoung
      cases h
      cases hold.symm.trans hh
      exact ⟨rfl,Nat.le_of_not_lt hyoung⟩

/-- The lock with its reap task: `reap_expired` runs when a tick is due, and
everything else at any time. -/
def superviseStep (maxHold interval : ℕ) (s : Supervised L) (event : Event L) :
    Option (Output L×Supervised L) :=
  if event.isReap=true ∧ s.lock.now<s.due then none
  else (step maxHold s.lock event).map fun r =>
    (r.1,⟨r.2,if event.isReap=true then s.due+interval else s.due⟩)

/-- A step of the supervised lock is one of the lock; a tick of the reap task
was due and puts the next one off by an interval. -/
theorem superviseStep_lock {maxHold interval : ℕ} {s s' : Supervised L} {event : Event L}
    {output : Output L} (h : superviseStep maxHold interval s event=some (output,s')) :
    step maxHold s.lock event=some (output,s'.lock) ∧
      (event=.reapExpired ∧ s.due ≤ s.lock.now ∧ s'.due=s.due+interval ∨
        s'.due=s.due) := by
  unfold superviseStep at h
  split at h
  · cases h
  · rename_i hdue
    obtain ⟨r,hr,he⟩ := Option.map_eq_some_iff.mp h
    cases he
    refine ⟨hr,?_⟩
    cases event with
    | reapExpired => exact .inl ⟨rfl,Nat.le_of_not_lt fun hlt => hdue ⟨rfl,hlt⟩,rfl⟩
    | _ => exact .inr rfl

/-- Every prompt step keeps the watch. -/
theorem Watched.step {maxHold interval lag : ℕ} {s s' : Supervised L} {event : Event L}
    {output : Output L} (h : Watched maxHold interval lag s) (hprompt : Prompt lag s event)
    (hs : superviseStep maxHold interval s event=some (output,s')) :
    Watched maxHold interval lag s' := by
  obtain ⟨hlock,hdue⟩ := superviseStep_lock hs
  have heff := step_effect hlock
  have hnow := heff.now
  unfold Prompt at hprompt
  obtain ⟨hp,hsoon,hyoung⟩ := h
  rcases hdue with ⟨rfl,hdue,hdue'⟩ | hdue'
  · have hspan : (Event.reapExpired : Event L).span=0 := rfl
    refine ⟨by omega,by omega,fun held hh => ?_⟩
    obtain ⟨hold,hage⟩ := reapExpired_young hlock hh
    have hacq := (hyoung held hold).1
    exact ⟨by omega,by omega⟩
  · refine ⟨by omega,by omega,fun held hh => ?_⟩
    rcases heff.held hh with hold | ⟨-,hacq⟩
    · have hacq := hyoung held hold
      exact ⟨by omega,by omega⟩
    · exact ⟨by omega,by omega⟩

/-- A run of the supervised lock is one of the lock, with the same trace. -/
theorem supervised_run {maxHold interval lag : ℕ} {trace : List (Event L×Output L)}
    {s t : Supervised L} (h : RunWhen (superviseStep maxHold interval) (Prompt lag) s trace t) :
    Run (GpuLock.step maxHold) s.lock trace t.lock := by
  induction h with
  | start => exact .start
  | next _ _ hs ih => exact .next ih trivial (superviseStep_lock hs).1

/-- The watch holds after every run. -/
theorem watched_of_run {maxHold interval lag : ℕ} {trace : List (Event L×Output L)}
    {s : Supervised L}
    (h : RunWhen (superviseStep maxHold interval) (Prompt lag) Supervised.new trace s) :
    Watched maxHold interval lag s := by
  refine h.invariant _ ⟨Nat.zero_le _,Nat.zero_le _,?_⟩ fun _ _ _ _ hi ho hs => hi.step ho hs
  rintro held hh
  cases hh

/-- The clock moves by what passes over a stretch of a run. -/
theorem now_of_run {maxHold : ℕ} {rest : List (Event L×Output L)} {st st' : State L}
    (h : Run (GpuLock.step maxHold) st rest st') : st'.now=st.now+elapsed rest := by
  refine h.trace_invariant (fun rest st' => st'.now=st.now+elapsed rest) rfl
    fun rest t event output u ht _ hs => ?_
  rw [elapsed_snoc,(step_effect hs).now,ht,Nat.add_assoc]

/-- A hold that no entry of a stretch ends is the same after it. -/
theorem held_of_run {maxHold : ℕ} {rest : List (Event L×Output L)} {st st' : State L}
    (h : Run (GpuLock.step maxHold) st rest st') {held : Held L}
    (hh : st.inner.held=some held) (hend : ∀ entry∈rest,¬Ends held.lease entry) :
    st'.inner.held=some held := by
  revert hend
  refine h.trace_invariant (fun rest st' => (∀ entry∈rest,¬Ends held.lease entry) →
    st'.inner.held=some held) (fun _ => hh) fun rest t event output u ht _ hs hend => ?_
  have hheld := ht fun entry he => hend entry (List.mem_append_left _ he)
  have hlast := hend (event,output) (by simp)
  cases step_effect hs with
  | grant _ _ _ hfree =>
    rw [hfree] at hheld
    cases hheld
  | park | leave | refuse | tick => exact hheld
  | finish held' hheld' he =>
    cases hheld.symm.trans hheld'
    rcases he with ⟨rfl,rfl⟩ | ⟨rfl,rfl,-⟩
    · exact absurd (.inl rfl) hlast
    · exact absurd (.inr rfl) hlast

/-- A call that slept through a stretch of a run slept behind one holder. -/
theorem holder_of_asleep {maxHold : ℕ} {rest : List (Event L×Output L)} {st st' : State L}
    (h : Run (GpuLock.step maxHold) st rest st') (hq : Queued st) {c : ℕ} {held : Held L}
    (hc : c<st.callers.next) (hh : st.inner.held=some held)
    (hpark : ∀ e∈rest,e.2≠.parked c) {p : Parked Unit} (hp : st'.callers.parked c=some p)
    (hs : p.sent=false) : st'.inner.held=some held := by
  have hinv : (∀ e∈rest,e.2≠.parked c) → Queued st' ∧ c<st'.callers.next ∧
      ((∃ p,st'.callers.parked c=some p ∧ p.sent=false) → st'.inner.held=some held) := by
    refine h.trace_invariant (fun rest st' => (∀ e∈rest,e.2≠.parked c) → Queued st' ∧
      c<st'.callers.next ∧ ((∃ p,st'.callers.parked c=some p ∧ p.sent=false) →
        st'.inner.held=some held)) (fun _ => ⟨hq,hc,fun _ => hh⟩)
      fun rest t event output u ht _ hs hpark => ?_
    obtain ⟨hq,hc,hheld⟩ := ht fun e he => hpark e (List.mem_append_left _ he)
    have hlast : output≠.parked c := hpark (event,output) (by simp)
    have heff := step_effect hs
    have hqu := hq.step heff
    cases heff with
    | grant callers caller lease hfree _ hcaller =>
      obtain ⟨hparked,hle⟩ := arrived_or_not (hcaller.imp And.left And.left)
      have hnext : c<callers.next := hc.trans_le hle
      refine ⟨hqu,hnext,?_⟩
      rintro ⟨p,hp,hunsent⟩
      -- nobody slept, for the lock was free
      have hp' := (Callers.leave_parked_eq_some.mp hp).2
      rw [hparked] at hp'
      rw [hq.exact.sent_of_queue_nil hp' (hq.free hfree)] at hunsent
      cases hunsent
    | park callers caller turn lease held' hheld' hcaller =>
      obtain ⟨hparked,hle⟩ := arrived_or_not (hcaller.imp And.left And.left)
      have hnext : c<callers.next := hc.trans_le hle
      have hne : c≠caller := by
        rintro rfl
        exact hlast rfl
      refine ⟨hqu,hnext,fun ⟨p,hp,hunsent⟩ => hheld ⟨p,?_,hunsent⟩⟩
      rw [Callers.park_parked,if_neg hne,hparked] at hp
      exact hp
    | leave caller =>
      refine ⟨hqu,hc,fun ⟨p,hp,hunsent⟩ => hheld ⟨p,?_,hunsent⟩⟩
      exact (Callers.leave_parked_eq_some.mp hp).2
    | finish held' hheld' =>
      refine ⟨hqu,by rwa [Callers.sendAll_next],?_⟩
      rintro ⟨p,hp,hunsent⟩
      rw [hqu.exact.sent_of_queue_nil hp rfl] at hunsent
      cases hunsent
    | refuse => exact ⟨hq,hc,hheld⟩
    | tick => exact ⟨hqu,hc,hheld⟩
  exact (hinv hpark).2.2 ⟨p,hp,hs⟩

/-- What a prompt reap task guarantees over whole runs, whatever the holders
do: no lease is held, and no call sleeps in one wait, for longer than the
bound, an interval and the lag. -/
theorem gpuLock_hold_bounded {maxHold interval lag : ℕ} {trace : List (Event L×Output L)}
    {s : Supervised L}
    (h : RunWhen (superviseStep maxHold interval) (Prompt lag) Supervised.new trace s) :
    (∀ l held,HeldFor trace l held → held ≤ maxHold+interval+lag) ∧
    (∀ c span,AsleepFor trace s.lock c span → span ≤ maxHold+interval+lag) := by
  have hwatched := watched_of_run h
  have hrun := supervised_run h
  constructor
  · rintro l _ ⟨pre,⟨event,output⟩,post,rfl,⟨caller,rfl⟩,hend,rfl⟩
    obtain ⟨t,u,-,-,hs,hpost⟩ := hrun.cut
    have hheld := (step_effect hs).granted_held
    have hage := hwatched.age_le (held_of_run hpost hheld hend)
    have hnow := now_of_run hpost
    dsimp only at hage
    omega
  · rintro c _ ⟨pre,⟨event,output⟩,post,rfl,hout,hpark,⟨p,hp,hunsent⟩,rfl⟩
    obtain rfl : output=.parked c := hout
    obtain ⟨t,u,hpre,-,hs,hpost⟩ := hrun.cut
    have hu := hpre.next trivial hs
    obtain ⟨⟨held,hheld⟩,_,hparked⟩ := (step_effect hs).parked_held
    have hc := (queued_of_run hu).exact.bounded c _ hparked
    have hage := hwatched.age_le (holder_of_asleep hpost (queued_of_run hu) hc hheld hpark hp hunsent)
    have hnow := now_of_run hpost
    have hacq := ((history_of_run hu).since held hheld).1
    omega

/-- The bound is met on a concrete run: a holder crashes, a call queues behind
it, and the reap task comes late. -/
theorem gpuLock_hold_bounded_crash : ∃ trace,∃ s : Supervised ℕ,
    RunWhen (superviseStep 5 6) (Prompt 1) Supervised.new trace s ∧
      AsleepFor trace s.lock 1 12 ∧ 12 ≤ 5+6+1 := by
  obtain ⟨⟨trace,s⟩,he⟩ : ∃ r,exec (restrict (superviseStep 5 6) (Prompt 1))
      (Supervised.new : Supervised ℕ) [.reapExpired,.tick 1,.acquire 7,.acquire 8,.tick 5,
        .reapExpired,.tick 7]=some r := ⟨_,rfl⟩
  have hasleep : AsleepFor trace s.lock 1 12 := by
    cases he
    exact ⟨[(.reapExpired,.reaped none),(.tick 1,.ticked),(.acquire 7,.granted 0 7)],
      (.acquire 8,.parked 1),[(.tick 5,.ticked),(.reapExpired,.reaped none),(.tick 7,.ticked)],
      rfl,rfl,by simp,⟨⟨(),0,false⟩,rfl,rfl⟩,rfl⟩
  have hrun := runWhen_of_exec he
  exact ⟨trace,s,hrun,hasleep,(gpuLock_hold_bounded hrun).2 1 12 hasleep⟩

end AivyxBroker.GpuLock
