import AivyxBroker.RunInvariant
import AivyxBroker.WakeSignal

/-!
# The lease-based GPU lock

`acquire`, `release` and `reap_expired` each run their critical section under
one mutex, so a run is an interleaving of critical sections with callers
arriving, being re-polled after a wake, timing out and being dropped. Lease
ids are drawn by the environment; a run only draws ids it never drew before.
Time is a counter that never goes back, read inside the critical sections.
-/

namespace AivyxBroker.GpuLock

open RunInvariant WakeSignal

/-- The current holder. -/
structure Held (L : Type*) where
  /-- The id that releases this hold. -/
  lease : L
  /-- The instant the hold began. -/
  acquiredAt : ℕ

/-- The data behind the mutex. -/
structure Inner (L : Type*) where
  /-- The holder, if the lock is taken. -/
  held : Option (Held L)
  /-- Senders of queued acquire calls, oldest first. -/
  waiters : List Sender

/-- Why an acquire or a release call failed. -/
inductive GpuLockError where
  /-- The acquire call's queue time-out elapsed first. -/
  | timeout
  /-- The released lease is not the current holder's. -/
  | unknownLease
  deriving DecidableEq

variable {L : Type*}

/-- A free lock with nobody waiting. -/
def Inner.new : Inner L := ⟨none,[]⟩

/-- Wake every queued waiter, not just the first, ignoring failed sends. -/
def wakeAll (inner : Inner L) (callers : Callers Unit) : Inner L×Callers Unit :=
  ({inner with waiters := []},callers.sendAll inner.waiters)

/-- One pass of `acquire`'s loop under the mutex: take a free lock under the
newly minted lease, or queue the sender of a fresh channel. -/
def acquireLocked (inner : Inner L) (lease : L) (now : ℕ) (tx : Sender) : Option L×Inner L :=
  match inner.held with
  | none => (some lease,{inner with held := some ⟨lease,now⟩})
  | some _ => (none,{inner with waiters := inner.waiters++[tx]})

/-- Release `lease` if it is the current holder's, waking all waiters. -/
def release [DecidableEq L] (inner : Inner L) (callers : Callers Unit) (lease : L) :
    Except GpuLockError Unit×Inner L×Callers Unit :=
  match inner.held with
  | some h =>
    if h.lease=lease then (.ok (),wakeAll {inner with held := none} callers)
    else (.error .unknownLease,inner,callers)
  | none => (.error .unknownLease,inner,callers)

/-- Force-release a holder that has held longer than `maxHold`. The ended
lease is the one the code logs. -/
def reapExpired (inner : Inner L) (callers : Callers Unit) (maxHold now : ℕ) :
    Option L×Inner L×Callers Unit :=
  match inner.held with
  | some h =>
    if maxHold<now-h.acquiredAt then (some h.lease,wakeAll {inner with held := none} callers)
    else (none,inner,callers)
  | none => (none,inner,callers)

/-- The lock together with its live acquire calls, the clock, and the lease
ids drawn so far. -/
structure State (L : Type*) where
  /-- The data behind the mutex. -/
  inner : Inner L
  /-- Acquire calls parked in `timeout_at`. -/
  callers : Callers Unit
  /-- The monotone clock. -/
  now : ℕ
  /-- Every lease id minted so far; a new one is never among them. -/
  issued : List L

/-- One atomic action of a caller, of the reap task, or of time. -/
inductive Event (L : Type*) where
  /-- A new acquire call runs to its first await; `lease` is the id it mints
  if the lock is free. -/
  | acquire (lease : L)
  /-- A parked call whose wake was sent is polled and retries. -/
  | repoll (caller : ℕ) (lease : L)
  /-- A parked call's queue time-out elapses. -/
  | timeOut (caller : ℕ)
  /-- A parked call's future is dropped. -/
  | cancel (caller : ℕ)
  /-- Anybody calls `release` with any lease id. -/
  | release (lease : L)
  /-- The background task calls `reap_expired`. -/
  | reapExpired
  /-- Time passes. -/
  | tick (span : ℕ)

/-- What the action returned. -/
inductive Output (L : Type*) where
  /-- An acquire call returned a lease. -/
  | granted (caller : ℕ) (lease : L)
  /-- An acquire call queued and parked. -/
  | parked (caller : ℕ)
  /-- An acquire call returned `Timeout`. -/
  | timedOut (caller : ℕ)
  /-- An acquire call was dropped. -/
  | cancelled (caller : ℕ)
  /-- What a release call returned. -/
  | released (result : Except GpuLockError Unit)
  /-- The lease a reap ended, if any. -/
  | reaped (lease : Option L)
  /-- Time passed. -/
  | ticked

/-- A newly built lock. -/
def State.new : State L := ⟨Inner.new,Callers.empty,0,[]⟩

/-- Run one pass of the acquire loop for `caller`'s given wait. -/
def State.attempt (st : State L) (caller turn : ℕ) (lease : L) : Output L×State L :=
  match acquireLocked st.inner lease st.now ⟨caller,turn⟩ with
  | (some lease,inner) =>
    (.granted caller lease,
      {st with inner := inner, callers := st.callers.leave caller, issued := lease::st.issued})
  | (none,inner) =>
    (.parked caller,{st with inner := inner, callers := st.callers.park caller () turn})

variable [DecidableEq L]

/-- The interleaving semantics. A drawn lease id must be new; only parked
calls can be re-polled, time out or be dropped. -/
def step (maxHold : ℕ) (st : State L) : Event L → Option (Output L×State L)
  | .acquire lease =>
    if lease∈st.issued then none
    else some ({st with callers := st.callers.arrive}.attempt st.callers.next 0 lease)
  | .repoll caller lease =>
    match st.callers.parked caller with
    | some p =>
      if p.sent=true ∧ lease∉st.issued then some (st.attempt caller (p.turn+1) lease) else none
    | none => none
  | .timeOut caller =>
    match st.callers.parked caller with
    | some _ => some (.timedOut caller,{st with callers := st.callers.leave caller})
    | none => none
  | .cancel caller =>
    match st.callers.parked caller with
    | some _ => some (.cancelled caller,{st with callers := st.callers.leave caller})
    | none => none
  | .release lease =>
    let (result,inner,callers) := release st.inner st.callers lease
    some (.released result,{st with inner := inner, callers := callers})
  | .reapExpired =>
    let (lease,inner,callers) := reapExpired st.inner st.callers maxHold st.now
    some (.reaped lease,{st with inner := inner, callers := callers})
  | .tick span => some (.ticked,{st with now := st.now+span})

/-- The current holder's lease. -/
def State.holder (st : State L) : Option L := st.inner.held.map Held.lease

/-- What a step can do to the lock, its callers and the clock. Every fact
about runs below is derived from these six cases. -/
inductive Effect (maxHold : ℕ) (st : State L) : Event L → Output L → State L → Prop
  /-- A free lock is taken under a new lease. -/
  | grant {event : Event L} (callers : Callers Unit) (caller : ℕ) (lease : L)
      (hfree : st.inner.held=none) (hnew : lease∉st.issued)
      (hc : callers=st.callers.arrive ∧ caller=st.callers.next ∨
        callers=st.callers ∧ ∃ p,st.callers.parked caller=some p ∧ p.sent=true)
      (he : event=.acquire lease ∨ event=.repoll caller lease) :
      Effect maxHold st event (.granted caller lease)
        ⟨{st.inner with held := some ⟨lease,st.now⟩},callers.leave caller,st.now,lease::st.issued⟩
  /-- The lock is taken and the caller parks behind its holder. -/
  | park {event : Event L} (callers : Callers Unit) (caller turn : ℕ) (lease : L) (h : Held L)
      (hheld : st.inner.held=some h)
      (hc : callers=st.callers.arrive ∧ caller=st.callers.next ∧ turn=0 ∨
        callers=st.callers ∧ ∃ p,st.callers.parked caller=some p ∧ turn=p.turn+1)
      (he : event=.acquire lease ∨ event=.repoll caller lease) :
      Effect maxHold st event (.parked caller)
        ⟨{st.inner with waiters := st.inner.waiters++[⟨caller,turn⟩]},
          callers.park caller () turn,st.now,st.issued⟩
  /-- A parked caller leaves without a lease. -/
  | leave {event : Event L} {output : Output L} (caller : ℕ)
      (he : event=.timeOut caller ∧ output=.timedOut caller ∨
        event=.cancel caller ∧ output=.cancelled caller) :
      Effect maxHold st event output {st with callers := st.callers.leave caller}
  /-- The holder's lease ends, by its own release or by an overdue reap. -/
  | finish {event : Event L} {output : Output L} (h : Held L) (hheld : st.inner.held=some h)
      (he : event=.release h.lease ∧ output=.released (.ok ()) ∨
        event=.reapExpired ∧ output=.reaped (some h.lease) ∧ maxHold < st.now-h.acquiredAt) :
      Effect maxHold st event output
        {st with inner := ⟨none,[]⟩, callers := st.callers.sendAll st.inner.waiters}
  /-- A release or reap that ends nothing. -/
  | refuse {event : Event L} {output : Output L}
      (he : (∃ lease,event=.release lease ∧ output=.released (.error .unknownLease) ∧
          st.holder≠some lease) ∨
        event=.reapExpired ∧ output=.reaped none) :
      Effect maxHold st event output st
  /-- Time passes. -/
  | tick (span : ℕ) : Effect maxHold st (.tick span) .ticked {st with now := st.now+span}

/-- The step function does nothing but the six effects. -/
theorem step_effect {maxHold : ℕ} {st st' : State L} {event : Event L} {output : Output L}
    (h : step maxHold st event=some (output,st')) : Effect maxHold st event output st' := by
  cases event with
  | acquire lease =>
    simp only [step] at h
    split at h
    · cases h
    · rename_i hnew
      cases hh : st.inner.held with
      | none =>
        simp only [State.attempt,acquireLocked,hh] at h
        cases h
        exact .grant _ _ lease hh hnew (.inl ⟨rfl,rfl⟩) (.inl rfl)
      | some held =>
        simp only [State.attempt,acquireLocked,hh] at h
        cases h
        have he : Effect maxHold st _ _ _ :=
          .park _ _ _ lease held hh (.inl ⟨rfl,rfl,rfl⟩) (.inl rfl)
        simpa only [hh] using he
  | repoll caller lease =>
    simp only [step] at h
    split at h
    · rename_i p hp
      split at h
      · rename_i hok
        cases hh : st.inner.held with
        | none =>
          simp only [State.attempt,acquireLocked,hh] at h
          cases h
          exact .grant _ _ lease hh hok.2 (.inr ⟨rfl,p,hp,hok.1⟩) (.inr rfl)
        | some held =>
          simp only [State.attempt,acquireLocked,hh] at h
          cases h
          have he : Effect maxHold st _ _ _ :=
            .park _ _ _ lease held hh (.inr ⟨rfl,p,hp,rfl⟩) (.inr rfl)
          simpa only [hh] using he
      · cases h
    · cases h
  | timeOut caller =>
    simp only [step] at h
    split at h
    · cases h
      exact .leave caller (.inl ⟨rfl,rfl⟩)
    · cases h
  | cancel caller =>
    simp only [step] at h
    split at h
    · cases h
      exact .leave caller (.inr ⟨rfl,rfl⟩)
    · cases h
  | release lease =>
    simp only [step,release] at h
    split at h
    · rename_i held hh
      split at h
      · rename_i hl
        cases h
        exact .finish held hh (.inl ⟨by rw [hl],rfl⟩)
      · rename_i hl
        cases h
        exact .refuse (.inl ⟨lease,rfl,rfl,by simpa [State.holder,hh] using hl⟩)
    · rename_i hh
      cases h
      exact .refuse (.inl ⟨lease,rfl,rfl,by simp [State.holder,hh]⟩)
  | reapExpired =>
    simp only [step,reapExpired] at h
    split at h
    · rename_i held hh
      split at h
      · rename_i ht
        cases h
        exact .finish held hh (.inr ⟨rfl,rfl,ht⟩)
      · cases h
        exact .refuse (.inr ⟨rfl,rfl⟩)
    · cases h
      exact .refuse (.inr ⟨rfl,rfl⟩)
  | tick span =>
    cases h
    exact .tick span

end AivyxBroker.GpuLock
