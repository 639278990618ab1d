import AivyxBroker.GpuLock

/-!
# What whole runs of the GPU lock guarantee

The recorded trace defines who holds the lock: a lease is held from the
moment an acquire call returned it until the first release or reap that ended
it. The mutex data agrees with that reading after every run. From the
agreement follow exclusion, the fate of stale leases, and the reaping bound.
The queue invariant, that a free lock has no queued sender, rules out lost
wake-ups whatever callers do.
-/

namespace AivyxBroker.GpuLock

open RunInvariant WakeSignal

variable {L : Type*}

/-- The trace entry is an acquire call returning lease `l`. -/
def Grants (l : L) (entry : Event L×Output L) : Prop := ∃ caller,entry.2=.granted caller l

/-- The trace entry is the release or the reap that ends lease `l`. -/
def Ends (l : L) (entry : Event L×Output L) : Prop :=
  entry=(.release l,.released (.ok ())) ∨ entry=(.reapExpired,.reaped (some l))

/-- How far one event moves the clock. -/
def Event.span : Event L → ℕ
  | .tick span => span
  | _ => 0

/-- Time that passes over a stretch of a trace. -/
def elapsed (trace : List (Event L×Output L)) : ℕ := (trace.map fun entry => entry.1.span).sum

/-- Read off the trace alone: `l` was granted, and nothing ended it since,
over which stretch `held` passed. -/
def HeldFor (trace : List (Event L×Output L)) (l : L) (held : ℕ) : Prop :=
  ∃ pre grant post,trace=pre++grant::post ∧ Grants l grant ∧ (∀ entry∈post,¬Ends l entry) ∧
    elapsed post=held

/-- The stretch since a grant, one entry longer. -/
theorem elapsed_snoc (trace : List (Event L×Output L)) (entry : Event L×Output L) :
    elapsed (trace++[entry])=elapsed trace+entry.1.span := by
  simp [elapsed]

/-- A step that does not end a held lease extends its hold. -/
theorem HeldFor.snoc {trace : List (Event L×Output L)} {l : L} {held : ℕ}
    (h : HeldFor trace l held) {entry : Event L×Output L} (hend : ¬Ends l entry) :
    HeldFor (trace++[entry]) l (held+entry.1.span) := by
  obtain ⟨pre,grant,post,rfl,hg,hp,rfl⟩ := h
  refine ⟨pre,grant,post++[entry],by simp,hg,?_,elapsed_snoc _ _⟩
  intro e he
  rcases List.mem_append.mp he with he | he
  · exact hp e he
  · rw [List.mem_singleton.mp he]
    exact hend

/-- The mutex data and the trace tell the same story. -/
structure History (trace : List (Event L×Output L)) (st : State L) : Prop where
  /-- The drawn lease ids are those that were returned. -/
  issued : ∀ l,l∈st.issued ↔ ∃ entry∈trace,Grants l entry
  /-- The holder was granted its lease and nothing ended it since. -/
  since : ∀ h,st.inner.held=some h → h.acquiredAt ≤ st.now ∧
    HeldFor trace h.lease (st.now-h.acquiredAt)
  /-- Every other granted lease has been ended after its grant. -/
  ended : ∀ pre grant post l,trace=pre++grant::post → Grants l grant → st.holder≠some l →
    ∃ entry∈post,Ends l entry

/-- A step that grants and ends nothing keeps the story. -/
theorem History.quiet {trace : List (Event L×Output L)} {st st' : State L}
    {entry : Event L×Output L} (h : History trace st) (hg : ∀ l,¬Grants l entry)
    (he : ∀ l,¬Ends l entry) (hheld : st'.inner.held=st.inner.held)
    (hissued : st'.issued=st.issued) (hnow : st'.now=st.now+entry.1.span) :
    History (trace++[entry]) st' where
  issued l := by
    rw [hissued,h.issued l]
    simp [hg l]
  since held hh := by
    obtain ⟨hle,hs⟩ := h.since held (hheld ▸ hh)
    have hn : st'.now-held.acquiredAt=st.now-held.acquiredAt+entry.1.span := by omega
    exact ⟨by omega,hn ▸ hs.snoc (he _)⟩
  ended pre grant post l hcut hgrant hne := by
    rcases cut_of_snoc hcut with ⟨-,rfl,-⟩ | ⟨mid,rfl,htrace⟩
    · exact absurd hgrant (hg l)
    · have hne' : st.holder≠some l := by
        simpa only [State.holder,hheld] using hne
      obtain ⟨e,hm,hend⟩ := h.ended pre grant mid l htrace hgrant hne'
      exact ⟨e,List.mem_append_left _ hm,hend⟩

/-- Each of the six effects keeps the story. -/
theorem History.step {trace : List (Event L×Output L)} {st st' : State L} {maxHold : ℕ}
    {event : Event L} {output : Output L} (h : History trace st)
    (heff : Effect maxHold st event output st') : History (trace++[(event,output)]) st' := by
  cases heff with
  | grant callers caller lease hfree hnew hc he =>
    have hg : Grants lease (event,Output.granted caller lease) := ⟨caller,rfl⟩
    refine ⟨fun l => ?_,fun held hh => ?_,fun pre grant post l hcut hgrant hne => ?_⟩
    · simp only [List.mem_cons,h.issued l,List.mem_append,or_and_right,exists_or,
        List.not_mem_nil,or_false,exists_eq_left]
      rw [or_comm]
      refine or_congr_right ⟨fun hl => hl ▸ hg,fun ⟨c,hl⟩ => ?_⟩
      cases hl
      rfl
    · cases hh
      exact ⟨Nat.le_refl _,trace,_,[],rfl,hg,by simp,by simp [elapsed]⟩
    · rcases cut_of_snoc hcut with ⟨-,rfl,-⟩ | ⟨mid,rfl,htrace⟩
      · obtain ⟨c,hl⟩ := hgrant
        cases hl
        exact absurd rfl hne
      · obtain ⟨e,hm,hend⟩ := h.ended pre grant mid l htrace hgrant (by simp [State.holder,hfree])
        exact ⟨e,List.mem_append_left _ hm,hend⟩
  | park callers caller turn lease held hheld hc he =>
    refine h.quiet (fun l => ?_) (fun l => ?_) rfl rfl ?_
    · rintro ⟨c,hl⟩
      cases hl
    · rintro (hl | hl) <;> cases hl
    · rcases he with rfl | rfl <;> rfl
  | leave caller he =>
    refine h.quiet (fun l => ?_) (fun l => ?_) rfl rfl ?_
    · rintro ⟨c,hl⟩
      rcases he with ⟨rfl,rfl⟩ | ⟨rfl,rfl⟩ <;> cases hl
    · rcases he with ⟨rfl,rfl⟩ | ⟨rfl,rfl⟩ <;> rintro (hl | hl) <;> cases hl
    · rcases he with ⟨rfl,rfl⟩ | ⟨rfl,rfl⟩ <;> rfl
  | finish held hheld he =>
    have hend : Ends held.lease (event,output) := by
      rcases he with ⟨rfl,rfl⟩ | ⟨rfl,rfl,-⟩
      · exact .inl rfl
      · exact .inr rfl
    have hno : ∀ l,¬Grants l (event,output) := by
      rintro l ⟨c,hl⟩
      rcases he with ⟨rfl,rfl⟩ | ⟨rfl,rfl,-⟩ <;> cases hl
    refine ⟨fun l => ?_,fun held' hh => ?_,fun pre grant post l hcut hgrant hne => ?_⟩
    · rw [h.issued l]
      simp [hno l]
    · cases hh
    · rcases cut_of_snoc hcut with ⟨-,rfl,-⟩ | ⟨mid,rfl,htrace⟩
      · exact absurd hgrant (hno l)
      · by_cases hl : held.lease=l
        · exact ⟨_,List.mem_append_right _ (List.mem_singleton_self _),hl ▸ hend⟩
        · obtain ⟨e,hm,he'⟩ := h.ended pre grant mid l htrace hgrant
            (by simpa [State.holder,hheld] using hl)
          exact ⟨e,List.mem_append_left _ hm,he'⟩
  | refuse he =>
    refine h.quiet (fun l => ?_) (fun l => ?_) rfl rfl ?_
    · rintro ⟨c,hl⟩
      rcases he with ⟨lease,rfl,rfl,-⟩ | ⟨rfl,rfl⟩ <;> cases hl
    · rcases he with ⟨lease,rfl,rfl,-⟩ | ⟨rfl,rfl⟩ <;> rintro (hl | hl) <;> cases hl
    · rcases he with ⟨lease,rfl,rfl,-⟩ | ⟨rfl,rfl⟩ <;> rfl
  | tick span =>
    refine h.quiet (fun l => ?_) (fun l => ?_) rfl rfl rfl
    · rintro ⟨c,hl⟩
      cases hl
    · rintro (hl | hl) <;> cases hl

/-- The queue invariant: senders match parked calls, and a free lock has no
sender queued. -/
structure Queued (st : State L) : Prop where
  /-- One live sender per parked call whose wake is not sent. -/
  exact : Exact (fun _ : Unit => ()) (fun _ : Unit => st.inner.waiters) st.callers
  /-- Whoever frees the lock drains the queue. -/
  free : st.inner.held=none → st.inner.waiters=[]

/-- Each of the six effects keeps the queue invariant. -/
theorem Queued.step {st st' : State L} {maxHold : ℕ} {event : Event L} {output : Output L}
    (h : Queued st) (heff : Effect maxHold st event output st') : Queued st' := by
  cases heff with
  | grant callers caller lease hfree hnew hc he =>
    refine ⟨?_,fun hh => by cases hh⟩
    rcases hc with ⟨rfl,-⟩ | ⟨rfl,-⟩
    · exact h.exact.arrive.leave caller
    · exact h.exact.leave caller
  | park callers caller turn lease held hheld hc he =>
    refine ⟨?_,fun hh => by rw [hheld] at hh; cases hh⟩
    rcases hc with ⟨rfl,rfl,rfl⟩ | ⟨rfl,p,hp,rfl⟩
    · exact h.exact.arrive.park (Nat.lt_succ_self _) h.exact.fresh_arrival rfl
        fun k hk => absurd rfl hk
    · exact h.exact.park (h.exact.bounded _ _ hp) (h.exact.fresh_retry hp) rfl
        fun k hk => absurd rfl hk
  | leave caller he => exact ⟨h.exact.leave caller,h.free⟩
  | finish held hheld he =>
    refine ⟨?_,fun _ => rfl⟩
    exact h.exact.drain (fun _ => True) (fun tx => by simp) (fun _ _ => rfl)
      fun k hk => absurd trivial hk
  | refuse he => exact h
  | tick span => exact ⟨h.exact,h.free⟩

/-- A lease that was granted and is not held is never held again. -/
def Spent (l : L) (st : State L) : Prop := l∈st.issued ∧ st.holder≠some l

/-- Grants use new ids, so a spent lease stays spent. -/
theorem Spent.step {l : L} {st st' : State L} {maxHold : ℕ} {event : Event L}
    {output : Output L} (h : Spent l st) (heff : Effect maxHold st event output st') :
    Spent l st' := by
  obtain ⟨hi,hn⟩ := h
  cases heff with
  | grant callers caller lease hfree hnew hc he =>
    refine ⟨List.mem_cons_of_mem _ hi,fun hl => hnew ?_⟩
    cases hl
    exact hi
  | park | leave | refuse | tick => exact ⟨hi,hn⟩
  | finish held hheld he => exact ⟨hi,fun hl => by cases hl⟩

/-- A release ends the held lease it names, or else nothing. -/
theorem Effect.of_release {maxHold : ℕ} {st st' : State L} {l : L} {output : Output L}
    (h : Effect maxHold st (.release l) output st') :
    (∃ held,st.inner.held=some held ∧ held.lease=l ∧ output=.released (.ok ()) ∧
      st'.inner.held=none ∧ st'.issued=st.issued) ∨
    output=.released (.error .unknownLease) ∧ st.holder≠some l ∧ st'=st := by
  generalize hevent : Event.release l=event at h
  cases h with
  | grant _ _ _ _ _ _ he => rcases he with rfl | rfl <;> cases hevent
  | park _ _ _ _ _ _ _ he => rcases he with rfl | rfl <;> cases hevent
  | leave _ he => rcases he with ⟨rfl,-⟩ | ⟨rfl,-⟩ <;> cases hevent
  | finish held hheld he =>
    rcases he with ⟨rfl,rfl⟩ | ⟨rfl,-⟩ <;> cases hevent
    exact .inl ⟨held,hheld,rfl,rfl,rfl,rfl⟩
  | refuse he =>
    rcases he with ⟨lease,rfl,rfl,hno⟩ | ⟨rfl,-⟩ <;> cases hevent
    exact .inr ⟨rfl,hno,rfl⟩
  | tick => cases hevent

/-- A reap ends the held lease past its bound, or else nothing. -/
theorem Effect.of_reapExpired {maxHold : ℕ} {st st' : State L} {output : Output L}
    (h : Effect maxHold st .reapExpired output st') :
    (∃ held,st.inner.held=some held ∧ output=.reaped (some held.lease) ∧
      maxHold<st.now-held.acquiredAt ∧ st'.inner.held=none ∧ st'.issued=st.issued) ∨
    output=.reaped none ∧ st'=st := by
  generalize hevent : (Event.reapExpired : Event L)=event at h
  cases h with
  | grant _ _ _ _ _ _ he => rcases he with rfl | rfl <;> cases hevent
  | park _ _ _ _ _ _ _ he => rcases he with rfl | rfl <;> cases hevent
  | leave _ he => rcases he with ⟨rfl,-⟩ | ⟨rfl,-⟩ <;> cases hevent
  | finish held hheld he =>
    rcases he with ⟨rfl,-⟩ | ⟨-,rfl,ht⟩
    · cases hevent
    · exact .inl ⟨held,hheld,rfl,ht,rfl,rfl⟩
  | refuse he =>
    rcases he with ⟨lease,rfl,-⟩ | ⟨-,rfl⟩
    · cases hevent
    · exact .inr ⟨rfl,rfl⟩
  | tick => cases hevent

/-- A grant finds the lock free. -/
theorem Effect.of_granted {maxHold : ℕ} {st st' : State L} {event : Event L} {caller : ℕ} {l : L}
    (h : Effect maxHold st event (.granted caller l) st') : st.inner.held=none := by
  generalize ho : Output.granted caller l=output at h
  cases h with
  | grant _ _ _ hfree => exact hfree
  | park => cases ho
  | leave _ he => rcases he with ⟨-,rfl⟩ | ⟨-,rfl⟩ <;> cases ho
  | finish _ _ he => rcases he with ⟨-,rfl⟩ | ⟨-,rfl,-⟩ <;> cases ho
  | refuse he => rcases he with ⟨_,-,rfl,-⟩ | ⟨-,rfl⟩ <;> cases ho
  | tick => cases ho

variable [DecidableEq L]

/-- The trace and the mutex data agree after every run. -/
theorem history_of_run {maxHold : ℕ} {trace : List (Event L×Output L)} {st : State L}
    (h : Run (GpuLock.step maxHold) State.new trace st) : History trace st := by
  refine h.trace_invariant History ?_ fun _ _ _ _ _ hi _ hs => hi.step (step_effect hs)
  constructor <;> simp [State.new,Inner.new]

/-- The queue invariant holds after every run. -/
theorem queued_of_run {maxHold : ℕ} {trace : List (Event L×Output L)} {st : State L}
    (h : Run (GpuLock.step maxHold) State.new trace st) : Queued st := by
  refine h.invariant Queued ⟨exact_empty _ fun _ => rfl,fun _ => rfl⟩ ?_
  exact fun _ _ _ _ hi _ hs => hi.step (step_effect hs)

/-- The mutex data names a holder exactly if the trace has an unended grant. -/
theorem holder_iff_heldFor {maxHold : ℕ} {trace : List (Event L×Output L)} {st : State L}
    (h : Run (GpuLock.step maxHold) State.new trace st) (l : L) :
    st.holder=some l ↔ ∃ held,HeldFor trace l held := by
  constructor
  · intro hl
    obtain ⟨held,hh,rfl⟩ := Option.map_eq_some_iff.mp hl
    exact ⟨_,((history_of_run h).since held hh).2⟩
  · rintro ⟨held,pre,grant,post,hcut,hg,hno,-⟩
    by_contra hne
    obtain ⟨entry,hm,hend⟩ := (history_of_run h).ended pre grant post l hcut hg hne
    exact hno entry hm hend

/-- The step that ends a lease found it held, and leaves it spent. -/
theorem spent_of_ends {maxHold : ℕ} {trace : List (Event L×Output L)} {st st' : State L}
    (h : Run (GpuLock.step maxHold) State.new trace st) {l : L} {entry : Event L×Output L}
    (hs : GpuLock.step maxHold st entry.1=some (entry.2,st')) (hend : Ends l entry) :
    st.holder=some l ∧ Spent l st' := by
  have hl : st.holder=some l ∧ st'.holder=none ∧ st'.issued=st.issued := by
    obtain ⟨event,output⟩ := entry
    rcases hend with hend | hend <;> cases hend
    · rcases (step_effect hs).of_release with ⟨held,hheld,rfl,-,hnone,hissued⟩ | ⟨he,-⟩
      · exact ⟨by simp [State.holder,hheld],by simp [State.holder,hnone],hissued⟩
      · cases he
    · rcases (step_effect hs).of_reapExpired with ⟨held,hheld,he,-,hnone,hissued⟩ | ⟨he,-⟩
      · cases he
        exact ⟨by simp [State.holder,hheld],by simp [State.holder,hnone],hissued⟩
      · cases he
  refine ⟨hl.1,?_,by simp [hl.2.1]⟩
  obtain ⟨held,pre,grant,post,rfl,hg,-⟩ := (holder_iff_heldFor h l).mp hl.1
  rw [hl.2.2,(history_of_run h).issued]
  exact ⟨grant,by simp,hg⟩

/-- Between two grants the first lease ends. -/
theorem ends_between_grants {maxHold : ℕ} {pre mid post : List (Event L×Output L)}
    {grant grant' : Event L×Output L} {l l' : L} {st : State L}
    (h : Run (GpuLock.step maxHold) State.new (pre++grant::mid++grant'::post) st)
    (hg : Grants l grant) (hg' : Grants l' grant') : ∃ entry∈mid,Ends l entry := by
  obtain ⟨t,t',ht,-,hs,-⟩ := h.cut
  obtain ⟨event,output⟩ := grant'
  obtain ⟨caller,rfl⟩ : ∃ caller,output=.granted caller l' := hg'
  have hfree := (step_effect hs).of_granted
  exact (history_of_run ht).ended pre grant mid l rfl hg (by simp [State.holder,hfree])

/-- A release succeeds exactly for the lease that is held. -/
theorem release_ok_iff (maxHold : ℕ) (st : State L) (l : L) :
    ∃ result st',GpuLock.step maxHold st (.release l)=some (.released result,st') ∧
      (result=.ok () ↔ st.holder=some l) := by
  simp only [GpuLock.step,Option.some.injEq,Prod.mk.injEq,Output.released.injEq,State.holder]
  refine ⟨_,_,⟨rfl,rfl⟩,?_⟩
  unfold GpuLock.release
  cases hh : st.inner.held with
  | none => simp
  | some held => by_cases hl : held.lease=l <;> simp [hl]

/-- No release succeeds for a lease that has ended. -/
theorem no_release_after_end {maxHold : ℕ} {pre post : List (Event L×Output L)}
    {entry : Event L×Output L} {l : L} {st : State L}
    (h : Run (GpuLock.step maxHold) State.new (pre++entry::post) st) (hend : Ends l entry) :
    (Event.release l,Output.released (.ok ()))∉post := by
  intro hmem
  obtain ⟨t,t',ht,-,hs,hrest⟩ := h.cut
  obtain ⟨mid,rest,rfl⟩ := List.append_of_mem hmem
  obtain ⟨u,u',hu,-,hs',-⟩ := hrest.cut
  have hspent : Spent l u := hu.invariant (Spent l) (spent_of_ends ht hs hend).2
    fun _ _ _ _ hi _ hstep => hi.step (step_effect hstep)
  have hrun := (ht.next trivial hs).append hu
  exact hspent.2 (spent_of_ends hrun hs' (.inl rfl)).1

/-- An exclusive lease lock over whole runs: between two grants the first
lease ends; a release succeeds exactly for the lease held by the trace, once
and never after its end; a refused release changes nothing; a reap ends a
lease only past its bound and else changes nothing. -/
theorem gpuLock_exclusive_lease {maxHold : ℕ} {trace : List (Event L×Output L)} {st : State L}
    (h : Run (GpuLock.step maxHold) State.new trace st) :
    (∀ pre grant mid grant' post l l',trace=pre++grant::mid++grant'::post →
      Grants l grant → Grants l' grant' → ∃ entry∈mid,Ends l entry) ∧
    (∀ l,∃ result st',GpuLock.step maxHold st (.release l)=some (.released result,st') ∧
      (result=.ok () ↔ ∃ held,HeldFor trace l held)) ∧
    (∀ pre entry post l,trace=pre++entry::post → Ends l entry →
      (Event.release l,Output.released (.ok ()))∉post) ∧
    (∀ l st',GpuLock.step maxHold st (.release l)=
      some (.released (.error .unknownLease),st') → st'=st) ∧
    (∀ output st',GpuLock.step maxHold st .reapExpired=some (output,st') →
      output=.reaped none ∧ st'=st ∨
      ∃ l held,output=.reaped (some l) ∧ HeldFor trace l held ∧ maxHold<held) := by
  refine ⟨?_,fun l => ?_,?_,fun l st' hs => ?_,fun output st' hs => ?_⟩
  · rintro pre grant mid grant' post l l' rfl hg hg'
    exact ends_between_grants h hg hg'
  · obtain ⟨result,st',hs,hok⟩ := release_ok_iff maxHold st l
    exact ⟨result,st',hs,hok.trans (holder_iff_heldFor h l)⟩
  · rintro pre entry post l rfl hend
    exact no_release_after_end h hend
  · rcases (step_effect hs).of_release with ⟨-,-,-,he,-⟩ | ⟨-,-,rfl⟩
    · cases he
    · rfl
  · rcases (step_effect hs).of_reapExpired with ⟨held,hheld,rfl,ht,-⟩ | ⟨rfl,rfl⟩
    · exact .inr ⟨_,_,rfl,((history_of_run h).since held hheld).2,ht⟩
    · exact .inl ⟨rfl,rfl⟩

/-- A reap between two grants ends the first lease, on a concrete run. -/
theorem gpuLock_exclusive_lease_reaped :
    ∃ entry∈[(Event.acquire 8,Output.parked 1),(.tick 10,.ticked),
      (.reapExpired,.reaped (some 7))],Ends 7 entry := by
  have h : Run (GpuLock.step 5) (State.new : State ℕ) _ _ := run_of_exec
    (show exec (GpuLock.step 5) State.new [.acquire 7,.acquire 8,.tick 10,.reapExpired,
      .repoll 1 9]=some _ from rfl)
  exact (gpuLock_exclusive_lease h).1 [] (.acquire 7,.granted 0 7) _
    (.repoll 1 9,.granted 1 9) [] 7 9 rfl ⟨0,rfl⟩ ⟨1,rfl⟩

/-- No wake-up is lost: while no lease is held the queue is empty and every
live waiter's wake has been sent. So the next re-poll of any of them obtains
the lock, and a waiter that leaves strands nobody. -/
theorem gpuLock_no_lost_wakeup {maxHold : ℕ} {trace : List (Event L×Output L)} {st : State L}
    (h : Run (GpuLock.step maxHold) State.new trace st) (hfree : st.inner.held=none) :
    st.inner.waiters=[] ∧
    (∀ c p,st.callers.parked c=some p → p.sent=true ∧ ∀ lease,lease∉st.issued →
      ∃ st',GpuLock.step maxHold st (.repoll c lease)=some (.granted c lease,st')) ∧
    (∀ c event output st',event=.timeOut c ∨ event=.cancel c →
      GpuLock.step maxHold st event=some (output,st') → st'.inner.held=none ∧
      ∀ c' p,c'≠c → st.callers.parked c'=some p →
        st'.callers.parked c'=some p ∧ p.sent=true) := by
  have hq := queued_of_run h
  have hsent : ∀ c p,st.callers.parked c=some p → p.sent=true := fun c p hp =>
    hq.exact.sent_of_queue_nil hp (hq.free hfree)
  refine ⟨hq.free hfree,fun c p hp => ⟨hsent c p hp,fun lease hnew => ?_⟩,?_⟩
  · refine ⟨(st.attempt c (p.turn+1) lease).2,?_⟩
    have hgrant : (st.attempt c (p.turn+1) lease).1=.granted c lease := by
      simp only [State.attempt,acquireLocked,hfree]
    simp only [GpuLock.step,hp,hsent c p hp,hnew,not_false_eq_true,and_self,if_true,←hgrant]
  · intro c event output st' he hs
    have hst : st'={st with callers := st.callers.leave c} := by
      rcases he with rfl | rfl <;> simp only [GpuLock.step] at hs <;> split at hs <;> cases hs <;> rfl
    rw [hst]
    exact ⟨hfree,fun c' p hne hp => ⟨Callers.leave_parked_eq_some.mpr ⟨hne,hp⟩,hsent c' p hp⟩⟩

/-- Two waiters woken by one release: the first is dropped before its
re-poll, and the second obtains the lock. -/
theorem gpuLock_no_lost_wakeup_after_drop :
    ∃ st : State ℕ,(∃ trace,Run (GpuLock.step 5) State.new trace st) ∧
      ∃ st',GpuLock.step 5 st (.repoll 2 9)=some (.granted 2 9,st') := by
  have h : Run (GpuLock.step 5) (State.new : State ℕ) _ _ := run_of_exec
    (show exec (GpuLock.step 5) State.new [.acquire 7,.acquire 8,.acquire 8,.release 7,
      .cancel 1]=some _ from rfl)
  exact ⟨_,⟨_,h⟩,((gpuLock_no_lost_wakeup h rfl).2.1 2 ⟨(),0,true⟩ rfl).2 9 (by decide)⟩

end AivyxBroker.GpuLock
