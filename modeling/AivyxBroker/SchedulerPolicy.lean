import AivyxBroker.SchedulerRuns

/-!
# The admission policy

What one admission attempt decides, for every table and every hint: which
slot it takes, what it says about that slot's content, and what it changes.
Over runs, a call that prefers a slot of the table never returns another one,
however often it is woken and retried.
-/

namespace AivyxBroker.Scheduler

open RunInvariant WakeSignal

/-- The slot holds the hint's prefix, computed by the hint's model. -/
def Inner.Resident (inner : Inner) (hint : Option SlotHint) (s : ℕ) : Prop :=
  ∃ h slot,hint=some h ∧ inner.slots[s]?=some slot ∧
    slot.residentPrefix=some h.prefixHash ∧ slot.residentModel=h.model

/-- The test of residency is that of model and prefix together. -/
theorem holds_iff {inner : Inner} {hint : Option SlotHint} {s : ℕ} :
    inner.holds hint s=true ↔ inner.Resident hint s := by
  unfold Inner.holds Inner.Resident
  cases hint with
  | none => simp
  | some h => cases hs : inner.slots[s]? <;> simp [SlotHint.isResidentIn]

/-- What an admission changes: the occupancy and the stamp of the claimed
slot, and the clock. -/
structure Claims (inner inner' : Inner) (s : ℕ) : Prop where
  /-- The queues stay as they are. -/
  queues : inner'.slotWaiters=inner.slotWaiters ∧ inner'.globalWaiters=inner.globalWaiters
  /-- Other slots do too. -/
  others : ∀ t,t≠s → inner'.slots[t]?=inner.slots[t]?
  /-- The slot was free, and is busy and owned; what it holds is untouched. -/
  claimed : ∃ slot,inner.slots[s]?=some slot ∧ slot.busy=false ∧
    inner'.slots[s]?=some ⟨true,slot.residentPrefix,slot.residentModel,false,inner'.clock⟩
  /-- The clock counts the admission. -/
  clock : inner'.clock=(inner.clock+1)%2^64

/-- Claiming a free slot changes no more. -/
theorem claim_claims {inner : Inner} {s : ℕ} (h : inner.Free s) :
    Claims inner (inner.claim s) s := by
  obtain ⟨slot,hs,hb⟩ := h
  refine ⟨⟨rfl,rfl⟩,fun t ht => ?_,⟨slot,hs,hb,?_⟩,rfl⟩
  · rw [claim_slot,if_neg (Ne.symm ht)]
  · rw [claim_slot,if_pos rfl,hs]
    rfl

/-- A preference within range is the one that counts. -/
theorem preference_inRange {n p : ℕ} {hint : Option SlotHint}
    (hp : hint.bind SlotHint.preferredSlot=some p) (hlt : p<n) : preference n hint=some p :=
  preference_eq_some.mpr ⟨hp,hlt⟩

/-- A preference out of range counts as none. -/
theorem preference_none {n : ℕ} {hint : Option SlotHint}
    (h : ∀ p,hint.bind SlotHint.preferredSlot=some p → n≤p) : preference n hint=none := by
  cases hp : preference n hint with
  | none => rfl
  | some p =>
    obtain ⟨hp,hlt⟩ := preference_eq_some.mp hp
    have := h p hp
    omega

/-- A usable preference decides the slot of an admission. -/
theorem tryAdmitLocked_slot {inner inner' : Inner} {hint : Option SlotHint} {p : ℕ}
    {a : Admission} (hp : preference inner.slots.length hint=some p)
    (htry : tryAdmitLocked inner hint=some (a,inner')) : a.slotId=p := by
  obtain ⟨-,-,-,hp' | ⟨hp',-⟩⟩ := tryAdmitLocked_some htry
  · exact Option.some.inj (hp'.symm.trans hp)
  · rw [hp'] at hp
    cases hp

/-- A preferred slot of the table is admitted exactly if it is free. -/
theorem tryAdmitLocked_preferred {inner : Inner} {hint : Option SlotHint} {p : ℕ}
    (hp : preference inner.slots.length hint=some p) :
    (inner.Free p → ∃ ready inner',tryAdmitLocked inner hint=some (⟨p,ready⟩,inner')) ∧
    (¬inner.Free p → tryAdmitLocked inner hint=none) := by
  have hnone : tryAdmitLocked inner hint=none ↔ ¬inner.Free p := by
    rw [tryAdmitLocked_none_iff]
    simp [MayTake,hp]
  refine ⟨fun hfree => ?_,hnone.mpr⟩
  cases htry : tryAdmitLocked inner hint with
  | none => exact absurd hfree (hnone.mp htry)
  | some r =>
    obtain ⟨⟨s,ready⟩,inner'⟩ := r
    obtain rfl : s=p := tryAdmitLocked_slot hp htry
    exact ⟨ready,inner',rfl⟩

/-- The call of that name was made with `hint`, and still has it while it is
parked. -/
def MadeWith (c : ℕ) (hint : Option SlotHint) (st : State) : Prop :=
  c<st.callers.next ∧ ∀ p,st.callers.parked c=some p → p.arg=hint

/-- The call that an attempt is for keeps the hint it was made with. -/
theorem Attempts.madeWith {st : State} {event : Event} {callers : Callers (Option SlotHint)}
    {caller turn c : ℕ} {hint hint' : Option SlotHint}
    (hc : Attempts st event callers caller turn hint') (h : MadeWith c hint st) :
    c<callers.next ∧ (∀ p,callers.parked c=some p → p.arg=hint) ∧ (caller=c → hint'=hint) := by
  cases hc with
  | arrive => exact ⟨Nat.lt_succ_of_lt h.1,h.2,fun he => absurd he h.1.ne'⟩
  | retry _ p hp => exact ⟨h.1,h.2,fun he => h.2 p (he ▸ hp)⟩

/-- No step changes the hint of a call. -/
theorem MadeWith.step {c : ℕ} {hint : Option SlotHint} {st st' : State} {event : Event}
    {output : Output} (h : MadeWith c hint st) (heff : Effect st event output st') :
    MadeWith c hint st' := by
  cases heff with
  | admitted a hc =>
    obtain ⟨hlt,hp,-⟩ := hc.madeWith h
    refine ⟨hlt,fun p hp' => hp p ?_⟩
    exact (Callers.leave_parked_eq_some.mp hp').2
  | @parked _ callers caller turn hint' hc htry =>
    obtain ⟨hlt,hp,hown⟩ := hc.madeWith h
    refine ⟨hlt,fun p hp' => ?_⟩
    rw [Callers.park_parked] at hp'
    split at hp'
    · rename_i he
      cases hp'
      exact hown he.symm
    · exact hp p hp'
  | leave caller => exact ⟨h.1,fun p hp => h.2 p (Callers.leave_parked_eq_some.mp hp).2⟩
  | freed slotId =>
    rw [MadeWith,freed_callers,Callers.sendAll_next]
    refine ⟨h.1,fun p hp => ?_⟩
    obtain ⟨q,hq,rfl⟩ := Callers.sendAll_parked_eq_some.mp hp
    exact h.2 q hq
  | ignored => exact h
  | resident => exact h
  | seeded => exact h

/-- The stated policy of one admission attempt. -/
structure Policy (inner : Inner) (hint : Option SlotHint) : Prop where
  /-- A preferred slot of the table is taken if it is free, and otherwise
  nothing is. -/
  preferred : ∀ p,hint.bind SlotHint.preferredSlot=some p → p < inner.slots.length →
    (inner.Free p → ∃ ready inner',tryAdmitLocked inner hint=some (⟨p,ready⟩,inner')) ∧
    (¬inner.Free p → tryAdmitLocked inner hint=none)
  /-- Without a usable preference, only a busy table turns the call away. -/
  full : (∀ p,hint.bind SlotHint.preferredSlot=some p → inner.slots.length≤p) →
    (tryAdmitLocked inner hint=none ↔ ∀ s,¬inner.Free s)
  /-- Else the lowest-numbered free slot with the hint's content is taken. -/
  resident : (∀ p,hint.bind SlotHint.preferredSlot=some p → inner.slots.length≤p) →
    ∀ a inner',tryAdmitLocked inner hint=some (a,inner') →
      ∀ t,inner.Free t → inner.Resident hint t →
        inner.Resident hint a.slotId ∧ a.cacheReady=true ∧ a.slotId≤t
  /-- Or, if there is none, a free slot with the smallest stamp. -/
  oldest : (∀ p,hint.bind SlotHint.preferredSlot=some p → inner.slots.length≤p) →
    ∀ a inner',tryAdmitLocked inner hint=some (a,inner') →
      (∀ t,inner.Free t → ¬inner.Resident hint t) → ∀ (slot : SlotState) (t : ℕ) (slot' : SlotState),
        inner.slots[a.slotId]?=some slot → inner.slots[t]?=some slot' → slot'.busy=false →
          slot.lastUsed ≤ slot'.lastUsed
  /-- The call is told whether the slot held its content before. -/
  ready : ∀ a inner',tryAdmitLocked inner hint=some (a,inner') →
    (a.cacheReady=true ↔ inner.Resident hint a.slotId) ∧ (hint=none → a.cacheReady=false)
  /-- A success claims the slot and changes nothing else. -/
  success : ∀ a inner',tryAdmitLocked inner hint=some (a,inner') → Claims inner inner' a.slotId
  /-- A failure leaves the table and the clock to whoever queues. -/
  failure : tryAdmitLocked inner hint=none → ∀ tx,
    admitLocked inner hint tx=(none,enqueue inner hint tx) ∧
      (enqueue inner hint tx).slots=inner.slots ∧ (enqueue inner hint tx).clock=inner.clock

/-- Every attempt follows the policy. -/
theorem policy (inner : Inner) (hint : Option SlotHint) : Policy inner hint where
  preferred _ hp hlt := tryAdmitLocked_preferred (preference_inRange hp hlt)
  full h := by
    rw [tryAdmitLocked_none_iff]
    simp [MayTake,preference_none h]
  resident h a inner' htry t ht hr := by
    obtain ⟨-,-,hready,hp | ⟨-,hfirst⟩⟩ := tryAdmitLocked_some htry
    · rw [preference_none h] at hp
      cases hp
    · obtain ⟨hh,hle⟩ := hfirst.resident t ht (holds_iff.mpr hr)
      exact ⟨holds_iff.mp hh,hready.trans hh,hle⟩
  oldest h a inner' htry hno slot t slot' hs ht hb := by
    obtain ⟨-,-,-,hp | ⟨-,hfirst⟩⟩ := tryAdmitLocked_some htry
    · rw [preference_none h] at hp
      cases hp
    · have hcold : ∀ t,inner.Free t → inner.holds hint t=false := fun t ht =>
        Bool.eq_false_iff.mpr fun hh => hno t ht (holds_iff.mp hh)
      exact (hfirst.oldest hcold slot t slot' hs ht hb).1
  ready a inner' htry := by
    have hready := (tryAdmitLocked_some htry).2.2.1
    refine ⟨by rw [hready,holds_iff],fun hnone => ?_⟩
    rw [hready,hnone]
    rfl
  success a inner' htry := by
    obtain ⟨hfree,rfl,-⟩ := tryAdmitLocked_some htry
    exact claim_claims hfree
  failure htry tx := ⟨by rw [admitLocked,htry],enqueue_slots ..,enqueue_clock ..⟩

/-- An admission of a call that prefers a slot of the table is on that slot. -/
theorem MadeWith.admitted {n c p : ℕ} {hint : Option SlotHint} {st st' : State} {event : Event}
    {a : Admission} (h : MadeWith c hint st) (hq : Queued n st)
    (hp : preference n hint=some p) (heff : Effect st event (.admitted c a) st') :
    a.slotId=p := by
  obtain ⟨callers,turn,hint',hc,htry,-⟩ := heff.of_admitted
  obtain ⟨-,-,hown⟩ := hc.madeWith h
  obtain rfl := hown rfl
  exact tryAdmitLocked_slot (hq.size.symm ▸ hp) htry

/-- A new call is made with its hint, and an admission at once is on the slot
it prefers. -/
theorem admitCall_madeWith {n c : ℕ} {hint : Option SlotHint} {st st' : State}
    {output : Output} (hq : Queued n st) (hs : step st (.admitCall hint)=some (output,st'))
    (hout : output=.parked c ∨ ∃ a,output=.admitted c a) : MadeWith c hint st' ∧
      ∀ a,output=.admitted c a → ∀ p,preference n hint=some p → a.slotId=p := by
  rcases (step_effect hs).of_admitCall with ⟨a,htry,rfl,rfl⟩ | ⟨htry,rfl,rfl⟩
  · obtain ⟨a',ha⟩ := hout.resolve_left nofun
    cases ha
    refine ⟨⟨Nat.lt_succ_self _,fun p hp => ?_⟩,fun a' ha p hp => ?_⟩
    · exact absurd rfl (Callers.leave_parked_eq_some.mp hp).1
    · cases ha
      exact tryAdmitLocked_slot (hq.size.symm ▸ hp) htry
  · have hparked := hout.resolve_right nofun
    cases hparked
    refine ⟨⟨Nat.lt_succ_self _,fun p hp => ?_⟩,fun a ha => by cases ha⟩
    rw [Callers.park_parked,if_pos rfl] at hp
    cases hp
    rfl

/-- Every admission attempt follows the policy, in every state and for every
hint. So in every run, a call that prefers a slot of the table is only ever
admitted to that slot, whether at once or after any number of wakes. -/
theorem admission_policy :
    (∀ inner hint,Policy inner hint) ∧
    ∀ n trace st,Run step (State.new n) trace st → ∀ pre hint output post c,
      trace=pre++(.admitCall hint,output)::post →
      (output=.parked c ∨ ∃ a,output=.admitted c a) →
      ∀ p,hint.bind SlotHint.preferredSlot=some p → p<n →
        ∀ event a,(event,Output.admitted c a)∈(.admitCall hint,output)::post → a.slotId=p := by
  refine ⟨policy,fun n trace st h pre hint output post c htrace hout p hp hlt event a hm => ?_⟩
  rw [htrace] at h
  have hpref := preference_inRange hp hlt
  obtain ⟨t,t',ht,-,hs,hrest⟩ := h.cut
  have hq := queued_of_run ht
  obtain ⟨hmade,hfirst⟩ := admitCall_madeWith hq hs hout
  rcases List.mem_cons.mp hm with he | hm
  · cases he
    exact hfirst a rfl p hpref
  · obtain ⟨mid,rest,rfl⟩ := List.append_of_mem hm
    obtain ⟨u,u',hu,-,hs',-⟩ := hrest.cut
    have hqu : Queued n u := queued_of_run ((ht.next trivial hs).append hu)
    have hmu : MadeWith c hint u := hu.invariant (MadeWith c hint) hmade
      fun _ _ _ _ hi _ hstep => hi.step (step_effect hstep)
    exact hmu.admitted hqu hpref (step_effect hs')

end AivyxBroker.Scheduler
