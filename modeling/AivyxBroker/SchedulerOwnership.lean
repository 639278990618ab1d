import AivyxBroker.SchedulerRuns

/-!
# Slot ownership

An admission hands its slot to a guard that releases it when dropped; nothing
else releases a slot. Startup seeds slots busy before the first admission, and
reconciliation may run at any moment. Guards are ghost state of the
scheduler, and exact accounting of the busy slots is the invariant: a slot is
busy exactly if it has a guard or its seeding was not reconciled yet.
-/

namespace AivyxBroker.Scheduler

open RunInvariant WakeSignal

/-- The scheduler with the guards of its admissions. -/
structure Guarded where
  /-- The scheduler and its parked calls. -/
  sched : State
  /-- The slot that the live guard of an admitted call will release. -/
  guards : ℕ → Option ℕ
  /-- An admission has happened, so startup is over. -/
  admittedOnce : Bool

/-- A scheduler operation, or the drop of an admission's guard. -/
inductive GuardedEvent where
  /-- An operation other than a release. -/
  | call (event : Event)
  /-- The guard of this admitted call is dropped. -/
  | dropGuard (caller : ℕ)
  deriving DecidableEq

/-- A newly built scheduler has admitted nobody. -/
def Guarded.new (numSlots : ℕ) : Guarded := ⟨State.new numSlots,fun _ => none,false⟩

/-- Releases are left to guards, and seeding to startup. -/
def Guarded.permits (st : Guarded) : Event → Bool
  | .release _ => false
  | .seedBusy _ => !st.admittedOnce
  | _ => true

/-- The successor state: an admission comes with its guard. -/
def Guarded.record (st : Guarded) (sched : State) : Output → Guarded
  | .admitted caller a => ⟨sched,Function.update st.guards caller (some a.slotId),true⟩
  | _ => {st with sched := sched}

/-- Scheduler steps with guards: a guard releases its slot when dropped. -/
def guardedStep (st : Guarded) : GuardedEvent → Option (Output×Guarded)
  | .call event =>
    if st.permits event=true then
      (step st.sched event).map fun result => (result.1,st.record result.2 result.1)
    else none
  | .dropGuard caller =>
    match st.guards caller with
    | some slotId =>
      (step st.sched (.release slotId)).map fun result =>
        (result.1,⟨result.2,Function.update st.guards caller none,st.admittedOnce⟩)
    | none => none

/-- A step with guards is a scheduler step: the event as given, or the
release that a dropped guard makes. -/
inductive GuardedEffect (st : Guarded) : GuardedEvent → Output → Guarded → Prop
  /-- An operation, guarding the slot if it was an admission. -/
  | call {event : Event} {output : Output} {sched : State} (hp : st.permits event=true)
      (heff : Effect st.sched event output sched) :
      GuardedEffect st (.call event) output (st.record sched output)
  /-- A guard drop. -/
  | dropped {output : Output} {sched : State} (caller slotId : ℕ)
      (hg : st.guards caller=some slotId)
      (heff : Effect st.sched (.release slotId) output sched) :
      GuardedEffect st (.dropGuard caller) output
        ⟨sched,Function.update st.guards caller none,st.admittedOnce⟩

/-- The guarded step function does nothing but these effects. -/
theorem guardedStep_effect {st st' : Guarded} {event : GuardedEvent} {output : Output}
    (h : guardedStep st event=some (output,st')) : GuardedEffect st event output st' := by
  cases event with
  | call event =>
    simp only [guardedStep] at h
    split at h
    · rename_i hp
      obtain ⟨⟨output',sched⟩,hs,he⟩ := Option.map_eq_some_iff.mp h
      cases he
      exact .call hp (step_effect hs)
    · cases h
  | dropGuard caller =>
    simp only [guardedStep] at h
    split at h
    · rename_i slotId hg
      obtain ⟨⟨output',sched⟩,hs,he⟩ := Option.map_eq_some_iff.mp h
      cases he
      exact .dropped caller slotId hg (step_effect hs)
    · cases h

@[simp] theorem Guarded.record_sched (st : Guarded) (sched : State) (output : Output) :
    (st.record sched output).sched=sched := by
  cases output <;> rfl

/-- Without its guards, a step is one of the scheduler with the same output. -/
theorem GuardedEffect.sched {st st' : Guarded} {event : GuardedEvent} {output : Output}
    (h : GuardedEffect st event output st') : ∃ event',Effect st.sched event' output st'.sched := by
  cases h with
  | call _ heff => exact ⟨_,by rwa [Guarded.record_sched]⟩
  | dropped _ _ _ heff => exact ⟨_,heff⟩

/-- Slot `s` was seeded busy, and not reconciled since. -/
def PendingSeed (trace : List (GuardedEvent×Output)) (s : ℕ) : Prop :=
  ∃ pre output post,trace=pre++(.call (.seedBusy s),output)::post ∧
    ∀ entry∈post,entry.1≠.call (.reconcileSeededIdle s)

/-- Seeding starts the wait for a reconciliation and reconciling ends it. -/
theorem pendingSeed_snoc {trace : List (GuardedEvent×Output)} {event : GuardedEvent}
    {output : Output} {s : ℕ} : PendingSeed (trace++[(event,output)]) s ↔
      event=.call (.seedBusy s) ∨
        PendingSeed trace s ∧ event≠.call (.reconcileSeededIdle s) := by
  constructor
  · rintro ⟨pre,output',post,he,hpost⟩
    rcases cut_of_snoc he with ⟨-,hentry,-⟩ | ⟨mid,rfl,rfl⟩
    · exact .inl (congrArg Prod.fst hentry).symm
    · exact .inr ⟨⟨pre,output',mid,rfl,fun entry hm => hpost entry (by simp [hm])⟩,
        hpost (event,output) (by simp)⟩
  · rintro (rfl | ⟨⟨pre,output',post,rfl,hpost⟩,hne⟩)
    · exact ⟨trace,output,[],rfl,by simp⟩
    · refine ⟨pre,output',post++[(event,output)],by simp,fun entry hm => ?_⟩
      rcases List.mem_append.mp hm with hm | hm
      · exact hpost entry hm
      · rw [List.mem_singleton.mp hm]
        exact hne

/-- The account of one slot: a guarded one is busy and broker-owned, one with
a pending seeding is busy and not, and no other slot is busy. -/
structure Accounted (guarded pending : Prop) (slot : SlotState) : Prop where
  /-- A guarded slot is busy, and was claimed since any seeding. -/
  held : guarded → slot.busy=true ∧ slot.seededUnowned=false
  /-- A slot with a pending seeding is busy and unclaimed. -/
  seeded : pending → slot.busy=true ∧ slot.seededUnowned=true
  /-- A busy slot is one of the two. -/
  busy : slot.busy=true → guarded ∨ pending

/-- An account depends on the truth of its two conditions only. -/
theorem Accounted.congr {guarded guarded' pending pending' : Prop} {slot slot' : SlotState}
    (h : Accounted guarded pending slot) (hg : guarded' ↔ guarded) (hp : pending' ↔ pending)
    (hb : slot'.busy=slot.busy) (hs : slot'.seededUnowned=slot.seededUnowned) :
    Accounted guarded' pending' slot' := by
  rw [hg,hp]
  exact ⟨by simpa only [hb,hs] using h.held,by simpa only [hb,hs] using h.seeded,
    by simpa only [hb] using h.busy⟩

/-- The invariant of guarded runs. -/
structure Owned (n : ℕ) (trace : List (GuardedEvent×Output)) (st : Guarded) : Prop where
  /-- The scheduler's own invariant. -/
  queued : Queued n st.sched
  /-- Guards belong to named calls that are not waiting any more. -/
  named : ∀ c s,st.guards c=some s → c < st.sched.callers.next ∧ st.sched.callers.parked c=none
  /-- Before the first admission there is no guard. -/
  startup : st.admittedOnce=false → ∀ c,st.guards c=none
  /-- No two guards release one slot. -/
  exclusive : ∀ c c' s,st.guards c=some s → st.guards c'=some s → c=c'
  /-- Guards release slots of the table. -/
  range : ∀ c s,st.guards c=some s → s<n
  /-- Every slot's account is right. -/
  account : ∀ s slot,st.sched.inner.slots[s]?=some slot →
    Accounted (∃ c,st.guards c=some s) (PendingSeed trace s) slot

variable {n : ℕ} {trace : List (GuardedEvent×Output)} {st st' : Guarded}

/-- A step of the scheduler that touches neither occupancy nor names of
guarded calls keeps the invariant, if it is no seeding or reconciliation. -/
theorem Owned.frame {sched : State} {event : GuardedEvent} {output : Output} (h : Owned n trace st)
    (hq : Queued n sched)
    (hnamed : ∀ c s,st.guards c=some s → c < sched.callers.next ∧ sched.callers.parked c=none)
    (hslots : ∀ (s : ℕ) (slot : SlotState),sched.inner.slots[s]?=some slot → ∃ old : SlotState,
      st.sched.inner.slots[s]?=some old ∧ slot.busy=old.busy ∧
        slot.seededUnowned=old.seededUnowned)
    (hpending : ∀ s,PendingSeed (trace++[(event,output)]) s ↔ PendingSeed trace s) :
    Owned n (trace++[(event,output)]) {st with sched := sched} where
  queued := hq
  named := hnamed
  startup := h.startup
  exclusive := h.exclusive
  range := h.range
  account s slot hs := by
    obtain ⟨old,hold,hb,hu⟩ := hslots s slot hs
    exact (h.account s old hold).congr Iff.rfl (hpending s) hb hu

/-- A call that starts a pass of the loop has no guard, and the other calls
keep theirs. -/
theorem Owned.attempts {event : Event} {callers : Callers (Option SlotHint)} {caller turn : ℕ}
    {hint : Option SlotHint} (h : Owned n trace st)
    (hc : Attempts st.sched event callers caller turn hint) :
    st.guards caller=none ∧ caller<callers.next ∧
      (∀ c s,st.guards c=some s → c≠caller ∧ c<callers.next ∧ callers.parked c=none) ∧
      (∀ s,event≠.seedBusy s ∧ event≠.reconcileSeededIdle s) := by
  have hnone : st.guards caller=none := by
    cases hg : st.guards caller with
    | none => rfl
    | some s =>
      obtain ⟨hlt,hparked⟩ := h.named caller s hg
      cases hc with
      | arrive => exact absurd hlt (Nat.lt_irrefl _)
      | retry _ p hp =>
        rw [hp] at hparked
        cases hparked
  refine ⟨hnone,(h.queued.attempts hc).2.1,fun c s hg => ?_,fun s => ?_⟩
  · obtain ⟨hlt,hparked⟩ := h.named c s hg
    refine ⟨?_,?_⟩
    · rintro rfl
      rw [hnone] at hg
      cases hg
    · cases hc with
      | arrive => exact ⟨Nat.lt_succ_of_lt hlt,hparked⟩
      | retry => exact ⟨hlt,hparked⟩
  · cases hc <;> exact ⟨nofun,nofun⟩

/-- A free slot has no guard. -/
theorem Owned.unguarded (h : Owned n trace st) {s : ℕ} (hs : st.sched.inner.Free s) :
    ∀ c,st.guards c≠some s := by
  obtain ⟨slot,hslot,hb⟩ := hs
  intro c hg
  rw [((h.account _ _ hslot).held ⟨c,hg⟩).1] at hb
  cases hb

/-- An admission claims a slot that no guard has, and guards it. -/
theorem Owned.admitted {event : Event} {callers : Callers (Option SlotHint)} {caller turn : ℕ}
    {hint : Option SlotHint} {a : Admission} (h : Owned n trace st)
    (hc : Attempts st.sched event callers caller turn hint)
    (htry : tryAdmitLocked st.sched.inner hint=some (a,st.sched.inner.claim a.slotId))
    (hq : Queued n ⟨st.sched.inner.claim a.slotId,callers.leave caller⟩) :
    Owned n (trace++[(.call event,.admitted caller a)])
      (st.record ⟨st.sched.inner.claim a.slotId,callers.leave caller⟩ (.admitted caller a)) := by
  obtain ⟨hnone,hlt,hother,hevent⟩ := h.attempts hc
  have hfree := h.unguarded (tryAdmitLocked_some htry).1
  obtain ⟨slot,hslot,hb⟩ := (tryAdmitLocked_some htry).1
  have hacc := h.account _ _ hslot
  have hidle : ¬PendingSeed trace a.slotId := by
    intro hp
    rw [(hacc.seeded hp).1] at hb
    cases hb
  have hguards : ∀ c s,Function.update st.guards caller (some a.slotId) c=some s ↔
      c=caller ∧ s=a.slotId ∨ c≠caller ∧ st.guards c=some s := by
    intro c s
    by_cases hcc : c=caller
    · simp [hcc,eq_comm]
    · simp [hcc]
  have hpending : ∀ s,PendingSeed (trace++[(.call event,.admitted caller a)]) s ↔
      PendingSeed trace s := by
    intro s
    rw [pendingSeed_snoc]
    simp [(hevent s).1,(hevent s).2]
  refine ⟨hq,fun c s hg => ?_,nofun,fun c c' s hg hg' => ?_,fun c s hg => ?_,fun s slot' hs => ?_⟩
  · rcases (hguards c s).mp hg with ⟨rfl,-⟩ | ⟨hne,hg⟩
    · exact ⟨hlt,by simp [Guarded.record,Callers.leave_parked]⟩
    · obtain ⟨-,hlt',hparked⟩ := hother c s hg
      exact ⟨hlt',by simpa [Guarded.record,Callers.leave_parked,hne] using hparked⟩
  · rcases (hguards c s).mp hg with ⟨hc,hs⟩ | ⟨-,hold⟩ <;>
      rcases (hguards c' s).mp hg' with ⟨hc',hs'⟩ | ⟨-,hold'⟩
    · exact hc.trans hc'.symm
    · exact absurd (hs ▸ hold') (hfree c')
    · exact absurd (hs' ▸ hold) (hfree c)
    · exact h.exclusive c c' s hold hold'
  · rcases (hguards c s).mp hg with ⟨-,rfl⟩ | ⟨-,hg⟩
    · rw [←h.queued.size]
      exact (List.getElem?_eq_some_iff.mp hslot).1
    · exact h.range c s hg
  · change (st.sched.inner.claim a.slotId).slots[s]?=some slot' at hs
    rw [claim_slot] at hs
    by_cases hsa : a.slotId=s
    · subst hsa
      rw [if_pos rfl,hslot] at hs
      cases hs
      exact ⟨fun _ => ⟨rfl,rfl⟩,fun hp => absurd ((hpending _).mp hp) hidle,
        fun _ => .inl ⟨caller,(hguards _ _).mpr (.inl ⟨rfl,rfl⟩)⟩⟩
    · rw [if_neg hsa] at hs
      refine (h.account s slot' hs).congr ?_ (hpending s) rfl rfl
      refine exists_congr fun c => (hguards c s).trans ?_
      constructor
      · rintro (⟨-,rfl⟩ | ⟨-,hg⟩)
        · exact absurd rfl hsa
        · exact hg
      · exact fun hg => .inr ⟨(hother c s hg).1,hg⟩

/-- Setting a slot free keeps the invariant, once its guard or its pending
seeding is over. -/
theorem Owned.freed {guards : ℕ → Option ℕ} {event : GuardedEvent} {output : Output} {slotId : ℕ}
    (h : Owned n trace st) (hq : Queued n (st.sched.freed slotId))
    (hguards : ∀ c s,guards c=some s ↔ s≠slotId ∧ st.guards c=some s)
    (hpending : ∀ s,PendingSeed (trace++[(event,output)]) s ↔ s≠slotId ∧ PendingSeed trace s) :
    Owned n (trace++[(event,output)]) ⟨st.sched.freed slotId,guards,st.admittedOnce⟩ where
  queued := hq
  named c s hg := by
    obtain ⟨hlt,hparked⟩ := h.named c s ((hguards c s).mp hg).2
    dsimp only
    rw [freed_callers,Callers.sendAll_next,Callers.sendAll_parked,hparked]
    exact ⟨hlt,rfl⟩
  startup hstart c := by
    cases hg : guards c with
    | none => exact hg
    | some s =>
      have hold := ((hguards c s).mp hg).2
      rw [h.startup hstart c] at hold
      cases hold
  exclusive c c' s hg hg' :=
    h.exclusive c c' s ((hguards c s).mp hg).2 ((hguards c' s).mp hg').2
  range c s hg := h.range c s ((hguards c s).mp hg).2
  account s slot hs := by
    dsimp only at hs ⊢
    rw [freed_slot] at hs
    by_cases hss : slotId=s
    · subst hss
      rw [if_pos rfl] at hs
      obtain ⟨old,-,rfl⟩ := Option.map_eq_some_iff.mp hs
      exact ⟨fun ⟨c,hg⟩ => absurd rfl ((hguards c _).mp hg).1,
        fun hp => absurd rfl ((hpending _).mp hp).1,nofun⟩
    · rw [if_neg hss] at hs
      refine (h.account s slot hs).congr (exists_congr fun c => ?_) ?_ rfl rfl
      · simp [hguards,Ne.symm hss]
      · simp [hpending,Ne.symm hss]

/-- Every call keeps the invariant. -/
theorem Owned.call {event : Event} {output : Output} {sched : State} (h : Owned n trace st)
    (hp : st.permits event=true) (heff : Effect st.sched event output sched) :
    Owned n (trace++[(.call event,output)]) (st.record sched output) := by
  have hq := h.queued.step heff
  cases heff with
  | admitted a hc htry => exact h.admitted hc htry hq
  | parked hc htry =>
    obtain ⟨-,hlt,hother,hevent⟩ := h.attempts hc
    refine h.frame hq (fun c s hg => ?_) (fun s slot hs => ⟨slot,?_,rfl,rfl⟩) fun s => ?_
    · obtain ⟨hne,hlt,hparked⟩ := hother c s hg
      exact ⟨hlt,by simpa [Callers.park_parked,hne] using hparked⟩
    · simpa using hs
    · rw [pendingSeed_snoc]
      simp [(hevent s).1,(hevent s).2]
  | leave caller p _ he =>
    have hrecord : st.record {st.sched with callers := st.sched.callers.leave caller} output=
        {st with sched := {st.sched with callers := st.sched.callers.leave caller}} := by
      rcases he with ⟨-,rfl⟩ | ⟨-,rfl⟩ <;> rfl
    rw [hrecord]
    refine h.frame hq (fun c s hg => ?_) (fun s slot hs => ⟨slot,hs,rfl,rfl⟩) fun s => ?_
    · obtain ⟨hlt,hparked⟩ := h.named c s hg
      exact ⟨hlt,by simp [Callers.leave_parked,hparked]⟩
    · rw [pendingSeed_snoc]
      rcases he with ⟨rfl,-⟩ | ⟨rfl,-⟩ <;> simp
  | freed slotId slot hs he =>
    rcases he with rfl | ⟨rfl,hu⟩
    · cases hp
    · have hfree : ∀ c,st.guards c≠some slotId := by
        intro c hg
        rw [((h.account _ _ hs).held ⟨c,hg⟩).2] at hu
        cases hu
      refine h.freed hq (fun c s => ⟨fun hg => ⟨?_,hg⟩,And.right⟩) fun s => ?_
      · rintro rfl
        exact hfree c hg
      · rw [pendingSeed_snoc]
        simp [eq_comm,and_comm]
  | ignored slotId he =>
    rcases he with ⟨rfl,-⟩ | ⟨rfl,hu⟩
    · cases hp
    · refine ⟨hq,h.named,h.startup,h.exclusive,h.range,fun s slot hs => ?_⟩
      refine (h.account s slot hs).congr Iff.rfl ?_ rfl rfl
      rw [pendingSeed_snoc]
      have hne : PendingSeed trace s → slotId≠s := by
        rintro hpend rfl
        have hseeded := ((h.account _ _ hs).seeded hpend).2
        rw [hu slot hs] at hseeded
        cases hseeded
      simpa using hne
  | resident slotId prefixHash model he =>
    refine h.frame hq h.named (fun s slot hs => ?_) fun s => ?_
    · rw [modifySlot_slot] at hs
      split at hs
      · obtain ⟨old,hold,rfl⟩ := Option.map_eq_some_iff.mp hs
        exact ⟨old,hold,rfl,rfl⟩
      · exact ⟨slot,hs,rfl,rfl⟩
    · rw [pendingSeed_snoc]
      rcases he with ⟨_,rfl,-⟩ | ⟨rfl,-⟩ <;> simp
  | seeded slotId =>
    have hstart : st.admittedOnce=false := by simpa [Guarded.permits] using hp
    refine ⟨hq,h.named,h.startup,h.exclusive,h.range,fun s slot hs => ?_⟩
    change (seedBusy st.sched.inner slotId).slots[s]?=some slot at hs
    rw [seedBusy,modifySlot_slot] at hs
    have hnone : ¬∃ c,st.guards c=some s := by
      rintro ⟨c,hg⟩
      rw [h.startup hstart c] at hg
      cases hg
    by_cases hss : slotId=s
    · subst hss
      rw [if_pos rfl] at hs
      obtain ⟨old,-,rfl⟩ := Option.map_eq_some_iff.mp hs
      exact ⟨fun hg => absurd hg hnone,fun _ => ⟨rfl,rfl⟩,
        fun _ => .inr (pendingSeed_snoc.mpr (.inl rfl))⟩
    · rw [if_neg hss] at hs
      refine (h.account s slot hs).congr Iff.rfl ?_ rfl rfl
      rw [pendingSeed_snoc]
      simp [hss]

/-- Dropping a guard frees its slot and keeps the invariant. -/
theorem Owned.dropGuard {caller slotId : ℕ} {output : Output} {sched : State}
    (h : Owned n trace st) (hg : st.guards caller=some slotId)
    (heff : Effect st.sched (.release slotId) output sched) :
    Owned n (trace++[(.dropGuard caller,output)])
      ⟨sched,Function.update st.guards caller none,st.admittedOnce⟩ := by
  have hq := h.queued.step heff
  have hlt := h.range _ _ hg
  rw [←h.queued.size] at hlt
  have hslot := List.getElem?_eq_getElem hlt
  have hidle : ¬PendingSeed trace slotId := by
    intro hp
    have hs := ((h.account _ _ hslot).seeded hp).2
    rw [((h.account _ _ hslot).held ⟨caller,hg⟩).2] at hs
    cases hs
  obtain ⟨-,⟨slot,-,rfl⟩ | ⟨hnone,-⟩⟩ := heff.of_release
  · refine h.freed hq (fun c s => ?_) fun s => ?_
    · by_cases hc : c=caller
      · subst hc
        simp [hg,eq_comm]
      · have hne : st.guards c=some s → s≠slotId := by
          rintro hcs rfl
          exact hc (h.exclusive _ _ _ hcs hg)
        simpa [hc] using hne
    · have hne : PendingSeed trace s → s≠slotId := by
        rintro hp rfl
        exact hidle hp
      rw [pendingSeed_snoc]
      simpa using hne
  · rw [hslot] at hnone
    cases hnone

/-- Every guarded step keeps the invariant. -/
theorem Owned.step {event : GuardedEvent} {output : Output} (h : Owned n trace st)
    (heff : GuardedEffect st event output st') : Owned n (trace++[(event,output)]) st' := by
  cases heff with
  | call hp heff => exact h.call hp heff
  | dropped caller slotId hg heff => exact h.dropGuard hg heff

/-- A new scheduler has no guards, and no busy slots. -/
theorem owned_new (n : ℕ) : Owned n [] (Guarded.new n) := by
  refine ⟨queued_new n,nofun,fun _ _ => rfl,nofun,nofun,fun s slot hs => ?_⟩
  have hb : slot=SlotState.default := (List.mem_replicate.mp (List.mem_of_getElem? hs)).2
  subst hb
  refine ⟨fun ⟨c,hg⟩ => (by cases hg),?_,nofun⟩
  rintro ⟨pre,output,post,he,-⟩
  simp at he

/-- The invariant holds after every guarded run. -/
theorem owned_of_run (h : Run guardedStep (Guarded.new n) trace st) : Owned n trace st :=
  h.trace_invariant (Owned n) (owned_new n) fun _ _ _ _ _ hi _ hs =>
    hi.step (guardedStep_effect hs)

/-- Only seedings come before a seeding, as at the broker's startup. -/
def SeedsFirst (trace : List (GuardedEvent×Output)) : Prop :=
  ∀ pre s output post,trace=pre++(.call (.seedBusy s),output)::post →
    ∀ entry∈pre,∃ s',entry.1=.call (.seedBusy s')

/-- Exclusive ownership without leaks, in a state and the trace to it. -/
structure ExclusiveOwnership (n : ℕ) (trace : List (GuardedEvent×Output)) (st : Guarded) : Prop
    where
  /-- A slot has at most one live owner. -/
  owner : ∀ c c' s,st.guards c=some s → st.guards c'=some s → c=c'
  /-- An owned slot is busy and claimed, so reconciling it changes nothing. -/
  held : ∀ c s,st.guards c=some s →
    (∃ slot,st.sched.inner.slots[s]?=some slot ∧ slot.busy=true ∧ slot.seededUnowned=false) ∧
      reconcileSeededIdle st.sched.inner st.sched.callers s=(st.sched.inner,st.sched.callers)
  /-- A busy slot without an owner was seeded and not reconciled since. -/
  unowned : ∀ s slot,st.sched.inner.slots[s]?=some slot → slot.busy=true →
    (∀ c,st.guards c≠some s) → PendingSeed trace s
  /-- If nothing came before the seedings, it was not reconciled at all. -/
  unreconciled : SeedsFirst trace → ∀ s slot,st.sched.inner.slots[s]?=some slot →
    slot.busy=true → (∀ c,st.guards c≠some s) →
      (∃ output,(.call (.seedBusy s),output)∈trace) ∧
        ∀ entry∈trace,entry.1≠.call (.reconcileSeededIdle s)
  /-- A seeded slot stays busy and unowned until it is reconciled. -/
  pending : ∀ s,s<n → PendingSeed trace s → (∀ c,st.guards c≠some s) ∧
    ∃ slot,st.sched.inner.slots[s]?=some slot ∧ slot.busy=true
  /-- No admission ever got a slot with a pending seeding. -/
  admitted : ∀ pre event c a post,trace=pre++(event,.admitted c a)::post →
    ¬PendingSeed pre a.slotId

/-- An admission takes a slot without a pending seeding. -/
theorem Owned.not_pending_of_admitted {event : GuardedEvent} {c : ℕ} {a : Admission}
    (h : Owned n trace st) (heff : GuardedEffect st event (.admitted c a) st') :
    ¬PendingSeed trace a.slotId := by
  have hclaimed : ∀ {event : Event} {sched : State},
      Effect st.sched event (.admitted c a) sched → st.sched.inner.Free a.slotId := by
    intro event sched heff
    obtain ⟨callers,turn,hint,-,htry,-⟩ := heff.of_admitted
    exact (tryAdmitLocked_some htry).1
  obtain ⟨slot,hs,hb⟩ : st.sched.inner.Free a.slotId := by
    cases heff with
    | call _ heff => exact hclaimed heff
    | dropped _ _ _ heff => exact hclaimed heff
  intro hp
  rw [((h.account _ _ hs).seeded hp).1] at hb
  cases hb

/-- In every run, ownership of slots is exclusive and no slot leaks. -/
theorem scheduler_exclusive_ownership (h : Run guardedStep (Guarded.new n) trace st) :
    ExclusiveOwnership n trace st := by
  have hi := owned_of_run h
  have unowned : ∀ s slot,st.sched.inner.slots[s]?=some slot → slot.busy=true →
      (∀ c,st.guards c≠some s) → PendingSeed trace s := by
    intro s slot hs hb hno
    rcases (hi.account s slot hs).busy hb with ⟨c,hg⟩ | hp
    · exact absurd hg (hno c)
    · exact hp
  refine ⟨hi.exclusive,fun c s hg => ?_,unowned,fun hfirst s slot hs hb hno => ?_,
    fun s hlt hp => ?_,?_⟩
  · have hlt := hi.range c s hg
    rw [←hi.queued.size] at hlt
    have hslot := List.getElem?_eq_getElem hlt
    obtain ⟨hb,hu⟩ := (hi.account _ _ hslot).held ⟨c,hg⟩
    exact ⟨⟨_,hslot,hb,hu⟩,by simp [reconcileSeededIdle,hslot,hu]⟩
  · obtain ⟨pre,output,post,rfl,hpost⟩ := unowned s slot hs hb hno
    refine ⟨⟨output,by simp⟩,fun entry hm => ?_⟩
    rcases List.mem_append.mp hm with hm | hm
    · obtain ⟨s',hs'⟩ := hfirst pre s output post rfl entry hm
      simp [hs']
    · rcases List.mem_cons.mp hm with rfl | hm
      · simp
      · exact hpost entry hm
  · rw [←hi.queued.size] at hlt
    have hslot := List.getElem?_eq_getElem hlt
    obtain ⟨hb,hu⟩ := (hi.account _ _ hslot).seeded hp
    refine ⟨fun c hg => ?_,_,hslot,hb⟩
    rw [((hi.account _ _ hslot).held ⟨c,hg⟩).2] at hu
    cases hu
  · rintro pre event c a post rfl
    obtain ⟨t,t',ht,-,hs,-⟩ := h.cut
    exact (owned_of_run ht).not_pending_of_admitted (guardedStep_effect hs)

/-- With slot 0 seeded, a call gets slot 1, a second one waits, the first
one's guard wakes it and the seeded slot stays out of reach throughout. -/
theorem scheduler_exclusive_ownership_seeded : ∃ st,ExclusiveOwnership 2
    [(.call (.seedBusy 0),.unit),(.call (.admitCall none),.admitted 0 ⟨1,false⟩),
      (.call (.admitCall none),.parked 1),(.call (.reconcileSeededIdle 1),.unit),
      (.dropGuard 0,.unit),(.call (.repoll 1),.admitted 1 ⟨1,false⟩)] st := by
  have h : Run guardedStep (Guarded.new 2) _ _ := run_of_exec
    (show exec guardedStep (Guarded.new 2) [.call (.seedBusy 0),.call (.admitCall none),
      .call (.admitCall none),.call (.reconcileSeededIdle 1),.dropGuard 0,.call (.repoll 1)]=
      some _ from rfl)
  exact ⟨_,scheduler_exclusive_ownership h⟩

end AivyxBroker.Scheduler
