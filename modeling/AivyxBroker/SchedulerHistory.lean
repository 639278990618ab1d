import AivyxBroker.SchedulerPolicy

/-!
# The stamps and the history of admissions

The recorded trace says in which order slots were admitted. The stamps and
the clock agree with that order after every run, as long as the clock has not
wrapped. So an admission that falls back on the stamps takes the slot whose
most recent admission lies furthest back, and a round of such admissions goes
through all slots in that order.
-/

namespace AivyxBroker.Scheduler

open RunInvariant WakeSignal

/-- The slots admitted, in order. -/
def admissions (trace : List (Event×Output)) : List ℕ :=
  trace.filterMap fun entry =>
    match entry.2 with
    | .admitted _ a => some a.slotId
    | _ => none

@[simp] theorem admissions_append (trace rest : List (Event×Output)) :
    admissions (trace++rest)=admissions trace++admissions rest := List.filterMap_append ..

/-- The number of the most recent admission of a slot, zero if there was
none. -/
def lastAdmission (history : List ℕ) (s : ℕ) : ℕ := history.length-history.reverse.idxOf s

/-- A new admission is the most recent one of its slot. -/
theorem lastAdmission_snoc (history : List ℕ) (s t : ℕ) :
    lastAdmission (history++[t]) s=if t=s then history.length+1 else lastAdmission history s := by
  unfold lastAdmission
  rw [List.reverse_append,List.reverse_singleton,List.singleton_append,List.length_append]
  split
  · rename_i hs
    rw [hs,List.idxOf_cons_self]
    rfl
  · rename_i hs
    rw [List.idxOf_cons_ne _ hs,List.length_singleton]
    omega

/-- No admission is more recent than the history is long. -/
theorem lastAdmission_le (history : List ℕ) (s : ℕ) : lastAdmission history s≤history.length :=
  Nat.sub_le _ _

/-- The slots admitted at least once are those with a most recent admission. -/
theorem lastAdmission_pos {history : List ℕ} {s : ℕ} : 0<lastAdmission history s ↔ s∈history := by
  unfold lastAdmission
  rw [←List.mem_reverse,←List.idxOf_lt_length_iff,List.length_reverse]
  omega

/-- The most recent admission of `s` came before that of `t`. -/
def AdmittedBefore (history : List ℕ) (s t : ℕ) : Prop :=
  ∃ before after,history=before++t::after ∧ s∈before ∧ s∉t::after ∧ t∉after

/-- The number of an admission is its place in the history. -/
theorem lastAdmission_place {before after : List ℕ} {t : ℕ} (ht : t∉after) :
    lastAdmission (before++t::after) t=before.length+1 := by
  induction after using List.reverseRecOn with
  | nil => rw [lastAdmission_snoc,if_pos rfl]
  | append_singleton after last ih =>
    rw [List.mem_append,List.mem_singleton,not_or] at ht
    rw [←List.cons_append,←List.append_assoc,lastAdmission_snoc,if_neg (Ne.symm ht.2),ih ht.1]

/-- A slot that was admitted has a most recent admission. -/
theorem exists_lastAdmission {history : List ℕ} {s : ℕ} (hs : s∈history) :
    ∃ before after,history=before++s::after ∧ s∉after := by
  obtain ⟨after,before,hr,hn⟩ := List.eq_append_cons_of_mem (List.mem_reverse.mpr hs)
  refine ⟨before.reverse,after.reverse,?_,by simpa using hn⟩
  rw [←List.reverse_reverse history,hr]
  simp

/-- Admissions are numbered in their order. -/
theorem lastAdmission_lt {history : List ℕ} {s t : ℕ} (hs : s∈history) (ht : t∈history) :
    lastAdmission history s<lastAdmission history t ↔ AdmittedBefore history s t := by
  constructor
  · intro hlt
    obtain ⟨before,after,rfl,hn⟩ := exists_lastAdmission ht
    rw [lastAdmission_place hn] at hlt
    have hlater : s∉t::after := by
      intro hm
      rcases List.mem_cons.mp hm with rfl | hm
      · rw [lastAdmission_place hn] at hlt
        omega
      · obtain ⟨mid,rest,rfl,hn'⟩ := exists_lastAdmission hm
        rw [←List.cons_append,←List.append_assoc,lastAdmission_place hn',List.length_append] at hlt
        omega
    exact ⟨before,after,rfl,(List.mem_append.mp hs).resolve_right hlater,hlater,hn⟩
  · rintro ⟨before,after,rfl,hm,hlater,hn⟩
    obtain ⟨mid,rest,rfl,hn'⟩ := exists_lastAdmission hm
    rw [lastAdmission_place hn,List.append_assoc,List.cons_append,lastAdmission_place,
      List.length_append,List.length_cons]
    · omega
    · exact fun hm' => (List.mem_append.mp hm').elim hn' hlater

/-- The number of an admission gives the slot back. -/
theorem getElem_lastAdmission {history : List ℕ} {s : ℕ} (hs : s∈history) :
    history[lastAdmission history s-1]?=some s := by
  obtain ⟨before,after,rfl,hn⟩ := exists_lastAdmission hs
  rw [lastAdmission_place hn]
  simp

/-- Slots that were admitted have different most recent admissions. -/
theorem lastAdmission_inj {history : List ℕ} {s t : ℕ} (hs : s∈history) (ht : t∈history)
    (h : lastAdmission history s=lastAdmission history t) : s=t := by
  have hs' := getElem_lastAdmission hs
  rw [h,getElem_lastAdmission ht] at hs'
  exact (Option.some.inj hs').symm

/-- A slot that is not in the later part keeps its number. -/
theorem lastAdmission_append_of_notMem {history round : List ℕ} {s : ℕ} (hs : s∉round) :
    lastAdmission (history++round) s=lastAdmission history s := by
  induction round using List.reverseRecOn with
  | nil => rw [List.append_nil]
  | append_singleton round last ih =>
    rw [List.mem_append,List.mem_singleton,not_or] at hs
    rw [←List.append_assoc,lastAdmission_snoc,if_neg (Ne.symm hs.2),ih hs.1]

/-- A slot that is in the later part has a number beyond the earlier one. -/
theorem length_lt_lastAdmission {history round : List ℕ} {s : ℕ} (hs : s∈round) :
    history.length<lastAdmission (history++round) s := by
  obtain ⟨before,after,rfl,hn⟩ := exists_lastAdmission hs
  rw [←List.append_assoc,lastAdmission_place hn,List.length_append]
  omega

/-- The most recent admission of `s` lies further back than that of `t`; a
slot never admitted comes before all others, and the lower number first. -/
def UsedEarlier (history : List ℕ) (s t : ℕ) : Prop :=
  AdmittedBefore history s t ∨ s∉history ∧ (t∈history ∨ s<t)

/-- The order of the stamps is that of the admissions. -/
theorem usedEarlier_of_le {history : List ℕ} {s t : ℕ} (hne : s≠t)
    (hle : lastAdmission history s≤lastAdmission history t)
    (htie : lastAdmission history s=lastAdmission history t → s≤t) : UsedEarlier history s t := by
  by_cases hs : s∈history
  · have hpos := lastAdmission_pos.mpr hs
    have ht : t∈history := lastAdmission_pos.mp (by omega)
    have hlt : lastAdmission history s<lastAdmission history t :=
      lt_of_le_of_ne hle fun he => hne (lastAdmission_inj hs ht he)
    exact .inl ((lastAdmission_lt hs ht).mp hlt)
  · refine .inr ⟨hs,?_⟩
    by_cases ht : t∈history
    · exact .inl ht
    · have hs0 : lastAdmission history s=0 := by
        have := mt lastAdmission_pos.mp hs
        omega
      have ht0 : lastAdmission history t=0 := by
        have := mt lastAdmission_pos.mp ht
        omega
      have := htie (hs0.trans ht0.symm)
      exact .inr (by omega)

/-- The stamps and the clock are those of the history. -/
structure Stamped (history : List ℕ) (inner : Inner) : Prop where
  /-- The clock counts the admissions. -/
  clock : inner.clock=history.length
  /-- Every stamp is the number of the slot's most recent admission. -/
  stamps : ∀ s slot,inner.slots[s]?=some slot → slot.lastUsed=lastAdmission history s

/-- Changing a slot's other fields keeps all stamps. -/
theorem Stamped.modifySlot {history : List ℕ} {inner inner' : Inner} {slotId : ℕ}
    {f : SlotState → SlotState} (h : Stamped history inner)
    (hslots : inner'.slots=(inner.modifySlot slotId f).slots) (hclock : inner'.clock=inner.clock)
    (hf : ∀ slot,(f slot).lastUsed=slot.lastUsed) : Stamped history inner' := by
  refine ⟨hclock.trans h.clock,fun s slot hs => ?_⟩
  rw [hslots,modifySlot_slot] at hs
  split at hs
  · obtain ⟨slot',hs',rfl⟩ := Option.map_eq_some_iff.mp hs
    rw [hf]
    exact h.stamps s slot' hs'
  · exact h.stamps s slot hs

/-- An admission is the next of the history. -/
theorem Stamped.claim {history : List ℕ} {inner : Inner} {slotId : ℕ} (h : Stamped history inner)
    (hlt : history.length+1<2^64) : Stamped (history++[slotId]) (inner.claim slotId) := by
  have hclock : (inner.claim slotId).clock=history.length+1 := by
    show (inner.clock+1)%2^64=_
    rw [h.clock,Nat.mod_eq_of_lt hlt]
  refine ⟨by rw [hclock,List.length_append,List.length_singleton],fun s slot hs => ?_⟩
  rw [claim_slot] at hs
  rw [lastAdmission_snoc]
  split at hs
  · rename_i he
    rw [if_pos he]
    obtain ⟨slot',-,rfl⟩ := Option.map_eq_some_iff.mp hs
    exact hclock
  · rename_i he
    rw [if_neg he]
    exact h.stamps s slot hs

/-- A step admits one call or none, and then keeps all stamps. -/
theorem Effect.admissions {st st' : State} {event : Event} {output : Output}
    (heff : Effect st event output st') :
    (∃ callers caller turn hint a,Attempts st event callers caller turn hint ∧
      tryAdmitLocked st.inner hint=some (a,st'.inner) ∧ st'.inner=st.inner.claim a.slotId ∧
      Scheduler.admissions [(event,output)]=[a.slotId]) ∨
    Scheduler.admissions [(event,output)]=[] ∧
      ∀ history,Stamped history st.inner → Stamped history st'.inner := by
  cases heff with
  | @admitted _ callers caller turn hint a hc htry =>
    exact .inl ⟨callers,caller,turn,hint,a,hc,htry,rfl,rfl⟩
  | parked =>
    exact .inr ⟨rfl,fun history h => ⟨(enqueue_clock ..).trans h.clock,by simpa using h.stamps⟩⟩
  | leave caller p hp he =>
    refine .inr ⟨?_,fun history h => h⟩
    rcases he with ⟨-,rfl⟩ | ⟨-,rfl⟩ <;> rfl
  | freed slotId =>
    exact .inr ⟨rfl,fun history h =>
      h.modifySlot (wakeWaitersFor_spec ..).1 (wakeWaitersFor_clock ..) fun _ => rfl⟩
  | ignored => exact .inr ⟨rfl,fun history h => h⟩
  | resident => exact .inr ⟨rfl,fun history h => h.modifySlot rfl rfl fun _ => rfl⟩
  | seeded => exact .inr ⟨rfl,fun history h => h.modifySlot rfl rfl fun _ => rfl⟩

/-- Every step keeps the stamps those of the history, as long as the clock
does not wrap. -/
theorem Stamped.step {trace : List (Event×Output)} {st st' : State} {event : Event}
    {output : Output} (h : Stamped (admissions trace) st.inner)
    (hlt : (admissions (trace++[(event,output)])).length<2^64)
    (heff : Effect st event output st') :
    Stamped (admissions (trace++[(event,output)])) st'.inner := by
  rw [admissions_append] at hlt ⊢
  rcases heff.admissions with ⟨_,_,_,_,a,-,-,hclaim,ha⟩ | ⟨ha,hkeep⟩
  · rw [ha,List.length_append,List.length_singleton] at hlt
    rw [ha,hclaim]
    exact h.claim hlt
  · rw [ha,List.append_nil]
    exact hkeep _ h

/-- The stamps are those of the trace after every run with fewer than `2^64`
admissions. -/
theorem stamped_of_run {n : ℕ} {trace : List (Event×Output)} {st : State}
    (h : Run step (State.new n) trace st) (hlt : (admissions trace).length<2^64) :
    Stamped (admissions trace) st.inner := by
  revert hlt
  refine h.trace_invariant (fun trace st => (admissions trace).length<2^64 →
    Stamped (admissions trace) st.inner) (fun _ => ?_) ?_
  · refine ⟨rfl,fun s slot hs => ?_⟩
    obtain ⟨-,rfl⟩ := List.getElem?_eq_some_iff.mp hs
    simp [State.new,Inner.new,SlotState.default,admissions,lastAdmission]
  · intro trace t event output u hi _ hs hlt
    have hle : (admissions trace).length<2^64 := by
      rw [admissions_append,List.length_append] at hlt
      omega
    exact (hi hle).step hlt (step_effect hs)

/-- Calls try for a slot only while every slot is free, without a usable
preference, and for content that no slot holds. -/
def Spreads (n : ℕ) (st : State) (event : Event) : Prop :=
  ∀ callers caller turn hint,Attempts st event callers caller turn hint →
    (∀ s<n,st.inner.Free s) ∧ (∀ p,hint.bind SlotHint.preferredSlot=some p → n≤p) ∧
      ∀ s,¬st.inner.Resident hint s

/-- The slots admitted in a round so far: the first ones, each once, in the
order of their most recent admissions before the round. -/
structure Round (history : List ℕ) (n : ℕ) (round : List ℕ) : Prop where
  /-- They are slots of the table. -/
  slots : ∀ s∈round,s<n
  /-- Each once. -/
  nodup : round.Nodup
  /-- In order. -/
  sorted : round.Pairwise (UsedEarlier history)
  /-- Before all slots not admitted yet. -/
  rest : ∀ s∈round,∀ t<n,t∉round → UsedEarlier history s t

/-- The next slot of a round is the first of the others. -/
theorem Round.next {history round : List ℕ} {n s : ℕ} (h : Round history n round) (hs : s<n)
    (hnew : s∉round) (hfirst : ∀ t<n,t∉round → s≠t → UsedEarlier history s t) :
    Round history n (round++[s]) := by
  refine ⟨fun t ht => ?_,?_,?_,fun t ht u hu hun => ?_⟩
  · rcases List.mem_append.mp ht with ht | ht
    · exact h.slots t ht
    · exact List.mem_singleton.mp ht ▸ hs
  · refine List.nodup_append.mpr ⟨h.nodup,List.nodup_singleton s,fun a ha b hb hab => hnew ?_⟩
    rw [←List.mem_singleton.mp hb,←hab]
    exact ha
  · refine List.pairwise_append.mpr ⟨h.sorted,List.pairwise_singleton _ s,fun a ha b hb => ?_⟩
    rw [List.mem_singleton.mp hb]
    exact h.rest a ha s hs hnew
  · rw [List.mem_append,List.mem_singleton,not_or] at hun
    rcases List.mem_append.mp ht with ht | ht
    · exact h.rest t ht u hu hun.1
    · obtain rfl := List.mem_singleton.mp ht
      exact hfirst u hu hun.1 (Ne.symm hun.2)

/-- An unfinished round has slots left. -/
theorem exists_left {round : List ℕ} {n : ℕ} (hlt : round.length<n) : ∃ s<n,s∉round := by
  by_contra hno
  have hsub : List.range n⊆round := fun s hs => by
    by_contra hs'
    exact hno ⟨s,List.mem_range.mp hs,hs'⟩
  have := (List.nodup_range.subperm hsub).length_le
  rw [List.length_range] at this
  omega

/-- The slot that an admission by the stamps takes is the next of the round. -/
theorem Round.admitted {history round : List ℕ} {n : ℕ} {inner inner' : Inner}
    {hint : Option SlotHint} {a : Admission} (h : Round history n round)
    (hlt : round.length<n) (hsize : inner.slots.length=n)
    (hst : Stamped (history++round) inner) (hfree : ∀ s<n,inner.Free s)
    (hpref : ∀ p,hint.bind SlotHint.preferredSlot=some p → n≤p)
    (hcold : ∀ s,¬inner.Resident hint s)
    (htry : tryAdmitLocked inner hint=some (a,inner')) : Round history n (round++[a.slotId]) := by
  subst hsize
  obtain ⟨⟨slot,hs,hb⟩,-,-,hp | ⟨-,hfirst⟩⟩ := tryAdmitLocked_some htry
  · rw [preference_none hpref] at hp
    cases hp
  have hno : ∀ t,inner.Free t → inner.holds hint t=false := fun t _ =>
    Bool.eq_false_iff.mpr fun hh => hcold t (holds_iff.mp hh)
  have hmin : ∀ t < inner.slots.length,
      lastAdmission (history++round) a.slotId≤lastAdmission (history++round) t ∧
      (lastAdmission (history++round) a.slotId=lastAdmission (history++round) t →
        a.slotId≤t) := by
    intro t ht
    obtain ⟨slot',ht,hb'⟩ := hfree t ht
    have hle := hfirst.oldest hno slot t slot' hs ht hb'
    rwa [hst.stamps _ _ hs,hst.stamps _ _ ht] at hle
  have hslot : a.slotId < inner.slots.length := (List.getElem?_eq_some_iff.mp hs).1
  have hnew : a.slotId∉round := by
    intro hm
    obtain ⟨t,ht,htn⟩ := exists_left hlt
    have hlong := @length_lt_lastAdmission history round _ hm
    have hshort := lastAdmission_le history t
    have hle := (hmin t ht).1
    rw [lastAdmission_append_of_notMem htn] at hle
    omega
  refine h.next hslot hnew fun t ht htn hne => ?_
  have hle := hmin t ht
  rw [lastAdmission_append_of_notMem hnew,lastAdmission_append_of_notMem htn] at hle
  exact usedEarlier_of_le hne hle.1 hle.2

/-- Every step of a round keeps it one, until all slots had their turn. -/
theorem round_of_run {n : ℕ} {trace round : List (Event×Output)} {st st' : State}
    (h : Run step (State.new n) trace st) (hround : RunWhen step (Spreads n) st round st')
    (hn : (admissions round).length≤n) (hlt : (admissions trace).length+n<2^64) :
    Round (admissions trace) n (admissions round) := by
  refine (hround.trace_invariant (fun round u => Run step (State.new n) (trace++round) u ∧
    ((admissions round).length≤n → Round (admissions trace) n (admissions round))) ?_ ?_).2 hn
  · refine ⟨by simpa using h,fun _ => ?_⟩
    constructor <;> simp [admissions]
  · intro round u event output u' ⟨hrun,hi⟩ hok hs
    refine ⟨by rw [←List.append_assoc]; exact hrun.next trivial hs,fun hn => ?_⟩
    rw [admissions_append] at hn ⊢
    rcases (step_effect hs).admissions with ⟨callers,caller,turn,hint,a,hc,htry,-,ha⟩ | ⟨ha,-⟩
    · rw [ha,List.length_append,List.length_singleton] at hn
      rw [ha]
      obtain ⟨hfree,hpref,hcold⟩ := hok callers caller turn hint hc
      have hst := stamped_of_run hrun (by rw [admissions_append,List.length_append]; omega)
      rw [admissions_append] at hst
      exact (hi (by omega)).admitted (by omega) (queued_of_run hrun).size hst hfree hpref hcold htry
    · rw [ha,List.append_nil] at hn ⊢
      exact hi hn

/-- The stamps follow the history of admissions, and spread the load. In
every state reached by fewer than `2^64` admissions, no stamp is beyond the
clock, the slots admitted at least once have different stamps in the order of
their most recent admissions, and the others have stamp zero. And from there
any `n` admissions that try only while all `n` slots are free, without a
usable preference and for content that no slot holds, take every slot once,
in the order of their most recent admissions before. -/
theorem lru_follows_history {n : ℕ} {trace : List (Event×Output)} {st : State}
    (h : Run step (State.new n) trace st) (hlt : (admissions trace).length<2^64) :
    (∀ s slot,st.inner.slots[s]?=some slot → slot.lastUsed ≤ st.inner.clock ∧
      (s∉admissions trace → slot.lastUsed=0) ∧ (s∈admissions trace → 0<slot.lastUsed)) ∧
    (∀ s t slot slot',st.inner.slots[s]?=some slot → st.inner.slots[t]?=some slot' →
      s∈admissions trace → t∈admissions trace →
      (s≠t → slot.lastUsed≠slot'.lastUsed) ∧
      (slot.lastUsed<slot'.lastUsed ↔ AdmittedBefore (admissions trace) s t)) ∧
    ∀ round st',RunWhen step (Spreads n) st round st' → (admissions round).length=n →
      (admissions trace).length+n<2^64 →
      (admissions round).Perm (List.range n) ∧
        (admissions round).Pairwise (UsedEarlier (admissions trace)) := by
  have hst := stamped_of_run h hlt
  refine ⟨fun s slot hs => ?_,fun s t slot slot' hs ht hms hmt => ?_,fun round st' hr hn hlt' => ?_⟩
  · rw [hst.stamps s slot hs,hst.clock]
    refine ⟨lastAdmission_le _ _,fun hno => ?_,lastAdmission_pos.mpr⟩
    have := mt lastAdmission_pos.mp hno
    omega
  · rw [hst.stamps s slot hs,hst.stamps t slot' ht]
    exact ⟨fun hne he => hne (lastAdmission_inj hms hmt he),lastAdmission_lt hms hmt⟩
  · obtain ⟨hslots,hnodup,hsorted,-⟩ := round_of_run h hr hn.le hlt'
    have hsub : admissions round⊆List.range n := fun s hs => List.mem_range.mpr (hslots s hs)
    refine ⟨(hnodup.subperm hsub).perm_of_length_le ?_,hsorted⟩
    rw [List.length_range,hn]

/-- A call that was admitted to the slot has come and gone. -/
def State.served (st : State) (slotId : ℕ) : State :=
  State.freed ⟨st.inner.claim slotId,st.callers.arrive.leave st.callers.next⟩ slotId

/-- Three slots of which the last and then the first were used. -/
def lastThenFirst : State := ((State.new 3).served 2).served 0

/-- Over free slots, a call without hint spreads the load. -/
theorem spreads_admitCall {n : ℕ} {st : State} (hfree : ∀ s<n,st.inner.Free s) :
    Spreads n st (.admitCall none) := by
  intro callers caller turn hint hc
  cases hc
  exact ⟨hfree,fun p hp => (by cases hp),fun s ⟨_,_,hh,_⟩ => (by cases hh)⟩

/-- So does a release. -/
theorem spreads_release {n slotId : ℕ} {st : State} : Spreads n st (.release slotId) := by
  intro callers caller turn hint hc
  cases hc

/-- After slots 2 and 0 were used in this order, three calls without hint are
admitted to slots 1, 2 and 0. -/
theorem lru_follows_history_spread : ∃ trace round st,
    Run step (State.new 3) trace lastThenFirst ∧ admissions trace=[2,0] ∧
    RunWhen step (Spreads 3) lastThenFirst round st ∧ admissions round=[1,2,0] ∧
    [1,2,0].Perm (List.range 3) ∧ [1,2,0].Pairwise (UsedEarlier [2,0]) := by
  have hused : Run step (State.new 3) _ lastThenFirst := run_of_exec
    (show exec step (State.new 3) [.admitCall (some ⟨"p",some 2,none⟩),.release 2,
      .admitCall (some ⟨"p",some 0,none⟩),.release 0]=some (_,lastThenFirst) from rfl)
  have hfree : ∀ st : State,st∈[lastThenFirst,lastThenFirst.served 1,
      (lastThenFirst.served 1).served 2] → ∀ s<3,st.inner.Free s := by
    intro st hm s hs
    simp only [List.mem_cons,List.not_mem_nil,or_false] at hm
    rcases hm with rfl | rfl | rfl <;> interval_cases s <;> exact ⟨_,rfl,rfl⟩
  have hone : RunWhen step (Spreads 3) lastThenFirst
      [(.admitCall none,.admitted 2 ⟨1,false⟩),(.release 1,.unit)] (lastThenFirst.served 1) :=
    .next (.single (spreads_admitCall (hfree _ (by simp))) rfl) spreads_release rfl
  have htwo : RunWhen step (Spreads 3) (lastThenFirst.served 1)
      [(.admitCall none,.admitted 3 ⟨2,false⟩),(.release 2,.unit)]
      ((lastThenFirst.served 1).served 2) :=
    .next (.single (spreads_admitCall (hfree _ (by simp))) rfl) spreads_release rfl
  have hround := (hone.append htwo).next (spreads_admitCall (hfree _ (by simp))) rfl
  exact ⟨_,_,_,hused,rfl,hround,rfl,
    (lru_follows_history hused (by decide)).2.2 _ _ hround rfl (by decide)⟩

end AivyxBroker.Scheduler
