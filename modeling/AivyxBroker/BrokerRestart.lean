import AivyxBroker.SchedulerOwnership
import AivyxBroker.SlotSeeding

/-!
# Broker restarts beside a working llama-server

The broker keeps its occupancy table in memory only, so a crash forgets which
slots llama-server is still working on. The next broker seeds its table from
one `/slots` answer and gives seeded slots back when a later answer, which may
be old by the time it is acted on, shows them idle. Here the broker and
llama-server, which has no other client, run together over any number of
crashes, with requests under way between them.

With truthful answers no slot is lost to a crash. That a slot the table shows
free is idle at the server, with no request on its way to it, takes two more
things that the broker does not enforce: its guards outlast the work they
guard, which they do not where forwarding gives up on an error or a time-out,
and no request is under way when it dies. These are also necessary.
-/

namespace AivyxBroker.Restart

open RunInvariant Scheduler WakeSignal LlamaClient SlotSeeding

/-- Work of llama-server on a slot, named by the call it is for. -/
structure Job where
  /-- Which broker, counted by restarts, sent it. -/
  epoch : ℕ
  /-- The admitted call of that broker. -/
  caller : ℕ
  deriving DecidableEq

/-- The running broker and llama-server. -/
structure Service where
  /-- The running broker's scheduler with the guards of its tasks. -/
  broker : Guarded
  /-- How often the broker was restarted. -/
  epoch : ℕ
  /-- What llama-server is working on, slot by slot. -/
  job : ℕ → Option Job
  /-- The requests under way to llama-server, with the slots they name. -/
  sent : List (ℕ×Job)
  /-- What the reconciling task has yet to go through of its last answer. -/
  answer : List LlamaSlot

/-- A broker over idle slots. -/
def Service.new (numSlots : ℕ) : Service := ⟨Guarded.new numSlots,0,fun _ => none,[],[]⟩

/-- One atomic action. -/
inductive ServiceEvent where
  /-- A request task or the handler uses the scheduler. -/
  | call (event : Event)
  /-- The task of an admitted call sends llama-server a request for its slot. -/
  | send (caller : ℕ)
  /-- llama-server takes up a request that has reached it. -/
  | begin (request : ℕ×Job)
  /-- A request under way is lost. -/
  | lose (request : ℕ×Job)
  /-- llama-server is done with a slot. -/
  | idle (slotId : ℕ)
  /-- The guard of an admitted call is dropped. -/
  | dropGuard (caller : ℕ)
  /-- llama-server answers the reconciling task's poll. -/
  | poll (body : Json)
  /-- The reconciling task goes on to the next entry of the answer. -/
  | reconcile
  /-- The broker dies, and a new one starts from llama-server's answer. -/
  | restart (body : Json)

/-- The operations that tasks and handlers perform themselves. -/
def serves : Event → Bool
  | .reconcileSeededIdle _ => false
  | .seedBusy _ => false
  | _ => true

/-- A new broker, seeded from the answer. Its predecessor's callers, guards
and polls are gone; llama-server's work and the requests under way are not. -/
def Service.restarted (m : Service) (slots : List LlamaSlot) : Service :=
  ⟨⟨startup slots,fun _ => none,false⟩,m.epoch+1,m.job,m.sent,[]⟩

/-- The interleaving semantics. A slot of llama-server does one job at a time,
so other requests for it wait, and it may be done with a job at any time. -/
def serviceStep (m : Service) : ServiceEvent → Option (Output×Service)
  | .call event =>
    if serves event=true then
      (guardedStep m.broker (.call event)).map fun r => (r.1,{m with broker := r.2})
    else none
  | .send caller =>
    match m.broker.guards caller with
    | some slotId => some (.unit,{m with sent := m.sent++[(slotId,⟨m.epoch,caller⟩)]})
    | none => none
  | .begin request =>
    if request∈m.sent ∧ m.job request.1=none then
      some (.unit,{m with
        job := Function.update m.job request.1 (some request.2), sent := m.sent.erase request})
    else none
  | .lose request => some (.unit,{m with sent := m.sent.erase request})
  | .idle slotId => some (.unit,{m with job := Function.update m.job slotId none})
  | .dropGuard caller =>
    (guardedStep m.broker (.dropGuard caller)).map fun r => (r.1,{m with broker := r.2})
  | .poll body =>
    match m.answer,parseSlots body with
    | [],some slots => some (.unit,{m with answer := slots})
    | _,_ => none
  | .reconcile =>
    match m.answer with
    | [] => none
    | entry::rest =>
      if entry.isProcessing=true then some (.unit,{m with answer := rest})
      else (guardedStep m.broker (.call (.reconcileSeededIdle entry.id.toNat))).map fun r =>
        (r.1,{m with broker := r.2, answer := rest})
  | .restart body =>
    match parseSlots body with
    | some slots => some (.unit,m.restarted slots)
    | none => none

/-- What a step can do. -/
inductive ServiceEffect (m : Service) : ServiceEvent → Output → Service → Prop
  /-- A task or the handler uses the scheduler. -/
  | call {event : Event} {output : Output} {st : Guarded} (hserves : serves event=true)
      (hstep : guardedStep m.broker (.call event)=some (output,st)) :
      ServiceEffect m (.call event) output {m with broker := st}
  /-- A request of an owner's sets off for its slot. -/
  | send (caller slotId : ℕ) (hg : m.broker.guards caller=some slotId) :
      ServiceEffect m (.send caller) .unit {m with sent := m.sent++[(slotId,⟨m.epoch,caller⟩)]}
  /-- An idle slot gets the work of a request. -/
  | begin (request : ℕ×Job) (hsent : request∈m.sent) (hidle : m.job request.1=none) :
      ServiceEffect m (.begin request) .unit {m with
        job := Function.update m.job request.1 (some request.2), sent := m.sent.erase request}
  /-- A request does not arrive. -/
  | lose (request : ℕ×Job) :
      ServiceEffect m (.lose request) .unit {m with sent := m.sent.erase request}
  /-- llama-server is done with a slot. -/
  | idle (slotId : ℕ) :
      ServiceEffect m (.idle slotId) .unit {m with job := Function.update m.job slotId none}
  /-- A guard is dropped. -/
  | dropGuard {caller : ℕ} {output : Output} {st : Guarded}
      (hstep : guardedStep m.broker (.dropGuard caller)=some (output,st)) :
      ServiceEffect m (.dropGuard caller) output {m with broker := st}
  /-- The reconciling task has an answer to go through. -/
  | poll (body : Json) (slots : List LlamaSlot) (hanswer : m.answer=[])
      (hread : parseSlots body=some slots) :
      ServiceEffect m (.poll body) .unit {m with answer := slots}
  /-- It leaves a busy slot alone. -/
  | skip (entry : LlamaSlot) (rest : List LlamaSlot) (hanswer : m.answer=entry::rest)
      (hbusy : entry.isProcessing=true) :
      ServiceEffect m .reconcile .unit {m with answer := rest}
  /-- It reconciles an idle one. -/
  | reconcile (entry : LlamaSlot) (rest : List LlamaSlot) {output : Output} {st : Guarded}
      (hanswer : m.answer=entry::rest) (hidle : entry.isProcessing=false)
      (hstep : guardedStep m.broker (.call (.reconcileSeededIdle entry.id.toNat))=
        some (output,st)) :
      ServiceEffect m .reconcile output {m with broker := st, answer := rest}
  /-- A new broker starts. -/
  | restart (body : Json) (slots : List LlamaSlot) (hread : parseSlots body=some slots) :
      ServiceEffect m (.restart body) .unit (m.restarted slots)

/-- The step function does nothing but these effects. -/
theorem serviceStep_effect {m m' : Service} {event : ServiceEvent} {output : Output}
    (h : serviceStep m event=some (output,m')) : ServiceEffect m event output m' := by
  cases event with
  | call event =>
    simp only [serviceStep] at h
    split at h
    · rename_i hserves
      obtain ⟨⟨output',st⟩,hstep,he⟩ := Option.map_eq_some_iff.mp h
      cases he
      exact .call hserves hstep
    · cases h
  | send caller =>
    simp only [serviceStep] at h
    split at h
    · rename_i slotId hg
      cases h
      exact .send caller slotId hg
    · cases h
  | begin request =>
    simp only [serviceStep] at h
    split at h
    · rename_i hc
      cases h
      exact .begin request hc.1 hc.2
    · cases h
  | lose request =>
    cases h
    exact .lose request
  | idle slotId =>
    cases h
    exact .idle slotId
  | dropGuard caller =>
    obtain ⟨⟨output',st⟩,hstep,he⟩ := Option.map_eq_some_iff.mp h
    cases he
    exact .dropGuard hstep
  | poll body =>
    simp only [serviceStep] at h
    split at h
    · rename_i slots hanswer hread
      cases h
      exact .poll body slots hanswer hread
    · cases h
  | reconcile =>
    simp only [serviceStep] at h
    split at h
    · cases h
    · rename_i entry rest hanswer
      split at h
      · rename_i hbusy
        cases h
        exact .skip entry rest hanswer hbusy
      · rename_i hidle
        obtain ⟨⟨output',st⟩,hstep,he⟩ := Option.map_eq_some_iff.mp h
        cases he
        exact .reconcile entry rest hanswer (Bool.eq_false_iff.mpr hidle) hstep
  | restart body =>
    simp only [serviceStep] at h
    split at h
    · rename_i slots hread
      cases h
      exact .restart body slots hread
    · cases h

/-- The answer lists every slot of llama-server once, as it is. -/
structure Honest (numSlots : ℕ) (job : ℕ → Option Job) (body : Json) : Prop where
  /-- There is one entry for each slot. -/
  size : (entries body).length=numSlots
  /-- An entry says what its slot is doing. -/
  sound : ∀ v∈entries body,∃ s<numSlots,Reports v s (job s).isSome
  /-- Every slot has an entry. -/
  complete : ∀ s<numSlots,∃ v∈entries body,Reports v s (job s).isSome

/-- llama-server tells the truth when it is asked. -/
def Truthful (numSlots : ℕ) (m : Service) : ServiceEvent → Prop
  | .poll body => Honest numSlots m.job body
  | .restart body => Honest numSlots m.job body
  | _ => True

/-- A guard is dropped only when llama-server is done with its slot, and the
broker dies only when no request is under way. -/
def Settled (m : Service) : ServiceEvent → Prop
  | .dropGuard caller => ∀ s,m.broker.guards caller=some s →
    m.job s=none ∧ ∀ job,(s,job)∉m.sent
  | .restart _ => m.sent=[]
  | _ => True

/-- No slot is shared, now or when the requests under way arrive. -/
structure Apart (m : Service) : Prop where
  /-- A slot the table shows free is idle, and stays so. -/
  free : ∀ s,m.broker.sched.inner.Free s → m.job s=none ∧ ∀ job,(s,job)∉m.sent
  /-- So is a slot that a call is admitted to next. -/
  admitted : ∀ event c a m',serviceStep m event=some (.admitted c a,m') →
    m.job a.slotId=none ∧ ∀ job,(a.slotId,job)∉m.sent
  /-- What llama-server does on an owned slot is for its owner. -/
  owned : ∀ c s job,m.broker.guards c=some s → m.job s=some job → job=⟨m.epoch,c⟩
  /-- Every request under way is one of the running broker for an owner. -/
  sent : ∀ s job,(s,job)∈m.sent → job.epoch=m.epoch ∧ m.broker.guards job.caller=some s

/-- A slot of the table that is busy for nobody. -/
def Seeded (st : State) (s : ℕ) : Prop :=
  ∃ slot,st.inner.slots[s]?=some slot ∧ slot.busy=true ∧ slot.seededUnowned=true

/-- The invariant of the service. -/
structure Sheltered (numSlots : ℕ) (m : Service) : Prop where
  /-- The running broker's accounts are right. -/
  owned : ∃ trace,Owned numSlots trace m.broker
  /-- A job is its slot's owner's, or the slot is seeded. -/
  jobs : ∀ s job,m.job s=some job →
    job.epoch=m.epoch ∧ m.broker.guards job.caller=some s ∨ Seeded m.broker.sched s
  /-- A request under way is for a slot's owner. -/
  sent : ∀ s job,(s,job)∈m.sent → job.epoch=m.epoch ∧ m.broker.guards job.caller=some s
  /-- A seeded slot that an answer not yet acted on shows idle is idle. -/
  answer : ∀ entry∈m.answer,entry.isProcessing=false → Seeded m.broker.sched entry.id.toNat →
    m.job entry.id.toNat=none

/-- A slot with a guard is not seeded. -/
theorem owned_not_seeded {n c s : ℕ} {trace : List (GuardedEvent×Output)} {st : Guarded}
    (h : Owned n trace st) (hg : st.guards c=some s) : ¬Seeded st.sched s := by
  rintro ⟨slot,hs,-,hu⟩
  rw [((h.account s slot hs).held ⟨c,hg⟩).2] at hu
  cases hu

/-- A free slot is not seeded. -/
theorem free_not_seeded {st : State} {s : ℕ} (h : st.inner.Free s) : ¬Seeded st s := by
  obtain ⟨slot,hs,hb⟩ := h
  rintro ⟨slot',hs',hb',-⟩
  cases hs.symm.trans hs'
  rw [hb] at hb'
  cases hb'

/-- llama-server is idle on a free slot, and no request is under way to it. -/
theorem Sheltered.idle {n s : ℕ} {m : Service} (h : Sheltered n m)
    (hfree : m.broker.sched.inner.Free s) : m.job s=none ∧ ∀ job,(s,job)∉m.sent := by
  obtain ⟨trace,howned⟩ := h.owned
  refine ⟨?_,fun job hm => howned.unguarded hfree _ (h.sent s job hm).2⟩
  cases hjob : m.job s with
  | none => rfl
  | some job =>
    rcases h.jobs s job hjob with ⟨-,hg⟩ | hseeded
    · exact absurd hg (howned.unguarded hfree _)
    · exact absurd hseeded (free_not_seeded hfree)

/-- A job on an owned slot is its owner's. -/
theorem Sheltered.owner {n c s : ℕ} {m : Service} (h : Sheltered n m)
    (hg : m.broker.guards c=some s) {job : Job} (hjob : m.job s=some job) :
    job=⟨m.epoch,c⟩ := by
  obtain ⟨trace,howned⟩ := h.owned
  rcases h.jobs s job hjob with ⟨hepoch,hg'⟩ | hseeded
  · obtain ⟨epoch,caller⟩ := job
    cases hepoch
    cases howned.exclusive _ _ _ hg' hg
    rfl
  · exact absurd hseeded (owned_not_seeded howned hg)

/-- Setting a slot free ends its seeding. -/
theorem seeded_freed {st : State} {slotId s : ℕ} :
    Seeded (st.freed slotId) s ↔ s≠slotId ∧ Seeded st s := by
  unfold Seeded
  rw [freed_slot]
  by_cases hs : slotId=s
  · subst hs
    simp
  · simp [hs,Ne.symm hs]

/-- The two flags that make a slot seeded. -/
def flags (slot : SlotState) : Bool×Bool := (slot.busy,slot.seededUnowned)

/-- A seeded slot by its flags. -/
theorem seeded_iff_flags {st : State} {s : ℕ} :
    Seeded st s ↔ st.inner.slots[s]?.map flags=some (true,true) := by
  unfold Seeded flags
  cases st.inner.slots[s]? <;> simp

/-- A slot update that keeps both flags keeps who is seeded. -/
theorem seeded_congr {st st' : State} {s : ℕ}
    (h : st'.inner.slots[s]?.map flags=st.inner.slots[s]?.map flags) :
    Seeded st' s ↔ Seeded st s := by
  rw [seeded_iff_flags,seeded_iff_flags,h]

/-- What tasks and handlers do neither seeds a slot nor takes one from its
owner. -/
theorem call_keeps {n : ℕ} {trace : List (GuardedEvent×Output)} {st st' : Guarded}
    {event : Event} {output : Output} (h : Owned n trace st) (hserves : serves event=true)
    (heff : GuardedEffect st (.call event) output st') :
    (∀ s,Seeded st'.sched s ↔ Seeded st.sched s) ∧
      ∀ c s,st.guards c=some s → st'.guards c=some s := by
  cases heff with
  | @call _ _ sched hp heff =>
    cases heff with
    | admitted a hc htry =>
      obtain ⟨hnone,-,-⟩ := h.attempts hc
      have hfree := (tryAdmitLocked_some htry).1
      refine ⟨fun s => ?_,fun c s hg => ?_⟩
      · by_cases hs : a.slotId=s
        · subst hs
          refine iff_of_false ?_ (free_not_seeded hfree)
          rintro ⟨slot,hslot,-,hu⟩
          change (st.sched.inner.claim a.slotId).slots[a.slotId]?=some slot at hslot
          rw [claim_slot,if_pos rfl] at hslot
          obtain ⟨old,-,rfl⟩ := Option.map_eq_some_iff.mp hslot
          cases hu
        · unfold Seeded
          change (∃ slot,(st.sched.inner.claim a.slotId).slots[s]?=some slot ∧ _) ↔ _
          rw [claim_slot,if_neg hs]
      · refine (Function.update_of_ne ?_ _ _).trans hg
        rintro rfl
        rw [hnone] at hg
        cases hg
    | parked hc htry =>
      refine ⟨fun s => seeded_congr ?_,fun _ _ => id⟩
      exact congrArg (fun slots : List SlotState => slots[s]?.map flags) (enqueue_slots ..)
    | leave caller p _ he => rcases he with ⟨-,rfl⟩ | ⟨-,rfl⟩ <;> exact ⟨fun _ => .rfl,fun _ _ => id⟩
    | freed slotId slot hs he =>
      rcases he with rfl | ⟨rfl,-⟩
      · cases hp
      · cases hserves
    | ignored slotId he => exact ⟨fun _ => .rfl,fun _ _ => id⟩
    | resident slotId prefixHash model he =>
      refine ⟨fun s => seeded_congr ?_,fun _ _ => id⟩
      change (st.sched.inner.modifySlot slotId _).slots[s]?.map flags=_
      rw [modifySlot_slot]
      split
      · rw [Option.map_map]
        rfl
      · rfl
    | seeded => cases hserves

/-- Dropping a guard ends the ownership of its slot, and no seeding. -/
theorem dropGuard_keeps {caller : ℕ} {st st' : Guarded} {output : Output}
    (heff : GuardedEffect st (.dropGuard caller) output st') :
    (∀ s,Seeded st'.sched s → Seeded st.sched s) ∧
      ∀ s,st.guards caller≠some s → (Seeded st.sched s → Seeded st'.sched s) ∧
        ∀ c,st.guards c=some s → st'.guards c=some s := by
  cases heff with
  | dropped _ slotId hg heff =>
    have hguards : ∀ s,st.guards caller≠some s → ∀ c,st.guards c=some s →
        Function.update st.guards caller none c=some s := by
      intro s hne c hc
      refine (Function.update_of_ne ?_ _ _).trans hc
      rintro rfl
      exact hne hc
    obtain ⟨-,⟨slot,hs,rfl⟩ | ⟨-,rfl⟩⟩ := heff.of_release
    · refine ⟨fun s hs => (seeded_freed.mp hs).2,fun s hne => ⟨fun hseeded => ?_,hguards s hne⟩⟩
      refine seeded_freed.mpr ⟨?_,hseeded⟩
      rintro rfl
      exact hne hg
    · exact ⟨fun _ => id,fun s hne => ⟨id,hguards s hne⟩⟩

/-- Dropping a guard sets its slot free. -/
theorem dropGuard_frees {n c s : ℕ} {trace : List (GuardedEvent×Output)} {st st' : Guarded}
    {output : Output} (h : Owned n trace st) (hg : st.guards c=some s)
    (heff : GuardedEffect st (.dropGuard c) output st') : st'.sched.inner.Free s := by
  have hlt := h.range c s hg
  rw [←h.queued.size] at hlt
  have hslot := List.getElem?_eq_getElem hlt
  cases heff with
  | dropped _ slotId hg' heff =>
    cases hg.symm.trans hg'
    obtain ⟨-,⟨slot,hs,rfl⟩ | ⟨hnone,-⟩⟩ := heff.of_release
    · exact freed_free.mpr (.inl ⟨rfl,slot,hs⟩)
    · cases hslot.symm.trans hnone

/-- Reconciling a slot ends its seeding, and changes nothing else. -/
theorem reconcile_keeps {slotId : ℕ} {st st' : Guarded} {output : Output}
    (heff : GuardedEffect st (.call (.reconcileSeededIdle slotId)) output st') :
    st'.guards=st.guards ∧ ∀ s,Seeded st'.sched s ↔ s≠slotId ∧ Seeded st.sched s := by
  cases heff with
  | @call _ _ sched hp heff =>
    obtain ⟨rfl,⟨slot,hs,-,rfl⟩ | ⟨hu,rfl⟩⟩ := heff.of_reconcileSeededIdle
    · exact ⟨rfl,fun s => seeded_freed⟩
    · refine ⟨rfl,fun s => ⟨fun hs => ⟨?_,hs⟩,And.right⟩⟩
      rintro rfl
      obtain ⟨slot,hslot,-,hs⟩ := hs
      rw [hu slot hslot] at hs
      cases hs

/-- What is read of an answer has an entry for each of the answer's, and no
others. -/
theorem parseSlots_mem {body : Json} {slots : List LlamaSlot} (h : parseSlots body=some slots) :
    (∀ v∈entries body,∃ entry∈slots,parseSlot v=some entry) ∧
      ∀ entry∈slots,∃ v∈entries body,parseSlot v=some entry := by
  have hforall := parseSlots_eq_some h
  clear h
  generalize entries body=vs at hforall ⊢
  induction hforall with
  | nil => simp
  | cons hv _ ih =>
    simp only [List.mem_cons,forall_eq_or_imp,exists_eq_or_imp]
    exact ⟨⟨.inl hv,fun v hm => .inr (ih.1 v hm)⟩,.inl hv,fun entry hm => .inr (ih.2 entry hm)⟩

/-- An entry that reports a slot is read as such. -/
theorem parseSlot_reports {n s : ℕ} {v : Json} {entry : LlamaSlot} {busy : Bool} (hs : s<n)
    (hn : n<2^32) (h : Reports v s busy) (hread : parseSlot v=some entry) :
    entry.id.toNat=s ∧ entry.isProcessing=busy := by
  obtain ⟨id,⟨hid,hp⟩,hnarrow⟩ := parseSlot_eq_some.mp hread
  cases h.1.symm.trans hid
  refine ⟨?_,Option.some.inj (hp.symm.trans h.2)⟩
  rw [hnarrow,UInt32.toNat_ofNat']
  exact Nat.mod_eq_of_lt (by omega)

/-- What is read of an honest answer says what each slot is doing. -/
theorem Honest.read {n : ℕ} {job : ℕ → Option Job} {body : Json} {slots : List LlamaSlot}
    (h : Honest n job body) (hn : n<2^32) (hread : parseSlots body=some slots) :
    (∀ entry∈slots,entry.isProcessing=(job entry.id.toNat).isSome) ∧
      ∀ s<n,∃ entry∈slots,entry.id.toNat=s := by
  obtain ⟨hentry,hlisted⟩ := parseSlots_mem hread
  constructor
  · intro entry hm
    obtain ⟨v,hv,hslot⟩ := hlisted entry hm
    obtain ⟨s,hs,hr⟩ := h.sound v hv
    obtain ⟨rfl,hp⟩ := parseSlot_reports hs hn hr hslot
    exact hp
  · intro s hs
    obtain ⟨v,hv,hr⟩ := h.complete s hs
    obtain ⟨entry,hm,hslot⟩ := hentry v hv
    exact ⟨entry,hm,(parseSlot_reports hs hn hr hslot).1⟩

/-- Seeding is a run of the scheduler's own operations. -/
theorem seedScheduler_run (inner : Inner) (slots : List LlamaSlot) : ∃ trace,
    Run guardedStep ⟨⟨inner,Callers.empty⟩,fun _ => none,false⟩ trace
      ⟨⟨seedScheduler inner slots,Callers.empty⟩,fun _ => none,false⟩ := by
  induction slots generalizing inner with
  | nil => exact ⟨[],.start⟩
  | cons slot slots ih =>
    unfold seedScheduler
    rw [List.foldl_cons]
    split
    · obtain ⟨trace,hr⟩ := ih (seedBusy inner slot.id.toNat)
      have hseed : Run guardedStep ⟨⟨inner,Callers.empty⟩,fun _ => none,false⟩
          [(.call (.seedBusy slot.id.toNat),_)]
          ⟨⟨seedBusy inner slot.id.toNat,Callers.empty⟩,fun _ => none,false⟩ := .single trivial rfl
      exact ⟨_,hseed.append hr⟩
    · exact ih inner

/-- A new broker's accounts are right. -/
theorem startup_owned {n : ℕ} {slots : List LlamaSlot} (hn : n<2^32) (hsize : slots.length=n) :
    ∃ trace,Owned n trace ⟨startup slots,fun _ => none,false⟩ := by
  obtain ⟨trace,hr⟩ := seedScheduler_run (Inner.new n) slots
  refine ⟨trace,?_⟩
  unfold startup
  rw [hsize,Nat.mod_eq_of_lt hn]
  exact owned_of_run hr

/-- A new broker seeds every slot that llama-server works on. -/
theorem startup_seeded {n s : ℕ} {job : ℕ → Option Job} {body : Json} {slots : List LlamaSlot}
    (h : Honest n job body) (hn : n<2^32) (hread : parseSlots body=some slots) (hs : s<n)
    (hjob : (job s).isSome=true) : Seeded (startup slots) s := by
  have hforall := parseSlots_eq_some hread
  have hsize : slots.length=n := hforall.length_eq.symm.trans h.size
  have hhit : Hit ((entries body).map (call true)) s := by
    obtain ⟨v,hv,hr⟩ := h.complete s hs
    rw [hjob] at hr
    exact ⟨s,mem_calls.mpr ⟨v,hv,hr⟩,Nat.mod_eq_of_lt (by omega)⟩
  have hslot := (marked_slot seeded_seeded (Inner.new n).slots _ s).1 hhit
  rw [←seedScheduler_slots hforall (Inner.new n)] at hslot
  refine ⟨seeded SlotState.default,?_,rfl,rfl⟩
  unfold startup
  dsimp only
  rw [hsize,Nat.mod_eq_of_lt hn,hslot]
  simp [Inner.new,hs]

/-- Work is done on slots of the table only. -/
theorem Sheltered.job_lt {n s : ℕ} {m : Service} (h : Sheltered n m) {job : Job}
    (hjob : m.job s=some job) : s<n := by
  obtain ⟨trace,howned⟩ := h.owned
  rcases h.jobs s job hjob with ⟨-,hg⟩ | ⟨slot,hs,-⟩
  · exact howned.range _ _ hg
  · rw [←howned.queued.size]
    exact (List.getElem?_eq_some_iff.mp hs).1

/-- With truthful answers, every step keeps the running broker's accounts. -/
theorem owned_step {n : ℕ} {trace : List (GuardedEvent×Output)} {m m' : Service}
    {event : ServiceEvent} {output : Output} (h : Owned n trace m.broker) (hn : n<2^32)
    (htrue : Truthful n m event) (hs : serviceStep m event=some (output,m')) :
    ∃ trace',Owned n trace' m'.broker := by
  cases serviceStep_effect hs with
  | call _ hstep => exact ⟨_,h.step (guardedStep_effect hstep)⟩
  | dropGuard hstep => exact ⟨_,h.step (guardedStep_effect hstep)⟩
  | reconcile _ _ _ _ hstep => exact ⟨_,h.step (guardedStep_effect hstep)⟩
  | send | begin | lose | idle | poll | skip => exact ⟨trace,h⟩
  | restart body slots hread =>
    exact startup_owned hn ((parseSlots_eq_some hread).length_eq.symm.trans htrue.size)

/-- With truthful answers, every step that meets the condition keeps the
invariant. -/
theorem Sheltered.step {n : ℕ} {m m' : Service} {event : ServiceEvent} {output : Output}
    (h : Sheltered n m) (hn : n<2^32) (htrue : Truthful n m event) (hsettled : Settled m event)
    (hs : serviceStep m event=some (output,m')) : Sheltered n m' := by
  obtain ⟨trace,howned⟩ := h.owned
  have howned' := owned_step howned hn htrue hs
  cases serviceStep_effect hs with
  | call hserves hstep =>
    obtain ⟨hseeded,hguards⟩ := call_keeps howned hserves (guardedStep_effect hstep)
    refine ⟨howned',fun s job hjob => ?_,fun s job hm => ?_,fun entry hm hp he => ?_⟩
    · exact (h.jobs s job hjob).imp (And.imp_right (hguards _ _)) (hseeded s).mpr
    · exact (h.sent s job hm).imp_right (hguards _ _)
    · exact h.answer entry hm hp ((hseeded _).mp he)
  | send caller slotId hg =>
    refine ⟨howned',h.jobs,fun s job hm => ?_,h.answer⟩
    rcases List.mem_append.mp hm with hm | hm
    · exact h.sent s job hm
    · cases List.mem_singleton.mp hm
      exact ⟨rfl,hg⟩
  | begin request hsent hidle =>
    have howner := h.sent request.1 request.2 hsent
    refine ⟨howned',fun s job hjob => ?_,fun s job hm => ?_,fun entry hm hp he => ?_⟩
    · dsimp only at hjob
      rw [Function.update_apply] at hjob
      split at hjob
      · rename_i hs
        cases hjob
        exact .inl (hs ▸ howner)
      · exact h.jobs s job hjob
    · exact h.sent s job (List.mem_of_mem_erase hm)
    · refine (Function.update_of_ne (fun hslot => ?_) _ _).trans (h.answer entry hm hp he)
      exact owned_not_seeded howned (hslot ▸ howner.2) he
  | lose request =>
    exact ⟨howned',h.jobs,fun s job hm => h.sent s job (List.mem_of_mem_erase hm),h.answer⟩
  | idle slotId =>
    refine ⟨howned',fun s job hjob => ?_,h.sent,fun entry hm hp he => ?_⟩
    · dsimp only at hjob
      rw [Function.update_apply] at hjob
      split at hjob
      · cases hjob
      · exact h.jobs s job hjob
    · dsimp only
      rw [Function.update_apply]
      split
      · rfl
      · exact h.answer entry hm hp he
  | @dropGuard caller _ _ hstep =>
    obtain ⟨hseeded,hkept⟩ := dropGuard_keeps (guardedStep_effect hstep)
    refine ⟨howned',fun s job hjob => ?_,fun s job hm => ?_,fun entry hm hp he => ?_⟩
    · have hne : m.broker.guards caller≠some s := fun hg => by
        cases (hsettled s hg).1.symm.trans hjob
      exact (h.jobs s job hjob).imp (And.imp_right ((hkept s hne).2 _)) (hkept s hne).1
    · have hne : m.broker.guards caller≠some s := fun hg => (hsettled s hg).2 job hm
      exact (h.sent s job hm).imp_right ((hkept s hne).2 _)
    · exact h.answer entry hm hp (hseeded _ he)
  | poll body slots hanswer hread =>
    refine ⟨howned',h.jobs,h.sent,fun entry hm hp _ => ?_⟩
    have hjob := (Honest.read htrue hn hread).1 entry hm
    rw [hp] at hjob
    exact Option.isNone_iff_eq_none.mp (by rw [←Option.not_isSome,←hjob]; rfl)
  | skip entry rest hanswer hbusy =>
    exact ⟨howned',h.jobs,h.sent,fun entry' hm => h.answer entry' (by rw [hanswer]; simp [hm])⟩
  | reconcile entry rest hanswer hidle hstep =>
    obtain ⟨hguards,hseeded⟩ := reconcile_keeps (guardedStep_effect hstep)
    refine ⟨howned',fun s job hjob => ?_,fun s job hm => ?_,fun entry' hm hp he => ?_⟩
    · refine (h.jobs s job hjob).imp (fun hg => hguards ▸ hg) fun hs => (hseeded s).mpr ⟨?_,hs⟩
      rintro rfl
      have hnone := h.answer entry (by rw [hanswer]; simp) hidle hs
      cases hnone.symm.trans hjob
    · exact hguards ▸ h.sent s job hm
    · exact h.answer entry' (by rw [hanswer]; simp [hm]) hp ((hseeded _).mp he).2
  | restart body slots hread =>
    refine ⟨howned',fun s job hjob => .inr ?_,fun s job hm => ?_,fun entry hm => (by cases hm)⟩
    · exact startup_seeded htrue hn hread (h.job_lt hjob) (by rw [show m.job s=some job from hjob]; rfl)
    · rw [Service.restarted,show m.sent=[] from hsettled] at hm
      cases hm

/-- The invariant holds at the start. -/
theorem sheltered_new (n : ℕ) : Sheltered n (Service.new n) :=
  ⟨⟨[],owned_new n⟩,fun _ _ hjob => (by cases hjob),fun _ _ hm => (by cases hm),
    fun _ hm => (by cases hm)⟩

/-- An admission finds its slot free. -/
theorem admitted_free {st st' : Guarded} {event : GuardedEvent} {c : ℕ} {a : Admission}
    (h : guardedStep st event=some (.admitted c a,st')) : st.sched.inner.Free a.slotId := by
  have heff := guardedStep_effect h
  generalize ho : Output.admitted c a=output at heff
  obtain ⟨event',heff⟩ := heff.sched
  subst ho
  obtain ⟨callers,turn,hint,-,htry,-⟩ := heff.of_admitted
  exact (tryAdmitLocked_some htry).1

/-- Under the invariant no slot is shared. -/
theorem Sheltered.apart {n : ℕ} {m : Service} (h : Sheltered n m) : Apart m where
  free _ := h.idle
  admitted event c a m' hs := by
    generalize ho : Output.admitted c a=output at hs
    have hguarded : ∀ {event : GuardedEvent} {st : Guarded},
        guardedStep m.broker event=some (output,st) → m.job a.slotId=none ∧
          ∀ job,(a.slotId,job)∉m.sent := by
      rintro event st hstep
      subst ho
      exact h.idle (admitted_free hstep)
    cases serviceStep_effect hs with
    | call _ hstep => exact hguarded hstep
    | dropGuard hstep => exact hguarded hstep
    | reconcile _ _ _ _ hstep => exact hguarded hstep
    | send | begin | lose | idle | poll | skip | restart => cases ho
  owned _ _ _ hg hjob := h.owner hg hjob
  sent := h.sent

/-- From the invariant only steps that meet the condition keep slots unshared:
a guard dropped early leaves a free slot with work, and a request under way at
a crash is nobody's. -/
theorem Sheltered.settled {n : ℕ} {m m' : Service} {event : ServiceEvent} {output : Output}
    (h : Sheltered n m) (hs : serviceStep m event=some (output,m')) (happ : Apart m') :
    Settled m event := by
  obtain ⟨trace,howned⟩ := h.owned
  cases serviceStep_effect hs with
  | dropGuard hstep =>
    exact fun s hg => happ.free s (dropGuard_frees howned hg (guardedStep_effect hstep))
  | restart body slots hread =>
    refine List.eq_nil_iff_forall_not_mem.mpr fun ⟨s,job⟩ hm => ?_
    have hold := (h.sent s job hm).1
    have hnew : job.epoch=m.epoch+1 := (happ.sent s job hm).1
    omega
  | call | send | begin | lose | idle | poll | skip | reconcile => trivial

/-- Across any number of crashes, with reconciliation acting on truthful
answers of any age: no slot is ever shared if and only if guards are dropped
only when llama-server is done with their slots and the broker dies only when
no request is under way. -/
theorem slots_never_shared {n : ℕ} (hn : n<2^32) {trace : List (ServiceEvent×Output)}
    {m : Service} (h : RunWhen serviceStep (Truthful n) (Service.new n) trace m) :
    Throughout serviceStep (Service.new n) Apart trace ↔
      RunWhen serviceStep (fun m event => Truthful n m event ∧ Settled m event) (Service.new n)
        trace m :=
  h.throughout_iff (Sheltered n) Apart (sheltered_new n) (fun _ hi => hi.apart)
    (fun _ _ _ _ hi ht hset hs => hi.step hn ht hset hs) fun _ _ _ _ hi _ hs hu => hi.settled hs hu

/-- What llama-server answers about two slots. -/
def twoSlots (first second : Bool) : Json := .array
  [.object [("id",.number (.posInt 0)),("is_processing",.bool first)],
    .object [("id",.number (.posInt 1)),("is_processing",.bool second)]]

/-- It is honest if it says what they are doing. -/
theorem honest_twoSlots (job : ℕ → Option Job) :
    Honest 2 job (twoSlots (job 0).isSome (job 1).isSome) := by
  refine ⟨rfl,fun v hv => ?_,fun s hs => ?_⟩
  · rcases List.mem_cons.mp hv with rfl | hv
    · exact ⟨0,by decide,rfl,rfl⟩
    · rw [List.mem_singleton.mp hv]
      exact ⟨1,by decide,rfl,rfl⟩
  · rcases s with _ | _ | s
    · exact ⟨_,List.mem_cons_self,rfl,rfl⟩
    · exact ⟨_,List.mem_cons_of_mem _ (List.mem_singleton_self _),rfl,rfl⟩
    · omega

/-- llama-server's work on slot 0 for the first call of the first broker. -/
def firstJob : ℕ → Option Job := Function.update (fun _ => none) 0 (some ⟨0,0⟩)

/-- The second broker, started while that work goes on. -/
def secondBroker : Service :=
  ⟨⟨startup [⟨0,true⟩,⟨1,false⟩],fun _ => none,false⟩,1,firstJob,[],[]⟩

/-- The same when the work is over. -/
def workOver : Service := {secondBroker with job := Function.update firstJob 0 none}

/-- The broker dies while llama-server works on slot 0 and nothing is under
way. -/
theorem crashed_run : ∃ trace,RunWhen serviceStep
    (fun m event => Truthful 2 m event ∧ Settled m event) (Service.new 2) trace secondBroker := by
  obtain ⟨trace,m,hrun,hjob,hsent,hepoch⟩ : ∃ trace m,RunWhen serviceStep
      (fun m event => Truthful 2 m event ∧ Settled m event) (Service.new 2) trace m ∧
      m.job=firstJob ∧ m.sent=[] ∧ m.epoch=0 := by
    have hcalls : Run serviceStep (Service.new 2) _ _ := run_of_exec
      (show exec serviceStep (Service.new 2) [.call (.admitCall none),.send 0,.begin (0,⟨0,0⟩)]=
        some _ from rfl)
    refine ⟨_,_,hcalls.strengthen ?_,rfl,rfl,rfl⟩
    intro entry hm t
    simp only [List.mem_cons,List.not_mem_nil,or_false] at hm
    rcases hm with rfl | rfl | rfl <;> exact ⟨trivial,trivial⟩
  have hhonest : Truthful 2 m (.restart (twoSlots true false)) := by
    rw [Truthful,hjob]
    exact honest_twoSlots firstJob
  have hcrash := hrun.next ⟨hhonest,hsent⟩
    (show serviceStep m (.restart (twoSlots true false))=
      some (.unit,m.restarted [⟨0,true⟩,⟨1,false⟩]) from rfl)
  rw [Service.restarted,hjob,hsent,hepoch] at hcrash
  exact ⟨_,hcrash⟩

/-- The next broker admits to slot 1 after that crash. -/
theorem slots_never_shared_crash : ∃ trace m',
    RunWhen serviceStep (Truthful 2) (Service.new 2) trace secondBroker ∧
    Throughout serviceStep (Service.new 2) Apart trace ∧ secondBroker.job 0=some ⟨0,0⟩ ∧
    serviceStep secondBroker (.call (.admitCall none))=some (.admitted 0 ⟨1,false⟩,m') := by
  obtain ⟨trace,hrun⟩ := crashed_run
  have htrue := hrun.weaken fun _ _ => And.left
  exact ⟨trace,_,htrue,(slots_never_shared (by decide) htrue).mpr hrun,rfl,rfl⟩

/-- The event is a restart. -/
def ServiceEvent.isRestart : ServiceEvent → Bool
  | .restart _ => true
  | _ => false

/-- What is left of an answer still frees a slot, or the slot needs it not. -/
def Returning (s : ℕ) (m : Service) : Prop :=
  (∃ entry∈m.answer,entry.isProcessing=false ∧ entry.id.toNat=s) ∨ ¬Seeded m.broker.sched s

/-- Until the next restart, a slot on its way back stays so. -/
theorem Returning.step {n s : ℕ} {trace : List (GuardedEvent×Output)} {m m' : Service}
    {event : ServiceEvent} {output : Output} (h : Returning s m) (howned : Owned n trace m.broker)
    (hno : event.isRestart=false) (hs : serviceStep m event=some (output,m')) : Returning s m' := by
  cases serviceStep_effect hs with
  | call hserves hstep =>
    obtain ⟨hseeded,-⟩ := call_keeps howned hserves (guardedStep_effect hstep)
    exact h.imp id fun hn hs => hn ((hseeded s).mp hs)
  | send | begin | lose | idle => exact h
  | dropGuard hstep =>
    obtain ⟨hseeded,-⟩ := dropGuard_keeps (guardedStep_effect hstep)
    exact h.imp id fun hn hs => hn (hseeded s hs)
  | poll body slots hanswer hread =>
    refine .inr (h.resolve_left ?_)
    rintro ⟨entry,hm,-⟩
    rw [hanswer] at hm
    cases hm
  | skip entry rest hanswer hbusy =>
    rw [Returning,hanswer] at h
    rcases h with ⟨entry',hm,hp,hid⟩ | hn
    · rcases List.mem_cons.mp hm with rfl | hm
      · rw [hbusy] at hp
        cases hp
      · exact .inl ⟨entry',hm,hp,hid⟩
    · exact .inr hn
  | reconcile entry rest hanswer hidle hstep =>
    rw [Returning,hanswer] at h
    obtain ⟨-,hseeded⟩ := reconcile_keeps (guardedStep_effect hstep)
    rcases h with ⟨entry',hm,hp,hid⟩ | hn
    · rcases List.mem_cons.mp hm with rfl | hm
      · exact .inr fun hs => ((hseeded s).mp hs).1 hid.symm
      · exact .inl ⟨entry',hm,hp,hid⟩
    · exact .inr fun hs => hn ((hseeded s).mp hs).2
  | restart => cases hno

/-- An honest answer puts every slot that llama-server is idle on on its way
back. -/
theorem returning_of_poll {n s : ℕ} {m u : Service} {body : Json} {output : Output} (hn : n<2^32)
    (htrue : Truthful n m (.poll body)) (hpoll : serviceStep m (.poll body)=some (output,u)) (hs : s<n)
    (hidle : m.job s=none) : Returning s u := by
  cases serviceStep_effect hpoll with
  | poll _ slots hanswer hread =>
    obtain ⟨hstate,hlists⟩ := Honest.read htrue hn hread
    obtain ⟨entry,hm,hid⟩ := hlists s hs
    refine .inl ⟨entry,hm,?_,hid⟩
    rw [hstate entry hm,hid,hidle]
    rfl

/-- A slot of the table that nobody owns and that is not seeded is free. -/
theorem free_or_owned {n s : ℕ} {trace : List (GuardedEvent×Output)} {st : Guarded}
    (h : Owned n trace st) (hs : s<n) (hnot : ¬Seeded st.sched s) :
    st.sched.inner.Free s ∨ ∃ c,st.guards c=some s := by
  rw [←h.queued.size] at hs
  have hslot := List.getElem?_eq_getElem hs
  cases hb : st.sched.inner.slots[s].busy with
  | false => exact .inl ⟨_,hslot,hb⟩
  | true =>
    rcases (h.account s _ hslot).busy hb with hg | hp
    · exact .inr hg
    · exact absurd ⟨_,hslot,(h.account s _ hslot).seeded hp⟩ hnot

/-- With truthful answers the running broker's accounts are right throughout. -/
theorem owned_of_truthful {n : ℕ} (hn : n<2^32) {trace : List (ServiceEvent×Output)}
    {m m' : Service} (h : RunWhen serviceStep (Truthful n) m trace m')
    (hm : ∃ trace,Owned n trace m.broker) : ∃ trace,Owned n trace m'.broker :=
  h.invariant (fun m => ∃ trace,Owned n trace m.broker) hm
    fun _ _ _ _ ⟨_,hi⟩ ho hs => owned_step hi hn ho hs

/-- Over a run without restart, a slot on its way back stays so. -/
theorem returning_of_run {n s : ℕ} (hn : n<2^32) {rest : List (ServiceEvent×Output)}
    {u m' : Service} (h : RunWhen serviceStep (Truthful n) u rest m')
    (hu : ∃ trace,Owned n trace u.broker) (hret : Returning s u)
    (hno : ∀ entry∈rest,entry.1.isRestart=false) : Returning s m' := by
  induction h with
  | start => exact hret
  | @next rest t v event output hr ho hs ih =>
    obtain ⟨_,howned⟩ := owned_of_truthful hn hr hu
    have ht := ih fun entry he => hno entry (List.mem_append_left _ he)
    exact ht.step howned (hno (event,output) (by simp)) hs

/-- With truthful answers a restart costs no capacity for good: once an answer
was given while llama-server was idle on a slot, and the reconciling task has
gone through it, the slot is free or somebody's, whatever happened in between
short of another restart. -/
theorem restart_capacity_recovered {n : ℕ} (hn : n<2^32) {trace rest : List (ServiceEvent×Output)}
    {m u m' : Service} {body : Json} {output : Output}
    (h : RunWhen serviceStep (Truthful n) (Service.new n) trace m)
    (htrue : Truthful n m (.poll body)) (hpoll : serviceStep m (.poll body)=some (output,u))
    (hrest : RunWhen serviceStep (Truthful n) u rest m')
    (hno : ∀ entry∈rest,entry.1.isRestart=false) (hdone : m'.answer=[]) {s : ℕ} (hs : s<n)
    (hidle : m.job s=none) :
    m'.broker.sched.inner.Free s ∨ ∃ c,m'.broker.guards c=some s := by
  have hm := owned_of_truthful hn h ⟨[],owned_new n⟩
  have hu := owned_of_truthful hn (.single htrue hpoll) hm
  obtain ⟨_,howned⟩ := owned_of_truthful hn hrest hu
  have hret := returning_of_run hn hrest hu (returning_of_poll hn htrue hpoll hs hidle) hno
  refine free_or_owned howned hs (hret.resolve_left ?_)
  rintro ⟨entry,hentry,-⟩
  rw [hdone] at hentry
  cases hentry

/-- After that crash and the end of the work, one round of reconciliation gives
slot 0 back. -/
theorem restart_capacity_recovered_crash : ∃ trace m,
    RunWhen serviceStep (Truthful 2) (Service.new 2) trace m ∧ m.answer=[] ∧
    (m.broker.sched.inner.Free 0 ∨ ∃ c,m.broker.guards c=some 0) := by
  obtain ⟨trace,hrun⟩ := crashed_run
  have hidle : RunWhen serviceStep (Truthful 2) (Service.new 2) _ workOver :=
    (hrun.weaken fun _ _ => And.left).next (show Truthful 2 secondBroker (.idle 0) from trivial) rfl
  have hhonest : Truthful 2 workOver (.poll (twoSlots false false)) := honest_twoSlots workOver.job
  have hpolled : serviceStep workOver (.poll (twoSlots false false))=
    some (.unit,{workOver with answer := [⟨0,false⟩,⟨1,false⟩]}) := rfl
  have hrest : Run serviceStep {workOver with answer := [⟨0,false⟩,⟨1,false⟩]} _ _ := run_of_exec
    (show exec serviceStep {workOver with answer := [⟨0,false⟩,⟨1,false⟩]} [.reconcile,.reconcile]=
      some _ from rfl)
  have hround : RunWhen serviceStep (Truthful 2) _ _ _ := hrest.strengthen fun entry hm t => by
    simp only [List.mem_cons,List.not_mem_nil,or_false] at hm
    rcases hm with rfl | rfl <;> trivial
  refine ⟨_,_,(hidle.next hhonest hpolled).append hround,rfl,?_⟩
  exact restart_capacity_recovered (by decide) hidle hhonest hpolled hround
    (by simp [ServiceEvent.isRestart]) rfl (by decide) rfl

end AivyxBroker.Restart
