import AivyxBroker.TaskResidency

/-!
# What the residency table promises

Along every run whose operations meet the condition, the table is right about
every slot that no task holds: for a held slot its task is safe, and a task
without its guard does nothing to a slot any more. So a ready cache of an
admission is real. A failed warm-up that breaks the condition makes the table
lie at once.
-/

namespace AivyxBroker.Broker

open Scheduler Forward Program RunInvariant WakeSignal

variable {hint : Option SlotHint} {slotId : ℕ} {l : Local}

/-- The condition on steps of the broker: it concerns the operations of the
forwarding tasks only. -/
def KeepsResidency (st : System) : Event → Prop
  | .work caller reply =>
    match st.jobs caller with
    | some ⟨hint,slotId,.ask op _⟩ =>
      OpKeeps hint st.store (recorded st.guarded.sched.inner slotId) op reply
    | _ => True
  | _ => True

instance (st : System) (event : Event) : Decidable (KeepsResidency st event) := by
  unfold KeepsResidency
  split
  · split <;> infer_instance
  · infer_instance

/-- A slot update that keeps residency keeps the records. -/
theorem recorded_modifySlot {inner : Inner} {slotId : ℕ} {f : SlotState → SlotState}
    (hf : ∀ slot,(f slot).residentPrefix=slot.residentPrefix ∧
      (f slot).residentModel=slot.residentModel) (s : ℕ) :
    recorded (inner.modifySlot slotId f) s=recorded inner s := by
  unfold recorded
  rw [modifySlot_slot]
  split
  · cases inner.slots[s]? with
    | none => rfl
    | some slot => simp [(hf slot).1,(hf slot).2]
  · rfl

/-- What the record of a slot becomes in a step of the scheduler: only
residency updates change it. -/
theorem effect_recorded {st st' : State} {event : Scheduler.Event} {output : Scheduler.Output}
    (heff : Scheduler.Effect st event output st') (s : ℕ) : recorded st'.inner s=
      match event with
      | .markResident slotId model prefixHash =>
        if slotId=s ∧ s < st.inner.slots.length then some (model,prefixHash)
        else recorded st.inner s
      | .clearResident slotId => if slotId=s then none else recorded st.inner s
      | _ => recorded st.inner s := by
  cases heff with
  | @admitted _ _ _ _ _ a hc htry =>
    have hr : recorded (st.inner.claim a.slotId) s=recorded st.inner s :=
      recorded_modifySlot (by exact fun _ => ⟨rfl,rfl⟩) s
    cases hc <;> exact hr
  | @parked _ _ caller turn hint hc =>
    have hr : recorded (enqueue st.inner hint ⟨caller,turn⟩) s=recorded st.inner s := by
      unfold recorded
      rw [enqueue_slots]
    cases hc <;> exact hr
  | leave caller p hp he => rcases he with ⟨rfl,-⟩ | ⟨rfl,-⟩ <;> rfl
  | freed slotId slot hs he =>
    have hr : recorded (st.freed slotId).inner s=recorded st.inner s := by
      have hm : recorded (st.inner.modifySlot slotId fun slot => {slot with busy := false}) s=
          recorded st.inner s := recorded_modifySlot (by exact fun _ => ⟨rfl,rfl⟩) s
      unfold recorded at hm ⊢
      rw [freed_slot,←modifySlot_slot]
      exact hm
    rcases he with rfl | ⟨rfl,-⟩ <;> exact hr
  | ignored slotId he => rcases he with ⟨rfl,-⟩ | ⟨rfl,-⟩ <;> rfl
  | resident slotId prefixHash model he =>
    have hr := modifySlot_slot st.inner slotId s fun slot =>
      {slot with residentPrefix := prefixHash, residentModel := model}
    rcases he with ⟨h,rfl,rfl⟩ | ⟨rfl,rfl,rfl⟩
    · unfold recorded
      dsimp only
      rw [hr]
      by_cases hs : slotId=s
      · by_cases hlt : s < st.inner.slots.length <;> simp [hs,hlt]
      · simp [hs]
    · unfold recorded
      dsimp only
      rw [hr]
      by_cases hs : slotId=s
      · cases st.inner.slots[s]? <;> simp [hs]
      · simp [hs]
  | seeded slotId => exact recorded_modifySlot (by exact fun _ => ⟨rfl,rfl⟩) s

variable {n : ℕ} {guarded guarded' : Guarded} {trace : List (GuardedEvent×Scheduler.Output)}

/-- The scheduler calls of a task concern its own slot and its own guard:
`next` is what the task finds of both afterwards. -/
structure Scheduled (n : ℕ) (guarded guarded' : Guarded) (caller slotId : ℕ) (next : Local) :
    Prop where
  /-- Every guard still owns its slot. -/
  owned : ∃ trace,Owned n trace guarded'
  /-- The task's own guard goes with the slot. -/
  guards : ∀ c,guarded'.guards c=
    if c=caller ∧ next.held=false then none else guarded.guards c
  /-- The record of its own slot is what the task made it. -/
  record : ∀ s,recorded guarded'.sched.inner s=
    if s=slotId then next.record else recorded guarded.sched.inner s

/-- An operation without scheduler call changes neither. -/
theorem scheduled_same {caller : ℕ} {next : Local} (howned : Owned n trace guarded)
    (hheld : next.held=true) (hrecord : next.record=recorded guarded.sched.inner slotId) :
    Scheduled n guarded guarded caller slotId next := by
  refine ⟨⟨trace,howned⟩,fun c => by simp [hheld],fun s => ?_⟩
  rw [hrecord]
  split
  · rename_i hs
    rw [hs]
  · rfl

/-- Every operation of a task that its rule admits is scheduled so. -/
theorem schedule_spec {caller : ℕ} {op : Op} (after : Content) (howned : Owned n trace guarded)
    (hg : guarded.guards caller=some slotId) (hheld : l.held=true)
    (hrecord : l.record=recorded guarded.sched.inner slotId)
    (hadm : (jobRule hint slotId).admits l op) (h : schedule guarded caller op=some guarded') :
    Scheduled n guarded guarded' caller slotId (l.after after op) := by
  have same : guarded=guarded' → (l.after after op).held=true → (l.after after op).record=l.record →
      Scheduled n guarded guarded' caller slotId (l.after after op) := by
    rintro rfl hh hr
    exact scheduled_same howned hh (hr.trans hrecord)
  have hlt := howned.range _ _ hg
  rw [←howned.queued.size] at hlt
  cases op with
  | markResident s model prefixHash =>
    obtain ⟨-,rfl⟩ := hadm
    have hstep : Scheduler.step guarded.sched (.markResident s model prefixHash)=some (.unit,
      ⟨markResident guarded.sched.inner s model prefixHash,guarded.sched.callers⟩) := rfl
    have hs : guardedStep guarded (.call (.markResident s model prefixHash))=some (.unit,
      {guarded with sched :=
        ⟨markResident guarded.sched.inner s model prefixHash,guarded.sched.callers⟩}) := rfl
    rw [schedule,hs] at h
    cases h
    refine ⟨⟨_,howned.step (guardedStep_effect hs)⟩,fun c => by simp [hheld,Local.after],
      fun t => (effect_recorded (Scheduler.step_effect hstep) t).trans ?_⟩
    by_cases ht : t=s
    · subst ht
      simp [hlt,Local.after]
    · simp [ht,Ne.symm ht]
  | clearResident s =>
    obtain ⟨-,rfl⟩ := hadm
    have hstep : Scheduler.step guarded.sched (.clearResident s)=some (.unit,
      ⟨clearResident guarded.sched.inner s,guarded.sched.callers⟩) := rfl
    have hs : guardedStep guarded (.call (.clearResident s))=some (.unit,{guarded with
      sched := ⟨clearResident guarded.sched.inner s,guarded.sched.callers⟩}) := rfl
    rw [schedule,hs] at h
    cases h
    refine ⟨⟨_,howned.step (guardedStep_effect hs)⟩,fun c => by simp [hheld,Local.after],
      fun t => (effect_recorded (Scheduler.step_effect hstep) t).trans ?_⟩
    by_cases ht : t=s
    · simp [ht,Local.after]
    · simp [ht,Ne.symm ht]
  | dropGuard s =>
    obtain ⟨sched,hstep⟩ : ∃ sched,Scheduler.step guarded.sched (.release slotId)=
      some (.unit,sched) := ⟨_,rfl⟩
    have hs : guardedStep guarded (.dropGuard caller)=some (.unit,⟨sched,
      Function.update guarded.guards caller none,guarded.admittedOnce⟩) := by
      simp only [guardedStep,hg,hstep,Option.map_some]
    rw [schedule,hs] at h
    cases h
    refine ⟨⟨_,howned.step (guardedStep_effect hs)⟩,fun c => ?_,
      fun t => (effect_recorded (Scheduler.step_effect hstep) t).trans ?_⟩
    · simp [Local.after,Function.update_apply]
    · by_cases ht : t=slotId
      · simp [ht,Local.after,hrecord]
      · simp [ht]
  | restoreIntoSlot => exact same (Option.some.inj h) hheld rfl
  | post => exact same (Option.some.inj h) hheld rfl
  | saveFromSlot => exact same (Option.some.inj h) hheld rfl
  | sendHead => exact same (Option.some.inj h) hheld rfl
  | nextChunk => exact same (Option.some.inj h) hheld rfl
  | sendChunk => exact same (Option.some.inj h) hheld rfl
  | storeAbandoned => exact same (Option.some.inj h) hheld rfl
  | dropChunkTx => exact same (Option.some.inj h) hheld rfl

/-- What the task holding a slot relies on. -/
def System.view (st : System) (slotId : ℕ) : Local :=
  ⟨true,recorded st.guarded.sched.inner slotId,st.content slotId⟩

/-- The invariant of the broker. -/
structure Sound (n : ℕ) (st : System) : Prop where
  /-- Ownership of slots is exclusive. -/
  owned : ∃ trace,Owned n trace st.guarded
  /-- The store holds what its keys say. -/
  store : Saved st.store
  /-- The record of a slot without a guard is right. -/
  free : ∀ s,(∀ c,st.guarded.guards c≠some s) →
    Agrees (recorded st.guarded.sched.inner s) (st.content s)
  /-- The task of a guard is safe on its slot. -/
  job : ∀ c s,st.guarded.guards c=some s → ∃ hint rest,st.jobs c=some ⟨hint,s,rest⟩ ∧
    rest.Safe (jobRule hint s) (st.view s) Over
  /-- A task without its guard is safe on any slot. -/
  idle : ∀ c job,st.jobs c=some job → st.guarded.guards c=none → ∀ record content,
    job.rest.Safe (jobRule job.hint job.slotId) ⟨false,record,content⟩ Over

/-- Without its guard, a task changes nothing any more. -/
theorem released_quiet {op : Op} {answer : Ans op} {reply : Reply} {caller : ℕ}
    {store : CacheKey → Option Entry} {before after : Content} (hheld : l.held=false)
    (hadm : (jobRule hint slotId).admits l op)
    (htouch : touch hint store before op reply=some (answer,after))
    (hsched : schedule guarded caller op=some guarded') :
    (jobRule hint slotId).result l op answer l ∧ after=before ∧ guarded'=guarded ∧
      saved store hint before op answer=store := by
  have hno : ¬l.held=true := by simp [hheld]
  cases op with
  | restoreIntoSlot => exact absurd hadm.1 hno
  | post => exact absurd hadm hno
  | saveFromSlot => exact absurd hadm.1 hno
  | markResident => exact absurd hadm.1 hno
  | clearResident => exact absurd hadm.1 hno
  | dropGuard => exact absurd hadm.1 hno
  | sendHead => cases hsched; cases reply <;> cases htouch; exact ⟨rfl,rfl,rfl,rfl⟩
  | nextChunk => cases hsched; cases reply <;> cases htouch; exact ⟨rfl,rfl,rfl,rfl⟩
  | sendChunk => cases hsched; cases reply <;> cases htouch; exact ⟨rfl,rfl,rfl,rfl⟩
  | storeAbandoned => cases hsched; cases reply <;> cases htouch; exact ⟨rfl,rfl,rfl,rfl⟩
  | dropChunkTx => cases hsched; cases reply <;> cases htouch; exact ⟨rfl,rfl,rfl,rfl⟩

/-- What a task saves is the prefix of the key it saves under. -/
theorem saved_spec {op : Op} {answer : Ans op} {store : CacheKey → Option Entry}
    (hstore : Saved store) (hadm : (jobRule hint slotId).admits l op) :
    Saved (saved store hint l.content op answer) := by
  unfold saved
  split
  · rename_i key s info
    intro key' entry he
    rw [Function.update_apply] at he
    split at he
    · rename_i hk
      cases he
      obtain ⟨-,-,hkey,hc⟩ := hadm
      obtain ⟨h,rfl,rfl⟩ := Option.map_eq_some_iff.mp hkey
      rw [hc,hk]
      rfl
    · exact hstore key' entry he
  · exact hstore

/-- Only a guard drop ends the holding of a slot. -/
theorem after_released {after : Content} {op : Op} (hheld : l.held=true)
    (h : (l.after after op).held=false) : ∃ s,op=.dropGuard s := by
  cases op with
  | dropGuard s => exact ⟨s,rfl⟩
  | restoreIntoSlot | post | saveFromSlot | markResident | clearResident | sendHead | nextChunk
  | sendChunk | storeAbandoned | dropChunkTx => cases hheld.symm.trans h

@[simp] theorem after_content (l : Local) (after : Content) (op : Op) :
    (l.after after op).content=after := by
  cases op <;> rfl

/-- What a task does after its guard was dropped keeps the invariant. -/
theorem Sound.performedIdle {st : System} {reply : Reply} {op : Op}
    {resume : Ans op → Forwarding Unit} {answer : Ans op} {after : Content} {caller : ℕ}
    (h : Sound n st) (hjob : st.jobs caller=some ⟨hint,slotId,.ask op resume⟩)
    (htouch : touch hint st.store (st.content slotId) op reply=some (answer,after))
    (hsched : schedule st.guarded caller op=some guarded')
    (hg : st.guarded.guards caller=none) :
    Sound n ⟨guarded',st.bodies,Function.update st.jobs caller (some ⟨hint,slotId,resume answer⟩),
      Function.update st.content slotId after,saved st.store hint (st.content slotId) op answer⟩ := by
  have hsafe := h.idle caller _ hjob hg
  obtain ⟨-,rfl,rfl,hstore⟩ := released_quiet rfl (hsafe none none).1 htouch hsched
  rw [hstore,Function.update_eq_self]
  refine ⟨h.owned,h.store,h.free,fun c s hc => ?_,fun c job hc hnone => ?_⟩
  · dsimp only
    rw [Function.update_of_ne (by rintro rfl; rw [hg] at hc; cases hc)]
    exact h.job c s hc
  · dsimp only at hc
    rw [Function.update_apply] at hc
    split at hc
    · cases hc
      intro record content
      obtain ⟨hadm,hres⟩ := hsafe record content
      exact hres answer _ (released_quiet rfl hadm htouch hsched).1
    · exact h.idle c job hc hnone

/-- What a task does while it holds its slot keeps the invariant, if it meets
the condition. -/
theorem Sound.performedHeld {st : System} {reply : Reply} {op : Op}
    {resume : Ans op → Forwarding Unit} {answer : Ans op} {after : Content} {caller : ℕ}
    (h : Sound n st) (hsafe : (Program.ask op resume).Safe (jobRule hint slotId) (st.view slotId)
      Over) (htouch : touch hint st.store (st.content slotId) op reply=some (answer,after))
    (hsched : schedule st.guarded caller op=some guarded')
    (hkeeps : OpKeeps hint st.store (recorded st.guarded.sched.inner slotId) op reply)
    (hg : st.guarded.guards caller=some slotId) :
    Sound n ⟨guarded',st.bodies,Function.update st.jobs caller (some ⟨hint,slotId,resume answer⟩),
      Function.update st.content slotId after,saved st.store hint (st.content slotId) op answer⟩ := by
  obtain ⟨trace,howned⟩ := h.owned
  obtain ⟨howned',hguards,hrecord⟩ := schedule_spec after howned hg rfl rfl hsafe.1 hsched
  have hresult := touch_result h.store hsafe.1 hkeeps htouch
  have hdropped : guarded'.guards caller≠some slotId → ∃ t,op=.dropGuard t := by
    intro hne
    rw [hguards,hg] at hne
    by_cases hheld : ((st.view slotId).after after op).held=false
    · exact after_released rfl hheld
    · exact absurd (if_neg fun hd => hheld hd.2) hne
  refine ⟨howned',saved_spec h.store hsafe.1,fun s hno => ?_,fun c s hc => ?_,
    fun c job hc hnone => ?_⟩
  · by_cases hs : s=slotId
    · subst hs
      obtain ⟨t,rfl⟩ := hdropped (hno caller)
      have hafter : after=st.content s := by
        cases reply <;> cases htouch
        rfl
      dsimp only
      rw [hrecord,if_pos rfl,Function.update_self,hafter]
      exact hsafe.1.2.2
    · dsimp only
      rw [hrecord,if_neg hs,Function.update_of_ne hs]
      refine h.free s fun c hc => hno c ((hguards c).trans ?_)
      rw [if_neg fun hd => (by rw [hd.1,hg] at hc; exact hs (Option.some.inj hc).symm)]
      exact hc
  · dsimp only [System.view] at hc ⊢
    rw [hguards] at hc
    split at hc
    · cases hc
    · rename_i hd
      by_cases hcc : c=caller
      · subst hcc
        cases hg.symm.trans hc
        have hview : (⟨true,((st.view slotId).after after op).record,after⟩ : Local)=
            (st.view slotId).after after op := by
          have hheld : ((st.view slotId).after after op).held=true := by simpa using hd
          rw [←hheld]
          exact congrArg (Local.mk _ _) (after_content ..).symm
        refine ⟨hint,resume answer,Function.update_self ..,?_⟩
        rw [hrecord,if_pos rfl,Function.update_self,hview]
        exact hsafe.2 answer _ hresult
      · have hne : s≠slotId := by
          rintro rfl
          exact hcc (howned.exclusive _ _ _ hc hg)
        rw [hrecord,if_neg hne,Function.update_of_ne hne,Function.update_of_ne hcc]
        exact h.job c s hc
  · dsimp only at hc hnone
    rw [Function.update_apply] at hc
    split at hc
    · rename_i hcc
      cases hc
      subst hcc
      obtain ⟨t,rfl⟩ := hdropped (by simp [hnone])
      exact fun record content => hsafe.2 answer _ rfl
    · rename_i hcc
      rw [hguards,if_neg fun hd => hcc hd.1] at hnone
      exact h.idle c job hc hnone

/-- An operation that meets the condition keeps the invariant. -/
theorem Sound.performed {st : System} {reply : Reply} {op : Op}
    {resume : Ans op → Forwarding Unit} {answer : Ans op} {after : Content} {caller : ℕ}
    (h : Sound n st) (hjob : st.jobs caller=some ⟨hint,slotId,.ask op resume⟩)
    (htouch : touch hint st.store (st.content slotId) op reply=some (answer,after))
    (hsched : schedule st.guarded caller op=some guarded')
    (hkeeps : OpKeeps hint st.store (recorded st.guarded.sched.inner slotId) op reply) :
    Sound n ⟨guarded',st.bodies,Function.update st.jobs caller (some ⟨hint,slotId,resume answer⟩),
      Function.update st.content slotId after,saved st.store hint (st.content slotId) op answer⟩ := by
  cases hg : st.guarded.guards caller with
  | none => exact h.performedIdle hjob htouch hsched hg
  | some s =>
    obtain ⟨_,_,hj,hsafe⟩ := h.job caller s hg
    cases hjob.symm.trans hj
    exact h.performedHeld hsafe htouch hsched hkeeps hg

/-- What the new guard of an admission is about: a slot nobody had, with a
truthful answer whether it is recorded to hold the request's prefix. -/
structure Granted (guarded guarded' : Guarded) (hint : Option SlotHint) (caller : ℕ)
    (a : Admission) : Prop where
  /-- The admitted call had no guard. -/
  fresh : guarded.guards caller=none
  /-- The slot had no guard. -/
  unguarded : ∀ c,guarded.guards c≠some a.slotId
  /-- The call now guards the slot. -/
  guards : ∀ c,guarded'.guards c=if c=caller then some a.slotId else guarded.guards c
  /-- A ready cache is recorded for the request's own content. -/
  ready : a.cacheReady=true →
    ∃ h,hint=some h ∧ recorded guarded.sched.inner a.slotId=ownContent h

/-- An arrival or a background event leaves all records, and either grants a
slot or leaves all guards. -/
theorem called_spec {call : Scheduler.Event} {output : Scheduler.Output}
    (howned : Owned n trace guarded) (heff : GuardedEffect guarded (.call call) output guarded')
    (hcall : background call=true ∨ call=.admitCall hint)
    (hhint : ∀ callers caller turn hint',
      Attempts guarded.sched call callers caller turn hint' → hint'=hint) :
    (∀ s,recorded guarded'.sched.inner s=recorded guarded.sched.inner s) ∧
    ((∃ c a,output=.admitted c a ∧ Granted guarded guarded' hint c a) ∨
      (∀ c a,output≠.admitted c a) ∧ guarded'.guards=guarded.guards) := by
  cases heff with
  | @call _ _ sched hp heff =>
    have hrecord : ∀ s,recorded sched.inner s=recorded guarded.sched.inner s := by
      intro s
      rw [effect_recorded heff s]
      rcases hcall with hb | rfl
      · cases call <;> first | rfl | cases hb
      · rfl
    refine ⟨by simpa using hrecord,?_⟩
    cases heff with
    | admitted a hc htry =>
      obtain rfl := hhint _ _ _ _ hc
      obtain ⟨hfree,-,hready,-⟩ := tryAdmitLocked_some htry
      refine .inl ⟨_,a,rfl,(howned.attempts hc).1,howned.unguarded hfree,
        fun c => Function.update_apply ..,fun ht => ?_⟩
      rw [hready] at ht
      obtain ⟨h,hh,hany⟩ := (Option.any_eq_true _ _).mp ht
      obtain ⟨slot,hs,hr⟩ := (Option.any_eq_true _ _).mp hany
      rw [SlotHint.isResidentIn,Bool.and_eq_true,beq_iff_eq,beq_iff_eq] at hr
      exact ⟨h,hh,by simp [recorded,ownContent,hs,hr]⟩
    | parked => exact .inr ⟨nofun,rfl⟩
    | leave _ _ _ he => rcases he with ⟨-,rfl⟩ | ⟨-,rfl⟩ <;> exact .inr ⟨nofun,rfl⟩
    | freed => exact .inr ⟨nofun,rfl⟩
    | ignored => exact .inr ⟨nofun,rfl⟩
    | resident => exact .inr ⟨nofun,rfl⟩
    | seeded => exact .inr ⟨nofun,rfl⟩

/-- An arrival or a background event keeps the invariant; the task it may
spawn starts on a slot whose record is right. -/
theorem Sound.called {st : System} {llamaServerUrl : String} {call : Scheduler.Event}
    {output : Scheduler.Output} (bodies : ℕ → Json) (h : Sound n st)
    (heff : GuardedEffect st.guarded (.call call) output guarded')
    (hcall : background call=true ∨ call=.admitCall hint)
    (hhint : ∀ callers caller turn hint',
      Attempts st.guarded.sched call callers caller turn hint' → hint'=hint) :
    Sound n (System.spawn {st with guarded := guarded', bodies := bodies} llamaServerUrl hint
      output) := by
  obtain ⟨trace,howned⟩ := h.owned
  have howned' := howned.step heff
  obtain ⟨hrecord,hgrant⟩ := called_spec howned heff hcall hhint
  rcases hgrant with ⟨c,a,rfl,hgrant⟩ | ⟨hno,hguards⟩
  · refine ⟨⟨_,howned'⟩,h.store,fun s hno => ?_,fun c' s hc => ?_,fun c' job hc hnone => ?_⟩
    · dsimp only [System.spawn] at hno ⊢
      rw [hrecord]
      refine h.free s fun c' hc' => hno c' ((hgrant.guards c').trans ?_)
      rw [if_neg (by rintro rfl; rw [hgrant.fresh] at hc'; cases hc')]
      exact hc'
    · dsimp only [System.spawn,System.view] at hc ⊢
      rw [hgrant.guards] at hc
      rw [Function.update_apply,hrecord]
      split at hc
      · rename_i hcc
        cases hc
        refine ⟨hint,_,by rw [if_pos hcc],forward_resident llamaServerUrl (bodies c) a ⟨rfl,?_⟩ ?_⟩
        · exact h.free _ hgrant.unguarded
        · intro h' hh ht
          obtain ⟨h'',hh'',hr⟩ := hgrant.ready ht
          cases hh.symm.trans hh''
          exact h.free _ hgrant.unguarded _ hr
      · rename_i hcc
        rw [if_neg hcc]
        exact h.job c' s hc
    · dsimp only [System.spawn] at hc hnone
      rw [hgrant.guards] at hnone
      rw [Function.update_apply] at hc
      split at hc
      · rename_i hcc
        rw [if_pos hcc] at hnone
        cases hnone
      · rename_i hcc
        rw [if_neg hcc] at hnone
        exact h.idle c' job hc hnone
  · have hspawn : System.spawn {st with guarded := guarded', bodies := bodies} llamaServerUrl hint
        output={st with guarded := guarded', bodies := bodies} := by
      cases output with
      | admitted c a => exact absurd rfl (hno c a)
      | parked | timedOut | cancelled | unit => rfl
    rw [hspawn]
    refine ⟨⟨_,howned'⟩,h.store,fun s hno => ?_,fun c s hc => ?_,fun c job hc hnone => ?_⟩
    · dsimp only at hno ⊢
      rw [hrecord]
      exact h.free s (hguards ▸ hno)
    · dsimp only [System.view] at hc ⊢
      rw [hrecord]
      exact h.job c s (hguards ▸ hc)
    · exact h.idle c job hc (hguards ▸ hnone)

/-- Every step that meets the condition keeps the invariant. -/
theorem Sound.step {st st' : System} {llamaServerUrl : String} {event : Event} {output : Output}
    (h : Sound n st) (hok : KeepsResidency st event)
    (heff : Effect llamaServerUrl st event output st') : Sound n st' := by
  cases heff with
  | called hint bodies heff hcall hhint => exact h.called bodies heff hcall hhint
  | performed caller hjob htouch hsched =>
    simp only [KeepsResidency,hjob] at hok
    exact h.performed hjob htouch hsched hok
  | evicted key =>
    refine ⟨h.owned,fun key' entry he => ?_,h.free,h.job,h.idle⟩
    dsimp only at he
    rw [Function.update_apply] at he
    split at he
    · cases he
    · exact h.store key' entry he

/-- A new broker records nothing. -/
theorem recorded_new (numSlots s : ℕ) : recorded (Inner.new numSlots) s=none := by
  unfold recorded
  cases hs : (Inner.new numSlots).slots[s]? with
  | none => rfl
  | some slot =>
    obtain rfl := (List.mem_replicate.mp (List.mem_of_getElem? hs)).2
    rfl

/-- A started broker is sound, whatever its slots hold. -/
theorem sound_new (numSlots : ℕ) (content : ℕ → Content) :
    Sound numSlots (System.new numSlots content) where
  owned := ⟨[],owned_new numSlots⟩
  store _ _ he := by cases he
  free s _ x hx := by
    rw [show recorded (System.new numSlots content).guarded.sched.inner s=none from
      recorded_new numSlots s] at hx
    cases hx
  job _ _ hc := by cases hc
  idle _ _ hc := by cases hc

/-- The invariant holds after every run that meets the condition. -/
theorem sound_of_run {llamaServerUrl : String} {content : ℕ → Content}
    {trace : List (Event×Output)} {st : System}
    (h : RunWhen (step llamaServerUrl) KeepsResidency (System.new n content) trace st) :
    Sound n st :=
  h.invariant (Sound n) (sound_new n content) fun _ _ _ _ hi hok hs => hi.step hok (step_effect hs)

/-- A free slot holds what is recorded of it. -/
theorem Sound.resident {st : System} (h : Sound n st) {s : ℕ} {slot : SlotState} {prefixHash : String}
    (hslot : st.guarded.sched.inner.slots[s]?=some slot) (hb : slot.busy=false)
    (hr : slot.residentPrefix=some prefixHash) :
    st.content s=some (slot.residentModel,prefixHash) := by
  obtain ⟨trace,howned⟩ := h.owned
  have hrecord : recorded st.guarded.sched.inner s=some (slot.residentModel,prefixHash) := by
    rw [recorded,hslot,Option.bind_some,hr,Option.map_some]
  exact h.free s (howned.unguarded ⟨slot,hslot,hb⟩) _ hrecord

/-- What a step admits with a ready cache: the spawned task finds its own
content in the slot. -/
theorem Sound.admitted_ready {st st' : System} {llamaServerUrl : String} {event : Event} {c : ℕ}
    {a : Admission} (h : Sound n st)
    (hs : Broker.step llamaServerUrl st event=some (.sched (.admitted c a),st')) (ht : a.cacheReady=true) :
    ∃ hint rest,st'.jobs c=some ⟨some hint,a.slotId,rest⟩ ∧ st'.content a.slotId=ownContent hint := by
  have heff := step_effect hs
  generalize ho : Output.sched (.admitted c a)=output at heff
  cases heff with
  | called hint bodies heff hcall hhint =>
    cases ho
    obtain ⟨trace,howned⟩ := h.owned
    obtain ⟨c',a',he,hgrant⟩ := (called_spec howned heff hcall hhint).2.resolve_right
      fun hno => hno.1 c a rfl
    cases he
    obtain ⟨hint,rfl,hr⟩ := hgrant.ready ht
    exact ⟨hint,_,Function.update_self ..,h.free _ hgrant.unguarded _ hr⟩
  | performed => cases ho
  | evicted => cases ho

/-- What the table promises in a state, and promised along the trace to it. -/
structure Truthful (llamaServerUrl : String) (start : System) (trace : List (Event×Output))
    (st : System) : Prop where
  /-- A free slot holds the prefix that is recorded, for the recorded model. -/
  resident : ∀ (s : ℕ) (slot : SlotState) (prefixHash : String),
    st.guarded.sched.inner.slots[s]?=some slot → slot.busy=false →
      slot.residentPrefix=some prefixHash → st.content s=some (slot.residentModel,prefixHash)
  /-- A request admitted with a ready cache found its own content. -/
  ready : ∀ pre event c a post,trace=pre++(event,.sched (.admitted c a))::post →
    a.cacheReady=true → ∃ st' hint rest,
      Run (step llamaServerUrl) start (pre++[(event,.sched (.admitted c a))]) st' ∧
      st'.jobs c=some ⟨some hint,a.slotId,rest⟩ ∧ st'.content a.slotId=ownContent hint

/-- The table is truthful along every run that meets the condition. -/
theorem residency_truthful {llamaServerUrl : String} {content : ℕ → Content}
    {trace : List (Event×Output)} {st : System}
    (h : RunWhen (step llamaServerUrl) KeepsResidency (System.new n content) trace st) :
    Truthful llamaServerUrl (System.new n content) trace st := by
  refine ⟨fun s slot prefixHash => (sound_of_run h).resident,?_⟩
  rintro pre event c a post rfl ht
  obtain ⟨t,t',hpre,hok,hs,-⟩ := h.cut
  obtain ⟨hint,rest,hjob,hown⟩ := (sound_of_run hpre).admitted_ready hs ht
  exact ⟨t',hint,rest,(hpre.next hok hs).run,hjob,hown⟩

/-- A second request with the prefix of the first finds it in the slot. -/
theorem residency_truthful_warm : ∃ trace st,
    trace.getLast?=some (hintedChat none "a",.sched (.admitted 1 ⟨0,true⟩)) ∧
    Truthful "" (System.new 1 fun _ => none) trace st := by
  have h : RunWhen (step "") KeepsResidency (System.new 1 fun _ => none) _ _ := runWhen_of_exec
    (show exec (restrict (step "") KeepsResidency) (System.new 1 fun _ => none)
      (servedFirst++[hintedChat none "a"])=some _ from rfl)
  exact ⟨_,_,rfl,residency_truthful h⟩

/-- The warm-up for another prefix fails after it overwrote the slot, which
stays recorded for the first one, and is admitted as such. -/
theorem residency_stale : ∃ trace st,
    Run (step "") (System.new 1 fun _ => none) trace st ∧
    ¬Truthful "" (System.new 1 fun _ => none) trace st := by
  have h : Run (step "") (System.new 1 fun _ => none) _ _ := run_of_exec
    (show exec (step "") (System.new 1 fun _ => none) (servedFirst++[hintedChat none "b",
      .work 1 (.restored (.ok false) none),.work 1 (.posted (.error "reset") (some (none,"b"))),
      .work 1 (.headSent true),.work 1 .unit,.work 1 .unit])=some _ from rfl)
  refine ⟨_,_,h,fun ht => ?_⟩
  have hr : some ((none : Option String),"b")=some (none,"a") := ht.resident 0 _ "a" rfl rfl rfl
  exact absurd hr (by decide)

end AivyxBroker.Broker
