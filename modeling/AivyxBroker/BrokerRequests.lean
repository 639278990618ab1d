import AivyxBroker.BrokerTasks
import AivyxBroker.ForwardRequest

/-!
# From a chat request to llama-server

Requests wait for slots side by side, are admitted in whatever order slots get
free, and their tasks take turns. Through all of this a request must keep its
own body, hint and slot. Requests are named by their place in the order of
arrival. Each is decided at most once, admitted or not; only the task of an
admitted one does anything, with its own body and hint on its own slot, and
sends it to llama-server once.
-/

namespace AivyxBroker.Broker

open Scheduler Forward Program RunInvariant WakeSignal

/-- The body of a request that arrives. -/
def arrival : Event×Output → Option Json
  | (.chat body,_) => some body
  | _ => none

/-- The bodies of the requests of a trace, in order of arrival. -/
def arrivals (trace : List (Event×Output)) : List Json := trace.filterMap arrival

/-- What becomes of a waiting call: it is admitted, or it is over without. -/
def verdictOf (c : ℕ) : Scheduler.Output → Option (Option Admission)
  | .admitted caller a => if caller=c then some (some a) else none
  | .timedOut caller => if caller=c then some none else none
  | .cancelled caller => if caller=c then some none else none
  | _ => none

/-- What became of a waiting call with this entry. -/
def verdict (c : ℕ) : Event×Output → Option (Option Admission)
  | (_,.sched output) => verdictOf c output
  | _ => none

/-- What became of a call, in the order of the trace. -/
def verdicts (c : ℕ) (trace : List (Event×Output)) : List (Option Admission) :=
  trace.filterMap (verdict c)

/-- One more entry brings one more request, or none. -/
theorem arrivals_snoc (trace : List (Event×Output)) (entry : Event×Output) :
    arrivals (trace++[entry])=arrivals trace++(arrival entry).toList := by
  rw [arrivals,List.filterMap_append]
  cases h : arrival entry <;> simp [arrivals,h]

/-- One more entry decides a call, or does not. -/
theorem verdicts_snoc (c : ℕ) (trace : List (Event×Output)) (entry : Event×Output) :
    verdicts c (trace++[entry])=verdicts c trace++(verdict c entry).toList := by
  rw [verdicts,List.filterMap_append]
  cases h : verdict c entry <;> simp [verdicts,h]

/-- An entry without a request. -/
theorem arrivals_other {entry : Event×Output} (h : arrival entry=none)
    (trace : List (Event×Output)) : arrivals (trace++[entry])=arrivals trace := by
  rw [arrivals_snoc,h,Option.toList_none,List.append_nil]

/-- An entry that does not decide the call. -/
theorem verdicts_other {c : ℕ} {entry : Event×Output} (h : verdict c entry=none)
    (trace : List (Event×Output)) : verdicts c (trace++[entry])=verdicts c trace := by
  rw [verdicts_snoc,h,Option.toList_none,List.append_nil]

/-- A request that arrived stays where it is. -/
theorem arrivals_getElem? {trace : List (Event×Output)} {c : ℕ} {body : Json}
    (h : (arrivals trace)[c]?=some body) (entry : Event×Output) :
    (arrivals (trace++[entry]))[c]?=some body := by
  rw [arrivals_snoc,List.getElem?_append_left (List.getElem?_eq_some_iff.mp h).1]
  exact h

/-- A pass of the loop is about its own call. -/
theorem attempts_gone {st : State} {call : Scheduler.Event} {callers : Callers (Option SlotHint)}
    {caller turn : ℕ} {hint : Option SlotHint} (h : Attempts st call callers caller turn hint)
    {c : ℕ} (hc : c≠caller) : callers.Gone c ↔ st.callers.Gone c := by
  refine ⟨fun hg => ?_,fun hg => (h.gone.2 c hg).2⟩
  cases h with
  | arrive => exact ⟨Nat.lt_of_le_of_ne (Nat.le_of_lt_succ hg.1) hc,hg.2⟩
  | retry => exact hg

/-- A step that decides a call ends it, and no other step ends one. -/
theorem effect_verdict {n : ℕ} {st st' : State} {call : Scheduler.Event} {output : Scheduler.Output}
    (hq : Queued n st) (h : Scheduler.Effect st call output st') (c : ℕ) :
    verdictOf c output=none ∧ (st'.callers.Gone c ↔ st.callers.Gone c) ∨
      (∃ v,verdictOf c output=some v) ∧ ¬st.callers.Gone c ∧ st'.callers.Gone c := by
  cases h with
  | @admitted _ callers caller turn hint a hc htry =>
    by_cases hcc : caller=c
    · subst hcc
      refine .inr ⟨⟨_,if_pos rfl⟩,hc.gone.1,(hq.attempts hc).2.1,?_⟩
      simp [Callers.leave_parked]
    · refine .inl ⟨if_neg hcc,?_⟩
      rw [←attempts_gone hc (Ne.symm hcc)]
      simp [Callers.Gone,Callers.leave_parked,Ne.symm hcc]
  | @parked _ callers caller turn hint hc htry =>
    refine .inl ⟨rfl,?_⟩
    by_cases hcc : c=caller
    · subst hcc
      refine iff_of_false (fun hg => ?_) hc.gone.1
      have hparked := hg.2
      simp [Callers.park_parked] at hparked
    · rw [←attempts_gone hc hcc]
      simp [Callers.Gone,Callers.park_parked,hcc]
  | leave caller p hp he =>
    by_cases hcc : caller=c
    · subst hcc
      refine .inr ⟨?_,fun hg => ?_,hq.exact.bounded _ _ hp,by simp [Callers.leave_parked]⟩
      · rcases he with ⟨-,rfl⟩ | ⟨-,rfl⟩ <;> exact ⟨_,if_pos rfl⟩
      · rw [hg.2] at hp
        cases hp
    · refine .inl ⟨?_,by simp [Callers.Gone,Callers.leave_parked,Ne.symm hcc]⟩
      rcases he with ⟨-,rfl⟩ | ⟨-,rfl⟩ <;> exact if_neg hcc
  | freed slotId =>
    refine .inl ⟨rfl,?_⟩
    rw [freed_callers]
    simp [Callers.Gone,Callers.sendAll_parked]
  | ignored | resident | seeded => exact .inl ⟨rfl,Iff.rfl⟩

/-- The hint of the call that an event makes. -/
def asks : Scheduler.Event → Option (Option SlotHint)
  | .admitCall hint => some hint
  | _ => none

/-- A step names a call only if one is made, and calls that wait keep their
hints. -/
theorem effect_parked {st st' : State} {call : Scheduler.Event} {output : Scheduler.Output}
    (h : Scheduler.Effect st call output st') :
    st'.callers.next=st.callers.next+(asks call).toList.length ∧
      ∀ c p,st'.callers.parked c=some p → asks call=some p.arg ∧ c=st.callers.next ∨
        ∃ p',st.callers.parked c=some p' ∧ p'.arg=p.arg := by
  cases h with
  | admitted a hc =>
    refine ⟨by cases hc <;> rfl,fun c p hp => .inr ⟨p,?_,rfl⟩⟩
    rw [←hc.parked_eq]
    exact (Callers.leave_parked_eq_some.mp hp).2
  | parked hc =>
    refine ⟨by cases hc <;> rfl,fun c p hp => ?_⟩
    dsimp only at hp
    rw [Callers.park_parked] at hp
    split at hp
    · rename_i hcc
      cases hp
      cases hc with
      | arrive => exact .inl ⟨rfl,hcc⟩
      | retry _ p' hp' => exact .inr ⟨p',hcc ▸ hp',rfl⟩
    · exact .inr ⟨p,hc.parked_eq ▸ hp,rfl⟩
  | leave caller p hp he =>
    refine ⟨?_,fun c p' hp' => .inr ⟨p',(Callers.leave_parked_eq_some.mp hp').2,rfl⟩⟩
    rcases he with ⟨rfl,-⟩ | ⟨rfl,-⟩ <;> rfl
  | freed slotId slot hs he =>
    rw [freed_callers]
    refine ⟨?_,fun c p hp => ?_⟩
    · rw [Callers.sendAll_next]
      rcases he with rfl | ⟨rfl,-⟩ <;> rfl
    · obtain ⟨p',hp',rfl⟩ := Callers.sendAll_parked_eq_some.mp hp
      exact .inr ⟨p',hp',rfl⟩
  | ignored slotId he =>
    exact ⟨by rcases he with ⟨rfl,-⟩ | ⟨rfl,-⟩ <;> rfl,fun c p hp => .inr ⟨p,hp,rfl⟩⟩
  | resident slotId _ _ he =>
    exact ⟨by rcases he with ⟨_,rfl,-⟩ | ⟨rfl,-⟩ <;> rfl,fun c p hp => .inr ⟨p,hp,rfl⟩⟩
  | seeded => exact ⟨rfl,fun c p hp => .inr ⟨p,hp,rfl⟩⟩

/-- The waiting calls, as the trace has them: each is one of its requests, and
has been decided exactly if it is over. -/
structure Booked (trace : List (Event×Output)) (callers : Callers (Option SlotHint)) : Prop where
  /-- Calls are named in the order of arrival. -/
  arrived : (arrivals trace).length=callers.next
  /-- A waiting call has the hint of its request. -/
  parked : ∀ c p,callers.parked c=some p →
    ∃ body,(arrivals trace)[c]?=some body ∧ (parseChat body).1=p.arg
  /-- A call that is over was decided once. -/
  decided : ∀ c,callers.Gone c → ∃ v,verdicts c trace=[v]
  /-- A call that is not over was not decided. -/
  undecided : ∀ c,¬callers.Gone c → verdicts c trace=[]

/-- An entry that says what a step did keeps the book. -/
theorem Booked.step {n : ℕ} {trace : List (Event×Output)} {st st' : State}
    {call : Scheduler.Event} {output : Scheduler.Output} {entry : Event×Output}
    (h : Booked trace st.callers) (hq : Queued n st) (heff : Scheduler.Effect st call output st')
    (harrival : (arrival entry).map (fun body => (parseChat body).1)=asks call)
    (hverdict : ∀ c,verdict c entry=verdictOf c output) :
    Booked (trace++[entry]) st'.callers := by
  obtain ⟨hnext,hparked⟩ := effect_parked heff
  refine ⟨?_,fun c p hp => ?_,fun c hg => ?_,fun c hg => ?_⟩
  · rw [arrivals_snoc,List.length_append,h.arrived,hnext,←harrival]
    cases arrival entry <;> rfl
  · rcases hparked c p hp with ⟨hasks,rfl⟩ | ⟨p',hp',harg⟩
    · rw [hasks] at harrival
      obtain ⟨body,hbody,hhint⟩ := Option.map_eq_some_iff.mp harrival
      refine ⟨body,?_,hhint⟩
      rw [arrivals_snoc,hbody,←h.arrived]
      exact List.getElem?_concat_length
    · obtain ⟨body,hbody,hhint⟩ := h.parked c p' hp'
      exact ⟨body,arrivals_getElem? hbody entry,hhint.trans harg⟩
  · rcases effect_verdict hq heff c with ⟨hnone,hiff⟩ | ⟨⟨v,hv⟩,hlive,-⟩
    · rw [verdicts_other ((hverdict c).trans hnone)]
      exact h.decided c (hiff.mp hg)
    · exact ⟨v,by rw [verdicts_snoc,hverdict,hv,h.undecided c hlive]; rfl⟩
  · rcases effect_verdict hq heff c with ⟨hnone,hiff⟩ | ⟨-,-,hover⟩
    · rw [verdicts_other ((hverdict c).trans hnone)]
      exact h.undecided c fun hg' => hg (hiff.mpr hg')
    · exact absurd hover hg

/-- An entry without a request or a verdict changes nothing in the book. -/
theorem Booked.quiet {trace : List (Event×Output)} {callers : Callers (Option SlotHint)}
    {entry : Event×Output} (h : Booked trace callers) (harrival : arrival entry=none)
    (hverdict : ∀ c,verdict c entry=none) : Booked (trace++[entry]) callers := by
  have harrivals := arrivals_other harrival trace
  have hverdicts := fun c => verdicts_other (hverdict c) trace
  exact ⟨harrivals ▸ h.arrived,harrivals ▸ h.parked,fun c hg => hverdicts c ▸ h.decided c hg,
    fun c hg => hverdicts c ▸ h.undecided c hg⟩

/-- The requests and their tasks: a task runs its own request's program for
the admission it had. -/
structure Requests (llamaServerUrl : String) (trace : List (Event×Output)) (st : System) : Prop where
  /-- The waiting calls. -/
  booked : Booked trace st.guarded.sched.callers
  /-- The bodies kept for the tasks. -/
  bodies : ∀ c body,(arrivals trace)[c]?=some body → st.bodies c=(parseChat body).2
  /-- The tasks. -/
  run : ∀ c job,st.jobs c=some job → ∃ body a,(arrivals trace)[c]?=some body ∧
    verdicts c trace=[some a] ∧ Runs (forward llamaServerUrl (parseChat body).2 (parseChat body).1 a)
      (ownOps c trace) job.rest

variable {n : ℕ} {llamaServerUrl : String} {trace : List (Event×Output)} {st st' : System}

/-- The scheduler calls of a task neither name nor decide a call. -/
theorem schedule_quiet {guarded guarded' : Guarded} {caller : ℕ} {op : Op}
    (h : schedule guarded caller op=some guarded') : guarded'=guarded ∨
      ∃ call,Scheduler.Effect guarded.sched call .unit guarded'.sched ∧ asks call=none := by
  unfold schedule at h
  split at h
  · rename_i slotId model prefixHash
    cases h
    exact .inr ⟨_,.resident slotId (some prefixHash) model (.inl ⟨prefixHash,rfl,rfl⟩),rfl⟩
  · rename_i slotId
    cases h
    exact .inr ⟨_,.resident slotId none none (.inr ⟨rfl,rfl,rfl⟩),rfl⟩
  · obtain ⟨⟨output,next⟩,hs,rfl⟩ := Option.map_eq_some_iff.mp h
    cases guardedStep_effect hs with
    | dropped _ slotId hg heff =>
      obtain ⟨rfl,-⟩ := heff.of_release
      exact .inr ⟨.release slotId,heff,rfl⟩
  · cases h
    exact .inl rfl

/-- A decided call is not decided again. -/
theorem Booked.stays {callers callers' : Callers (Option SlotHint)} {entry : Event×Output} {c : ℕ}
    {v : Option Admission} (h : Booked trace callers) (h' : Booked (trace++[entry]) callers')
    (hgone : callers.Gone c → callers'.Gone c) (hv : verdicts c trace=[v]) :
    verdicts c (trace++[entry])=[v] := by
  have hg : callers.Gone c := by
    by_contra hlive
    rw [h.undecided c hlive] at hv
    cases hv
  obtain ⟨v',hv'⟩ := h'.decided c (hgone hg)
  rw [verdicts_snoc,hv] at hv' ⊢
  cases hnew : verdict c entry with
  | none => rfl
  | some new =>
    rw [hnew] at hv'
    cases hv'

/-- A scheduler call keeps the tasks to their requests; the task it may spawn
is that of the admitted request. -/
theorem Requests.called {event : Event} {call : Scheduler.Event} {output : Scheduler.Output}
    {guarded : Guarded} (hint : Option SlotHint) (bodies : ℕ → Json)
    (h : Requests llamaServerUrl trace st) (ht : Tasks n llamaServerUrl trace st)
    (heff : Scheduler.Effect st.guarded.sched call output guarded.sched)
    (hbooked : Booked (trace++[(event,.sched output)]) guarded.sched.callers)
    (hbodies : ∀ c body,(arrivals (trace++[(event,.sched output)]))[c]?=some body →
      bodies c=(parseChat body).2)
    (hhint : ∀ c a,output=.admitted c a → ∃ body,
      (arrivals (trace++[(event,.sched output)]))[c]?=some body ∧ (parseChat body).1=hint) :
    Requests llamaServerUrl (trace++[(event,.sched output)])
      (System.spawn {st with guarded := guarded, bodies := bodies} llamaServerUrl hint output) := by
  have hown : ∀ c,ownOps c (trace++[(event,.sched output)])=ownOps c trace := fun c =>
    (ownOps_append ..).trans (List.append_nil _)
  have hold : ∀ c job,st.jobs c=some job → ∃ body a,
      (arrivals (trace++[(event,.sched output)]))[c]?=some body ∧
      verdicts c (trace++[(event,.sched output)])=[some a] ∧
      Runs (forward llamaServerUrl (parseChat body).2 (parseChat body).1 a)
        (ownOps c (trace++[(event,.sched output)])) job.rest := by
    intro c job hc
    obtain ⟨body,a,hbody,hv,hrun⟩ := h.run c job hc
    rw [hown]
    exact ⟨body,a,arrivals_getElem? hbody _,h.booked.stays hbooked heff.gone hv,hrun⟩
  cases output with
  | admitted c a =>
    refine ⟨hbooked,hbodies,fun c' job hc => ?_⟩
    dsimp only [System.spawn] at hc
    rw [Function.update_apply] at hc
    split at hc
    · rename_i hcc
      subst hcc
      cases hc
      obtain ⟨body,hbody,rfl⟩ := hhint c' a rfl
      obtain ⟨hlive,-⟩ := heff.admitted_gone ht.queued
      have hnone : st.jobs c'=none := by
        cases hj : st.jobs c' with
        | none => rfl
        | some job => exact absurd (ht.gone c' job hj) hlive
      refine ⟨body,a,hbody,?_,?_⟩
      · rw [verdicts_snoc,h.booked.undecided c' hlive]
        simp [verdict,verdictOf]
      · rw [hown,ht.idle c' hnone,hbodies c' body hbody]
        exact .start
    · exact hold c' job hc
  | parked | timedOut | cancelled | unit => exact ⟨hbooked,hbodies,hold⟩

/-- An operation of a task is its request's next one. -/
theorem Requests.performed {reply : Reply} {hint : Option SlotHint} {slotId : ℕ} {op : Op}
    {resume : Ans op → Forwarding Unit} {answer : Ans op} {guarded : Guarded} {caller : ℕ}
    (content : ℕ → Content) (store : CacheKey → Option Entry)
    (h : Requests llamaServerUrl trace st) (ht : Tasks n llamaServerUrl trace st)
    (hjob : st.jobs caller=some ⟨hint,slotId,.ask op resume⟩)
    (hsched : schedule st.guarded caller op=some guarded) :
    Requests llamaServerUrl
      (trace++[(.work caller reply,.performed caller hint ⟨op,answer⟩)])
      ⟨guarded,st.bodies,Function.update st.jobs caller (some ⟨hint,slotId,resume answer⟩),content,
        store⟩ := by
  have hbooked : Booked (trace++[(.work caller reply,.performed caller hint ⟨op,answer⟩)])
      guarded.sched.callers := by
    rcases schedule_quiet hsched with rfl | ⟨call,heff,hasks⟩
    · exact h.booked.quiet rfl fun _ => rfl
    · exact h.booked.step ht.queued heff hasks.symm fun _ => rfl
  have harrivals : arrivals (trace++[(.work caller reply,.performed caller hint ⟨op,answer⟩)])=
      arrivals trace := arrivals_other rfl trace
  refine ⟨hbooked,harrivals ▸ h.bodies,fun c job hc => ?_⟩
  rw [harrivals,verdicts_other rfl,ownOps_append]
  dsimp only at hc
  rw [Function.update_apply] at hc
  split at hc
  · rename_i hcc
    subst hcc
    cases hc
    obtain ⟨body,a,hbody,hv,hrun⟩ := h.run c _ hjob
    have hop : ownOps c [(.work c reply,.performed c hint ⟨op,answer⟩)]=[⟨op,answer⟩] := by
      simp [ownOps,performedBy]
    rw [hop]
    exact ⟨body,a,hbody,hv,hrun.next answer⟩
  · rename_i hcc
    have hop : ownOps c [(.work caller reply,.performed caller hint ⟨op,answer⟩)]=[] := by
      simp [ownOps,performedBy,Ne.symm hcc]
    rw [hop,List.append_nil]
    exact h.run c job hc

/-- The guards of a call do not matter to its effect. -/
theorem guardedCall_effect {guarded guarded' : Guarded} {call : Scheduler.Event}
    {output : Scheduler.Output} (h : guardedStep guarded (.call call)=some (output,guarded')) :
    Scheduler.Effect guarded.sched call output guarded'.sched := by
  cases guardedStep_effect h with
  | call _ heff => rwa [Guarded.record_sched]

/-- A request that arrives is the next one. -/
theorem Requests.chat {body : Json} {output : Scheduler.Output} {guarded : Guarded}
    (h : Requests llamaServerUrl trace st) (ht : Tasks n llamaServerUrl trace st)
    (heff : Scheduler.Effect st.guarded.sched (.admitCall (parseChat body).1) output guarded.sched) :
    Requests llamaServerUrl (trace++[(.chat body,.sched output)])
      (System.spawn {st with
        guarded := guarded
        bodies := Function.update st.bodies st.guarded.sched.callers.next (parseChat body).2}
        llamaServerUrl (parseChat body).1 output) := by
  have hlast : (arrivals (trace++[(.chat body,.sched output)]))[st.guarded.sched.callers.next]?=
      some body := by
    rw [arrivals_snoc,←h.booked.arrived]
    exact List.getElem?_concat_length
  refine h.called _ _ ht heff (h.booked.step ht.queued heff rfl fun _ => rfl) ?_ ?_
  · intro c body' hbody
    rw [Function.update_apply]
    split
    · rename_i hc
      rw [hc,hlast] at hbody
      rw [Option.some.inj hbody]
    · rename_i hc
      have hlt := (List.getElem?_eq_some_iff.mp hbody).1
      rw [arrivals_snoc,List.length_append,h.booked.arrived] at hlt
      have hold : c<(arrivals trace).length := by
        rw [h.booked.arrived]
        simp only [arrival,Option.toList_some,List.length_singleton] at hlt
        omega
      rw [arrivals_snoc,List.getElem?_append_left hold] at hbody
      exact h.bodies c body' hbody
  · rintro c a rfl
    obtain ⟨_,_,_,hc,-⟩ := heff.of_admitted
    cases hc
    exact ⟨body,hlast,rfl⟩

/-- Every step keeps the tasks to their requests. -/
theorem Requests.step {event : Event} {output : Output} (h : Requests llamaServerUrl trace st)
    (ht : Tasks n llamaServerUrl trace st)
    (hs : Broker.step llamaServerUrl st event=some (output,st')) :
    Requests llamaServerUrl (trace++[(event,output)]) st' := by
  cases event with
  | chat body =>
    simp only [Broker.step] at hs
    obtain ⟨⟨result,guarded⟩,hg,he⟩ := Option.map_eq_some_iff.mp hs
    cases he
    exact h.chat ht (guardedCall_effect hg)
  | call event =>
    simp only [Broker.step] at hs
    split at hs
    · rename_i hback
      obtain ⟨⟨result,guarded⟩,hg,he⟩ := Option.map_eq_some_iff.mp hs
      cases he
      have heff := guardedCall_effect hg
      have harrivals : arrivals (trace++[(.call event,.sched result)])=arrivals trace :=
        arrivals_other rfl trace
      have hasks : asks event=none := by
        cases event <;> first | rfl | cases hback
      refine h.called _ _ ht heff (h.booked.step ht.queued heff hasks.symm fun _ => rfl)
        (harrivals ▸ h.bodies) ?_
      rintro c a rfl
      obtain ⟨_,_,_,hc,-⟩ := heff.of_admitted
      cases hc with
      | arrive => cases hback
      | retry _ p hp =>
        obtain ⟨body,hbody,hhint⟩ := h.booked.parked c p hp
        refine ⟨body,harrivals ▸ hbody,?_⟩
        rw [hhint,hintOf,parkedHint,hp]
        rfl
    · cases hs
  | work caller reply =>
    simp only [Broker.step,System.work] at hs
    split at hs
    · rename_i hint slotId op resume hjob
      split at hs
      · rename_i answer after guarded htouch hsched
        cases hs
        exact h.performed _ _ ht hjob hsched
      · cases hs
    · cases hs
  | evict key =>
    cases hs
    have harrivals : arrivals (trace++[(.evict key,.unit)])=arrivals trace := arrivals_other rfl trace
    have hown : ∀ c,ownOps c (trace++[(.evict key,.unit)])=ownOps c trace :=
      fun c => (ownOps_append ..).trans (List.append_nil _)
    refine ⟨h.booked.quiet rfl fun _ => rfl,harrivals ▸ h.bodies,fun c job hc => ?_⟩
    rw [harrivals,verdicts_other rfl,hown]
    exact h.run c job hc

/-- The tasks keep to their requests in every run. -/
theorem requests_of_run {ok : System → Event → Prop} {content : ℕ → Content}
    (h : RunWhen (Broker.step llamaServerUrl) ok (System.new n content) trace st) :
    Requests llamaServerUrl trace st := by
  induction h with
  | start =>
    refine ⟨⟨rfl,fun c p hp => (by cases hp),fun c hg => absurd hg.1 (Nat.not_lt_zero c),
      fun _ _ => rfl⟩,fun c body hc => (by cases hc),fun c job hc => (by cases hc)⟩
  | next hr _ hs ih => exact ih.step (tasks_of_run hr) hs

/-- Requests are kept apart in every run, whatever llama-server, the store and
the clients do, and however calls and tasks interleave. Each is decided at
most once. Only an admitted one has anything done for it, and that is a run of
its own program: its own body, less the hint, goes to llama-server on its own
slot, and goes there once at most. When its task is over, it has gone there,
or the client was told of an error. -/
theorem requests_kept_apart {ok : System → Event → Prop} {content : ℕ → Content}
    (h : RunWhen (Broker.step llamaServerUrl) ok (System.new n content) trace st) (c : ℕ) :
    (verdicts c trace).length ≤ 1 ∧ (posted (ownOps c trace)).length ≤ 1 ∧
      (ownOps c trace≠[] → ∃ body a,(arrivals trace)[c]?=some body ∧ verdicts c trace=[some a] ∧
        (∃ rest,Runs (forward llamaServerUrl (parseChat body).2 (parseChat body).1 a)
          (ownOps c trace) rest) ∧
        ∀ sent∈posted (ownOps c trace),
          sent=(parseChat body).2.insert "id_slot" (slotNumber a.slotId)) ∧
      ∀ job,st.jobs c=some job → job.rest=.done () →
        posted (ownOps c trace)≠[] ∨ refusals (ownOps c trace)≠[] := by
  have ht := tasks_of_run h
  have hrequests := requests_of_run h
  refine ⟨?_,?_,fun hne => ?_,fun job hc hdone => ?_⟩
  · by_cases hg : st.guarded.sched.callers.Gone c
    · obtain ⟨v,hv⟩ := hrequests.booked.decided c hg
      rw [hv]
      exact le_rfl
    · rw [hrequests.booked.undecided c hg]
      exact Nat.zero_le _
  · cases hc : st.jobs c with
    | none =>
      rw [ht.idle c hc]
      exact Nat.zero_le _
    | some job =>
      obtain ⟨body,a,-,-,hrun⟩ := hrequests.run c job hc
      rcases posted_of_runs hrun with hp | hp <;> rw [hp]
      · exact Nat.zero_le _
      · exact le_rfl
  · cases hc : st.jobs c with
    | none => exact absurd (ht.idle c hc) hne
    | some job =>
      obtain ⟨body,a,hbody,hv,hrun⟩ := hrequests.run c job hc
      refine ⟨body,a,hbody,hv,⟨_,hrun⟩,fun sent hsent => ?_⟩
      rcases posted_of_runs hrun with hp | hp
      · rw [hp] at hsent
        cases hsent
      · rw [hp] at hsent
        exact List.mem_singleton.mp hsent
  · obtain ⟨body,a,-,-,hrun⟩ := hrequests.run c job hc
    rw [hdone] at hrun
    rcases decided_of_runs hrun with hp | hp
    · exact .inl (by simp [hp])
    · exact .inr hp

/-- One slot and two requests, the second of which waits in vain: it is timed
out while the first is served, and nothing is done for it. -/
theorem requests_kept_apart_queued : ∃ trace st,
    Run (Broker.step "") (System.new 1 fun _ => none) trace st ∧
      verdicts 1 trace=[none] ∧ ownOps 1 trace=[] := by
  have h := run_of_exec (show exec (Broker.step "") (System.new 1 fun _ => none)
    (hintedChat none "a"::hintedChat none "b"::.call (.timeOut 1)::servedFirst.tail)=some _ from rfl)
  refine ⟨_,_,h,rfl,?_⟩
  by_contra hne
  obtain ⟨body,a,-,hv,-⟩ := (requests_kept_apart h 1).2.2.1 hne
  cases hv

end AivyxBroker.Broker
