import AivyxBroker.Broker

/-!
# Tasks among each other

What one task performs in a run of the broker, taken by itself, is a run of
the forwarding program of its request. So what holds of every run of that
program holds of every task, however the tasks interleave.
-/

namespace AivyxBroker.Broker

open Scheduler Forward Program RunInvariant WakeSignal

/-- The operation of a trace entry, if the task of `caller` performed it. -/
def performedBy (caller : ℕ) : Event×Output → Option (Performed Ans)
  | (_,.performed c _ op) => if c=caller then some op else none
  | _ => none

/-- What the task of `caller` performed, oldest first. -/
def ownOps (caller : ℕ) (trace : List (Event×Output)) : List (Performed Ans) :=
  trace.filterMap (performedBy caller)

@[simp] theorem ownOps_append (caller : ℕ) (trace rest : List (Event×Output)) :
    ownOps caller (trace++rest)=ownOps caller trace++ownOps caller rest :=
  List.filterMap_append

/-- The scheduler call of an operation is a guarded step, if it makes one. -/
theorem schedule_effect {guarded guarded' : Guarded} {caller : ℕ} {op : Op}
    (h : schedule guarded caller op=some guarded') : guarded'=guarded ∨
      ∃ event output,GuardedEffect guarded event output guarded' := by
  have hstep : ∀ event,(guardedStep guarded event).map Prod.snd=some guarded' →
      ∃ event output,GuardedEffect guarded event output guarded' := by
    intro event hmap
    obtain ⟨⟨output,next⟩,hs,rfl⟩ := Option.map_eq_some_iff.mp hmap
    exact ⟨event,output,guardedStep_effect hs⟩
  unfold schedule at h
  split at h
  · exact .inr (hstep _ h)
  · exact .inr (hstep _ h)
  · exact .inr (hstep _ h)
  · cases h
    exact .inl rfl

/-- The invariant of the tasks. -/
structure Tasks (n : ℕ) (llamaServerUrl : String) (trace : List (Event×Output)) (st : System) :
    Prop where
  /-- The scheduler's own invariant. -/
  queued : Queued n st.guarded.sched
  /-- Tasks belong to finished calls. -/
  gone : ∀ c job,st.jobs c=some job → st.guarded.sched.callers.Gone c
  /-- A task has run its own forwarding program so far. -/
  run : ∀ c job,st.jobs c=some job → ∃ body a,a.slotId=job.slotId ∧
    Runs (forward llamaServerUrl body job.hint a) (ownOps c trace) job.rest
  /-- A call without a task performed nothing. -/
  idle : ∀ c,st.jobs c=none → ownOps c trace=[]

variable {n : ℕ} {llamaServerUrl : String} {trace : List (Event×Output)} {st st' : System}

/-- A step that performs no operation and leaves all tasks keeps the
invariant. -/
theorem Tasks.frame {event : Event} {output : Output} (h : Tasks n llamaServerUrl trace st)
    (hq : Queued n st'.guarded.sched) (hjobs : st'.jobs=st.jobs)
    (hgone : ∀ c,st.guarded.sched.callers.Gone c → st'.guarded.sched.callers.Gone c)
    (hout : ∀ c,ownOps c [(event,output)]=[]) :
    Tasks n llamaServerUrl (trace++[(event,output)]) st' where
  queued := hq
  gone c job hc := hgone c (h.gone c job (hjobs ▸ hc))
  run c job hc := by
    rw [ownOps_append,hout,List.append_nil]
    exact h.run c job (hjobs ▸ hc)
  idle c hc := by
    rw [ownOps_append,hout,List.append_nil]
    exact h.idle c (hjobs ▸ hc)

/-- An arrival or a background event keeps the invariant; the task it may
spawn is that of a call which had none. -/
theorem Tasks.called {event : Event} {call : Scheduler.Event} {output : Scheduler.Output}
    {guarded : Guarded} (hint : Option SlotHint) (bodies : ℕ → Json)
    (h : Tasks n llamaServerUrl trace st)
    (heff : GuardedEffect st.guarded (.call call) output guarded) :
    Tasks n llamaServerUrl (trace++[(event,.sched output)])
      (System.spawn {st with guarded := guarded, bodies := bodies} llamaServerUrl hint output) := by
  cases heff with
  | call _ heff =>
    have hq := h.queued.step heff
    cases output with
    | admitted c a =>
      obtain ⟨hlive,hover⟩ := heff.admitted_gone h.queued
      have hnone : st.jobs c=none := by
        cases hc : st.jobs c with
        | none => rfl
        | some job => exact absurd (h.gone c job hc) hlive
      have hown : ∀ c',ownOps c' (trace++[(event,.sched (.admitted c a))])=ownOps c' trace :=
        fun c' => (ownOps_append ..).trans (List.append_nil _)
      refine ⟨hq,fun c' job hc => ?_,fun c' job hc => ?_,fun c' hc => ?_⟩
      · dsimp only [System.spawn] at hc ⊢
        rw [Function.update_apply] at hc
        split at hc
        · rename_i hcc
          exact hcc ▸ hover
        · exact heff.gone (h.gone c' job hc)
      · dsimp only [System.spawn] at hc
        rw [Function.update_apply] at hc
        rw [hown]
        split at hc
        · rename_i hcc
          cases hc
          rw [hcc,h.idle c hnone]
          exact ⟨_,a,rfl,.start⟩
        · exact h.run c' job hc
      · dsimp only [System.spawn] at hc
        rw [Function.update_apply] at hc
        rw [hown]
        split at hc
        · cases hc
        · exact h.idle c' hc
    | parked | timedOut | cancelled | unit =>
      exact h.frame hq rfl (fun _ => heff.gone) fun _ => rfl

/-- An operation of a task is the next one of its own program. -/
theorem Tasks.performed {reply : Reply} {hint : Option SlotHint} {slotId : ℕ} {op : Op}
    {resume : Ans op → Forwarding Unit} {answer : Ans op} {guarded : Guarded} {caller : ℕ}
    (content : ℕ → Content) (store : CacheKey → Option Entry)
    (h : Tasks n llamaServerUrl trace st)
    (hjob : st.jobs caller=some ⟨hint,slotId,.ask op resume⟩)
    (hsched : schedule st.guarded caller op=some guarded) :
    Tasks n llamaServerUrl
      (trace++[(.work caller reply,.performed caller hint ⟨op,answer⟩)])
      ⟨guarded,st.bodies,Function.update st.jobs caller (some ⟨hint,slotId,resume answer⟩),content,
        store⟩ := by
  have hown : ∀ c,ownOps c (trace++[(.work caller reply,.performed caller hint ⟨op,answer⟩)])=
      if c=caller then ownOps c trace++[⟨op,answer⟩] else ownOps c trace := by
    intro c
    rw [ownOps_append]
    by_cases hc : c=caller
    · simp [ownOps,performedBy,hc]
    · simp [ownOps,performedBy,hc,Ne.symm hc]
  have hsame : Queued n guarded.sched ∧
      ∀ c,st.guarded.sched.callers.Gone c → guarded.sched.callers.Gone c := by
    rcases schedule_effect hsched with rfl | ⟨_,_,heff⟩
    · exact ⟨h.queued,fun _ hg => hg⟩
    · obtain ⟨_,heff⟩ := heff.sched
      exact ⟨h.queued.step heff,fun _ => heff.gone⟩
  refine ⟨hsame.1,fun c job hc => hsame.2 c ?_,fun c job hc => ?_,fun c hc => ?_⟩
  · dsimp only at hc
    rw [Function.update_apply] at hc
    split at hc
    · rename_i hcc
      exact hcc ▸ h.gone caller _ hjob
    · exact h.gone c job hc
  · dsimp only at hc
    rw [Function.update_apply] at hc
    rw [hown]
    split at hc
    · rename_i hcc
      cases hc
      subst hcc
      obtain ⟨body,a,hslot,hrun⟩ := h.run c _ hjob
      rw [if_pos rfl]
      exact ⟨body,a,hslot,.next answer hrun⟩
    · rename_i hcc
      rw [if_neg hcc]
      exact h.run c job hc
  · dsimp only at hc
    rw [Function.update_apply] at hc
    rw [hown]
    split at hc
    · cases hc
    · rename_i hcc
      rw [if_neg hcc]
      exact h.idle c hc

/-- Every step keeps the invariant. -/
theorem Tasks.step {event : Event} {output : Output} (h : Tasks n llamaServerUrl trace st)
    (heff : Effect llamaServerUrl st event output st') :
    Tasks n llamaServerUrl (trace++[(event,output)]) st' := by
  cases heff with
  | called hint bodies heff => exact h.called hint bodies heff
  | performed caller hjob _ hsched => exact h.performed _ _ hjob hsched
  | evicted key => exact h.frame h.queued rfl (fun _ hg => hg) fun _ => rfl

/-- The invariant holds after every run. -/
theorem tasks_of_run {ok : System → Event → Prop} {content : ℕ → Content}
    (h : RunWhen (Broker.step llamaServerUrl) ok (System.new n content) trace st) :
    Tasks n llamaServerUrl trace st :=
  h.trace_invariant (Tasks n llamaServerUrl)
    ⟨queued_new n,fun _ _ hc => (by cases hc),fun _ _ hc => (by cases hc),fun _ _ => rfl⟩
    fun _ _ _ _ _ hi _ hs => hi.step (step_effect hs)

/-- At every operation of a task in a run, the task has run its own program
up to it, and the operation is the next one. -/
theorem task_runs {ok : System → Event → Prop} {content : ℕ → Content}
    {pre post : List (Event×Output)} {event : Event} {caller : ℕ} {hint : Option SlotHint}
    {op : Performed Ans} (h : RunWhen (Broker.step llamaServerUrl) ok (System.new n content)
      (pre++(event,.performed caller hint op)::post) st) :
    ∃ body a rest,Runs (forward llamaServerUrl body hint a) (ownOps caller pre++[op]) rest := by
  obtain ⟨t,t',hpre,-,hs,-⟩ := h.cut
  obtain ⟨reply,slotId,resume,after,-,hjob,-⟩ := step_performed hs
  obtain ⟨body,a,-,hrun⟩ := (tasks_of_run hpre).run _ _ hjob
  exact ⟨body,a,_,.next _ hrun⟩

end AivyxBroker.Broker
