import AivyxBroker.ChildTiming
import AivyxBroker.GpuProbe
import AivyxBroker.VramCache

/-!
# The probes of the cache and their child processes

A residency call has its probe run on a thread of its own, and the call may be
dropped, or give up, while the thread goes on. There `nvidia-smi` runs as a
child process, whose thread polls it. Here the cache and all the threads it
has spawned run together, in any order of their steps. However calls, threads
and children behave, there is never a second child: a thread's child is gone
before the flag is lowered that lets the next probe start. And on a machine
that is late by little, no call ever gives up on its probe.
-/

namespace AivyxBroker.ProbeThreads

open RunInvariant Program Gpu VramCache

/-- What the thread of a probe has to do before it can answer. -/
def probeChild : VramSource → Running (Option (Option (List UInt8)))
  | .auto => runWithDeadline (maxPolls nvidiaSmiTimeout) nvidiaSmiTimeout
  | .nvidia => runWithDeadline (maxPolls nvidiaSmiTimeout) nvidiaSmiTimeout
  | .amd => pure (some none)
  | .none => pure (some none)

/-- The thread of a probe. -/
structure Thread where
  /-- What it has left to do. -/
  rest : Running (Option (Option (List UInt8)))
  /-- Its child process, as its last operation left it. -/
  world : World

/-- By when its next operation is over if it is not late; a thread with none
left answers at once. -/
def Thread.due (thread : Thread) : ℕ :=
  match thread.rest with
  | .done _ => thread.world.now
  | .ask op _ => thread.world.now+op.span

/-- The cache and the threads of its probes, by the order of spawning. -/
structure System where
  /-- The cache. -/
  cache : State
  /-- The threads. -/
  thread : ℕ → Thread

/-- A thread that was not spawned. -/
def Thread.unspawned : Thread := ⟨.done (some none),World.before 0⟩

/-- A new cache without probes. -/
def System.new : System := ⟨State.new,fun _ => Thread.unspawned⟩

/-- A call that starts a probe spawns its thread. -/
def System.spawned (source : VramSource) (m : System) : Output → ℕ → Thread
  | .probing _ p => Function.update m.thread p ⟨probeChild source,World.before m.cache.now⟩
  | _ => m.thread

/-- One step of the system. What a thread makes of the output of its child is
left open, and so is whether it panics over it. -/
inductive Step (source : VramSource) (m : System) : System → Prop
  /-- The executor polls or drops a call, or time passes. -/
  | cache {event : Event} {output : Output} {st' : State}
      (hno : ∀ p joined,event≠.finish p joined) (hs : step m.cache event=some (output,st')) :
      Step source m ⟨st',m.spawned source output⟩
  /-- A thread has performed its next operation. -/
  | operate {p : ℕ} {op : ChildOp} {resume : ChildAns op → Running (Option (Option (List UInt8)))}
      {answer : ChildAns op} {world : World} (hask : (m.thread p).rest=.ask op resume)
      (hr : Performs (m.thread p).world op answer world) (hnow : world.now=m.cache.now) :
      Step source m {m with thread := Function.update m.thread p ⟨resume answer,world⟩}
  /-- A thread with nothing left to do answers or panics. -/
  | finish {p : ℕ} {result : Option (Option (List UInt8))} {joined : Joined} {output : Output}
      {st' : State} (hdone : (m.thread p).rest=.done result)
      (hs : step m.cache (.finish p joined)=some (output,st')) : Step source m ⟨st',m.thread⟩

/-- A step before which no thread is late by more than `lag`. -/
def Prompt (source : VramSource) (lag : ℕ) (m m' : System) : Prop :=
  Step source m m' ∧ ∀ p,m.cache.Running p → m'.cache.now ≤ (m.thread p).due+lag

variable {source : VramSource} {lag : ℕ} {m m' : System}

/-- A run of the system is one of its cache. -/
theorem cache_run (h : Relation.ReflTransGen (Step source) System.new m) :
    ∃ trace,Run step State.new trace m.cache := by
  induction h with
  | refl => exact ⟨[],.start⟩
  | tail _ hs ih =>
    obtain ⟨trace,hr⟩ := ih
    cases hs with
    | cache _ hs => exact ⟨_,hr.next trivial hs⟩
    | operate => exact ⟨trace,hr⟩
    | finish _ hs => exact ⟨_,hr.next trivial hs⟩

/-- A call starts a probe at the end of the list, or leaves the probes. -/
theorem step_probes {st st' : State} {event : Event} {output : Output}
    (h : step st event=some (output,st')) (hno : ∀ p joined,event≠.finish p joined) :
    (∃ caller,output=.probing caller st.probes.length) ∧ st'.probes=st.probes++[⟨st.now,none⟩] ∧
        st'.now=st.now ∨
      (∀ caller p,output≠.probing caller p) ∧ st'.probes=st.probes := by
  cases step_effect h with
  | wait _ _ _ hstart => exact .inr ⟨hstart,rfl⟩
  | spawn caller => exact .inl ⟨⟨caller,rfl⟩,rfl,rfl⟩
  | finish p _ joined => exact absurd rfl (hno p joined)
  | serve | record | abandon | tick => exact .inr ⟨fun _ _ => Output.noConfusion,rfl⟩

/-- Only a running probe ends. -/
theorem step_finish {st st' : State} {p : ℕ} {joined : Joined} {output : Output}
    (h : step st (.finish p joined)=some (output,st')) :
    ∃ started,st.probes[p]?=some ⟨started,none⟩ ∧
      st'.probes=st.probes.set p ⟨started,some (st.now,joined)⟩ ∧ st'.now=st.now := by
  simp only [step] at h
  split at h
  · rename_i started hrun
    cases h
    exact ⟨started,hrun,rfl,rfl⟩
  · cases h

/-- An entry added last leaves the others. -/
theorem getElem?_snoc_of_ne {α : Type*} {xs : List α} {x : α} {i : ℕ} (hi : i≠xs.length) :
    (xs++[x])[i]?=xs[i]? := by
  rcases Nat.lt_or_gt_of_ne hi with hlt | hgt
  · exact List.getElem?_append_left hlt
  · have hlong : (xs++[x]).length ≤ i := by
      rw [List.length_append,List.length_singleton]
      omega
    rw [List.getElem?_eq_none hlong,List.getElem?_eq_none (by omega)]

/-- What a step can do to one probe and its thread. -/
inductive ThreadStep (source : VramSource) (m m' : System) (q : ℕ) : Prop
  /-- Nothing. -/
  | same (hp : m'.cache.probes[q]?=m.cache.probes[q]?) (ht : m'.thread q=m.thread q)
  /-- The probe is started, and its thread spawned. -/
  | spawned (hp : m'.cache.probes[q]?=some ⟨m.cache.now,none⟩)
      (ht : m'.thread q=⟨probeChild source,World.before m.cache.now⟩)
      (hnow : m'.cache.now=m.cache.now)
  /-- The thread has performed its next operation. -/
  | operated {op : ChildOp} {resume : ChildAns op → Running (Option (Option (List UInt8)))}
      {answer : ChildAns op} {world : World} (hp : m'.cache.probes[q]?=m.cache.probes[q]?)
      (hask : (m.thread q).rest=.ask op resume) (ht : m'.thread q=⟨resume answer,world⟩)
      (hr : Performs (m.thread q).world op answer world) (hnow : world.now=m.cache.now)
      (hnow' : m'.cache.now=m.cache.now)
  /-- The probe ends, its thread having nothing left to do. -/
  | ended {started : ℕ} {instant : ℕ×Joined} {result : Option (Option (List UInt8))}
      (hp : m.cache.probes[q]?=some ⟨started,none⟩)
      (hp' : m'.cache.probes[q]?=some ⟨started,some instant⟩) (ht : m'.thread q=m.thread q)
      (hdone : (m.thread q).rest=.done result)

/-- A step does no more than that to any probe and its thread. -/
theorem Step.threadStep (hs : Step source m m') (q : ℕ) : ThreadStep source m m' q := by
  cases hs with
  | @cache event output st' hno hs =>
    rcases step_probes hs hno with ⟨⟨caller,rfl⟩,hprobes,hnow⟩ | ⟨hquiet,hprobes⟩
    · by_cases hq : q=m.cache.probes.length
      · subst hq
        refine .spawned ?_ (Function.update_self ..) hnow
        dsimp only
        rw [hprobes,List.getElem?_concat_length]
      · refine .same ?_ (Function.update_of_ne hq ..)
        dsimp only
        rw [hprobes,getElem?_snoc_of_ne hq]
    · refine .same (congrArg (fun probes : List Probe => probes[q]?) hprobes) ?_
      cases output with
      | probing caller p => exact absurd rfl (hquiet caller p)
      | _ => rfl
  | @operate p op resume answer world hask hr hnow =>
    by_cases hqp : q=p
    · subst hqp
      exact .operated rfl hask (Function.update_self ..) hr hnow rfl
    · exact .same rfl (Function.update_of_ne hqp ..)
  | @finish p result joined output st' hdone hs =>
    obtain ⟨started,hp,hprobes,-⟩ := step_finish hs
    by_cases hpq : p=q
    · subst hpq
      have hset : st'.probes[p]?=some ⟨started,some (m.cache.now,joined)⟩ := by
        rw [hprobes,List.getElem?_set_self (List.getElem?_eq_some_iff.mp hp).1]
      exact .ended hp hset rfl hdone
    · refine .same ?_ rfl
      dsimp only
      rw [hprobes,List.getElem?_set_ne hpq]

/-- The thread is at work on its probe since that was started, under a rule of
its world, and has nothing left to do once the probe has ended. Where there is
no probe there is no thread. -/
def Tracks (rule : Rule ChildOp ChildAns World) (source : VramSource) :
    Option Probe → Thread → Prop
  | none,thread => thread=Thread.unspawned
  | some probe,thread =>
    Reaches rule (probeChild source) (World.before probe.started) thread.rest thread.world ∧
      (probe.ended≠none → ∃ result,thread.rest=.done result)

/-- Each thread is at work on its probe. -/
def Tracked (rule : Rule ChildOp ChildAns World) (source : VramSource) (m : System) : Prop :=
  ∀ p,Tracks rule source m.cache.probes[p]? (m.thread p)

variable {rule : Rule ChildOp ChildAns World}

/-- A new system has no threads to track. -/
theorem Tracked.new : Tracked rule source System.new := fun _ => rfl

/-- A thread that still has something to do is that of a running probe. -/
theorem Tracks.running {probe : Option Probe} {thread : Thread} {op : ChildOp}
    {resume : ChildAns op → Running (Option (Option (List UInt8)))}
    (h : Tracks rule source probe thread) (hask : thread.rest=.ask op resume) :
    ∃ started,probe=some ⟨started,none⟩ := by
  cases probe with
  | none =>
    obtain rfl : thread=Thread.unspawned := h
    cases hask
  | some probe =>
    obtain ⟨started,ended⟩ := probe
    cases ended with
    | none => exact ⟨started,rfl⟩
    | some ended =>
      obtain ⟨result,hd⟩ := h.2 (by simp)
      rw [hask] at hd
      cases hd

/-- Each step goes on tracking the threads, if the operation it performs is
one of the rule. -/
theorem Tracked.step (h : Tracked rule source m) (hs : Step source m m')
    (hrule : ∀ p op (resume : ChildAns op → _) answer world,(m.thread p).rest=.ask op resume →
      m.cache.Running p → Performs (m.thread p).world op answer world →
      world.now=m.cache.now → rule.result (m.thread p).world op answer world) :
    Tracked rule source m' := by
  intro q
  have hold := h q
  cases hs.threadStep q with
  | same hp ht =>
    rw [hp,ht]
    exact hold
  | spawned hp ht =>
    rw [hp,ht]
    exact ⟨.start,fun he => absurd rfl he⟩
  | @operated op resume answer world hp hask ht hr hnow =>
    obtain ⟨started,hrun⟩ := hold.running hask
    rw [hp,ht]
    rw [hrun] at hold ⊢
    have hreached := hold.1
    rw [hask] at hreached
    exact ⟨hreached.next (hrule q op resume answer world hask ⟨_,hrun,rfl⟩ hr hnow),
      fun he => absurd rfl he⟩
  | ended hp hp' ht hdone =>
    rw [hp] at hold
    rw [hp',ht]
    exact ⟨hold.1,fun _ => ⟨_,hdone⟩⟩

/-- Whatever a probe's thread does, it cleans up after itself. -/
theorem probeChild_safe (source : VramSource) (now : ℕ) :
    (probeChild source).Safe (childRule nvidiaSmiTimeout) (World.before now) CleanedUp := by
  cases source with
  | auto => exact runWithDeadline_safe le_rfl rfl rfl
  | nvidia => exact runWithDeadline_safe le_rfl rfl rfl
  | amd => exact ⟨by simp,.inl rfl,fun _ he => (by cases he)⟩
  | none => exact ⟨by simp,.inl rfl,fun _ he => (by cases he)⟩

/-- A child that is gone is not alive. -/
theorem CleanedUp.not_alive {result : Option (Option (List UInt8))} {w : World}
    (h : CleanedUp result w) : ¬w.Alive := by
  rintro (hr | ⟨status,he⟩)
  · rcases h.reaped with hc | ⟨_,hc⟩ <;> rw [hr] at hc <;> cases hc
  · rcases h.reaped with hc | ⟨_,hc⟩ <;> rw [he] at hc <;> cases hc

/-- Only the thread of a running probe has a child. -/
theorem Tracked.running_of_alive (h : Tracked (childRule nvidiaSmiTimeout) source m) {p : ℕ}
    (ha : (m.thread p).world.Alive) : m.cache.Running p := by
  have hp := h p
  cases hrest : (m.thread p).rest with
  | ask op resume =>
    obtain ⟨started,he⟩ := hp.running hrest
    exact ⟨_,he,rfl⟩
  | done result =>
    cases he : m.cache.probes[p]? with
    | none =>
      rw [he] at hp
      rw [show m.thread p=Thread.unspawned from hp] at ha
      rcases ha with hc | ⟨_,hc⟩ <;> cases hc
    | some probe =>
      rw [he] at hp
      have hreached := hp.1
      rw [hrest] at hreached
      have hclean : CleanedUp result (m.thread p).world := hreached.safe (probeChild_safe source _)
      exact absurd ha (CleanedUp.not_alive hclean)

/-- However residency calls come and go, and whatever threads, children and
clock do: there is never more than one child, running or left to reap, and
none while the flag is down that lets the next probe start. -/
theorem never_two_children (h : Relation.ReflTransGen (Step source) System.new m) :
    (∀ p q,(m.thread p).world.Alive → (m.thread q).world.Alive → p=q) ∧
      (m.cache.inFlight=false → ∀ p,¬(m.thread p).world.Alive) := by
  obtain ⟨trace,hr⟩ := cache_run h
  have hflight := singleFlight_of_run hr
  have htracked : Tracked (childRule nvidiaSmiTimeout) source m := by
    clear hr hflight
    induction h with
    | refl => exact .new
    | tail _ hs ih => exact ih.step hs fun _ _ _ _ _ _ _ hr _ => hr
  refine ⟨fun p q hp hq => ?_,fun hdown p hp => ?_⟩
  · exact hflight.single p q (htracked.running_of_alive hp) (htracked.running_of_alive hq)
  · have hup := hflight.flag p (htracked.running_of_alive hp)
    rw [hdown] at hup
    cases hup

/-- The system after a first call. -/
def System.called : System :=
  ⟨⟨none,true,some ⟨0,0,0⟩,[],1,[⟨0,none⟩],0⟩,System.new.spawned .nvidia (.probing 0 0)⟩

/-- The call starts a probe. -/
theorem called_step : Step .nvidia System.new System.called := by
  have hcall : step State.new .call=some (.probing 0 0,System.called.cache) := rfl
  exact .cache (fun _ _ => Event.noConfusion) hcall

/-- The thread of the probe starts its child. -/
theorem called_child : ∃ m,Step .nvidia System.called m ∧ m.cache=System.called.cache ∧
    (m.thread 0).world.Alive := by
  have hspawned : Performs (System.called.thread 0).world .spawn true ⟨0,.running,0,0,false⟩ :=
    .spawned (w:=World.before 0) (le_refl 0)
  exact ⟨_,.operate rfl hspawned rfl,rfl,.inl rfl⟩

/-- After a first call, its child is the only one. -/
theorem never_two_children_called : ∃ m,
    Relation.ReflTransGen (Step .nvidia) System.new m ∧ (m.thread 0).world.Alive ∧
      ∀ q,(m.thread q).world.Alive → 0=q := by
  obtain ⟨m,hchild,-,halive⟩ := called_child
  have hrun := (Relation.ReflTransGen.single called_step).tail hchild
  exact ⟨m,hrun,halive,fun q hq => (never_two_children hrun).1 0 q halive hq⟩

/-- No thread is late by more than `lag`. -/
def OnTime (lag : ℕ) (m : System) : Prop :=
  ∀ p,m.cache.Running p → m.cache.now ≤ (m.thread p).due+lag

/-- A thread is on time when it has just started or performed an operation. -/
theorem le_due (thread : Thread) : thread.world.now ≤ thread.due := by
  unfold Thread.due
  split <;> omega

/-- A prompt step leaves every thread on time. -/
theorem OnTime.step (hs : Prompt source lag m m') : OnTime lag m' := by
  obtain ⟨hs,hprompt⟩ := hs
  rintro q ⟨probe,hq,he⟩
  cases hs.threadStep q with
  | same hp ht =>
    rw [ht]
    exact hprompt q ⟨probe,hp ▸ hq,he⟩
  | spawned hp ht hnow =>
    have hdue := le_due ⟨probeChild source,World.before m.cache.now⟩
    change m.cache.now ≤ _ at hdue
    rw [ht]
    omega
  | @operated op resume answer world hp hask ht hr hnow hnow' =>
    have hdue := le_due ⟨resume answer,world⟩
    change world.now ≤ _ at hdue
    rw [ht]
    omega
  | ended hp hp' =>
    rw [hp'] at hq
    cases hq
    cases he

/-- A probe's thread has nothing left to do within the time-out of its child,
one interval of polling and seven lags. -/
theorem probeChild_in_time (source : VramSource) (lag now : ℕ) :
    (probeChild source).Safe (promptRule lag (now+nvidiaSmiTimeout+poll+7*lag)) (World.before now)
      fun _ w' => w'.now ≤ now+nvidiaSmiTimeout+poll+7*lag := by
  cases source with
  | auto => exact runWithDeadline_in_time _ _
  | nvidia => exact runWithDeadline_in_time _ _
  | amd => exact (show now ≤ _ from by omega)
  | none => exact (show now ≤ _ from by omega)

/-- A prompt run is a run. -/
theorem steps_of_prompt (h : Relation.ReflTransGen (Prompt source lag) System.new m) :
    Relation.ReflTransGen (Step source) System.new m := h.lift id fun _ _ hs => hs.1

/-- A prompt run tracks its threads under the rule of prompt operations. -/
theorem tracked_of_prompt (h : Relation.ReflTransGen (Prompt source lag) System.new m) :
    Tracked (promptRule lag 0) source m ∧ OnTime lag m := by
  induction h with
  | refl => exact ⟨.new,fun p hp => by simp [System.new,State.new,State.Running] at hp⟩
  | tail _ hs ih =>
    obtain ⟨htracked,htime⟩ := ih
    refine ⟨htracked.step hs.1 fun p op resume answer world hask hrun hr hnow => ⟨hr,?_⟩,.step hs⟩
    have hdue := htime p hrun
    rw [Thread.due,hask] at hdue
    dsimp only at hdue
    omega

/-- A call that awaits a probe has waited since that was started. -/
theorem awaited_of_run {trace : List (Event×Output)} {st : State}
    (h : Run step State.new trace st) :
    ∀ holder,st.holder=some holder →
      ∃ ended,st.probes[holder.probe]?=some ⟨holder.started,ended⟩ := by
  refine h.invariant (fun st => ∀ holder,st.holder=some holder →
    ∃ ended,st.probes[holder.probe]?=some ⟨holder.started,ended⟩) (fun _ hh => (by cases hh)) ?_
  intro t event output u ih _ hs holder hh
  cases step_effect hs with
  | wait | serve | tick => exact ih holder hh
  | spawn =>
    cases hh
    exact ⟨none,List.getElem?_concat_length⟩
  | record => cases hh
  | abandon => cases hh
  | finish p started joined hrun =>
    obtain ⟨ended,hp⟩ := ih holder hh
    by_cases hpq : p=holder.probe
    · subst hpq
      rw [hrun] at hp
      cases hp
      exact ⟨_,List.getElem?_set_self (List.getElem?_eq_some_iff.mp hrun).1⟩
    · exact ⟨ended,by rw [List.getElem?_set_ne hpq,hp]⟩

/-- While nothing is late by more than an eighth of what lies between the time
that `nvidia-smi` has and the time a call waits for it, every probe that runs,
hung child or not, is within the time its call waits, and no call records a
reading for a probe that still runs. -/
theorem probes_in_time (hlag : nvidiaSmiTimeout+poll+8*lag < residencyProbeDeadline)
    (h : Relation.ReflTransGen (Prompt source lag) System.new m) :
    (∀ (p started : ℕ),m.cache.probes[p]?=some ⟨started,none⟩ →
        m.cache.now<started+residencyProbeDeadline) ∧
      ∀ event caller p reading st',step m.cache event=some (.probed caller p reading,st') →
        ¬m.cache.Running p := by
  obtain ⟨htracked,htime⟩ := tracked_of_prompt h
  have hwithin : ∀ (p started : ℕ),m.cache.probes[p]?=some ⟨started,none⟩ →
      m.cache.now<started+residencyProbeDeadline := by
    intro p started hp
    have hthread := htracked p
    have hdue := htime p ⟨_,hp,rfl⟩
    rw [hp] at hthread
    have hreached : Reaches (promptRule lag (started+nvidiaSmiTimeout+poll+7*lag))
        (probeChild source) (World.before started) (m.thread p).rest (m.thread p).world := by
      refine hthread.1.mono ?_
      exact fun _ _ _ _ hr => hr
    have hsafe := hreached.safe (probeChild_in_time source lag started)
    unfold Thread.due at hdue
    cases hrest : (m.thread p).rest with
    | done result =>
      rw [hrest] at hsafe hdue
      have hover : (m.thread p).world.now ≤ started+nvidiaSmiTimeout+poll+7*lag := hsafe
      dsimp only at hdue
      omega
    | ask op resume =>
      rw [hrest] at hsafe hdue
      have hover : (m.thread p).world.now+op.span+lag ≤ started+nvidiaSmiTimeout+poll+7*lag :=
        hsafe.1
      dsimp only at hdue
      omega
  refine ⟨hwithin,fun event caller p reading st' hs hrun => ?_⟩
  obtain ⟨trace,hr⟩ := cache_run (steps_of_prompt h)
  cases step_effect hs with
  | wait _ _ hquiet => cases hquiet
  | record holder outcome hheld hend hlate =>
    obtain ⟨ended,hp⟩ := awaited_of_run hr holder hheld
    obtain ⟨probe,hp',he⟩ := hrun
    rw [hp] at hp' hend
    cases hp'
    dsimp only at he
    subst he
    have hnow := hwithin holder.probe holder.started hp
    have hover := hlate hend.symm
    omega

/-- The first call's thread starts its child and is late by 59 milliseconds
with its next operation. -/
theorem probes_in_time_late : ∃ m,
    Relation.ReflTransGen (Prompt .nvidia (millis 59)) System.new m ∧
      m.cache.probes[0]?=some ⟨0,none⟩ ∧ m.cache.now=millis 59 ∧
      m.cache.now<0+residencyProbeDeadline := by
  obtain ⟨m,hchild,hcache,-⟩ := called_child
  have hcall : Prompt .nvidia (millis 59) System.new System.called :=
    ⟨called_step,fun p hp => by simp [System.new,State.new,State.Running] at hp⟩
  have hstart : Prompt .nvidia (millis 59) System.called m := by
    refine ⟨hchild,fun p _ => ?_⟩
    rw [hcache]
    exact Nat.zero_le _
  have htick : step m.cache (.tick (millis 59))=
      some (.ticked,{m.cache with now := m.cache.now+millis 59}) := rfl
  have hlate : Prompt .nvidia (millis 59) m
      ⟨{m.cache with now := m.cache.now+millis 59},m.spawned .nvidia .ticked⟩ := by
    refine ⟨.cache (fun _ _ => Event.noConfusion) htick,fun p _ => ?_⟩
    rw [hcache]
    exact Nat.add_le_add_right (Nat.zero_le _) _
  have hrun := ((Relation.ReflTransGen.single hcall).tail hstart).tail hlate
  have hprobe : m.cache.probes[0]?=some ⟨0,none⟩ := by rw [hcache]; rfl
  have hnow : m.cache.now+millis 59=millis 59 := by rw [hcache]; rfl
  exact ⟨_,hrun,hprobe,hnow,(probes_in_time (by decide) hrun).1 0 0 hprobe⟩

end AivyxBroker.ProbeThreads
