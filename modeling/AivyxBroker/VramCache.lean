import AivyxBroker.RunInvariant
import AivyxBroker.Gpu

/-!
# The cache of VRAM probes

`get` holds an asynchronous mutex from its freshness check until it has
recorded a probe's result; the probe itself runs on a thread that outlives
the call. A run is an interleaving of calls being polled and dropped, of probe
threads ending, and of time. A stretch of code between two awaits is one
action at one instant. Every probe ever spawned stays in the state with the
instants it started and ended, of which the code keeps no record.
-/

namespace AivyxBroker.VramCache

open RunInvariant Gpu

/-- The longest a call waits on the probe it started. -/
def residencyProbeDeadline : ℕ := millis 2500

/-- How long a probe result is reused. -/
def vramCacheTtl : ℕ := millis 2000

/-- How long a timed-out probe's `None` is kept before probing again. -/
def vramTimeoutBackoff : ℕ := millis 30000

/-- `nvidia-smi` is killed before a call gives up on its probe. -/
theorem nvidiaSmiTimeout_le_deadline : nvidiaSmiTimeout≤residencyProbeDeadline := by decide

/-- Backing off keeps a reading for longer than caching does. -/
theorem vramCacheTtl_le_backoff : vramCacheTtl≤vramTimeoutBackoff := by decide

/-- One probe result, when it was taken, and how long it stays fresh. -/
structure VramReading where
  /-- The instant it was recorded. -/
  taken : ℕ
  /-- What the probe answered. -/
  vram : Option Vram
  /-- How long it is served without probing again. -/
  freshFor : ℕ
  deriving DecidableEq

/-- The reading may still be served without probing. -/
def VramReading.Fresh (reading : VramReading) (now : ℕ) : Prop :=
  now-reading.taken<reading.freshFor

instance (reading : VramReading) (now : ℕ) : Decidable (reading.Fresh now) :=
  inferInstanceAs (Decidable (_<_))

/-- What joining a probe's task yields. -/
inductive Joined where
  /-- The probe returned. -/
  | ok (vram : Option Vram)
  /-- The probe panicked. -/
  | panicked
  deriving DecidableEq

/-- The VRAM a joined probe answers, `None` if it panicked. -/
def Joined.flatten : Joined → Option Vram
  | .ok vram => vram
  | .panicked => none

/-- A spawned probe. -/
structure Probe where
  /-- The instant its task was spawned. -/
  started : ℕ
  /-- When its closure ended, clearing the in-flight flag, and how. -/
  ended : Option (ℕ×Joined)

/-- The call that holds the lock while it awaits the probe it started. -/
structure Holder where
  /-- The call. -/
  caller : ℕ
  /-- Its probe, by the order of spawning. -/
  probe : ℕ
  /-- The instant it started waiting. -/
  started : ℕ

/-- The cache, its calls, the probes spawned so far and the clock. -/
structure State where
  /-- The last recorded reading, behind the mutex. -/
  last : Option VramReading
  /-- The flag that keeps a second probe from starting. -/
  inFlight : Bool
  /-- The call holding the mutex across an await. -/
  holder : Option Holder
  /-- Calls waiting for the mutex. -/
  waiting : List ℕ
  /-- The next call's number. -/
  next : ℕ
  /-- Every probe spawned, oldest first. -/
  probes : List Probe
  /-- The monotone clock. -/
  now : ℕ

/-- One action of the executor, of a client, of a probe thread, or of time. -/
inductive Event where
  /-- A new call is made and polled for the first time. -/
  | call
  /-- The executor polls a call. -/
  | poll (caller : ℕ)
  /-- A call's future is dropped. -/
  | cancel (caller : ℕ)
  /-- A probe's closure returns or panics. -/
  | finish (probe : ℕ) (joined : Joined)
  /-- Time passes. -/
  | tick (span : ℕ)

/-- What the action led to. -/
inductive Output where
  /-- The call waits for the mutex. -/
  | waiting (caller : ℕ)
  /-- The call returned without probing. -/
  | served (caller : ℕ) (vram : Option Vram)
  /-- The call started a probe and awaits it. -/
  | probing (caller probe : ℕ)
  /-- The call still awaits its probe. -/
  | pending (caller : ℕ)
  /-- The call recorded what came of its probe and returned it. -/
  | probed (caller probe : ℕ) (reading : VramReading)
  /-- The call is gone. -/
  | dropped (caller : ℕ)
  /-- The probe's thread is done. -/
  | finished (probe : ℕ)
  /-- Time passed. -/
  | ticked
  deriving DecidableEq

/-- What a call returned, if the action was its last. -/
def Output.returned : Output → Option (ℕ×Option Vram)
  | .served caller vram => some (caller,vram)
  | .probed caller _ reading => some (caller,reading.vram)
  | _ => none

/-- A newly built cache. -/
def State.new : State := ⟨none,false,none,[],0,[],0⟩

/-- Past the freshness check: start a probe, unless one is still out; then
serve the last reading while it is recent enough. -/
def State.swapInFlight (st : State) (caller : ℕ) : Output×State :=
  if st.inFlight=true then
    (.served caller ((st.last.filter fun r => decide (st.now-r.taken<vramTimeoutBackoff)).bind
      VramReading.vram),st)
  else
    (.probing caller st.probes.length,
      {st with
        inFlight := true
        probes := st.probes++[⟨st.now,none⟩]
        holder := some ⟨caller,st.probes.length,st.now⟩})

/-- What a call does once it has the mutex, up to its return or its await. -/
def State.locked (st : State) (caller : ℕ) : Output×State :=
  match st.last with
  | some reading =>
    if reading.Fresh st.now then (.served caller reading.vram,st) else st.swapInFlight caller
  | none => st.swapInFlight caller

/-- The VRAM and freshness that the awaited probe amounts to; `none` is the
call's own deadline. -/
def judge (elapsed : ℕ) : Option Joined → Option Vram×ℕ
  | some joined =>
    if nvidiaSmiTimeout≤elapsed ∧ joined=.ok none then (none,vramTimeoutBackoff)
    else (joined.flatten,vramCacheTtl)
  | none => (none,vramTimeoutBackoff)

/-- The reading a call records at `now` for the probe it awaited. -/
def Holder.reading (holder : Holder) (now : ℕ) (outcome : Option Joined) : VramReading :=
  ⟨now,(judge (now-holder.started) outcome).1,(judge (now-holder.started) outcome).2⟩

/-- Record what came of the awaited probe, release the mutex and return. -/
def State.record (st : State) (holder : Holder) (outcome : Option Joined) : Output×State :=
  let reading := holder.reading st.now outcome
  (.probed holder.caller holder.probe reading,{st with last := some reading, holder := none})

/-- Poll the probe's task under its time-out, which looks at the task first. -/
def State.pollProbe (st : State) (holder : Holder) : Output×State :=
  match (st.probes[holder.probe]?).bind Probe.ended with
  | some (_,joined) => st.record holder (some joined)
  | none =>
    if holder.started+residencyProbeDeadline ≤ st.now then st.record holder none
    else (.pending holder.caller,st)

/-- The interleaving semantics. A free mutex may go to any call that is
polled; only live calls are polled or dropped, only running probes end. -/
def step (st : State) : Event → Option (Output×State)
  | .call =>
    match st.holder with
    | none => some ({st with next := st.next+1}.locked st.next)
    | some _ =>
      some (.waiting st.next,{st with next := st.next+1, waiting := st.waiting++[st.next]})
  | .poll caller =>
    match st.holder with
    | none =>
      if caller∈st.waiting then some ({st with waiting := st.waiting.erase caller}.locked caller)
      else none
    | some holder =>
      if holder.caller=caller then some (st.pollProbe holder)
      else if caller∈st.waiting then some (.waiting caller,st)
      else none
  | .cancel caller =>
    match st.holder with
    | none =>
      if caller∈st.waiting then
        some (.dropped caller,{st with waiting := st.waiting.erase caller})
      else none
    | some holder =>
      if holder.caller=caller then some (.dropped caller,{st with holder := none})
      else if caller∈st.waiting then
        some (.dropped caller,{st with waiting := st.waiting.erase caller})
      else none
  | .finish p joined =>
    match st.probes[p]? with
    | some ⟨started,none⟩ =>
      some (.finished p,{st with
        probes := st.probes.set p ⟨started,some (st.now,joined)⟩
        inFlight := false})
    | _ => none
  | .tick span => some (.ticked,{st with now := st.now+span})

/-- The probe's closure has not ended. -/
def State.Running (st : State) (p : ℕ) : Prop :=
  ∃ probe,st.probes[p]?=some probe ∧ probe.ended=none

/-- The probe ended by returning `vram`. -/
def State.Completed (st : State) (p : ℕ) (vram : Option Vram) : Prop :=
  ∃ started at',st.probes[p]?=some ⟨started,some (at',.ok vram)⟩

/-- What an action can do to the cache and its probes. Every fact about runs
below is derived from these cases; `waiting` and `next` are free in them. -/
inductive Effect (st : State) : Event → Output → State → Prop
  /-- A call queues for the mutex or goes on waiting for it or its probe. -/
  | wait {event : Event} {output : Output} (waiting : List ℕ) (next : ℕ)
      (hquiet : output.returned=none) (hstart : ∀ caller p,output≠.probing caller p) :
      Effect st event output {st with waiting := waiting, next := next}
  /-- A call returns what was recorded before. -/
  | serve {event : Event} (caller : ℕ) (vram : Option Vram) (waiting : List ℕ) (next : ℕ)
      (hv : ∀ v,vram=some v → ∃ r,st.last=some r ∧ r.vram=some v ∧
        (r.Fresh st.now ∨ st.inFlight=true ∧ st.now-r.taken<vramTimeoutBackoff)) :
      Effect st event (.served caller vram) {st with waiting := waiting, next := next}
  /-- A call takes the free mutex and starts a probe. -/
  | spawn {event : Event} (caller : ℕ) (waiting : List ℕ) (next : ℕ)
      (hfree : st.holder=none) (hstale : ∀ r,st.last=some r → ¬r.Fresh st.now)
      (hflag : st.inFlight=false) :
      Effect st event (.probing caller st.probes.length)
        ⟨st.last,true,some ⟨caller,st.probes.length,st.now⟩,waiting,next,
          st.probes++[⟨st.now,none⟩],st.now⟩
  /-- The holder records what came of its probe and returns it. -/
  | record (holder : Holder) (outcome : Option Joined) (hheld : st.holder=some holder)
      (hend : ((st.probes[holder.probe]?).bind Probe.ended).map Prod.snd=outcome)
      (hlate : outcome=none → holder.started+residencyProbeDeadline ≤ st.now) :
      Effect st (.poll holder.caller)
        (.probed holder.caller holder.probe (holder.reading st.now outcome))
        {st with last := some (holder.reading st.now outcome), holder := none}
  /-- The holder is dropped while it awaits its probe. -/
  | abandon (holder : Holder) (hheld : st.holder=some holder) :
      Effect st (.cancel holder.caller) (.dropped holder.caller) {st with holder := none}
  /-- A running probe ends. -/
  | finish (p started : ℕ) (joined : Joined) (hrun : st.probes[p]?=some ⟨started,none⟩) :
      Effect st (.finish p joined) (.finished p)
        {st with probes := st.probes.set p ⟨started,some (st.now,joined)⟩, inFlight := false}
  /-- Time passes. -/
  | tick (span : ℕ) : Effect st (.tick span) .ticked {st with now := st.now+span}

/-- A call that gets the free mutex is served or starts a probe. -/
theorem locked_effect {st : State} {event : Event} (hfree : st.holder=none) (caller : ℕ)
    (waiting : List ℕ) (next : ℕ) :
    Effect st event ({st with waiting := waiting, next := next}.locked caller).1
      ({st with waiting := waiting, next := next}.locked caller).2 := by
  have hswap : (∀ r,st.last=some r → ¬r.Fresh st.now) →
      Effect st event ({st with waiting := waiting, next := next}.swapInFlight caller).1
        ({st with waiting := waiting, next := next}.swapInFlight caller).2 := by
    intro hstale
    unfold State.swapInFlight
    split
    · rename_i hflag
      refine .serve caller _ waiting next fun v hv => ?_
      obtain ⟨r,hr,hv⟩ := Option.bind_eq_some_iff.mp hv
      obtain ⟨hr,hage⟩ := Option.filter_eq_some_iff.mp hr
      exact ⟨r,hr,hv,.inr ⟨hflag,of_decide_eq_true hage⟩⟩
    · rename_i hflag
      exact .spawn caller waiting next hfree hstale (Bool.eq_false_iff.mpr hflag)
  unfold State.locked
  dsimp only
  split
  · rename_i reading hr
    split
    · rename_i hfresh
      exact .serve caller _ waiting next fun v hv => ⟨reading,hr,hv,.inl hfresh⟩
    · rename_i hstale
      exact hswap fun r hr' => Option.some.inj (hr.symm.trans hr') ▸ hstale
  · rename_i hr
    exact hswap fun r hr' => by rw [hr] at hr'; cases hr'

/-- The step function does nothing but the effects. -/
theorem step_effect {st st' : State} {event : Event} {output : Output}
    (h : step st event=some (output,st')) : Effect st event output st' := by
  cases event with
  | call =>
    simp only [step] at h
    split at h
    · rename_i hfree
      obtain ⟨rfl,rfl⟩ := Prod.mk.inj (Option.some.inj h)
      exact locked_effect hfree _ st.waiting (st.next+1)
    · cases h
      exact .wait _ _ rfl fun _ _ => Output.noConfusion
  | poll caller =>
    simp only [step] at h
    split at h
    · rename_i hfree
      split at h
      · obtain ⟨rfl,rfl⟩ := Prod.mk.inj (Option.some.inj h)
        exact locked_effect hfree _ (st.waiting.erase caller) st.next
      · cases h
    · rename_i holder hheld
      split at h
      · rename_i hc
        subst hc
        unfold State.pollProbe at h
        split at h
        · rename_i end' joined he
          cases h
          refine .record holder (some joined) hheld (by rw [he]; rfl) fun hn => ?_
          cases hn
        · rename_i he
          split at h
          · rename_i hlate
            cases h
            exact .record holder none hheld (by rw [he]; rfl) fun _ => hlate
          · cases h
            exact .wait _ _ rfl fun _ _ => Output.noConfusion
      · split at h
        · cases h
          exact .wait _ _ rfl fun _ _ => Output.noConfusion
        · cases h
  | cancel caller =>
    simp only [step] at h
    split at h
    · split at h
      · cases h
        exact .wait _ _ rfl fun _ _ => Output.noConfusion
      · cases h
    · rename_i holder hheld
      split at h
      · rename_i hc
        cases h
        subst hc
        exact .abandon holder hheld
      · split at h
        · cases h
          exact .wait _ _ rfl fun _ _ => Output.noConfusion
        · cases h
  | finish p joined =>
    simp only [step] at h
    split at h
    · rename_i started hrun
      cases h
      exact .finish p started joined hrun
    · cases h
  | tick span =>
    cases h
    exact .tick span

/-- At most one probe is out, and the flag says whether. -/
structure SingleFlight (st : State) : Prop where
  /-- The flag is up while a probe runs. -/
  flag : ∀ p,st.Running p → st.inFlight=true
  /-- The flag is up only while a probe runs. -/
  outstanding : st.inFlight=true → ∃ p,st.Running p
  /-- Two running probes are one. -/
  single : ∀ p q,st.Running p → st.Running q → p=q

/-- Which probes run depends on the probes alone. -/
theorem SingleFlight.congr {st st' : State} (h : SingleFlight st)
    (hf : st'.inFlight=st.inFlight) (hp : st'.probes=st.probes) : SingleFlight st' := by
  obtain ⟨hflag,hout,hsingle⟩ := h
  constructor <;> simp only [State.Running,hf,hp] <;> assumption

/-- Each effect keeps the flight single: a probe starts under a lowered flag
only, and the probe that ends is the one the flag stood for. -/
theorem SingleFlight.step {st st' : State} {event : Event} {output : Output}
    (h : SingleFlight st) (heff : Effect st event output st') : SingleFlight st' := by
  cases heff with
  | wait | serve | record | abandon | tick => exact h.congr rfl rfl
  | spawn caller waiting next hfree hstale hflag =>
    have hnone : ∀ p,¬st.Running p := fun p hp => by
      have := h.flag p hp
      rw [hflag] at this
      cases this
    have hlast : ∀ p : ℕ,(∃ probe : Probe,(st.probes++[⟨st.now,none⟩])[p]?=some probe ∧ probe.ended=none) →
        p=st.probes.length := by
      rintro p ⟨probe,hp,he⟩
      rw [List.getElem?_append] at hp
      split at hp
      · exact absurd ⟨probe,hp,he⟩ (hnone p)
      · have := (List.getElem?_eq_some_iff.mp hp).1
        simp only [List.length_singleton] at this
        omega
    refine ⟨fun _ _ => rfl,fun _ => ⟨st.probes.length,⟨st.now,none⟩,by simp,rfl⟩,?_⟩
    intro p q hp hq
    rw [hlast p hp,hlast q hq]
  | finish p started joined hrun =>
    have hnone : ∀ q : ℕ,¬∃ probe : Probe,(st.probes.set p ⟨started,some (st.now,joined)⟩)[q]?=some probe ∧
        probe.ended=none := by
      rintro q ⟨probe,hq,he⟩
      rw [List.getElem?_set] at hq
      split at hq
      · split at hq
        · cases hq
          cases he
        · cases hq
      · rename_i hne
        exact hne (h.single p q ⟨_,hrun,rfl⟩ ⟨probe,hq,he⟩)
    refine ⟨fun q hq => absurd hq (hnone q),fun hf => ?_,fun q _ hq => absurd hq (hnone q)⟩
    cases hf

/-- A probe's result never changes. -/
theorem Effect.completed {st st' : State} {event : Event} {output : Output}
    (heff : Effect st event output st') {p : ℕ} {vram : Option Vram}
    (hc : st.Completed p vram) : st'.Completed p vram := by
  obtain ⟨started,instant,hp⟩ := hc
  cases heff with
  | wait | serve | record | abandon | tick => exact ⟨started,instant,hp⟩
  | spawn =>
    refine ⟨started,instant,?_⟩
    rw [List.getElem?_append_left (List.getElem?_eq_some_iff.mp hp).1]
    exact hp
  | finish q started' joined hrun =>
    refine ⟨started,instant,?_⟩
    have hne : q≠p := fun hq => by
      rw [hq,hp] at hrun
      cases hrun
    rw [List.getElem?_set_ne hne]
    exact hp

/-- What a call records is either nothing or the result of a probe that
returned, kept for the ordinary time. -/
theorem reading_vram {holder : Holder} {now : ℕ} {outcome : Option Joined} {v : Vram}
    (h : (holder.reading now outcome).vram=some v) :
    outcome=some (.ok (some v)) ∧ (holder.reading now outcome).freshFor=vramCacheTtl := by
  unfold Holder.reading judge at h ⊢
  cases outcome with
  | none => cases h
  | some joined =>
    dsimp only at h ⊢
    split at h
    · cases h
    · rename_i hfast
      rw [if_neg hfast]
      cases joined with
      | ok vram =>
        obtain rfl : vram=some v := h
        exact ⟨rfl,rfl⟩
      | panicked => cases h

/-- The cached reading of some VRAM was recorded by a call of the trace, and
is the result of that call's probe. -/
def Backed (trace : List (Event×Output)) (st : State) : Prop :=
  ∀ r v,st.last=some r → r.vram=some v → r.freshFor=vramCacheTtl ∧
    ∃ caller p,(Event.poll caller,Output.probed caller p r)∈trace ∧ st.Completed p (some v)

/-- The result a call records is that of the completed probe it awaited. -/
theorem record_completed {st : State} {holder : Holder} {outcome : Option Joined} {v : Vram}
    (hend : ((st.probes[holder.probe]?).bind Probe.ended).map Prod.snd=outcome)
    (hv : (holder.reading st.now outcome).vram=some v) : st.Completed holder.probe (some v) := by
  rw [(reading_vram hv).1] at hend
  obtain ⟨⟨instant,joined⟩,he,rfl⟩ := Option.map_eq_some_iff.mp hend
  obtain ⟨⟨started,ended⟩,hp,rfl⟩ := Option.bind_eq_some_iff.mp he
  exact ⟨started,instant,hp⟩

/-- Each effect keeps the cached reading backed by the trace. -/
theorem Backed.step {trace : List (Event×Output)} {st st' : State} {event : Event}
    {output : Output} (h : Backed trace st) (heff : Effect st event output st') :
    Backed (trace++[(event,output)]) st' := by
  have hkeep : st'.last=st.last → Backed (trace++[(event,output)]) st' := by
    intro hl r v hr hv
    obtain ⟨hf,caller,p,hm,hc⟩ := h r v (hl ▸ hr) hv
    exact ⟨hf,caller,p,List.mem_append_left _ hm,heff.completed hc⟩
  cases heff with
  | wait | serve | spawn | abandon | finish | tick => exact hkeep rfl
  | record holder outcome hheld hend hlate =>
    intro r v hr hv
    obtain rfl := Option.some.inj hr
    exact ⟨(reading_vram hv).2,holder.caller,holder.probe,by simp,record_completed hend hv⟩

/-- The flight is single after every run. -/
theorem singleFlight_of_run {trace : List (Event×Output)} {st : State}
    (h : Run step State.new trace st) : SingleFlight st := by
  refine h.invariant SingleFlight ?_ fun _ _ _ _ hi _ hs => hi.step (step_effect hs)
  constructor <;> simp [State.new,State.Running]

/-- The cached reading is backed by the trace after every run. -/
theorem backed_of_run {trace : List (Event×Output)} {st : State}
    (h : Run step State.new trace st) : Backed trace st := by
  refine h.trace_invariant Backed ?_ fun _ _ _ _ _ hi _ hs => hi.step (step_effect hs)
  intro r v hr
  cases hr

/-- Read off the run alone: a call recorded `v`, the result of the probe `p`
it had awaited, when the clock showed `instant`. -/
def RecordedAt (trace : List (Event×Output)) (p : ℕ) (v : Vram) (instant : ℕ) : Prop :=
  ∃ pre u caller reading post,
    trace=pre++(Event.poll caller,Output.probed caller p reading)::post ∧
    Run step State.new pre u ∧ u.now=instant ∧ reading.vram=some v

/-- A call records its reading under the current instant. -/
theorem probed_taken {st st' : State} {caller caller' p : ℕ} {reading : VramReading}
    (h : step st (.poll caller)=some (.probed caller' p reading,st')) :
    reading.taken=st.now := by
  cases step_effect h with
  | wait _ _ hquiet => cases hquiet
  | record => rfl

/-- Probing is single-flight and over-age readings are not served, over every
run: at most one probe is out and then the flag is up; whatever VRAM a call
returns is the result of a completed probe that this very call awaited, or
that was recorded within the cache's lifetime, or within the back-off while
another probe is out. -/
theorem vramCache_single_flight {trace : List (Event×Output)} {st : State}
    (h : Run step State.new trace st) :
    (∀ p q,st.Running p → st.Running q → p=q) ∧ (∀ p,st.Running p → st.inFlight=true) ∧
    ∀ event output st' caller v,step st event=some (output,st') →
      output.returned=some (caller,some v) → ∃ p,st.Completed p (some v) ∧
        ((∃ reading,output=.probed caller p reading) ∨
          ∃ instant,RecordedAt trace p v instant ∧
            (st.now < instant+vramCacheTtl ∨
              st.now < instant+vramTimeoutBackoff ∧ ∃ q,q≠p ∧ st.Running q)) := by
  have hsf := singleFlight_of_run h
  refine ⟨hsf.single,hsf.flag,fun event output st' caller v hs hret => ?_⟩
  have hback : ∀ r,st.last=some r → r.vram=some v → r.freshFor=vramCacheTtl ∧
      ∃ p,st.Completed p (some v) ∧ RecordedAt trace p v r.taken := by
    intro r hr hv
    obtain ⟨hf,c,p,hm,hc⟩ := backed_of_run h r v hr hv
    obtain ⟨pre,post,rfl⟩ := List.append_of_mem hm
    obtain ⟨u,u',hu,-,hstep,-⟩ := h.cut
    exact ⟨hf,p,hc,pre,u,c,r,post,rfl,hu,(probed_taken hstep).symm,hv⟩
  cases step_effect hs with
  | wait _ _ hquiet => rw [hquiet] at hret; cases hret
  | serve caller' vram waiting next hr =>
    obtain ⟨rfl,rfl⟩ := Prod.mk.inj (Option.some.inj hret)
    obtain ⟨r,hl,hv,hage⟩ := hr v rfl
    obtain ⟨hf,p,hc,hrec⟩ := hback r hl hv
    refine ⟨p,hc,.inr ⟨r.taken,hrec,?_⟩⟩
    rcases hage with hfresh | ⟨hflag,hage⟩
    · left
      unfold VramReading.Fresh at hfresh
      omega
    · right
      obtain ⟨q,hq⟩ := hsf.outstanding hflag
      refine ⟨by omega,q,?_,hq⟩
      rintro rfl
      obtain ⟨probe,hp,he⟩ := hq
      obtain ⟨started,instant,hp'⟩ := hc
      rw [hp] at hp'
      obtain rfl := Option.some.inj hp'
      cases he
  | spawn => cases hret
  | record holder outcome hheld hend hlate =>
    obtain ⟨rfl,hv⟩ := Prod.mk.inj (Option.some.inj hret)
    exact ⟨holder.probe,record_completed hend hv,.inl ⟨_,rfl⟩⟩
  | abandon => cases hret
  | finish => cases hret
  | tick => cases hret

/-- A call a second after another is served the other's reading, which is the
result of a completed probe. -/
theorem vramCache_single_flight_shared :
    ∃ trace st st',Run step State.new trace st ∧
      step st .call=some (.served 1 (some ⟨2,1⟩),st') ∧ ∃ p,st.Completed p (some ⟨2,1⟩) := by
  have h := run_of_exec (show exec step State.new [.call,.tick 30,.finish 0 (.ok (some ⟨2,1⟩)),
    .poll 0,.tick 1000000000]=some (_,⟨some ⟨30,some ⟨2,1⟩,vramCacheTtl⟩,false,none,[],1,
      [⟨0,some (30,.ok (some ⟨2,1⟩))⟩],1000000030⟩) from rfl)
  obtain ⟨p,hp,-⟩ := (vramCache_single_flight h).2.2 .call (.served 1 (some ⟨2,1⟩)) _ 1 ⟨2,1⟩
    rfl rfl
  exact ⟨_,_,_,h,rfl,p,hp⟩

end AivyxBroker.VramCache
