import AivyxBroker.Forward
import AivyxBroker.SchedulerOwnership

/-!
# The broker with its slots and its store

Chat requests are parsed, admitted by the scheduler and forwarded by tasks of
their own, which interleave with each other and with the scheduler's other
events. A request acts on the slot it was admitted to. What a slot's KV cache
physically holds, and what the store saved, are ghost state of this system:
the broker never sees them, it only sees answers.

What is assumed of llama-server and the store: a warm-up answered with a 2xx
status leaves the request's own prefix in the slot, any other warm-up may
leave anything there; a successful restore installs what was saved under the
key, one that finds nothing changes nothing, a failed one may leave anything;
a forwarded hinted request leaves its own prefix or what was there before, a
hint-less one may leave anything; a successful save saves what the slot holds.
Nobody else touches the slots.
-/

namespace AivyxBroker.Broker

open Scheduler Forward Program RunInvariant WakeSignal

/-- What a slot physically holds: a prefix with the model that computed it,
or nothing known. -/
abbrev Content := Option (Option String×String)

/-- The content a hinted request computes. -/
def ownContent (hint : SlotHint) : Content := some (hint.model,hint.prefixHash)

/-- A saved state, with the model value of the request that saved it. -/
structure Entry where
  /-- The saving request's model. -/
  model : Option String
  /-- What the slot held when it was saved. -/
  content : Content
  deriving DecidableEq

/-- A spawned forwarding task. -/
structure Job where
  /-- The request's hint. -/
  hint : Option SlotHint
  /-- The slot it was admitted to. -/
  slotId : ℕ
  /-- What it has left to do. -/
  rest : Forwarding Unit

/-- The whole broker. -/
structure System where
  /-- The scheduler with the guards of its admissions. -/
  guarded : Guarded
  /-- Request bodies by admit call, without the hint. -/
  bodies : ℕ → Json
  /-- Forwarding tasks by admit call. -/
  jobs : ℕ → Option Job
  /-- What the slots hold. -/
  content : ℕ → Content
  /-- What is saved. -/
  store : CacheKey → Option Entry

/-- How an operation of a task is answered. Where it concerns a slot, `after`
is what the slot holds afterwards, unless that is determined. -/
inductive Reply where
  /-- The store answered a restore. -/
  | restored (result : Except Error Bool) (after : Content)
  /-- llama-server answered, or could not be reached. -/
  | posted (result : Except Error Response) (after : Content)
  /-- The store answered a save. -/
  | saved (result : Except Error Unit)
  /-- The handler took the head, or was gone. -/
  | headSent (taken : Bool)
  /-- How the chunk send ended. -/
  | chunkSent (result : SendResult)
  /-- The other operations answer nothing. -/
  | unit

/-- One atomic action of the broker or its surroundings. -/
inductive Event where
  /-- A chat request arrives. -/
  | chat (body : Json)
  /-- Something happens to waiting calls or seeded slots. -/
  | call (event : Scheduler.Event)
  /-- A forwarding task performs its next operation. -/
  | work (caller : ℕ) (reply : Reply)
  /-- The store drops a saved state. -/
  | evict (key : CacheKey)

/-- What the action returned. -/
inductive Output where
  /-- The output of the scheduler. -/
  | sched (output : Scheduler.Output)
  /-- A task performed an operation, for a request with this hint. -/
  | performed (caller : ℕ) (hint : Option SlotHint) (op : Performed Ans)
  /-- Nothing. -/
  | unit

/-- The events that happen without a handler or task: the arrival, releases
and residency updates come from those. -/
def background : Scheduler.Event → Bool
  | .repoll _ => true
  | .timeOut _ => true
  | .cancel _ => true
  | .reconcileSeededIdle _ => true
  | .seedBusy _ => true
  | _ => false

/-- Whether a status is 2xx. -/
def Response.isSuccess (resp : Response) : Bool := 200≤resp.head.status && resp.head.status<300

/-- The answer of an operation and what the slot holds after it, under the
assumptions on llama-server and the store. -/
def touch (hint : Option SlotHint) (store : CacheKey → Option Entry) (before : Content) :
    (op : Op) → Reply → Option (Ans op×Content)
  | .restoreIntoSlot key _,.restored result after =>
    match result with
    | .ok true => (store key).map fun entry => (.ok true,entry.content)
    | .ok false => some (.ok false,before)
    | .error err => some (.error err,after)
  | .post .warmUp _ _,.posted result after =>
    match result with
    | .ok resp =>
      if Response.isSuccess resp=true then some (.ok resp,hint.bind ownContent)
      else some (.ok resp,after)
    | .error err => some (.error err,after)
  | .post .forwarded _ _,.posted result after =>
    match hint with
    | some h => if after=before ∨ after=ownContent h then some (result,after) else none
    | none => some (result,after)
  | .saveFromSlot .., .saved result => some (result,before)
  | .sendHead _,.headSent taken => some (taken,before)
  | .sendChunk _,.chunkSent result => some (result,before)
  | .markResident ..,.unit => some ((),before)
  | .clearResident _,.unit => some ((),before)
  | .nextChunk _,.unit => some ((),before)
  | .storeAbandoned,.unit => some ((),before)
  | .dropChunkTx,.unit => some ((),before)
  | .dropGuard _,.unit => some ((),before)
  | _,_ => none

/-- The calls on the scheduler that operations make. -/
def schedule (guarded : Guarded) (caller : ℕ) : Op → Option Guarded
  | .markResident slotId model prefixHash =>
    (guardedStep guarded (.call (.markResident slotId model prefixHash))).map Prod.snd
  | .clearResident slotId => (guardedStep guarded (.call (.clearResident slotId))).map Prod.snd
  | .dropGuard _ => (guardedStep guarded (.dropGuard caller)).map Prod.snd
  | _ => some guarded

/-- What is saved after an operation. -/
def saved (store : CacheKey → Option Entry) (hint : Option SlotHint) (content : Content) :
    (op : Op) → Ans op → CacheKey → Option Entry
  | .saveFromSlot key _ _,.ok () =>
    Function.update store key (some ⟨hint.bind SlotHint.model,content⟩)
  | _,_ => store

/-- The hint a parked call was made with. -/
def parkedHint (guarded : Guarded) (caller : ℕ) : Option SlotHint :=
  (guarded.sched.callers.parked caller).bind Parked.arg

/-- The hint of the call that an event admits, if it admits one. -/
def hintOf (guarded : Guarded) : Scheduler.Event → Option SlotHint
  | .repoll caller => parkedHint guarded caller
  | _ => none

/-- Spawn the forwarding task of an admitted request. -/
def System.spawn (st : System) (llamaServerUrl : String) (hint : Option SlotHint) :
    Scheduler.Output → System
  | .admitted caller a =>
    let job := ⟨hint,a.slotId,forward llamaServerUrl (st.bodies caller) hint a⟩
    {st with jobs := Function.update st.jobs caller (some job)}
  | _ => st

/-- Let the task of `caller` perform its next operation. -/
def System.work (st : System) (caller : ℕ) (reply : Reply) : Option (Output×System) :=
  match st.jobs caller with
  | some ⟨hint,slotId,.ask op resume⟩ =>
    match touch hint st.store (st.content slotId) op reply,schedule st.guarded caller op with
    | some (answer,after),some guarded =>
      some (.performed caller hint ⟨op,answer⟩,
        ⟨guarded,st.bodies,Function.update st.jobs caller (some ⟨hint,slotId,resume answer⟩),
          Function.update st.content slotId after,
          saved st.store hint (st.content slotId) op answer⟩)
    | _,_ => none
  | _ => none

/-- The interleaving semantics. -/
def step (llamaServerUrl : String) (st : System) : Event → Option (Output×System)
  | .chat body =>
    let chat := parseChat body
    let bodies := Function.update st.bodies st.guarded.sched.callers.next chat.2
    (guardedStep st.guarded (.call (.admitCall chat.1))).map fun result =>
      (.sched result.1,System.spawn {st with guarded := result.2, bodies := bodies}
        llamaServerUrl chat.1 result.1)
  | .call event =>
    if background event=true then
      (guardedStep st.guarded (.call event)).map fun result =>
        (.sched result.1,System.spawn {st with guarded := result.2} llamaServerUrl
          (hintOf st.guarded event) result.1)
    else none
  | .work caller reply => st.work caller reply
  | .evict key => some (.unit,{st with store := Function.update st.store key none})

/-- A started broker: nothing is known of what the slots hold, and nothing
is saved. -/
def System.new (numSlots : ℕ) (content : ℕ → Content) : System :=
  ⟨Guarded.new numSlots,fun _ => .null,fun _ => none,content,fun _ => none⟩

/-- What a step can do: a scheduler call that may admit and spawn, an
operation of a task, or an eviction. -/
inductive Effect (llamaServerUrl : String) (st : System) : Event → Output → System → Prop
  /-- An arrival or a background event. -/
  | called {event : Event} {call : Scheduler.Event} {output : Scheduler.Output}
      {guarded : Guarded} (hint : Option SlotHint) (bodies : ℕ → Json)
      (heff : GuardedEffect st.guarded (.call call) output guarded)
      (hcall : background call=true ∨ call=.admitCall hint)
      (hhint : ∀ callers caller turn hint',
        Attempts st.guarded.sched call callers caller turn hint' → hint'=hint) :
      Effect llamaServerUrl st event (.sched output)
        (System.spawn {st with guarded := guarded, bodies := bodies} llamaServerUrl hint output)
  /-- An operation of the task of an admitted call. -/
  | performed {reply : Reply} {hint : Option SlotHint} {slotId : ℕ} {op : Op}
      {resume : Ans op → Forwarding Unit} {answer : Ans op} {after : Content} {guarded : Guarded}
      (caller : ℕ) (hjob : st.jobs caller=some ⟨hint,slotId,.ask op resume⟩)
      (htouch : touch hint st.store (st.content slotId) op reply=some (answer,after))
      (hsched : schedule st.guarded caller op=some guarded) :
      Effect llamaServerUrl st (.work caller reply) (.performed caller hint ⟨op,answer⟩)
        ⟨guarded,st.bodies,Function.update st.jobs caller (some ⟨hint,slotId,resume answer⟩),
          Function.update st.content slotId after,
          saved st.store hint (st.content slotId) op answer⟩
  /-- A saved state is dropped. -/
  | evicted (key : CacheKey) :
      Effect llamaServerUrl st (.evict key) .unit
        {st with store := Function.update st.store key none}

/-- The step function does nothing but these effects. -/
theorem step_effect {llamaServerUrl : String} {st st' : System} {event : Event} {output : Output}
    (h : step llamaServerUrl st event=some (output,st')) :
    Effect llamaServerUrl st event output st' := by
  cases event with
  | chat body =>
    simp only [step] at h
    obtain ⟨⟨result,guarded⟩,hs,he⟩ := Option.map_eq_some_iff.mp h
    cases he
    refine .called (parseChat body).1 _ (guardedStep_effect hs) (.inr rfl) ?_
    rintro _ _ _ _ ⟨⟩
    rfl
  | call event =>
    simp only [step] at h
    split at h
    · rename_i hb
      obtain ⟨⟨result,guarded⟩,hs,he⟩ := Option.map_eq_some_iff.mp h
      cases he
      refine .called (hintOf st.guarded event) st.bodies (guardedStep_effect hs) (.inl hb) ?_
      rintro _ _ _ _ hc
      cases hc with
      | arrive => cases hb
      | retry caller p hp =>
        simp only [hintOf,parkedHint,hp,Option.bind_some]
    · cases h
  | work caller reply =>
    simp only [step,System.work] at h
    split at h
    · rename_i hint slotId op resume hjob
      split at h
      · rename_i answer after guarded htouch hsched
        cases h
        exact .performed caller hjob htouch hsched
      · cases h
    · cases h
  | evict key =>
    cases h
    exact .evicted key

/-- The only steps that perform an operation are those of the task that has it
next. -/
theorem step_performed {llamaServerUrl : String} {st st' : System} {event : Event} {caller : ℕ}
    {hint : Option SlotHint} {op : Performed Ans}
    (h : step llamaServerUrl st event=some (.performed caller hint op,st')) :
    ∃ reply slotId resume after,event=.work caller reply ∧
      st.jobs caller=some ⟨hint,slotId,.ask op.1 resume⟩ ∧
      touch hint st.store (st.content slotId) op.1 reply=some (op.2,after) := by
  have heff := step_effect h
  generalize ho : Output.performed caller hint op=output at heff
  cases heff with
  | called => cases ho
  | performed c hjob htouch =>
    cases ho
    exact ⟨_,_,_,_,rfl,hjob,htouch⟩
  | evicted => cases ho

/-- A hinted request with only the model and the prefix in its body. -/
def hintedChat (model : Option String) (prefixHash : String) : Event :=
  .chat (.object ((model.map fun model => ("model",.string model)).toList++
    [("aivyx_slot_hint",.object [("prefix_hash",.string prefixHash)])]))

/-- The first call names no model: its task warms the slot up, saves it and
serves the request. -/
def servedFirst : List Event :=
  let ok : Response := ⟨⟨200,[]⟩,[]⟩
  [hintedChat none "a",.work 0 (.restored (.ok false) none),.work 0 (.posted (.ok ok) none),
    .work 0 (.saved (.ok ())),.work 0 .unit,.work 0 (.posted (.ok ok) (some (none,"a"))),
    .work 0 (.headSent true),.work 0 .unit,.work 0 .unit,.work 0 .unit]

end AivyxBroker.Broker
