import AivyxBroker.ForwardTerminal

/-!
# Every request gets its response

The forwarding task and the handler of a client that reads can only wait for
each other at the bounded channel. They never both wait: in every interleaving
some party can go on until both are finished, after a number of steps that is
known when upstream's answers are. What the client then has does not depend
on the interleaving: the error that upstream failed with, or the response to
its end or its first error.
-/

namespace AivyxBroker.Forward

open RunInvariant Program Scheduler

/-- How the operations are answered when the client reads. -/
def reading (upstream : (op : Op) → Ans op) : (op : Op) → Ans op
  | .sendHead _ => true
  | .sendChunk _ => .sent
  | op => upstream op

/-- How often the client-facing side can still go on without the task. -/
def ClientState.energy : ClientState → ℕ
  | .awaiting => 3
  | .reading => 3
  | .deciding => 2
  | .closing => 1
  | .ended => 0
  | .gone => 0

/-- An upper bound of the steps left to the client-facing side on its own. -/
def Front.energy (front : Front) : ℕ :=
  (if front.head.isSome=true then 1 else 0)+front.link.buffer.length+front.link.client.energy

/-- The task's remaining operations. -/
def Serving.remaining (upstream : (op : Op) → Ans op) (st : Serving) : ℕ :=
  (st.task.runWith (reading upstream)).1.length

/-- The measure of the system. -/
def Serving.fuel (upstream : (op : Op) → Ans op) (st : Serving) : ℕ :=
  2*st.remaining upstream+st.front.energy

/-- The client has the whole response: the error, or the body as far as
upstream sent it. -/
def Delivered (outcome : Except Error Response) (front : Front) : Prop :=
  match outcome with
  | .error err => front.refused=some err ∧ front.link.received=[]
  | .ok resp => front.refused=none ∧ front.link.client=.ended ∧
    front.link.received=upTo resp.body

/-- The client-facing side uses up a step of its own. -/
theorem Front.poll_energy {front front' : Front} (h : front.poll=some front') :
    front'.energy<front.energy := by
  unfold Front.poll at h
  split at h
  · rename_i err hhead
    cases h
    simp [Front.energy,hhead]
  · rename_i hhead
    obtain ⟨link,hl,rfl⟩ := Option.map_eq_some_iff.mp h
    unfold Link.poll at hl
    split at hl
    · rename_i hc
      split at hl
      · rename_i chunk buffer hb
        cases hl
        simp [Front.energy,hhead,hb,hc]
      · rename_i hb
        split at hl
        · cases hl
          simp [Front.energy,hhead,hb,hc,ClientState.energy]
        · cases hl
    · rename_i hc
      split at hl <;> cases hl <;> simp [Front.energy,hhead,hc,ClientState.energy]
    · rename_i hc
      cases hl
      simp [Front.energy,hhead,hc,ClientState.energy]
    · cases hl

/-- An operation of the task gives the client-facing side one more step at
most. -/
theorem Front.perform_energy {upstream : (op : Op) → Ans op} {front front' : Front} {op : Op}
    {answer : Ans op} (h : front.perform upstream op=some (answer,front')) :
    front'.energy ≤ front.energy+1 := by
  unfold Front.perform at h
  split at h
  · cases h
    simp only [Front.energy,Option.isSome_some,if_true]
    omega
  · cases h
    exact Nat.le_succ _
  · split at h
    · cases h
      exact Nat.le_succ _
    · obtain ⟨⟨answer',link⟩,hl,he⟩ := Option.map_eq_some_iff.mp h
      cases he
      unfold Link.perform at hl
      split at hl
      · split at hl
        · rename_i hc
          cases hl
          simp [Front.energy,hc,ClientState.energy]
        · cases hl
          exact Nat.le_succ _
      · cases hl
        exact Nat.le_succ _
      · dsimp only at hl
        split at hl
        · cases hl
          simp only [Front.energy,List.length_append,List.length_singleton]
          omega
        · cases hl
      · cases hl
        exact Nat.le_succ _
      · cases hl
        exact Nat.le_succ _
      · cases hl
        exact Nat.le_succ _
      · cases hl

/-- The rule the task runs under beside a client that reads: if an operation
cannot be performed yet, the client-facing side can go on, and when it is
performed, it is answered as a reading client has it answered. -/
def deliverRule (upstream : (op : Op) → Ans op) : Rule Op Ans Front where
  admits front op := ∀ front',Polls front front' →
    (front'.perform upstream op=none → front'.poll≠none) ∧
    ∀ answer next,front'.perform upstream op=some (answer,next) → answer=reading upstream op
  result front op answer front' := ∃ mid,Polls front mid ∧
    mid.perform upstream op=some (answer,front')

/-- The moves of the client-facing side are part of the rule. -/
theorem deliverRule_stable (upstream : (op : Op) → Ans op) :
    (deliverRule upstream).Stable Polls where
  admits _ _ _ he h front' hp := h front' (he.trans hp)
  result _ _ _ _ _ he h := by
    obtain ⟨mid,hp,hperf⟩ := h
    exact ⟨mid,he.trans hp,hperf⟩

/-- The handler waits for the head. -/
structure Awaits (front : Front) : Prop where
  /-- No error head was sent. -/
  head : front.head=none
  /-- Nor answered with. -/
  refused : front.refused=none
  /-- Nothing was sent. -/
  buffer : front.link.buffer=[]
  /-- Nothing was received. -/
  received : front.link.received=[]
  /-- The sending half exists. -/
  tx : front.link.txDropped=false
  /-- The client was not given up on. -/
  kept : front.link.abandoned=false
  /-- The head was not taken. -/
  client : front.link.client=.awaiting

/-- The task has given `given` to a client that reads. -/
structure Streams (given : List Chunk) (front : Front) : Prop where
  /-- No error head was sent. -/
  head : front.head=none
  /-- Nor answered with. -/
  refused : front.refused=none
  /-- The sending half exists. -/
  tx : front.link.txDropped=false
  /-- The client was not given up on. -/
  kept : front.link.abandoned=false
  /-- The client reads. -/
  client : front.link.client=.reading
  /-- What was received and what is on its way was given. -/
  given : front.link.received++front.link.buffer=given

/-- The handler cannot go on without the head. -/
theorem Awaits.poll_none {front : Front} (h : Awaits front) : front.poll=none := by
  simp [Front.poll,h.head,Link.poll,h.client]

/-- So it stays where it is. -/
theorem Awaits.polls {front front' : Front} (h : Awaits front) (hp : Polls front front') :
    front'=front := by
  induction hp with
  | refl => rfl
  | tail _ hs ih =>
    subst ih
    rw [h.poll_none] at hs
    cases hs

/-- A client that reads keeps reading as long as the sending half exists. -/
theorem Streams.polls {given : List Chunk} {front front' : Front} (h : Streams given front)
    (hp : Polls front front') : Streams given front' := by
  induction hp with
  | refl => exact h
  | tail _ hs ih =>
    obtain ⟨hhead,href,htx,hkept,hc,hgiven⟩ := ih
    simp only [Front.poll,hhead] at hs
    obtain ⟨link,hl,rfl⟩ := Option.map_eq_some_iff.mp hs
    simp only [Link.poll,hc] at hl
    split at hl
    · rename_i chunk buffer hb
      cases hl
      rw [hb] at hgiven
      exact ⟨rfl,href,htx,hkept,rfl,by simpa using hgiven⟩
    · rw [htx] at hl
      cases hl

/-- An error head is on its way, or answered with. -/
structure Refusing (err : Error) (front : Front) : Prop where
  /-- The head with the response was never taken. -/
  client : front.link.client=.awaiting
  /-- Nothing was received. -/
  received : front.link.received=[]
  /-- The handler answers with the error. -/
  answered : front.head=some err ∧ front.refused=none ∨ front.head=none ∧ front.refused=some err

/-- All of `items` was given, and the sending half is gone. -/
structure Draining (items : List Chunk) (front : Front) : Prop where
  /-- No error head was sent. -/
  head : front.head=none
  /-- Nor answered with. -/
  refused : front.refused=none
  /-- The client was not given up on. -/
  kept : front.link.abandoned=false
  /-- The sending half is dropped. -/
  tx : front.link.txDropped=true
  /-- The client reads on, or has everything. -/
  given : front.link.client=.reading ∧ front.link.received++front.link.buffer=items ∨
    (front.link.client=.deciding ∨ front.link.client=.ended) ∧ front.link.received=items

/-- The handler takes the error. -/
theorem Refusing.polls {err : Error} {front front' : Front} (h : Refusing err front)
    (hp : Polls front front') : Refusing err front' := by
  induction hp with
  | refl => exact h
  | tail _ hs ih =>
    obtain ⟨hc,hr,⟨hhead,-⟩ | ⟨hhead,-⟩⟩ := ih
    · simp only [Front.poll,hhead] at hs
      cases hs
      exact ⟨hc,hr,.inr ⟨rfl,rfl⟩⟩
    · simp [Front.poll,hhead,Link.poll,hc] at hs

/-- The client reads the rest and then sees the end. -/
theorem Draining.polls {items : List Chunk} {front front' : Front} (h : Draining items front)
    (hp : Polls front front') : Draining items front' := by
  induction hp with
  | refl => exact h
  | tail _ hs ih =>
    obtain ⟨hhead,href,hkept,htx,hgiven⟩ := ih
    simp only [Front.poll,hhead] at hs
    obtain ⟨link,hl,rfl⟩ := Option.map_eq_some_iff.mp hs
    rcases hgiven with ⟨hc,hgiven⟩ | ⟨hc | hc,hgiven⟩
    · simp only [Link.poll,hc] at hl
      split at hl
      · rename_i chunk buffer hb
        cases hl
        rw [hb] at hgiven
        exact ⟨rfl,href,hkept,htx,.inl ⟨rfl,by simpa using hgiven⟩⟩
      · rename_i hb
        rw [if_pos htx] at hl
        cases hl
        rw [hb,List.append_nil] at hgiven
        exact ⟨rfl,href,hkept,htx,.inr ⟨.inl rfl,hgiven⟩⟩
    · simp only [Link.poll,hc,hkept,Bool.false_eq_true,if_false] at hl
      cases hl
      exact ⟨rfl,href,rfl,htx,.inr ⟨.inr rfl,hgiven⟩⟩
    · simp [Link.poll,hc] at hl

/-- What the task leaves behind: a free slot, and a client-facing side that
only has to go on. -/
def Settled (outcome : Except Error Response) (front : Front) : Prop :=
  front.released=true ∧ match outcome with
  | .error err => Refusing err front
  | .ok resp => Draining (upTo resp.body) front

/-- It stays so. -/
theorem Settled.polls {outcome : Except Error Response} {front front' : Front}
    (h : Settled outcome front) (hp : Polls front front') : Settled outcome front' := by
  refine ⟨released_of_polls hp h.1,?_⟩
  cases outcome with
  | error err => exact Refusing.polls h.2 hp
  | ok resp => exact Draining.polls h.2 hp

/-- A client-facing side that cannot go on then has the whole response. -/
theorem Settled.delivered {outcome : Except Error Response} {front : Front}
    (h : Settled outcome front) (hstuck : front.poll=none) : Delivered outcome front := by
  cases outcome with
  | error err =>
    obtain ⟨hc,hr,⟨hhead,-⟩ | ⟨-,href⟩⟩ := h.2
    · simp [Front.poll,hhead] at hstuck
    · exact ⟨href,hr⟩
  | ok resp =>
    obtain ⟨hhead,href,hkept,htx,hgiven⟩ := h.2
    simp only [Front.poll,hhead,Option.map_eq_none_iff] at hstuck
    rcases hgiven with ⟨hc,hgiven⟩ | ⟨hc | hc,hgiven⟩
    · simp only [Link.poll,hc,htx,if_true] at hstuck
      split at hstuck <;> cases hstuck
    · simp [Link.poll,hc,hkept] at hstuck
    · exact ⟨href,hc,hgiven⟩

variable {upstream : (op : Op) → Ans op}

/-- An operation that can be performed at any moment. -/
theorem deliver_admits {front : Front} {op : Op} (h : ∀ front',Polls front front' →
    ∃ next,front'.perform upstream op=some (reading upstream op,next)) :
    (deliverRule upstream).admits front op := by
  intro front' hp
  obtain ⟨next,hperf⟩ := h front' hp
  refine ⟨fun hnone => ?_,fun answer next' hperf' => ?_⟩
  · rw [hperf] at hnone
    cases hnone
  · cases hperf.symm.trans hperf'
    rfl

/-- The operations of the upstream part are answered by upstream. -/
theorem perform_prepares {front : Front} {op : Op} (h : op.prepares=true) :
    front.perform upstream op=some (upstream op,front) ∧ reading upstream op=upstream op := by
  cases op <;> first | exact ⟨rfl,rfl⟩ | cases h

/-- Preparing the slot is performed while the handler waits. -/
theorem prepares_deliver {α : Type} {t : Forwarding α} {front : Front} (ht : Prepares t)
    (h : Awaits front) : t.Safe (deliverRule upstream) front fun a front' =>
      a=(t.runWith upstream).2 ∧ Awaits front' := by
  induction t with
  | done a => exact ⟨rfl,h⟩
  | ask op resume ih =>
    obtain ⟨hperf,hreading⟩ : front.perform upstream op=some (upstream op,front) ∧
        reading upstream op=upstream op := perform_prepares ht.1
    refine ⟨deliver_admits fun front' hp => ?_,fun answer front' ⟨mid,hp,hp'⟩ => ?_⟩
    · rw [h.polls hp,hreading]
      exact ⟨_,hperf⟩
    · rw [h.polls hp,hperf] at hp'
      cases hp'
      exact ih (upstream op) (ht.2 _)

/-- The end of the task: the slot is freed, then the channel ends. -/
theorem finish_deliver {slotId : ℕ} {given : List Chunk} {front : Front}
    (h : Streams given front) : (finish slotId true).Safe (deliverRule upstream) front
      fun _ front' => front'.released=true ∧ Draining given front' := by
  refine .perform (deliver_admits fun front' _ => ⟨_,rfl⟩) ?_
  rintro answer front' ⟨mid,hp,hperf⟩
  cases hperf
  have h := h.polls hp
  have hs : Streams given {mid with released := true} :=
    ⟨h.head,h.refused,h.tx,h.kept,h.client,h.given⟩
  refine .ask (deliver_admits fun front' _ => ⟨_,rfl⟩) ?_
  rintro answer' front' ⟨mid',hp',hperf⟩
  have hr := released_of_polls hp' rfl
  have h := hs.polls hp'
  cases hperf
  exact ⟨hr,h.head,h.refused,h.kept,rfl,.inl ⟨h.client,h.given⟩⟩

/-- A chunk can be sent, or the client can take one. -/
theorem Streams.admits {given : List Chunk} {front : Front} (h : Streams given front)
    (chunk : Chunk) : (deliverRule upstream).admits front (.sendChunk chunk) := by
  intro front' hp
  have h := h.polls hp
  have hperf : front'.perform upstream (.sendChunk chunk)=
      (front'.link.perform forwardChannelChunks .sent (.sendChunk chunk)).map fun result =>
        (result.1,{front' with link := result.2}) := rfl
  rw [hperf]
  simp only [Link.perform,h.client]
  constructor
  · intro hnone hpoll
    have hfull : ¬front'.link.buffer.length<forwardChannelChunks := by
      intro hlt
      rw [if_pos ⟨by simp,hlt⟩] at hnone
      cases hnone
    simp only [Front.poll,h.head,Option.map_eq_none_iff,Link.poll,h.client] at hpoll
    split at hpoll
    · cases hpoll
    · rename_i hb
      rw [hb] at hfull
      exact hfull (by decide)
  · intro answer next hsome
    split at hsome
    · cases hsome
      rfl
    · cases hsome

/-- Relaying gives the client everything up to the first error. -/
theorem relay_deliver {slotId : ℕ} {body given : List Chunk} {front : Front}
    (h : Streams given front) : (relay slotId body true).Safe (deliverRule upstream) front
      fun _ front' => front'.released=true ∧ Draining (given++upTo body) front' := by
  induction body generalizing given front with
  | nil =>
    refine .perform (deliver_admits fun front' _ => ⟨_,rfl⟩) ?_
    rintro answer front' ⟨mid,hp,hperf⟩
    cases hperf
    rw [upTo,List.append_nil]
    exact finish_deliver (h.polls hp)
  | cons chunk rest ih =>
    refine .perform (deliver_admits fun front' _ => ⟨_,rfl⟩) ?_
    rintro answer front' ⟨mid,hp,hperf⟩
    cases hperf
    have h := h.polls hp
    refine .perform (h.admits chunk) ?_
    rintro result front' ⟨mid',hp',hperf⟩
    have h := h.polls hp'
    obtain ⟨⟨answer,link⟩,hl,he⟩ := Option.map_eq_some_iff.mp hperf
    simp only [Link.perform] at hl
    split at hl
    · cases hl
      cases he
      have hs : Streams (given++[chunk]) {mid' with
          link := {mid'.link with buffer := mid'.link.buffer++[chunk]}} :=
        ⟨h.head,h.refused,h.tx,h.kept,h.client,by rw [←List.append_assoc,h.given]⟩
      show (if isErr chunk=true then finish slotId true else relay slotId rest true).Safe _ _ _
      cases hc : isErr chunk with
      | true =>
        rw [upTo,hc]
        exact finish_deliver hs
      | false =>
        rw [upTo,hc]
        simpa using ih hs
    · cases hl

/-- What the task does with the outcome of its upstream part. -/
theorem afterUpstream_deliver {slotId : ℕ} {outcome : Except Error Response} {front : Front}
    (h : Awaits front) : (afterUpstream slotId outcome).Safe (deliverRule upstream) front
      fun _ => Settled outcome := by
  cases outcome with
  | error err =>
    refine .perform (deliver_admits fun front' _ => ⟨_,rfl⟩) ?_
    rintro answer front' ⟨mid,hp,hperf⟩
    obtain rfl := h.polls hp
    cases hperf
    have hr : Refusing err {mid with head := some err} :=
      ⟨h.client,h.received,.inl ⟨rfl,h.refused⟩⟩
    refine .perform (deliver_admits fun front' _ => ⟨_,rfl⟩) ?_
    rintro answer' front' ⟨mid',hp',hperf⟩
    have hr := hr.polls hp'
    cases hperf
    have hr : Refusing err {mid' with link := {mid'.link with txDropped := true}} :=
      ⟨hr.client,hr.received,hr.answered⟩
    refine .ask (deliver_admits fun front' _ => ⟨_,rfl⟩) ?_
    rintro answer'' front' ⟨mid'',hp'',hperf⟩
    have hr := hr.polls hp''
    cases hperf
    exact ⟨rfl,hr.client,hr.received,hr.answered⟩
  | ok resp =>
    have hhead : ∀ front',Polls front front' → front'.perform upstream (.sendHead (.ok resp.head))=
        some (true,{front' with link := {front'.link with client := .reading}}) := by
      intro front' hp
      have h : Awaits front' := by
        rw [h.polls hp]
        exact h
      simp [Front.perform,Op.prepares,Link.perform,h.client]
    refine .perform (deliver_admits fun front' hp => ⟨_,hhead front' hp⟩) ?_
    rintro taken front' ⟨mid,hp,hperf⟩
    rw [hhead mid hp] at hperf
    cases hperf
    obtain rfl := h.polls hp
    have hs : Streams [] {mid with link := {mid.link with client := .reading}} :=
      ⟨h.head,h.refused,h.tx,h.kept,rfl,by simp [h.received,h.buffer]⟩
    exact relay_deliver hs

/-- The invariant of the system: the rest of the task keeps the rule, and
leaves the response of this outcome behind. -/
def Serving.Delivering (upstream : (op : Op) → Ans op) (outcome : Except Error Response)
    (st : Serving) : Prop :=
  st.task.Safe (deliverRule upstream) st.front fun _ => Settled outcome

/-- Every step keeps the invariant and uses up fuel. -/
theorem Serving.Delivering.step {outcome : Except Error Response} {st st' : Serving}
    {event : ServeEvent} {output : Unit} (h : st.Delivering upstream outcome)
    (hs : serveStep upstream st event=some (output,st')) :
    st'.Delivering upstream outcome ∧ st'.fuel upstream<st.fuel upstream := by
  cases event with
  | task =>
    simp only [serveStep] at hs
    split at hs
    · cases hs
    · rename_i op resume htask
      obtain ⟨⟨answer,front'⟩,hp,he⟩ := Option.map_eq_some_iff.mp hs
      cases he
      rw [Serving.Delivering,htask] at h
      obtain rfl := (h.1 st.front .refl).2 answer front' hp
      have henergy := Front.perform_energy hp
      refine ⟨h.2 _ front' ⟨st.front,.refl,hp⟩,?_⟩
      simp only [Serving.fuel,Serving.remaining,htask,Program.runWith,List.length_cons]
      omega
  | poll =>
    obtain ⟨front',hp,he⟩ := Option.map_eq_some_iff.mp hs
    cases he
    have henergy := Front.poll_energy hp
    refine ⟨Safe.stable (deliverRule_stable upstream) (fun _ _ _ hp hs => hs.polls hp) h
      (.single hp),?_⟩
    simp only [Serving.fuel,Serving.remaining]
    omega

/-- When nobody can go on, the task is finished and the client has the whole
response. -/
theorem Serving.Delivering.stuck {outcome : Except Error Response} {st : Serving}
    (h : st.Delivering upstream outcome) (hstuck : ∀ event,serveStep upstream st event=none) :
    st.task=.done () ∧ st.front.released=true ∧ Delivered outcome st.front := by
  have hpoll : st.front.poll=none := Option.map_eq_none_iff.mp (hstuck .poll)
  obtain ⟨task,front⟩ := st
  cases task with
  | done =>
    have hs : Settled outcome front := h
    exact ⟨rfl,hs.1,hs.delivered hpoll⟩
  | ask op resume =>
    have hnone := Option.map_eq_none_iff.mp (hstuck .task)
    exact absurd hpoll ((h.1 front .refl).1 hnone)

/-- The invariant holds when the request was admitted. -/
theorem delivering_start (llamaServerUrl : String) (body : Json) (hint : Option SlotHint)
    (admission : Admission) (upstream : (op : Op) → Ans op) :
    (Serving.start llamaServerUrl body hint admission).Delivering upstream
      ((sendUpstream llamaServerUrl body hint admission).runWith upstream).2 := by
  have hnew : Awaits Front.new := ⟨rfl,rfl,rfl,rfl,rfl,rfl,rfl⟩
  rw [Serving.start,forward_eq]
  refine (prepares_deliver (sendUpstream_prepares llamaServerUrl body hint admission) hnew).bind
    fun outcome front h => ?_
  exact h.1 ▸ afterUpstream_deliver h.2

/-- For a client that stays and reads, every request is answered in full
whatever the interleaving: no run is longer than the fuel at its start, and a
run that cannot be continued has finished the task, released the slot and
delivered the upstream outcome. -/
theorem forward_delivers (llamaServerUrl : String) (body : Json) (hint : Option SlotHint)
    (admission : Admission) (upstream : (op : Op) → Ans op) {trace : List (ServeEvent×Unit)}
    {st : Serving}
    (h : Run (serveStep upstream) (Serving.start llamaServerUrl body hint admission) trace st) :
    trace.length+st.fuel upstream ≤
      (Serving.start llamaServerUrl body hint admission).fuel upstream ∧
    ((∀ event,serveStep upstream st event=none) →
      st.task=.done () ∧ st.front.released=true ∧
        Delivered ((sendUpstream llamaServerUrl body hint admission).runWith upstream).2 st.front) := by
  have hinv : st.Delivering upstream
      ((sendUpstream llamaServerUrl body hint admission).runWith upstream).2 ∧
      trace.length+st.fuel upstream ≤
        (Serving.start llamaServerUrl body hint admission).fuel upstream := by
    refine h.trace_invariant (fun trace st => st.Delivering upstream
      ((sendUpstream llamaServerUrl body hint admission).runWith upstream).2 ∧
      trace.length+st.fuel upstream ≤
        (Serving.start llamaServerUrl body hint admission).fuel upstream)
      ⟨delivering_start llamaServerUrl body hint admission upstream,by simp⟩ ?_
    rintro trace t event output u ⟨ht,hlen⟩ - hs
    obtain ⟨hu,hlt⟩ := ht.step hs
    refine ⟨hu,?_⟩
    rw [List.length_append,List.length_singleton]
    omega
  exact ⟨hinv.2,hinv.1.stuck⟩

/-- A hint-less request for two chunks, run by turns to its end. -/
theorem forward_delivers_chunks : ∃ trace st,Run (serveStep (answering (.ok
    ⟨⟨200,[]⟩,[.ok [104],.ok [105]]⟩))) (Serving.start "http://127.0.0.1:8080" (.object []) none
      ⟨0,false⟩) trace st ∧ st.front.released=true ∧ st.front.link.received=[.ok [104],.ok [105]] := by
  obtain ⟨⟨trace,st⟩,he⟩ : ∃ r,exec (serveStep (answering (.ok ⟨⟨200,[]⟩,[.ok [104],.ok [105]]⟩)))
      (Serving.start "http://127.0.0.1:8080" (.object []) none ⟨0,false⟩)
      [.task,.task,.task,.task,.task,.poll,.task,.task,.task,.task,.task,.poll,.poll,.poll]=
        some r := ⟨_,rfl⟩
  have hrun := run_of_exec he
  have hstuck : ∀ event,serveStep (answering (.ok ⟨⟨200,[]⟩,[.ok [104],.ok [105]]⟩)) st event=none := by
    cases he
    intro event
    cases event <;> rfl
  have hend := (forward_delivers _ _ _ _ _ hrun).2 hstuck
  exact ⟨trace,st,hrun,hend.2.1,hend.2.2.2.2⟩

end AivyxBroker.Forward
