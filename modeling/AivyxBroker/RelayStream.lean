import AivyxBroker.Forward
import AivyxBroker.RunInvariant

/-!
# The relayed body stream

The relaying task and the client-facing body stream share a bounded channel
and a flag. The task runs as in the source; the client polls its stream or
hangs up at any moment, and a chunk send may run into its time limit at any
moment. The stream looks at the flag only after the channel has ended, in a
step of its own here. Safety of the task against an interfering client gives
the invariant of the whole system.
-/

namespace AivyxBroker.Forward

open RunInvariant Program

/-- Where the client-facing side is. -/
inductive ClientState where
  /-- The handler waits for the head. -/
  | awaiting
  /-- The body stream has the channel's receiving half. -/
  | reading
  /-- The channel ended, and the flag is looked at next. -/
  | deciding
  /-- The final error was yielded, and the end comes next. -/
  | closing
  /-- The body stream ended. -/
  | ended
  /-- The client hung up, and the receiving half is gone. -/
  | gone
  deriving DecidableEq

/-- What the task and the client share, and what the client got. -/
structure Link where
  /-- Chunks in the channel, oldest first. -/
  buffer : List Chunk
  /-- The sending half is dropped. -/
  txDropped : Bool
  /-- The flag that the client was given up on. -/
  abandoned : Bool
  /-- The client-facing side. -/
  client : ClientState
  /-- The items its body stream has yielded. -/
  received : List Chunk

/-- Why the body of a client given up on ends in an error. -/
def giveUpText : Error :=
  "aivyx-broker stopped forwarding: the client did not read the response"

/-- The item that ends the body of a client given up on. -/
def giveUp : Chunk := .error giveUpText

/-- What one operation of the task does to the link. `choice` says how a
chunk send is to end; it must be possible. -/
def Link.perform (capacity : ℕ) (link : Link) (choice : SendResult) :
    (op : Op) → Option (Ans op×Link)
  | .sendHead (.ok _) =>
    if link.client=.awaiting then some (true,{link with client := .reading})
    else some (false,link)
  | .nextChunk _ => some ((),link)
  | .sendChunk chunk =>
    match choice with
    | .sent =>
      if link.client≠.gone ∧ link.buffer.length<capacity then
        some (SendResult.sent,{link with buffer := link.buffer++[chunk]})
      else none
    | .closed => if link.client=.gone then some (SendResult.closed,link) else none
    | .timedOut => some (SendResult.timedOut,link)
  | .storeAbandoned => some ((),{link with abandoned := true})
  | .dropChunkTx => some ((),{link with txDropped := true})
  | .dropGuard _ => some ((),link)
  | _ => none

/-- One step of the client-facing body stream. It waits while the channel is
empty and its sending half exists. -/
def Link.poll (link : Link) : Option Link :=
  match link.client with
  | .reading =>
    match link.buffer with
    | chunk::buffer => some {link with buffer := buffer, received := link.received++[chunk]}
    | [] => if link.txDropped=true then some {link with client := .deciding} else none
  | .deciding =>
    if link.abandoned=true then
      some {link with client := .closing, received := link.received++[giveUp]}
    else some {link with client := .ended}
  | .closing => some {link with client := .ended}
  | _ => none

/-- The client hangs up, unless its body has ended. -/
def Link.hangUp (link : Link) : Option Link :=
  if link.client=.ended then none else some {link with client := .gone, buffer := []}

/-- The relaying task and its link. -/
structure Streaming where
  /-- What the task has left to do. -/
  task : Forwarding Unit
  /-- What it shares with the client. -/
  link : Link

/-- The system when upstream has answered. -/
def Streaming.start (slotId : ℕ) (resp : Response) : Streaming :=
  ⟨relayResponse slotId resp,⟨[],false,false,.awaiting,[]⟩⟩

/-- One step of the system. -/
inductive StreamEvent where
  /-- The task performs its next operation. -/
  | task (choice : SendResult)
  /-- The client polls its body. -/
  | poll
  /-- The client hangs up. -/
  | hangUp
  deriving DecidableEq

/-- The interleaving semantics. -/
def streamStep (capacity : ℕ) (st : Streaming) : StreamEvent → Option (Unit×Streaming)
  | .task choice =>
    match st.task with
    | .done _ => none
    | .ask op resume =>
      (st.link.perform capacity choice op).map fun result => ((),⟨resume result.1,result.2⟩)
  | .poll => st.link.poll.map fun link => ((),{st with link := link})
  | .hangUp => st.link.hangUp.map fun link => ((),{st with link := link})

/-- A body up to its first error, that error included: what the task gets to
see of it. -/
def upTo : List Chunk → List Chunk
  | [] => []
  | chunk::rest => chunk::if isErr chunk=true then [] else upTo rest

/-- The chunks among body items. -/
def bytesOf (items : List Chunk) : List Bytes :=
  items.filterMap fun
    | .ok bytes => some bytes
    | .error _ => none

/-- What the client can rely on for a body stream. -/
structure Faithful (body : List Chunk) (link : Link) : Prop where
  /-- The chunks received are a prefix of the chunks upstream sent. -/
  ordered : bytesOf link.received<+:bytesOf (upTo body)
  /-- The body ends cleanly exactly if upstream did and every chunk came. -/
  clean : link.client=.ended → ((∀ c∈link.received,isErr c=false) ↔
    (∀ c∈upTo body,isErr c=false) ∧ bytesOf link.received=bytesOf (upTo body))
  /-- Otherwise it ends with one error after the chunks. -/
  broken : link.client=.ended → (∃ c∈link.received,isErr c=true) →
    ∃ err,link.received=(bytesOf link.received).map .ok++[.error err]

/-- The client's view of a channel that was given the items `given`. -/
def Reads (given : List Chunk) (link : Link) : Prop :=
  match link.client with
  | .awaiting => link.received++link.buffer=given
  | .reading => link.received++link.buffer=given
  | .deciding => link.txDropped=true ∧ link.received=given
  | .closing => link.txDropped=true ∧ link.abandoned=true ∧ link.received=given++[giveUp]
  | .ended => link.txDropped=true ∧
    link.received=given++if link.abandoned=true then [giveUp] else []
  | .gone => bytesOf link.received<+:bytesOf given

/-- Steps of the client. -/
def ClientStep (link link' : Link) : Prop := link.poll=some link' ∨ link.hangUp=some link'

/-- What a step of the client leaves alone. -/
structure Untouched (link link' : Link) : Prop where
  /-- It does not set the flag. -/
  abandoned : link'.abandoned=link.abandoned
  /-- It does not drop the sending half. -/
  txDropped : link'.txDropped=link.txDropped
  /-- A client that hung up stays away. -/
  gone : link.client=.gone → link'.client=.gone
  /-- Nobody waits for a head twice. -/
  headed : link.client≠.awaiting → link'.client≠.awaiting
  /-- Nobody reads without a head. -/
  waits : link.client=.awaiting → link'.client=.awaiting ∨ link'.client=.gone

@[simp] theorem bytesOf_append (xs ys : List Chunk) : bytesOf (xs++ys)=bytesOf xs++bytesOf ys :=
  List.filterMap_append ..

@[simp] theorem bytesOf_giveUp : bytesOf [giveUp]=[] := rfl

@[simp] theorem bytesOf_ok (bytes : Bytes) (items : List Chunk) :
    bytesOf (.ok bytes::items)=bytes::bytesOf items := rfl

@[simp] theorem upTo_ok (bytes : Bytes) (body : List Chunk) :
    upTo (.ok bytes::body)=.ok bytes::upTo body := rfl

/-- The client's chunks are among those the channel was given. -/
theorem Reads.ordered {given : List Chunk} {link : Link} (h : Reads given link) :
    bytesOf link.received<+:bytesOf given := by
  unfold Reads at h
  split at h
  · exact ⟨bytesOf link.buffer,by rw [←h,bytesOf_append]⟩
  · exact ⟨bytesOf link.buffer,by rw [←h,bytesOf_append]⟩
  · rw [h.2]
  · simp [h.2.2]
  · rw [h.2]
    split <;> simp
  · exact h

/-- A step of the client keeps its view, whatever the channel was given. -/
theorem ClientStep.reads {link link' : Link} (h : ClientStep link link') :
    Untouched link link' ∧ ∀ given,Reads given link → Reads given link' := by
  rcases h with h | h
  · unfold Link.poll at h
    split at h
    · rename_i hc
      split at h
      · rename_i chunk buffer hb
        cases h
        refine ⟨⟨rfl,rfl,id,id,.inl⟩,fun given hr => ?_⟩
        simp only [Reads,hc,hb] at hr ⊢
        simpa using hr
      · rename_i hb
        split at h
        · rename_i htx
          cases h
          refine ⟨⟨rfl,rfl,by simp [hc],by simp,by simp [hc]⟩,fun given hr => ?_⟩
          simp only [Reads,hc,hb,List.append_nil] at hr
          exact ⟨htx,hr⟩
        · cases h
    · rename_i hc
      split at h
      · rename_i ha
        cases h
        refine ⟨⟨rfl,rfl,by simp [hc],by simp,by simp [hc]⟩,fun given hr => ?_⟩
        simp only [Reads,hc] at hr
        exact ⟨hr.1,ha,by simp [hr.2]⟩
      · rename_i ha
        cases h
        refine ⟨⟨rfl,rfl,by simp [hc],by simp,by simp [hc]⟩,fun given hr => ?_⟩
        simp only [Reads,hc] at hr
        exact ⟨hr.1,by simp [hr.2,ha]⟩
    · rename_i hc
      cases h
      refine ⟨⟨rfl,rfl,by simp [hc],by simp,by simp [hc]⟩,fun given hr => ?_⟩
      simp only [Reads,hc] at hr
      exact ⟨hr.1,by simp [hr.2]⟩
    · cases h
  · unfold Link.hangUp at h
    split at h
    · cases h
    · cases h
      exact ⟨⟨rfl,rfl,fun _ => rfl,by simp,fun _ => .inr rfl⟩,fun given hr => hr.ordered⟩

/-- Any number of steps of the client. -/
abbrev ClientSteps : Link → Link → Prop := Relation.ReflTransGen ClientStep

/-- Many steps keep what one step keeps. -/
theorem ClientSteps.reads {link link' : Link} (h : ClientSteps link link') :
    Untouched link link' ∧ ∀ given,Reads given link → Reads given link' := by
  induction h with
  | refl => exact ⟨⟨rfl,rfl,id,id,.inl⟩,fun _ => id⟩
  | tail _ hs ih =>
    obtain ⟨hu,hr⟩ := hs.reads
    exact ⟨⟨hu.abandoned.trans ih.1.abandoned,hu.txDropped.trans ih.1.txDropped,
      hu.gone∘ih.1.gone,hu.headed∘ih.1.headed,fun hw => (ih.1.waits hw).elim hu.waits
        fun hg => .inr (hu.gone hg)⟩,fun given hg => hr given (ih.2 given hg)⟩

/-- The invariant of the link for a body whose visible items are `items`: the
channel was given a prefix of them, all of them if the sending half was
dropped for a client that is neither gone nor given up on. -/
def Channel (items : List Chunk) (link : Link) : Prop :=
  ∃ given,Reads given link ∧ given<+:items ∧ (link.abandoned=true → given≠items) ∧
    (link.txDropped=true → link.client=.gone ∨ link.abandoned=true ∨ given=items)

/-- The task still sends: it gave the channel exactly `given` so far. -/
structure Sending (given : List Chunk) (link : Link) : Prop where
  /-- The client sees what was given. -/
  reads : Reads given link
  /-- The client was not given up on. -/
  kept : link.abandoned=false
  /-- The sending half exists. -/
  tx : link.txDropped=false
  /-- The head was taken. -/
  headed : link.client≠.awaiting

/-- The task sends no more. -/
structure Shut (items : List Chunk) (link : Link) : Prop where
  /-- The invariant holds. -/
  channel : Channel items link
  /-- The sending half is dropped. -/
  tx : link.txDropped=true
  /-- The head was taken, or nobody wants it. -/
  headed : link.client≠.awaiting

variable {items given rest : List Chunk} {link link' : Link} {capacity slotId : ℕ}

/-- The invariant survives the client's steps. -/
theorem Channel.steps (h : Channel items link) (hs : ClientSteps link link') :
    Channel items link' := by
  obtain ⟨given,hr,hp,ha,htx⟩ := h
  obtain ⟨hu,hreads⟩ := hs.reads
  refine ⟨given,hreads given hr,hp,fun h => ha (hu.abandoned ▸ h),fun h => ?_⟩
  rcases htx (hu.txDropped ▸ h) with hg | hg | hg
  · exact .inl (hu.gone hg)
  · exact .inr (.inl (hu.abandoned ▸ hg))
  · exact .inr (.inr hg)

/-- The client does not stop the task from sending. -/
theorem Sending.steps (h : Sending given link) (hs : ClientSteps link link') :
    Sending given link' := by
  obtain ⟨hu,hreads⟩ := hs.reads
  exact ⟨hreads given h.reads,hu.abandoned ▸ h.kept,hu.txDropped ▸ h.tx,hu.headed h.headed⟩

/-- The client does not make the task send again. -/
theorem Shut.steps (h : Shut items link) (hs : ClientSteps link link') : Shut items link' :=
  ⟨h.channel.steps hs,hs.reads.1.txDropped ▸ h.tx,hs.reads.1.headed h.headed⟩

/-- While the task sends, the invariant holds. -/
theorem Sending.channel (h : Sending given link) (hp : given<+:items) : Channel items link := by
  refine ⟨given,h.reads,hp,fun ha => ?_,fun htx => ?_⟩
  · rw [h.kept] at ha
    cases ha
  · rw [h.tx] at htx
    cases htx

/-- While the task sends, the client reads or is gone. -/
theorem Sending.client (h : Sending given link) : link.client=.reading ∨ link.client=.gone := by
  have hr := h.reads
  unfold Reads at hr
  cases hc : link.client with
  | awaiting => exact absurd hc h.headed
  | reading => exact .inl rfl
  | gone => exact .inr rfl
  | deciding => simp [hc,h.tx] at hr
  | closing => simp [hc,h.tx] at hr
  | ended => simp [hc,h.tx] at hr

/-- The rule the task runs under: the invariant is demanded at every
operation, and the client may move before each. -/
def linkRule (capacity : ℕ) (items : List Chunk) : Rule Op Ans Link where
  admits link op := Channel items link ∧
    ∀ link' : Link,∃ choice,(link'.perform capacity choice op).isSome=true
  result link op answer link' := ∃ choice mid,ClientSteps link mid ∧
    mid.perform capacity choice op=some (answer,link')

/-- The client's moves are part of the rule. -/
theorem linkRule_stable : (linkRule capacity items).Stable ClientSteps where
  admits _ _ _ he h := ⟨h.1.steps he,h.2⟩
  result _ _ _ _ _ he h := by
    obtain ⟨choice,mid,hs,hp⟩ := h
    exact ⟨choice,mid,he.trans hs,hp⟩

/-- Dropping the sending half shuts the channel: all was given, or the client
is gone or given up on. -/
theorem Channel.shut (h : Reads given link) (hp : given<+:items) (hheaded : link.client≠.awaiting)
    (ha : link.abandoned=true → given≠items)
    (hwhy : link.client=.gone ∨ link.abandoned=true ∨ given=items) :
    Shut items {link with txDropped := true} := by
  refine ⟨⟨given,?_,hp,ha,fun _ => hwhy⟩,rfl,hheaded⟩
  unfold Reads at h ⊢
  dsimp only
  split <;> simp_all

/-- What the task relies on with the items `rest` still to be given: it sends,
and has given what comes before them, or the channel is shut. -/
def Position (items rest : List Chunk) (client : Bool) (link : Link) : Prop :=
  if client=true then ∃ given,given++rest=items ∧ Sending given link else Shut items link

/-- The client does not change the position of the task. -/
theorem Position.steps {client : Bool} (h : Position items rest client link)
    (hs : ClientSteps link link') : Position items rest client link' := by
  cases client with
  | false => exact Shut.steps h hs
  | true =>
    obtain ⟨given,hi,h⟩ := h
    exact ⟨given,hi,h.steps hs⟩

/-- The invariant holds at every position. -/
theorem Position.channel {client : Bool} (h : Position items rest client link) :
    Channel items link := by
  cases client with
  | false => exact Shut.channel h
  | true =>
    obtain ⟨given,hi,h⟩ := h
    exact h.channel ⟨rest,hi⟩

/-- Reading upstream is safe at every position and does not change it. -/
theorem Position.nextChunk {α : Type} {client : Bool} {item : Option Chunk}
    {resume : Ans (.nextChunk item) → Forwarding α} {post : α → Link → Prop}
    (h : Position items rest client link)
    (hrest : ∀ answer link',Position items rest client link' →
      (resume answer).Safe (linkRule capacity items) link' post) :
    (act (.nextChunk item) >>= resume).Safe (linkRule capacity items) link post := by
  refine .perform ⟨h.channel,fun _ => ⟨.sent,rfl⟩⟩ ?_
  rintro answer link' ⟨choice,mid,hs,hp⟩
  cases hp
  exact hrest _ _ (h.steps hs)

/-- The end of the task is safe when everything was given or the channel is
shut. -/
theorem finish_link (client : Bool) (h : Position items [] client link) :
    (finish slotId client).Safe (linkRule capacity items) link fun _ => Shut items := by
  refine .perform ⟨h.channel,fun _ => ⟨.sent,rfl⟩⟩ ?_
  rintro answer link' ⟨choice,mid,hs,hp⟩
  cases hp
  have h := h.steps hs
  cases client with
  | false => exact h
  | true =>
    refine .ask ⟨h.channel,fun _ => ⟨.sent,rfl⟩⟩ ?_
    rintro answer' link' ⟨choice',last,hs',hp⟩
    cases hp
    obtain ⟨given,hi,h⟩ := h.steps hs'
    rw [List.append_nil] at hi
    refine Channel.shut h.reads ⟨[],by simp [hi]⟩ h.headed (fun ha => ?_) (.inr (.inr hi))
    rw [h.kept] at ha
    cases ha

/-- Offering the next item gives it to the channel, or shuts the channel with
that item lost. -/
theorem offer_link {chunk : Chunk} (client : Bool) (h : Position items (chunk::rest) client link) :
    (offer chunk client).Safe (linkRule capacity items) link (Position items rest) := by
  cases client with
  | false => exact h
  | true =>
    obtain ⟨given,hi,h⟩ := h
    have hp : given<+:items := ⟨_,hi⟩
    have hne : given≠items := by
      intro he
      have hl := congrArg List.length (he.trans hi.symm)
      simp at hl
    refine .perform ⟨h.channel hp,fun _ => ⟨.timedOut,rfl⟩⟩ ?_
    rintro answer link' ⟨choice,mid,hs,hperf⟩
    have h := h.steps hs
    cases choice with
    | sent =>
      simp only [Link.perform] at hperf
      split at hperf
      · rename_i hroom
        cases hperf
        have hc : mid.client=.reading := h.client.resolve_right hroom.1
        have hr := h.reads
        simp only [Reads,hc] at hr
        refine ⟨given++[chunk],by simpa using hi,?_,h.kept,h.tx,h.headed⟩
        simp only [Reads,hc]
        rw [←List.append_assoc,hr]
      · cases hperf
    | closed =>
      simp only [Link.perform] at hperf
      split at hperf
      · rename_i hgone
        cases hperf
        refine .perform ⟨h.channel hp,fun _ => ⟨.sent,rfl⟩⟩ ?_
        rintro dropped link' ⟨choice,last,hs',hperf⟩
        cases hperf
        have h := h.steps hs'
        exact Channel.shut h.reads hp h.headed (fun _ => hne) (.inl (hs'.reads.1.gone hgone))
      · cases hperf
    | timedOut =>
      cases hperf
      refine .perform ⟨h.channel hp,fun _ => ⟨.sent,rfl⟩⟩ ?_
      rintro stored link' ⟨choice,mid',hs',hperf⟩
      cases hperf
      have h := h.steps hs'
      have hr : Reads given {mid' with abandoned := true} := by
        have hr := h.reads
        rcases h.client with hc | hc <;> simpa only [Reads,hc] using hr
      refine .perform ⟨⟨given,hr,hp,fun _ => hne,fun htx => ?_⟩,fun _ => ⟨.sent,rfl⟩⟩ ?_
      · rw [show mid'.txDropped=false from h.tx] at htx
        cases htx
      rintro dropped link' ⟨choice,last,hs'',hperf⟩
      cases hperf
      obtain ⟨hu,hreads⟩ := hs''.reads
      exact Channel.shut (hreads given hr) hp (hu.headed h.headed) (fun _ => hne)
        (.inr (.inl hu.abandoned))

/-- The relay loop is safe: everything visible of the body was or will be
given to the channel, unless it is shut. -/
theorem relay_link (body : List Chunk) (client : Bool)
    (h : Position items (upTo body) client link) :
    (relay slotId body client).Safe (linkRule capacity items) link fun _ => Shut items := by
  induction body generalizing link client with
  | nil => exact h.nextChunk fun _ _ h => finish_link client h
  | cons chunk rest ih =>
    refine h.nextChunk fun _ _ h => (offer_link client h).bind fun client' link' h => ?_
    cases hf : isErr chunk with
    | false => simpa using ih client' (by simpa [hf] using h)
    | true => simpa using finish_link client' (by simpa [hf] using h)

/-- Relaying a response is safe from the start. -/
theorem relayResponse_link (resp : Response) :
    (relayResponse slotId resp).Safe (linkRule capacity (upTo resp.body))
      ⟨[],false,false,.awaiting,[]⟩ fun _ => Shut (upTo resp.body) := by
  have h0 : Channel (upTo resp.body) ⟨[],false,false,.awaiting,[]⟩ :=
    ⟨[],rfl,List.nil_prefix,nofun,nofun⟩
  refine .perform ⟨h0,fun link' => ⟨.sent,?_⟩⟩ ?_
  · simp only [Link.perform]
    split <;> rfl
  rintro taken link' ⟨choice,mid,hs,hp⟩
  obtain ⟨hu,hreads⟩ := hs.reads
  have hr : Reads [] mid := hreads [] rfl
  simp only [Link.perform] at hp
  split at hp
  · rename_i hc
    cases hp
    refine relay_link resp.body true ⟨[],rfl,?_,hu.abandoned,hu.txDropped,nofun⟩
    simpa only [Reads,hc] using hr
  · rename_i hc
    cases hp
    have hgone := (hu.waits rfl).resolve_left hc
    refine .perform ⟨⟨[],hr,List.nil_prefix,?_,?_⟩,fun _ => ⟨.sent,rfl⟩⟩ ?_
    · simp [hu.abandoned]
    · simp [hu.txDropped]
    rintro dropped link' ⟨choice',last,hs',hp⟩
    cases hp
    obtain ⟨hu',hreads'⟩ := hs'.reads
    refine relay_link resp.body false (Channel.shut (hreads' [] hr) List.nil_prefix
      (hu'.headed hc) ?_ (.inl (hu'.gone hgone)))
    simp [hu'.abandoned,hu.abandoned]

/-- Items without errors are their chunks. -/
theorem map_bytesOf {xs : List Chunk} (h : ∀ c∈xs,isErr c=false) : (bytesOf xs).map .ok=xs := by
  induction xs with
  | nil => rfl
  | cons c xs ih =>
    obtain ⟨hc,hxs⟩ := List.forall_mem_cons.mp h
    cases c with
    | ok bytes => exact congrArg (List.cons (.ok bytes)) (ih hxs)
    | error err => cases hc

/-- What comes before the last visible item of a body is no error. -/
theorem upTo_prefix {body : List Chunk} (hp : given<+:upTo body) (hne : given≠upTo body) :
    ∀ c∈given,isErr c=false := by
  induction body generalizing given with
  | nil => simp_all [upTo]
  | cons chunk body ih =>
    cases given with
    | nil => exact nofun
    | cons c given =>
      rw [upTo,List.cons_prefix_cons] at hp
      obtain ⟨rfl,hp⟩ := hp
      cases hf : isErr c with
      | true =>
        simp only [hf,if_true,List.prefix_nil] at hp
        exact absurd (by simp [upTo,hf,hp]) hne
      | false =>
        simp only [hf,Bool.false_eq_true,if_false] at hp
        refine List.forall_mem_cons.mpr ⟨hf,ih hp fun he => hne ?_⟩
        simp [upTo,hf,he]

/-- A body with an error is its chunks and then that error. -/
theorem upTo_error {body : List Chunk} (h : ∃ c∈upTo body,isErr c=true) :
    ∃ err,upTo body=(bytesOf (upTo body)).map .ok++[.error err] := by
  induction body with
  | nil => simp [upTo] at h
  | cons chunk body ih =>
    cases chunk with
    | error err => exact ⟨err,rfl⟩
    | ok bytes =>
      obtain ⟨c,hc,he⟩ := h
      rcases List.mem_cons.mp hc with rfl | hc
      · cases he
      · obtain ⟨err,hu⟩ := ih ⟨c,hc,he⟩
        exact ⟨err,by rw [upTo_ok,bytesOf_ok,List.map_cons,List.cons_append,←hu]⟩

/-- The invariant of the link is what the client relies on. -/
theorem Channel.faithful {body : List Chunk} (h : Channel (upTo body) link) :
    Faithful body link := by
  obtain ⟨given,hr,hp,ha,htx⟩ := h
  have hordered : bytesOf link.received<+:bytesOf (upTo body) := hr.ordered.trans (hp.filterMap _)
  by_cases hc : link.client=.ended
  · simp only [Reads,hc] at hr
    obtain ⟨htx',hr⟩ := hr
    by_cases hab : link.abandoned=true
    · have hne := ha hab
      have hok := upTo_prefix hp hne
      simp only [hab,if_true] at hr
      refine ⟨hordered,fun _ => ⟨fun hall => ?_,fun ⟨hall,hbytes⟩ => ?_⟩,fun _ _ => ?_⟩
      · have hg := hall giveUp (by simp [hr])
        cases hg
      · rw [hr,bytesOf_append,bytesOf_giveUp,List.append_nil] at hbytes
        rw [←map_bytesOf hok,hbytes,map_bytesOf hall] at hne
        exact absurd rfl hne
      · refine ⟨giveUpText,?_⟩
        rw [hr,bytesOf_append,bytesOf_giveUp,List.append_nil,map_bytesOf hok,giveUp]
    · have hall : given=upTo body := by
        rcases htx htx' with hg | hg | hg
        · rw [hc] at hg
          cases hg
        · exact absurd hg hab
        · exact hg
      simp only [hab,Bool.false_eq_true,if_false,List.append_nil] at hr
      rw [hall] at hr
      refine ⟨hordered,fun _ => ?_,fun _ herr => ?_⟩
      · simp [hr]
      · rw [hr] at herr ⊢
        exact upTo_error herr
  · exact ⟨hordered,fun h => absurd h hc,fun h => absurd h hc⟩

/-- The invariant of the system: the rest of the task is safe on the link. -/
def Relaying (capacity : ℕ) (items : List Chunk) (st : Streaming) : Prop :=
  st.task.Safe (linkRule capacity items) st.link fun _ => Shut items

/-- Every step of the system keeps the task safe. -/
theorem Relaying.step {st st' : Streaming} {event : StreamEvent} {output : Unit}
    (h : Relaying capacity items st) (hs : streamStep capacity st event=some (output,st')) :
    Relaying capacity items st' := by
  have client : ∀ {link},ClientStep st.link link → Relaying capacity items {st with link := link} :=
    fun hc => Safe.stable linkRule_stable (fun _ _ _ hs h => h.steps hs) h (.single hc)
  cases event with
  | task choice =>
    simp only [streamStep] at hs
    split at hs
    · cases hs
    · rename_i op resume htask
      obtain ⟨⟨answer,link'⟩,hp,he⟩ := Option.map_eq_some_iff.mp hs
      cases he
      rw [Relaying,htask] at h
      exact h.2 answer link' ⟨choice,st.link,.refl,hp⟩
  | poll =>
    obtain ⟨link',hp,he⟩ := Option.map_eq_some_iff.mp hs
    cases he
    exact client (.inl hp)
  | hangUp =>
    obtain ⟨link',hp,he⟩ := Option.map_eq_some_iff.mp hs
    cases he
    exact client (.inr hp)

/-- The invariant holds after every run. -/
theorem relaying_of_run {resp : Response} {trace : List (StreamEvent×Unit)} {st : Streaming}
    (h : Run (streamStep capacity) (Streaming.start slotId resp) trace st) :
    Relaying capacity (upTo resp.body) st :=
  have h0 : Relaying capacity (upTo resp.body) (Streaming.start slotId resp) :=
    relayResponse_link resp
  h.invariant (Relaying capacity (upTo resp.body)) h0 fun _ _ _ _ hi _ hs => hi.step hs

/-- A safe task satisfies the invariant of the link. -/
theorem Relaying.channel {st : Streaming} (h : Relaying capacity items st) :
    Channel items st.link := by
  obtain ⟨task,link⟩ := st
  cases task with
  | done => exact Shut.channel h
  | ask => exact h.1.1

/-- The system waits for a hang-up only once the body has ended. -/
theorem Relaying.progress {st : Streaming} (h : Relaying capacity items st)
    (hc : st.link.client≠.ended) (hg : st.link.client≠.gone) :
    ∃ event,event≠.hangUp ∧ (streamStep capacity st event).isSome=true := by
  obtain ⟨task,link⟩ := st
  cases task with
  | ask op resume =>
    obtain ⟨choice,hs⟩ := h.1.2 link
    exact ⟨.task choice,nofun,by simpa [streamStep] using hs⟩
  | done =>
    have h : Shut items link := h
    refine ⟨.poll,nofun,?_⟩
    simp only [streamStep,Option.isSome_map,Link.poll]
    cases hcl : link.client with
    | awaiting => exact absurd hcl h.headed
    | reading => cases link.buffer <;> simp [h.tx]
    | deciding => cases link.abandoned <;> rfl
    | closing => rfl
    | ended => exact absurd hcl hc
    | gone => exact absurd hcl hg

/-- For every body, channel capacity, interleaving and pattern of stalls,
time-outs and hang-ups, the client's stream is faithful, and until it ended
or the client hung up, the task or the stream can go on. -/
theorem relay_faithful {resp : Response} {trace : List (StreamEvent×Unit)} {st : Streaming}
    (h : Run (streamStep capacity) (Streaming.start slotId resp) trace st) :
    Faithful resp.body st.link ∧ (st.link.client≠.ended → st.link.client≠.gone →
      ∃ event,event≠.hangUp ∧ (streamStep capacity st event).isSome=true) :=
  ⟨(relaying_of_run h).channel.faithful,(relaying_of_run h).progress⟩

/-- A stalled client: the second chunk times out, and the body it reads to
the end has the first chunk and then an error. -/
theorem relay_faithful_stalled : ∃ st,
    Faithful [.ok [1],.ok [2]] st ∧ st.client=.ended ∧ st.received=[.ok [1],giveUp] := by
  have h : Run (streamStep 1) (Streaming.start 0 ⟨⟨200,[]⟩,[.ok [1],.ok [2]]⟩) _ _ := run_of_exec
    (show exec (streamStep 1) (Streaming.start 0 ⟨⟨200,[]⟩,[.ok [1],.ok [2]]⟩)
      [.task .sent,.task .sent,.task .sent,.task .sent,.task .timedOut,.task .sent,.task .sent,
        .task .sent,.task .sent,.poll,.poll,.poll,.poll]=some _ from rfl)
  exact ⟨_,(relay_faithful h).1,rfl,rfl⟩

end AivyxBroker.Forward
