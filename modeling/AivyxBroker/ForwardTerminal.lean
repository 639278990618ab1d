import AivyxBroker.RelayStream

/-!
# The end of a response and the release of its slot

The whole forwarding task runs beside the handler of a client that stays
connected and reads. Upstream answers are fixed by a function, one for each
operation the task may perform on the way to the response. The client-facing
side sees its response end by the error head, by an error item of the body or
by the end of the body. Only the last comes after the slot was released: the
task publishes both kinds of error while it still owns its guard.

The end of the body is that of the body stream. Upstream's headers are relayed,
and with a `Content-Length` among them the HTTP library may complete the
response at its last byte; that is outside this model.
-/

namespace AivyxBroker.Forward

open RunInvariant Program Scheduler

/-- How many upstream body chunks the task may buffer ahead of a slow client. -/
def forwardChannelChunks : ℕ := 16

/-- What the task shares with the handler, and what became of the slot. -/
structure Front where
  /-- An error head the handler has not taken yet. -/
  head : Option Error
  /-- The error the handler answered with. -/
  refused : Option Error
  /-- The body stream. -/
  link : Link
  /-- The guard is dropped, and with it the slot released. -/
  released : Bool

/-- The handler waits for the head, and the task holds the slot. -/
def Front.new : Front := ⟨none,none,⟨[],false,false,.awaiting,[]⟩,false⟩

/-- Whether an operation prepares the slot or talks to llama-server. -/
def Op.prepares : Op → Bool
  | .restoreIntoSlot .. => true
  | .post .. => true
  | .saveFromSlot .. => true
  | .markResident .. => true
  | .clearResident .. => true
  | _ => false

/-- What one operation of the task does. A chunk send waits for room. -/
def Front.perform (upstream : (op : Op) → Ans op) (front : Front) :
    (op : Op) → Option (Ans op×Front)
  | .sendHead (.error err) => some (true,{front with head := some err})
  | .dropGuard _ => some ((),{front with released := true})
  | op =>
    if op.prepares=true then some (upstream op,front)
    else (front.link.perform forwardChannelChunks .sent op).map fun result =>
      (result.1,{front with link := result.2})

/-- One step of the client-facing side: the handler takes an error head and
answers with it, or the body stream goes on. -/
def Front.poll (front : Front) : Option Front :=
  match front.head with
  | some err => some {front with head := none, refused := some err}
  | none => front.link.poll.map fun link => {front with link := link}

/-- The client-facing side has observed the end of the response. -/
def Front.Over (front : Front) : Prop :=
  front.refused.isSome=true ∨ (∃ item∈front.link.received,isErr item=true) ∨
    front.link.client=.ended

/-- The task and the client-facing side. -/
structure Serving where
  /-- What the task has left to do. -/
  task : Forwarding Unit
  /-- What it shares with the handler. -/
  front : Front

/-- Whose turn it is. -/
inductive ServeEvent where
  /-- The task performs its next operation. -/
  | task
  /-- The client-facing side goes on. -/
  | poll

/-- The interleaving semantics. -/
def serveStep (upstream : (op : Op) → Ans op) (st : Serving) : ServeEvent → Option (Unit×Serving)
  | .task =>
    match st.task with
    | .done _ => none
    | .ask op resume =>
      (st.front.perform upstream op).map fun result => ((),⟨resume result.1,result.2⟩)
  | .poll => st.front.poll.map fun front => ((),{st with front := front})

/-- The outcome is a response whose body ends normally. -/
def EndsWell (outcome : Except Error Response) : Prop :=
  ∃ resp,outcome=.ok resp ∧ ∀ item∈resp.body,isErr item=false

/-- Upstream answers so that the response ends normally. -/
structure AnswersWell (llamaServerUrl : String) (body : Json) (hint : Option SlotHint)
    (admission : Admission) (upstream : (op : Op) → Ans op) : Prop where
  /-- A warm-up, sent for a hint whose prefix is neither resident nor restored,
  is answered without an error. -/
  warmed : ∀ h,hint=some h → admission.cacheReady=false →
    upstream (.restoreIntoSlot (cacheKey h) admission.slotId)≠(.ok true : Except Error Bool) →
    ∃ resp : Response,upstream (.post .warmUp (completionsUrl llamaServerUrl)
      (warmUpBody body h admission.slotId))=.ok resp ∧
        ¬(400≤resp.head.status ∧ resp.head.status<600)
  /-- The request is answered with a response whose body ends normally. -/
  answered : ∃ resp : Response,upstream (.post .forwarded (completionsUrl llamaServerUrl)
    (body.insert "id_slot" (slotNumber admission.slotId)))=.ok resp ∧
      ∀ item∈resp.body,isErr item=false

/-- A warm-up fails exactly if its request does. -/
theorem warmUp_runWith (llamaServerUrl : String) (body : Json) (h : SlotHint) (slotId : ℕ)
    (upstream : (op : Op) → Ans op) :
    ((warmUp llamaServerUrl body h slotId).runWith upstream).2=.ok () ↔
      ∃ resp : Response,upstream (.post .warmUp (completionsUrl llamaServerUrl)
        (warmUpBody body h slotId))=.ok resp ∧ ¬(400≤resp.head.status ∧ resp.head.status<600) := by
  rw [warmUp,act,runWith_bind,runWith_perform]
  generalize (upstream (.post .warmUp (completionsUrl llamaServerUrl)
    (warmUpBody body h slotId)) : Except Error Response)=answer
  cases answer with
  | error err =>
    constructor
    · intro he
      cases he
    · rintro ⟨_,he,_⟩
      cases he
  | ok resp =>
    by_cases hstatus : 400≤resp.head.status ∧ resp.head.status<600
    · have he : Except.bind (.ok resp) Response.errorForStatus=.error "HTTP status error" :=
        if_pos hstatus
      rw [he]
      constructor
      · intro h
        cases h
      · rintro ⟨_,hr,hno⟩
        cases hr
        exact absurd hstatus hno
    · have he : Except.bind (.ok resp) Response.errorForStatus=.ok resp := if_neg hstatus
      rw [he]
      exact ⟨fun _ => ⟨resp,rfl,hstatus⟩,fun _ => rfl⟩

/-- A prefix that is not restored has to be warmed up. -/
theorem warmOrRestore_runWith (llamaServerUrl : String) (body : Json) (h : SlotHint) (slotId : ℕ)
    (upstream : (op : Op) → Ans op) :
    ((warmOrRestore llamaServerUrl body h slotId).runWith upstream).2=.ok () ↔
      (upstream (.restoreIntoSlot (cacheKey h) slotId)≠(.ok true : Except Error Bool) →
        ((warmUp llamaServerUrl body h slotId).runWith upstream).2=.ok ()) := by
  rw [warmOrRestore,act,runWith_bind,runWith_perform]
  generalize (upstream (.restoreIntoSlot (cacheKey h) slotId) : Except Error Bool)=answer
  cases answer with
  | error err =>
    refine (Eq.congr_left (runWith_bind_same (fun r => ?_)
      (warmUp llamaServerUrl body h slotId))).trans ?_
    · cases r <;> rfl
    · exact ⟨fun he _ => he,fun he => he fun hn => (by cases hn)⟩
  | ok restored =>
    cases restored with
    | true => exact ⟨fun _ hn => absurd rfl hn,fun _ => rfl⟩
    | false =>
      refine (Eq.congr_left (runWith_bind_same (fun r => ?_)
        (warmUp llamaServerUrl body h slotId))).trans ?_
      · cases r <;> rfl
      · exact ⟨fun he _ => he,fun he => he fun hn => (by cases hn)⟩

/-- The slot is prepared unless a warm-up that is needed fails. -/
theorem prepareSlot_runWith (llamaServerUrl : String) (body : Json) (hint : Option SlotHint)
    (admission : Admission) (upstream : (op : Op) → Ans op) :
    ((prepareSlot llamaServerUrl body hint admission).runWith upstream).2=.ok () ↔
      ∀ h,hint=some h → admission.cacheReady=false →
        upstream (.restoreIntoSlot (cacheKey h) admission.slotId)≠(.ok true : Except Error Bool) →
        ∃ resp : Response,upstream (.post .warmUp (completionsUrl llamaServerUrl)
          (warmUpBody body h admission.slotId))=.ok resp ∧
            ¬(400≤resp.head.status ∧ resp.head.status<600) := by
  cases hint with
  | none => exact ⟨fun _ h hh => (by cases hh),fun _ => rfl⟩
  | some h =>
    unfold prepareSlot
    cases hready : admission.cacheReady with
    | true => exact ⟨fun _ _ _ hcold => (by cases hcold),fun _ => rfl⟩
    | false =>
      refine (warmOrRestore_runWith llamaServerUrl body h admission.slotId upstream).trans ?_
      rw [warmUp_runWith]
      refine ⟨fun hw h' hh _ => ?_,fun hw => hw h rfl rfl⟩
      cases hh
      exact hw

/-- The outcome is a response whose body ends normally exactly if upstream
answers so. -/
theorem endsWell_iff (llamaServerUrl : String) (body : Json) (hint : Option SlotHint)
    (admission : Admission) (upstream : (op : Op) → Ans op) :
    EndsWell ((sendUpstream llamaServerUrl body hint admission).runWith upstream).2 ↔
      AnswersWell llamaServerUrl body hint admission upstream := by
  unfold sendUpstream
  rw [runWith_bind]
  have hprep := prepareSlot_runWith llamaServerUrl body hint admission upstream
  cases hp : ((prepareSlot llamaServerUrl body hint admission).runWith upstream).2 with
  | error err =>
    refine ⟨fun ⟨_,he,_⟩ => (by cases he),fun h => ?_⟩
    rw [hp] at hprep
    cases hprep.mpr h.warmed
  | ok prepared => exact ⟨fun he => ⟨hprep.mp hp,he⟩,fun h => h.answered⟩

/-- A program that only prepares the slot and talks to llama-server. -/
abbrev Prepares {α : Type} (t : Forwarding α) : Prop := t.Every fun op => op.prepares=true

/-- The upstream part of the task shares nothing with the handler. -/
theorem sendUpstream_prepares (llamaServerUrl : String) (body : Json) (hint : Option SlotHint)
    (admission : Admission) : Prepares (sendUpstream llamaServerUrl body hint admission) :=
  (sendUpstream_every llamaServerUrl body hint admission).mono fun _ h => by cases h <;> rfl

/-- Any number of steps of the client-facing side. -/
abbrev Polls : Front → Front → Prop := Relation.ReflTransGen fun front front' =>
  front.poll=some front'

/-- However far the client-facing side gets on its own, it sees the end only
with the slot released. -/
def Front.Sound (front : Front) : Prop :=
  ∀ front',Polls front front' → front'.Over → front'.released=true

/-- The rule the task runs under: the client-facing side may move before each
operation, and must never see the end too soon. -/
def serveRule (upstream : (op : Op) → Ans op) : Rule Op Ans Front where
  admits front _ := front.Sound
  result front op answer front' := ∃ mid,Polls front mid ∧
    mid.perform upstream op=some (answer,front')

/-- The moves of the client-facing side are part of the rule. -/
theorem serveRule_stable (upstream : (op : Op) → Ans op) : (serveRule upstream).Stable Polls where
  admits _ _ _ he h front' hp := h front' (he.trans hp)
  result _ _ _ _ _ he h := by
    obtain ⟨mid,hp,hperf⟩ := h
    exact ⟨mid,he.trans hp,hperf⟩

/-- The client-facing side never takes a slot back. -/
theorem released_of_polls {front front' : Front} (hp : Polls front front')
    (h : front.released=true) : front'.released=true := by
  induction hp with
  | refl => exact h
  | tail _ hs ih =>
    unfold Front.poll at hs
    split at hs
    · cases hs
      exact ih
    · obtain ⟨link,-,rfl⟩ := Option.map_eq_some_iff.mp hs
      exact ih

/-- With the slot released, nothing can be seen too soon. -/
theorem sound_of_released {front : Front} (h : front.released=true) : front.Sound :=
  fun _ hp _ => released_of_polls hp h

/-- No end was published: no error is on its way, and the channel is open. -/
structure Quiet (place : ClientState) (front : Front) : Prop where
  /-- No error head was sent. -/
  head : front.head=none
  /-- Nor answered with. -/
  refused : front.refused=none
  /-- The sending half exists. -/
  tx : front.link.txDropped=false
  /-- No error item was sent. -/
  items : ∀ item∈front.link.received++front.link.buffer,isErr item=false
  /-- The client-facing side waits for the head, or reads. -/
  client : front.link.client=place
  /-- And nothing else. -/
  waits : place=.awaiting ∨ place=.reading

/-- The client-facing side stays where it is as long as no end is published. -/
theorem Quiet.polls {place : ClientState} {front front' : Front} (h : Quiet place front)
    (hp : Polls front front') : Quiet place front' := by
  induction hp with
  | refl => exact h
  | tail _ hs ih =>
    obtain ⟨hhead,href,htx,hitems,hc,hw⟩ := ih
    simp only [Front.poll,hhead] at hs
    obtain ⟨link,hl,rfl⟩ := Option.map_eq_some_iff.mp hs
    unfold Link.poll at hl
    rw [hc] at hl
    rcases hw with rfl | rfl
    · cases hl
    · dsimp only at hl
      split at hl
      · rename_i chunk buffer hb
        cases hl
        rw [hb] at hitems
        exact ⟨rfl,href,htx,by simpa using hitems,rfl,.inr rfl⟩
      · rw [htx] at hl
        cases hl

/-- Nothing published, nothing seen. -/
theorem Quiet.sound {place : ClientState} {front : Front} (h : Quiet place front) :
    front.Sound := by
  rintro front' hp hover
  obtain ⟨-,href,-,hitems,hc,hw⟩ := h.polls hp
  rcases hover with hr | ⟨item,hm,he⟩ | he
  · rw [href] at hr
    cases hr
  · rw [hitems item (List.mem_append_left _ hm)] at he
    cases he
  · rw [hc] at he
    rcases hw with rfl | rfl <;> cases he

/-- Preparing the slot is safe, and yields what upstream answers. -/
theorem prepares_safe {α : Type} {upstream : (op : Op) → Ans op} {t : Forwarding α}
    {front : Front} (ht : Prepares t) (h : Quiet .awaiting front) :
    t.Safe (serveRule upstream) front fun a front' =>
      a=(t.runWith upstream).2 ∧ Quiet .awaiting front' := by
  induction t generalizing front with
  | done a => exact ⟨rfl,h⟩
  | ask op resume ih =>
    refine ⟨h.sound,fun answer front' ⟨mid,hp,hperf⟩ => ?_⟩
    have hmid := h.polls hp
    have hop : mid.perform upstream op=some (upstream op,mid) := by
      have hprep := ht.1
      unfold Front.perform
      split
      · cases hprep
      · cases hprep
      · rw [if_pos hprep]
    rw [hop] at hperf
    cases hperf
    exact ih (upstream op) (ht.2 _) hmid

/-- The end of the task is safe: the guard goes first. -/
theorem finish_frees {upstream : (op : Op) → Ans op} {slotId : ℕ} {place : ClientState}
    {front : Front} (h : Quiet place front) :
    (finish slotId true).Safe (serveRule upstream) front fun _ front' =>
      front'.released=true := by
  refine .perform h.sound fun _ front' ⟨mid,_,hperf⟩ => ?_
  cases hperf
  refine .ask (sound_of_released rfl) fun _ front'' ⟨mid',hp,hperf⟩ => ?_
  have hr := released_of_polls hp rfl
  cases hperf
  exact hr

/-- Relaying a body without errors is safe. -/
theorem relay_frees {upstream : (op : Op) → Ans op} {slotId : ℕ} {body : List Chunk}
    {front : Front} (hbody : ∀ item∈body,isErr item=false) (h : Quiet .reading front) :
    (relay slotId body true).Safe (serveRule upstream) front fun _ front' =>
      front'.released=true := by
  induction body generalizing front with
  | nil =>
    refine .perform h.sound fun _ front' ⟨mid,hp,hperf⟩ => ?_
    cases hperf
    exact finish_frees (h.polls hp)
  | cons chunk rest ih =>
    obtain ⟨hok,hrest⟩ := List.forall_mem_cons.mp hbody
    refine .perform h.sound fun _ front' ⟨mid,hp,hperf⟩ => ?_
    cases hperf
    have h := h.polls hp
    refine .perform h.sound fun result front' ⟨mid',hp',hperf⟩ => ?_
    have h := h.polls hp'
    obtain ⟨⟨answer,link⟩,hl,he⟩ := Option.map_eq_some_iff.mp hperf
    simp only [Link.perform] at hl
    split at hl
    · cases hl
      cases he
      have hitems : ∀ item∈mid'.link.received++(mid'.link.buffer++[chunk]),isErr item=false := by
        intro item hm
        rw [←List.append_assoc,List.mem_append,List.mem_singleton] at hm
        rcases hm with hm | rfl
        · exact h.items item hm
        · exact hok
      have hq : Quiet .reading {mid' with
          link := {mid'.link with buffer := mid'.link.buffer++[chunk]}} :=
        ⟨h.head,h.refused,h.tx,hitems,h.client,.inr rfl⟩
      show (if isErr chunk=true then finish slotId true else relay slotId rest true).Safe _ _ _
      rw [if_neg (by simp [hok])]
      exact ih hrest hq
    · cases hl

/-- With a response whose body ends normally, the rest of the task is safe. -/
theorem afterUpstream_frees {upstream : (op : Op) → Ans op} {slotId : ℕ} {front : Front}
    {outcome : Except Error Response} (hwell : EndsWell outcome) (h : Quiet .awaiting front) :
    (afterUpstream slotId outcome).Safe (serveRule upstream) front fun _ front' =>
      front'.released=true := by
  obtain ⟨resp,rfl,hbody⟩ := hwell
  refine .perform h.sound fun taken front' ⟨mid,hp,hperf⟩ => ?_
  have h := h.polls hp
  simp only [Front.perform,Op.prepares,Bool.false_eq_true,if_false,Link.perform,h.client,if_true]
    at hperf
  cases hperf
  have hq : Quiet .reading {mid with link := {mid.link with client := .reading}} :=
    ⟨h.head,h.refused,h.tx,h.items,rfl,.inr rfl⟩
  exact relay_frees hbody hq

/-- The invariant of the system: the rest of the task is safe, and frees the
slot. -/
def Serving.Freeing (upstream : (op : Op) → Ans op) (st : Serving) : Prop :=
  st.task.Safe (serveRule upstream) st.front fun _ front => front.released=true

/-- Every step of the system keeps the task safe. -/
theorem Serving.Freeing.step {upstream : (op : Op) → Ans op} {st st' : Serving}
    {event : ServeEvent} {output : Unit} (h : st.Freeing upstream)
    (hs : serveStep upstream st event=some (output,st')) : st'.Freeing upstream := by
  cases event with
  | task =>
    simp only [serveStep] at hs
    split at hs
    · cases hs
    · rename_i op resume htask
      obtain ⟨⟨answer,front'⟩,hp,he⟩ := Option.map_eq_some_iff.mp hs
      cases he
      rw [Serving.Freeing,htask] at h
      exact h.2 answer front' ⟨st.front,.refl,hp⟩
  | poll =>
    obtain ⟨front',hp,he⟩ := Option.map_eq_some_iff.mp hs
    cases he
    exact Safe.stable (serveRule_stable upstream) (fun _ _ _ hp => released_of_polls hp) h
      (.single hp)

/-- A safe task lets nobody see the end too soon. -/
theorem Serving.Freeing.sound {upstream : (op : Op) → Ans op} {st : Serving}
    (h : st.Freeing upstream) : st.front.Sound := by
  obtain ⟨task,front⟩ := st
  cases task with
  | done => exact sound_of_released h
  | ask => exact h.1

/-- The system when the request was admitted. -/
def Serving.start (llamaServerUrl : String) (body : Json) (hint : Option SlotHint)
    (admission : Admission) : Serving :=
  ⟨forward llamaServerUrl body hint admission,Front.new⟩

/-- The client can get to see the end before the slot is released. -/
def EndsEarly (upstream : (op : Op) → Ans op) (st : Serving) : Prop :=
  ∃ trace st',Run (serveStep upstream) st trace st' ∧ st'.front.Over ∧ st'.front.released=false

/-- An enabled step on the way to an early end. -/
theorem EndsEarly.step {upstream : (op : Op) → Ans op} {st st' : Serving} (event : ServeEvent)
    (hs : serveStep upstream st event=some ((),st')) (h : EndsEarly upstream st') :
    EndsEarly upstream st := by
  obtain ⟨trace,st'',hr,hend⟩ := h
  exact ⟨_,st'',(RunWhen.single trivial hs).append hr,hend⟩

/-- The upstream part of the task runs to its outcome while the client waits. -/
theorem prepares_endsEarly {α : Type} {upstream : (op : Op) → Ans op} {t : Forwarding α}
    {f : α → Forwarding Unit} {front : Front} (ht : Prepares t)
    (h : EndsEarly upstream ⟨f (t.runWith upstream).2,front⟩) :
    EndsEarly upstream ⟨t >>= f,front⟩ := by
  induction t with
  | done a => exact h
  | ask op resume ih =>
    have hstep : serveStep upstream ⟨ask op resume >>= f,front⟩ .task=
        some ((),⟨resume (upstream op) >>= f,front⟩) := by
      have hprep := ht.1
      simp only [serveStep,ask_bind,Front.perform]
      split
      · cases hprep
      · cases hprep
      · rw [if_pos hprep]
        rfl
    exact .step .task hstep (ih (upstream op) (ht.2 _) h)

/-- An error head can be answered with before the guard is dropped. -/
theorem endsEarly_error (upstream : (op : Op) → Ans op) (slotId : ℕ) (err : Error) :
    EndsEarly upstream ⟨afterUpstream slotId (.error err),Front.new⟩ := by
  exact .step .task rfl (.step .poll rfl ⟨[],_,.start,.inl rfl,rfl⟩)

/-- An error item can be read before the guard is dropped. -/
theorem endsEarly_relay (upstream : (op : Op) → Ans op) (slotId : ℕ) {body : List Chunk}
    (hbody : ∃ item∈body,isErr item=true) (received : List Chunk) :
    EndsEarly upstream ⟨relay slotId body true,
      ⟨none,none,⟨[],false,false,.reading,received⟩,false⟩⟩ := by
  induction body generalizing received with
  | nil =>
    obtain ⟨item,hm,-⟩ := hbody
    cases hm
  | cons chunk rest ih =>
    refine .step .task rfl (.step .task rfl
      (.step .poll rfl ?_))
    cases hc : isErr chunk with
    | true => exact ⟨[],_,.start,.inr (.inl ⟨chunk,by simp,hc⟩),rfl⟩
    | false =>
      have hrest : ∃ item∈rest,isErr item=true := by
        obtain ⟨item,hm,he⟩ := hbody
        rcases List.mem_cons.mp hm with rfl | hm
        · rw [hc] at he
          cases he
        · exact ⟨item,hm,he⟩
      exact ih hrest (received++[chunk])

/-- The slot is free before the end is seen exactly if the outcome of the
upstream part is a response whose body ends normally. -/
theorem frees_iff_endsWell (llamaServerUrl : String) (body : Json) (hint : Option SlotHint)
    (admission : Admission) (upstream : (op : Op) → Ans op) :
    (∀ trace st,Run (serveStep upstream) (Serving.start llamaServerUrl body hint admission) trace st →
      st.front.Over → st.front.released=true) ↔
    EndsWell ((sendUpstream llamaServerUrl body hint admission).runWith upstream).2 := by
  have hprep := sendUpstream_prepares llamaServerUrl body hint admission
  constructor
  · intro hall
    by_contra hno
    have hearly : EndsEarly upstream (Serving.start llamaServerUrl body hint admission) := by
      rw [Serving.start,forward_eq]
      refine prepares_endsEarly hprep ?_
      revert hno
      generalize ((sendUpstream llamaServerUrl body hint admission).runWith upstream).2=outcome
      intro hno
      cases outcome with
      | error err => exact endsEarly_error upstream admission.slotId err
      | ok resp =>
        have hbody : ∃ item∈resp.body,isErr item=true := by
          by_contra hn
          refine hno ⟨resp,rfl,fun item hm => ?_⟩
          simpa using fun he => hn ⟨item,hm,he⟩
        exact .step .task rfl (endsEarly_relay upstream _ hbody [])
    obtain ⟨trace,st,hr,hover,hheld⟩ := hearly
    rw [hall trace st hr hover] at hheld
    cases hheld
  · intro hwell trace st hr hover
    have hnew : Quiet .awaiting Front.new := ⟨rfl,rfl,rfl,by simp [Front.new],rfl,.inl rfl⟩
    have h0 : (Serving.start llamaServerUrl body hint admission).Freeing upstream := by
      rw [Serving.start,forward_eq]
      refine (prepares_safe hprep hnew).bind fun outcome front ⟨ho,hq⟩ => ?_
      exact afterUpstream_frees (ho ▸ hwell) hq
    have h := hr.invariant (Serving.Freeing upstream) h0 fun _ _ _ _ hi _ hs => hi.step hs
    exact h.sound st.front .refl hover

/-- The slot is free before a reading client can see that its response is
over, in every interleaving, exactly if upstream answers so that the response
ends normally. -/
theorem forward_frees_first (llamaServerUrl : String) (body : Json) (hint : Option SlotHint)
    (admission : Admission) (upstream : (op : Op) → Ans op) :
    (∀ trace st,Run (serveStep upstream) (Serving.start llamaServerUrl body hint admission) trace st →
      st.front.Over → st.front.released=true) ↔
    AnswersWell llamaServerUrl body hint admission upstream :=
  (frees_iff_endsWell llamaServerUrl body hint admission upstream).trans
    (endsWell_iff llamaServerUrl body hint admission upstream)

/-- An upstream that answers every request alike and has nothing to restore. -/
def answering (answer : Except Error Response) : (op : Op) → Ans op
  | .restoreIntoSlot .. => .ok false
  | .post .. => answer
  | .saveFromSlot .. => .ok ()
  | .markResident .. => ()
  | .clearResident _ => ()
  | .sendHead _ => true
  | .nextChunk _ => ()
  | .sendChunk _ => .sent
  | .storeAbandoned => ()
  | .dropChunkTx => ()
  | .dropGuard _ => ()

/-- A hint-less request that llama-server refuses, and one whose body breaks
off at once: both clients see the end while their slot is still held. -/
theorem forward_frees_late :
    EndsEarly (answering (.error "connection refused"))
      (Serving.start "http://127.0.0.1:8080" (.object []) none ⟨0,false⟩) ∧
    EndsEarly (answering (.ok ⟨⟨200,[]⟩,[.error "connection reset"]⟩))
      (Serving.start "http://127.0.0.1:8080" (.object []) none ⟨0,false⟩) := by
  constructor
  · have h : Run (serveStep (answering (.error "connection refused"))) (Serving.start
        "http://127.0.0.1:8080" (.object []) none ⟨0,false⟩) _ _ := run_of_exec
      (show exec _ _ [.task,.task,.task,.poll]=some _ from rfl)
    exact ⟨_,_,h,.inl rfl,rfl⟩
  · have h : Run (serveStep (answering (.ok ⟨⟨200,[]⟩,[.error "connection reset"]⟩))) (Serving.start
        "http://127.0.0.1:8080" (.object []) none ⟨0,false⟩) _ _ := run_of_exec
      (show exec _ _ [.task,.task,.task,.task,.task,.poll]=some _ from rfl)
    exact ⟨_,_,h,.inr (.inl ⟨_,.head _,rfl⟩),rfl⟩

end AivyxBroker.Forward
