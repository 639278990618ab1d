import AivyxBroker.Forward

/-!
# The slot is held as long as the upstream job

The task drops its guard exactly once, and only after the upstream job is
over: a request to llama-server failed, or the response body was read to its
end or its first error. The client decides nothing here, whatever it answers
to the sends. The proof follows the text of the task, with the record of what
was performed as the state.
-/

namespace AivyxBroker.Forward

open Scheduler Program

/-- A record of performed operations. -/
abbrev Trace := List (Performed Ans)

/-- The slots released, in order. -/
def releases (trace : Trace) : List ℕ :=
  trace.filterMap fun
    | ⟨.dropGuard slotId,_⟩ => some slotId
    | _ => none

/-- What the body stream yielded, in order. -/
def consumed (trace : Trace) : List (Option Chunk) :=
  trace.filterMap fun
    | ⟨.nextChunk item,_⟩ => some item
    | _ => none

/-- The responses to the forwarded request. -/
def responses (trace : Trace) : List Response :=
  trace.filterMap fun
    | ⟨.post .forwarded _ _,.ok resp⟩ => some resp
    | _ => none

/-- The errors that end the upstream job before there is a response: of the
forwarded request, or of the warm-up and its status. -/
def failures (trace : Trace) : List Error :=
  trace.filterMap fun
    | ⟨.post .forwarded _ _,.error err⟩ => some err
    | ⟨.post .warmUp _ _,.error err⟩ => some err
    | ⟨.post .warmUp _ _,.ok resp⟩ =>
      match resp.errorForStatus with
      | .error err => some err
      | .ok _ => none
    | _ => none

/-- A body read to its end or its first error, that item included. -/
def upstreamItems : List Chunk → List (Option Chunk)
  | [] => [none]
  | chunk::rest => some chunk::if isErr chunk=true then [] else upstreamItems rest

/-- The upstream job is over: a request to llama-server failed, or its
response was read to the end or the first error. -/
def JobOver (trace : Trace) : Prop :=
  failures trace≠[] ∨ ∃ resp∈responses trace,consumed trace=upstreamItems resp.body

/-- Whether an operation uses the slot or the upstream connection. -/
def Op.usesSlot : Op → Bool
  | .sendHead _ => false
  | .sendChunk _ => false
  | .storeAbandoned => false
  | .dropChunkTx => false
  | _ => true

/-- The demand on every operation: the slot is not used once released, and
released only with the upstream job over. -/
def admitsOp (slotId : ℕ) (trace : Trace) (op : Op) : Prop :=
  (op.usesSlot=true → releases trace=[]) ∧ ∀ s,op=.dropGuard s → s=slotId ∧ JobOver trace

/-- What a completed task leaves: one release, and every response read to its
end or its first error. -/
def Released (slotId : ℕ) (trace : Trace) : Prop :=
  releases trace=[slotId] ∧ ∀ resp∈responses trace,consumed trace=upstreamItems resp.body

variable {slotId : ℕ} {trace : Trace}

@[simp] theorem releases_append (trace rest : Trace) :
    releases (trace++rest)=releases trace++releases rest := List.filterMap_append ..

@[simp] theorem consumed_append (trace rest : Trace) :
    consumed (trace++rest)=consumed trace++consumed rest := List.filterMap_append ..

@[simp] theorem responses_append (trace rest : Trace) :
    responses (trace++rest)=responses trace++responses rest := List.filterMap_append ..

@[simp] theorem failures_append (trace rest : Trace) :
    failures (trace++rest)=failures trace++failures rest := List.filterMap_append ..

/-- Operations towards the client only leave no trace upstream. -/
theorem clientOp_spec {op : Op} (answer : Ans op) (h : op.usesSlot=false) :
    releases [⟨op,answer⟩]=[] ∧ consumed [⟨op,answer⟩]=[] ∧ responses [⟨op,answer⟩]=[] ∧
      failures [⟨op,answer⟩]=[] := by
  cases op <;> first | exact ⟨rfl,rfl,rfl,rfl⟩ | cases h

/-- Operations towards the client are always admitted. -/
theorem admitsOp_client {op : Op} (h : op.usesSlot=false) : admitsOp slotId trace op :=
  ⟨fun hu => (by rw [h] at hu; cases hu),fun s he => (by rw [he] at h; cases h)⟩

/-- Operations on the slot other than its release are admitted before it. -/
theorem admitsOp_slot {op : Op} (hr : releases trace=[]) (h : ∀ s,op≠.dropGuard s) :
    admitsOp slotId trace op := ⟨fun _ => hr,fun s he => absurd he (h s)⟩

/-- What the task knows once it has a response: the slot is not released, and
`rest` is what its body stream has yet to yield. -/
structure Reading (rest : List (Option Chunk)) (trace : Trace) : Prop where
  /-- The slot is not released. -/
  held : releases trace=[]
  /-- There is one response, and `rest` is what remains of it. -/
  remaining : ∃ resp,responses trace=[resp] ∧ consumed trace++rest=upstreamItems resp.body

/-- Talking to the client does not change how far the body was read. -/
theorem Reading.client {rest : List (Option Chunk)} (h : Reading rest trace) {op : Op}
    (answer : Ans op) (hop : op.usesSlot=false) : Reading rest (trace++[⟨op,answer⟩]) := by
  obtain ⟨hr,hc,hs,-⟩ := clientOp_spec answer hop
  obtain ⟨resp,hresp,hrest⟩ := h.remaining
  exact ⟨by simp [h.held,hr],resp,by simp [hresp,hs],by simpa [hc] using hrest⟩

/-- Reading an item leaves the items after it. -/
theorem Reading.nextChunk {rest : List (Option Chunk)} {item : Option Chunk}
    (h : Reading (item::rest) trace) (answer : Ans (.nextChunk item)) :
    Reading rest (trace++[⟨.nextChunk item,answer⟩]) := by
  obtain ⟨resp,hresp,hrest⟩ := h.remaining
  have hr : releases [⟨.nextChunk item,answer⟩]=[] := rfl
  have hc : consumed [⟨.nextChunk item,answer⟩]=[item] := rfl
  have hs : responses [⟨.nextChunk item,answer⟩]=[] := rfl
  exact ⟨by simp [h.held,hr],resp,by simp [hresp,hs],by simpa [hc] using hrest⟩

/-- A completed task still is one after a last word to the client. -/
theorem Released.client (h : Released slotId trace) {op : Op} (answer : Ans op)
    (hop : op.usesSlot=false) : Released slotId (trace++[⟨op,answer⟩]) := by
  obtain ⟨hr,hc,hs,-⟩ := clientOp_spec answer hop
  exact ⟨by simp [h.1,hr],by simpa [hs,hc] using h.2⟩

/-- The end of the task is safe once the body is read. -/
theorem finish_safe (client : Bool) (h : Reading [] trace) :
    (finish slotId client).Safe (recording (admitsOp slotId)) trace
      fun _ => Released slotId := by
  obtain ⟨resp,hresp,hread⟩ := h.remaining
  rw [List.append_nil] at hread
  refine .perform ⟨fun _ => h.held,fun s he => ?_⟩ ?_
  · cases he
    exact ⟨rfl,.inr ⟨resp,by simp [hresp],hread⟩⟩
  · rintro answer _ rfl
    have hr : releases [⟨.dropGuard slotId,answer⟩]=[slotId] := rfl
    have hc : consumed [⟨.dropGuard slotId,answer⟩]=[] := rfl
    have hs : responses [⟨.dropGuard slotId,answer⟩]=[] := rfl
    have hover : Released slotId (trace++[⟨.dropGuard slotId,answer⟩]) :=
      ⟨by simp [h.held,hr],by simp [hresp,hs,hread,hc]⟩
    cases client with
    | false => exact hover
    | true =>
      refine .ask (admitsOp_client rfl) ?_
      rintro answer' _ rfl
      exact hover.client answer' rfl

/-- Offering an item to the client changes nothing upstream, whatever becomes
of the client. -/
theorem offer_safe {rest : List (Option Chunk)} (chunk : Chunk) (client : Bool)
    (h : Reading rest trace) :
    (offer chunk client).Safe (recording (admitsOp slotId)) trace fun _ => Reading rest := by
  cases client with
  | false => exact h
  | true =>
    refine .perform (admitsOp_client rfl) ?_
    rintro answer _ rfl
    have h := h.client answer rfl
    cases (answer : SendResult) with
    | sent => exact h
    | closed =>
      refine .perform (admitsOp_client rfl) ?_
      rintro dropped _ rfl
      exact h.client dropped rfl
    | timedOut =>
      refine .perform (admitsOp_client rfl) ?_
      rintro stored _ rfl
      refine .perform (admitsOp_client rfl) ?_
      rintro dropped _ rfl
      exact (h.client stored rfl).client dropped rfl

/-- The relay loop reads the body to its end or first error and then releases
the slot. -/
theorem relay_safe (items : List Chunk) (client : Bool) (h : Reading (upstreamItems items) trace) :
    (relay slotId items client).Safe (recording (admitsOp slotId)) trace
      fun _ => Released slotId := by
  induction items generalizing trace client with
  | nil =>
    refine .perform (admitsOp_slot h.held nofun) ?_
    rintro answer _ rfl
    exact finish_safe client (h.nextChunk answer)
  | cons chunk rest ih =>
    refine .perform (admitsOp_slot h.held nofun) ?_
    rintro answer _ rfl
    refine (offer_safe chunk client (h.nextChunk answer)).bind fun client' trace' h' => ?_
    cases hf : isErr chunk with
    | false => simpa using ih client' (by simpa [hf] using h')
    | true => simpa using finish_safe client' (by simpa [hf] using h')

/-- Relaying a response is safe whether or not the handler takes its head. -/
theorem relayResponse_safe (resp : Response) (h : Reading (upstreamItems resp.body) trace) :
    (relayResponse slotId resp).Safe (recording (admitsOp slotId)) trace
      fun _ => Released slotId := by
  refine .perform (admitsOp_client rfl) ?_
  rintro taken _ rfl
  have h := h.client taken rfl
  cases (taken : Bool) with
  | true => exact relay_safe resp.body true h
  | false =>
    refine .perform (admitsOp_client rfl) ?_
    rintro dropped _ rfl
    exact relay_safe resp.body false (h.client dropped rfl)

/-- What the task knows before there is a response to its request: the slot
is held, and nothing was read. -/
structure Preparing (trace : Trace) : Prop where
  /-- The slot is not released. -/
  held : releases trace=[]
  /-- There is no response to the forwarded request. -/
  unanswered : responses trace=[]
  /-- Nothing was read of any body. -/
  unread : consumed trace=[]

/-- Work on the slot before the forwarded request changes none of this. -/
theorem Preparing.next (h : Preparing trace) {op : Op} (answer : Ans op)
    (hr : releases [⟨op,answer⟩]=[]) (hs : responses [⟨op,answer⟩]=[])
    (hc : consumed [⟨op,answer⟩]=[]) : Preparing (trace++[⟨op,answer⟩]) :=
  ⟨by simp [h.held,hr],by simp [h.unanswered,hs],by simp [h.unread,hc]⟩

/-- The record before the forwarded request, after a failure if there was an
error. -/
def Prepared (result : Except Error Unit) (trace : Trace) : Prop :=
  Preparing trace ∧ ∀ err,result=.error err → failures trace≠[]

/-- A warm-up only works on the slot, and errs only when its request or its
status did. -/
theorem warmUp_safe (llamaServerUrl : String) (body : Json) (hint : SlotHint)
    (h : Preparing trace) :
    (warmUp llamaServerUrl body hint slotId).Safe (recording (admitsOp slotId)) trace
      Prepared := by
  refine .perform (admitsOp_slot h.held nofun) ?_
  rintro answer _ rfl
  have h := h.next answer rfl rfl rfl
  cases (answer : Except Error Response) with
  | error err => exact ⟨h,by simp [failures]⟩
  | ok resp =>
    cases hstatus : resp.errorForStatus with
    | error err =>
      simp only [Except.bind,hstatus]
      exact ⟨h,by simp [failures,hstatus]⟩
    | ok resp' =>
      simp only [Except.bind,hstatus]
      refine .perform (admitsOp_slot h.held nofun) ?_
      rintro saved _ rfl
      exact ⟨h.next saved rfl rfl rfl,nofun⟩

/-- Warming up or restoring only works on the slot, and errs only when a
request to llama-server failed. -/
theorem warmOrRestore_safe (llamaServerUrl : String) (body : Json) (hint : SlotHint)
    (h : Preparing trace) :
    (warmOrRestore llamaServerUrl body hint slotId).Safe (recording (admitsOp slotId)) trace
      Prepared := by
  refine .perform (admitsOp_slot h.held nofun) ?_
  rintro answer _ rfl
  have h := h.next answer rfl rfl rfl
  generalize trace++[⟨_,answer⟩]=trace at h ⊢
  have hwarm : ∀ restored : Bool,(if restored=true then pure (.ok ())
      else warmUp llamaServerUrl body hint slotId : Forwarding (Except Error Unit)).Safe
        (recording (admitsOp slotId)) trace Prepared := by
    intro restored
    cases restored with
    | false => exact warmUp_safe llamaServerUrl body hint h
    | true => exact ⟨h,nofun⟩
  refine Safe.bind (hwarm _) fun warmed trace' hw => ?_
  cases warmed with
  | error err => exact hw
  | ok =>
    refine .perform (admitsOp_slot hw.1.held nofun) ?_
    rintro marked _ rfl
    exact ⟨hw.1.next marked rfl rfl rfl,nofun⟩

/-- Preparing the slot only works on the slot. -/
theorem prepareSlot_safe (llamaServerUrl : String) (body : Json) (hint : Option SlotHint)
    (admission : Admission) (h : Preparing trace) :
    (prepareSlot llamaServerUrl body hint admission).Safe
      (recording (admitsOp admission.slotId)) trace Prepared := by
  cases hint with
  | none =>
    refine .perform (admitsOp_slot h.held fun _ he => (by cases he)) ?_
    rintro cleared _ rfl
    exact ⟨h.next cleared rfl rfl rfl,fun _ he => (by cases he)⟩
  | some hint =>
    simp only [prepareSlot]
    split
    · exact ⟨h,fun _ he => (by cases he)⟩
    · exact warmOrRestore_safe llamaServerUrl body hint h

/-- The record after the upstream request: its body is still to be read, or
the job is over. -/
def Sent : Except Error Response → Trace → Prop
  | .ok resp,trace => Reading (upstreamItems resp.body) trace
  | .error _,trace => Preparing trace ∧ failures trace≠[]

/-- The upstream request leaves a body to read, or a failure. -/
theorem sendUpstream_safe (llamaServerUrl : String) (body : Json) (hint : Option SlotHint)
    (admission : Admission) (h : Preparing trace) :
    (sendUpstream llamaServerUrl body hint admission).Safe
      (recording (admitsOp admission.slotId)) trace Sent := by
  refine .bind (prepareSlot_safe llamaServerUrl body hint admission h) fun prepared trace' h => ?_
  cases prepared with
  | error err => exact ⟨h.1,h.2 err rfl⟩
  | ok =>
    refine .ask (admitsOp_slot h.1.held nofun) ?_
    rintro answer _ rfl
    have hr : releases [⟨.post .forwarded _ _,answer⟩]=[] := rfl
    have hc : consumed [⟨.post .forwarded _ _,answer⟩]=[] := rfl
    cases (answer : Except Error Response) with
    | error err => exact ⟨h.1.next _ hr rfl hc,by simp [failures]⟩
    | ok resp =>
      have hs : ∀ url body,responses [(⟨.post .forwarded url body,.ok resp⟩ : Performed Ans)]=
          [resp] := fun _ _ => rfl
      exact ⟨by simp [h.1.held,hr],resp,by simp [h.1.unanswered,hs],by simp [h.1.unread,hc]⟩

/-- The whole task releases its slot once, at the end of the upstream job. -/
theorem forward_safe (llamaServerUrl : String) (body : Json) (hint : Option SlotHint)
    (admission : Admission) :
    (forward llamaServerUrl body hint admission).Safe
      (recording (admitsOp admission.slotId)) [] fun _ => Released admission.slotId := by
  refine .bind (sendUpstream_safe llamaServerUrl body hint admission ⟨rfl,rfl,rfl⟩)
    fun sent trace h => ?_
  cases sent with
  | ok resp => exact relayResponse_safe resp h
  | error err =>
    obtain ⟨h,hfail⟩ := h
    refine .perform (admitsOp_client rfl) ?_
    rintro taken _ rfl
    refine .perform (admitsOp_client rfl) ?_
    rintro dropped _ rfl
    have h := (h.next taken rfl rfl rfl).next dropped rfl rfl rfl
    refine .ask ⟨fun _ => h.held,fun s he => ?_⟩ ?_
    · cases he
      exact ⟨rfl,.inl (by simp [hfail])⟩
    · rintro answer _ rfl
      have hr : releases [⟨.dropGuard admission.slotId,answer⟩]=[admission.slotId] := rfl
      have hs : responses [⟨.dropGuard admission.slotId,answer⟩]=[] := rfl
      refine ⟨by rw [releases_append,h.held,hr]; rfl,?_⟩
      rw [responses_append,h.unanswered,hs]
      exact nofun

/-- In every run of the task, whatever llama-server, the KV store and the
client do: the slot is released only with the upstream job over and is not
used afterwards; a completed run released it exactly once and read every
response to its end or first error; and every run can be completed. -/
theorem forward_releases_once (llamaServerUrl : String) (body : Json) (hint : Option SlotHint)
    (admission : Admission) {trace : Trace} {rest : Forwarding Unit}
    (h : Runs (forward llamaServerUrl body hint admission) trace rest) :
    (∀ pre s answer post,trace=pre++⟨.dropGuard s,answer⟩::post →
      s=admission.slotId ∧ JobOver pre ∧ releases pre=[] ∧ ∀ p∈post,p.1.usesSlot=false) ∧
    (rest=.done () → releases trace=[admission.slotId] ∧
      ∀ resp∈responses trace,consumed trace=upstreamItems resp.body) ∧
    ∀ answer : (op : Op) → Ans op,
      Runs (forward llamaServerUrl body hint admission) (trace++(rest.runWith answer).1)
        (.done ()) := by
  have hsafe := forward_safe llamaServerUrl body hint admission
  refine ⟨?_,?_,h.runWith⟩
  · rintro pre s answer post rfl
    obtain ⟨hr,hdrop⟩ := h.admitted hsafe
    obtain ⟨rfl,hover⟩ := hdrop s rfl
    refine ⟨rfl,hover,hr rfl,fun p hp => ?_⟩
    obtain ⟨mid,post',rfl⟩ := List.append_of_mem hp
    rw [←List.cons_append,←List.append_assoc] at h
    have hnone := (h.admitted hsafe).1
    cases hu : p.1.usesSlot with
    | false => rfl
    | true =>
      have hsome := hnone hu
      rw [releases_append,List.append_eq_nil_iff] at hsome
      cases hsome.2
  · rintro rfl
    exact h.safe hsafe

/-- A handler that is gone before the head does not shorten the job: both
items of the body are read before the release. -/
theorem forward_releases_once_unread : ∃ trace : Trace,
    consumed trace=[some (.ok [1]),some (.error "reset")] ∧ releases trace=[3] := by
  have h := Runs.start (t:=forward "u" .null none ⟨3,false⟩) |>.runWith fun
    | .restoreIntoSlot .. => .ok false
    | .post .. => .ok ⟨⟨200,[]⟩,[.ok [1],.error "reset"]⟩
    | .saveFromSlot .. => .ok ()
    | .sendHead _ => false
    | .sendChunk _ => SendResult.closed
    | .markResident .. | .clearResident _ | .nextChunk _ | .storeAbandoned | .dropChunkTx
    | .dropGuard _ => ()
  exact ⟨_,rfl,((forward_releases_once "u" .null none ⟨3,false⟩ h).2.1 rfl).1⟩

end AivyxBroker.Forward
