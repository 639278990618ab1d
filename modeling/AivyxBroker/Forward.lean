import AivyxBroker.Json
import AivyxBroker.Scheduler
import AivyxBroker.Program

/-!
# The forwarding task

A chat request is admitted to a slot and then forwarded by a task of its own,
which owns the slot until it drops its guard. The task is embedded operation
by operation: every await, every call on the scheduler, and every drop that
another party can observe is one operation, in the order of the source. What
the operations do and how they are answered is left open here.

An upstream response comes with the whole finite body it will turn out to
have; reading the next item of it is an operation, so that a run records how
far the body was read. Errors are represented by their texts.
-/

namespace AivyxBroker.Forward

open Scheduler

/-- Body bytes. -/
abbrev Bytes := List UInt8

/-- An error, by its text. -/
abbrev Error := String

/-- One item of a response body stream. -/
abbrev Chunk := Except Error Bytes

/-- The name of a saved KV state. -/
structure CacheKey where
  /-- Which program saved it. -/
  backendId : String
  /-- The model it is for. -/
  modelId : String
  /-- Which build saved it. -/
  buildHash : String
  /-- The prefix it holds. -/
  prefixHash : String
  deriving DecidableEq

/-- What is recorded about a saved KV state. -/
structure CacheMeta where
  /-- Its size. -/
  sizeBytes : ℕ
  /-- Its token count. -/
  tokenCount : ℕ

/-- Response status and headers, relayed untouched. -/
structure UpstreamHead where
  /-- The status code. -/
  status : ℕ
  /-- Header names with their values. -/
  headers : List (String×Bytes)

/-- A response of llama-server. -/
structure Response where
  /-- Status and headers. -/
  head : UpstreamHead
  /-- Every item its body stream yields before it ends or is given up. -/
  body : List Chunk

/-- A client or server error status is an error. -/
def Response.errorForStatus (resp : Response) : Except Error Response :=
  if 400≤resp.head.status ∧ resp.head.status<600 then .error "HTTP status error" else .ok resp

/-- What a request to llama-server is for. -/
inductive Purpose where
  /-- It warms a slot up with the request's prefix. -/
  | warmUp
  /-- It is the client's own request. -/
  | forwarded
  deriving DecidableEq

/-- How a chunk send ended. -/
inductive SendResult where
  /-- The chunk is in the channel. -/
  | sent
  /-- The receiver is gone. -/
  | closed
  /-- The client did not make room in time, and the chunk is lost. -/
  | timedOut
  deriving DecidableEq

/-- The operations of the forwarding task. -/
inductive Op where
  /-- Ask the KV store to restore a saved state into a slot. -/
  | restoreIntoSlot (key : CacheKey) (slotId : ℕ)
  /-- Send a completion request and wait for the response head. -/
  | post (purpose : Purpose) (url : String) (body : Json)
  /-- Ask the KV store to save a slot's state. -/
  | saveFromSlot (key : CacheKey) (slotId : ℕ) (info : CacheMeta)
  /-- Record in the occupancy table what the slot holds. -/
  | markResident (slotId : ℕ) (model : Option String) (prefixHash : String)
  /-- Forget in the occupancy table what the slot holds. -/
  | clearResident (slotId : ℕ)
  /-- Send the response head, or why there is none, to the handler. -/
  | sendHead (head : Except Error UpstreamHead)
  /-- The body stream yields its next item, or its end. -/
  | nextChunk (item : Option Chunk)
  /-- Send a body item into the channel, for a limited time. -/
  | sendChunk (chunk : Chunk)
  /-- Set the flag that the client was given up on. -/
  | storeAbandoned
  /-- Drop the sending half of the chunk channel. -/
  | dropChunkTx
  /-- Drop the guard of the slot. -/
  | dropGuard (slotId : ℕ)

/-- What the operations answer. -/
abbrev Ans : Op → Type
  | .restoreIntoSlot .. => Except Error Bool
  | .post .. => Except Error Response
  | .saveFromSlot .. => Except Error Unit
  | .sendHead _ => Bool
  | .sendChunk _ => SendResult
  | _ => Unit

/-- Tasks over these operations. -/
abbrev Forwarding := Program Op Ans

/-- One operation of the task. -/
def act (op : Op) : Forwarding (Ans op) := Program.perform op

/-- The completion endpoint of llama-server. -/
def completionsUrl (llamaServerUrl : String) : String :=
  String.ofList (llamaServerUrl.toList.reverse.dropWhile (· == '/')).reverse++"/v1/chat/completions"

/-- The key a request's prefix is saved under. A request that names no model
uses the empty model id. -/
def cacheKey (hint : SlotHint) : CacheKey :=
  ⟨"aivyx-broker",hint.model.getD "","aivyx-broker",hint.prefixHash⟩

/-- A slot id as a JSON number. -/
def slotNumber (slotId : ℕ) : Json := .number (.posInt (UInt64.ofNat slotId))

/-- The first message with the system role. -/
def systemMessage (body : Json) : Json :=
  (((body.get "messages").bind Json.asArray).bind fun messages =>
    messages.find? fun m => (m.get "role").bind Json.asStr==some "system").getD
      (.object [("role",.string "system"),("content",.string "")])

/-- The warm-up request: the stable prefix of `body` with an empty user turn,
on the given slot, for the request's model. -/
def warmUpBody (body : Json) (hint : SlotHint) (slotId : ℕ) : Json :=
  let warmUp := .object [
    ("messages",.array [systemMessage body,
      .object [("role",.string "user"),("content",.string "")]]),
    ("max_tokens",.number (.posInt 1)),("id_slot",slotNumber slotId)]
  let warmUp := match body.get "tools" with
    | some tools => warmUp.insert "tools" tools
    | none => warmUp
  match hint.model with
  | some model => warmUp.insert "model" (.string model)
  | none => warmUp

/-- Warm the slot up with a request of its own and save the slot's state. A
failed save is only logged. -/
def warmUp (llamaServerUrl : String) (body : Json) (hint : SlotHint) (slotId : ℕ) :
    Forwarding (Except Error Unit) := do
  let answer : Except Error Response ← act (.post .warmUp (completionsUrl llamaServerUrl)
    (warmUpBody body hint slotId))
  match answer.bind Response.errorForStatus with
  | .error err => pure (.error err)
  | .ok _ =>
    let _ ← act (.saveFromSlot (cacheKey hint) slotId ⟨1,1⟩)
    pure (.ok ())

/-- Get the hint's prefix into the slot: restore its saved state, or else
warm the slot up. A failed restore counts as nothing restored, a failed
warm-up is an early return. -/
def warmOrRestore (llamaServerUrl : String) (body : Json) (hint : SlotHint) (slotId : ℕ) :
    Forwarding (Except Error Unit) := do
  let answer : Except Error Bool ← act (.restoreIntoSlot (cacheKey hint) slotId)
  let restored := match answer with
    | .ok restored => restored
    | .error _ => false
  let warming : Forwarding (Except Error Unit) :=
    if restored=true then pure (.ok ()) else warmUp llamaServerUrl body hint slotId
  match ← warming with
  | .error err => pure (.error err)
  | .ok () =>
    act (.markResident slotId hint.model hint.prefixHash)
    pure (.ok ())

/-- Prepare the admitted slot for a hinted request, or forget its content for
a hint-less one. -/
def prepareSlot (llamaServerUrl : String) (body : Json) (hint : Option SlotHint)
    (admission : Admission) : Forwarding (Except Error Unit) :=
  match hint with
  | some h =>
    if admission.cacheReady=true then pure (.ok ())
    else warmOrRestore llamaServerUrl body h admission.slotId
  | none => do
    act (.clearResident admission.slotId)
    pure (.ok ())

/-- Prepare the slot and send the request to llama-server on it. -/
def sendUpstream (llamaServerUrl : String) (body : Json) (hint : Option SlotHint)
    (admission : Admission) : Forwarding (Except Error Response) := do
  match ← prepareSlot llamaServerUrl body hint admission with
  | .error err => pure (.error err)
  | .ok () =>
    act (.post .forwarded (completionsUrl llamaServerUrl)
      (body.insert "id_slot" (slotNumber admission.slotId)))

/-- The end of the task: the slot is freed before the client can see the end
of the body. `client` tells whether the channel's sending half still exists. -/
def finish (slotId : ℕ) (client : Bool) : Forwarding Unit := do
  act (.dropGuard slotId)
  if client=true then act .dropChunkTx

/-- Send one body item to the client, if there still is one, and tell whether
there is one afterwards. -/
def offer (chunk : Chunk) (client : Bool) : Forwarding Bool :=
  if client=true then do
    let result : SendResult ← act (.sendChunk chunk)
    match result with
    | .sent => pure true
    | .closed =>
      act .dropChunkTx
      pure false
    | .timedOut =>
      act .storeAbandoned
      act .dropChunkTx
      pure false
  else pure false

/-- Whether a body item is an error. -/
def isErr : Chunk → Bool
  | .ok _ => false
  | .error _ => true

/-- Read the body to its end or its first error, offering every item to the
client as long as there is one. -/
def relay (slotId : ℕ) : List Chunk → Bool → Forwarding Unit
  | [],client => do
    act (.nextChunk none)
    finish slotId client
  | chunk::rest,client => do
    act (.nextChunk (some chunk))
    let client ← offer chunk client
    if isErr chunk=true then finish slotId client else relay slotId rest client

/-- Relay a response: its head first, then its body. The sending half of the
chunk channel is kept only if the handler took the head. -/
def relayResponse (slotId : ℕ) (resp : Response) : Forwarding Unit := do
  let client : Bool ← act (.sendHead (.ok resp.head))
  if client=true then relay slotId resp.body true
  else
    act .dropChunkTx
    relay slotId resp.body false

/-- The whole job of an admitted request. On an early return the sending half
of the chunk channel is dropped before the guard. -/
def forward (llamaServerUrl : String) (body : Json) (hint : Option SlotHint)
    (admission : Admission) : Forwarding Unit := do
  match ← sendUpstream llamaServerUrl body hint admission with
  | .ok resp => relayResponse admission.slotId resp
  | .error err =>
    let _ ← act (.sendHead (.error err))
    act .dropChunkTx
    act (.dropGuard admission.slotId)

/-- What the task does with the outcome of `send_upstream`. -/
def afterUpstream (slotId : ℕ) : Except Error Response → Forwarding Unit
  | .ok resp => relayResponse slotId resp
  | .error err => do
    let _ ← act (.sendHead (.error err))
    act .dropChunkTx
    act (.dropGuard slotId)

/-- The task is its upstream part and then the rest. -/
theorem forward_eq (llamaServerUrl : String) (body : Json) (hint : Option SlotHint)
    (admission : Admission) :
    forward llamaServerUrl body hint admission=
      sendUpstream llamaServerUrl body hint admission >>= afterUpstream admission.slotId := by
  unfold forward afterUpstream
  congr 1

/-- The operations of the upstream part of the task. -/
inductive UpstreamOp (llamaServerUrl : String) (body : Json) (hint : Option SlotHint) (slotId : ℕ) :
    Op → Prop
  /-- A hinted request may restore its prefix. -/
  | restore (h : SlotHint) (hh : hint=some h) :
      UpstreamOp llamaServerUrl body hint slotId (.restoreIntoSlot (cacheKey h) slotId)
  /-- Or warm the slot up with it. -/
  | warmUp (h : SlotHint) (hh : hint=some h) : UpstreamOp llamaServerUrl body hint slotId
      (.post .warmUp (completionsUrl llamaServerUrl) (warmUpBody body h slotId))
  /-- And save it then. -/
  | save (h : SlotHint) (hh : hint=some h) :
      UpstreamOp llamaServerUrl body hint slotId (.saveFromSlot (cacheKey h) slotId ⟨1,1⟩)
  /-- The slot then holds the prefix. -/
  | mark (h : SlotHint) (hh : hint=some h) :
      UpstreamOp llamaServerUrl body hint slotId (.markResident slotId h.model h.prefixHash)
  /-- A hint-less request forgets what the slot holds. -/
  | clear (hh : hint=none) : UpstreamOp llamaServerUrl body hint slotId (.clearResident slotId)
  /-- The request itself. -/
  | forwarded : UpstreamOp llamaServerUrl body hint slotId (.post .forwarded
      (completionsUrl llamaServerUrl) (body.insert "id_slot" (slotNumber slotId)))

/-- The upstream part of the task performs no other operations. -/
theorem sendUpstream_every (llamaServerUrl : String) (body : Json) (hint : Option SlotHint)
    (admission : Admission) : (sendUpstream llamaServerUrl body hint admission).Every
      (UpstreamOp llamaServerUrl body hint admission.slotId) := by
  have hwarm : ∀ h,hint=some h → (warmUp llamaServerUrl body h admission.slotId).Every
      (UpstreamOp llamaServerUrl body hint admission.slotId) := by
    refine fun h hh => ⟨.warmUp h hh,fun answer => ?_⟩
    show Program.Every _ (match Except.bind answer Response.errorForStatus with
      | .error err => _
      | .ok _ => _)
    split
    · trivial
    · exact ⟨.save h hh,fun _ => trivial⟩
  have hrestore : ∀ h,hint=some h → (warmOrRestore llamaServerUrl body h admission.slotId).Every
      (UpstreamOp llamaServerUrl body hint admission.slotId) := by
    refine fun h hh => ⟨.restore h hh,fun answer => .bind trivial fun answer => ?_⟩
    have hwarming : ∀ restored : Bool,Program.Every
        (UpstreamOp llamaServerUrl body hint admission.slotId) (if restored=true then pure (.ok ())
          else warmUp llamaServerUrl body h admission.slotId) := by
      intro restored
      split
      · trivial
      · exact hwarm h hh
    refine .bind (hwarming _) fun warmed => ?_
    cases warmed with
    | error err => trivial
    | ok _ => exact ⟨.mark h hh,fun _ => trivial⟩
  refine .bind ?_ fun prepared => ?_
  · cases hh : hint with
    | none => exact ⟨.clear rfl,fun _ => trivial⟩
    | some h =>
      simp only [prepareSlot]
      split
      · trivial
      · exact hh ▸ hrestore h hh
  · cases prepared with
    | error err => trivial
    | ok _ => exact ⟨.forwarded,fun _ => trivial⟩

/-- A 32-bit unsigned number, or null. -/
def optionU32 : Json → Option (Option ℕ)
  | .null => some none
  | .number (.posInt n) => if n.toNat<2^32 then some (some n.toNat) else none
  | _ => none

/-- The wire form of a hint: an object, where unknown fields are ignored and
`preferred_slot` may be missing, or an array of exactly the two fields. -/
def SlotHint.fromValue : Json → Option SlotHint
  | .object fields => do
    let prefixHash ← (fields.lookup "prefix_hash").bind Json.asStr
    let preferredSlot ← match fields.lookup "preferred_slot" with
      | some value => optionU32 value
      | none => some none
    pure ⟨prefixHash,preferredSlot,none⟩
  | .array [prefixHash,preferredSlot] => do
    pure ⟨←prefixHash.asStr,←optionU32 preferredSlot,none⟩
  | _ => none

/-- What the handler makes of a request body: the hint with the request's
model, and the body without the hint. -/
def parseChat (body : Json) : Option SlotHint×Json :=
  let model := (body.get "model").bind Json.asStr
  let (hint,body) := body.remove "aivyx_slot_hint"
  ((hint.bind SlotHint.fromValue).map fun hint => {hint with model := model},body)

/-- Whether an operation only relays the response. -/
def Op.relays : Op → Bool
  | .sendHead _ => true
  | .nextChunk _ => true
  | .sendChunk _ => true
  | .storeAbandoned => true
  | .dropChunkTx => true
  | _ => false

/-- The rest of the task relays, and drops its guard. -/
theorem afterUpstream_every (slotId : ℕ) (outcome : Except Error Response) :
    (afterUpstream slotId outcome).Every fun op => op.relays=true ∨ op=.dropGuard slotId := by
  have hfinish : ∀ client,(finish slotId client).Every fun op =>
      op.relays=true ∨ op=.dropGuard slotId := by
    refine fun client => ⟨.inr rfl,fun _ => ?_⟩
    cases client with
    | false => trivial
    | true => exact ⟨.inl rfl,fun _ => trivial⟩
  have hoffer : ∀ chunk client,(offer chunk client).Every fun op =>
      op.relays=true ∨ op=.dropGuard slotId := by
    intro chunk client
    cases client with
    | false => trivial
    | true =>
      refine ⟨.inl rfl,fun result => ?_⟩
      cases (result : SendResult) with
      | sent => trivial
      | closed => exact ⟨.inl rfl,fun _ => trivial⟩
      | timedOut => exact ⟨.inl rfl,fun _ => ⟨.inl rfl,fun _ => trivial⟩⟩
  have hrelay : ∀ body client,(relay slotId body client).Every fun op =>
      op.relays=true ∨ op=.dropGuard slotId := by
    intro body
    induction body with
    | nil => exact fun client => ⟨.inl rfl,fun _ => hfinish client⟩
    | cons chunk rest ih =>
      refine fun client => ⟨.inl rfl,fun _ => ?_⟩
      refine Program.Every.bind trivial fun _ => .bind (hoffer chunk client) fun client => ?_
      split
      · exact hfinish client
      · exact ih client
  cases outcome with
  | error err => exact ⟨.inl rfl,fun _ => ⟨.inl rfl,fun _ => ⟨.inr rfl,fun _ => trivial⟩⟩⟩
  | ok resp =>
    refine ⟨.inl rfl,fun taken => ?_⟩
    show Program.Every _ (if taken=true then _ else _)
    split
    · exact hrelay resp.body true
    · exact ⟨.inl rfl,fun _ => hrelay resp.body false⟩

/-- A rule that lets a task relay under `held`, drop its guard to reach
`freed`, and stay there when it closes the channel. -/
structure Relayable {σ : Type} (rule : Program.Rule Op Ans σ) (slotId : ℕ) (held freed : σ → Prop) :
    Prop where
  /-- Relaying is admitted and keeps `held`. -/
  relay : ∀ s op,held s → op.relays=true →
    rule.admits s op ∧ ∀ answer s',rule.result s op answer s' → held s'
  /-- So is dropping the guard, which leaves `freed`. -/
  drop : ∀ s,held s → rule.admits s (.dropGuard slotId) ∧
    ∀ answer s',rule.result s (.dropGuard slotId) answer s' → freed s'
  /-- And closing the channel afterwards. -/
  close : ∀ s,freed s → rule.admits s .dropChunkTx ∧
    ∀ answer s',rule.result s .dropChunkTx answer s' → freed s'

variable {σ : Type} {rule : Program.Rule Op Ans σ} {slotId : ℕ} {held freed : σ → Prop} {s : σ}

/-- Offering an item to the client is safe. -/
theorem Relayable.offer (h : Relayable rule slotId held freed) (chunk : Chunk) (client : Bool)
    (hs : held s) : (offer chunk client).Safe rule s fun _ => held := by
  cases client with
  | false => exact hs
  | true =>
    obtain ⟨hadm,hres⟩ := h.relay s (.sendChunk chunk) hs rfl
    refine .perform hadm fun answer s1 hr => ?_
    have h1 := hres answer s1 hr
    cases (answer : SendResult) with
    | sent => exact h1
    | closed =>
      obtain ⟨hadm,hres⟩ := h.relay s1 .dropChunkTx h1 rfl
      exact .perform hadm fun answer s2 hr => hres answer s2 hr
    | timedOut =>
      obtain ⟨hadm,hres⟩ := h.relay s1 .storeAbandoned h1 rfl
      refine .perform hadm fun answer s2 hr => ?_
      obtain ⟨hadm,hres⟩ := h.relay s2 .dropChunkTx (hres answer s2 hr) rfl
      exact .perform hadm fun answer s3 hr => hres answer s3 hr

/-- The end of a task is safe. -/
theorem Relayable.finish (h : Relayable rule slotId held freed) (client : Bool) (hs : held s) :
    (finish slotId client).Safe rule s fun _ => freed := by
  obtain ⟨hadm,hres⟩ := h.drop s hs
  refine .perform hadm fun answer s1 hr => ?_
  have h1 := hres answer s1 hr
  cases client with
  | false => exact h1
  | true =>
    obtain ⟨hadm,hres⟩ := h.close s1 h1
    exact .ask hadm fun answer s2 hr => hres answer s2 hr

/-- Relaying a body, and the end of the task, are safe. -/
theorem Relayable.items (h : Relayable rule slotId held freed) (items : List Chunk) (client : Bool)
    (hs : held s) : (Forward.relay slotId items client).Safe rule s fun _ => freed := by
  induction items generalizing client s with
  | nil =>
    obtain ⟨hadm,hres⟩ := h.relay s (.nextChunk none) hs rfl
    exact .perform hadm fun answer s1 hr => h.finish client (hres answer s1 hr)
  | cons chunk rest ih =>
    obtain ⟨hadm,hres⟩ := h.relay s (.nextChunk (some chunk)) hs rfl
    refine .perform hadm fun answer s1 hr => ?_
    refine (h.offer chunk client (hres answer s1 hr)).bind fun client' s2 h2 => ?_
    split
    · exact h.finish client' h2
    · exact ih client' h2

/-- A task is safe if it reaches the upstream answer under `held`. -/
theorem Relayable.forward {llamaServerUrl : String} {body : Json} {hint : Option SlotHint}
    {admission : Admission} (h : Relayable rule admission.slotId held freed)
    (hsend : (sendUpstream llamaServerUrl body hint admission).Safe rule s fun _ => held) :
    (forward llamaServerUrl body hint admission).Safe rule s fun _ => freed := by
  refine hsend.bind fun sent s1 h1 => ?_
  cases sent with
  | error err =>
    obtain ⟨hadm,hres⟩ := h.relay s1 (.sendHead (.error err)) h1 rfl
    refine .perform hadm fun answer s2 hr => ?_
    obtain ⟨hadm,hres⟩ := h.relay s2 .dropChunkTx (hres answer s2 hr) rfl
    refine .perform hadm fun answer s3 hr => ?_
    obtain ⟨hadm,hres⟩ := h.drop s3 (hres answer s3 hr)
    exact .ask hadm fun answer s4 hr => hres answer s4 hr
  | ok resp =>
    obtain ⟨hadm,hres⟩ := h.relay s1 (.sendHead (.ok resp.head)) h1 rfl
    refine .perform hadm fun taken s2 hr => ?_
    have h2 := hres taken s2 hr
    split
    · exact h.items resp.body true h2
    · obtain ⟨hadm,hres⟩ := h.relay s2 .dropChunkTx h2 rfl
      exact .perform hadm fun answer s3 hr => h.items resp.body false (hres answer s3 hr)

end AivyxBroker.Forward
