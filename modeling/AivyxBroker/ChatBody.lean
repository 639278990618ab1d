import AivyxBroker.Forward

/-!
# What is sent to llama-server for a chat request

The handler takes the hint out of the request body, and the forwarding task
pins the rest to the admitted slot. Objects are compared as maps, field by
field. What holds of every operation the task may perform holds of every
request that any run of it sends.
-/

namespace AivyxBroker.Forward

open Scheduler

/-- `sent` is the client's body, pinned to the slot: an object loses its hint
and gets the slot's id, anything else is untouched. -/
structure Pinned (body : Json) (slotId : ℕ) (sent : Json) : Prop where
  /-- Only two fields of an object differ. -/
  object : body.isObject=true → sent.isObject=true ∧ ∀ key,sent.get key=
    if key="id_slot" then some (slotNumber slotId)
    else if key="aivyx_slot_hint" then none else body.get key
  /-- Other bodies are sent as they came. -/
  other : body.isObject=false → sent=body

/-- A message with the system role. -/
def IsSystem (message : Json) : Prop := (message.get "role").bind Json.asStr=some "system"

/-- The system message of a warm-up: the first message of the request with
the system role, or an empty one if there is none. -/
def SystemPrefix (body message : Json) : Prop :=
  (∃ before after,(body.get "messages").bind Json.asArray=some (before++message::after) ∧
    IsSystem message ∧ ∀ m∈before,¬IsSystem m) ∨
  (∀ messages,(body.get "messages").bind Json.asArray=some messages →
    ∀ m∈messages,¬IsSystem m) ∧
    message=.object [("role",.string "system"),("content",.string "")]

/-- `sent` is a warm-up of the slot for the client's body. -/
structure WarmsUp (body : Json) (slotId : ℕ) (sent : Json) : Prop where
  /-- It goes to the same slot. -/
  slot : sent.get "id_slot"=some (slotNumber slotId)
  /-- It has the client's tools, if any. -/
  tools : sent.get "tools"=body.get "tools"
  /-- The system message and an empty user turn. -/
  messages : ∃ message,SystemPrefix body message ∧ sent.get "messages"=some (.array [message,
    .object [("role",.string "user"),("content",.string "")]])
  /-- The client's model, if it is a string. -/
  model : sent.get "model"=((body.get "model").bind Json.asStr).map Json.string
  /-- One token is to be generated. -/
  maxTokens : sent.get "max_tokens"=some (.number (.posInt 1))
  /-- Nothing else is sent. -/
  others : ∀ key,key∉["id_slot","tools","messages","model","max_tokens"] → sent.get key=none

/-- A slot id is a 32-bit number and reads back from JSON as itself. -/
theorem slotNumber_asU64 {slotId : ℕ} (h : slotId<2^32) :
    (slotNumber slotId).asU64=some slotId := by
  have hlt : slotId<2^64 := Nat.lt_trans h (by decide)
  simp only [slotNumber,Json.asU64,UInt64.toNat_ofNat',Nat.mod_eq_of_lt hlt]

/-- The system message found is the one described. -/
theorem systemMessage_prefix (body : Json) : SystemPrefix body (systemMessage body) := by
  unfold systemMessage
  cases hm : (body.get "messages").bind Json.asArray with
  | none =>
    refine .inr ⟨fun messages h => ?_,rfl⟩
    rw [hm] at h
    cases h
  | some messages =>
    simp only [Option.bind_some]
    cases hf : messages.find? fun m => (m.get "role").bind Json.asStr==some "system" with
    | none =>
      refine .inr ⟨fun messages' h m hmem hsys => ?_,rfl⟩
      obtain rfl := Option.some.inj (hm.symm.trans h)
      have := List.find?_eq_none.mp hf m hmem
      exact this (by simpa [IsSystem] using hsys)
    | some message =>
      obtain ⟨hsys,before,after,rfl,hbefore⟩ := List.find?_eq_some_iff_append.mp hf
      refine .inl ⟨before,after,hm,by simpa [IsSystem] using hsys,fun m hmem hm' => ?_⟩
      have := hbefore m hmem
      simp [show (m.get "role").bind Json.asStr=some "system" from hm'] at this

/-- The fields of a warm-up body. -/
theorem warmUpBody_get (body : Json) (hint : SlotHint) (slotId : ℕ) (key : String) :
    (warmUpBody body hint slotId).get key=
      if key="model" then hint.model.map Json.string
      else if key="tools" then body.get "tools"
      else if key="messages" then some (.array [systemMessage body,
        .object [("role",.string "user"),("content",.string "")]])
      else if key="max_tokens" then some (.number (.posInt 1))
      else if key="id_slot" then some (slotNumber slotId) else none := by
  have hbase : ∀ k,(Json.object [
      ("messages",.array [systemMessage body,
        .object [("role",.string "user"),("content",.string "")]]),
      ("max_tokens",.number (.posInt 1)),("id_slot",slotNumber slotId)]).get k=
      if k="messages" then some (.array [systemMessage body,
        .object [("role",.string "user"),("content",.string "")]])
      else if k="max_tokens" then some (.number (.posInt 1))
      else if k="id_slot" then some (slotNumber slotId) else none := by
    intro k
    simp only [Json.get,List.lookup_cons,List.lookup_nil,beq_eq_decide]
    split_ifs <;> simp_all
  unfold warmUpBody
  cases ht : body.get "tools" with
  | none =>
    cases hm : hint.model with
    | none =>
      simp only [hbase,Option.map_none]
      split_ifs <;> simp_all
    | some model =>
      dsimp only
      rw [Json.get_insert (Json.isObject_object _)]
      simp only [hbase,Option.map_some]
      split_ifs <;> simp_all
  | some tools =>
    cases hm : hint.model with
    | none =>
      dsimp only
      rw [Json.get_insert (Json.isObject_object _)]
      simp only [hbase,Option.map_none]
      split_ifs <;> simp_all
    | some model =>
      dsimp only
      rw [Json.get_insert ((Json.isObject_insert _ _ _).trans (Json.isObject_object _)),
        Json.get_insert (Json.isObject_object _)]
      simp only [hbase,Option.map_some]

/-- The handler's hint is the one under its field, for the request's model. -/
theorem parseChat_hint (body : Json) : (parseChat body).1=
    ((body.get "aivyx_slot_hint").bind SlotHint.fromValue).map fun hint =>
      {hint with model := (body.get "model").bind Json.asStr} := by
  rw [←(Json.get_remove "aivyx_slot_hint" "" body).1]
  rfl

/-- The body that is forwarded lacks the hint only. -/
theorem parseChat_get (body : Json) (key : String) : (parseChat body).2.get key=
    if key="aivyx_slot_hint" then none else body.get key :=
  (Json.get_remove "aivyx_slot_hint" key body).2

/-- The body that is forwarded is an object if the client's is. -/
theorem parseChat_isObject (body : Json) : (parseChat body).2.isObject=body.isObject :=
  Json.isObject_remove _ _

/-- Without a well-formed hint, the request is the one without the field. -/
theorem parseChat_malformed {body : Json}
    (h : (body.get "aivyx_slot_hint").bind SlotHint.fromValue=none) :
    (parseChat body).1=none ∧ parseChat (body.remove "aivyx_slot_hint").2=parseChat body := by
  have hnone : (parseChat body).1=none := by rw [parseChat_hint,h]; rfl
  refine ⟨hnone,Prod.ext ?_ ?_⟩
  · have hget : (body.remove "aivyx_slot_hint").2.get "aivyx_slot_hint"=none := by
      simp [(Json.get_remove ..).2]
    rw [hnone,parseChat_hint,hget]
    rfl
  · show ((body.remove "aivyx_slot_hint").2.remove "aivyx_slot_hint").2=
      (body.remove "aivyx_slot_hint").2
    cases body with
    | object fields => simp [Json.remove]
    | null | bool | number | string | array => rfl

/-- A body that is no object has no hint and is left alone. -/
theorem parseChat_other {body : Json} (h : body.isObject=false) : parseChat body=(none,body) := by
  cases body with
  | object fields => cases h
  | null | bool | number | string | array => rfl

/-- The forwarded request is the client's, pinned. -/
theorem parseChat_pinned (body : Json) (slotId : ℕ) :
    Pinned body slotId ((parseChat body).2.insert "id_slot" (slotNumber slotId)) := by
  constructor
  · intro hobj
    have hobj' := (parseChat_isObject body).trans hobj
    refine ⟨(Json.isObject_insert _ _ _).trans hobj',fun key => ?_⟩
    rw [Json.get_insert hobj',parseChat_get]
  · intro hobj
    rw [parseChat_other hobj]
    cases body with
    | object fields => cases hobj
    | null | bool | number | string | array => rfl

/-- A warm-up is for the client's request. -/
theorem parseChat_warmsUp {body : Json} {hint : SlotHint} (slotId : ℕ)
    (h : (parseChat body).1=some hint) :
    body.isObject=true ∧ WarmsUp body slotId (warmUpBody (parseChat body).2 hint slotId) := by
  have hobj : body.isObject=true := by
    by_contra hno
    rw [parseChat_other (Bool.eq_false_iff.mpr hno)] at h
    cases h
  have hmodel : hint.model=(body.get "model").bind Json.asStr := by
    rw [parseChat_hint] at h
    obtain ⟨_,_,rfl⟩ := Option.map_eq_some_iff.mp h
    rfl
  have hmessages : (parseChat body).2.get "messages"=body.get "messages" := by
    simp [parseChat_get]
  have htools : (parseChat body).2.get "tools"=body.get "tools" := by
    simp [parseChat_get]
  have hsystem : SystemPrefix body (systemMessage (parseChat body).2) := by
    have := systemMessage_prefix (parseChat body).2
    rwa [SystemPrefix,hmessages] at this
  refine ⟨hobj,?_,?_,⟨_,hsystem,?_⟩,?_,?_,fun key hkey => ?_⟩
  · simp [warmUpBody_get]
  · simp [warmUpBody_get,htools]
  · simp [warmUpBody_get]
  · simp [warmUpBody_get,hmodel]
  · simp [warmUpBody_get]
  · simp only [List.mem_cons,List.not_mem_nil,or_false,not_or] at hkey
    simp [warmUpBody_get,hkey]

/-- What is sent for a chat request, over every run of its task, whatever its
body, its hint and the admission: the forwarded request is the client's own,
pinned to the admitted slot, and a warm-up is for the client's prefix on the
same slot. A malformed hint makes the request the one without the field, and
a body that is no object has no hint. -/
theorem chat_pinned {llamaServerUrl : String} {body : Json} {admission : Admission}
    {trace : List (Program.Performed Ans)} {left : Forwarding Unit}
    (h : Program.Runs (forward llamaServerUrl (parseChat body).2 (parseChat body).1 admission)
      trace left) :
    (∀ p∈trace,∀ target sent,p.1=.post .forwarded target sent →
      Pinned body admission.slotId sent) ∧
    (∀ p∈trace,∀ target sent,p.1=.post .warmUp target sent →
      body.isObject=true ∧ WarmsUp body admission.slotId sent) ∧
    (admission.slotId<2^32 → (slotNumber admission.slotId).asU64=some admission.slotId) ∧
    ((body.get "aivyx_slot_hint").bind SlotHint.fromValue=none →
      (parseChat body).1=none ∧ parseChat (body.remove "aivyx_slot_hint").2=parseChat body) ∧
    (body.isObject=false → parseChat body=(none,body)) := by
  have hops : ∀ p∈trace,UpstreamOp llamaServerUrl (parseChat body).2 (parseChat body).1
      admission.slotId p.1 ∨ p.1.relays=true ∨ p.1=.dropGuard admission.slotId := by
    rw [forward_eq] at h
    have hup := (sendUpstream_every llamaServerUrl (parseChat body).2 (parseChat body).1
      admission).mono fun op hop => Or.inl (b := op.relays=true ∨ op=.dropGuard admission.slotId) hop
    exact (h.every (hup.bind fun outcome =>
      (afterUpstream_every admission.slotId outcome).mono fun _ => .inr)).2
  refine ⟨fun p hp target sent he => ?_,fun p hp target sent he => ?_,slotNumber_asU64,
    parseChat_malformed,parseChat_other⟩
  · have hop := hops p hp
    rw [he] at hop
    rcases hop with hop | hop | hop
    · cases hop with
      | forwarded => exact parseChat_pinned body admission.slotId
    · cases hop
    · cases hop
  · have hop := hops p hp
    rw [he] at hop
    rcases hop with hop | hop | hop
    · cases hop with
      | warmUp hint hh => exact parseChat_warmsUp admission.slotId hh
    · cases hop
    · cases hop

/-- A hinted request to slot 3 whose prefix is not saved: the warm-up that is
sent is for that request. -/
theorem chat_pinned_warming : ∃ sent,WarmsUp (.object [("model",.string "m"),
    ("aivyx_slot_hint",.object [("prefix_hash",.string "p")])]) 3 sent := by
  have h : Program.Runs (forward "http://127.0.0.1:8080" (parseChat (.object [("model",.string "m"),
      ("aivyx_slot_hint",.object [("prefix_hash",.string "p")])])).2 (parseChat (.object
      [("model",.string "m"),("aivyx_slot_hint",.object [("prefix_hash",.string "p")])])).1
      ⟨3,false⟩) ([]++[⟨.restoreIntoSlot ⟨"aivyx-broker","m","aivyx-broker","p"⟩ 3,.ok false⟩]++
        [⟨.post .warmUp "http://127.0.0.1:8080/v1/chat/completions" (warmUpBody (.object
          [("model",.string "m")]) ⟨"p",none,some "m"⟩ 3),.error "timed out"⟩]) _ :=
    .next _ (.next _ .start)
  exact ⟨_,((chat_pinned h).2.1 _ (.tail _ (.head _)) _ _ rfl).2⟩

end AivyxBroker.Forward
