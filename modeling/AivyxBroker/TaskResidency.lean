import AivyxBroker.Broker

/-!
# What a forwarding task does to its slot

The residency table is written at one point of a request's preparation, while
the slot itself changes at several. A task is safe if, under what the
surroundings may do to its slot, it drops its guard only with table and slot
in agreement. Three things would break that: a failed warm-up that overwrote
the slot, since its early return leaves the old record in place, a warm-up
that is neither answered with an error status nor did its work, and a restored
state that a request with another model value saved under the same key. The
condition on the operations excludes them.
-/

namespace AivyxBroker.Broker

open Scheduler Forward Program RunInvariant WakeSignal

/-- What the occupancy table records of a slot. -/
def recorded (inner : Inner) (slotId : ℕ) : Content :=
  inner.slots[slotId]?.bind fun slot =>
    slot.residentPrefix.map fun prefixHash => (slot.residentModel,prefixHash)

/-- A record is right about a content if it names nothing else. -/
def Agrees (record content : Content) : Prop := ∀ x∈record,content=some x

instance (record content : Content) : Decidable (Agrees record content) :=
  inferInstanceAs (Decidable (∀ x∈record,content=some x))

/-- The part of the system that one task relies on. -/
structure Local where
  /-- The guard is not dropped. -/
  held : Bool
  /-- The record of its slot. -/
  record : Content
  /-- What its slot holds. -/
  content : Content

/-- What is demanded of a task for a slot, and what its operations may do. -/
def jobRule (hint : Option SlotHint) (slotId : ℕ) : Rule Op Ans Local where
  admits l op := match op with
    | .restoreIntoSlot key s => l.held=true ∧ s=slotId ∧ hint.map cacheKey=some key
    | .post .. => l.held=true
    | .saveFromSlot key s _ => l.held=true ∧ s=slotId ∧ hint.map cacheKey=some key ∧
      l.content=hint.bind ownContent
    | .markResident s _ _ => l.held=true ∧ s=slotId
    | .clearResident s => l.held=true ∧ s=slotId
    | .dropGuard s => l.held=true ∧ s=slotId ∧ Agrees l.record l.content
    | _ => True
  result l op answer l' := match op,answer with
    | .restoreIntoSlot _ _,.ok true => l'={l with content := hint.bind ownContent}
    | .restoreIntoSlot _ _,.ok false => l'=l
    | .restoreIntoSlot _ _,.error _ => ∃ c,l'={l with content := c}
    | .post .warmUp _ _,answer => ∃ c,l'={l with content := c} ∧
      match Except.bind answer Response.errorForStatus with
      | .ok _ => c=hint.bind ownContent
      | .error _ => Agrees l.record c
    | .post .forwarded _ _,_ => ∃ c,l'={l with content := c} ∧
      ∀ h,hint=some h → c=l.content ∨ c=ownContent h
    | .markResident _ model prefixHash,_ => l'={l with record := some (model,prefixHash)}
    | .clearResident _,_ => l'={l with record := none}
    | .dropGuard _,_ => l'.held=false
    | _,_ => l'=l

/-- What a completed task leaves: its guard is dropped. -/
def Over (_ : Unit) (l : Local) : Prop := l.held=false

/-- The slot is held and its record is right. -/
def Kept (l : Local) : Prop := l.held=true ∧ Agrees l.record l.content

/-- The slot is ready for the forwarded request: it holds the request's own
prefix, or nothing is recorded. -/
structure Ready (hint : Option SlotHint) (l : Local) : Prop where
  /-- The record is right. -/
  kept : Kept l
  /-- A hinted request finds its own prefix. -/
  own : ∀ h,hint=some h → l.content=ownContent h
  /-- A hint-less one finds nothing recorded. -/
  cleared : hint=none → l.record=none

variable {hint : Option SlotHint} {slotId : ℕ} {l : Local}

/-- The slot after its preparation: ready, or given up with its record right. -/
def PreparedSlot (hint : Option SlotHint) : Except Error Unit → Local → Prop
  | .ok (),l => Ready hint l
  | .error _,l => Kept l

/-- The slot after the attempts to fill it, before the record is written. -/
def Warmed (h : SlotHint) : Except Error Unit → Local → Prop
  | .ok (),l => l.held=true ∧ l.content=ownContent h
  | .error _,l => Kept l

/-- A warm-up that succeeds leaves the request's own prefix; one that fails
leaves the record right. -/
theorem warmUp_resident (llamaServerUrl : String) (body : Json) (h : SlotHint)
    (hheld : l.held=true) :
    (warmUp llamaServerUrl body h slotId).Safe (jobRule (some h) slotId) l (Warmed h) := by
  refine .perform hheld ?_
  rintro answer _ ⟨c,rfl,hc⟩
  cases hstatus : Except.bind answer Response.errorForStatus with
  | error err =>
    rw [hstatus] at hc
    exact ⟨hheld,hc⟩
  | ok resp =>
    rw [hstatus] at hc
    refine .perform ⟨hheld,rfl,rfl,hc⟩ ?_
    rintro result _ rfl
    exact ⟨hheld,hc⟩

/-- Restoring or warming up leaves the slot ready, or its record right. -/
theorem warmOrRestore_resident (llamaServerUrl : String) (body : Json) (h : SlotHint)
    (hheld : l.held=true) :
    (warmOrRestore llamaServerUrl body h slotId).Safe (jobRule (some h) slotId) l
      (PreparedSlot (some h)) := by
  refine .perform ⟨hheld,rfl,rfl⟩ ?_
  intro answer l' hr
  have hwarming : ∀ restored : Bool,l'.held=true → (restored=true → l'.content=ownContent h) →
      (if restored=true then pure (.ok ())
        else warmUp llamaServerUrl body h slotId : Forwarding (Except Error Unit)).Safe
          (jobRule (some h) slotId) l' (Warmed h) := by
    intro restored hheld hown
    cases restored with
    | false => exact warmUp_resident llamaServerUrl body h hheld
    | true => exact ⟨hheld,hown rfl⟩
  have hanswer : l'.held=true ∧ (answer=.ok true → l'.content=ownContent h) := by
    cases (answer : Except Error Bool) with
    | error err =>
      obtain ⟨c,rfl⟩ := hr
      exact ⟨hheld,nofun⟩
    | ok restored =>
      cases restored with
      | false =>
        cases hr
        exact ⟨hheld,nofun⟩
      | true =>
        cases hr
        exact ⟨hheld,fun _ => rfl⟩
  refine Safe.bind (hwarming _ hanswer.1 fun ht => hanswer.2 ?_) fun warmed l'' hw => ?_
  · cases (answer : Except Error Bool) with
    | error err => cases ht
    | ok restored => exact congrArg Except.ok ht
  · cases warmed with
    | error err => exact hw
    | ok =>
      refine .perform ⟨hw.1,rfl⟩ ?_
      rintro marked _ rfl
      exact ⟨⟨hw.1,fun x hx => hw.2.trans hx⟩,fun h' hh => by cases hh; exact hw.2,nofun⟩

/-- Preparing an admitted slot leaves it ready, or its record right, if the
admission told the truth. -/
theorem prepareSlot_resident (llamaServerUrl : String) (body : Json) (admission : Admission)
    (h : Kept l)
    (hready : ∀ h,hint=some h → admission.cacheReady=true → l.content=ownContent h) :
    (prepareSlot llamaServerUrl body hint admission).Safe (jobRule hint admission.slotId) l
      (PreparedSlot hint) := by
  cases hint with
  | none =>
    refine .perform ⟨h.1,rfl⟩ ?_
    rintro cleared _ rfl
    exact ⟨⟨h.1,fun _ he => (by cases he)⟩,fun _ he => (by cases he),fun _ => rfl⟩
  | some hint =>
    simp only [prepareSlot]
    split
    · rename_i hc
      exact ⟨h,fun h' hh => by cases hh; exact hready hint rfl hc,fun he => (by cases he)⟩
    · exact warmOrRestore_resident llamaServerUrl body hint h.1

/-- The forwarded request keeps the record right: a hinted one leaves the
prefix that is recorded, a hint-less one comes after the record was cleared. -/
theorem sendUpstream_resident (llamaServerUrl : String) (body : Json) (admission : Admission)
    (h : Kept l)
    (hready : ∀ h,hint=some h → admission.cacheReady=true → l.content=ownContent h) :
    (sendUpstream llamaServerUrl body hint admission).Safe (jobRule hint admission.slotId) l
      fun _ => Kept := by
  refine .bind (prepareSlot_resident llamaServerUrl body admission h hready) fun prepared l h => ?_
  cases prepared with
  | error err => exact h
  | ok =>
    refine .ask h.kept.1 ?_
    rintro answer _ ⟨c,rfl,hc⟩
    refine ⟨h.kept.1,?_⟩
    cases hint with
    | none =>
      intro x hx
      rw [show l.record=none from h.cleared rfl] at hx
      cases hx
    | some hint =>
      have hown : c=l.content := by
        rcases hc hint rfl with hc | hc
        · exact hc
        · exact hc.trans (h.own hint rfl).symm
      exact fun x hx => hown.trans (h.kept.2 x hx)

/-- Relaying the response does not concern the slot, and the guard may be
dropped whenever the record is right. -/
theorem jobRule_relayable : Relayable (jobRule hint slotId) slotId Kept (Over ()) where
  relay l op h hop := by
    cases op with
    | sendHead | nextChunk | sendChunk | storeAbandoned | dropChunkTx =>
      exact ⟨trivial,fun _ _ hr => hr ▸ h⟩
    | restoreIntoSlot | post | saveFromSlot | markResident | clearResident | dropGuard => cases hop
  drop l h := ⟨⟨h.1,rfl,h.2⟩,fun _ _ hr => hr⟩
  close l h := ⟨trivial,fun _ _ hr => hr ▸ h⟩

/-- A forwarding task for a slot whose record is right, admitted truthfully,
drops its guard with the record right. -/
theorem forward_resident (llamaServerUrl : String) (body : Json) (admission : Admission)
    (h : Kept l)
    (hready : ∀ h,hint=some h → admission.cacheReady=true → l.content=ownContent h) :
    (forward llamaServerUrl body hint admission).Safe (jobRule hint admission.slotId) l Over :=
  jobRule_relayable.forward (sendUpstream_resident llamaServerUrl body admission h hready)

/-- The condition on an operation and its answer. A failed warm-up leaves
what is recorded; one answered with neither a 2xx nor an error status leaves
the request's own prefix; a restored state was saved for the same model. -/
def OpKeeps (hint : Option SlotHint) (store : CacheKey → Option Entry) (record : Content) :
    Op → Reply → Prop
  | .restoreIntoSlot key _,.restored (.ok true) _ =>
    ∀ entry∈store key,entry.model=hint.bind SlotHint.model
  | .post .warmUp _ _,.posted (.ok resp) after =>
    match resp.errorForStatus with
    | .ok _ => Response.isSuccess resp=true ∨ after=hint.bind ownContent
    | .error _ => Agrees record after
  | .post .warmUp _ _,.posted (.error _) after => Agrees record after
  | _,_ => True

instance (hint : Option SlotHint) (store : CacheKey → Option Entry) (record : Content) (op : Op)
    (reply : Reply) : Decidable (OpKeeps hint store record op reply) := by
  unfold OpKeeps
  split
  · infer_instance
  · split <;> infer_instance
  · infer_instance
  · infer_instance

/-- Saved states hold the prefix of their key, for the model of their saver. -/
def Saved (store : CacheKey → Option Entry) : Prop :=
  ∀ key entry,store key=some entry → entry.content=some (entry.model,key.prefixHash)

/-- The local state after an operation that leaves `after` in the slot. -/
def Local.after (l : Local) (after : Content) : Op → Local
  | .markResident _ model prefixHash => ⟨l.held,some (model,prefixHash),after⟩
  | .clearResident _ => ⟨l.held,none,after⟩
  | .dropGuard _ => ⟨false,l.record,after⟩
  | _ => ⟨l.held,l.record,after⟩

/-- A restored state is the request's own, if it was saved for its model. -/
theorem restored_own {store : CacheKey → Option Entry} {key : CacheKey} {entry : Entry}
    (hstore : Saved store) (hkey : hint.map cacheKey=some key) (he : store key=some entry)
    (hmodel : entry.model=hint.bind SlotHint.model) : entry.content=hint.bind ownContent := by
  obtain ⟨h,rfl,rfl⟩ := Option.map_eq_some_iff.mp hkey
  rw [hstore _ _ he,hmodel]
  rfl

/-- A 2xx status is no error. -/
theorem errorForStatus_success {resp : Response} (h : Response.isSuccess resp=true) :
    resp.errorForStatus=.ok resp := by
  simp only [Response.isSuccess,Bool.and_eq_true,decide_eq_true_eq] at h
  exact if_neg (by omega)

/-- An operation that meets the condition does what the rule says. -/
theorem touch_result {store : CacheKey → Option Entry} {op : Op} {reply : Reply} {answer : Ans op}
    {after : Content} (hstore : Saved store) (hadm : (jobRule hint slotId).admits l op)
    (hkeeps : OpKeeps hint store l.record op reply)
    (htouch : touch hint store l.content op reply=some (answer,after)) :
    (jobRule hint slotId).result l op answer (l.after after op) := by
  unfold touch at htouch
  split at htouch
  · rename_i key s result x
    split at htouch
    · obtain ⟨entry,he,hr⟩ := Option.map_eq_some_iff.mp htouch
      cases hr
      rw [restored_own hstore hadm.2.2 he (hkeeps entry he)]
      rfl
    · cases htouch
      rfl
    · cases htouch
      exact ⟨_,rfl⟩
  · rename_i url body result x
    split at htouch
    · rename_i resp
      split at htouch
      · rename_i hok
        cases htouch
        refine ⟨_,rfl,?_⟩
        simp only [Except.bind,errorForStatus_success hok]
      · rename_i hno
        cases htouch
        refine ⟨_,rfl,?_⟩
        simp only [OpKeeps] at hkeeps
        simp only [Except.bind]
        cases hstatus : resp.errorForStatus with
        | error err => simpa only [hstatus] using hkeeps
        | ok resp' =>
          rw [hstatus] at hkeeps
          exact hkeeps.resolve_left hno
    · cases htouch
      exact ⟨_,rfl,hkeeps⟩
  · split at htouch
    · rename_i h
      split at htouch
      · rename_i hafter
        cases htouch
        exact ⟨_,rfl,fun h' hh => by cases hh; exact hafter⟩
      · cases htouch
    · cases htouch
      exact ⟨_,rfl,fun h' hh => by cases hh⟩
  all_goals cases htouch <;> rfl

end AivyxBroker.Broker
