import AivyxBroker.WakeSignal

/-!
# The slot scheduler's data and critical sections

Every operation of the scheduler is one critical section of one mutex and is
embedded as a pure function of the data behind it. The lock of a live
`admit` future is never held across an await. Slot ids are `u32` and the
slot count is one too, so both are plain numbers here; the admission clock
wraps at `2^64` as the release build's addition does.
-/

namespace AivyxBroker.Scheduler

open WakeSignal

/-- What a request tells the scheduler about its prompt prefix. -/
structure SlotHint where
  /-- Opaque hash of the request's stable prefix. -/
  prefixHash : String
  /-- The slot the client would like, as it last saw it. -/
  preferredSlot : Option ℕ
  /-- The request's model, filled in from the request body. -/
  model : Option String
  deriving DecidableEq

/-- One slot of the occupancy table. -/
structure SlotState where
  /-- Taken by an admission, or seeded busy at startup. -/
  busy : Bool
  /-- The prefix whose KV content the slot is recorded to hold. -/
  residentPrefix : Option String
  /-- The model that computed it. -/
  residentModel : Option String
  /-- Seeded busy at startup and not claimed by an admission since. -/
  seededUnowned : Bool
  /-- Clock value of the most recent admission, zero before the first. -/
  lastUsed : ℕ
  deriving DecidableEq

/-- A slot nobody has used. -/
def SlotState.default : SlotState := ⟨false,none,none,false,0⟩

/-- Whether `slot` holds this hint's prefix, computed by this hint's model. -/
def SlotHint.isResidentIn (h : SlotHint) (slot : SlotState) : Bool :=
  slot.residentPrefix==some h.prefixHash && slot.residentModel==h.model

/-- A successful admission. -/
structure Admission where
  /-- The slot it claimed. -/
  slotId : ℕ
  /-- The slot already holds the request's prefix. -/
  cacheReady : Bool
  deriving DecidableEq

/-- The data behind the scheduler's mutex. -/
structure Inner where
  /-- The occupancy table; its length never changes. -/
  slots : List SlotState
  /-- Senders waiting for one specific slot, by slot id, oldest first. -/
  slotWaiters : ℕ → Option (List Sender)
  /-- Senders waiting for any free slot, oldest first. -/
  globalWaiters : List Sender
  /-- Counts admissions. -/
  clock : ℕ

/-- A scheduler over `numSlots` unused slots. -/
def Inner.new (numSlots : ℕ) : Inner :=
  ⟨List.replicate numSlots SlotState.default,fun _ => none,[],0⟩

/-- Change one slot of the table, if there is such a slot. -/
def Inner.modifySlot (inner : Inner) (slotId : ℕ) (f : SlotState → SlotState) : Inner :=
  {inner with slots := inner.slots.modify slotId f}

/-- Mark a slot busy that the server reports mid-generation at startup. -/
def seedBusy (inner : Inner) (slotId : ℕ) : Inner :=
  inner.modifySlot slotId fun slot => {slot with busy := true, seededUnowned := true}

/-- Record what a slot now holds. -/
def markResident (inner : Inner) (slotId : ℕ) (model : Option String) (prefixHash : String) :
    Inner :=
  inner.modifySlot slotId fun slot =>
    {slot with residentPrefix := some prefixHash, residentModel := model}

/-- Forget what a slot holds, without touching its occupancy. -/
def clearResident (inner : Inner) (slotId : ℕ) : Inner :=
  inner.modifySlot slotId fun slot => {slot with residentPrefix := none, residentModel := none}

/-- The claimed slot of an admission stamped with the new clock value. -/
def SlotState.claimed (slot : SlotState) (clock : ℕ) : SlotState :=
  {slot with busy := true, seededUnowned := false, lastUsed := clock}

/-- Claim a slot: bump the clock and stamp the slot with it. The source
repeats these four assignments at each of its three admission sites. -/
def Inner.claim (inner : Inner) (slotId : ℕ) : Inner :=
  let clock := (inner.clock+1)%2^64
  {(inner.modifySlot slotId fun slot => slot.claimed clock) with clock := clock}

/-- Whether the hint, if there is one, is resident in a slot of the table. -/
def Inner.holds (inner : Inner) (hint : Option SlotHint) (slotId : ℕ) : Bool :=
  hint.any fun h => inner.slots[slotId]?.any h.isResidentIn

/-- The free slot with the smallest `lastUsed`, the first one on ties. -/
def leastRecentlyUsed (slots : List SlotState) : Option ℕ :=
  ((slots.zipIdx.filter fun entry => !entry.1.busy).minOn? fun entry => entry.1.lastUsed).map
    Prod.snd

/-- Admission without a usable preference: the first free slot holding the
hint's content, else the least recently used free slot. -/
def admitAny (inner : Inner) (hint : Option SlotHint) : Option (Admission×Inner) :=
  match hint.bind fun h => inner.slots.findIdx? fun slot => !slot.busy && h.isResidentIn slot with
  | some idx => some (⟨idx,true⟩,inner.claim idx)
  | none =>
    match leastRecentlyUsed inner.slots with
    | some idx => some (⟨idx,(inner.claim idx).holds hint idx⟩,inner.claim idx)
    | none => none

/-- One admission attempt. A preferred slot within range is taken if free and
otherwise waited for; one out of range counts as no preference. -/
def tryAdmitLocked (inner : Inner) (hint : Option SlotHint) : Option (Admission×Inner) :=
  match hint.bind SlotHint.preferredSlot with
  | some preferred =>
    match inner.slots[preferred]? with
    | some slot =>
      if slot.busy=true then none
      else some (⟨preferred,(inner.claim preferred).holds hint preferred⟩,inner.claim preferred)
    | none => admitAny inner hint
  | none => admitAny inner hint

/-- The preferred slot, dropped when it is out of range. -/
def preference (numSlots : ℕ) (hint : Option SlotHint) : Option ℕ :=
  (hint.bind SlotHint.preferredSlot).filter fun slotId => slotId<numSlots

/-- Queue a fresh sender: on the preferred slot, else on the global queue. -/
def enqueue (inner : Inner) (hint : Option SlotHint) (tx : Sender) : Inner :=
  match preference inner.slots.length hint with
  | some slotId =>
    let queue := (inner.slotWaiters slotId).getD []
    {inner with slotWaiters := Function.update inner.slotWaiters slotId (some (queue++[tx]))}
  | none => {inner with globalWaiters := inner.globalWaiters++[tx]}

/-- One pass of `admit`'s loop under the mutex: admit, or queue `tx`. -/
def admitLocked (inner : Inner) (hint : Option SlotHint) (tx : Sender) :
    Option Admission×Inner :=
  match tryAdmitLocked inner hint with
  | some (admission,inner) => (some admission,inner)
  | none => (none,enqueue inner hint tx)

/-- Wake every waiter of a slot that became free. Unless one of these sends
succeeded, wake every global waiter too. -/
def wakeWaitersFor (inner : Inner) (callers : Callers (Option SlotHint)) (slotId : ℕ) :
    Inner×Callers (Option SlotHint) :=
  match inner.slotWaiters slotId with
  | some queue =>
    let (liveSpecificWaiter,callers) := callers.drain queue
    let inner := {inner with slotWaiters := Function.update inner.slotWaiters slotId (some [])}
    if liveSpecificWaiter=true then (inner,callers)
    else ({inner with globalWaiters := []},callers.sendAll inner.globalWaiters)
  | none => ({inner with globalWaiters := []},callers.sendAll inner.globalWaiters)

/-- Free a slot and wake its waiters; an id out of range is ignored. -/
def release (inner : Inner) (callers : Callers (Option SlotHint)) (slotId : ℕ) :
    Inner×Callers (Option SlotHint) :=
  match inner.slots[slotId]? with
  | some _ =>
    wakeWaitersFor (inner.modifySlot slotId fun slot => {slot with busy := false}) callers slotId
  | none => (inner,callers)

/-- Free a slot seeded at startup that the server now reports idle; a slot
that an admission has claimed since is left alone. -/
def reconcileSeededIdle (inner : Inner) (callers : Callers (Option SlotHint)) (slotId : ℕ) :
    Inner×Callers (Option SlotHint) :=
  match inner.slots[slotId]? with
  | some slot =>
    if slot.seededUnowned=true then
      wakeWaitersFor (inner.modifySlot slotId fun slot => {slot with busy := false}) callers slotId
    else (inner,callers)
  | none => (inner,callers)

/-- A slot of the table that is not busy. -/
def Inner.Free (inner : Inner) (slotId : ℕ) : Prop :=
  ∃ slot,inner.slots[slotId]?=some slot ∧ slot.busy=false

/-- The wait queues by the preference of the callers that use them. -/
def Inner.queue (inner : Inner) : Option ℕ → List Sender
  | some slotId => (inner.slotWaiters slotId).getD []
  | none => inner.globalWaiters

@[simp] theorem modifySlot_slotWaiters (inner : Inner) (slotId : ℕ) (f : SlotState → SlotState) :
    (inner.modifySlot slotId f).slotWaiters=inner.slotWaiters := rfl

@[simp] theorem modifySlot_globalWaiters (inner : Inner) (slotId : ℕ)
    (f : SlotState → SlotState) :
    (inner.modifySlot slotId f).globalWaiters=inner.globalWaiters := rfl

@[simp] theorem modifySlot_length (inner : Inner) (slotId : ℕ) (f : SlotState → SlotState) :
    (inner.modifySlot slotId f).slots.length=inner.slots.length := by
  simp [Inner.modifySlot]

/-- A slot update changes the named slot only. -/
theorem modifySlot_slot (inner : Inner) (slotId s : ℕ) (f : SlotState → SlotState) :
    (inner.modifySlot slotId f).slots[s]?=
      if slotId=s then inner.slots[s]?.map f else inner.slots[s]? := by
  simp only [Inner.modifySlot,List.getElem?_modify]
  split <;> simp_all

@[simp] theorem claim_length (inner : Inner) (slotId : ℕ) :
    (inner.claim slotId).slots.length=inner.slots.length := by
  simp [Inner.claim]

/-- A claim changes the claimed slot only. -/
theorem claim_slot (inner : Inner) (slotId s : ℕ) : (inner.claim slotId).slots[s]?=
    if slotId=s then inner.slots[s]?.map (·.claimed ((inner.clock+1)%2^64))
    else inner.slots[s]? :=
  modifySlot_slot ..

@[simp] theorem claim_queue (inner : Inner) (slotId : ℕ) :
    (inner.claim slotId).queue=inner.queue := rfl

@[simp] theorem claim_slotWaiters (inner : Inner) (slotId : ℕ) :
    (inner.claim slotId).slotWaiters=inner.slotWaiters := rfl

/-- Claiming does not touch residency. -/
@[simp] theorem isResidentIn_claimed (h : SlotHint) (slot : SlotState) (clock : ℕ) :
    h.isResidentIn (slot.claimed clock)=h.isResidentIn slot := rfl

/-- A claim leaves what every slot is recorded to hold. -/
@[simp] theorem claim_holds (inner : Inner) (hint : Option SlotHint) (slotId s : ℕ) :
    (inner.claim slotId).holds hint s=inner.holds hint s := by
  unfold Inner.holds
  congr 1
  funext h
  rw [claim_slot]
  split
  · cases inner.slots[s]? <;> rfl
  · rfl

/-- A usable preference is a slot of the table. -/
theorem preference_eq_some {n s : ℕ} {hint : Option SlotHint} :
    preference n hint=some s ↔ hint.bind SlotHint.preferredSlot=some s ∧ s<n := by
  simp [preference,Option.filter_eq_some_iff]

/-- The slots free after a claim are the others that were free before. -/
theorem claim_free {inner : Inner} {slotId s : ℕ} :
    (inner.claim slotId).Free s ↔ s≠slotId ∧ inner.Free s := by
  unfold Inner.Free
  rw [claim_slot]
  by_cases hs : slotId=s
  · simp [hs,SlotState.claimed]
  · simp [hs,Ne.symm hs]

/-- The minimum that `minOn?` picks is the first one. -/
theorem minOn?_first {τ : Type*} {f : τ → ℕ} {xs : List τ} {x : τ} (h : xs.minOn? f=some x) :
    ∃ pre post,xs=pre++x::post ∧ (∀ y∈pre,f x<f y) ∧ ∀ y∈post,f x≤f y := by
  induction xs generalizing x with
  | nil => simp at h
  | cons head tail ih =>
    rw [List.minOn?_cons,Option.some.injEq] at h
    cases ht : tail.minOn? f with
    | none =>
      have hnil : tail=[] := by
        by_contra hne
        simpa [ht] using List.isSome_minOn?_iff (f:=f) |>.mpr hne
      subst hnil
      rw [ht] at h
      exact ⟨[],[],by rw [←h]; rfl,by simp,by simp⟩
    | some m =>
      obtain ⟨pre,post,rfl,hpre,hpost⟩ := ih ht
      rw [ht,Option.elim_some] at h
      by_cases hle : f head≤f m
      · rw [minOn_eq_left hle] at h
        subst h
        refine ⟨[],_,rfl,by simp,fun y hy => ?_⟩
        rcases List.mem_append.mp hy with hy | hy
        · exact hle.trans (hpre y hy).le
        · rcases List.mem_cons.mp hy with rfl | hy
          · exact hle
          · exact hle.trans (hpost y hy)
      · rw [minOn_eq_right hle] at h
        subst h
        refine ⟨head::pre,post,rfl,fun y hy => ?_,hpost⟩
        rcases List.mem_cons.mp hy with rfl | hy
        · omega
        · exact hpre y hy

/-- A least recently used slot is free, and no free slot was used longer
ago; among equals it is the lowest-numbered. -/
theorem leastRecentlyUsed_spec {slots : List SlotState} {idx : ℕ}
    (h : leastRecentlyUsed slots=some idx) :
    ∃ slot,slots[idx]?=some slot ∧ slot.busy=false ∧ ∀ s slot',slots[s]?=some slot' →
      slot'.busy=false → slot.lastUsed ≤ slot'.lastUsed ∧
        (slot.lastUsed=slot'.lastUsed → idx ≤ s) := by
  obtain ⟨⟨slot,i⟩,hmin,rfl⟩ := Option.map_eq_some_iff.mp h
  obtain ⟨pre,post,hsplit,hpre,hpost⟩ := minOn?_first hmin
  have hmem : ∀ s slot',(slot',s)∈pre++(slot,i)::post ↔
      slots[s]?=some slot' ∧ slot'.busy=false := by
    intro s slot'
    rw [←hsplit,List.mem_filter,List.mem_zipIdx_iff_getElem?]
    simp
  have hord : (pre++(slot,i)::post).Pairwise fun a b => a.2<b.2 := by
    rw [←hsplit]
    refine List.Pairwise.filter _ (List.pairwise_map.mp ?_)
    rw [List.zipIdx_map_snd]
    exact List.pairwise_lt_range'
  obtain ⟨hs,hb⟩ := (hmem i slot).mp (by simp)
  refine ⟨slot,hs,hb,fun s slot' hs' hb' => ?_⟩
  have hin := (hmem s slot').mpr ⟨hs',hb'⟩
  rcases List.mem_append.mp hin with hin | hin
  · have hlt := hpre _ hin
    exact ⟨hlt.le,fun he => absurd he hlt.ne⟩
  · rcases List.mem_cons.mp hin with he | hin
    · cases he
      exact ⟨le_rfl,fun _ => le_rfl⟩
    · exact ⟨hpost _ hin,fun _ =>
        ((List.pairwise_cons.mp (List.pairwise_append.mp hord).2.1).1 _ hin).le⟩

/-- The free slot an admission without usable preference chooses: the first
one holding the hint's content if there is any, else the one used longest ago,
the first on ties. -/
structure Inner.RanksFirst (inner : Inner) (hint : Option SlotHint) (s : ℕ) : Prop where
  /-- It is free. -/
  free : inner.Free s
  /-- A free slot with the hint's content goes before all others. -/
  resident : ∀ t,inner.Free t → inner.holds hint t=true → inner.holds hint s=true ∧ s≤t
  /-- Otherwise the smallest `lastUsed` does. -/
  oldest : (∀ t,inner.Free t → inner.holds hint t=false) →
    ∀ slot t slot',inner.slots[s]?=some slot → inner.slots[t]?=some slot' → slot'.busy=false →
      slot.lastUsed ≤ slot'.lastUsed ∧ (slot.lastUsed=slot'.lastUsed → s≤t)

/-- At most one slot ranks first. -/
theorem Inner.RanksFirst.unique {inner : Inner} {hint : Option SlotHint} {s t : ℕ}
    (hs : inner.RanksFirst hint s) (ht : inner.RanksFirst hint t) : s=t := by
  by_cases hr : ∃ u,inner.Free u ∧ inner.holds hint u=true
  · obtain ⟨u,hu,hhu⟩ := hr
    have hst := (hs.resident t ht.free (ht.resident u hu hhu).1).2
    have hts := (ht.resident s hs.free (hs.resident u hu hhu).1).2
    exact hst.antisymm hts
  · have hno : ∀ u,inner.Free u → inner.holds hint u=false := by
      intro u hu
      cases hh : inner.holds hint u with
      | false => rfl
      | true => exact absurd ⟨u,hu,hh⟩ hr
    obtain ⟨slot,hslot,hb⟩ := hs.free
    obtain ⟨slot',hslot',hb'⟩ := ht.free
    have hst := hs.oldest hno slot t slot' hslot hslot' hb'
    have hts := ht.oldest hno slot' s slot hslot' hslot hb
    have he : slot.lastUsed=slot'.lastUsed := hst.1.antisymm hts.1
    exact (hst.2 he).antisymm (hts.2 he.symm)

/-- What the resident tier finds: the lowest-numbered free slot holding the
hint's content. -/
theorem findResident_iff {inner : Inner} {hint : Option SlotHint} {idx : ℕ} :
    (hint.bind fun h => inner.slots.findIdx? fun slot => !slot.busy && h.isResidentIn slot)=
      some idx ↔ inner.Free idx ∧ inner.holds hint idx=true ∧
        ∀ t,inner.Free t → inner.holds hint t=true → idx≤t := by
  cases hint with
  | none => simp [Inner.holds]
  | some h =>
    rw [Option.bind_some,List.findIdx?_eq_some_iff_getElem]
    simp only [Inner.Free,Inner.holds,Option.any_some,Bool.and_eq_true,Bool.not_eq_true']
    constructor
    · rintro ⟨hlt,⟨hb,hr⟩,hfirst⟩
      refine ⟨⟨_,List.getElem?_eq_getElem hlt,hb⟩,by simp [hlt,hr],?_⟩
      rintro t ⟨slot,ht,htb⟩ hh
      by_contra hlt'
      obtain ⟨htl,rfl⟩ := List.getElem?_eq_some_iff.mp ht
      rw [ht,Option.any_some] at hh
      exact hfirst t (by omega) ⟨htb,hh⟩
    · rintro ⟨⟨slot,hs,hb⟩,hr,hfirst⟩
      obtain ⟨hlt,rfl⟩ := List.getElem?_eq_some_iff.mp hs
      rw [hs,Option.any_some] at hr
      refine ⟨hlt,⟨hb,hr⟩,fun t htl ⟨htb,hh⟩ => ?_⟩
      have ht := List.getElem?_eq_getElem (l:=inner.slots) (i:=t) (by omega)
      have hle := hfirst t ⟨_,ht,htb⟩ (by rw [ht,Option.any_some]; exact hh)
      omega

/-- The resident tier finds nothing exactly if no free slot holds the hint's
content. -/
theorem findResident_none_iff {inner : Inner} {hint : Option SlotHint} :
    (hint.bind fun h => inner.slots.findIdx? fun slot => !slot.busy && h.isResidentIn slot)=none ↔
      ∀ t,inner.Free t → inner.holds hint t=false := by
  cases hint with
  | none => simp [Inner.holds]
  | some h =>
    rw [Option.bind_some,List.findIdx?_eq_none_iff]
    simp only [Inner.Free,Inner.holds,Option.any_some,Bool.and_eq_false_iff,Bool.not_eq_false']
    constructor
    · rintro hall t ⟨slot,ht,hb⟩
      have hs := hall slot (List.mem_of_getElem? ht)
      rw [ht,Option.any_some]
      simpa only [hb,Bool.false_eq_true,false_or] using hs
    · intro hno slot hm
      obtain ⟨t,ht⟩ := List.mem_iff_getElem?.mp hm
      cases hb : slot.busy with
      | true => exact .inl rfl
      | false =>
        have hh := hno t ⟨slot,ht,hb⟩
        rw [ht,Option.any_some] at hh
        exact .inr hh

/-- Admission without preference claims the slot ranking first and tells
truly whether it holds the hint's content. -/
theorem admitAny_some {inner inner' : Inner} {hint : Option SlotHint} {a : Admission}
    (h : admitAny inner hint=some (a,inner')) : inner.RanksFirst hint a.slotId ∧
      a.cacheReady=inner.holds hint a.slotId ∧ inner'=inner.claim a.slotId := by
  unfold admitAny at h
  split at h
  · rename_i idx hfind
    cases h
    obtain ⟨hf,hh,hfirst⟩ := findResident_iff.mp hfind
    refine ⟨⟨hf,fun t ht hht => ⟨hh,hfirst t ht hht⟩,fun hno => ?_⟩,hh.symm,rfl⟩
    rw [hno _ hf] at hh
    cases hh
  · rename_i hfind
    have hno := findResident_none_iff.mp hfind
    split at h
    · rename_i idx hlru
      cases h
      obtain ⟨slot,hs,hb,hmin⟩ := leastRecentlyUsed_spec hlru
      refine ⟨⟨⟨slot,hs,hb⟩,fun t ht hht => ?_,fun _ slot' t slot'' hs' ht hb' => ?_⟩,
        claim_holds ..,rfl⟩
      · rw [hno t ht] at hht
        cases hht
      · cases hs.symm.trans hs'
        exact hmin t slot'' ht hb'
    · cases h

/-- Admission without preference fails only if every slot is busy. -/
theorem admitAny_none_iff {inner : Inner} {hint : Option SlotHint} :
    admitAny inner hint=none ↔ ∀ s,¬inner.Free s := by
  constructor
  · rintro h s ⟨slot,hs,hb⟩
    unfold admitAny at h
    split at h
    · cases h
    · split at h
      · cases h
      · rename_i hlru
        have hmem : (slot,s)∈inner.slots.zipIdx.filter fun entry => !entry.1.busy := by
          rw [List.mem_filter,List.mem_zipIdx_iff_getElem?]
          exact ⟨hs,by simp [hb]⟩
        have hsome := List.isSome_minOn?_of_mem (f:=fun entry => entry.1.lastUsed) hmem
        rw [Option.map_eq_none_iff.mp hlru] at hsome
        cases hsome
  · intro hno
    cases h : admitAny inner hint with
    | none => rfl
    | some r => exact absurd (admitAny_some h).1.free (hno _)

/-- The range filter of the admission attempt is the one that picks the wait
queue: an attempt depends on the hint's preference only as filtered. -/
theorem tryAdmitLocked_eq (inner : Inner) (hint : Option SlotHint) :
    tryAdmitLocked inner hint=
      match preference inner.slots.length hint with
      | some p => if (inner.slots[p]?.any SlotState.busy)=true then none
          else some (⟨p,inner.holds hint p⟩,inner.claim p)
      | none => admitAny inner hint := by
  unfold tryAdmitLocked preference
  cases hint.bind SlotHint.preferredSlot with
  | none => rfl
  | some p =>
    by_cases hp : p < inner.slots.length
    · simp [hp,Option.filter]
    · simp [hp,Option.filter]

/-- Whether a call with this hint may be admitted onto slot `s` at all. -/
def MayTake (numSlots : ℕ) (hint : Option SlotHint) (s : ℕ) : Prop :=
  preference numSlots hint=some s ∨ preference numSlots hint=none

/-- A successful attempt claims a free slot, the preferred one or the one
ranking first, and tells truly whether it holds the hint's content. -/
theorem tryAdmitLocked_some {inner inner' : Inner} {hint : Option SlotHint} {a : Admission}
    (h : tryAdmitLocked inner hint=some (a,inner')) :
    inner.Free a.slotId ∧ inner'=inner.claim a.slotId ∧
      a.cacheReady=inner.holds hint a.slotId ∧
      (preference inner.slots.length hint=some a.slotId ∨
        preference inner.slots.length hint=none ∧ inner.RanksFirst hint a.slotId) := by
  rw [tryAdmitLocked_eq] at h
  split at h
  · rename_i p hp
    split at h
    · cases h
    · rename_i hb
      cases h
      have hlt := (preference_eq_some.mp hp).2
      rw [List.getElem?_eq_getElem hlt,Option.any_some,Bool.not_eq_true] at hb
      exact ⟨⟨_,List.getElem?_eq_getElem hlt,hb⟩,rfl,rfl,.inl hp⟩
  · rename_i hp
    obtain ⟨hr,hc,hi⟩ := admitAny_some h
    exact ⟨hr.free,hi,hc,.inr ⟨hp,hr⟩⟩

/-- An attempt fails exactly if no slot the hint may take is free. -/
theorem tryAdmitLocked_none_iff {inner : Inner} {hint : Option SlotHint} :
    tryAdmitLocked inner hint=none ↔
      ∀ s,MayTake inner.slots.length hint s → ¬inner.Free s := by
  rw [tryAdmitLocked_eq]
  unfold MayTake
  cases hp : preference inner.slots.length hint with
  | none => simp [admitAny_none_iff]
  | some p =>
    have hlt := (preference_eq_some.mp hp).2
    simp [Inner.Free,List.getElem?_eq_getElem hlt]

end AivyxBroker.Scheduler
