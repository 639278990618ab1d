import AivyxBroker.Gpu
import AivyxBroker.LlamaClient
import AivyxBroker.SchedulerOwnership

/-!
# The read-only routes

`/slots` and `/v1/aivyx/residency` show the occupancy table and what is known
of models and GPU memory. They only look at one snapshot of the scheduler, so
in a run with any other calls in between they have to be exact about that
instant: the slots shown busy are those of the requests the broker is working
on, and those it found busy at startup and has not seen idle since.
-/

namespace AivyxBroker.Scheduler

open RunInvariant WakeSignal LlamaClient

/-- A slot as `/slots` shows it. -/
structure SlotSnapshot where
  /-- Its number. -/
  slotId : ℕ
  /-- It is taken. -/
  busy : Bool
  /-- What it is recorded to hold. -/
  residentPrefix : Option String
  /-- The model that computed it. -/
  residentModel : Option String

/-- The broker's own view of the occupancy. -/
def snapshot (inner : Inner) : List SlotSnapshot :=
  inner.slots.zipIdx.map fun entry =>
    ⟨entry.2,entry.1.busy,entry.1.residentPrefix,entry.1.residentModel⟩

/-- A text, or null. -/
def optionText : Option String → Json
  | some text => .string text
  | none => .null

/-- A 32-bit number. -/
def u32 (n : ℕ) : Json := .number (.posInt (UInt64.ofNat (n%2^32)))

/-- One entry of the body of `/slots`. -/
def SlotSnapshot.toValue (s : SlotSnapshot) : Json := .object
  [("slot_id",u32 s.slotId),("busy",.bool s.busy),
    ("resident_prefix",optionText s.residentPrefix),("resident_model",optionText s.residentModel)]

/-- The body of `/slots`. -/
def slotsBody (inner : Inner) : Json := .array ((snapshot inner).map SlotSnapshot.toValue)

/-- One entry of the list of models. -/
def modelValue (model : LoadedModel) : Json :=
  .object [("id",.string model.id),("loaded",.bool model.loaded)]

/-- GPU memory, or null. -/
def vramValue : Option Gpu.Vram → Json
  | some vram => .object [("total_bytes",.number (.posInt vram.totalBytes)),
      ("used_bytes",.number (.posInt vram.usedBytes))]
  | none => .null

/-- The body of `/v1/aivyx/residency`. Models that could not be fetched are no
models. -/
def residencyBody (models : Option (List LoadedModel)) (vram : Option Gpu.Vram) (inner : Inner) :
    Json :=
  let slots := snapshot inner
  let busy := (slots.filter fun s => s.busy).length
  .object [("models",.array ((models.getD []).map modelValue)),("vram",vramValue vram),
    ("slots",.object [("busy",u32 busy),("total",u32 slots.length)])]

/-- A list by its positions: as many elements meet a condition as positions
hold one that does. -/
theorem length_filter_eq_card {τ : Type*} (p : τ → Bool) (xs : List τ) :
    (xs.filter p).length=((Finset.range xs.length).filter fun i => xs[i]?.any p=true).card := by
  induction xs using List.reverseRecOn with
  | nil => rfl
  | append_singleton xs x ih =>
    have hlast : (xs++[x])[xs.length]?=some x := by simp
    have hfront : ((Finset.range xs.length).filter fun i => (xs++[x])[i]?.any p=true)=
        (Finset.range xs.length).filter fun i => xs[i]?.any p=true := by
      refine Finset.filter_congr fun i hi => ?_
      rw [List.getElem?_append_left (Finset.mem_range.mp hi)]
    rw [List.filter_append,List.length_append,ih,List.length_append,List.length_singleton,
      Finset.range_add_one,Finset.filter_insert,hlast,hfront]
    cases hx : p x with
    | true => simp [hx]
    | false => simp [hx]

/-- The calls that own a slot. -/
def Guarded.owners (st : Guarded) : Finset ℕ :=
  (Finset.range st.sched.callers.next).filter fun c => (st.guards c).isSome=true

/-- The slots found busy at startup and not seen idle since. -/
noncomputable def awaited (n : ℕ) (trace : List (GuardedEvent×Output)) : Finset ℕ :=
  open Classical in (Finset.range n).filter fun s => PendingSeed trace s

variable {n : ℕ} {trace : List (GuardedEvent×Output)} {st : Guarded}

/-- Every entry of the snapshot is its slot's. -/
theorem snapshot_slot (inner : Inner) (s : ℕ) : (snapshot inner)[s]?=
    inner.slots[s]?.map fun slot => ⟨s,slot.busy,slot.residentPrefix,slot.residentModel⟩ := by
  rw [snapshot,List.getElem?_map,List.getElem?_zipIdx,Nat.zero_add,Option.map_map]
  rfl

@[simp] theorem snapshot_length (inner : Inner) : (snapshot inner).length=inner.slots.length := by
  simp [snapshot]

/-- A slot is busy exactly if it is owned or awaited. -/
theorem Owned.busy_iff (h : Owned n trace st) {s : ℕ} {slot : SlotState}
    (hs : st.sched.inner.slots[s]?=some slot) :
    slot.busy=true ↔ (∃ c,st.guards c=some s) ∨ PendingSeed trace s := by
  have hacc := h.account s slot hs
  refine ⟨hacc.busy,fun hor => ?_⟩
  rcases hor with hg | hp
  · exact (hacc.held hg).1
  · exact (hacc.seeded hp).1

/-- As many slots are owned as calls own one. -/
theorem Owned.card_owned (h : Owned n trace st) [DecidablePred fun s => ∃ c,st.guards c=some s] :
    ((Finset.range n).filter fun s => ∃ c,st.guards c=some s).card=st.owners.card := by
  refine (Finset.card_bij (fun c _ => (st.guards c).getD 0) ?_ ?_ ?_).symm
  · intro c hc
    obtain ⟨s,hs⟩ := Option.isSome_iff_exists.mp (Finset.mem_filter.mp hc).2
    rw [hs,Option.getD_some]
    exact Finset.mem_filter.mpr ⟨Finset.mem_range.mpr (h.range c s hs),c,hs⟩
  · intro c hc c' hc' he
    obtain ⟨s,hs⟩ := Option.isSome_iff_exists.mp (Finset.mem_filter.mp hc).2
    obtain ⟨s',hs'⟩ := Option.isSome_iff_exists.mp (Finset.mem_filter.mp hc').2
    rw [hs,hs',Option.getD_some,Option.getD_some] at he
    exact h.exclusive c c' s hs (he ▸ hs')
  · intro s hs
    obtain ⟨c,hc⟩ := (Finset.mem_filter.mp hs).2
    refine ⟨c,Finset.mem_filter.mpr ⟨Finset.mem_range.mpr (h.named c s hc).1,?_⟩,?_⟩
    · rw [hc]
      rfl
    · rw [hc,Option.getD_some]

/-- No slot is both. -/
theorem Owned.not_awaited (h : Owned n trace st) {c s : ℕ} (hg : st.guards c=some s) :
    ¬PendingSeed trace s := by
  intro hp
  have hlt := h.range c s hg
  rw [←h.queued.size] at hlt
  have hacc := h.account s _ (List.getElem?_eq_getElem hlt)
  have hu := (hacc.seeded hp).2
  rw [(hacc.held ⟨c,hg⟩).2] at hu
  cases hu

/-- The number of busy slots is the number of owners and awaited slots. -/
theorem Owned.busy_count (h : Owned n trace st) :
    ((snapshot st.sched.inner).filter fun s => s.busy).length=
      st.owners.card+(awaited n trace).card := by
  classical
  rw [length_filter_eq_card,snapshot_length,h.queued.size,←h.card_owned,awaited,
    ←Finset.card_union_of_disjoint]
  · congr 1
    rw [←Finset.filter_or]
    refine Finset.filter_congr fun s hs => ?_
    have hlt := Finset.mem_range.mp hs
    rw [←h.queued.size] at hlt
    have hslot := List.getElem?_eq_getElem hlt
    rw [snapshot_slot,hslot]
    exact h.busy_iff hslot
  · refine Finset.disjoint_filter.mpr fun s _ hg hp => ?_
    obtain ⟨c,hc⟩ := hg
    exact h.not_awaited hc hp

/-- Small numbers come back. -/
theorem asU64_u32 {k : ℕ} (h : k<2^32) : (u32 k).asU64=some k := by
  rw [u32,Nat.mod_eq_of_lt h,Json.asU64,UInt64.toNat_ofNat',Nat.mod_eq_of_lt (by omega)]

/-- In every run the two routes tell how the broker's slots are used: one
shows as many busy slots as requests own one or startup found busy and nobody
saw idle since, out of all slots, and the other which ones they are. -/
theorem routes_show_owners (hn : n<2^32) (h : Run guardedStep (Guarded.new n) trace st)
    (models : Option (List LoadedModel)) (vram : Option Gpu.Vram) :
    (((residencyBody models vram st.sched.inner).get "slots").bind fun slots =>
      (slots.get "busy").bind Json.asU64)=some (st.owners.card+(awaited n trace).card) ∧
    (((residencyBody models vram st.sched.inner).get "slots").bind fun slots =>
      (slots.get "total").bind Json.asU64)=some n ∧
    ∀ s<n,∃ v,((slotsBody st.sched.inner).asArray.getD [])[s]?=some v ∧
      (v.get "slot_id").bind Json.asU64=some s ∧
      ((v.get "busy").bind Json.asBool=some true ↔
        (∃ c,st.guards c=some s) ∨ PendingSeed trace s) := by
  have howned := owned_of_run h
  have hcount := howned.busy_count
  have hle := List.length_filter_le (fun s : SlotSnapshot => s.busy) (snapshot st.sched.inner)
  rw [snapshot_length,howned.queued.size] at hle
  refine ⟨?_,?_,fun s hs => ?_⟩
  · rw [←hcount]
    exact asU64_u32 (by omega)
  · have htotal : (snapshot st.sched.inner).length=n :=
      (snapshot_length _).trans howned.queued.size
    have hshown : ((residencyBody models vram st.sched.inner).get "slots").bind
        (fun slots => (slots.get "total").bind Json.asU64)=
          (u32 (snapshot st.sched.inner).length).asU64 := rfl
    rw [hshown,htotal,asU64_u32 hn]
  · obtain ⟨slot,hslot⟩ : ∃ slot,st.sched.inner.slots[s]?=some slot := by
      rw [←howned.queued.size] at hs
      exact ⟨_,List.getElem?_eq_getElem hs⟩
    refine ⟨SlotSnapshot.toValue ⟨s,slot.busy,slot.residentPrefix,slot.residentModel⟩,?_,
      asU64_u32 (hs.trans hn),?_⟩
    · rw [slotsBody,Json.asArray,Option.getD_some,List.getElem?_map,snapshot_slot,hslot]
      rfl
    · refine Iff.trans ?_ (howned.busy_iff hslot)
      exact ⟨fun he => Option.some.inj he,congrArg some⟩

/-- One request at work and one seeded slot are two busy slots out of three. -/
theorem routes_show_owners_two : ∃ trace st,Run guardedStep (Guarded.new 3) trace st ∧
    (((residencyBody none none st.sched.inner).get "slots").bind fun slots =>
      (slots.get "busy").bind Json.asU64)=some 2 ∧ st.owners.card+(awaited 3 trace).card=2 := by
  have h : Run guardedStep (Guarded.new 3) _ _ := run_of_exec
    (show exec guardedStep (Guarded.new 3) [.call (.seedBusy 0),.call (.admitCall none),
      .call (.admitCall none),.dropGuard 1]=some _ from rfl)
  have hbusy := (routes_show_owners (by decide) h none none).1
  exact ⟨_,_,h,rfl,Option.some.inj (hbusy.symm.trans rfl)⟩

end AivyxBroker.Scheduler
