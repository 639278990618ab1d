import AivyxBroker.LlamaClient
import AivyxBroker.SchedulerRuns

/-!
# Seeding and reconciling the slots from llama-server

At startup the scheduler gets as many slots as `/slots` has entries, and the
slots reported generating are marked busy. A background task later polls
`/slots` again and frees the seeded slots reported idle. Both loops act on the
narrowed slot numbers. So an entry with a number from `2^32` on acts on the
slot of its low 32 bits; what that changes, and when it changes nothing, is
settled here.
-/

namespace AivyxBroker.SlotSeeding

open LlamaClient RunInvariant Scheduler WakeSignal

/-- Mark the slots busy that are reported generating. -/
def seedScheduler (inner : Inner) (slots : List LlamaSlot) : Inner :=
  slots.foldl (fun inner slot =>
    if slot.isProcessing=true then seedBusy inner slot.id.toNat else inner) inner

/-- The scheduler that `main` builds from the first answer; the number of
slots is narrowed as the slot numbers are. -/
def startup (slots : List LlamaSlot) : State :=
  ⟨seedScheduler (Inner.new (slots.length%2^32)) slots,Callers.empty⟩

/-- One round of the background task: free the seeded slots reported idle. -/
def reconcileSeededSlots (st : State) (slots : List LlamaSlot) : State :=
  slots.foldl (fun st slot =>
    if slot.isProcessing=true then st
    else
      let (inner,callers) := reconcileSeededIdle st.inner st.callers slot.id.toNat
      ⟨inner,callers⟩) st

/-- Seeding a slot. -/
def seeded (slot : SlotState) : SlotState := {slot with busy := true, seededUnowned := true}

/-- Freeing a slot that still belongs to nobody. -/
def reconciled (slot : SlotState) : SlotState :=
  if slot.seededUnowned=true then {slot with busy := false} else slot

/-- Both are done once. -/
theorem seeded_seeded (slot : SlotState) : seeded (seeded slot)=seeded slot := rfl

theorem reconciled_reconciled (slot : SlotState) : reconciled (reconciled slot)=reconciled slot := by
  unfold reconciled
  split <;> simp_all

/-- The slot number of an entry's call, if it is reported in the state the
loop looks for. -/
def call (isProcessing : Bool) (v : Json) : Option ℕ :=
  if (v.get "is_processing").bind Json.asBool=some isProcessing then
    (v.get "id").bind Json.asU64
  else none

/-- The table after calls that change the slots of their low 32 bits. -/
def marked (f : SlotState → SlotState) (table : List SlotState) (calls : List (Option ℕ)) :
    List SlotState :=
  calls.foldl (fun table call => call.elim table fun id => table.modify (id%2^32) f) table

/-- An entry makes a call for exactly the slot it reports. -/
theorem call_eq_some {v : Json} {p : Bool} {id : ℕ} : call p v=some id ↔ Reports v id p := by
  unfold call Reports
  split <;> simp_all

/-- The entry was read as this slot: it makes a call with the low bits of its
number, if the slot is in the state the loop looks for. -/
theorem call_of_parseSlot {v : Json} {slot : LlamaSlot} (h : parseSlot v=some slot) (p : Bool) :
    if slot.isProcessing=p then ∃ id,call p v=some id ∧ slot.id.toNat=id%2^32
    else call p v=none := by
  obtain ⟨id,⟨hid,hp⟩,hnarrow⟩ := parseSlot_eq_some.mp h
  unfold call
  rw [hp,hid]
  by_cases he : slot.isProcessing=p
  · rw [if_pos he,if_pos (congrArg some he)]
    exact ⟨id,rfl,by rw [hnarrow,UInt32.toNat_ofNat']⟩
  · rw [if_neg he,if_neg fun hs => he (Option.some.inj hs)]

/-- Seeding marks the table. -/
theorem seedScheduler_slots {vs : List Json} {slots : List LlamaSlot}
    (h : List.Forall₂ (fun v slot => parseSlot v=some slot) vs slots) (inner : Inner) :
    (seedScheduler inner slots).slots=marked seeded inner.slots (vs.map (call true)) := by
  unfold seedScheduler marked
  induction h generalizing inner with
  | nil => rfl
  | @cons v slot vs slots hv _ ih =>
    have hc := call_of_parseSlot hv true
    rw [List.foldl_cons,List.map_cons,List.foldl_cons,ih]
    congr 1
    split at hc
    · rename_i hp
      obtain ⟨id,hid,hlow⟩ := hc
      rw [if_pos hp,hid,hlow]
      rfl
    · rename_i hp
      rw [if_neg hp,hc]
      rfl

/-- Changing one slot leaves the others as they are. -/
theorem modify_slot (table : List SlotState) (f : SlotState → SlotState) (slotId s : ℕ) :
    (table.modify slotId f)[s]?=if slotId=s then table[s]?.map f else table[s]? := by
  rw [List.getElem?_modify]
  split <;> cases table[s]? <;> rfl

/-- Reconciling one slot changes that slot only. -/
theorem reconcileSeededIdle_slots (inner : Inner) (callers : Callers (Option SlotHint))
    (slotId : ℕ) : (reconcileSeededIdle inner callers slotId).1.slots=
      inner.slots.modify slotId reconciled := by
  refine List.ext_getElem? fun s => ?_
  rw [modify_slot]
  unfold reconcileSeededIdle
  cases hs : inner.slots[slotId]? with
  | none =>
    dsimp only
    split
    · rename_i he
      rw [←he,hs,Option.map_none]
    · rfl
  | some slot =>
    dsimp only
    by_cases hu : slot.seededUnowned=true
    · rw [if_pos hu,(wakeWaitersFor_spec ..).1,modifySlot_slot]
      split
      · rename_i he
        rw [←he,hs,Option.map_some,Option.map_some,reconciled,if_pos hu]
      · rfl
    · rw [if_neg hu]
      split
      · rename_i he
        rw [←he,hs,Option.map_some,reconciled,if_neg hu]
      · rfl

/-- A round of reconciliation marks the table. -/
theorem reconcileSeededSlots_slots {vs : List Json} {slots : List LlamaSlot}
    (h : List.Forall₂ (fun v slot => parseSlot v=some slot) vs slots) (st : State) :
    (reconcileSeededSlots st slots).inner.slots=
      marked reconciled st.inner.slots (vs.map (call false)) := by
  unfold reconcileSeededSlots marked
  induction h generalizing st with
  | nil => rfl
  | @cons v slot vs slots hv _ ih =>
    have hc := call_of_parseSlot hv false
    rw [List.foldl_cons,List.map_cons,List.foldl_cons,ih]
    congr 1
    cases hp : slot.isProcessing with
    | true =>
      rw [hp,if_neg (by decide)] at hc
      rw [hc]
      rfl
    | false =>
      rw [hp,if_pos rfl] at hc
      obtain ⟨id,hid,hlow⟩ := hc
      rw [hid,if_neg (by decide),hlow]
      exact reconcileSeededIdle_slots ..

/-- A call acts on the slot: its number has that low half. -/
def Hit (calls : List (Option ℕ)) (s : ℕ) : Prop := ∃ id,some id∈calls ∧ id%2^32=s

/-- The slots that calls act on are marked once, and no others. -/
theorem marked_slot {f : SlotState → SlotState} (hf : ∀ slot,f (f slot)=f slot)
    (table : List SlotState) (calls : List (Option ℕ)) (s : ℕ) :
    (Hit calls s → (marked f table calls)[s]?=table[s]?.map f) ∧
      (¬Hit calls s → (marked f table calls)[s]?=table[s]?) := by
  induction calls using List.reverseRecOn with
  | nil => exact ⟨fun ⟨_,hm,_⟩ => (by cases hm),fun _ => rfl⟩
  | append_singleton calls call ih =>
    have hlast : ∀ id,Hit (calls++[some id]) s ↔ Hit calls s ∨ id%2^32=s := by
      intro id
      simp [Hit,or_and_right,exists_or]
    unfold marked at ih ⊢
    rw [List.foldl_append,List.foldl_cons,List.foldl_nil]
    cases call with
    | none =>
      have hnone : Hit (calls++[none]) s ↔ Hit calls s := by simp [Hit]
      rwa [hnone]
    | some id =>
      rw [Option.elim_some,modify_slot,hlast id]
      by_cases hs : id%2^32=s
      · refine ⟨fun _ => ?_,fun hno => absurd (.inr hs) hno⟩
        rw [if_pos hs]
        by_cases hh : Hit calls s
        · rw [ih.1 hh]
          cases table[s]? <;> simp [hf]
        · rw [ih.2 hh]
      · rw [if_neg hs]
        exact ⟨fun hh => ih.1 (hh.resolve_right hs),fun hno => ih.2 fun hh => hno (.inl hh)⟩

/-- Marking with one more call changes at most the slot of its low half. -/
theorem marked_take_succ (f : SlotState → SlotState) (table : List SlotState)
    (calls : List (Option ℕ)) (k : ℕ) : marked f table (calls.take (k+1))=
      (calls[k]?.join).elim (marked f table (calls.take k)) fun id =>
        (marked f table (calls.take k)).modify (id%2^32) f := by
  unfold marked
  rw [List.take_add_one,List.foldl_append]
  cases calls[k]? with
  | none => rfl
  | some call => cases call <;> rfl

/-- No call changes a slot other than the one it names. -/
def OnlyNamed (f : SlotState → SlotState) (table : List SlotState) (calls : List (Option ℕ)) :
    Prop :=
  ∀ (k : ℕ) (call : Option ℕ) (s : ℕ),calls[k]?=some call → call≠some s →
    (marked f table (calls.take (k+1)))[s]?=(marked f table (calls.take k))[s]?

/-- Every call with a wide number comes after one of the slot it hits, if
that slot is one that marking changes. -/
def OwnFirst (f : SlotState → SlotState) (table : List SlotState) (calls : List (Option ℕ)) :
    Prop :=
  ∀ (k id : ℕ) (slot : SlotState),calls[k]?=some (some id) → 2^32 ≤ id → table[id%2^32]?=some slot → f slot≠slot →
    ∃ j<k,calls[j]?=some (some (id%2^32))

/-- A call that hits a slot not hit before, and that marking changes, must
name it. -/
theorem OnlyNamed.first {f : SlotState → SlotState} (hf : ∀ slot,f (f slot)=f slot)
    {table : List SlotState} {calls : List (Option ℕ)} (h : OnlyNamed f table calls) {k id : ℕ}
    {slot : SlotState} (hk : calls[k]?=some (some id)) (hs : table[id%2^32]?=some slot)
    (hne : f slot≠slot) (hfresh : ¬Hit (calls.take k) (id%2^32)) : id=id%2^32 := by
  by_contra hwide
  have hstep := h k (some id) (id%2^32) hk fun he => hwide (Option.some.inj he)
  rw [marked_take_succ,hk,Option.join_some,Option.elim_some,modify_slot,if_pos rfl,
    (marked_slot hf ..).2 hfresh,hs] at hstep
  exact hne (Option.some.inj hstep)

/-- Calls that act on a slot have a first one. -/
theorem Hit.first {calls : List (Option ℕ)} {s k : ℕ} (h : Hit (calls.take k) s) :
    ∃ j<k,∃ id,calls[j]?=some (some id) ∧ id%2^32=s ∧ ¬Hit (calls.take j) s := by
  induction k with
  | zero =>
    obtain ⟨_,hm,_⟩ := h
    cases hm
  | succ k ih =>
    by_cases hk : Hit (calls.take k) s
    · obtain ⟨j,hj,hfirst⟩ := ih hk
      exact ⟨j,by omega,hfirst⟩
    · obtain ⟨id,hm,hs⟩ := h
      rw [List.take_add_one,List.mem_append] at hm
      rcases hm with hm | hm
      · exact absurd ⟨id,hm,hs⟩ hk
      · rw [Option.mem_toList] at hm
        exact ⟨k,Nat.lt_succ_self k,id,hm,hs,hk⟩

/-- A call among the first `k` acts on its slot. -/
theorem hit_of_getElem {calls : List (Option ℕ)} {j k id : ℕ} (hj : j<k)
    (h : calls[j]?=some (some id)) : Hit (calls.take k) (id%2^32) := by
  refine ⟨id,List.mem_of_getElem? (i:=j) ?_,rfl⟩
  rw [List.getElem?_take_of_lt hj,h]

/-- Calls change the slots they name only, exactly if every wide number that
hits a slot marking changes comes after that slot's own. -/
theorem onlyNamed_iff {f : SlotState → SlotState} (hf : ∀ slot,f (f slot)=f slot)
    {table : List SlotState} {calls : List (Option ℕ)} :
    OnlyNamed f table calls ↔ OwnFirst f table calls := by
  constructor
  · intro h k id slot hk hwide hs hne
    obtain ⟨j,hj,id',hid,hlow,hfresh⟩ := (hit_of_getElem (Nat.lt_succ_self k) hk).first
    rw [←hlow] at hs hfresh
    have hown := h.first hf hid hs hne hfresh
    rw [hlow] at hown
    rw [hown] at hid
    refine ⟨j,lt_of_le_of_ne (by omega) fun he => ?_,hid⟩
    rw [he,hk,Option.some.injEq,Option.some.injEq] at hid
    omega
  · intro h k c s hk hne
    rw [marked_take_succ,hk,Option.join_some]
    cases c with
    | none => rfl
    | some id =>
      rw [Option.elim_some,modify_slot]
      split
      · rename_i hlow
        subst hlow
        have hwide : 2^32 ≤ id := by
          by_contra hsmall
          exact hne (congrArg some (Nat.mod_eq_of_lt (by omega)).symm)
        by_cases hh : Hit (calls.take k) (id%2^32)
        · rw [(marked_slot hf ..).1 hh,Option.map_map]
          exact congrArg (Option.map · _) (funext hf)
        · rw [(marked_slot hf ..).2 hh]
          cases hs : table[id%2^32]? with
          | none => rfl
          | some slot =>
            -- a slot that marking changes would have been hit by its own number
            by_contra hchange
            obtain ⟨j,hj,hown⟩ := h k id slot hk hwide hs fun he => hchange (congrArg some he)
            have := hit_of_getElem hj hown
            rw [Nat.mod_mod] at this
            exact hh this
      · rfl

/-- Then exactly the slots with a call of their own are marked. -/
theorem OwnFirst.slot {f : SlotState → SlotState} (hf : ∀ slot,f (f slot)=f slot)
    {table : List SlotState} {calls : List (Option ℕ)} (h : OwnFirst f table calls) {s : ℕ}
    {slot : SlotState} (hlt : s<2^32) (hs : table[s]?=some slot) :
    (some s∈calls → (marked f table calls)[s]?=some (f slot)) ∧
      (some s∉calls → (marked f table calls)[s]?=some slot) := by
  refine ⟨fun hm => ?_,fun hno => ?_⟩
  · rw [(marked_slot hf ..).1 ⟨s,hm,Nat.mod_eq_of_lt hlt⟩,hs]
    rfl
  · by_cases hh : Hit calls s
    · rw [(marked_slot hf ..).1 hh,hs,Option.map_some]
      by_contra hchange
      obtain ⟨id,hm,hlow⟩ := hh
      obtain ⟨k,hk⟩ := List.mem_iff_getElem?.mp hm
      have hwide : 2^32 ≤ id := by
        by_contra hsmall
        rw [Nat.mod_eq_of_lt (by omega)] at hlow
        exact hno (hlow ▸ hm)
      rw [←hlow] at hs
      obtain ⟨j,-,hown⟩ := h k id slot hk hwide hs fun he => hchange (congrArg some he)
      rw [hlow] at hown
      exact hno (List.mem_of_getElem? hown)
    · rw [(marked_slot hf ..).2 hh,hs]

/-- No entry changes a slot other than the one it names: the loop's pass over
an entry leaves all others as they were. -/
def ChangesNamedOnly (loop : List LlamaSlot → List SlotState) (body : Json)
    (slots : List LlamaSlot) : Prop :=
  ∀ (k : ℕ) (v : Json) (s : ℕ),(entries body)[k]?=some v →
    (v.get "id").bind Json.asU64≠some s →
      (loop (slots.take (k+1)))[s]?=(loop (slots.take k))[s]?

/-- Every entry with a number from `2^32` on whose low half is a slot that
the loop would change comes after the entry of that slot itself. -/
def OwnEntryFirst (body : Json) (isProcessing : Bool) (changes : ℕ → Prop) : Prop :=
  ∀ (k : ℕ) (v : Json) (id : ℕ),(entries body)[k]?=some v → Reports v id isProcessing →
    2^32 ≤ id → changes (id%2^32) → ∃ j<k,∃ w,(entries body)[j]?=some w ∧ Reports w (id%2^32) isProcessing

/-- Startup marks exactly the slots reported generating. -/
structure SeedsNamed (body : Json) (slots : List LlamaSlot) : Prop where
  /-- A slot is busy if and only if an entry with its exact number says so. -/
  busy : ∀ s < (entries body).length,
    (∃ slot,(startup slots).inner.slots[s]?=some slot ∧ slot.busy=true) ↔
      ∃ v∈entries body,Reports v s true
  /-- Entries change the slots they name only. -/
  only : ChangesNamedOnly
    (fun seen => (seedScheduler (Inner.new (slots.length%2^32)) seen).slots) body slots

/-- A round of reconciliation clears exactly the seeded slots reported idle. -/
structure ReconcilesNamed (body : Json) (slots : List LlamaSlot) (st : State) : Prop where
  /-- A slot is freed if it is still seeded and an entry with its exact number
  reports it idle, and is left as it was otherwise. -/
  cleared : ∀ s slot,st.inner.slots[s]?=some slot →
    (slot.seededUnowned=true ∧ (∃ v∈entries body,Reports v s false) →
      (reconcileSeededSlots st slots).inner.slots[s]?=some {slot with busy := false}) ∧
    (¬(slot.seededUnowned=true ∧ ∃ v∈entries body,Reports v s false) →
      (reconcileSeededSlots st slots).inner.slots[s]?=some slot)
  /-- Entries change the slots they name only. -/
  only : ChangesNamedOnly (fun seen => (reconcileSeededSlots st seen).inner.slots) body slots

/-- The calls of the entries are those reported in the state looked for. -/
theorem mem_calls {body : Json} {p : Bool} {id : ℕ} :
    some id∈(entries body).map (call p) ↔ ∃ v∈entries body,Reports v id p := by
  simp only [List.mem_map,call_eq_some]

/-- The same by position. -/
theorem calls_getElem {body : Json} {p : Bool} {k id : ℕ} :
    ((entries body).map (call p))[k]?=some (some id) ↔
      ∃ v,(entries body)[k]?=some v ∧ Reports v id p := by
  rw [List.getElem?_map,Option.map_eq_some_iff]
  simp only [call_eq_some]

/-- What the loop changes, by its calls. -/
theorem changesNamedOnly_iff {loop : List LlamaSlot → List SlotState} {body : Json}
    {slots : List LlamaSlot} {f : SlotState → SlotState} {table : List SlotState} {p : Bool}
    (hloop : ∀ vs slots,List.Forall₂ (fun v slot => parseSlot v=some slot) vs slots →
      loop slots=marked f table (vs.map (call p)))
    (hread : List.Forall₂ (fun v slot => parseSlot v=some slot) (entries body) slots) :
    ChangesNamedOnly loop body slots ↔ OnlyNamed f table ((entries body).map (call p)) := by
  have htake : ∀ k,loop (slots.take k)=marked f table (((entries body).map (call p)).take k) :=
    fun k => by rw [hloop _ _ (List.forall₂_take k hread),List.map_take]
  unfold ChangesNamedOnly OnlyNamed
  simp only [htake]
  constructor
  · intro h k c s hk hne
    obtain ⟨v,hv,rfl⟩ := Option.map_eq_some_iff.mp (List.getElem?_map.symm.trans hk)
    by_cases hid : (v.get "id").bind Json.asU64=some s
    · have hnone : call p v=none := by
        unfold call at hne ⊢
        split
        · rename_i hp
          rw [if_pos hp] at hne
          exact absurd hid hne
        · rfl
      rw [marked_take_succ,hk,hnone]
      rfl
    · exact h k v s hv hid
  · intro h k v s hv hne
    refine h k (call p v) s (by rw [List.getElem?_map,hv]; rfl) fun hc => ?_
    exact hne (call_eq_some.mp hc).1

/-- The condition on the calls, by the entries. -/
theorem ownFirst_iff {body : Json} {f : SlotState → SlotState} {table : List SlotState} {p : Bool} :
    OwnFirst f table ((entries body).map (call p)) ↔
      OwnEntryFirst body p fun s => ∃ slot,table[s]?=some slot ∧ f slot≠slot := by
  unfold OwnFirst OwnEntryFirst
  simp only [calls_getElem]
  constructor
  · rintro h k v id hv hr hwide ⟨slot,hs,hne⟩
    exact h k id slot ⟨v,hv,hr⟩ hwide hs hne
  · rintro h k id slot ⟨v,hv,hr⟩ hwide hs hne
    exact h k v id hv hr hwide ⟨slot,hs,hne⟩

/-- Seeding changes every slot of a new table. -/
theorem seeded_default_iff {n s : ℕ} :
    (∃ slot,(Inner.new n).slots[s]?=some slot ∧ seeded slot≠slot) ↔ s<n := by
  constructor
  · rintro ⟨slot,hs,-⟩
    simpa [Inner.new] using (List.getElem?_eq_some_iff.mp hs).1
  · intro hlt
    exact ⟨SlotState.default,by simp [Inner.new,hlt],by decide⟩

/-- Reconciling changes the slots that are still seeded and busy. -/
theorem reconciled_ne_iff {slot : SlotState} :
    reconciled slot≠slot ↔ slot.seededUnowned=true ∧ slot.busy=true := by
  obtain ⟨busy,prefixHash,model,seededUnowned,lastUsed⟩ := slot
  cases busy <;> cases seededUnowned <;> simp [reconciled]

/-- When seeding marks exactly the slots reported generating: no such report
is about a slot lost in narrowing the number of slots, and none with a wide
number hits a slot before its own. -/
structure SeedsOwn (body : Json) : Prop where
  /-- The busy slots are in the table. -/
  inTable : ∀ v∈entries body,∀ s < (entries body).length,Reports v s true →
    s<(entries body).length%2^32
  /-- The slots' own entries come first. -/
  ownFirst : OwnEntryFirst body true fun s => s<(entries body).length%2^32

/-- When a round of reconciliation clears exactly the seeded slots reported
idle: no such report with a wide number hits a busy seeded slot before the
slot's own. -/
def ReconcilesOwn (body : Json) (st : State) : Prop :=
  OwnEntryFirst body false fun s =>
    ∃ slot,st.inner.slots[s]?=some slot ∧ slot.seededUnowned=true ∧ slot.busy=true

/-- Then the busy slots of the seeded table are those with a call of their
own. -/
theorem seedScheduler_busy {vs : List Json} {slots : List LlamaSlot} {n s : ℕ}
    (hread : List.Forall₂ (fun v slot => parseSlot v=some slot) vs slots)
    (hown : OwnFirst seeded (Inner.new n).slots (vs.map (call true))) (hs : s<n) (hlt : s<2^32) :
    (∃ slot,(seedScheduler (Inner.new n) slots).slots[s]?=some slot ∧ slot.busy=true) ↔
      some s∈vs.map (call true) := by
  have hslot : (Inner.new n).slots[s]?=some SlotState.default := by simp [Inner.new,hs]
  obtain ⟨hmarked,hrest⟩ := hown.slot seeded_seeded hlt hslot
  rw [seedScheduler_slots hread]
  by_cases hm : some s∈vs.map (call true)
  · rw [hmarked hm]
    exact ⟨fun _ => hm,fun _ => ⟨_,rfl,rfl⟩⟩
  · rw [hrest hm]
    refine ⟨?_,fun hm' => absurd hm' hm⟩
    rintro ⟨_,he,hb⟩
    cases he
    cases hb

/-- The seeded table is as long as the new one. -/
theorem seedScheduler_length (inner : Inner) (slots : List LlamaSlot) :
    (seedScheduler inner slots).slots.length=inner.slots.length := by
  unfold seedScheduler
  induction slots generalizing inner with
  | nil => rfl
  | cons slot slots ih =>
    rw [List.foldl_cons,ih]
    split
    · exact modifySlot_length ..
    · rfl

/-- The slots that startup makes, by number. -/
theorem startup_slot {slots : List LlamaSlot} {s : ℕ} {slot : SlotState}
    (h : (startup slots).inner.slots[s]?=some slot) : s<slots.length%2^32 := by
  have hlt := (List.getElem?_eq_some_iff.mp h).1
  have hlen := seedScheduler_length (Inner.new (slots.length%2^32)) slots
  rw [Inner.new,List.length_replicate] at hlen
  exact hlt.trans_eq hlen

/-- Startup acts on exactly the named slots under exactly that condition. -/
theorem seedsNamed_iff {body : Json} {slots : List LlamaSlot} (h : parseSlots body=some slots) :
    SeedsNamed body slots ↔ SeedsOwn body := by
  have hread := parseSlots_eq_some h
  have hlen := hread.length_eq
  have honly := (changesNamedOnly_iff (fun _ _ hvs => seedScheduler_slots hvs
    (Inner.new (slots.length%2^32))) hread).trans (onlyNamed_iff seeded_seeded)
  have hentry : OwnFirst seeded (Inner.new (slots.length%2^32)).slots
      ((entries body).map (call true)) ↔ OwnEntryFirst body true
        fun s => s<(entries body).length%2^32 := by
    rw [ownFirst_iff,hlen]
    simp only [seeded_default_iff]
  constructor
  · intro hnamed
    refine ⟨fun v hv s hs hr => ?_,hentry.mp (honly.mp hnamed.only)⟩
    obtain ⟨slot,hslot,-⟩ := (hnamed.busy s hs).mpr ⟨v,hv,hr⟩
    rw [hlen]
    exact startup_slot hslot
  · intro hcond
    have hown := hentry.mpr hcond.ownFirst
    refine ⟨fun s hs => ?_,honly.mpr hown⟩
    have hpow : slots.length%2^32<2^32 := Nat.mod_lt _ (by decide)
    by_cases hin : s<slots.length%2^32
    · exact (seedScheduler_busy hread hown hin (by omega)).trans mem_calls
    · refine ⟨?_,?_⟩
      · rintro ⟨slot,hslot,-⟩
        exact absurd (startup_slot hslot) hin
      · rintro ⟨v,hv,hr⟩
        exact absurd (hlen ▸ hcond.inTable v hv s hs hr) hin

/-- A round acts on exactly the named slots under exactly that condition. -/
theorem reconcilesNamed_iff {body : Json} {slots : List LlamaSlot} {st : State}
    (h : parseSlots body=some slots) (hlt : st.inner.slots.length<2^32) :
    ReconcilesNamed body slots st ↔ ReconcilesOwn body st := by
  have hread := parseSlots_eq_some h
  have honly := (changesNamedOnly_iff (fun _ _ hvs => reconcileSeededSlots_slots hvs st)
    hread).trans (onlyNamed_iff reconciled_reconciled)
  have hentry : OwnFirst reconciled st.inner.slots ((entries body).map (call false)) ↔
      ReconcilesOwn body st := by
    rw [ownFirst_iff]
    simp only [reconciled_ne_iff]
    rfl
  refine ⟨fun hnamed => hentry.mp (honly.mp hnamed.only),fun hcond => ?_⟩
  have hown := hentry.mpr hcond
  refine ⟨fun s slot hs => ?_,honly.mpr hown⟩
  have hslt := (List.getElem?_eq_some_iff.mp hs).1
  obtain ⟨hmarked,hrest⟩ := hown.slot reconciled_reconciled (by omega) hs
  rw [reconcileSeededSlots_slots hread,←mem_calls]
  refine ⟨fun ⟨hu,hm⟩ => ?_,fun hno => ?_⟩
  · rw [hmarked hm,reconciled,if_pos hu]
  · by_cases hm : some s∈(entries body).map (call false)
    · rw [hmarked hm,reconciled,if_neg fun hu => hno ⟨hu,hm⟩]
    · exact hrest hm

/-- Startup is a run of the scheduler that seeds some of its slots. -/
theorem startup_run (slots : List LlamaSlot) :
    ∃ trace,Run step (State.new (slots.length%2^32)) trace (startup slots) := by
  have hseed : ∀ (seen : List LlamaSlot) (inner : Inner),
      ∃ trace,Run step ⟨inner,Callers.empty⟩ trace ⟨seedScheduler inner seen,Callers.empty⟩ := by
    intro seen
    induction seen with
    | nil => exact fun inner => ⟨[],.start⟩
    | cons slot seen ih =>
      intro inner
      unfold seedScheduler
      rw [List.foldl_cons]
      split
      · obtain ⟨trace,hrun⟩ := ih (seedBusy inner slot.id.toNat)
        have hs : step ⟨inner,Callers.empty⟩ (.seedBusy slot.id.toNat)=
            some (.unit,⟨seedBusy inner slot.id.toNat,Callers.empty⟩) := rfl
        exact ⟨_,(RunWhen.single trivial hs).append hrun⟩
      · exact ih inner
  exact hseed slots (Inner.new _)

/-- Startup and reconciliation act on exactly the slots llama-server named if
and only if no wide number gets in between: at startup for the first body, and
in every state reached from there for a round with a later body. A round that
other steps interrupt is several rounds of fewer entries. -/
theorem slots_named_iff {body : Json} {slots : List LlamaSlot} (h : parseSlots body=some slots) :
    (SeedsNamed body slots ↔ SeedsOwn body) ∧
    ∀ trace st,Run step (startup slots) trace st →
      ∀ later slots',parseSlots later=some slots' →
        (ReconcilesNamed later slots' st ↔ ReconcilesOwn later st) := by
  refine ⟨seedsNamed_iff h,fun trace st hrun later slots' hlater => ?_⟩
  obtain ⟨first,hfirst⟩ := startup_run slots
  refine reconcilesNamed_iff hlater ?_
  rw [(queued_of_run (hfirst.append hrun)).size]
  exact Nat.mod_lt _ (by decide)

/-- An entry of `/slots`. -/
def slotEntry (id : UInt64) (isProcessing : Bool) : Json :=
  .object [("id",.number (.posInt id)),("is_processing",.bool isProcessing)]

/-- Slots 2 and 1 of three are busy. -/
def twoBusy : Json := .array [slotEntry 2 true,slotEntry 0 false,slotEntry 1 true]

/-- Slot 1 is done, and slot 2 is not. -/
def oneLeft : Json := .array [slotEntry 1 false,slotEntry 2 true,slotEntry 0 false]

/-- Numbers below `2^32` never get in between. -/
theorem ownEntryFirst_of_lt {body : Json} {isProcessing : Bool} {changes : ℕ → Prop}
    (h : ∀ v∈entries body,∀ id,Reports v id isProcessing → id<2^32) :
    OwnEntryFirst body isProcessing changes := fun _ v id hk hr hwide =>
  absurd (h v (List.mem_of_getElem? hk) id hr) (Nat.not_lt.mpr hwide)

/-- The two busy slots are seeded and the idle one is not; then the one that is
idle is freed and the other one kept. -/
theorem slots_named_iff_ordinary :
    SeedsNamed twoBusy [⟨2,true⟩,⟨0,false⟩,⟨1,true⟩] ∧
    ReconcilesNamed oneLeft [⟨1,false⟩,⟨2,true⟩,⟨0,false⟩]
      (startup [⟨2,true⟩,⟨0,false⟩,⟨1,true⟩]) := by
  have hread : parseSlots twoBusy=some [⟨2,true⟩,⟨0,false⟩,⟨1,true⟩] := rfl
  have hlater : parseSlots oneLeft=some [⟨1,false⟩,⟨2,true⟩,⟨0,false⟩] := rfl
  have hsmall : ∀ p,∀ body∈[twoBusy,oneLeft],∀ v∈entries body,∀ id,Reports v id p → id<2^32 := by
    intro p body hbody v hv id hr
    obtain ⟨n,q,hn,rfl⟩ : ∃ (n : UInt64) (q : Bool),n.toNat<3 ∧ v=slotEntry n q := by
      rcases List.mem_pair.mp hbody with rfl | rfl <;>
        simp only [entries,twoBusy,oneLeft,Json.asArray,Option.getD_some,List.mem_cons,
          List.not_mem_nil,or_false] at hv <;> rcases hv with rfl | rfl | rfl <;>
        exact ⟨_,_,by decide,rfl⟩
    obtain rfl : n.toNat=id := Option.some.inj hr.1
    omega
  refine ⟨(slots_named_iff hread).1.mpr ⟨fun v _ s hs _ => hs,?_⟩,
    ((slots_named_iff hread).2 _ _ .start _ _ hlater).mpr ?_⟩
  · exact ownEntryFirst_of_lt (hsmall _ _ (by simp))
  · exact ownEntryFirst_of_lt (hsmall _ _ (by simp))

/-- The number `2^32` marks slot 0 busy at startup, and later frees it. -/
theorem slots_named_wrapped :
    ¬SeedsNamed (.array [slotEntry 4294967296 true]) [⟨0,true⟩] ∧
    parseSlots (.array [slotEntry 4294967296 true])=some [⟨0,true⟩] ∧
    ¬ReconcilesNamed (.array [slotEntry 4294967296 false]) [⟨0,false⟩] (startup [⟨0,true⟩]) ∧
    parseSlots (.array [slotEntry 4294967296 false])=some [⟨0,false⟩] := by
  refine ⟨fun hnamed => ?_,rfl,fun hnamed => ?_,rfl⟩
  · obtain ⟨v,hv,hid,-⟩ := (hnamed.busy 0 (by decide)).mp ⟨_,rfl,rfl⟩
    obtain rfl := List.mem_singleton.mp hv
    cases hid
  · have hfreed := hnamed.only 0 _ 0 rfl (by decide)
    cases hfreed

end AivyxBroker.SlotSeeding
