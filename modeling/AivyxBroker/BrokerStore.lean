import AivyxBroker.BrokerTasks

/-!
# Saved states and resident states

Residency compares models as they are, with an absent one a value of its own.
The key of a saved state has a model id instead, which is empty for a request
that names no model. So a saved state matches what a resident one matches,
except that an absent model and the empty one are the same.
-/

namespace AivyxBroker.Broker

open Scheduler Forward Program RunInvariant WakeSignal

/-- The hint with an absent model read as the empty one. -/
def SlotHint.named (h : SlotHint) : SlotHint := {h with model := some (h.model.getD "")}

/-- Keys forget only whether a model is absent or empty. -/
theorem cacheKey_eq_iff {h h' : SlotHint} :
    cacheKey h=cacheKey h' ↔ h.prefixHash=h'.prefixHash ∧ h.model.getD ""=h'.model.getD "" := by
  simp [cacheKey,and_comm]

/-- Two hints are resident in the same slots only if they ask for the same. -/
theorem isResidentIn_eq_iff {h h' : SlotHint} :
    (∀ slot,h.isResidentIn slot=h'.isResidentIn slot) ↔
      h.prefixHash=h'.prefixHash ∧ h.model=h'.model := by
  constructor
  · intro hall
    have hself : h.isResidentIn ⟨false,some h.prefixHash,h.model,false,0⟩=true := by
      simp [SlotHint.isResidentIn]
    rw [hall] at hself
    simpa [SlotHint.isResidentIn] using hself
  · rintro ⟨hp,hm⟩ slot
    rw [SlotHint.isResidentIn,SlotHint.isResidentIn,hp,hm]

/-- Keys are equal exactly if residency cannot tell the hints apart once
absent models are read as empty. -/
theorem cacheKey_eq_iff_resident {h h' : SlotHint} : cacheKey h=cacheKey h' ↔
    ∀ slot,(SlotHint.named h).isResidentIn slot=(SlotHint.named h').isResidentIn slot := by
  rw [cacheKey_eq_iff,isResidentIn_eq_iff]
  simp [SlotHint.named]

/-- The demand on restores and saves: they use the key of the request, and
a restore is the first operation of its task. -/
def Keyed (hint : Option SlotHint) (own : List (Performed Ans)) : Op → Prop
  | .restoreIntoSlot key _ => hint.map cacheKey=some key ∧ own=[]
  | .saveFromSlot key _ _ => hint.map cacheKey=some key
  | _ => True

variable {hint : Option SlotHint} {slotId : ℕ} {own : List (Performed Ans)}

/-- Relaying a response restores and saves nothing. -/
theorem keyed_relayable : Relayable (recording (Keyed hint)) slotId (fun _ => True)
    fun _ => True where
  relay own op _ hop := by
    cases op with
    | sendHead | nextChunk | sendChunk | storeAbandoned | dropChunkTx =>
      exact ⟨trivial,fun _ _ _ => trivial⟩
    | restoreIntoSlot | post | saveFromSlot | markResident | clearResident | dropGuard => cases hop
  drop _ _ := ⟨trivial,fun _ _ _ => trivial⟩
  close _ _ := ⟨trivial,fun _ _ _ => trivial⟩

/-- Getting a prefix into a slot uses the request's key, and tries to restore
before anything else. -/
theorem warmOrRestore_keyed (llamaServerUrl : String) (body : Json) (h : SlotHint) :
    (warmOrRestore llamaServerUrl body h slotId).Safe (recording (Keyed (some h))) []
      fun _ _ => True := by
  have hwarming : ∀ (restored : Bool) own,(if restored=true then pure (.ok ())
      else warmUp llamaServerUrl body h slotId : Forwarding (Except Error Unit)).Safe
        (recording (Keyed (some h))) own fun _ _ => True := by
    intro restored own
    cases restored with
    | true => exact trivial
    | false =>
      refine .perform trivial fun answer _ _ => ?_
      cases Except.bind answer Response.errorForStatus with
      | error err => exact trivial
      | ok resp => exact .perform rfl fun _ _ _ => trivial
  refine .perform ⟨rfl,rfl⟩ fun answer _ _ => (hwarming _ _).bind fun warmed _ _ => ?_
  cases warmed with
  | error err => exact trivial
  | ok => exact .perform trivial fun _ _ _ => trivial

/-- A forwarding task uses the key of its own request, and restores before it
does anything else. -/
theorem forward_keyed (llamaServerUrl : String) (body : Json) (admission : Admission) :
    (forward llamaServerUrl body hint admission).Safe (recording (Keyed hint)) []
      fun _ _ => True := by
  have hprepare : (prepareSlot llamaServerUrl body hint admission).Safe (recording (Keyed hint)) []
      fun _ _ => True := by
    cases hint with
    | none => exact .perform trivial fun _ _ _ => trivial
    | some h =>
      simp only [prepareSlot]
      split
      · exact trivial
      · exact warmOrRestore_keyed llamaServerUrl body h
  refine keyed_relayable.forward (hprepare.bind fun prepared _ _ => ?_)
  cases prepared with
  | error err => exact trivial
  | ok => exact .ask trivial fun _ _ _ => trivial

/-- The call and hint of a successful save under this key. -/
def saver (key : CacheKey) : Event×Output → Option (ℕ×Option SlotHint)
  | (_,.performed caller hint ⟨.saveFromSlot key' _ _,.ok ()⟩) =>
    if key'=key then some (caller,hint) else none
  | _ => none

/-- The successful saves under this key, oldest first. -/
def savers (key : CacheKey) (trace : List (Event×Output)) : List (ℕ×Option SlotHint) :=
  trace.filterMap (saver key)

/-- One more entry is one more save, or none. -/
theorem savers_snoc (key : CacheKey) (trace : List (Event×Output)) (entry : Event×Output) :
    savers key (trace++[entry])=savers key trace++(saver key entry).toList := by
  rw [savers,List.filterMap_append]
  cases h : saver key entry <;> simp [savers,h]

variable {n : ℕ} {llamaServerUrl : String} {trace : List (Event×Output)} {st st' : System}

/-- At every operation of a task in a run, its restores and saves use the key
of its own request, and nothing comes before a restore. -/
theorem keyed_of_run {content : ℕ → Content} {pre post : List (Event×Output)} {event : Event}
    {caller : ℕ} {op : Performed Ans}
    (h : Run (step llamaServerUrl) (System.new n content)
      (pre++(event,.performed caller hint op)::post) st) : Keyed hint (ownOps caller pre) op.1 := by
  obtain ⟨body,a,rest,hrun⟩ := task_runs h
  exact hrun.admitted (forward_keyed llamaServerUrl body a)

/-- A saved state is that of the last save under its key, by a request with
this key. -/
def Filed (trace : List (Event×Output)) (st : System) : Prop :=
  ∀ key entry,st.store key=some entry → ∃ c h,(savers key trace).getLast?=some (c,some h) ∧
    cacheKey h=key ∧ entry.model=h.model

/-- A step that saves nothing and does not add to the store keeps it filed. -/
theorem Filed.frame {event : Event} {output : Output} (h : Filed trace st)
    (hstore : ∀ key entry,st'.store key=some entry → st.store key=some entry)
    (hout : ∀ key,saver key (event,output)=none) : Filed (trace++[(event,output)]) st' := by
  intro key entry he
  rw [savers_snoc,hout,Option.toList_none,List.append_nil]
  exact h key entry (hstore key entry he)

/-- An operation of a task that uses its request's key keeps the store filed. -/
theorem Filed.performed {event : Event} {caller : ℕ} {op : Op} {answer : Ans op}
    (h : Filed trace st) (hkeyed : Keyed hint own op) (content : Content)
    (hstore : st'.store=saved st.store hint content op answer) :
    Filed (trace++[(event,.performed caller hint ⟨op,answer⟩)]) st' := by
  by_cases hsave : ∃ key,saver key (event,.performed caller hint ⟨op,answer⟩)≠none
  · obtain ⟨key,hsave⟩ := hsave
    unfold saver at hsave
    split at hsave
    · rename_i key' s info he
      cases he
      obtain ⟨h',rfl,rfl⟩ := Option.map_eq_some_iff.mp hkeyed
      intro key entry he
      rw [hstore] at he
      change Function.update st.store (cacheKey h') _ key=some entry at he
      rw [Function.update_apply] at he
      rw [savers_snoc]
      split at he
      · rename_i hk
        cases he
        exact ⟨caller,h',by simp [saver,hk],hk.symm,rfl⟩
      · rename_i hk
        simpa [saver,Ne.symm hk] using h key entry he
    · exact absurd rfl hsave
  · push Not at hsave
    refine h.frame (fun key entry he => ?_) hsave
    rw [hstore] at he
    unfold saved at he
    split at he
    · rename_i key' s info
      have hs := hsave key'
      simp [saver] at hs
    · exact he

/-- The store is filed after every run. -/
theorem filed_of_run {content : ℕ → Content}
    (h : Run (step llamaServerUrl) (System.new n content) trace st) : Filed trace st := by
  induction h with
  | start => exact fun _ _ he => by cases he
  | next hr ho hs ih =>
    have hk := hr.next ho hs
    cases step_effect hs with
    | @called _ _ output _ hint bodies =>
      refine ih.frame (fun key entry he => ?_) fun _ => rfl
      cases output <;> exact he
    | performed => exact ih.performed (keyed_of_run hk) _ rfl
    | evicted key =>
      refine ih.frame (fun key' entry he => ?_) fun _ => rfl
      dsimp only at he
      rw [Function.update_apply] at he
      split at he
      · cases he
      · exact he

/-- A restore succeeds only if there is an entry. -/
theorem restored_entry {store : CacheKey → Option Entry} {before after : Content} {key : CacheKey}
    {reply : Reply} (h : touch hint store before (.restoreIntoSlot key slotId) reply=
      some (.ok true,after)) : ∃ entry,store key=some entry := by
  cases reply with
  | restored result left =>
    cases result with
    | error err => cases h
    | ok restored =>
      cases restored with
      | false => cases h
      | true =>
        obtain ⟨entry,he,-⟩ := Option.map_eq_some_iff.mp h
        exact ⟨entry,he⟩
  | posted | saved | headSent | chunkSent | unit => cases h

/-- What a restored state has to do with the request it is restored for: the
last save under its key was by another request with the same prefix, and with
the same model if absent is read as empty. -/
def SavedAlike (pre : List (Event×Output)) (caller : ℕ) (hint : Option SlotHint) (key : CacheKey) :
    Prop :=
  ∃ h c h',hint=some h ∧ cacheKey h=key ∧ (savers key pre).getLast?=some (c,some h') ∧ c≠caller ∧
    h'.prefixHash=h.prefixHash ∧ h'.model.getD ""=h.model.getD ""

/-- Saved states are matched like resident ones, once absent models are read
as empty: keys are equal exactly if residency agrees, and in every run
whatever is restored was last saved by an earlier request that matches. -/
theorem saved_resident_alike {content : ℕ → Content}
    (h : Run (step llamaServerUrl) (System.new n content) trace st) :
    (∀ h h',cacheKey h=cacheKey h' ↔
      ∀ slot,(SlotHint.named h).isResidentIn slot=(SlotHint.named h').isResidentIn slot) ∧
    ∀ pre event caller hint key slotId post,
      trace=pre++(event,.performed caller hint ⟨.restoreIntoSlot key slotId,.ok true⟩)::post →
        SavedAlike pre caller hint key := by
  refine ⟨fun _ _ => cacheKey_eq_iff_resident,?_⟩
  rintro pre event caller hint key slotId post rfl
  obtain ⟨hkey,hfirst⟩ := keyed_of_run h
  obtain ⟨request,rfl,rfl⟩ := Option.map_eq_some_iff.mp hkey
  obtain ⟨t,t',hpre,-,hs,-⟩ := h.cut
  obtain ⟨reply,_,_,_,-,-,htouch⟩ := step_performed hs
  obtain ⟨entry,he⟩ := restored_entry htouch
  obtain ⟨c,saving,hlast,hsame,-⟩ := filed_of_run hpre _ entry he
  have hne : c≠caller := by
    rintro rfl
    -- the saving task performed something, the restoring one nothing yet
    obtain ⟨last,hmem,hsaver⟩ := List.mem_filterMap.mp (List.mem_of_getLast? hlast)
    unfold saver at hsaver
    split at hsaver
    · rename_i ev c' hint' key' s info
      split at hsaver
      · cases hsaver
        have hown : (⟨.saveFromSlot key' s info,.ok ()⟩ : Performed Ans)∈ownOps c pre :=
          List.mem_filterMap.mpr ⟨_,hmem,by simp [performedBy]⟩
        rw [hfirst] at hown
        cases hown
      · cases hsaver
    · cases hsaver
  obtain ⟨hp,hm⟩ := cacheKey_eq_iff.mp hsame
  exact ⟨request,c,saving,rfl,rfl,hlast,hne,hp,hm⟩

/-- After the first call is served, one for the empty model is restored. -/
def restoredForEmpty : List Event :=
  servedFirst++[hintedChat (some "") "a",.work 1 (.restored (.ok true) none)]

/-- A state saved for a request with no model is restored for one with the
empty model. -/
theorem saved_resident_alike_named : ∃ trace st,
    Run (step "") (System.new 1 fun _ => none) trace st ∧
    trace.getLast?=some (.work 1 (.restored (.ok true) none),.performed 1 (some ⟨"a",none,some ""⟩)
      ⟨.restoreIntoSlot (cacheKey ⟨"a",none,none⟩) 0,.ok true⟩) ∧
    SavedAlike trace.dropLast 1 (some ⟨"a",none,some ""⟩) (cacheKey ⟨"a",none,none⟩) := by
  have h : Run (step "") (System.new 1 fun _ => none) _ _ := run_of_exec
    (show exec (step "") (System.new 1 fun _ => none) restoredForEmpty=some _ from rfl)
  exact ⟨_,_,h,rfl,(saved_resident_alike h).2 (List.dropLast _) _ _ _ _ 0 [] rfl⟩

/-- Residency tells these two requests apart, so the only state ever saved in
that run is restored for a request that does not match it. -/
theorem saved_resident_differ : ∃ trace st,
    Run (step "") (System.new 1 fun _ => none) trace st ∧
    (∃ event slotId,trace.getLast?=some (event,.performed 1 (some ⟨"a",none,some ""⟩)
      ⟨.restoreIntoSlot (cacheKey ⟨"a",none,some ""⟩) slotId,.ok true⟩)) ∧
    savers (cacheKey ⟨"a",none,some ""⟩) trace=[(0,some ⟨"a",none,none⟩)] ∧
    ∃ slot,SlotHint.isResidentIn ⟨"a",none,none⟩ slot≠SlotHint.isResidentIn ⟨"a",none,some ""⟩ slot
    := by
  have h : Run (step "") (System.new 1 fun _ => none) _ _ := run_of_exec
    (show exec (step "") (System.new 1 fun _ => none) restoredForEmpty=some _ from rfl)
  exact ⟨_,_,h,⟨_,0,rfl⟩,rfl,⟨false,some "a",none,false,0⟩,by decide⟩

end AivyxBroker.Broker
