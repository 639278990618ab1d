import Mathlib

/-!
# Finite runs of a partial labelled step function

A system is an executable partial step function: an event is either not
enabled in a state, or it has one output and one successor. Nondeterminism
is the free choice of the next event. Runs record every event with its
output, oldest first, so that claims about the order of outputs are claims
about the recorded trace. A side condition on the steps is part of the run.
-/

namespace AivyxBroker.RunInvariant

variable {σ ε ω σ' ε' ω' : Type*}

/-- Runs from `s` all of whose steps are enabled and meet `ok`. -/
inductive RunWhen (step : σ → ε → Option (ω×σ)) (ok : σ → ε → Prop) (s : σ) :
    List (ε×ω) → σ → Prop
  /-- The empty run stays where it starts. -/
  | start : RunWhen step ok s [] s
  /-- One more enabled step, recorded last. -/
  | next {trace : List (ε×ω)} {t u : σ} {event : ε} {output : ω} :
    RunWhen step ok s trace t → ok t event → step t event=some (output,u) →
      RunWhen step ok s (trace++[(event,output)]) u

/-- Runs with no side condition on their steps. -/
abbrev Run (step : σ → ε → Option (ω×σ)) (s : σ) : List (ε×ω) → σ → Prop :=
  RunWhen step (fun _ _ => True) s

variable {step : σ → ε → Option (ω×σ)} {ok ok' : σ → ε → Prop} {s t u : σ}
  {trace rest : List (ε×ω)}

/-- A weaker side condition admits every run of a stronger one. -/
theorem RunWhen.weaken (hok : ∀ t event,ok t event → ok' t event)
    (h : RunWhen step ok s trace t) : RunWhen step ok' s trace t := by
  induction h with
  | start => exact .start
  | next _ ho hs ih => exact .next ih (hok _ _ ho) hs

/-- A run meets a side condition that all of its events meet in any state. -/
theorem RunWhen.strengthen (hok : ∀ entry∈trace,∀ t,ok' t entry.1)
    (h : RunWhen step ok s trace t) : RunWhen step ok' s trace t := by
  induction h with
  | start => exact .start
  | next _ _ hs ih =>
    refine .next (ih fun entry hm => hok entry (List.mem_append_left _ hm)) ?_ hs
    exact hok (_,_) (List.mem_append_right _ (List.mem_singleton_self _)) _

/-- Forgetting the side condition leaves an ordinary run. -/
theorem RunWhen.run (h : RunWhen step ok s trace t) : Run step s trace t :=
  h.weaken fun _ _ _ => trivial

/-- A property of states and the traces that reached them holds after every
run if it holds at the start and every admitted step carries it on. -/
theorem RunWhen.trace_invariant (inv : List (ε×ω) → σ → Prop) (h0 : inv [] s)
    (hstep : ∀ trace t event output u,inv trace t → ok t event →
      step t event=some (output,u) → inv (trace++[(event,output)]) u)
    (h : RunWhen step ok s trace t) : inv trace t := by
  induction h with
  | start => exact h0
  | next _ ho hs ih => exact hstep _ _ _ _ _ ih ho hs

/-- The invariant rule for properties of the state alone. -/
theorem RunWhen.invariant (inv : σ → Prop) (h0 : inv s)
    (hstep : ∀ t event output u,inv t → ok t event →
      step t event=some (output,u) → inv u)
    (h : RunWhen step ok s trace t) : inv t :=
  h.trace_invariant (fun _ => inv) h0 fun _ => hstep

/-- Runs compose. -/
theorem RunWhen.append (h : RunWhen step ok s trace t) (h' : RunWhen step ok t rest u) :
    RunWhen step ok s (trace++rest) u := by
  induction h' with
  | start => simpa only [List.append_nil] using h
  | next _ ho hs ih =>
    rw [←List.append_assoc]
    exact .next ih ho hs

/-- Every cut of a trace passes through a state of the run. -/
theorem RunWhen.split (h : RunWhen step ok s (trace++rest) u) :
    ∃ t,RunWhen step ok s trace t ∧ RunWhen step ok t rest u := by
  induction rest using List.reverseRecOn generalizing u with
  | nil => exact ⟨u,by simpa only [List.append_nil] using h,.start⟩
  | append_singleton rest last ih =>
    rw [←List.append_assoc] at h
    generalize hl : trace++rest++[last]=whole at h
    cases h with
    | start => simp at hl
    | next hr ho hs =>
      obtain ⟨rfl,he⟩ := List.append_inj' hl rfl
      cases he
      obtain ⟨t,ht,hu⟩ := ih hr
      exact ⟨t,ht,.next hu ho hs⟩

/-- A trace determines the state it ends in. -/
theorem RunWhen.det (h : RunWhen step ok s trace t) (h' : RunWhen step ok' s trace u) : t=u := by
  induction h generalizing u with
  | start =>
    generalize hl : ([] : List (ε×ω))=whole at h'
    cases h' with
    | start => rfl
    | next => simp at hl
  | next _ _ hs ih =>
    generalize hl : _++[_]=whole at h'
    cases h' with
    | start => simp at hl
    | next hr _ hs' =>
      obtain ⟨rfl,he⟩ := List.append_inj' hl rfl
      cases he
      obtain rfl := ih hr
      exact congrArg Prod.snd (Option.some.inj (hs.symm.trans hs'))

/-- Every entry of a trace is an enabled step between two parts of the run. -/
theorem RunWhen.cut {entry : ε×ω} (h : RunWhen step ok s (trace++entry::rest) u) :
    ∃ t t',RunWhen step ok s trace t ∧ ok t entry.1 ∧ step t entry.1=some (entry.2,t') ∧
      RunWhen step ok t' rest u := by
  rw [List.append_cons] at h
  obtain ⟨t',h,hrest⟩ := h.split
  generalize hl : trace++[entry]=whole at h
  cases h with
  | start => simp at hl
  | next hr ho hs =>
    obtain ⟨rfl,he⟩ := List.append_inj' hl rfl
    cases he
    exact ⟨_,_,hr,ho,hs,hrest⟩

/-- A cut of a trace one entry longer is at its last entry or earlier. -/
theorem cut_of_snoc {τ : Type*} {trace pre post : List τ} {last entry : τ}
    (h : trace++[last]=pre++entry::post) :
    pre=trace ∧ entry=last ∧ post=[] ∨ ∃ mid,post=mid++[last] ∧ trace=pre++entry::mid := by
  rcases List.eq_nil_or_concat post with rfl | ⟨mid,x,rfl⟩
  · obtain ⟨rfl,he⟩ := List.append_inj' h rfl
    cases he
    exact .inl ⟨rfl,rfl,rfl⟩
  · rw [List.concat_eq_append,←List.cons_append,←List.append_assoc] at h
    obtain ⟨rfl,he⟩ := List.append_inj' h rfl
    cases he
    exact .inr ⟨mid,List.concat_eq_append,rfl⟩

/-- The property holds in every state that the trace passes through. -/
def Throughout (step : σ → ε → Option (ω×σ)) (s : σ) (good : σ → Prop) (trace : List (ε×ω)) : Prop :=
  ∀ pre post u,trace=pre++post → Run step s pre u → good u

/-- A condition on steps is exact for a property of states: if steps that meet
it carry an invariant which gives the property, and from the invariant only
steps that meet it lead to the property, then the property holds throughout a
run if and only if every step meets the condition. -/
theorem RunWhen.throughout_iff (inv good : σ → Prop) (h0 : inv s) (hgood : ∀ t,inv t → good t)
    (hkeep : ∀ t event output u,inv t → ok t event → ok' t event →
      step t event=some (output,u) → inv u)
    (hexact : ∀ t event output u,inv t → ok t event → step t event=some (output,u) → good u →
      ok' t event)
    (h : RunWhen step ok s trace t) : Throughout step s good trace ↔
      RunWhen step (fun t event => ok t event ∧ ok' t event) s trace t := by
  have hinv : ∀ {trace u},RunWhen step (fun t event => ok t event ∧ ok' t event) s trace u →
      inv u := fun hr =>
    hr.invariant inv h0 fun _ _ _ _ hi ho hs => hkeep _ _ _ _ hi ho.1 ho.2 hs
  constructor
  · intro hall
    induction h with
    | start => exact .start
    | @next trace t u event output hr ho hs ih =>
      have hmet := ih fun pre post v he => hall pre (post++[(event,output)]) v (by rw [he]; simp)
      have hu := hall _ [] u (List.append_nil _).symm (hr.next ho hs).run
      exact .next hmet ⟨ho,hexact _ _ _ _ (hinv hmet) ho hs hu⟩ hs
  · rintro hmet pre post u rfl hpre
    obtain ⟨v,hv,-⟩ := hmet.split
    obtain rfl := hpre.det hv
    exact hgood _ (hinv hv)

/-- Execute a list of events, stopping at the first one not enabled. -/
def exec (step : σ → ε → Option (ω×σ)) : σ → List ε → Option (List (ε×ω)×σ)
  | s,[] => some ([],s)
  | s,event::events =>
    match step s event with
    | none => none
    | some (output,t) =>
      match exec step t events with
      | none => none
      | some (trace,u) => some ((event,output)::trace,u)

/-- Events that are always enabled and never change the state can be left out
of an execution: what is left of the trace and the final state are the same. -/
theorem exec_filter (keep : ε → Bool)
    (hskip : ∀ t event,keep event=false → ∃ output,step t event=some (output,t))
    {events : List ε} : exec step s (events.filter keep)=
      (exec step s events).map fun r => (r.1.filter fun entry => keep entry.1,r.2) := by
  induction events generalizing s with
  | nil => rfl
  | cons event events ih =>
    cases hk : keep event with
    | false =>
      obtain ⟨output,hs⟩ := hskip s event hk
      rw [List.filter_cons_of_neg (by simp [hk]),ih,exec,hs]
      dsimp only
      cases exec step s events <;> simp [hk]
    | true =>
      rw [List.filter_cons_of_pos hk,exec,exec]
      cases step s event with
      | none => rfl
      | some r =>
        dsimp only
        rw [ih]
        cases exec step r.2 events with
        | none => rfl
        | some u => exact congrArg some (by simp [hk])

/-- A step function that commutes with a translation of states and events
gives the translated executions, with the same outputs. -/
theorem exec_map {step' : σ' → ε' → Option (ω×σ')} {inv : σ → Prop} (f : σ → σ') (g : ε → ε')
    (hinv : ∀ t event output u,inv t → step t event=some (output,u) → inv u)
    (hsim : ∀ t event,inv t → step' (f t) (g event)=(step t event).map fun r => (r.1,f r.2))
    {events : List ε} (h0 : inv s) : exec step' (f s) (events.map g)=
      (exec step s events).map fun r => (r.1.map fun entry => (g entry.1,entry.2),f r.2) := by
  induction events generalizing s with
  | nil => rfl
  | cons event events ih =>
    simp only [List.map_cons,exec,hsim s event h0]
    cases hs : step s event with
    | none => rfl
    | some r =>
      simp only [Option.map_some,ih (hinv _ _ _ _ h0 hs)]
      cases exec step r.2 events <;> rfl

/-- One enabled step is a run of length one. -/
theorem RunWhen.single {event : ε} {output : ω} (ho : ok s event)
    (hs : step s event=some (output,t)) : RunWhen step ok s [(event,output)] t :=
  .next .start ho hs

/-- A successful execution is a run with the same trace and end state. -/
theorem run_of_exec {events : List ε} (h : exec step s events=some (trace,t)) :
    Run step s trace t := by
  induction events generalizing s trace with
  | nil =>
    cases h
    exact .start
  | cons event events ih =>
    simp only [exec] at h
    split at h
    · cases h
    · rename_i output mid hs
      split at h
      · cases h
      · rename_i tail last he
        cases h
        exact (RunWhen.single trivial hs).append (ih he)

/-- The steps that meet a side condition, executably. -/
def restrict (step : σ → ε → Option (ω×σ)) (ok : σ → ε → Prop) [∀ s event,Decidable (ok s event)]
    (s : σ) (event : ε) : Option (ω×σ) :=
  if ok s event then step s event else none

/-- A successful execution of restricted steps is a run that meets the
condition. -/
theorem runWhen_of_exec [∀ s event,Decidable (ok s event)] {events : List ε}
    (h : exec (restrict step ok) s events=some (trace,t)) : RunWhen step ok s trace t := by
  have hr := run_of_exec h
  clear h
  induction hr with
  | start => exact .start
  | next _ _ hs ih =>
    unfold restrict at hs
    split at hs
    · rename_i ho
      exact .next ih ho hs
    · cases hs

/-- A map of states that turns every step of one system into a run of
another turns whole runs into runs: the first system refines the second. -/
theorem RunWhen.refine {step' : σ' → ε' → Option (ω'×σ')} {inv : σ → Prop} (f : σ → σ')
    (h0 : inv s)
    (hinv : ∀ t event output u,inv t → ok t event → step t event=some (output,u) → inv u)
    (hsim : ∀ t event output u,inv t → ok t event → step t event=some (output,u) →
      ∃ trace',Run step' (f t) trace' (f u))
    (h : RunWhen step ok s trace t) : ∃ trace',Run step' (f s) trace' (f t) := by
  induction h with
  | start => exact ⟨[],.start⟩
  | next hr ho hs ih =>
    obtain ⟨first,hf⟩ := ih
    obtain ⟨second,hg⟩ := hsim _ _ _ _ (hr.invariant inv h0 hinv) ho hs
    exact ⟨first++second,hf.append hg⟩

end AivyxBroker.RunInvariant
