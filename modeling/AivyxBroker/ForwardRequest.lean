import AivyxBroker.Forward

/-!
# The client's request is sent once

A completion request must not reach llama-server twice: each costs a whole
generation on the slot. Restoring, warming up and saving may come before the
client's request, and may fail, and then an error is all that the client gets.
A task sends the client's request at most once, pinned to its own slot, and a
task that is over has sent it or has refused it.
-/

namespace AivyxBroker.Forward

open Program Scheduler

/-- The body of a forwarded request. -/
def postedBody : Performed Ans → Option Json
  | ⟨.post .forwarded _ body,_⟩ => some body
  | _ => none

/-- The bodies of the forwarded requests, oldest first. -/
def posted (trace : List (Performed Ans)) : List Json := trace.filterMap postedBody

/-- The error that the handler is told to answer with. -/
def refusal : Performed Ans → Option Error
  | ⟨.sendHead (.error err),_⟩ => some err
  | _ => none

/-- The errors that the handler was told to answer with, oldest first. -/
def refusals (trace : List (Performed Ans)) : List Error := trace.filterMap refusal

/-- Whether the operation forwards the client's request. -/
def Op.forwards : Op → Bool
  | .post .forwarded .. => true
  | _ => false

/-- The demand on a task: it forwards this body only, and no second time. -/
def Once (sent : Json) (trace : List (Performed Ans)) (op : Op) : Prop :=
  op.forwards=true → posted trace=[] ∧ ∃ target,op=.post .forwarded target sent

@[simp] theorem posted_append (trace rest : List (Performed Ans)) :
    posted (trace++rest)=posted trace++posted rest := List.filterMap_append

@[simp] theorem refusals_append (trace rest : List (Performed Ans)) :
    refusals (trace++rest)=refusals trace++refusals rest := List.filterMap_append

/-- Only forwarding posts the client's request. -/
theorem posted_other {op : Op} (hop : op.forwards=false) (answer : Ans op) :
    posted [⟨op,answer⟩]=[] := by
  cases op with
  | post purpose target body =>
    cases purpose with
    | forwarded => cases hop
    | warmUp => rfl
  | _ => rfl

/-- The client's request is on its way, or refused. -/
def Decided (sent : Json) (trace : List (Performed Ans)) : Prop :=
  posted trace=[sent] ∨ refusals trace≠[]

/-- Other operations than forwarding do not change the decision. -/
theorem Decided.next {sent : Json} {trace : List (Performed Ans)} {op : Op}
    (h : Decided sent trace) (hop : op.forwards=false) (answer : Ans op) :
    Decided sent (trace++[⟨op,answer⟩]) := by
  rcases h with h | h
  · exact .inl (by rw [posted_append,posted_other hop,h,List.append_nil])
  · exact .inr (by simp [h])

variable {llamaServerUrl : String} {body sent : Json} {hint : Option SlotHint}
  {admission : Admission} {trace : List (Performed Ans)} {rest : Forwarding Unit}

/-- Operations that do not forward meet the demand. -/
theorem once_quiet {α : Type} {t : Forwarding α} {inv : List (Performed Ans) → Prop}
    (h : t.Every fun op => op.forwards=false)
    (hkeep : ∀ trace op (answer : Ans op),op.forwards=false → inv trace →
      inv (trace++[⟨op,answer⟩]))
    (hs : inv trace) : t.Safe (recording (Once sent)) trace fun _ => inv := by
  refine Every.safe h (fun trace' op hop hinv => ⟨fun hf => ?_,?_⟩) hs
  · rw [hop] at hf
    cases hf
  · rintro answer _ rfl
    exact hkeep trace' op answer hop hinv

/-- Preparing the slot does not forward. -/
theorem prepareSlot_quiet (llamaServerUrl : String) (body : Json) (hint : Option SlotHint)
    (admission : Admission) : (prepareSlot llamaServerUrl body hint admission).Every
      fun op => op.forwards=false := by
  have hwarm : ∀ h,(warmUp llamaServerUrl body h admission.slotId).Every
      fun op => op.forwards=false := by
    refine fun h => Every.bind ⟨rfl,fun _ => trivial⟩ fun answer => ?_
    split
    · trivial
    · exact ⟨rfl,fun _ => trivial⟩
  have hrestored : ∀ h,∀ restored : Bool,Every (fun op => op.forwards=false)
      (if restored=true then pure (.ok ()) else warmUp llamaServerUrl body h admission.slotId) := by
    intro h restored
    split
    · trivial
    · exact hwarm h
  cases hint with
  | none => exact ⟨rfl,fun _ => trivial⟩
  | some h =>
    simp only [prepareSlot]
    split
    · trivial
    · refine Every.bind ⟨rfl,fun _ => trivial⟩ fun answer => ?_
      refine Every.bind (hrestored h _) fun warmed => ?_
      cases warmed with
      | error err => trivial
      | ok _ => exact ⟨rfl,fun _ => trivial⟩

/-- Relaying the response does not forward. -/
theorem afterUpstream_quiet (slotId : ℕ) (outcome : Except Error Response) :
    (afterUpstream slotId outcome).Every fun op => op.forwards=false := by
  refine (afterUpstream_every slotId outcome).mono fun op hop => ?_
  rcases hop with hop | rfl
  · cases op <;> first | rfl | cases hop
  · rfl

/-- The upstream part of the task forwards the body it was given, unless
preparing the slot fails. -/
theorem sendUpstream_once (llamaServerUrl : String) (body : Json) (hint : Option SlotHint)
    (admission : Admission) : (sendUpstream llamaServerUrl body hint admission).Safe
      (recording (Once (body.insert "id_slot" (slotNumber admission.slotId)))) []
        fun outcome trace => ∀ resp,outcome=.ok resp →
          Decided (body.insert "id_slot" (slotNumber admission.slotId)) trace := by
  have hprepare : (prepareSlot llamaServerUrl body hint admission).Safe
      (recording (Once (body.insert "id_slot" (slotNumber admission.slotId)))) []
        fun _ trace => posted trace=[] := by
    refine once_quiet (prepareSlot_quiet llamaServerUrl body hint admission) ?_ rfl
    intro trace op answer hop h
    rw [posted_append,posted_other hop,h,List.append_nil]
  refine Safe.bind hprepare fun prepared trace h => ?_
  cases prepared with
  | error err => exact fun resp he => (by cases he)
  | ok _ =>
    refine .ask (fun _ => ⟨h,_,rfl⟩) ?_
    rintro answer _ rfl resp -
    refine .inl ?_
    rw [posted_append,h]
    rfl

/-- The whole task forwards once, and is not over before it has decided. -/
theorem forward_once (llamaServerUrl : String) (body : Json) (hint : Option SlotHint)
    (admission : Admission) : (forward llamaServerUrl body hint admission).Safe
      (recording (Once (body.insert "id_slot" (slotNumber admission.slotId)))) []
        fun _ => Decided (body.insert "id_slot" (slotNumber admission.slotId)) := by
  rw [forward_eq]
  refine Safe.bind (sendUpstream_once llamaServerUrl body hint admission) fun outcome trace h => ?_
  have hquiet := afterUpstream_quiet admission.slotId outcome
  cases outcome with
  | ok resp => exact once_quiet hquiet (fun _ _ answer hop h => h.next hop answer) (h resp rfl)
  | error err =>
    refine .ask (fun hf => (by cases hf)) ?_
    rintro taken _ rfl
    refine once_quiet (hquiet.2 taken) (fun _ _ answer hop h => h.next hop answer) (.inr ?_)
    rw [refusals_append]
    exact List.append_ne_nil_of_right_ne_nil _ (List.cons_ne_nil err [])

/-- At every point of a task, it has forwarded its request once or not yet. -/
theorem posted_of_runs (h : Runs (forward llamaServerUrl body hint admission) trace rest) :
    posted trace=[] ∨ posted trace=[body.insert "id_slot" (slotNumber admission.slotId)] := by
  induction h with
  | start => exact .inl rfl
  | @next trace op resume answer hr ih =>
    rw [posted_append]
    cases hop : op.forwards with
    | false => rwa [posted_other hop,List.append_nil]
    | true =>
      have hsafe := hr.safe (forward_once llamaServerUrl body hint admission)
      obtain ⟨hnone,target,rfl⟩ := hsafe.1 hop
      exact .inr (by rw [hnone]; rfl)

/-- A task that is over has forwarded its request, or refused it. -/
theorem decided_of_runs
    (h : Runs (forward llamaServerUrl body hint admission) trace (.done ())) :
    Decided (body.insert "id_slot" (slotNumber admission.slotId)) trace :=
  h.safe (forward_once llamaServerUrl body hint admission)

end AivyxBroker.Forward
