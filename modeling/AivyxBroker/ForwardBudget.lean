import AivyxBroker.RelayStream

/-!
# What a client can cost the relaying task

A client that disappears or stops reading must not keep the task, and with it
the slot, from ending. Whatever the client does the task's next operation can
be performed, it has at most two operations for each item of the body and five
more, and at most one of them is a chunk send that fails: after it the client
is not offered anything any more.
-/

namespace AivyxBroker.Forward

open RunInvariant Program

/-- A chunk send that did not get through. -/
def failedSend (p : Performed Ans) : Bool :=
  match p with
  | ⟨.sendChunk _,answer⟩ => (answer : SendResult)≠.sent
  | _ => false

/-- The operation is a chunk send. -/
def Op.sends : Op → Bool
  | .sendChunk _ => true
  | _ => false

/-- The event is a step of the task. -/
def StreamEvent.isTask : StreamEvent → Bool
  | .task _ => true
  | _ => false

/-- The steps of the task in a trace of the system. -/
def taskSteps (trace : List (StreamEvent×Unit)) : ℕ := trace.countP fun entry => entry.1.isTask

/-- The demand on every operation: it is within the budget, and offers nothing
to a client that a send has failed for. -/
def affords (budget : ℕ) (performed : List (Performed Ans)) (op : Op) : Prop :=
  performed.length<budget ∧ (op.sends=true → performed.countP failedSend=0)

variable {budget slotId : ℕ} {performed : List (Performed Ans)}

/-- An operation that is no send only needs to be within the budget. -/
theorem affords_other {op : Op} (hop : op.sends=false) (h : performed.length<budget) :
    affords budget performed op := ⟨h,fun hs => (by rw [hop] at hs; cases hs)⟩

/-- Only sends fail. -/
theorem failedSend_other {op : Op} (hop : op.sends=false) (answer : Ans op) :
    failedSend ⟨op,answer⟩=false := by
  cases op <;> first | rfl | cases hop

/-- The budget of a relay loop: two operations for each item and four more
with a client, one and two without. -/
def relayBudget (items : ℕ) (client : Bool) : ℕ := if client=true then 2*items+4 else items+2

/-- The end of the task takes less than the loop would take. -/
theorem finish_affords (items : ℕ) (client : Bool)
    (h : performed.length+relayBudget items client ≤ budget+1) :
    (finish slotId client).Safe (recording (affords budget)) performed fun _ _ => True := by
  unfold relayBudget at h
  refine .perform (affords_other rfl (by split at h <;> omega)) ?_
  rintro answer _ rfl
  cases client with
  | false => trivial
  | true =>
    refine .ask (affords_other rfl ?_) ?_
    · rw [if_pos rfl] at h
      rw [List.length_append,List.length_singleton]
      omega
    · rintro answer' _ rfl
      trivial

/-- What holds of the operations so far when `items` are left. -/
def Solvent (budget items : ℕ) (client : Bool) (performed : List (Performed Ans)) : Prop :=
  performed.length+relayBudget items client ≤ budget ∧
    (client=true → performed.countP failedSend=0)

/-- Offering an item leaves enough for the rest. -/
theorem offer_affords (items : ℕ) (chunk : Chunk) (client : Bool)
    (h : performed.length+relayBudget (items+1) client ≤ budget+1)
    (hfail : client=true → performed.countP failedSend=0) :
    (offer chunk client).Safe (recording (affords budget)) performed (Solvent budget items) := by
  cases client with
  | false =>
    refine ⟨?_,fun he => (by cases he)⟩
    simp only [relayBudget,Bool.false_eq_true,if_false] at h ⊢
    omega
  | true =>
    simp only [relayBudget,if_true] at h
    refine .perform ⟨by omega,fun _ => hfail rfl⟩ ?_
    rintro answer _ rfl
    have hlen : (performed++[(⟨.sendChunk chunk,answer⟩ : Performed Ans)]).length=
        performed.length+1 := by simp
    cases answer with
    | sent =>
      refine ⟨?_,fun _ => ?_⟩
      · rw [hlen]
        simp only [relayBudget,if_true]
        omega
      · rw [List.countP_append,hfail rfl]
        rfl
    | closed =>
      refine .perform (affords_other rfl (by omega)) ?_
      rintro answer' _ rfl
      refine ⟨?_,fun he => (by cases he)⟩
      simp only [relayBudget,List.length_append,List.length_singleton,Bool.false_eq_true,if_false]
      omega
    | timedOut =>
      refine .perform (affords_other rfl (by omega)) ?_
      rintro answer' _ rfl
      refine .perform (affords_other rfl (by simp; omega)) ?_
      rintro answer'' _ rfl
      refine ⟨?_,fun he => (by cases he)⟩
      simp only [relayBudget,List.length_append,List.length_singleton,Bool.false_eq_true,if_false]
      omega

/-- The relay loop keeps to its budget. -/
theorem relay_affords (body : List Chunk) (client : Bool)
    (h : Solvent budget body.length client performed) :
    (relay slotId body client).Safe (recording (affords budget)) performed fun _ _ => True := by
  obtain ⟨hlen,hfail⟩ := h
  have hpos : 2 ≤ relayBudget body.length client := by
    unfold relayBudget
    split <;> omega
  induction body generalizing performed client with
  | nil =>
    refine .perform (affords_other rfl (by omega)) ?_
    rintro answer _ rfl
    refine finish_affords 0 client ?_
    rw [List.length_nil] at hlen
    rw [List.length_append,List.length_singleton]
    omega
  | cons chunk rest ih =>
    refine .perform (affords_other rfl (by omega)) ?_
    rintro answer _ rfl
    refine Safe.bind (offer_affords rest.length chunk client ?_ fun hc => ?_)
      fun client' performed' h => ?_
    · rw [List.length_append,List.length_singleton]
      rw [List.length_cons] at hlen
      omega
    · rw [List.countP_append,hfail hc]
      rfl
    · obtain ⟨hlen',hfail'⟩ := h
      cases hc : isErr chunk with
      | true => simpa using finish_affords rest.length client' (by omega)
      | false =>
        have hpos' : 2 ≤ relayBudget rest.length client' := by
          unfold relayBudget
          split <;> omega
        simpa using ih client' hlen' hfail' hpos'

/-- So does the task, with one operation more for the head. -/
theorem relayResponse_affords (slotId : ℕ) (resp : Response) : (relayResponse slotId resp).Safe
    (recording (affords (2*resp.body.length+5))) [] fun _ _ => True := by
  refine .perform (affords_other rfl (by simp)) ?_
  rintro taken _ rfl
  cases taken with
  | true =>
    refine relay_affords resp.body true ⟨?_,fun _ => rfl⟩
    simp [relayBudget]
    omega
  | false =>
    refine .perform (affords_other rfl (by simp)) ?_
    rintro answer _ rfl
    refine relay_affords resp.body false ⟨?_,fun he => (by cases he)⟩
    simp [relayBudget]
    omega

/-- If each failure in a record came when there was none before, there is one
at most. -/
theorem countP_le_one {τ : Type*} {p : τ → Bool} {xs : List τ}
    (h : ∀ pre x post,xs=pre++x::post → p x=true → pre.countP p=0) : xs.countP p ≤ 1 := by
  induction xs using List.reverseRecOn with
  | nil => simp
  | append_singleton xs x ih =>
    have hxs := ih fun pre y post he => h pre y (post++[x]) (by rw [he]; simp)
    rw [List.countP_append]
    by_cases hx : p x=true
    · rw [h xs x [] rfl hx]
      simp [hx]
    · simpa [hx] using hxs

/-- A record of a task that keeps to its budget. -/
theorem affords_of_runs {resp : Response} {rest : Forwarding Unit}
    (h : Runs (relayResponse slotId resp) performed rest) :
    performed.length ≤ 2*resp.body.length+5 ∧ performed.countP failedSend ≤ 1 := by
  have hsafe := relayResponse_affords slotId resp
  constructor
  · rcases List.eq_nil_or_concat performed with rfl | ⟨pre,p,rfl⟩
    · exact Nat.zero_le _
    · rw [List.concat_eq_append] at h ⊢
      have hlt := (h.admitted hsafe).1
      rw [List.length_append,List.length_singleton]
      omega
  · refine countP_le_one fun pre p post he hp => ?_
    subst he
    refine (h.admitted hsafe).2 ?_
    obtain ⟨op,answer⟩ := p
    cases hop : op.sends with
    | true => rfl
    | false =>
      rw [failedSend_other hop] at hp
      cases hp

/-- The task's steps in a run of the system are a run of its program. -/
theorem runs_of_stream {capacity : ℕ} {st st' : Streaming} {trace : List (StreamEvent×Unit)}
    (h : Run (streamStep capacity) st trace st') :
    ∃ performed,Runs st.task performed st'.task ∧ performed.length=taskSteps trace := by
  refine h.trace_invariant (fun trace st' => ∃ performed,Runs st.task performed st'.task ∧
    performed.length=taskSteps trace) ⟨[],.start,rfl⟩ ?_
  rintro trace t event output u ⟨performed,hr,hlen⟩ - hs
  cases event with
  | task choice =>
    simp only [streamStep] at hs
    split at hs
    · cases hs
    · rename_i op resume htask
      obtain ⟨⟨answer,link⟩,-,he⟩ := Option.map_eq_some_iff.mp hs
      cases he
      rw [htask] at hr
      exact ⟨_,.next answer hr,by simpa [taskSteps,StreamEvent.isTask] using hlen⟩
  | poll =>
    obtain ⟨link,-,he⟩ := Option.map_eq_some_iff.mp hs
    cases he
    exact ⟨performed,hr,by simpa [taskSteps,StreamEvent.isTask] using hlen⟩
  | hangUp =>
    obtain ⟨link,-,he⟩ := Option.map_eq_some_iff.mp hs
    cases he
    exact ⟨performed,hr,by simpa [taskSteps,StreamEvent.isTask] using hlen⟩

/-- No client keeps the task from ending. In every run beside any client, the
task's next operation can be performed until it is finished, it is finished
after two steps for each item of the body and five more, and at most one chunk
send has failed. -/
theorem relay_outlasts_client {capacity : ℕ} {resp : Response} {trace : List (StreamEvent×Unit)}
    {st : Streaming} (h : Run (streamStep capacity) (Streaming.start slotId resp) trace st) :
    (st.task=.done () ∨ ∃ choice st',streamStep capacity st (.task choice)=some ((),st')) ∧
    ∃ performed,Runs (relayResponse slotId resp) performed st.task ∧
      performed.length=taskSteps trace ∧ taskSteps trace ≤ 2*resp.body.length+5 ∧
      performed.countP failedSend ≤ 1 := by
  constructor
  · have hrel := relaying_of_run h
    obtain ⟨task,link⟩ := st
    cases task with
    | done => exact .inl rfl
    | ask op resume =>
      obtain ⟨choice,hsome⟩ := hrel.1.2 link
      obtain ⟨⟨answer,link'⟩,hp⟩ := Option.isSome_iff_exists.mp hsome
      exact .inr ⟨choice,⟨resume answer,link'⟩,by simp only [streamStep,hp,Option.map_some]⟩
  · obtain ⟨performed,hr,hlen⟩ := runs_of_stream h
    obtain ⟨hle,hfail⟩ := affords_of_runs hr
    exact ⟨performed,hr,hlen,hlen ▸ hle,hfail⟩

/-- A client that takes the head and never reads: the task gives up on it and
finishes within its budget. -/
theorem relay_outlasts_client_stalled : ∃ trace st,Run (streamStep 1) (Streaming.start 0
    ⟨⟨200,[]⟩,[.ok [104],.ok [105],.ok [106]]⟩) trace st ∧ st.task=.done () ∧
      taskSteps trace=10 ∧ taskSteps trace ≤ 2*3+5 := by
  obtain ⟨⟨trace,st⟩,he⟩ : ∃ r,exec (streamStep 1) (Streaming.start 0
      ⟨⟨200,[]⟩,[.ok [104],.ok [105],.ok [106]]⟩) [.task .sent,.task .sent,.task .sent,.task .sent,
        .task .timedOut,.task .sent,.task .sent,.task .sent,.task .sent,.task .sent]=some r :=
    ⟨_,rfl⟩
  have hrun := run_of_exec he
  obtain ⟨performed,-,-,hle,-⟩ := (relay_outlasts_client hrun).2
  have hend : st.task=.done () ∧ taskSteps trace=10 := by
    cases he
    exact ⟨rfl,rfl⟩
  exact ⟨trace,st,hrun,hend.1,hend.2,hle⟩

end AivyxBroker.Forward
