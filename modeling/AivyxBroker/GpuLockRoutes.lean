import AivyxBroker.GpuLockLease
import AivyxBroker.Json

/-!
# The GPU lock as its clients see it

A client of the lock is another process: it sees a status and a JSON text, and
names its lease by a text that it may have changed in between. What a client
can conclude from the answers alone is what the lock does: the lease last
shown and not ended since is the one that can be released, once, by any text
that denotes it.
-/

namespace AivyxBroker.GpuLock

open RunInvariant WakeSignal

variable {L : Type*}

/-- An answer, with its JSON body if it has one. -/
structure Response where
  /-- The status. -/
  status : ℕ
  /-- The body. -/
  body : Option Json

/-- The body of a request to release a lease. -/
structure ReleaseRequest where
  /-- What the client calls its lease. -/
  leaseId : String

/-- An answer with a status of failure. -/
def errorResponse (status : ℕ) (text : String) : Response :=
  ⟨status,some (.object [("error",.string text)])⟩

/-- The answer to an acquire request, nothing where the code panics. -/
def acquireResponse (display : L → String) : Except GpuLockError L → Option Response
  | .ok lease => some ⟨200,some (.object [("lease_id",.string (display lease))])⟩
  | .error .timeout => some (errorResponse 503 "timed out waiting for the GPU lock")
  | .error .unknownLease => none

/-- The answer to a release call, nothing where the code panics. -/
def releaseResponse : Except GpuLockError Unit → Option Response
  | .ok () => some ⟨200,none⟩
  | .error .unknownLease =>
    some (errorResponse 404 "lease not found, already released, or expired")
  | .error .timeout => none

/-- Handle a release request. -/
def gpuLockRelease [DecidableEq L] (parse : String → Option L) (inner : Inner L)
    (callers : Callers Unit) (body : ReleaseRequest) : Option Response×Inner L×Callers Unit :=
  match parse body.leaseId with
  | some lease =>
    let (result,inner,callers) := release inner callers lease
    (releaseResponse result,inner,callers)
  | none => (some (errorResponse 400 "lease_id is not a valid UUID"),inner,callers)

/-- What happens at the lock's routes. -/
inductive RouteEvent (L : Type*) where
  /-- An action on the lock other than a release. -/
  | call (event : Event L)
  /-- A release request arrives. -/
  | release (body : ReleaseRequest)

/-- What can be seen of it. -/
inductive RouteOutput (L : Type*) where
  /-- The answer to an acquire request. -/
  | acquired (caller : ℕ) (response : Option Response)
  /-- An acquire request waits. -/
  | waiting (caller : ℕ)
  /-- A client that waited is gone. -/
  | dropped (caller : ℕ)
  /-- The answer to a release request. -/
  | released (response : Option Response)
  /-- The lease that a reap ended, as logged. -/
  | reaped (lease : Option L)
  /-- Time passed. -/
  | ticked

/-- What is seen of an action on the lock. -/
def routeOutput (display : L → String) : Output L → RouteOutput L
  | .granted caller lease => .acquired caller (acquireResponse display (.ok lease))
  | .timedOut caller => .acquired caller (acquireResponse display (.error .timeout))
  | .parked caller => .waiting caller
  | .cancelled caller => .dropped caller
  | .released result => .released (releaseResponse result)
  | .reaped lease => .reaped lease
  | .ticked => .ticked

/-- One step at the routes. -/
def routeStep [DecidableEq L] (display : L → String) (parse : String → Option L) (maxHold : ℕ)
    (st : State L) : RouteEvent L → Option (RouteOutput L×State L)
  | .call (.release _) => none
  | .call event => (step maxHold st event).map fun r => (routeOutput display r.1,r.2)
  | .release body =>
    let (response,inner,callers) := gpuLockRelease parse st.inner st.callers body
    some (.released response,{st with inner := inner, callers := callers})

/-- The text of the lease in a successful answer. -/
def Response.leaseId (r : Response) : Option String :=
  if r.status=200 then (r.body.bind (Json.get "lease_id")).bind Json.asStr else none

/-- A lease was shown to a client. -/
def RouteOutput.shows : RouteOutput L → Bool
  | .acquired _ response => (response.bind Response.leaseId).isSome
  | _ => false

/-- A release request succeeded. -/
def RouteOutput.confirms : RouteOutput L → Bool
  | .released response => response.any fun r => r.status==200
  | _ => false

/-- A lease was ended, by a release or a reap. -/
def RouteOutput.ends : RouteOutput L → Bool
  | .reaped lease => lease.isSome
  | output => output.confirms

/-- The lease out after an output, going by what the outputs say. -/
def observe (parse : String → Option L) (shown : Option L) : RouteOutput L → Option L
  | .acquired _ response =>
    match response.bind Response.leaseId with
    | some text => parse text
    | none => shown
  | .released response => if (RouteOutput.released response : RouteOutput L).confirms=true then none
      else shown
  | .reaped lease => if lease.isSome=true then none else shown
  | .waiting _ | .dropped _ | .ticked => shown

/-- The lease out after a trace, going by what it says. -/
def shownLease (parse : String → Option L) (trace : List (RouteEvent L×RouteOutput L)) : Option L :=
  trace.foldl (fun shown entry => observe parse shown entry.2) none

/-- The lease out after one entry more. -/
theorem shownLease_snoc (parse : String → Option L) (trace : List (RouteEvent L×RouteOutput L))
    (entry : RouteEvent L×RouteOutput L) :
    shownLease parse (trace++[entry])=observe parse (shownLease parse trace) entry.2 := by
  rw [shownLease,List.foldl_append]
  rfl

/-- A lease shown is read in the answer. -/
theorem acquired_leaseId (display : L → String) (lease : L) :
    (acquireResponse display (.ok lease)).bind Response.leaseId=some (display lease) := by
  simp [acquireResponse,Response.leaseId,Json.get,Json.asStr]

variable {display : L → String} {parse : String → Option L} {maxHold : ℕ}
  {st st' : State L} {event : RouteEvent L} {output : RouteOutput L}
  {trace : List (RouteEvent L×RouteOutput L)}

/-- What one step does to the holder, and what is seen of it: a lease is shown
that takes a free lock, the holder's lease ends, or neither. -/
inductive Seen (parse : String → Option L) (st st' : State L) (output : RouteOutput L) : Prop
  /-- The new holder's lease is shown. -/
  | shows (lease : L) (hfree : st.holder=none) (hheld : st'.holder=some lease)
      (hs : output.shows=true) (he : output.ends=false)
      (ho : ∀ shown,observe parse shown output=some lease)
  /-- The holder's lease ends. -/
  | ends (lease : L) (hheld : st.holder=some lease) (hfree : st'.holder=none)
      (hs : output.shows=false) (he : output.ends=true)
      (ho : ∀ shown,observe parse shown output=none)
  /-- The holder stays. -/
  | neither (hsame : st'.holder=st.holder) (hs : output.shows=false) (he : output.ends=false)
      (ho : ∀ shown,observe parse shown output=shown)

/-- An answer that says nothing about a lease. -/
theorem Seen.quiet (hsame : st'.holder=st.holder) (hs : output.shows=false)
    (he : output.ends=false) : Seen parse st st' output := by
  refine .neither hsame hs he fun shown => ?_
  cases output with
  | acquired caller response =>
    have hnone : response.bind Response.leaseId=none := by
      simpa only [RouteOutput.shows,Option.isSome_eq_false_iff,Option.isNone_iff_eq_none] using hs
    simp only [observe,hnone]
  | released response =>
    have hno : (RouteOutput.released response : RouteOutput L).confirms=false := he
    exact if_neg (by rw [hno]; exact Bool.false_ne_true)
  | reaped lease =>
    have hno : lease.isSome=false := he
    exact if_neg (by rw [hno]; exact Bool.false_ne_true)
  | waiting | dropped | ticked => rfl

/-- What is seen of each of the six effects. -/
theorem Effect.seen (hparse : ∀ l,parse (display l)=some l) {action : Event L} {result : Output L}
    (h : Effect maxHold st action result st') : Seen parse st st' (routeOutput display result) := by
  cases h with
  | grant callers caller lease hfree =>
    have hid := acquired_leaseId display lease
    refine .shows lease (by rw [State.holder,hfree]; rfl) rfl ?_ rfl fun shown => ?_
    · rw [routeOutput,RouteOutput.shows,hid]
      rfl
    · simp only [routeOutput,observe,hid]
      exact hparse lease
  | park => exact .quiet rfl rfl rfl
  | leave caller he => rcases he with ⟨-,rfl⟩ | ⟨-,rfl⟩ <;> exact .quiet rfl rfl rfl
  | finish held hheld he =>
    have hheld' : st.holder=some held.lease := by
      rw [State.holder,hheld]
      rfl
    rcases he with ⟨-,rfl⟩ | ⟨-,rfl,-⟩ <;> exact .ends held.lease hheld' rfl rfl rfl fun _ => rfl
  | refuse he => rcases he with ⟨_,-,rfl,-⟩ | ⟨-,rfl⟩ <;> exact .quiet rfl rfl rfl
  | tick => exact .quiet rfl rfl rfl

/-- The code panics nowhere. -/
def RouteOutput.Answers (output : RouteOutput L) : Prop :=
  output≠.released none ∧ ∀ caller,output≠.acquired caller none

/-- None of the six effects makes a route panic. -/
theorem Effect.answers {action : Event L} {result : Output L}
    (h : Effect maxHold st action result st') : (routeOutput display result).Answers := by
  cases h with
  | leave caller he =>
    rcases he with ⟨-,rfl⟩ | ⟨-,rfl⟩ <;> exact ⟨fun he => (by cases he),fun _ he => (by cases he)⟩
  | finish held hheld he =>
    rcases he with ⟨-,rfl⟩ | ⟨-,rfl,-⟩ <;> exact ⟨fun he => (by cases he),fun _ he => (by cases he)⟩
  | refuse he =>
    rcases he with ⟨_,-,rfl,-⟩ | ⟨-,rfl⟩ <;>
      exact ⟨fun he => (by cases he),fun _ he => (by cases he)⟩
  | grant | park | tick => exact ⟨fun he => (by cases he),fun _ he => (by cases he)⟩

/-- The answer to a release request: by whether its text denotes a lease, and
whether that is the holder's. -/
inductive Answered (parse : String → Option L) (st : State L) (text : String) :
    RouteOutput L → Prop
  /-- The text denotes no lease. -/
  | invalid (h : parse text=none) :
    Answered parse st text (.released (some (errorResponse 400 "lease_id is not a valid UUID")))
  /-- It denotes the holder's lease. -/
  | done {lease : L} (h : parse text=some lease) (hheld : st.holder=some lease) :
    Answered parse st text (.released (some ⟨200,none⟩))
  /-- It denotes another one. -/
  | unknown {lease : L} (h : parse text=some lease) (hheld : st.holder≠some lease) :
    Answered parse st text (.released (some
      (errorResponse 404 "lease not found, already released, or expired")))

/-- Only the holder's lease is released. -/
theorem Answered.of_confirms {text : String} (h : Answered parse st text output)
    (hok : output.confirms=true) : ∃ lease,parse text=some lease ∧ st.holder=some lease := by
  cases h with
  | invalid | unknown => simp [RouteOutput.confirms,errorResponse] at hok
  | done hl hheld => exact ⟨_,hl,hheld⟩

/-- What clients can rely on, going by the trace alone. -/
structure Ledger (parse : String → Option L) (trace : List (RouteEvent L×RouteOutput L)) : Prop where
  /-- No route panics. -/
  answers : ∀ entry∈trace,entry.2.Answers
  /-- Each lease shown was ended by a release or a reap, but for at most one
  that is out. -/
  balance : trace.countP (fun entry => entry.2.shows)=trace.countP (fun entry => entry.2.ends)+
    if (shownLease parse trace).isSome=true then 1 else 0
  /-- A release request is refused if its text denotes no lease, succeeds if
  it denotes the one that is out, and fails if it denotes another. -/
  release : ∀ pre body output post,trace=pre++(.release body,output)::post →
    ∃ r,output=.released (some r) ∧ (r.status=400 ↔ parse body.leaseId=none) ∧
      (r.status=200 ↔ ∃ l,parse body.leaseId=some l ∧ shownLease parse pre=some l) ∧
      (r.status=404 ↔ ∃ l,parse body.leaseId=some l ∧ shownLease parse pre≠some l)
  /-- No lease is released twice, whatever texts denote it. -/
  once : ∀ pre body output mid body' output' post,
    trace=pre++(.release body,output)::mid++(.release body',output')::post →
      output.confirms=true → output'.confirms=true → parse body.leaseId≠parse body'.leaseId

variable [DecidableEq L]

/-- A step at the routes is a step of the lock, or refuses a text that denotes
no lease. -/
theorem routeStep_cases (h : routeStep display parse maxHold st event=some (output,st')) :
    (∃ action result,step maxHold st action=some (result,st') ∧ output=routeOutput display result ∧
      ∀ body,event=.release body → ∃ lease,parse body.leaseId=some lease ∧ action=.release lease) ∨
    ∃ body,event=.release body ∧ parse body.leaseId=none ∧ st'=st ∧
      output=.released (some (errorResponse 400 "lease_id is not a valid UUID")) := by
  cases event with
  | call action =>
    have hstep : (step maxHold st action).map (fun r => (routeOutput display r.1,r.2))=
        some (output,st') := by
      cases action with
      | release => cases h
      | _ => exact h
    obtain ⟨⟨result,mid⟩,hs,he⟩ := Option.map_eq_some_iff.mp hstep
    cases he
    exact .inl ⟨action,result,hs,rfl,fun body he => (by cases he)⟩
  | release body =>
    simp only [routeStep,gpuLockRelease] at h
    cases hp : parse body.leaseId with
    | none =>
      rw [hp] at h
      cases h
      exact .inr ⟨body,rfl,hp,rfl,rfl⟩
    | some lease =>
      rw [hp] at h
      cases h
      refine .inl ⟨.release lease,_,rfl,rfl,fun body' he => ?_⟩
      cases he
      exact ⟨lease,hp,rfl⟩

/-- What is seen of a step at the routes. -/
theorem routeStep_seen (hparse : ∀ l,parse (display l)=some l)
    (h : routeStep display parse maxHold st event=some (output,st')) : Seen parse st st' output := by
  rcases routeStep_cases h with ⟨action,result,hs,rfl,-⟩ | ⟨_,-,-,rfl,rfl⟩
  · exact (step_effect hs).seen hparse
  · exact .quiet rfl rfl rfl

/-- A run at the routes is a run of the lock. -/
theorem lock_run (h : Run (routeStep display parse maxHold) State.new trace st) :
    ∃ trace',Run (step maxHold) (State.new : State L) trace' st := by
  refine @RunWhen.refine _ _ _ _ _ _ _ _ _ _ _ _ (fun _ => True) id trivial
    (fun _ _ _ _ _ _ _ => trivial) (fun t event output u _ _ hs => ?_) h
  rcases routeStep_cases hs with ⟨action,result,hstep,-⟩ | ⟨_,-,-,rfl,-⟩
  · exact ⟨_,.single trivial hstep⟩
  · exact ⟨[],.start⟩

/-- What the outputs say about the lease that is out is so, and each lease
shown has been ended or is the one that is out. -/
theorem ledger_of_run (hparse : ∀ l,parse (display l)=some l)
    (h : Run (routeStep display parse maxHold) State.new trace st) :
    shownLease parse trace=st.holder ∧
      trace.countP (fun entry => entry.2.shows)=
        trace.countP (fun entry => entry.2.ends)+if st.holder.isSome=true then 1 else 0 := by
  refine h.trace_invariant (fun trace st => shownLease parse trace=st.holder ∧
    trace.countP (fun entry => entry.2.shows)=trace.countP (fun entry => entry.2.ends)+
      if st.holder.isSome=true then 1 else 0) ⟨rfl,rfl⟩ ?_
  rintro trace t event output u ⟨hshown,hcount⟩ - hs
  rw [shownLease_snoc,List.countP_append,List.countP_append,hcount,hshown]
  simp only [List.countP_singleton]
  cases routeStep_seen hparse hs with
  | shows lease hfree hheld hs he ho => simp [ho,hfree,hheld,hs,he]
  | ends lease hheld hfree hs he ho => simp [ho,hheld,hfree,hs,he]
  | neither hsame hs he ho => simp [ho,hsame,hs,he]

/-- Every release request is answered so. -/
theorem routeStep_answered {body : ReleaseRequest}
    (h : routeStep display parse maxHold st (.release body)=some (output,st')) :
    Answered parse st body.leaseId output := by
  rcases routeStep_cases h with ⟨action,result,hs,rfl,hparsed⟩ | ⟨_,he,hnone,rfl,rfl⟩
  · obtain ⟨lease,hl,rfl⟩ := hparsed body rfl
    rcases (step_effect hs).of_release with ⟨held,hheld,rfl,rfl,-⟩ | ⟨rfl,hno,-⟩
    · exact .done hl (by rw [State.holder,hheld]; rfl)
    · exact .unknown hl hno
  · cases he
    exact .invalid hnone

/-- A lease that was released by one request is spent. -/
theorem spent_of_done {body : ReleaseRequest} {lease : L}
    (h : Run (routeStep display parse maxHold) State.new trace st)
    (hs : routeStep display parse maxHold st (.release body)=some (output,st'))
    (hl : parse body.leaseId=some lease) (hheld : st.holder=some lease) : Spent lease st' := by
  obtain ⟨trace',hrun⟩ := lock_run h
  rcases routeStep_cases hs with ⟨action,result,hstep,rfl,hparsed⟩ | ⟨_,he,hnone,-⟩
  · obtain ⟨lease',hl',rfl⟩ := hparsed body rfl
    obtain rfl := Option.some.inj (hl.symm.trans hl')
    rcases (step_effect hstep).of_release with ⟨_,_,_,rfl,-⟩ | ⟨-,hno,-⟩
    · have hends : Ends lease ((.release lease,.released (.ok ())) : Event L×Output L) := .inl rfl
      exact (spent_of_ends hrun hstep hends).2
    · exact absurd hheld hno
  · cases he
    rw [hnone] at hl
    cases hl

/-- What clients see of the lock in any run. -/
theorem gpuLockRoutes_ledger (hparse : ∀ l,parse (display l)=some l)
    (h : Run (routeStep display parse maxHold) State.new trace st) : Ledger parse trace := by
  have hledger := ledger_of_run hparse h
  refine ⟨fun entry hm => ?_,hledger.1.symm ▸ hledger.2,fun pre body output post hcut => ?_,
    fun pre body output mid body' output' post hcut hok hok' he => ?_⟩
  · obtain ⟨pre,post,rfl⟩ := List.append_of_mem hm
    obtain ⟨t,t',-,-,hs,-⟩ := h.cut
    rcases routeStep_cases hs with ⟨action,result,hstep,ho,-⟩ | ⟨_,-,-,-,ho⟩
    · rw [ho]
      exact (step_effect hstep).answers
    · rw [ho]
      exact ⟨fun he => (by cases he),fun _ he => (by cases he)⟩
  · rw [hcut] at h
    obtain ⟨t,t',hpre,-,hs,-⟩ := h.cut
    rw [(ledger_of_run hparse hpre).1]
    cases routeStep_answered hs with
    | invalid hnone => exact ⟨_,rfl,by simp [errorResponse,hnone],by simp [errorResponse,hnone],
        by simp [errorResponse,hnone]⟩
    | done hl hheld => exact ⟨_,rfl,by simp [hl],by simp [hl,hheld],by simp [hl,hheld]⟩
    | unknown hl hheld => exact ⟨_,rfl,by simp [errorResponse,hl],by simp [errorResponse,hl,hheld],
        by simp [errorResponse,hl,hheld]⟩
  · rw [hcut,List.append_assoc,List.cons_append] at h
    obtain ⟨t,t',hpre,-,hs,hrest⟩ := h.cut
    obtain ⟨u,u',hmid,-,hs',-⟩ := hrest.cut
    obtain ⟨lease,hl,hheld⟩ := (routeStep_answered hs).of_confirms hok
    obtain ⟨lease',hl',hheld'⟩ := (routeStep_answered hs').of_confirms hok'
    obtain rfl := Option.some.inj (hl.symm.trans (he.trans hl'))
    have hspent : Spent lease u := by
      refine hmid.invariant (Spent lease) (spent_of_done hpre hs hl hheld) fun v _ _ w hi _ hv => ?_
      rcases routeStep_cases hv with ⟨_,_,hstep,-⟩ | ⟨_,-,-,rfl,-⟩
      · exact hi.step (step_effect hstep)
      · exact hi
    exact hspent.2 hheld'

/-- The text of a lease id: 32 hexadecimal digits in small letters and four
hyphens. -/
def isUuid (s : List Char) : Bool :=
  s.map Char.toLower==s && s.length==36 && s.zipIdx.all fun entry =>
    if entry.2∈[8,13,18,23] then entry.1== '-' else
      entry.1.isDigit || (decide ('a' ≤ entry.1) && decide (entry.1 ≤ 'f'))

/-- Lease ids by their texts. -/
abbrev Uuid : Type := {s : List Char // isUuid s=true}

/-- Display a lease id. -/
def displayUuid (l : Uuid) : String := String.ofList l.val

/-- Parse a lease id, in letters of either case. -/
def parseUuid (s : String) : Option Uuid :=
  if h : isUuid (s.toList.map Char.toLower)=true then some ⟨s.toList.map Char.toLower,h⟩ else none

/-- A text is parsed as the lease id it displays. -/
theorem parseUuid_display (l : Uuid) : parseUuid (displayUuid l)=some l := by
  obtain ⟨s,hs⟩ := l
  have hlow : (displayUuid ⟨s,hs⟩).toList.map Char.toLower=s := by
    rw [displayUuid,String.toList_ofList]
    simp only [isUuid,Bool.and_eq_true,beq_iff_eq] at hs
    exact hs.1.1
  rw [parseUuid,dif_pos (by rw [hlow]; exact hs)]
  exact congrArg some (Subtype.ext hlow)

/-- A lease released in capitals, then again, and then by a text that is none. -/
def releasedTwice : List (RouteEvent Uuid) :=
  [.call (.acquire ⟨"0f8fad5b-d9cb-469f-a165-70867728950e".toList,by decide +kernel⟩),
    .release ⟨"0F8FAD5B-D9CB-469F-A165-70867728950E"⟩,
    .release ⟨"0f8fad5b-d9cb-469f-a165-70867728950e"⟩,.release ⟨"lease"⟩]

/-- Only the first of the three requests succeeds. -/
theorem gpuLockRoutes_ledger_twice : ∃ trace st,
    exec (routeStep displayUuid parseUuid 900) State.new releasedTwice=some (trace,st) ∧
      Ledger parseUuid trace := by
  have hsome : (exec (routeStep displayUuid parseUuid 900) State.new releasedTwice).isSome=true := by
    decide +kernel
  obtain ⟨⟨trace,st⟩,he⟩ := Option.isSome_iff_exists.mp hsome
  exact ⟨trace,st,he,gpuLockRoutes_ledger parseUuid_display (run_of_exec he)⟩

end AivyxBroker.GpuLock
