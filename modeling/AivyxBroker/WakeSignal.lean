import Mathlib

/-!
# Callers parked on one-shot wake signals

A caller that cannot proceed makes a fresh one-shot channel, leaves the
sending half in a queue and parks on the receiving half. A send succeeds
exactly when the receiving half still exists; it hands over nothing but the
wake itself, so the woken caller retries from scratch. A caller may leave at
any moment, before or after its wake was sent. Senders of callers that left
stay in the queues until they are drained.
-/

namespace AivyxBroker.WakeSignal

variable {α β κ : Type*}

/-- The sending half of a one-shot channel, named by the caller that made it
and by which of that caller's waits it belongs to. -/
structure Sender where
  /-- The caller holding the receiving half, while it is parked there. -/
  caller : ℕ
  /-- How often that caller had parked before. -/
  turn : ℕ
  deriving DecidableEq

/-- A live caller parked on the receiving half of its newest channel. -/
structure Parked (α : Type*) where
  /-- What the caller asks for; kept over all its retries. -/
  arg : α
  /-- The wait it is in, naming its newest channel. -/
  turn : ℕ
  /-- The wake of this wait has been sent and not yet consumed. -/
  sent : Bool

/-- All live parked callers, and the name the next arriving caller gets. -/
structure Callers (α : Type*) where
  /-- Names below this one have been given out, and none is given twice. -/
  next : ℕ
  /-- The live parked callers by name. -/
  parked : ℕ → Option (Parked α)

/-- Nobody has arrived yet. -/
def Callers.empty : Callers α := ⟨0,fun _ => none⟩

/-- Whether a send on `tx` succeeds: its receiving half still exists. -/
def Callers.live (callers : Callers α) (tx : Sender) : Bool :=
  match callers.parked tx.caller with
  | some p => p.turn==tx.turn
  | none => false

/-- Send the wake of one channel; a send to a dropped receiver is lost. -/
def Callers.send (callers : Callers α) (tx : Sender) : Callers α :=
  match callers.parked tx.caller with
  | some p =>
    if p.turn=tx.turn then
      {callers with parked := Function.update callers.parked tx.caller (some {p with sent := true})}
    else callers
  | none => callers

/-- Send the wakes of a drained queue, front to back. -/
def Callers.sendAll (callers : Callers α) (queue : List Sender) : Callers α :=
  queue.foldl Callers.send callers

/-- Drain a queue as `sendAll` does, and tell whether any send succeeded. -/
def Callers.drain (callers : Callers α) : List Sender → Bool×Callers α
  | [] => (false,callers)
  | tx::queue =>
    let rest := (callers.send tx).drain queue
    (callers.live tx || rest.1,rest.2)

/-- Name an arriving caller. -/
def Callers.arrive (callers : Callers α) : Callers α := {callers with next := callers.next+1}

/-- Park a caller on the fresh channel of its given wait. -/
def Callers.park (callers : Callers α) (caller : ℕ) (arg : α) (turn : ℕ) : Callers α :=
  {callers with parked := Function.update callers.parked caller (some ⟨arg,turn,false⟩)}

/-- A caller returns or is dropped; its receiving half is gone with it. -/
def Callers.leave (callers : Callers α) (caller : ℕ) : Callers α :=
  {callers with parked := Function.update callers.parked caller none}

/-- The call of this name is over: it arrived and is not parked any more. -/
def Callers.Gone (callers : Callers α) (caller : ℕ) : Prop :=
  caller<callers.next ∧ callers.parked caller=none

@[simp] theorem Callers.empty_parked (c : ℕ) : (Callers.empty : Callers α).parked c=none := rfl

@[simp] theorem Callers.arrive_parked (callers : Callers α) :
    callers.arrive.parked=callers.parked := rfl

@[simp] theorem Callers.arrive_next (callers : Callers α) :
    callers.arrive.next=callers.next+1 := rfl

@[simp] theorem Callers.park_next (callers : Callers α) (caller : ℕ) (arg : α) (turn : ℕ) :
    (callers.park caller arg turn).next=callers.next := rfl

@[simp] theorem Callers.leave_next (callers : Callers α) (caller : ℕ) :
    (callers.leave caller).next=callers.next := rfl

/-- Parking changes the entry of the parking caller only. -/
theorem Callers.park_parked (callers : Callers α) (caller c : ℕ) (arg : α) (turn : ℕ) :
    (callers.park caller arg turn).parked c=
      if c=caller then some ⟨arg,turn,false⟩ else callers.parked c :=
  Function.update_apply ..

/-- Leaving changes the entry of the leaving caller only. -/
theorem Callers.leave_parked (callers : Callers α) (caller c : ℕ) :
    (callers.leave caller).parked c=if c=caller then none else callers.parked c :=
  Function.update_apply ..

/-- Who is still parked after a leave, and that the leaver is not. -/
theorem Callers.leave_parked_eq_some {callers : Callers α} {caller c : ℕ} {p : Parked α} :
    (callers.leave caller).parked c=some p ↔ c≠caller ∧ callers.parked c=some p := by
  rw [Callers.leave_parked]
  split <;> simp_all

@[simp] theorem Callers.send_next (callers : Callers α) (tx : Sender) :
    (callers.send tx).next=callers.next := by
  unfold Callers.send
  split
  · split <;> rfl
  · rfl

/-- One send marks exactly the wait its channel belongs to. -/
theorem Callers.send_parked (callers : Callers α) (tx : Sender) (c : ℕ) :
    (callers.send tx).parked c=
      (callers.parked c).map fun p => if tx=⟨c,p.turn⟩ then {p with sent := true} else p := by
  obtain ⟨caller,turn⟩ := tx
  by_cases hc : c=caller
  · subst hc
    unfold Callers.send
    cases hp : callers.parked c with
    | none => simp only [hp,Option.map_none]
    | some p =>
      by_cases ht : p.turn=turn
      · simp [ht]
      · simp [ht,hp,Ne.symm ht]
  · have hne : ∀ p : Parked α,(⟨caller,turn⟩ : Sender)≠⟨c,p.turn⟩ := by
      intro p he
      exact hc (congrArg Sender.caller he).symm
    simp only [hne,if_false,Option.map_id_fun',id_eq]
    unfold Callers.send
    split
    · split
      · exact Function.update_of_ne hc _ _
      · rfl
    · rfl

@[simp] theorem Callers.sendAll_next (callers : Callers α) (queue : List Sender) :
    (callers.sendAll queue).next=callers.next := by
  induction queue generalizing callers with
  | nil => rfl
  | cons tx queue ih => exact (ih (callers.send tx)).trans (callers.send_next tx)

/-- Draining a queue marks exactly the waits with a sender in it. -/
theorem Callers.sendAll_parked (callers : Callers α) (queue : List Sender) (c : ℕ) :
    (callers.sendAll queue).parked c=
      (callers.parked c).map fun p => if ⟨c,p.turn⟩∈queue then {p with sent := true} else p := by
  induction queue generalizing callers with
  | nil => simp [Callers.sendAll]
  | cons tx queue ih =>
    have hs := ih (callers.send tx)
    rw [Callers.send_parked] at hs
    refine hs.trans ?_
    cases callers.parked c with
    | none => rfl
    | some p =>
      by_cases ht : tx=⟨c,p.turn⟩
      · subst ht
        simp
      · have hne : (⟨c,p.turn⟩ : Sender)≠tx := fun he => ht he.symm
        simp [ht,hne]

/-- A caller is parked after a drain exactly if it was before, in the same
wait for the same thing; a sent wake stays sent. -/
theorem Callers.sendAll_parked_eq_some {callers : Callers α} {queue : List Sender} {c : ℕ}
    {p' : Parked α} : (callers.sendAll queue).parked c=some p' ↔
      ∃ p,callers.parked c=some p ∧ p'=⟨p.arg,p.turn,p.sent || decide (⟨c,p.turn⟩∈queue)⟩ := by
  rw [Callers.sendAll_parked,Option.map_eq_some_iff]
  refine exists_congr fun p => and_congr_right fun _ => ?_
  rw [eq_comm]
  split <;> rename_i hm <;> simp [hm]

/-- A live send is one that reaches a parked caller in that very wait. -/
theorem Callers.live_iff {callers : Callers α} {tx : Sender} :
    callers.live tx=true ↔ ∃ p,callers.parked tx.caller=some p ∧ p.turn=tx.turn := by
  unfold Callers.live
  cases callers.parked tx.caller <;> simp

/-- A wake removes no receiver, so it changes no other send's success. -/
theorem Callers.send_live (callers : Callers α) (tx tx' : Sender) :
    (callers.send tx).live tx'=callers.live tx' := by
  unfold Callers.live
  rw [Callers.send_parked]
  cases callers.parked tx'.caller with
  | none => rfl
  | some p => by_cases ht : tx=⟨tx'.caller,p.turn⟩ <;> simp [ht]

/-- Draining tells whether some sender was live when the drain began. -/
theorem Callers.drain_eq (callers : Callers α) (queue : List Sender) :
    callers.drain queue=(queue.any callers.live,callers.sendAll queue) := by
  induction queue generalizing callers with
  | nil => rfl
  | cons tx queue ih =>
    have hl : (callers.send tx).live=callers.live := funext (callers.send_live tx)
    simp only [Callers.drain,ih,hl,List.any_cons]
    rfl

/-- The same callers, asking for something else each. -/
def Callers.map (f : α → β) (callers : Callers α) : Callers β :=
  ⟨callers.next,fun c => (callers.parked c).map fun p => ⟨f p.arg,p.turn,p.sent⟩⟩

@[simp] theorem Callers.map_empty (f : α → β) :
    (Callers.empty : Callers α).map f=Callers.empty := rfl

@[simp] theorem Callers.map_parked (f : α → β) (callers : Callers α) (c : ℕ) :
    (callers.map f).parked c=(callers.parked c).map fun p => ⟨f p.arg,p.turn,p.sent⟩ := rfl

@[simp] theorem Callers.map_arrive (f : α → β) (callers : Callers α) :
    (callers.map f).arrive=callers.arrive.map f := rfl

/-- Whether a send succeeds does not depend on what the callers ask for. -/
@[simp] theorem Callers.map_live (f : α → β) (callers : Callers α) :
    (callers.map f).live=callers.live := by
  funext tx
  unfold Callers.live
  rw [Callers.map_parked]
  cases callers.parked tx.caller <;> rfl

/-- Nor does parking. -/
@[simp] theorem Callers.map_park (f : α → β) (callers : Callers α) (caller : ℕ) (arg : α)
    (turn : ℕ) : (callers.map f).park caller (f arg) turn=(callers.park caller arg turn).map f := by
  refine congrArg (Callers.mk callers.next) (funext fun c => ?_)
  rw [Function.update_apply,Callers.park_parked]
  split <;> rfl

/-- Nor does leaving. -/
@[simp] theorem Callers.map_leave (f : α → β) (callers : Callers α) (caller : ℕ) :
    (callers.map f).leave caller=(callers.leave caller).map f := by
  refine congrArg (Callers.mk callers.next) (funext fun c => ?_)
  rw [Function.update_apply,Callers.leave_parked]
  split <;> rfl

/-- Nor does draining. -/
@[simp] theorem Callers.map_sendAll (f : α → β) (callers : Callers α) (queue : List Sender) :
    (callers.map f).sendAll queue=(callers.sendAll queue).map f := by
  have hn : ((callers.map f).sendAll queue).next=((callers.sendAll queue).map f).next :=
    (Callers.sendAll_next ..).trans (Callers.sendAll_next callers queue).symm
  have hp : ((callers.map f).sendAll queue).parked=((callers.sendAll queue).map f).parked := by
    funext c
    rw [Callers.sendAll_parked,Callers.map_parked,Callers.map_parked,Callers.sendAll_parked]
    cases callers.parked c with
    | none => rfl
    | some p =>
      simp only [Option.map_some]
      split <;> rfl
  exact congrArg₂ Callers.mk hn hp

/-- The queues hold exactly the senders that parked callers rely on, plus
senders whose receivers are gone. `key` says which queue a caller uses. -/
structure Exact (key : α → κ) (queue : κ → List Sender) (callers : Callers α) : Prop where
  /-- Parked callers have been named. -/
  bounded : ∀ c p,callers.parked c=some p → c<callers.next
  /-- A parked caller whose wake is not sent has its sender in its queue. -/
  queued : ∀ c p,callers.parked c=some p → p.sent=false → ⟨c,p.turn⟩∈queue (key p.arg)
  /-- Queued senders were made by named callers. -/
  issued : ∀ k tx,tx∈queue k → tx.caller<callers.next
  /-- A queued sender is a dead one of an earlier wait, or the unsent one of
  the current wait, and then in the queue its caller uses. -/
  current : ∀ k tx p,tx∈queue k → callers.parked tx.caller=some p →
    tx.turn<p.turn ∨ tx.turn=p.turn ∧ p.sent=false ∧ k=key p.arg
  /-- No queue holds one sender twice. -/
  nodup : ∀ k,(queue k).Nodup

variable {key : α → κ} {queue queue' : κ → List Sender} {callers : Callers α}

/-- With no callers and empty queues the correspondence is exact. -/
theorem exact_empty (key : α → κ) (hq : ∀ k,queue k=[]) :
    Exact key queue (Callers.empty : Callers α) := by
  constructor <;> intros <;> simp_all

/-- Naming an arrival that does not park keeps the queues exact. -/
theorem Exact.arrive (h : Exact key queue callers) : Exact key queue callers.arrive where
  bounded c p hp := Nat.lt_succ_of_lt (h.bounded c p hp)
  queued := h.queued
  issued k tx ht := Nat.lt_succ_of_lt (h.issued k tx ht)
  current := h.current
  nodup := h.nodup

/-- A leaving caller only turns its queued sender into a dead one. -/
theorem Exact.leave (h : Exact key queue callers) (caller : ℕ) :
    Exact key queue (callers.leave caller) where
  bounded c p hp := h.bounded c p (Callers.leave_parked_eq_some.mp hp).2
  queued c p hp := h.queued c p (Callers.leave_parked_eq_some.mp hp).2
  issued := h.issued
  current k tx p ht hp := h.current k tx p ht (Callers.leave_parked_eq_some.mp hp).2
  nodup := h.nodup

/-- What a queue holds when one queue had a sender appended. -/
theorem mem_appended {tx : Sender} {k : κ} (hkey : queue' k=queue k++[tx])
    (hother : ∀ k',k'≠k → queue' k'=queue k') (k' : κ) (tx' : Sender) :
    tx'∈queue' k' ↔ tx'∈queue k' ∨ k'=k ∧ tx'=tx := by
  by_cases hk : k'=k
  · subst hk
    simp [hkey]
  · simp [hother k' hk,hk]

/-- Parking with a sender that no queue knows keeps the queues exact, when
the sender is appended to the queue the caller uses. The sender is unknown
for an arriving caller and for a caller retrying after its wake was sent. -/
theorem Exact.park (h : Exact key queue callers) {caller turn : ℕ} {arg : α}
    (hnamed : caller<callers.next)
    (hfresh : ∀ k tx,tx∈queue k → tx.caller=caller → tx.turn<turn)
    (hkey : queue' (key arg)=queue (key arg)++[⟨caller,turn⟩])
    (hother : ∀ k,k≠key arg → queue' k=queue k) :
    Exact key queue' (callers.park caller arg turn) := by
  have hmem := mem_appended hkey hother
  refine ⟨fun c p hp => ?_,fun c p hp hs => ?_,fun k tx ht => ?_,fun k tx p ht hp => ?_,
    fun k => ?_⟩
  · rw [Callers.park_parked] at hp
    split at hp
    · rename_i hc
      exact hc ▸ hnamed
    · exact h.bounded c p hp
  · rw [Callers.park_parked] at hp
    rw [hmem]
    split at hp
    · rename_i hc
      cases hp
      exact .inr ⟨rfl,by rw [hc]⟩
    · exact .inl (h.queued c p hp hs)
  · rcases (hmem k tx).mp ht with ht | ⟨-,rfl⟩
    · exact h.issued k tx ht
    · exact hnamed
  · rw [Callers.park_parked] at hp
    rcases (hmem k tx).mp ht with ht | ⟨hk,rfl⟩
    · split at hp
      · rename_i hc
        cases hp
        exact .inl (hfresh k tx ht hc)
      · exact h.current k tx p ht hp
    · rw [if_pos rfl] at hp
      cases hp
      exact .inr ⟨rfl,rfl,hk⟩
  · by_cases hk : k=key arg
    · rw [hk,hkey]
      refine List.nodup_append.mpr ⟨h.nodup _,List.nodup_singleton _,?_⟩
      rintro tx ht tx' ht' rfl
      rw [List.mem_singleton] at ht'
      have hlt := hfresh _ tx ht (by rw [ht'])
      rw [ht'] at hlt
      exact Nat.lt_irrefl _ hlt
    · rw [hother k hk]
      exact h.nodup k

/-- An arriving caller has no sender anywhere. -/
theorem Exact.fresh_arrival (h : Exact key queue callers) :
    ∀ k tx,tx∈queue k → tx.caller=callers.next → tx.turn<0 := by
  intro k tx ht hc
  have hi := h.issued k tx ht
  omega

/-- A caller whose wake was sent has only senders of earlier waits. -/
theorem Exact.fresh_retry (h : Exact key queue callers) {c : ℕ} {p : Parked α}
    (hp : callers.parked c=some p) :
    ∀ k tx,tx∈queue k → tx.caller=c → tx.turn<p.turn+1 := by
  rintro k tx ht rfl
  rcases h.current k tx p ht hp with hlt | ⟨heq,-,-⟩ <;> omega

/-- Draining a set of queues and sending every drained sender keeps the
remaining queues exact. -/
theorem Exact.drain (h : Exact key queue callers) (drained : κ → Prop) {popped : List Sender}
    (hpopped : ∀ tx,tx∈popped ↔ ∃ k,drained k ∧ tx∈queue k)
    (hempty : ∀ k,drained k → queue' k=[])
    (hkept : ∀ k,¬drained k → queue' k=queue k) :
    Exact key queue' (callers.sendAll popped) := by
  have hmem : ∀ k tx,tx∈queue' k → ¬drained k ∧ tx∈queue k := by
    intro k tx ht
    by_cases hd : drained k
    · rw [hempty k hd] at ht
      cases ht
    · exact ⟨hd,hkept k hd ▸ ht⟩
  refine ⟨fun c p hp => ?_,fun c p hp hs => ?_,fun k tx ht => ?_,fun k tx p ht hp => ?_,
    fun k => ?_⟩
  · obtain ⟨q,hq,-⟩ := Callers.sendAll_parked_eq_some.mp hp
    rw [Callers.sendAll_next]
    exact h.bounded c q hq
  · obtain ⟨q,hq,rfl⟩ := Callers.sendAll_parked_eq_some.mp hp
    simp only [Bool.or_eq_false_iff,decide_eq_false_iff_not] at hs
    have hin := h.queued c q hq hs.1
    have hd : ¬drained (key q.arg) := fun hd => hs.2 ((hpopped _).mpr ⟨_,hd,hin⟩)
    exact (hkept _ hd).symm ▸ hin
  · rw [Callers.sendAll_next]
    exact h.issued k tx (hmem k tx ht).2
  · obtain ⟨hd,ht⟩ := hmem k tx ht
    obtain ⟨q,hq,rfl⟩ := Callers.sendAll_parked_eq_some.mp hp
    rcases h.current k tx q ht hq with hlt | ⟨heq,hs,hk⟩
    · exact .inl hlt
    · refine .inr ⟨heq,?_,hk⟩
      simp only [hs,Bool.false_or,decide_eq_false_iff_not]
      intro hin
      -- the sender would also sit in a drained queue, but it has only one place
      obtain ⟨k',hd',ht'⟩ := (hpopped _).mp hin
      rcases h.current k' _ q ht' hq with hlt | ⟨-,-,hk'⟩
      · exact absurd hlt (Nat.lt_irrefl _)
      · exact hd (hk.trans hk'.symm ▸ hd')
  · by_cases hd : drained k
    · rw [hempty k hd]
      exact List.nodup_nil
    · rw [hkept k hd]
      exact h.nodup k

/-- A queue empty of senders has no caller waiting for its first wake. -/
theorem Exact.sent_of_queue_nil (h : Exact key queue callers) {c : ℕ} {p : Parked α}
    (hp : callers.parked c=some p) (hq : queue (key p.arg)=[]) : p.sent=true := by
  cases hs : p.sent with
  | true => rfl
  | false =>
    have hin := h.queued c p hp hs
    rw [hq] at hin
    cases hin

/-- No queue holds a sender of an earlier wait of a parked caller. This takes
callers that park again only after their wake was sent. -/
def Current (queue : κ → List Sender) (callers : Callers α) : Prop :=
  ∀ k tx p,tx∈queue k → callers.parked tx.caller=some p → tx.turn=p.turn

/-- With empty queues there are no earlier senders. -/
theorem current_empty (callers : Callers α) (hq : ∀ k,queue k=[]) : Current queue callers := by
  intro k tx p ht
  rw [hq k] at ht
  cases ht

/-- It only matters who is parked. -/
theorem Current.of_parked_eq {callers' : Callers α} (h : Current queue callers)
    (hc : callers'.parked=callers.parked) : Current queue callers' :=
  fun k tx p ht hp => h k tx p ht (hc ▸ hp)

/-- A leaving caller has no wait any more. -/
theorem Current.leave (h : Current queue callers) (caller : ℕ) :
    Current queue (callers.leave caller) :=
  fun k tx p ht hp => h k tx p ht (Callers.leave_parked_eq_some.mp hp).2

/-- A caller without queued senders may park with a fresh one. -/
theorem Current.park (h : Current queue callers) {caller turn : ℕ} {k : κ} (arg : α)
    (hnone : ∀ k tx,tx∈queue k → tx.caller≠caller)
    (hkey : queue' k=queue k++[⟨caller,turn⟩]) (hother : ∀ k',k'≠k → queue' k'=queue k') :
    Current queue' (callers.park caller arg turn) := by
  intro k' tx p ht hp
  rw [Callers.park_parked] at hp
  rcases (mem_appended hkey hother k' tx).mp ht with ht | ⟨-,rfl⟩
  · rw [if_neg (hnone k' tx ht)] at hp
    exact h k' tx p ht hp
  · rw [if_pos rfl] at hp
    cases hp
    rfl

/-- Sending wakes and emptying queues leaves no earlier senders either. -/
theorem Current.drain (h : Current queue callers) (drained : κ → Prop) (popped : List Sender)
    (hempty : ∀ k,drained k → queue' k=[])
    (hkept : ∀ k,¬drained k → queue' k=queue k) :
    Current queue' (callers.sendAll popped) := by
  intro k tx p ht hp
  obtain ⟨q,hq,rfl⟩ := Callers.sendAll_parked_eq_some.mp hp
  by_cases hd : drained k
  · rw [hempty k hd] at ht
    cases ht
  · exact h k tx q (hkept k hd ▸ ht) hq

/-- A caller whose wake was sent has no sender in any queue. -/
theorem Exact.no_sender (h : Exact key queue callers) (hcur : Current queue callers) {c : ℕ}
    {p : Parked α} (hp : callers.parked c=some p) (hs : p.sent=true) :
    ∀ k tx,tx∈queue k → tx.caller≠c := by
  rintro k tx ht rfl
  rcases h.current k tx p ht hp with hlt | ⟨-,hunsent,-⟩
  · exact absurd (hcur k tx p ht hp) hlt.ne
  · rw [hs] at hunsent
    cases hunsent

/-- A parked caller whose wake is not sent has exactly one sender in all
queues together, in the queue it uses. -/
theorem Exact.countP_caller [DecidableEq κ] (h : Exact key queue callers)
    (hcur : Current queue callers) {c : ℕ} {p : Parked α} (hp : callers.parked c=some p)
    (hs : p.sent=false) (k : κ) :
    (queue k).countP (fun tx => tx.caller==c)=if k=key p.arg then 1 else 0 := by
  have hself : ∀ tx∈queue k,tx.caller=c → tx=⟨c,p.turn⟩ ∧ k=key p.arg := by
    rintro ⟨caller,turn⟩ ht rfl
    have hturn := hcur k _ p ht hp
    rcases h.current k _ p ht hp with hlt | ⟨-,-,hk⟩
    · exact absurd hturn hlt.ne
    · exact ⟨congrArg (Sender.mk caller) hturn,hk⟩
  split
  · rename_i hk
    have hcount : (queue k).countP (fun tx => tx.caller==c)=(queue k).count ⟨c,p.turn⟩ := by
      refine List.countP_congr fun tx ht => ?_
      rw [beq_iff_eq,beq_iff_eq]
      exact ⟨fun hc => (hself tx ht hc).1,fun he => congrArg Sender.caller he⟩
    rw [hcount]
    exact List.count_eq_one_of_mem (h.nodup k) (hk ▸ h.queued c p hp hs)
  · rename_i hk
    refine List.countP_eq_zero.mpr fun tx ht hc => ?_
    exact hk (hself tx ht (beq_iff_eq.mp hc)).2

end AivyxBroker.WakeSignal
