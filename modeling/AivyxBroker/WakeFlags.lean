import AivyxBroker.WakeSignal

/-!
# Parked callers without queues

What queues of one-shot senders amount to when every drain empties whole
queues: each parked caller carries a flag that says whether it was woken, and
a drain sets the flags of the callers that use a drained queue. The order in
which callers parked is gone, and so is every caller that left.
-/

namespace AivyxBroker.WakeSignal

variable {α κ : Type*}

/-- A parked caller. -/
structure Waiter (α : Type*) where
  /-- What it asks for. -/
  arg : α
  /-- Whether it was woken since it parked. -/
  woken : Bool

/-- All parked callers, and the name the next arriving caller gets. -/
structure Flags (α : Type*) where
  /-- Names below this one have been given out. -/
  next : ℕ
  /-- The parked callers by name. -/
  waiting : ℕ → Option (Waiter α)

/-- Nobody has arrived yet. -/
def Flags.empty : Flags α := ⟨0,fun _ => none⟩

/-- Name an arriving caller. -/
def Flags.arrive (flags : Flags α) : Flags α := {flags with next := flags.next+1}

/-- A caller parks. -/
def Flags.park (flags : Flags α) (caller : ℕ) (arg : α) : Flags α :=
  {flags with waiting := Function.update flags.waiting caller (some ⟨arg,false⟩)}

/-- A caller returns or is dropped. -/
def Flags.leave (flags : Flags α) (caller : ℕ) : Flags α :=
  {flags with waiting := Function.update flags.waiting caller none}

/-- Wake every caller that asks for a chosen thing. -/
def Flags.wake (flags : Flags α) (chosen : α → Bool) : Flags α :=
  {flags with waiting := fun c => (flags.waiting c).map fun w => {w with woken := w.woken || chosen w.arg}}

/-- Whether some caller that asks for a chosen thing was not woken yet. -/
def Flags.anyUnwoken (flags : Flags α) (chosen : α → Bool) : Bool :=
  (List.range flags.next).any fun c => (flags.waiting c).any fun w => !w.woken && chosen w.arg

/-- Who makes `anyUnwoken` true. -/
theorem Flags.anyUnwoken_iff {flags : Flags α} {chosen : α → Bool} :
    flags.anyUnwoken chosen=true ↔ ∃ c,c<flags.next ∧ ∃ w,flags.waiting c=some w ∧
      w.woken=false ∧ chosen w.arg=true := by
  simp [Flags.anyUnwoken,Option.any_eq_true]

/-- Only the callers that still sleep matter to a wake. -/
theorem Flags.wake_congr {flags : Flags α} {chosen chosen' : α → Bool}
    (h : ∀ c w,flags.waiting c=some w → w.woken=false → chosen w.arg=chosen' w.arg) :
    flags.wake chosen=flags.wake chosen' := by
  refine congrArg (Flags.mk flags.next) (funext fun c => ?_)
  cases hw : flags.waiting c with
  | none => rfl
  | some w =>
    cases hs : w.woken with
    | true => simp [hs]
    | false => simp [hs,h c w hw hs]

/-- The flags of callers parked on one-shot signals. -/
def Callers.flags (callers : Callers α) : Flags α :=
  ⟨callers.next,fun c => (callers.parked c).map fun p => ⟨p.arg,p.sent⟩⟩

@[simp] theorem Callers.flags_empty : (Callers.empty : Callers α).flags=Flags.empty := rfl

@[simp] theorem Callers.flags_next (callers : Callers α) : callers.flags.next=callers.next := rfl

@[simp] theorem Callers.flags_waiting (callers : Callers α) (c : ℕ) :
    callers.flags.waiting c=(callers.parked c).map fun p => ⟨p.arg,p.sent⟩ := rfl

@[simp] theorem Callers.flags_arrive (callers : Callers α) :
    callers.arrive.flags=callers.flags.arrive := rfl

/-- Parking raises no flag. -/
@[simp] theorem Callers.flags_park (callers : Callers α) (caller : ℕ) (arg : α) (turn : ℕ) :
    (callers.park caller arg turn).flags=callers.flags.park caller arg := by
  refine congrArg (Flags.mk callers.next) (funext fun c => ?_)
  rw [Callers.park_parked,Function.update_apply]
  split <;> rfl

/-- A caller leaves with its flag. -/
@[simp] theorem Callers.flags_leave (callers : Callers α) (caller : ℕ) :
    (callers.leave caller).flags=callers.flags.leave caller := by
  refine congrArg (Flags.mk callers.next) (funext fun c => ?_)
  rw [Callers.leave_parked,Function.update_apply]
  split <;> rfl

variable {key : α → κ} {queue : κ → List Sender} {callers : Callers α}

/-- Draining whole queues wakes exactly the callers that use them. -/
theorem Exact.flags_sendAll (h : Exact key queue callers) (drained : κ → Bool)
    {popped : List Sender} (hpopped : ∀ tx,tx∈popped ↔ ∃ k,drained k=true ∧ tx∈queue k) :
    (callers.sendAll popped).flags=callers.flags.wake fun arg => drained (key arg) := by
  have hnext : (callers.sendAll popped).next=callers.next := Callers.sendAll_next ..
  refine congrArg₂ Flags.mk hnext (funext fun c => ?_)
  rw [Callers.sendAll_parked,Callers.flags_waiting]
  cases hp : callers.parked c with
  | none => rfl
  | some p =>
    simp only [Option.map_some,Option.some.injEq]
    cases hs : p.sent with
    | true => split <;> simp [hs]
    | false =>
      have hiff : ⟨c,p.turn⟩∈popped ↔ drained (key p.arg)=true := by
        rw [hpopped]
        constructor
        · rintro ⟨k,hk,hin⟩
          rcases h.current k _ p hin hp with hlt | ⟨-,-,rfl⟩
          · exact absurd hlt (Nat.lt_irrefl _)
          · exact hk
        · exact fun hk => ⟨_,hk,h.queued c p hp hs⟩
      by_cases hk : drained (key p.arg)=true
      · rw [if_pos (hiff.mpr hk),hk]
        rfl
      · rw [if_neg fun hin => hk (hiff.mp hin)]
        simp [hs,hk]

/-- Some sender of a queue is live exactly if a caller that uses the queue was
not woken yet. -/
theorem Exact.any_live [BEq κ] [LawfulBEq κ] (h : Exact key queue callers) (k : κ) :
    (queue k).any callers.live=callers.flags.anyUnwoken fun arg => key arg==k := by
  rw [Bool.eq_iff_iff,List.any_eq_true,Flags.anyUnwoken,List.any_eq_true]
  constructor
  · rintro ⟨tx,hin,hl⟩
    obtain ⟨p,hp,hturn⟩ := Callers.live_iff.mp hl
    rcases h.current k tx p hin hp with hlt | ⟨-,hs,hk⟩
    · exact absurd hturn hlt.ne'
    · refine ⟨tx.caller,List.mem_range.mpr (h.bounded _ _ hp),?_⟩
      simp [hp,hs,hk]
  · rintro ⟨c,-,hc⟩
    obtain ⟨w,hw,hand⟩ := (Option.any_eq_true _ _).mp hc
    obtain ⟨p,hp,rfl⟩ := Option.map_eq_some_iff.mp hw
    rw [Bool.and_eq_true,Bool.not_eq_true',beq_iff_eq] at hand
    exact ⟨_,hand.2 ▸ h.queued c p hp hand.1,Callers.live_iff.mpr ⟨p,hp,rfl⟩⟩

end AivyxBroker.WakeSignal
