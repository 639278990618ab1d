import AivyxBroker.Gpu
import AivyxBroker.Program

/-!
# Running a command with a deadline

`run_with_deadline` starts a child process and polls it until it has exited or
the deadline has passed; then it kills the child. The child, the clock and the
operating system go on between any two operations. A loop that polls without a
bound is no program here, so it gets fuel, and the fuel that is always enough
is part of the result: it is a bound of the number of polls.
-/

namespace AivyxBroker.Gpu

open Program

/-- What an exited child reports. -/
structure ExitStatus where
  /-- It exited with code zero. -/
  success : Bool
  deriving DecidableEq

/-- How long the loop sleeps between two polls. -/
def poll : ℕ := millis 20

/-- The operations of the call. -/
inductive ChildOp where
  /-- Start the child. -/
  | spawn
  /-- Read the clock. -/
  | now
  /-- Ask whether the child has exited, and reap it if so. -/
  | tryWait
  /-- Sleep. -/
  | sleep (span : ℕ)
  /-- Kill the child. -/
  | kill
  /-- Wait for the child to exit, and reap it. -/
  | wait
  /-- Read what the child has written. -/
  | readStdout

/-- What they answer. -/
abbrev ChildAns : ChildOp → Type
  | .spawn => Bool
  | .now => ℕ
  | .tryWait => Except Unit (Option ExitStatus)
  | .readStdout => Option (List UInt8)
  | _ => Unit

/-- Programs over these operations. -/
abbrev Running := Program ChildOp ChildAns

/-- One operation. -/
def run (op : ChildOp) : Running (ChildAns op) := Program.perform op

/-- How polling ends. -/
inductive Polled where
  /-- The child has exited. -/
  | exited (status : ExitStatus)
  /-- It was killed, for being late or unreadable. -/
  | killed
  /-- The fuel is used up. -/
  | outOfFuel

/-- Timed out, or cannot tell: kill and reap. -/
def giveUpChild : Running Polled := do
  run .kill
  run .wait
  pure .killed

/-- Poll the child until it has exited or the deadline has passed. -/
def pollChild : ℕ → ℕ → Running Polled
  | 0,_ => pure .outOfFuel
  | fuel+1,deadline => do
    let answer : Except Unit (Option ExitStatus) ← run .tryWait
    match answer with
    | .ok (some status) => pure (.exited status)
    | .ok none =>
      let now : ℕ ← run .now
      if now<deadline then
        run (.sleep poll)
        pollChild fuel deadline
      else giveUpChild
    | .error () => giveUpChild

/-- What is returned once polling has ended; `none` when the fuel is used up. -/
def collect : Polled → Running (Option (Option (List UInt8)))
  | .exited status =>
    if status.success=true then do
      let out : Option (List UInt8) ← run .readStdout
      pure (some out)
    else pure (some none)
  | .killed => pure (some none)
  | .outOfFuel => pure none

/-- Run the child, and return its output if it exits successfully in time. -/
def runWithDeadline (fuel timeout : ℕ) : Running (Option (Option (List UInt8))) := do
  let spawned : Bool ← run .spawn
  if spawned=true then
    let started : ℕ ← run .now
    let polled ← pollChild fuel (started+timeout)
    collect polled
  else pure (some none)

/-- How many polls a time-out allows: one at each interval, and one more. -/
def maxPolls (timeout : ℕ) : ℕ := (timeout+poll-1)/poll+1

/-- The child process. -/
inductive Child where
  /-- It was not started. -/
  | none
  /-- It runs. -/
  | running
  /-- It has exited, and nobody has asked yet. -/
  | exited (status : ExitStatus)
  /-- It has exited and was reaped. -/
  | reaped (status : ExitStatus)
  deriving DecidableEq

/-- What the call works in. -/
structure World where
  /-- The clock. -/
  now : ℕ
  /-- The child process. -/
  child : Child
  /-- When the child was started. -/
  started : ℕ
  /-- How often the child was asked whether it has exited. -/
  polls : ℕ
  /-- Asking has failed. -/
  lost : Bool

/-- There is a child to wait for. -/
def World.Alive (w : World) : Prop := w.child=.running ∨ ∃ status,w.child=.exited status

/-- Time passes, and a running child may exit. -/
structure World.Drifts (w w' : World) : Prop where
  /-- The clock does not go back. -/
  now : w.now ≤ w'.now
  /-- Only a running child does something. -/
  child : w'.child=w.child ∨ w.child=.running ∧ ∃ status,w'.child=.exited status
  /-- The rest is the call's own. -/
  own : w'.started=w.started ∧ w'.polls=w.polls ∧ w'.lost=w.lost

/-- What the operations do. Before each of them, time passes. -/
inductive Performs (w : World) : (op : ChildOp) → ChildAns op → World → Prop
  /-- The child is started. -/
  | spawned {now : ℕ} (hnow : w.now ≤ now) :
      Performs w .spawn true {w with now := now, child := .running, started := now}
  /-- Or it is not. -/
  | failed {now : ℕ} (hnow : w.now ≤ now) : Performs w .spawn false {w with now := now}
  /-- The clock is read. -/
  | now {w' : World} (hd : w.Drifts w') : Performs w .now w'.now w'
  /-- The child still runs. -/
  | runs {w' : World} (hd : w.Drifts w') (hc : w'.child=.running) :
      Performs w .tryWait (.ok none) {w' with polls := w'.polls+1}
  /-- It has exited, and is reaped. -/
  | exited {w' : World} {status : ExitStatus} (hd : w.Drifts w') (hc : w'.child=.exited status) :
      Performs w .tryWait (.ok (some status)) {w' with child := .reaped status, polls := w'.polls+1}
  /-- The operating system cannot tell. -/
  | lost {w' : World} (hd : w.Drifts w') :
      Performs w .tryWait (.error ()) {w' with polls := w'.polls+1, lost := true}
  /-- A sleep takes its time. -/
  | slept {w' : World} {span : ℕ} (hd : w.Drifts w') (hspan : w.now+span ≤ w'.now) :
      Performs w (.sleep span) () w'
  /-- The child is told to exit. -/
  | killed {w' : World} (hd : w.Drifts w') : Performs w .kill () w'
  /-- The child has exited, and is reaped. -/
  | waited {w' : World} {status : ExitStatus} (hd : w.Drifts w') (hc : w'.child=.exited status) :
      Performs w .wait () {w' with child := .reaped status}
  /-- What the child has written is there, or cannot be read. -/
  | read {w' : World} {out : Option (List UInt8)} (hd : w.Drifts w') : Performs w .readStdout out w'

/-- When an operation may be performed: polls are bounded, a child is killed
only past its deadline or when its state cannot be told, and nothing is asked
of a child that was reaped. -/
def Allowed (timeout : ℕ) (w : World) : ChildOp → Prop
  | .spawn => w.child=.none
  | .tryWait => w.Alive ∧ w.polls < maxPolls timeout
  | .kill => w.Alive ∧ (w.started+timeout ≤ w.now ∨ w.lost=true)
  | .wait => w.Alive
  | .readStdout => w.child=.reaped ⟨true⟩
  | _ => True

/-- The rule of the world. -/
def childRule (timeout : ℕ) : Rule ChildOp ChildAns World where
  admits := Allowed timeout
  result := Performs

/-- What a finished call leaves behind. -/
structure CleanedUp (result : Option (Option (List UInt8))) (w : World) : Prop where
  /-- The fuel was enough. -/
  fuelled : result≠none
  /-- No child runs on, and none that has exited is left to reap. -/
  reaped : w.child=.none ∨ ∃ status,w.child=.reaped status
  /-- An output is one of a child that exited successfully. -/
  output : ∀ bytes,result=some (some bytes) → w.child=.reaped ⟨true⟩

/-- How many polls are left at an instant. -/
def pollsLeft (deadline now : ℕ) : ℕ := (deadline-now+poll-1)/poll+1

/-- A poll is always left. -/
theorem pollsLeft_pos (deadline now : ℕ) : 0<pollsLeft deadline now := Nat.succ_pos _

/-- A sleep before the deadline uses up one of them. -/
theorem pollsLeft_slept {deadline now now' : ℕ} (hlt : now<deadline) (hslept : now+poll ≤ now') :
    pollsLeft deadline now'+1 ≤ pollsLeft deadline now := by
  have hp : poll=20000000 := rfl
  unfold pollsLeft
  rw [hp] at hslept ⊢
  omega

/-- Time that passes only leaves fewer. -/
theorem pollsLeft_le {deadline now now' : ℕ} (h : now ≤ now') :
    pollsLeft deadline now' ≤ pollsLeft deadline now := by
  have hp : poll=20000000 := rfl
  unfold pollsLeft
  rw [hp]
  omega

variable {timeout : ℕ} {w w' : World}

/-- A child does not vanish. -/
theorem World.Drifts.alive (h : w.Drifts w') (ha : w.Alive) : w'.Alive := by
  rcases h.child with hc | ⟨-,status,hc⟩
  · rcases ha with hr | ⟨status,he⟩
    · exact .inl (hc.trans hr)
    · exact .inr ⟨status,hc.trans he⟩
  · exact .inr ⟨status,hc⟩

/-- What has become of the child when polling has ended. -/
def PolledChild (p : Polled) (w : World) : Prop :=
  match p with
  | .exited status => w.child=.reaped status
  | .killed => ∃ status,w.child=.reaped status
  | .outOfFuel => False

/-- Giving up on a child that is late or unreadable. -/
theorem giveUpChild_safe (ha : w.Alive) (hdue : w.started+timeout ≤ w.now ∨ w.lost=true) :
    giveUpChild.Safe (childRule timeout) w PolledChild := by
  refine .perform ⟨ha,hdue⟩ fun _ w' hr => ?_
  cases hr with
  | killed hd =>
    refine .perform (hd.alive ha) fun _ w'' hr => ?_
    cases hr with
    | waited => exact ⟨_,rfl⟩

/-- The loop ends with the child reaped, on the fuel that the time left
allows, and polls no more often. -/
theorem pollChild_safe {fuel deadline : ℕ} (ha : w.Alive) (hdeadline : w.started+timeout ≤ deadline)
    (hpolls : w.polls+pollsLeft deadline w.now ≤ maxPolls timeout)
    (hfuel : pollsLeft deadline w.now ≤ fuel) :
    (pollChild fuel deadline).Safe (childRule timeout) w PolledChild := by
  induction fuel generalizing w with
  | zero => exact absurd (pollsLeft_pos deadline w.now) (by omega)
  | succ fuel ih =>
    have hpos := pollsLeft_pos deadline w.now
    refine .perform ⟨ha,by omega⟩ fun answer w' hr => ?_
    cases hr with
    | exited hd hc => exact rfl
    | lost hd => exact giveUpChild_safe (hd.alive ha) (.inr rfl)
    | @runs v hd hc =>
      obtain ⟨hstarted,hcount,-⟩ := hd.own
      refine .perform trivial fun now u hr => ?_
      cases hr with
      | now hd' =>
        obtain ⟨hstarted',hcount',-⟩ := hd'.own
        have hnow : w.now ≤ u.now := hd.now.trans hd'.now
        have halive : u.Alive := hd'.alive (.inl hc)
        dsimp only at hstarted' hcount'
        split
        · rename_i hlt
          refine .perform trivial fun _ w'' hr => ?_
          cases hr with
          | slept hd'' hspan =>
            obtain ⟨hstarted'',hcount'',-⟩ := hd''.own
            have hused := pollsLeft_slept hlt hspan
            have hless := @pollsLeft_le deadline _ _ hnow
            exact ih (hd''.alive halive) (by omega) (by omega) (by omega)
        · exact giveUpChild_safe halive (.inl (by omega))

/-- The whole call keeps the rule and cleans up after itself. -/
theorem runWithDeadline_safe {fuel : ℕ} (hfuel : maxPolls timeout ≤ fuel) (hnone : w.child=.none)
    (hpolls : w.polls=0) :
    (runWithDeadline fuel timeout).Safe (childRule timeout) w CleanedUp := by
  refine .perform hnone fun spawned w' hr => ?_
  cases hr with
  | failed => exact ⟨by simp,.inl hnone,fun _ he => (by cases he)⟩
  | @spawned now hnow =>
    refine .perform trivial fun started u hr => ?_
    cases hr with
    | now hd =>
      obtain ⟨hstarted,hcount,-⟩ := hd.own
      have hle := hd.now
      dsimp only at hstarted hcount hle
      have hleft : pollsLeft (u.now+timeout) u.now=maxPolls timeout := by
        unfold pollsLeft maxPolls
        rw [Nat.add_sub_cancel_left]
      refine Safe.bind (pollChild_safe (hd.alive (.inl rfl)) (by omega) (by omega) (by omega))
        fun polled w'' hp => ?_
      cases polled with
      | exited status =>
        unfold collect
        dsimp only
        split
        · rename_i hsuccess
          have hreaped : w''.child=.reaped ⟨true⟩ := by
            rw [←hsuccess]
            exact hp
          refine .perform hreaped fun out v hr => ?_
          cases hr with
          | read hd' =>
            have hchild : v.child=.reaped ⟨true⟩ := by
              rcases hd'.child with hc | ⟨hc,-⟩
              · exact hc.trans hreaped
              · rw [hreaped] at hc
                cases hc
            exact ⟨by simp,.inr ⟨_,hchild⟩,fun _ _ => hchild⟩
        · exact ⟨by simp,.inr ⟨_,hp⟩,fun _ he => (by cases he)⟩
      | killed => exact ⟨by simp,.inr hp,fun _ he => (by cases he)⟩
      | outOfFuel => cases hp

/-- Before the call, there is no child. -/
def World.before (now : ℕ) : World := ⟨now,.none,now,0,false⟩

/-- Whatever the child and the clock do: at every point of the call the next
operation is allowed (so polls are bounded, and the child is killed only past
the deadline or when its state cannot be told), and when the call returns, the
fuel was enough, the child is reaped, and an output is that of a success. -/
theorem runWithDeadline_reaps {fuel timeout now : ℕ} (hfuel : maxPolls timeout ≤ fuel)
    {rest : Running (Option (Option (List UInt8)))} {w : World}
    (h : Reaches (childRule timeout) (runWithDeadline fuel timeout) (World.before now) rest w) :
    (∀ op resume,rest=.ask op resume → Allowed timeout w op) ∧
      ∀ result,rest=.done result → CleanedUp result w := by
  have hsafe := h.safe (runWithDeadline_safe hfuel rfl rfl)
  constructor
  · rintro op resume rfl
    exact hsafe.1
  · rintro result rfl
    exact hsafe

/-- A child that hangs past a deadline of one nanosecond is killed and reaped. -/
theorem runWithDeadline_reaps_hung : ∃ w,
    Reaches (childRule 1) (runWithDeadline 2 1) (World.before 0) (.done (some none)) w ∧
      CleanedUp (some none) w := by
  have hlate : World.Drifts ⟨0,.running,0,1,false⟩ ⟨5,.running,0,1,false⟩ :=
    ⟨Nat.zero_le _,.inl rfl,rfl,rfl,rfl⟩
  have hdies : World.Drifts ⟨5,.running,0,1,false⟩ ⟨5,.exited ⟨false⟩,0,1,false⟩ :=
    ⟨le_rfl,.inr ⟨rfl,_,rfl⟩,rfl,rfl,rfl⟩
  have hstays : ∀ w : World,w.Drifts w := fun w => ⟨le_rfl,.inl rfl,rfl,rfl,rfl⟩
  have h0 : Reaches (childRule 1) (runWithDeadline 2 1) (World.before 0) (.ask .spawn _) _ := .start
  have h1 : Reaches (childRule 1) (runWithDeadline 2 1) (World.before 0) (.ask .now _) _ :=
    h0.next (.spawned le_rfl)
  have h2 : Reaches (childRule 1) (runWithDeadline 2 1) (World.before 0) (.ask .tryWait _) _ :=
    h1.next (.now (hstays _))
  have h3 : Reaches (childRule 1) (runWithDeadline 2 1) (World.before 0) (.ask .now _) _ :=
    h2.next (.runs (hstays _) rfl)
  have h4 : Reaches (childRule 1) (runWithDeadline 2 1) (World.before 0) (.ask .kill _) _ :=
    h3.next (.now hlate)
  have h5 : Reaches (childRule 1) (runWithDeadline 2 1) (World.before 0) (.ask .wait _) _ :=
    h4.next (.killed hdies)
  have h6 : Reaches (childRule 1) (runWithDeadline 2 1) (World.before 0) (.done (some none)) _ :=
    h5.next (.waited (hstays _) rfl)
  exact ⟨_,h6,(runWithDeadline_reaps (by decide) h6).2 _ rfl⟩

example : maxPolls nvidiaSmiTimeout=101 := by decide

end AivyxBroker.Gpu
