import AivyxBroker.ChildProcess

/-!
# A hung child costs bounded time

Each operation of the call may be late by some `lag`. The call then ends within
its time-out, one interval of polling and seven lags, even if its child hangs
until it is killed: a late sleep, a late poll and a late look at the clock come
after the deadline, and then the child is killed and reaped.
-/

namespace AivyxBroker.Gpu

open Program

/-- How long an operation should take. -/
def ChildOp.span : ChildOp → ℕ
  | .sleep span => span
  | _ => 0

/-- What the operations do when none of them is late by more than `lag`, and
the instant by which each of them has to be over. -/
def promptRule (lag limit : ℕ) : Rule ChildOp ChildAns World where
  admits w op := w.now+op.span+lag ≤ limit
  result w op answer w' := Performs w op answer w' ∧ w'.now ≤ w.now+op.span+lag

variable {lag limit deadline : ℕ} {w : World}

/-- The instant when polling has ended leaves time to read the output. -/
def EndsBy (limit lag : ℕ) (p : Polled) (w : World) : Prop :=
  match p with
  | .exited _ => w.now+lag ≤ limit
  | _ => w.now ≤ limit

/-- Giving up on a child takes two operations. -/
theorem giveUpChild_in_time (h : w.now+2*lag ≤ limit) :
    giveUpChild.Safe (promptRule lag limit) w (EndsBy limit lag) := by
  refine .perform (show w.now+0+lag ≤ limit from by omega) fun _ w' hr => ?_
  have hkill : w'.now ≤ w.now+0+lag := hr.2
  refine .perform (show w'.now+0+lag ≤ limit from by omega) fun _ w'' hr => ?_
  have hwait : w''.now ≤ w'.now+0+lag := hr.2
  change w''.now ≤ limit
  omega

/-- A round of the loop that starts at most one late sleep past the deadline
is the last one, and ends in time. -/
theorem pollChild_in_time (fuel : ℕ) (h : w.now ≤ deadline+poll+lag)
    (hlimit : deadline+poll+5*lag ≤ limit) :
    (pollChild fuel deadline).Safe (promptRule lag limit) w (EndsBy limit lag) := by
  induction fuel generalizing w with
  | zero =>
    change w.now ≤ limit
    omega
  | succ fuel ih =>
    refine .perform (show w.now+0+lag ≤ limit from by omega) fun answer w' hr => ?_
    have hasked : w'.now ≤ w.now+0+lag := hr.2
    cases answer with
    | error => exact giveUpChild_in_time (by omega)
    | ok status =>
      cases status with
      | some status =>
        change w'.now+lag ≤ limit
        omega
      | none =>
        refine .perform (show w'.now+0+lag ≤ limit from by omega) fun now u hr => ?_
        have hread : u.now ≤ w'.now+0+lag := hr.2
        obtain rfl : now=u.now := by
          cases hr.1
          rfl
        split
        · rename_i hlt
          refine .perform (show u.now+poll+lag ≤ limit from by omega) fun _ v hr => ?_
          have hslept : v.now ≤ u.now+poll+lag := hr.2
          exact ih (by omega)
        · exact giveUpChild_in_time (by omega)

/-- So does the whole call. -/
theorem runWithDeadline_in_time (fuel timeout : ℕ) :
    (runWithDeadline fuel timeout).Safe (promptRule lag (w.now+timeout+poll+7*lag)) w
      fun _ w' => w'.now ≤ w.now+timeout+poll+7*lag := by
  refine .perform (show w.now+0+lag ≤ _ from by omega) fun spawned w' hr => ?_
  have hspawned : w'.now ≤ w.now+0+lag := hr.2
  cases spawned with
  | false =>
    change w'.now ≤ _
    omega
  | true =>
    refine .perform (show w'.now+0+lag ≤ _ from by omega) fun started u hr => ?_
    have hread : u.now ≤ w'.now+0+lag := hr.2
    obtain rfl : started=u.now := by
      cases hr.1
      rfl
    refine Safe.bind (pollChild_in_time fuel (by omega) (by omega)) fun polled v hends => ?_
    cases polled with
    | exited status =>
      have hend : v.now+lag ≤ w.now+timeout+poll+7*lag := hends
      unfold collect
      dsimp only
      split
      · refine .perform (show v.now+0+lag ≤ _ from by omega) fun out v' hr => ?_
        have hout : v'.now ≤ v.now+0+lag := hr.2
        change v'.now ≤ _
        omega
      · change v.now ≤ _
        omega
    | killed => exact hends
    | outOfFuel => exact hends

end AivyxBroker.Gpu
