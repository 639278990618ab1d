import Mathlib

/-!
# Sequential programs over abstract operations

A program performs one operation after another and may branch on their answers.
What an operation does is left to the system the program runs in: it only
fixes which operation comes next. A rule says what the operations may do to a
state the program can rely on; safety of a program under a rule is proved along
its own text, and holds at every point of every run.
-/

namespace AivyxBroker

/-- A program over operations `Op` with answers of type `Ans op`. -/
inductive Program (Op : Type) (Ans : Op → Type) (α : Type) where
  /-- Nothing left to do. -/
  | done (result : α)
  /-- One operation, and what to do on each of its answers. -/
  | ask (op : Op) (resume : Ans op → Program Op Ans α)

namespace Program

variable {Op : Type} {Ans : Op → Type} {α β σ : Type}

/-- Run one program after another. -/
def bind : Program Op Ans α → (α → Program Op Ans β) → Program Op Ans β
  | done result,f => f result
  | ask op resume,f => ask op fun answer => (resume answer).bind f

instance : Monad (Program Op Ans) where
  pure := done
  bind := bind

/-- A single operation as a program. -/
def perform (op : Op) : Program Op Ans (Ans op) := ask op done

@[simp] theorem pure_eq_done (a : α) : (pure a : Program Op Ans α)=done a := rfl

@[simp] theorem done_bind (a : α) (f : α → Program Op Ans β) : (done a : Program Op Ans α) >>= f=f a := rfl

@[simp] theorem ask_bind (op : Op) (resume : Ans op → Program Op Ans α) (f : α → Program Op Ans β) :
    ask op resume >>= f=ask op fun answer => resume answer >>= f := rfl

/-- A performed operation with its answer. -/
abbrev Performed (Ans : Op → Type) := (op : Op)×Ans op

/-- A run of a program so far: what it performed, and what is left. -/
inductive Runs (t : Program Op Ans α) : List (Performed Ans) → Program Op Ans α → Prop
  /-- Nothing performed yet. -/
  | start : Runs t [] t
  /-- One more operation, recorded last. -/
  | next {trace : List (Performed Ans)} {op : Op} {resume : Ans op → Program Op Ans α}
      (answer : Ans op) : Runs t trace (ask op resume) →
      Runs t (trace++[⟨op,answer⟩]) (resume answer)

/-- What a program's surroundings guarantee and demand: which operations a state
admits, and which answers and successor states an admitted one may have. -/
structure Rule (Op : Type) (Ans : Op → Type) (σ : Type) where
  /-- The demand on the program. -/
  admits : σ → Op → Prop
  /-- The guarantee to the program. -/
  result : σ → (op : Op) → Ans op → σ → Prop

/-- Under the rule, every operation of the program is admitted and it ends with
`post`, whatever the answers. -/
def Safe (rule : Rule Op Ans σ) : Program Op Ans α → σ → (α → σ → Prop) → Prop
  | done result,s,post => post result s
  | ask op resume,s,post =>
    rule.admits s op ∧ ∀ answer s',rule.result s op answer s' → (resume answer).Safe rule s' post

variable {rule : Rule Op Ans σ} {s s' : σ}

/-- A program that ends at once is safe if its state meets the condition. -/
theorem Safe.done {post : α → σ → Prop} {a : α} (h : post a s) :
    Safe rule (done a : Program Op Ans α) s post := h

/-- An operation first: it must be admitted, and the rest safe after it. -/
theorem Safe.ask {post : α → σ → Prop} {op : Op} {resume : Ans op → Program Op Ans α}
    (ha : rule.admits s op)
    (h : ∀ answer s',rule.result s op answer s' → (resume answer).Safe rule s' post) :
    Safe rule (Program.ask op resume) s post := ⟨ha,h⟩

/-- Safety of a sequence: the first program establishes what the second needs. -/
theorem Safe.bind {t : Program Op Ans α} {f : α → Program Op Ans β} {mid : α → σ → Prop}
    {post : β → σ → Prop} (h : t.Safe rule s mid)
    (hf : ∀ a s',mid a s' → (f a).Safe rule s' post) : Safe rule (t >>= f) s post := by
  induction t generalizing s with
  | done a => exact hf a s h
  | ask op resume ih => exact ⟨h.1,fun answer s' hr => ih answer (h.2 answer s' hr)⟩

/-- A single operation before the rest of a program. -/
theorem Safe.perform {post : β → σ → Prop} {op : Op} {f : Ans op → Program Op Ans β}
    (ha : rule.admits s op)
    (h : ∀ answer s',rule.result s op answer s' → (f answer).Safe rule s' post) :
    Safe rule (perform op >>= f) s post := ⟨ha,h⟩

/-- A rule whose demands and guarantees already allow for steps of others
between the operations of the program. -/
structure Rule.Stable (rule : Rule Op Ans σ) (env : σ → σ → Prop) : Prop where
  /-- Others do not revoke an admission. -/
  admits : ∀ s s' op,env s s' → rule.admits s op → rule.admits s' op
  /-- What an operation may do after a step of others, it may do at once. -/
  result : ∀ s s' op answer t,env s s' → rule.result s' op answer t → rule.result s op answer t

/-- Under a stable rule, steps of others do not make a program unsafe. -/
theorem Safe.stable {env : σ → σ → Prop} {t : Program Op Ans α} {post : α → σ → Prop}
    (hrule : rule.Stable env) (hpost : ∀ a s s',env s s' → post a s → post a s')
    (h : t.Safe rule s post) (he : env s s') : t.Safe rule s' post := by
  cases t with
  | done a => exact hpost a s s' he h
  | ask op resume =>
    exact ⟨hrule.admits s s' op he h.1,fun answer u hr => h.2 answer u (hrule.result _ _ _ _ _ he hr)⟩

/-- What has been performed as a state of its own: operations only add to it. -/
def recording (admits : List (Performed Ans) → Op → Prop) : Rule Op Ans (List (Performed Ans)) where
  admits := admits
  result trace op answer trace' := trace'=trace++[⟨op,answer⟩]

/-- A program that is safe from the empty record is safe after every run. -/
theorem Runs.safe {admits : List (Performed Ans) → Op → Prop} {t rest : Program Op Ans α}
    {trace : List (Performed Ans)} {post : α → List (Performed Ans) → Prop}
    (h : Runs t trace rest) (hs : t.Safe (recording admits) [] post) :
    rest.Safe (recording admits) trace post := by
  induction h with
  | start => exact hs
  | next answer _ ih => exact ih.2 answer _ rfl

/-- In a run of a safe program, every operation was admitted when it came. -/
theorem Runs.admitted {admits : List (Performed Ans) → Op → Prop} {t rest : Program Op Ans α}
    {pre post : List (Performed Ans)} {p : Performed Ans}
    {goal : α → List (Performed Ans) → Prop} (h : Runs t (pre++p::post) rest)
    (hs : t.Safe (recording admits) [] goal) : admits pre p.1 := by
  generalize hl : pre++p::post=trace at h
  induction h generalizing post with
  | start => simp at hl
  | @next trace op resume answer hr ih =>
    rcases List.eq_nil_or_concat post with rfl | ⟨mid,x,rfl⟩
    · obtain ⟨rfl,he⟩ := List.append_inj' hl rfl
      cases he
      exact (hr.safe hs).1
    · rw [List.concat_eq_append,←List.cons_append,←List.append_assoc] at hl
      exact ih (List.append_inj' hl rfl).1

/-- Every operation the program may perform satisfies `p`. -/
def Every (p : Op → Prop) : Program Op Ans α → Prop
  | done _ => True
  | ask op resume => p op ∧ ∀ answer,(resume answer).Every p

/-- One program after another. -/
theorem Every.bind {p : Op → Prop} {t : Program Op Ans α} {f : α → Program Op Ans β}
    (h : t.Every p) (hf : ∀ a,(f a).Every p) : (t >>= f).Every p := by
  induction t with
  | done a => exact hf a
  | ask op resume ih => exact ⟨h.1,fun answer => ih answer (h.2 answer)⟩

/-- A weaker property of the operations. -/
theorem Every.mono {p q : Op → Prop} {t : Program Op Ans α} (h : t.Every p)
    (hpq : ∀ op,p op → q op) : t.Every q := by
  induction t with
  | done a => trivial
  | ask op resume ih => exact ⟨hpq op h.1,fun answer => ih answer (h.2 answer)⟩

/-- A program is safe if each of its operations is admitted under an invariant
and keeps it. -/
theorem Every.safe {p : Op → Prop} {inv : σ → Prop} {t : Program Op Ans α} (h : t.Every p)
    (hop : ∀ s op,p op → inv s →
      rule.admits s op ∧ ∀ answer s',rule.result s op answer s' → inv s')
    (hs : inv s) : t.Safe rule s fun _ => inv := by
  induction t generalizing s with
  | done a => exact hs
  | ask op resume ih =>
    obtain ⟨hadm,hkeep⟩ := hop s op h.1 hs
    exact ⟨hadm,fun answer s' hr => ih answer (h.2 answer) (hkeep answer s' hr)⟩

/-- What every operation of a program satisfies, everything performed does. -/
theorem Runs.every {p : Op → Prop} {t rest : Program Op Ans α} {trace : List (Performed Ans)}
    (h : Runs t trace rest) (ht : t.Every p) : rest.Every p ∧ ∀ q∈trace,p q.1 := by
  induction h with
  | start => exact ⟨ht,fun q hq => by cases hq⟩
  | next answer _ ih =>
    obtain ⟨⟨hop,hrest⟩,htrace⟩ := ih
    refine ⟨hrest answer,fun q hq => ?_⟩
    rcases List.mem_append.mp hq with hq | hq
    · exact htrace q hq
    · rw [List.mem_singleton.mp hq]
      exact hop

/-- Run a program to its end with operations answered by a function. -/
def runWith (answer : (op : Op) → Ans op) : Program Op Ans α → List (Performed Ans)×α
  | done a => ([],a)
  | ask op resume =>
    let (trace,a) := (resume (answer op)).runWith answer
    (⟨op,answer op⟩::trace,a)

/-- A single operation results in its answer. -/
theorem runWith_perform (answer : (op : Op) → Ans op) (op : Op) :
    ((perform op : Program Op Ans (Ans op)).runWith answer).2=answer op := rfl

/-- The result of one program after another is that of the second, started
with the result of the first. -/
theorem runWith_bind (answer : (op : Op) → Ans op) (t : Program Op Ans α)
    (f : α → Program Op Ans β) :
    ((t >>= f).runWith answer).2=((f (t.runWith answer).2).runWith answer).2 := by
  induction t with
  | done a => rfl
  | ask op resume ih => exact ih (answer op)

/-- A second program that hands its argument on changes no result. -/
theorem runWith_bind_same {answer : (op : Op) → Ans op} {f : α → Program Op Ans α}
    (hf : ∀ a,((f a).runWith answer).2=a) (t : Program Op Ans α) :
    ((t >>= f).runWith answer).2=(t.runWith answer).2 :=
  (runWith_bind answer t f).trans (hf _)

/-- From any point on, and however its operations are answered from there, a
program runs to its end. -/
theorem Runs.runWith {t rest : Program Op Ans α} {trace : List (Performed Ans)}
    (h : Runs t trace rest) (answer : (op : Op) → Ans op) :
    Runs t (trace++(rest.runWith answer).1) (done (rest.runWith answer).2) := by
  induction rest generalizing trace with
  | done a => simpa [Program.runWith] using h
  | ask op resume ih =>
    have hr := ih (answer op) (.next (answer op) h)
    rwa [List.append_assoc] at hr

/-- A program at work in a state: what is left of it, and the state by then. -/
inductive Reaches (rule : Rule Op Ans σ) (t : Program Op Ans α) (s : σ) : Program Op Ans α → σ → Prop
  /-- Nothing performed yet. -/
  | start : Reaches rule t s t s
  /-- One more operation, as the rule lets it go. -/
  | next {op : Op} {resume : Ans op → Program Op Ans α} {u u' : σ} {answer : Ans op} :
      Reaches rule t s (ask op resume) u → rule.result u op answer u' →
      Reaches rule t s (resume answer) u'

/-- What is left of a safe program is safe in the state by then. -/
theorem Reaches.safe {t rest : Program Op Ans α} {u : σ} {post : α → σ → Prop}
    (h : Reaches rule t s rest u) (hs : t.Safe rule s post) : rest.Safe rule u post := by
  induction h with
  | start => exact hs
  | next _ hr ih => exact ih.2 _ _ hr

/-- A program at work under a rule that guarantees more. -/
theorem Reaches.mono {rule' : Rule Op Ans σ} {t rest : Program Op Ans α} {u : σ}
    (hrule : ∀ s op answer s',rule.result s op answer s' → rule'.result s op answer s')
    (h : Reaches rule t s rest u) : Reaches rule' t s rest u := by
  induction h with
  | start => exact .start
  | next _ hr ih => exact ih.next (hrule _ _ _ _ hr)

end Program

end AivyxBroker
