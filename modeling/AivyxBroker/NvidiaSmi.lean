import AivyxBroker.Gpu
import AivyxBroker.TextReading

/-!
# Summing the memory of all GPUs

`nvidia-smi` prints a line for each GPU, its total and its used memory in MiB.
The numbers are parsed with checks, but multiplied and added without: a value
that does not fit panics where overflow checks are on, as in a debug build,
and wraps where they are off, as in a release build.
-/

namespace AivyxBroker.Gpu

open Net TextReading

/-- The bytes of a MiB. -/
def mib : ℕ := 1024*1024

/-- Why the reading of the output stops. -/
inductive Stop where
  /-- A line is not two numbers. -/
  | malformed
  /-- An overflow check panics. -/
  | overflow
  deriving DecidableEq

/-- A `u64` multiplication or addition by its exact result. -/
def unchecked (overflowChecks : Bool) (exact : ℕ) : Except Stop ℕ :=
  if exact<2^64 then .ok exact
  else if overflowChecks=true then .error .overflow
  else .ok (exact%2^64)

/-- Parse a number of MiB and make it one of bytes. -/
def readMib (overflowChecks : Bool) (s : Text) : Except Stop ℕ :=
  match parseU64 (trim s) with
  | none => .error .malformed
  | some n => unchecked overflowChecks (n*mib)

/-- Add the numbers of one line to the sums so far. -/
def addLine (overflowChecks : Bool) (vram : Option Vram) (line : Text) :
    Except Stop (Option Vram) :=
  match splitOnce ',' line with
  | none => .error .malformed
  | some (total,used) => do
    let total ← readMib overflowChecks total
    let used ← readMib overflowChecks used
    let sum := vram.getD ⟨0,0⟩
    let totalBytes ← unchecked overflowChecks (sum.totalBytes.toNat+total)
    let usedBytes ← unchecked overflowChecks (sum.usedBytes.toNat+used)
    pure (some ⟨UInt64.ofNat totalBytes,UInt64.ofNat usedBytes⟩)

/-- The lines that say something. -/
def nonBlank (out : Text) : List Text := (lines out).filter fun line => !(trim line).isEmpty

/-- How a call ends. -/
inductive Outcome where
  /-- It panics. -/
  | panicked
  /-- It returns the sums, or none. -/
  | returned (vram : Option Vram)
  deriving DecidableEq

/-- Parse the output of `nvidia-smi`. -/
def parseNvidiaSmi (overflowChecks : Bool) (out : Text) : Outcome :=
  match (nonBlank out).foldlM (addLine overflowChecks) none with
  | .ok vram => .returned vram
  | .error .malformed => .returned none
  | .error .overflow => .panicked

/-- The lines read are those that are not blank. -/
theorem mem_nonBlank {out line : Text} : line∈nonBlank out ↔ line∈lines out ∧ ¬Blank line := by
  rw [nonBlank,List.mem_filter,Bool.not_eq_true',List.isEmpty_eq_false_iff,ne_eq,trim_eq_nil_iff]

/-- A line whose part before the first comma is a number. -/
def FirstNumber (line : Text) (a : ℕ) : Prop :=
  ∃ first second,line=first++ ','::second ∧ ',' ∉ first ∧ PaddedU64 first a

/-- A line of two numbers around its first comma. -/
def Row (line : Text) (row : ℕ×ℕ) : Prop :=
  ∃ first second,line=first++ ','::second ∧ ',' ∉ first ∧ PaddedU64 first row.1 ∧
    PaddedU64 second row.2

/-- Both sums fit 64 bits in bytes. -/
def Fits (rows : List (ℕ×ℕ)) : Prop :=
  2^20*(rows.map Prod.fst).sum<2^64 ∧ 2^20*(rows.map Prod.snd).sum<2^64

instance (rows : List (ℕ×ℕ)) : Decidable (Fits rows) := inferInstanceAs (Decidable (_ ∧ _))

/-- The call returns the exact sums of well-formed output, and none for any
other; it does not panic. -/
structure ExactTotals (out : Text) (outcome : Outcome) : Prop where
  /-- It returns. -/
  returns : outcome≠.panicked
  /-- Sums are returned exactly if there are lines, all of two numbers, and
  both sums fit. -/
  accepts : (∃ vram,outcome=.returned (some vram)) ↔
    ∃ rows,List.Forall₂ Row (nonBlank out) rows ∧ rows≠[] ∧ Fits rows
  /-- They are exact. -/
  exact : ∀ vram rows,outcome=.returned (some vram) → List.Forall₂ Row (nonBlank out) rows →
    vram.totalBytes.toNat=2^20*(rows.map Prod.fst).sum ∧
      vram.usedBytes.toNat=2^20*(rows.map Prod.snd).sum

/-- Lines that are read without overflow after rows seen before. -/
structure NeverOverflows (seen : List (ℕ×ℕ)) (lines : List Text) : Prop where
  /-- The sums of the well-formed lines in front fit, however many are read. -/
  sums : ∀ pre post rows,lines=pre++post → List.Forall₂ Row pre rows → Fits (seen++rows)
  /-- So does the first number of the line after them, well-formed or not. -/
  first : ∀ pre line post rows a,lines=pre++line::post → List.Forall₂ Row pre rows →
    FirstNumber line a → 2^20*a<2^64

/-- The sums of rows, as far as they fit. -/
def totals : List (ℕ×ℕ) → Option Vram
  | [] => none
  | rows => some ⟨UInt64.ofNat (2^20*(rows.map Prod.fst).sum),
      UInt64.ofNat (2^20*(rows.map Prod.snd).sum)⟩

/-- A first number, as the code reads it. -/
theorem firstNumber_iff {line : Text} {a : ℕ} : FirstNumber line a ↔
    ∃ first second,splitOnce ',' line=some (first,second) ∧ parseU64 (trim first)=some a := by
  simp only [FirstNumber,splitOnce_eq_some,parseU64_trim_eq_some,and_assoc]

/-- Two numbers, as the code reads them. -/
theorem row_iff {line : Text} {row : ℕ×ℕ} : Row line row ↔
    ∃ first second,splitOnce ',' line=some (first,second) ∧ parseU64 (trim first)=some row.1 ∧
      parseU64 (trim second)=some row.2 := by
  simp only [Row,splitOnce_eq_some,parseU64_trim_eq_some,and_assoc]

/-- A line has at most one row. -/
theorem row_unique : Relator.RightUnique Row := by
  intro line row row' h h'
  obtain ⟨first,second,hs,ha,hb⟩ := row_iff.mp h
  obtain ⟨first',second',hs',ha',hb'⟩ := row_iff.mp h'
  obtain ⟨rfl,rfl⟩ := Prod.mk.inj (Option.some.inj (hs.symm.trans hs'))
  exact Prod.ext (Option.some.inj (ha.symm.trans ha')) (Option.some.inj (hb.symm.trans hb'))

/-- A result goes on to the next step, and an error ends all. -/
theorem ok_bind {α β : Type} (a : α) (f : α → Except Stop β) : (Except.ok a >>= f)=f a := rfl

theorem error_bind {α β : Type} (stop : Stop) (f : α → Except Stop β) :
    (Except.error stop >>= f)=.error stop := rfl

/-- A result that fits is exact, and without checks every result is kept
modulo `2^64`. -/
theorem unchecked_ok {overflowChecks : Bool} {exact : ℕ}
    (h : overflowChecks=false ∨ exact<2^64) :
    unchecked overflowChecks exact=.ok (exact%2^64) := by
  unfold unchecked
  split
  · rename_i hlt
    rw [Nat.mod_eq_of_lt hlt]
  · rename_i hge
    rw [if_neg (by simp [h.resolve_right hge])]

/-- With checks a result that does not fit panics. -/
theorem unchecked_overflow {exact : ℕ} (h : ¬exact<2^64) :
    unchecked true exact=.error .overflow := by
  rw [unchecked,if_neg h,if_pos rfl]

/-- A number is read as its bytes. -/
theorem readMib_some {overflowChecks : Bool} {s : Text} {n : ℕ} (h : parseU64 (trim s)=some n) :
    readMib overflowChecks s=unchecked overflowChecks (2^20*n) := by
  rw [readMib,h,Nat.mul_comm]
  rfl

/-- Anything else is not read. -/
theorem readMib_none {overflowChecks : Bool} {s : Text} (h : parseU64 (trim s)=none) :
    readMib overflowChecks s=.error .malformed := by
  rw [readMib,h]

/-- The sums so far, by their bytes. -/
theorem totals_getD (rows : List (ℕ×ℕ)) : ((totals rows).getD ⟨0,0⟩).totalBytes.toNat=
      2^20*(rows.map Prod.fst).sum%2^64 ∧
    ((totals rows).getD ⟨0,0⟩).usedBytes.toNat=2^20*(rows.map Prod.snd).sum%2^64 := by
  cases rows with
  | nil => exact ⟨rfl,rfl⟩
  | cons row rows => exact ⟨UInt64.toNat_ofNat',UInt64.toNat_ofNat'⟩

/-- Rows before a row fit if all of them do. -/
theorem Fits.of_append {rows more : List (ℕ×ℕ)} (h : Fits (rows++more)) : Fits rows := by
  obtain ⟨ha,hb⟩ := h
  rw [List.map_append,List.sum_append] at ha hb
  exact ⟨by omega,by omega⟩

/-- One more row is added to both sums. -/
theorem totals_snoc (rows : List (ℕ×ℕ)) (row : ℕ×ℕ) : totals (rows++[row])=
    some ⟨UInt64.ofNat (2^20*((rows.map Prod.fst).sum+row.1)),
      UInt64.ofNat (2^20*((rows.map Prod.snd).sum+row.2))⟩ := by
  have hsum : ∀ f : ℕ×ℕ → ℕ,((rows++[row]).map f).sum=(rows.map f).sum+f row := fun f => by simp
  rw [←hsum Prod.fst,←hsum Prod.snd]
  cases rows <;> rfl

/-- Whether one more row fits. -/
theorem fits_snoc {rows : List (ℕ×ℕ)} {row : ℕ×ℕ} : Fits (rows++[row]) ↔
    2^20*((rows.map Prod.fst).sum+row.1)<2^64 ∧ 2^20*((rows.map Prod.snd).sum+row.2)<2^64 := by
  simp [Fits]

/-- Adding in words is adding and then narrowing. -/
theorem ofNat_add_mod (x y : ℕ) :
    UInt64.ofNat ((2^20*x%2^64+2^20*y%2^64)%2^64)=UInt64.ofNat (2^20*(x+y)) := by
  refine UInt64.toNat_inj.mp ?_
  rw [UInt64.toNat_ofNat',UInt64.toNat_ofNat',Nat.mod_mod,←Nat.add_mod,Nat.mul_add]

/-- A row that fits, or any row without checks, is added to the sums. -/
theorem addLine_row {overflowChecks : Bool} {line : Text} {row : ℕ×ℕ} {rows : List (ℕ×ℕ)}
    (h : Row line row) (hfits : overflowChecks=false ∨ Fits (rows++[row])) :
    addLine overflowChecks (totals rows) line=.ok (totals (rows++[row])) := by
  obtain ⟨first,second,hs,ha,hb⟩ := row_iff.mp h
  have hok : ∀ e : ℕ,(Fits (rows++[row]) → e<2^64) → unchecked overflowChecks e=.ok (e%2^64) :=
    fun e he => unchecked_ok (hfits.imp_right he)
  obtain ⟨ht,hu⟩ := totals_getD rows
  rw [addLine,hs]
  dsimp only
  rw [readMib_some ha,readMib_some hb,hok _ fun hf => by have := fits_snoc.mp hf; omega,ok_bind,
    hok _ fun hf => by have := fits_snoc.mp hf; omega,ok_bind,ht,hu,
    hok _ fun hf => by have := fits_snoc.mp hf; omega,ok_bind,
    hok _ fun hf => by have := fits_snoc.mp hf; omega,ok_bind,ofNat_add_mod,ofNat_add_mod,
    totals_snoc]
  rfl

/-- A line that is not a row ends the reading, unless its first number
overflows a check. -/
theorem addLine_malformed {overflowChecks : Bool} {line : Text} {vram : Option Vram}
    (h : ∀ row,¬Row line row)
    (hfirst : overflowChecks=false ∨ ∀ a,FirstNumber line a → 2^20*a<2^64) :
    addLine overflowChecks vram line=.error .malformed := by
  unfold addLine
  cases hs : splitOnce ',' line with
  | none => rfl
  | some parts =>
    obtain ⟨first,second⟩ := parts
    dsimp only
    cases ha : parseU64 (trim first) with
    | none => rw [readMib_none ha,error_bind]
    | some a =>
      have hb : parseU64 (trim second)=none := by
        by_contra hb
        obtain ⟨b,hb⟩ := Option.ne_none_iff_exists'.mp hb
        exact h (a,b) (row_iff.mpr ⟨first,second,hs,ha,hb⟩)
      have hfit : overflowChecks=false ∨ 2^20*a<2^64 :=
        hfirst.imp_right fun hf => hf a (firstNumber_iff.mpr ⟨first,second,hs,ha⟩)
      rw [readMib_some ha,unchecked_ok hfit,ok_bind,readMib_none hb,error_bind]

/-- A first number that does not fit panics. -/
theorem addLine_first_overflow {line : Text} {vram : Option Vram} {a : ℕ}
    (h : FirstNumber line a) (ha : ¬2^20*a<2^64) :
    addLine true vram line=.error .overflow := by
  obtain ⟨first,second,hs,hp⟩ := firstNumber_iff.mp h
  rw [addLine,hs]
  dsimp only
  rw [readMib_some hp,unchecked_overflow ha,error_bind]

/-- A row that does not fit panics. -/
theorem addLine_row_overflow {line : Text} {row : ℕ×ℕ} {rows : List (ℕ×ℕ)} (h : Row line row)
    (hseen : Fits rows) (hfits : ¬Fits (rows++[row])) :
    addLine true (totals rows) line=.error .overflow := by
  obtain ⟨first,second,hs,ha,hb⟩ := row_iff.mp h
  by_cases hfirst : 2^20*row.1<2^64
  · obtain ⟨ht,hu⟩ := totals_getD rows
    have hsum := mt fits_snoc.mpr hfits
    rw [Nat.mod_eq_of_lt hseen.1] at ht
    rw [Nat.mod_eq_of_lt hseen.2] at hu
    rw [addLine,hs]
    dsimp only
    rw [readMib_some ha,readMib_some hb,unchecked_ok (.inr hfirst),ok_bind,
      Nat.mod_eq_of_lt hfirst]
    by_cases hsecond : 2^20*row.2<2^64
    · rw [unchecked_ok (.inr hsecond),ok_bind,Nat.mod_eq_of_lt hsecond,ht,hu,←Nat.mul_add,
        ←Nat.mul_add]
      by_cases htotal : 2^20*((rows.map Prod.fst).sum+row.1)<2^64
      · rw [unchecked_ok (.inr htotal),ok_bind,unchecked_overflow fun hlt => hsum ⟨htotal,hlt⟩,
          error_bind]
      · rw [unchecked_overflow htotal,error_bind]
    · rw [unchecked_overflow hsecond,error_bind]
  · exact addLine_first_overflow (firstNumber_iff.mpr ⟨first,second,hs,ha⟩) hfirst

/-- Reading on without overflow: nothing overflows in the next line, and
nothing after it if it is a row. -/
theorem neverOverflows_cons {seen : List (ℕ×ℕ)} {line : Text} {lines : List Text} :
    NeverOverflows seen (line::lines) ↔ Fits seen ∧ (∀ a,FirstNumber line a → 2^20*a<2^64) ∧
      ∀ row,Row line row → NeverOverflows (seen++[row]) lines := by
  constructor
  · intro h
    refine ⟨by simpa using h.sums [] (line::lines) [] rfl .nil,
      fun a ha => h.first [] line lines [] a rfl .nil ha,fun row hrow => ⟨?_,?_⟩⟩
    · rintro pre post rows rfl hrows
      have := h.sums (line::pre) post (row::rows) rfl (.cons hrow hrows)
      rwa [List.append_assoc]
    · rintro pre line' post rows a rfl hrows ha
      exact h.first (line::pre) line' post (row::rows) a rfl (.cons hrow hrows) ha
  · rintro ⟨hseen,hfirst,hrest⟩
    constructor
    · intro pre post rows hl hrows
      cases hrows with
      | nil => rwa [List.append_nil]
      | @cons _ row pre rows hrow hrows =>
        obtain ⟨rfl,rfl⟩ := List.cons.inj hl
        have := (hrest row hrow).sums pre post rows rfl hrows
        rwa [List.append_assoc] at this
    · intro pre line' post rows a hl hrows ha
      cases hrows with
      | nil =>
        obtain ⟨rfl,-⟩ := List.cons.inj hl
        exact hfirst a ha
      | @cons _ row pre rows hrow hrows =>
        obtain ⟨rfl,rfl⟩ := List.cons.inj hl
        exact (hrest row hrow).first pre line' post rows a rfl hrows ha

/-- Reading rows adds them all, as long as they fit or nothing is checked. -/
theorem foldlM_rows {overflowChecks : Bool} {seen rows : List (ℕ×ℕ)} {lines : List Text}
    (hrows : List.Forall₂ Row lines rows) (hfits : overflowChecks=false ∨ Fits (seen++rows)) :
    lines.foldlM (addLine overflowChecks) (totals seen)=.ok (totals (seen++rows)) := by
  induction hrows generalizing seen with
  | nil =>
    rw [List.append_nil]
    rfl
  | cons hrow _ ih =>
    rw [List.append_cons] at hfits ⊢
    rw [List.foldlM_cons,addLine_row hrow (hfits.imp_right Fits.of_append)]
    exact ih hfits

/-- A line that is not a row ends the reading with nothing, unless it
overflows before. -/
theorem foldlM_malformed {overflowChecks : Bool} {seen : List (ℕ×ℕ)} {lines : List Text}
    (h : ∀ rows,¬List.Forall₂ Row lines rows)
    (hover : overflowChecks=false ∨ NeverOverflows seen lines) :
    lines.foldlM (addLine overflowChecks) (totals seen)=.error .malformed := by
  induction lines generalizing seen with
  | nil => exact absurd .nil (h [])
  | cons line lines ih =>
    rw [List.foldlM_cons]
    by_cases hrow : ∃ row,Row line row
    · obtain ⟨row,hrow⟩ := hrow
      have hnext : overflowChecks=false ∨ NeverOverflows (seen++[row]) lines :=
        hover.imp_right fun hn => (neverOverflows_cons.mp hn).2.2 row hrow
      have hfits : overflowChecks=false ∨ Fits (seen++[row]) := by
        refine hnext.imp_right fun hn => ?_
        simpa using hn.sums [] lines [] rfl .nil
      rw [addLine_row hrow hfits]
      exact ih (fun rows hrows => h (row::rows) (.cons hrow hrows)) hnext
    · rw [addLine_malformed (fun row hr => hrow ⟨row,hr⟩)
        (hover.imp_right fun hn => (neverOverflows_cons.mp hn).2.1)]
      rfl

/-- With checks an overflow on the way panics. -/
theorem foldlM_overflow {seen : List (ℕ×ℕ)} {lines : List Text} (hseen : Fits seen)
    (h : ¬NeverOverflows seen lines) :
    lines.foldlM (addLine true) (totals seen)=.error .overflow := by
  induction lines generalizing seen with
  | nil =>
    refine absurd ⟨?_,?_⟩ h
    · intro pre post rows hl hrows
      obtain ⟨rfl,-⟩ := List.append_eq_nil_iff.mp hl.symm
      cases hrows
      rwa [List.append_nil]
    · intro pre line post rows a hl
      simp at hl
  | cons line lines ih =>
    rw [neverOverflows_cons] at h
    rw [List.foldlM_cons]
    by_cases hfirst : ∀ a,FirstNumber line a → 2^20*a<2^64
    · obtain ⟨row,hrow,hnext⟩ : ∃ row,Row line row ∧ ¬NeverOverflows (seen++[row]) lines := by
        by_contra hno
        exact h ⟨hseen,hfirst,fun row hrow => by_contra fun hn => hno ⟨row,hrow,hn⟩⟩
      by_cases hfits : Fits (seen++[row])
      · rw [addLine_row hrow (.inr hfits)]
        exact ih hfits hnext
      · rw [addLine_row_overflow hrow hseen hfits]
        rfl
    · obtain ⟨a,ha⟩ := not_forall.mp hfirst
      obtain ⟨ha,hover⟩ := Classical.not_imp.mp ha
      rw [addLine_first_overflow ha hover]
      rfl

/-- The sums of rows that fit are exact. -/
theorem totals_exact {rows : List (ℕ×ℕ)} {vram : Vram} (h : totals rows=some vram)
    (hfits : Fits rows) : vram.totalBytes.toNat=2^20*(rows.map Prod.fst).sum ∧
      vram.usedBytes.toNat=2^20*(rows.map Prod.snd).sum := by
  obtain ⟨ht,hu⟩ := totals_getD rows
  rw [h,Option.getD_some] at ht hu
  exact ⟨ht.trans (Nat.mod_eq_of_lt hfits.1),hu.trans (Nat.mod_eq_of_lt hfits.2)⟩

/-- There are sums exactly if there are rows. -/
theorem exists_totals {rows : List (ℕ×ℕ)} : (∃ vram,totals rows=some vram) ↔ rows≠[] := by
  cases rows <;> simp [totals]

/-- Rows that fit and are summed without a panic are summed exactly. -/
theorem exactTotals_rows {out : Text} {rows : List (ℕ×ℕ)}
    (hrows : List.Forall₂ Row (nonBlank out) rows) :
    ExactTotals out (.returned (totals rows)) ↔ Fits rows := by
  have hunique : ∀ rows',List.Forall₂ Row (nonBlank out) rows' → rows'=rows := fun rows' h =>
    row_unique.forall₂ h hrows
  constructor
  · intro h
    by_cases hne : rows=[]
    · subst hne
      decide
    · obtain ⟨vram,hv⟩ := exists_totals.mpr hne
      obtain ⟨rows',hrows',-,hfits⟩ := h.accepts.mp ⟨vram,congrArg _ hv⟩
      exact hunique rows' hrows' ▸ hfits
  · intro hfits
    refine ⟨fun h => (by cases h),⟨fun ⟨vram,hv⟩ => ?_,fun ⟨rows',hrows',hne,_⟩ => ?_⟩,
      fun vram rows' hv hrows' => ?_⟩
    · exact ⟨rows,hrows,exists_totals.mp ⟨vram,Outcome.returned.inj hv⟩,hfits⟩
    · obtain ⟨vram,hv⟩ := exists_totals.mpr (hunique rows' hrows' ▸ hne)
      exact ⟨vram,congrArg _ hv⟩
    · rw [hunique rows' hrows']
      exact totals_exact (Outcome.returned.inj hv) hfits

/-- Output that is not all rows has no sums. -/
theorem exactTotals_malformed {out : Text}
    (h : ∀ rows,¬List.Forall₂ Row (nonBlank out) rows) : ExactTotals out (.returned none) := by
  refine ⟨fun he => (by cases he),⟨fun ⟨_,he⟩ => (by cases he),fun ⟨rows,hrows,_⟩ => ?_⟩,
    fun _ rows _ hrows => ?_⟩
  · exact absurd hrows (h rows)
  · exact absurd hrows (h rows)

/-- `parse_nvidia_smi` returns the exact sums or nothing if and only if
nothing overflows: without overflow checks, the sums of output that is all
rows; with checks, every value computed up to the first line that is no row,
its first number included. -/
theorem parseNvidiaSmi_exact_iff (out : Text) :
    (ExactTotals out (parseNvidiaSmi false out) ↔
      ∀ rows,List.Forall₂ Row (nonBlank out) rows → Fits rows) ∧
    (ExactTotals out (parseNvidiaSmi true out) ↔ NeverOverflows [] (nonBlank out)) := by
  have hempty : (none : Option Vram)=totals [] := rfl
  unfold parseNvidiaSmi
  rw [hempty]
  constructor
  · by_cases hall : ∃ rows,List.Forall₂ Row (nonBlank out) rows
    · obtain ⟨rows,hrows⟩ := hall
      rw [foldlM_rows hrows (.inl rfl),List.nil_append]
      refine (exactTotals_rows hrows).trans ⟨fun hfits rows' hrows' => ?_,fun h => h rows hrows⟩
      exact row_unique.forall₂ hrows hrows' ▸ hfits
    · rw [foldlM_malformed (fun rows hrows => hall ⟨rows,hrows⟩) (.inl rfl)]
      exact ⟨fun _ rows hrows => absurd ⟨rows,hrows⟩ hall,fun _ =>
        exactTotals_malformed fun rows hrows => hall ⟨rows,hrows⟩⟩
  · by_cases hover : NeverOverflows [] (nonBlank out)
    · refine ⟨fun _ => hover,fun _ => ?_⟩
      by_cases hall : ∃ rows,List.Forall₂ Row (nonBlank out) rows
      · obtain ⟨rows,hrows⟩ := hall
        have hfits : Fits rows := hover.sums (nonBlank out) [] rows (by simp) hrows
        rw [foldlM_rows hrows (.inr (by rwa [List.nil_append])),List.nil_append]
        exact (exactTotals_rows hrows).mpr hfits
      · rw [foldlM_malformed (fun rows hrows => hall ⟨rows,hrows⟩) (.inr hover)]
        exact exactTotals_malformed fun rows hrows => hall ⟨rows,hrows⟩
    · rw [foldlM_overflow (by decide) hover]
      exact ⟨fun h => absurd rfl h.returns,fun h => absurd h hover⟩

example : parseNvidiaSmi true "24564, 1000\n24564, 2000\n\n".toList=
    .returned (some ⟨51514441728,3145728000⟩) ∧
    parseNvidiaSmi true "24564, 1000\n[N/A], [N/A]\n".toList=.returned none ∧
    parseNvidiaSmi true []=.returned none := by decide +kernel

/-- With `2^44` MiB the sum is zero in a release build, and a debug build
panics. -/
theorem parseNvidiaSmi_wrapped :
    parseNvidiaSmi false "17592186044416, 0\n".toList=.returned (some ⟨0,0⟩) ∧
    ¬ExactTotals "17592186044416, 0\n".toList (.returned (some ⟨0,0⟩)) ∧
    parseNvidiaSmi true "17592186044416, 0\n".toList=.panicked ∧
    ¬ExactTotals "17592186044416, 0\n".toList .panicked := by
  refine ⟨by decide +kernel,fun h => ?_,by decide +kernel,fun h => h.returns rfl⟩
  have hrows : List.Forall₂ Row (nonBlank "17592186044416, 0\n".toList) [(17592186044416,0)] := by
    have hline : nonBlank "17592186044416, 0\n".toList=["17592186044416, 0".toList] := by
      decide +kernel
    rw [hline]
    exact .cons (row_iff.mpr ⟨"17592186044416".toList," 0".toList,by decide +kernel,
      by decide +kernel,by decide +kernel⟩) .nil
  have hsum := (h.exact _ _ rfl hrows).1
  simp at hsum

end AivyxBroker.Gpu
