import AivyxBroker.IpAddr

/-!
# Reading lines and numbers

The string functions of the standard library that take the output of a
command apart, and what they accept: a number is read from digits that spaces
may surround, with an optional plus sign, and its value fits 64 bits.
-/

namespace AivyxBroker.TextReading

open Net

/-- The characters with the Unicode property `White_Space`. -/
def isWhitespace (c : Char) : Bool :=
  let n := c.toNat
  decide (9 ≤ n ∧ n ≤ 13 ∨ n=0x20 ∨ n=0x85 ∨ n=0xA0 ∨ n=0x1680 ∨ 0x2000 ≤ n ∧ n ≤ 0x200A ∨
    n=0x2028 ∨ n=0x2029 ∨ n=0x202F ∨ n=0x205F ∨ n=0x3000)

/-- Remove the spaces at both ends. -/
def trim (s : Text) : Text := (s.dropWhile isWhitespace).rdropWhile isWhitespace

/-- The pieces that end in a separator, and what is left after the last one. -/
def splitInclusive (sep : Char) : Text → List Text
  | [] => []
  | c::rest =>
    if c=sep then [c]::splitInclusive sep rest
    else
      match splitInclusive sep rest with
      | [] => [[c]]
      | first::others => (c::first)::others

/-- The text before a last character. -/
def stripSuffix (c : Char) (s : Text) : Option Text :=
  if s.getLast?=some c then some s.dropLast else none

/-- The lines of a text, without their ends. -/
def lines (s : Text) : List Text :=
  (splitInclusive '\n' s).map fun line =>
    match stripSuffix '\n' line with
    | none => line
    | some line => (stripSuffix '\r' line).getD line

/-- The parts before and after the first separator. -/
def splitOnce (sep : Char) : Text → Option (Text×Text)
  | [] => none
  | c::rest =>
    if c=sep then some ([],rest)
    else (splitOnce sep rest).map fun parts => (c::parts.1,parts.2)

/-- Read the digits that follow a value, as long as it fits. -/
def readU64 (result : ℕ) : Text → Option ℕ
  | [] => some result
  | c::rest =>
    match toDigit 10 c with
    | none => none
    | some digit =>
      if result*10+digit<2^64 then readU64 (result*10+digit) rest else none

/-- Parse a `u64`. -/
def parseU64 : Text → Option ℕ
  | [] => none
  | '+'::rest => if rest=[] then none else readU64 0 rest
  | s => readU64 0 s

/-- The value of decimal digits that follow a value. -/
def decimal (result : ℕ) (digits : Text) : ℕ :=
  digits.foldl (fun value c => value*10+(c.toNat-48)) result

/-- A numeral of `n` that fits 64 bits. -/
def IsU64 (s : Text) (n : ℕ) : Prop :=
  ∃ digits,(s=digits ∨ s = '+'::digits) ∧ digits≠[] ∧ (∀ c∈digits,c.isDigit=true) ∧
    decimal 0 digits=n ∧ n<2^64

/-- Nothing but spaces. -/
def Blank (s : Text) : Prop := ∀ c∈s,isWhitespace c=true

/-- Such a numeral with spaces around it. -/
def PaddedU64 (s : Text) (n : ℕ) : Prop :=
  ∃ left text right,s=left++text++right ∧ Blank left ∧ Blank right ∧ IsU64 text n

/-- The decimal digits and their values. -/
theorem toDigit_ten (c : Char) : toDigit 10 c=if c.isDigit=true then some (c.toNat-48) else none := by
  have hdigit : c.isDigit=true ↔ '0' ≤ c ∧ c ≤ '9' := by
    rw [Char.isDigit,Bool.and_eq_true,decide_eq_true_iff,decide_eq_true_iff]
    rfl
  unfold toDigit
  by_cases hd : '0' ≤ c ∧ c ≤ '9'
  · have hlt : c.toNat-48<10 := by
      have : c.toNat≤57 := hd.2
      omega
    simp [hd,hdigit.mpr hd,hlt]
  · have hno : ¬c.isDigit=true := fun h => hd (hdigit.mp h)
    rw [if_neg hd,if_neg hno]
    split
    · simp [Option.filter]
    · split <;> simp [Option.filter]

/-- Reading on never makes a value smaller. -/
theorem le_decimal (result : ℕ) (digits : Text) : result≤decimal result digits := by
  unfold decimal
  induction digits generalizing result with
  | nil => exact le_rfl
  | cons c digits ih =>
    refine le_trans ?_ (ih _)
    dsimp only
    omega

/-- Reading checks every digit, and every value on the way by the last one. -/
theorem readU64_eq_some {result n : ℕ} {s : Text} (h : result<2^64) :
    readU64 result s=some n ↔ (∀ c∈s,c.isDigit=true) ∧ decimal result s=n ∧ n<2^64 := by
  induction s generalizing result with
  | nil =>
    simp only [readU64,Option.some.injEq,List.not_mem_nil,false_implies,implies_true,true_and]
    exact ⟨fun he => ⟨he,he ▸ h⟩,fun he => he.1⟩
  | cons c rest ih =>
    rw [readU64,toDigit_ten,List.forall_mem_cons]
    have hstep : decimal result (c::rest)=decimal (result*10+(c.toNat-48)) rest := rfl
    by_cases hd : c.isDigit=true
    · rw [if_pos hd,hstep]
      dsimp only
      split
      · rename_i hlt
        rw [ih hlt]
        simp only [hd,true_and]
      · rename_i hge
        have hle := le_decimal (result*10+(c.toNat-48)) rest
        refine ⟨fun he => (by cases he),fun ⟨_,he,hlt⟩ => ?_⟩
        omega
    · rw [if_neg hd]
      simp [hd]

/-- The parser accepts exactly the numerals. -/
theorem parseU64_eq_some {s : Text} {n : ℕ} : parseU64 s=some n ↔ IsU64 s n := by
  have hzero : (0 : ℕ)<2^64 := by decide
  unfold IsU64
  constructor
  · intro h
    unfold parseU64 at h
    split at h
    · cases h
    · split at h
      · cases h
      · rename_i rest hne
        obtain ⟨hd,hv,hlt⟩ := (readU64_eq_some hzero).mp h
        exact ⟨rest,.inr rfl,hne,hd,hv,hlt⟩
    · rename_i hne _
      obtain ⟨hd,hv,hlt⟩ := (readU64_eq_some hzero).mp h
      exact ⟨s,.inl rfl,hne,hd,hv,hlt⟩
  · rintro ⟨digits,hs | hs,hne,hd,hv,hlt⟩
    · subst hs
      have hread := (readU64_eq_some hzero).mpr ⟨hd,hv,hlt⟩
      unfold parseU64
      split
      · exact absurd rfl hne
      · have := hd '+' List.mem_cons_self
        exact absurd this (by decide)
      · exact hread
    · subst hs
      rw [parseU64,if_neg hne]
      exact (readU64_eq_some hzero).mpr ⟨hd,hv,hlt⟩

/-- The first separator splits. -/
theorem splitOnce_eq_some {sep : Char} {s before after : Text} :
    splitOnce sep s=some (before,after) ↔ s=before++sep::after ∧ sep∉before := by
  induction s generalizing before with
  | nil => simp [splitOnce]
  | cons c rest ih =>
    rw [splitOnce]
    split
    · rename_i hc
      subst hc
      constructor
      · rintro ⟨⟩
        exact ⟨rfl,by simp⟩
      · rintro ⟨hs,hno⟩
        cases before with
        | nil => rw [(List.cons.inj hs).2]
        | cons b before => exact absurd (List.cons.inj hs).1 fun he => hno (he ▸ List.mem_cons_self)
    · rename_i hc
      rw [Option.map_eq_some_iff]
      constructor
      · rintro ⟨⟨b,a⟩,hr,he⟩
        obtain ⟨rfl,rfl⟩ := Prod.mk.inj he
        obtain ⟨rfl,hno⟩ := ih.mp hr
        exact ⟨rfl,fun hm => (List.mem_cons.mp hm).elim (fun he => hc he.symm) hno⟩
      · rintro ⟨hs,hno⟩
        cases before with
        | nil => exact absurd (List.cons.inj hs).1 hc
        | cons b before =>
          obtain ⟨rfl,hrest⟩ := List.cons.inj hs
          exact ⟨(before,after),ih.mpr ⟨hrest,fun hm => hno (List.mem_cons_of_mem _ hm)⟩,rfl⟩

/-- Trimming removes spaces. -/
theorem exists_trim (s : Text) :
    ∃ left right,s=left++trim s++right ∧ Blank left ∧ Blank right := by
  refine ⟨s.takeWhile isWhitespace,(s.dropWhile isWhitespace).rtakeWhile isWhitespace,?_,
    fun c hc => List.mem_takeWhile_imp hc,fun c hc => List.mem_rtakeWhile_imp hc⟩
  rw [List.append_assoc,trim,List.rdropWhile_append_rtakeWhile,List.takeWhile_append_dropWhile]

/-- Trimming stops at characters that are no spaces. -/
theorem trim_padded {left text right : Text} (hleft : Blank left) (hright : Blank right)
    (hhead : ∀ c,text.head?=some c → isWhitespace c=false)
    (hlast : ∀ c,text.getLast?=some c → isWhitespace c=false) (hne : text≠[]) :
    trim (left++text++right)=text := by
  have hdrop : ∀ t rest : Text,t≠[] → (∀ c,t.head?=some c → isWhitespace c=false) →
      (t++rest).dropWhile isWhitespace=t++rest := by
    intro t rest ht hc
    cases t with
    | nil => exact absurd rfl ht
    | cons c t => exact List.dropWhile_cons_of_neg (by simp [hc c rfl])
  unfold trim
  rw [List.append_assoc,List.dropWhile_append_of_pos hleft,hdrop text right hne hhead,
    List.rdropWhile,List.reverse_append,List.dropWhile_append_of_pos]
  · have hrev := hdrop text.reverse [] (by simpa using hne) (by simpa using hlast)
    rw [List.append_nil] at hrev
    rw [hrev,List.reverse_reverse]
  · exact fun c hc => hright c (List.mem_reverse.mp hc)

/-- A text is trimmed to nothing exactly if it is blank. -/
theorem trim_eq_nil_iff {s : Text} : trim s=[] ↔ Blank s := by
  constructor
  · intro h
    obtain ⟨left,right,hs,hleft,hright⟩ := exists_trim s
    rw [h,List.append_nil] at hs
    rw [hs]
    exact fun c hc => (List.mem_append.mp hc).elim (hleft c) (hright c)
  · intro h
    rw [trim,List.dropWhile_eq_nil_iff.mpr h,List.rdropWhile_nil]

/-- A numeral has no spaces in it. -/
theorem IsU64.no_space {s : Text} {n : ℕ} (h : IsU64 s n) : s≠[] ∧ ∀ c∈s,isWhitespace c=false := by
  obtain ⟨digits,hs,hne,hd,-⟩ := h
  have hdigit : ∀ c∈digits,isWhitespace c=false := by
    intro c hc
    have hrange := hd c hc
    rw [Char.isDigit,Bool.and_eq_true,decide_eq_true_iff,decide_eq_true_iff] at hrange
    have hlow : 48≤c.toNat := hrange.1
    have hhigh : c.toNat≤57 := hrange.2
    rw [isWhitespace,decide_eq_false_iff_not]
    omega
  rcases hs with rfl | rfl
  · exact ⟨hne,hdigit⟩
  · refine ⟨List.cons_ne_nil _ _,List.forall_mem_cons.mpr ⟨by decide,hdigit⟩⟩

/-- What trimming and parsing accepts: a numeral with spaces around it. -/
theorem parseU64_trim_eq_some {s : Text} {n : ℕ} :
    parseU64 (trim s)=some n ↔ PaddedU64 s n := by
  constructor
  · intro h
    obtain ⟨left,right,hs,hleft,hright⟩ := exists_trim s
    exact ⟨left,trim s,right,hs,hleft,hright,parseU64_eq_some.mp h⟩
  · rintro ⟨left,text,right,rfl,hleft,hright,hn⟩
    obtain ⟨hne,hno⟩ := hn.no_space
    rw [trim_padded hleft hright (fun c hc => hno c (List.mem_of_head? hc))
      (fun c hc => hno c (List.mem_of_getLast? hc)) hne]
    exact parseU64_eq_some.mpr hn

/-- The first piece ends in the first separator. -/
theorem splitInclusive_append {sep : Char} {s rest : Text} (h : sep∉s) :
    splitInclusive sep (s++sep::rest)=(s++[sep])::splitInclusive sep rest := by
  induction s with
  | nil => exact if_pos rfl
  | cons c s ih =>
    rw [List.mem_cons,not_or] at h
    rw [List.cons_append,splitInclusive,if_neg (Ne.symm h.1),ih h.2]
    rfl

/-- Texts without line breaks, each written with one, are read back as the
lines. -/
theorem lines_terminated {texts : List Text} (hn : ∀ s∈texts,'\n' ∉ s)
    (hr : ∀ s∈texts,s.getLast?≠some '\r') : lines (texts.flatMap (·++ ['\n']))=texts := by
  induction texts with
  | nil => rfl
  | cons s texts ih =>
    rw [List.forall_mem_cons] at hn hr
    have hrest := ih hn.2 hr.2
    rw [lines] at hrest ⊢
    have hend : stripSuffix '\n' (s++ ['\n'])=some s := by
      rw [stripSuffix,List.getLast?_concat,if_pos rfl,List.dropLast_concat]
    have hline : stripSuffix '\r' s=none := if_neg hr.1
    rw [List.flatMap_cons,List.append_assoc,List.singleton_append,splitInclusive_append hn.1,
      List.map_cons,hrest,hend]
    dsimp only
    rw [hline]
    rfl

end AivyxBroker.TextReading
