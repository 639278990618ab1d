import AivyxBroker.TextReading

/-!
# The text of an IPv4 address

A number has one decimal numeral without a leading zero, and the reader of an
octet accepts no other. So an IPv4 address is parsed from exactly one text:
four numerals with dots between them, the one that displaying it writes.
-/

namespace AivyxBroker.Net

open TextReading

/-- The numeral of a number, as it is displayed. -/
def numeral (n : ℕ) : Text := Nat.toDigits 10 n

/-- The text of an IPv4 address, as it is displayed. -/
def Ipv4Addr.text (addr : Ipv4Addr) : Text :=
  numeral addr.a++ '.'::(numeral addr.b++ '.'::(numeral addr.c++ '.'::numeral addr.d))

/-- Its parts are bytes. -/
def Ipv4Addr.Bytes (addr : Ipv4Addr) : Prop :=
  addr.a<2^8 ∧ addr.b<2^8 ∧ addr.c<2^8 ∧ addr.d<2^8

/-- What follows a number: no further digit. -/
def NoDigit (rest : Text) : Prop := ∀ c,rest.head?=some c → c.isDigit=false

/-- A numeral consists of digits. -/
theorem isDigit_of_mem_numeral {n : ℕ} {c : Char} (hc : c∈numeral n) : c.isDigit=true :=
  Nat.isDigit_of_mem_toDigits (by decide) (by decide) hc

/-- Digits are valued in the order in which they are read. -/
theorem decimal_eq_ofDigitChars (result : ℕ) (digits : Text) :
    decimal result digits=Nat.ofDigitChars 10 digits result := by
  unfold decimal Nat.ofDigitChars
  congr 1
  funext value c
  rw [Nat.mul_comm]
  rfl

/-- A numeral has the value it is made from. -/
theorem decimal_numeral (n : ℕ) : decimal 0 (numeral n)=n := by
  rw [decimal_eq_ofDigitChars]
  exact Nat.ofDigitChars_ten_toDigits

/-- So it is read back, if its value fits. -/
theorem isU64_numeral {n : ℕ} (h : n<2^64) : IsU64 (numeral n) n :=
  ⟨numeral n,.inl rfl,Nat.toDigits_ne_nil,fun _ hc => isDigit_of_mem_numeral hc,decimal_numeral n,h⟩

/-- The last digit has the least weight. -/
theorem decimal_snoc (digits : Text) (c : Char) :
    decimal 0 (digits++[c])=10*decimal 0 digits+(c.toNat-48) := by
  simp only [decimal,List.foldl_append,List.foldl_cons,List.foldl_nil,Nat.mul_comm]

/-- A digit is the digit of its value. -/
theorem digitChar_of_isDigit {c : Char} (h : c.isDigit=true) :
    (c.toNat-48).digitChar=c ∧ c.toNat-48<10 := by
  rw [Char.isDigit,Bool.and_eq_true,decide_eq_true_iff,decide_eq_true_iff] at h
  have hlow : 48≤c.toNat := h.1
  have hhigh : c.toNat≤57 := h.2
  refine ⟨Char.toNat_inj.mp ?_,by omega⟩
  have hvalue : ∀ n<10,(Nat.digitChar n).toNat=n+48 := by decide
  rw [hvalue _ (by omega)]
  omega

/-- Digits without a leading zero are the numeral of their value. -/
theorem numeral_decimal {digits : Text} (hne : digits≠[]) (hd : ∀ c∈digits,c.isDigit=true)
    (hz : digits.head?=some '0' → digits.length=1) : numeral (decimal 0 digits)=digits := by
  induction digits using List.reverseRecOn with
  | nil => exact absurd rfl hne
  | append_singleton init c ih =>
    obtain ⟨hchar,hlt⟩ := digitChar_of_isDigit (hd c (by simp))
    rw [decimal_snoc,numeral]
    by_cases hinit : init=[]
    · subst hinit
      rw [show decimal 0 []=0 from rfl,Nat.mul_zero,Nat.zero_add,Nat.toDigits_of_lt_base hlt,hchar]
      rfl
    · have hhead : init.head?≠some '0' := by
        intro he
        have hlen := hz (by rw [List.head?_append_of_ne_nil _ hinit]; exact he)
        have hpos := List.length_pos_of_ne_nil hinit
        rw [List.length_append,List.length_singleton] at hlen
        omega
      have hnumeral := ih hinit (fun c hc => hd c (List.mem_append_left _ hc))
        fun he => absurd he hhead
      have hpos : 0<decimal 0 init := by
        refine Nat.pos_of_ne_zero fun hzero => hhead ?_
        rw [←hnumeral,hzero]
        rfl
      rw [←Nat.toDigits_append_toDigits (by decide) hpos hlt,Nat.toDigits_of_lt_base hlt,hchar]
      exact congrArg (·++[c]) hnumeral

/-- A numeral begins with a zero only if it is one. -/
theorem numeral_head {n : ℕ} (h : (numeral n).head?=some '0') : (numeral n).length=1 := by
  by_cases hn : n<10
  · rw [numeral,Nat.toDigits_of_lt_base hn]
    rfl
  · exfalso
    have hpos : ∀ n,0<n → (numeral n).head?≠some '0' := by
      intro n
      induction n using Nat.strong_induction_on with
      | _ n ih =>
        intro hpos he
        by_cases hn : n<10
        · rw [numeral,Nat.toDigits_of_lt_base hn] at he
          have hdigit : ∀ n<10,0<n → Nat.digitChar n ≠ '0' := by decide
          exact hdigit n hn hpos (Option.some.inj he)
        · rw [numeral,Nat.toDigits_of_base_le (by decide) (by omega),
            List.head?_append_of_ne_nil _ Nat.toDigits_ne_nil] at he
          exact ih (n/10) (by omega) (by omega) he
    exact hpos n (by omega) h

/-- Digits up to something else are all taken. -/
theorem readDigits_digits {maxDigits result digitCount : ℕ} {digits rest : Text}
    (hd : ∀ c∈digits,c.isDigit=true) (hrest : NoDigit rest)
    (hcount : digitCount+digits.length ≤ maxDigits) :
    readDigits 10 maxDigits result digitCount (digits++rest)=
      some (decimal result digits,digitCount+digits.length,rest) := by
  induction digits generalizing result digitCount with
  | nil =>
    cases rest with
    | nil => rfl
    | cons c rest =>
      rw [List.nil_append,readDigits,toDigit_ten,hrest c rfl]
      rfl
  | cons c digits ih =>
    rw [List.length_cons] at hcount
    rw [List.cons_append,readDigits,toDigit_ten,if_pos (hd c List.mem_cons_self)]
    dsimp only
    rw [if_neg (by omega),ih (fun c hc => hd c (List.mem_cons_of_mem _ hc)) (by omega),
      List.length_cons,Nat.add_assoc,Nat.add_comm 1]
    rfl

/-- What was taken are digits up to something else. -/
theorem readDigits_eq_some {maxDigits result digitCount value count : ℕ} {s rest : Text}
    (h : readDigits 10 maxDigits result digitCount s=some (value,count,rest)) :
    ∃ digits,s=digits++rest ∧ (∀ c∈digits,c.isDigit=true) ∧ NoDigit rest ∧
      value=decimal result digits ∧ count=digitCount+digits.length := by
  induction s generalizing result digitCount with
  | nil =>
    cases h
    exact ⟨[],rfl,by simp,by simp [NoDigit],rfl,rfl⟩
  | cons c s ih =>
    rw [readDigits,toDigit_ten] at h
    by_cases hc : c.isDigit=true
    · rw [if_pos hc] at h
      dsimp only at h
      split at h
      · cases h
      · obtain ⟨digits,rfl,hd,hrest,rfl,rfl⟩ := ih h
        exact ⟨c::digits,rfl,List.forall_mem_cons.mpr ⟨hc,hd⟩,hrest,rfl,by simp; omega⟩
    · rw [if_neg hc] at h
      cases h
      refine ⟨[],rfl,by simp,?_,rfl,rfl⟩
      intro c' he
      cases he
      simpa using hc

/-- An octet is read from its numeral only. -/
theorem readNumber_octet {s rest : Text} {value : ℕ} :
    readNumber 10 3 false (2^8) s=some (value,rest) ↔
      value<2^8 ∧ s=numeral value++rest ∧ NoDigit rest := by
  constructor
  · intro h
    unfold readNumber at h
    dsimp only at h
    split at h
    · cases h
    · rename_i result digitCount rest' hread
      split at h
      · cases h
      · rename_i hcount
        split at h
        · cases h
        · rename_i hzero
          split at h
          · rename_i hlt
            cases h
            obtain ⟨digits,rfl,hd,hrest,rfl,rfl⟩ := readDigits_eq_some hread
            rw [Nat.zero_add] at hcount hzero
            have hne : digits≠[] := fun he => hcount (by rw [he]; rfl)
            refine ⟨hlt,?_,hrest⟩
            rw [numeral_decimal hne hd]
            intro hhead
            have hpos := List.length_pos_of_ne_nil hne
            rw [List.head?_append_of_ne_nil _ hne,hhead] at hzero
            simp only [Bool.not_false,Bool.true_and,beq_self_eq_true,true_and] at hzero
            omega
          · cases h
  · rintro ⟨hlt,rfl,hrest⟩
    have hlen : (numeral value).length≤3 :=
      (Nat.length_toDigits_le_iff (by decide) (by decide)).mpr (by omega)
    have hpos : 0<(numeral value).length := Nat.length_toDigits_pos
    have hne : numeral value≠[] := List.ne_nil_of_length_pos hpos
    unfold readNumber
    rw [readDigits_digits (fun c hc => isDigit_of_mem_numeral hc) hrest (by omega),
      decimal_numeral,Nat.zero_add,List.head?_append_of_ne_nil _ hne]
    dsimp only
    rw [if_neg hpos.ne',if_neg,if_pos hlt]
    rintro ⟨hzero,hmany⟩
    simp only [Bool.not_false,Bool.true_and,beq_iff_eq] at hzero
    have := numeral_head hzero
    omega

/-- A dot is no digit. -/
theorem noDigit_dot (s : Text) : NoDigit ('.'::s) := by
  intro c he
  cases he
  rfl

/-- The first octet is its numeral. -/
theorem readOctet_first {s rest : Text} {value : ℕ} : readOctet 0 s=some (value,rest) ↔
    value<2^8 ∧ s=numeral value++rest ∧ NoDigit rest := readNumber_octet

/-- A later octet is a dot and its numeral. -/
theorem readOctet_later {index : ℕ} {s rest : Text} {value : ℕ} :
    readOctet (index+1) s=some (value,rest) ↔
      value<2^8 ∧ s = '.'::(numeral value++rest) ∧ NoDigit rest := by
  simp only [readOctet,readSeparator,Nat.zero_lt_succ,if_true,Option.bind_eq_some_iff,
    readNumber_octet]
  constructor
  · rintro ⟨mid,hsep,hlt,rfl,hrest⟩
    unfold readGivenChar at hsep
    split at hsep
    · split at hsep
      · rename_i hc
        cases hsep
        exact ⟨hlt,by rw [hc],hrest⟩
      · cases hsep
    · cases hsep
  · rintro ⟨hlt,rfl,hrest⟩
    exact ⟨_,rfl,hlt,rfl,hrest⟩

/-- An IPv4 address is read from its text, up to something that is no digit. -/
theorem readIpv4Addr_eq_some {s rest : Text} {addr : Ipv4Addr} :
    readIpv4Addr s=some (addr,rest) ↔ addr.Bytes ∧ s=addr.text++rest ∧ NoDigit rest := by
  simp only [readIpv4Addr,Option.bind_eq_bind,Option.bind_eq_some_iff,Prod.exists,
    readOctet_first,readOctet_later]
  constructor
  · rintro ⟨a,s1,⟨ha,rfl,-⟩,b,s2,⟨hb,rfl,-⟩,c,s3,⟨hc,rfl,-⟩,d,s4,⟨hd,rfl,hrest⟩,he⟩
    cases he
    exact ⟨⟨ha,hb,hc,hd⟩,by simp [Ipv4Addr.text],hrest⟩
  · rintro ⟨⟨ha,hb,hc,hd⟩,rfl,hrest⟩
    refine ⟨addr.a,_,⟨ha,?_,noDigit_dot _⟩,addr.b,_,⟨hb,rfl,noDigit_dot _⟩,addr.c,_,
      ⟨hc,rfl,noDigit_dot _⟩,addr.d,rest,⟨hd,rfl,hrest⟩,rfl⟩
    simp [Ipv4Addr.text]

/-- A text is parsed as an IPv4 address exactly if it is the text of that
address. -/
theorem parseIpAddr_v4_iff {s : Text} {addr : Ipv4Addr} :
    parseIpAddr s=some (.v4 addr) ↔ addr.Bytes ∧ s=addr.text := by
  rw [parseIpAddr,parseWith_eq_some]
  have hread : readIpAddr s=some (.v4 addr,[]) ↔ readIpv4Addr s=some (addr,[]) := by
    unfold readIpAddr
    split
    · rename_i addr' rest h
      rw [h]
      simp
    · rename_i h
      rw [h]
      simp
  rw [hread,readIpv4Addr_eq_some,List.append_nil]
  exact and_congr_right fun _ => and_iff_left (by simp [NoDigit])

example : (Ipv4Addr.mk 127 0 10 255).text="127.0.10.255".toList := by decide

end AivyxBroker.Net
