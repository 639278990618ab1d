import AivyxBroker.IpAddr

/-!
# Parsing without regard to case

The digits of an IPv6 address may be written in either case, and no other
letter is ever read. So lowering a text changes neither what a reader takes
off its front nor whether it fails; this is carried from the single digit
through every reader to the parser.
-/

namespace AivyxBroker.Net

variable {α : Type}

/-- A text in small ASCII letters. -/
def lower (s : Text) : Text := s.map Char.toLower

/-- The code of a small letter is 32 above that of the large one. -/
theorem toNat_toLower (c : Char) :
    c.toLower.toNat=if 65≤c.toNat ∧ c.toNat≤90 then c.toNat+32 else c.toNat := by
  have hupper : (c.val ≥ 'A'.val ∧ c.val ≤ 'Z'.val) ↔ 65≤c.toNat ∧ c.toNat≤90 := Iff.rfl
  unfold Char.toLower
  split
  · rename_i h
    have hle := (hupper.mp h).2
    rw [if_pos (hupper.mp h)]
    change (c.val+('a'.val- 'A'.val)).toNat=c.toNat+32
    rw [UInt32.toNat_add,show ('a'.val- 'A'.val).toNat=32 from rfl]
    exact Nat.mod_eq_of_lt (by change c.toNat+32<_; omega)
  · rename_i h
    rw [if_neg fun hr => h (hupper.mpr hr)]

/-- Lowering twice changes nothing more. -/
@[simp] theorem toLower_toLower (c : Char) : c.toLower.toLower=c.toLower := by
  refine Char.toNat_inj.mp ?_
  rw [toNat_toLower,toNat_toLower]
  split
  · exact if_neg (by omega)
  · rfl

/-- Comparing characters is comparing their codes. -/
theorem char_le_iff (c d : Char) : c ≤ d ↔ c.toNat ≤ d.toNat := Iff.rfl

/-- The case of a digit does not matter. -/
@[simp] theorem toDigit_toLower (radix : ℕ) (c : Char) :
    toDigit radix c.toLower=toDigit radix c := by
  unfold toDigit
  simp only [char_le_iff,toNat_toLower,Char.reduceToNat]
  congr 1
  by_cases hupper : 65≤c.toNat ∧ c.toNat≤90
  · rw [if_pos hupper,if_neg (by omega),if_pos (by omega),if_neg (by omega),if_neg (by omega),
      if_pos hupper]
    exact congrArg (some <| · +10) (by omega)
  · rw [if_neg hupper,if_neg hupper]

/-- A character that is no letter stays what it is, and nothing becomes it. -/
theorem toLower_eq_iff {target : Char} (h : target.isAlpha=false) (c : Char) :
    c.toLower=target ↔ c=target := by
  have hcodes : ¬(65≤target.toNat ∧ target.toNat≤90) ∧ ¬(97≤target.toNat ∧ target.toNat≤122) := by
    simp only [Char.isAlpha,Char.isUpper,Char.isLower,Bool.or_eq_false_iff,decide_eq_false_iff_not,
      Bool.and_eq_false_iff] at h
    exact ⟨h.1,fun hl => h.2.elim (fun hn => hn hl.1) fun hn => hn hl.2⟩
  rw [←Char.toNat_inj,←@Char.toNat_inj c,toNat_toLower]
  split <;> omega

/-- Lowering a text twice changes nothing more. -/
@[simp] theorem lower_lower (s : Text) : lower (lower s)=lower s := by
  simp [lower]

/-- A reader that does not see case: of a lowered text it takes the same part
and leaves the rest lowered. -/
def Caseless (inner : Text → Option (α×Text)) : Prop :=
  ∀ s,inner (lower s)=(inner s).map fun r => (r.1,lower r.2)

/-- A given character that is no letter. -/
theorem readGivenChar_lower {target : Char} (h : target.isAlpha=false) (s : Text) :
    readGivenChar target (lower s)=(readGivenChar target s).map lower := by
  cases s with
  | nil => rfl
  | cons c s =>
    rw [lower,List.map_cons,readGivenChar,readGivenChar]
    by_cases hc : c=target
    · rw [if_pos hc,if_pos ((toLower_eq_iff h c).mpr hc)]
      rfl
    · rw [if_neg hc,if_neg (mt (toLower_eq_iff h c).mp hc)]
      rfl

/-- A separated part. -/
theorem readSeparator_caseless {sep : Char} (h : sep.isAlpha=false) (index : ℕ)
    {inner : Text → Option (α×Text)} (hinner : Caseless inner) :
    Caseless (readSeparator sep index inner) := by
  intro s
  unfold readSeparator
  split
  · rw [readGivenChar_lower h]
    cases readGivenChar sep s with
    | none => rfl
    | some rest => exact hinner rest
  · exact hinner s

/-- Digits are valued without regard to case. -/
theorem readDigits_lower (radix maxDigits result digitCount : ℕ) (s : Text) :
    readDigits radix maxDigits result digitCount (lower s)=
      (readDigits radix maxDigits result digitCount s).map fun r => (r.1,r.2.1,lower r.2.2) := by
  induction s generalizing result digitCount with
  | nil => rfl
  | cons c s ih =>
    rw [lower,List.map_cons,readDigits,readDigits,toDigit_toLower]
    cases toDigit radix c with
    | none => rfl
    | some digit =>
      dsimp only
      split
      · rfl
      · exact ih ..

/-- A number. -/
theorem readNumber_caseless (radix maxDigits : ℕ) (allowZeroPrefix : Bool) (bound : ℕ) :
    Caseless (readNumber radix maxDigits allowZeroPrefix bound) := by
  intro s
  have hzero : ((lower s).head?==some '0')=(s.head?==some '0') := by
    cases s with
    | nil => rfl
    | cons c s =>
      rw [Bool.eq_iff_iff]
      simp [lower,toLower_eq_iff (show ('0').isAlpha=false from rfl)]
  unfold readNumber
  rw [hzero,readDigits_lower]
  cases readDigits radix maxDigits 0 0 s with
  | none => rfl
  | some r =>
    dsimp only [Option.map_some]
    split
    · rfl
    · split
      · rfl
      · split <;> rfl

/-- Readers one after the other. -/
theorem Caseless.bind {β : Type} {inner : Text → Option (α×Text)} {next : α → Text → Option (β×Text)}
    (h : Caseless inner) (hnext : ∀ a,Caseless (next a)) :
    Caseless fun s => (inner s).bind fun r => next r.1 r.2 := by
  intro s
  dsimp only
  rw [h s]
  cases inner s with
  | none => rfl
  | some r => exact hnext r.1 r.2

/-- A value for what was read. -/
theorem Caseless.pure (a : α) : Caseless fun s => some (a,s) := fun _ => rfl

/-- An octet. -/
theorem readOctet_caseless (index : ℕ) : Caseless (readOctet index) :=
  readSeparator_caseless rfl index (readNumber_caseless 10 3 false (2^8))

/-- An IPv4 address. -/
theorem readIpv4Addr_caseless : Caseless readIpv4Addr := by
  have hd : ∀ a b c,Caseless fun s => (readOctet 3 s).bind fun r =>
      some (Ipv4Addr.mk a b c r.1,r.2) := fun a b c =>
    (readOctet_caseless 3).bind fun d => Caseless.pure (Ipv4Addr.mk a b c d)
  have hc : ∀ a b,Caseless fun s => (readOctet 2 s).bind fun r => (readOctet 3 r.2).bind fun r' =>
      some (Ipv4Addr.mk a b r.1 r'.1,r'.2) := fun a b => (readOctet_caseless 2).bind (hd a b)
  have hb := fun a => (readOctet_caseless 1).bind (hc a)
  exact (readOctet_caseless 0).bind hb

/-- The groups of an IPv6 address. -/
theorem readGroups_lower (index left : ℕ) (s : Text) : readGroups index left (lower s)=
    ((readGroups index left s).1,(readGroups index left s).2.1,
      lower (readGroups index left s).2.2) := by
  induction left generalizing index s with
  | zero => rfl
  | succ left ih =>
    simp only [readGroups]
    have hv4 : (if 0<left then readSeparator ':' index readIpv4Addr (lower s) else none)=
        (if 0<left then readSeparator ':' index readIpv4Addr s else none).map
          fun r => (r.1,lower r.2) := by
      split
      · exact readSeparator_caseless rfl index readIpv4Addr_caseless s
      · rfl
    have hgroup : readSeparator ':' index (readNumber 16 4 true (2^16)) (lower s)=
        (readSeparator ':' index (readNumber 16 4 true (2^16)) s).map fun r => (r.1,lower r.2) :=
      readSeparator_caseless rfl index (readNumber_caseless 16 4 true (2^16)) s
    rw [hv4,hgroup]
    cases (if 0<left then readSeparator ':' index readIpv4Addr s else none) with
    | some r => rfl
    | none =>
      cases readSeparator ':' index (readNumber 16 4 true (2^16)) s with
      | none => rfl
      | some r =>
        dsimp only [Option.map_none,Option.map_some]
        rw [ih]

/-- An IPv6 address. -/
theorem readIpv6Addr_caseless : Caseless readIpv6Addr := by
  intro s
  unfold readIpv6Addr
  rw [readGroups_lower]
  obtain ⟨head,headIpv4,rest⟩ := readGroups 0 8 s
  dsimp only
  split
  · rfl
  · split
    · rfl
    · have htail : Caseless fun s : Text => some (Ipv6Addr.mk (head++
          List.replicate (8-head.length-(readGroups 0 (7-head.length) s).1.length) 0++
            (readGroups 0 (7-head.length) s).1),(readGroups 0 (7-head.length) s).2.2) := by
        intro s
        dsimp only
        rw [readGroups_lower]
        rfl
      rw [readGivenChar_lower rfl]
      cases readGivenChar ':' rest with
      | none => rfl
      | some rest =>
        simp only [Option.map_some,Option.bind_eq_bind,Option.bind_some]
        rw [readGivenChar_lower rfl]
        cases readGivenChar ':' rest with
        | none => rfl
        | some rest => exact htail rest

/-- An address of either kind. -/
theorem readIpAddr_caseless : Caseless readIpAddr := by
  intro s
  unfold readIpAddr
  rw [readIpv4Addr_caseless s,readIpv6Addr_caseless s]
  cases readIpv4Addr s with
  | some r => rfl
  | none => cases readIpv6Addr s <;> rfl

/-- Parsing with such a reader. -/
theorem Caseless.parseWith_lower {inner : Text → Option (α×Text)} (h : Caseless inner) (s : Text) :
    parseWith inner (lower s)=parseWith inner s := by
  unfold parseWith
  rw [h s]
  cases inner s with
  | none => rfl
  | some r =>
    obtain ⟨a,rest⟩ := r
    cases rest <;> rfl

/-- The case of an address does not matter. -/
theorem parseIpAddr_lower (s : Text) : parseIpAddr (lower s)=parseIpAddr s :=
  readIpAddr_caseless.parseWith_lower s

end AivyxBroker.Net
