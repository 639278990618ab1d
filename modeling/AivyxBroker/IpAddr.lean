import Mathlib

/-!
# Parsing IP addresses

The parser of the standard library, reader by reader. A reader takes its part
off the front of the text and leaves the rest, or fails and takes nothing; an
address is a text that a reader takes as a whole. Numbers are read digit by
digit, with a limit on the count of digits and no other on their value, which
the limit implies.
-/

namespace AivyxBroker.Net

/-- A text by its characters. The parser of the source reads bytes, and a byte
of a longer character stops it like that character. -/
abbrev Text := List Char

/-- An IPv4 address. -/
structure Ipv4Addr where
  /-- The first byte of the text form. -/
  a : ℕ
  /-- The second one. -/
  b : ℕ
  /-- The third one. -/
  c : ℕ
  /-- The last one. -/
  d : ℕ
  deriving DecidableEq

/-- An IPv6 address. -/
structure Ipv6Addr where
  /-- Its eight groups. -/
  segments : List ℕ
  deriving DecidableEq

/-- An IP address. -/
inductive IpAddr where
  /-- Of the old kind. -/
  | v4 (addr : Ipv4Addr)
  /-- Of the new kind. -/
  | v6 (addr : Ipv6Addr)
  deriving DecidableEq

/-- In `127.0.0.0/8`. -/
def Ipv4Addr.isLoopback (addr : Ipv4Addr) : Bool := addr.a==127

/-- Equal to `::1`. -/
def Ipv6Addr.isLoopback (addr : Ipv6Addr) : Bool := addr.segments==[0,0,0,0,0,0,0,1]

/-- Whether an address is a loopback address of its kind. -/
def IpAddr.isLoopback : IpAddr → Bool
  | .v4 addr => addr.isLoopback
  | .v6 addr => addr.isLoopback

/-- The value of a digit, if it is one in this radix. -/
def toDigit (radix : ℕ) (c : Char) : Option ℕ :=
  let digit :=
    if '0' ≤ c ∧ c ≤ '9' then some (c.toNat-48)
    else if 'a' ≤ c ∧ c ≤ 'z' then some (c.toNat-97+10)
    else if 'A' ≤ c ∧ c ≤ 'Z' then some (c.toNat-65+10)
    else none
  digit.filter fun digit => digit<radix

/-- Take the given character. -/
def readGivenChar (target : Char) : Text → Option Text
  | c::rest => if c=target then some rest else none
  | [] => none

/-- Take a part, after a separator unless it is the first one. -/
def readSeparator {α : Type} (sep : Char) (index : ℕ) (inner : Text → Option (α×Text))
    (s : Text) : Option (α×Text) :=
  if 0 < index then (readGivenChar sep s).bind inner else inner s

/-- Take all digits, giving up on more than `maxDigits`. -/
def readDigits (radix maxDigits : ℕ) (result digitCount : ℕ) : Text → Option (ℕ×ℕ×Text)
  | [] => some (result,digitCount,[])
  | c::rest =>
    match toDigit radix c with
    | some digit =>
      if maxDigits<digitCount+1 then none
      else readDigits radix maxDigits (result*radix+digit) (digitCount+1) rest
    | none => some (result,digitCount,c::rest)

/-- Take a number below `bound`. -/
def readNumber (radix maxDigits : ℕ) (allowZeroPrefix : Bool) (bound : ℕ) (s : Text) :
    Option (ℕ×Text) :=
  let hasLeadingZero := s.head?==some '0'
  match readDigits radix maxDigits 0 0 s with
  | none => none
  | some (result,digitCount,rest) =>
    if digitCount=0 then none
    else if (!allowZeroPrefix && hasLeadingZero)=true ∧ 1<digitCount then none
    else if result<bound then some (result,rest)
    else none

/-- Take the group with this index of an IPv4 address. A leading zero is not
allowed, since it could mean octal. -/
def readOctet (index : ℕ) : Text → Option (ℕ×Text) :=
  readSeparator '.' index (readNumber 10 3 false (2^8))

/-- Take an IPv4 address. -/
def readIpv4Addr (s : Text) : Option (Ipv4Addr×Text) := do
  let (a,s) ← readOctet 0 s
  let (b,s) ← readOctet 1 s
  let (c,s) ← readOctet 2 s
  let (d,s) ← readOctet 3 s
  pure (⟨a,b,c,d⟩,s)

/-- Take groups of an IPv6 address, `left` at most, the next one having this
index, and tell whether an embedded IPv4 address was taken last. That needs
room for two groups. -/
def readGroups (index : ℕ) : ℕ → Text → List ℕ×Bool×Text
  | 0,s => ([],false,s)
  | left+1,s =>
    match if 0<left then readSeparator ':' index readIpv4Addr s else none with
    | some (addr,rest) => ([addr.a*256+addr.b,addr.c*256+addr.d],true,rest)
    | none =>
      match readSeparator ':' index (readNumber 16 4 true (2^16)) s with
      | some (group,rest) =>
        let (groups,ipv4,rest) := readGroups (index+1) left rest
        (group::groups,ipv4,rest)
      | none => ([],false,s)

/-- Take an IPv6 address: eight groups, or some groups, `::` for at least one
zero group, and some more. An embedded IPv4 address must come last. -/
def readIpv6Addr (s : Text) : Option (Ipv6Addr×Text) :=
  let (head,headIpv4,s) := readGroups 0 8 s
  if head.length=8 then some (⟨head⟩,s)
  else if headIpv4=true then none
  else do
    let s ← readGivenChar ':' s
    let s ← readGivenChar ':' s
    let (tail,_,s) := readGroups 0 (7-head.length) s
    pure (⟨head++List.replicate (8-head.length-tail.length) 0++tail⟩,s)

/-- Take an address of either kind. -/
def readIpAddr (s : Text) : Option (IpAddr×Text) :=
  match readIpv4Addr s with
  | some (addr,rest) => some (.v4 addr,rest)
  | none => (readIpv6Addr s).map fun (addr,rest) => (.v6 addr,rest)

/-- What a reader makes of a text that it takes as a whole. -/
def parseWith {α : Type} (inner : Text → Option (α×Text)) (s : Text) : Option α :=
  match inner s with
  | some (a,[]) => some a
  | _ => none

/-- Parse an IPv6 address. -/
def parseIpv6Addr (s : Text) : Option Ipv6Addr := parseWith readIpv6Addr s

/-- Parse an IP address. -/
def parseIpAddr (s : Text) : Option IpAddr := parseWith readIpAddr s

/-- The parser of any kind accepts what a reader takes as a whole. -/
theorem parseWith_eq_some {α : Type} {inner : Text → Option (α×Text)} {s : Text} {a : α} :
    parseWith inner s=some a ↔ inner s=some (a,[]) := by
  unfold parseWith
  split
  · rename_i b h
    simp [h]
  · rename_i h
    exact ⟨nofun,fun he => absurd he (h a)⟩

/-- What was taken off a text consists of such characters. -/
def Takes (P : Char → Prop) (s rest : Text) : Prop := ∃ taken,s=taken++rest ∧ ∀ c∈taken,P c

variable {P Q : Char → Prop} {s rest rest' : Text}

/-- Nothing was taken. -/
theorem Takes.refl (s : Text) : Takes P s s := ⟨[],rfl,nofun⟩

/-- One more character was taken first. -/
theorem Takes.cons {c : Char} (hc : P c) (h : Takes P s rest) : Takes P (c::s) rest := by
  obtain ⟨taken,rfl,ht⟩ := h
  exact ⟨c::taken,rfl,by simpa using ⟨hc,ht⟩⟩

/-- Taking twice. -/
theorem Takes.trans (h : Takes P s rest) (h' : Takes P rest rest') : Takes P s rest' := by
  obtain ⟨taken,rfl,ht⟩ := h
  obtain ⟨taken',rfl,ht'⟩ := h'
  refine ⟨taken++taken',(List.append_assoc ..).symm,fun c hc => ?_⟩
  rcases List.mem_append.mp hc with hc | hc
  · exact ht c hc
  · exact ht' c hc

/-- A wider class of characters. -/
theorem Takes.mono (hPQ : ∀ c,P c → Q c) (h : Takes P s rest) : Takes Q s rest := by
  obtain ⟨taken,rfl,ht⟩ := h
  exact ⟨taken,rfl,fun c hc => hPQ c (ht c hc)⟩

/-- A text taken as a whole consists of such characters. -/
theorem Takes.all (h : Takes P s []) : ∀ c∈s,P c := by
  obtain ⟨taken,rfl,ht⟩ := h
  simpa using ht

/-- Digits and dots, as in the text of an IPv4 address. -/
def Ipv4Char (c : Char) : Prop := (toDigit 10 c).isSome=true ∨ c = '.'

/-- Hexadecimal digits, colons and dots, as in the text of an IPv6 address. -/
def Ipv6Char (c : Char) : Prop := (toDigit 16 c).isSome=true ∨ c = ':' ∨ c = '.'

instance (c : Char) : Decidable (Ipv4Char c) := inferInstanceAs (Decidable (_ ∨ _))

instance (c : Char) : Decidable (Ipv6Char c) := inferInstanceAs (Decidable (_ ∨ _ ∨ _))

/-- Decimal digits are hexadecimal ones. -/
theorem Ipv4Char.ipv6Char {c : Char} (h : Ipv4Char c) : Ipv6Char c := by
  rcases h with h | h
  · obtain ⟨digit,hd⟩ := Option.isSome_iff_exists.mp h
    obtain ⟨hd,hlt⟩ := Option.filter_eq_some_iff.mp hd
    refine .inl (Option.isSome_iff_exists.mpr ⟨digit,Option.filter_eq_some_iff.mpr ⟨hd,?_⟩⟩)
    simp only [decide_eq_true_eq] at hlt ⊢
    omega
  · exact .inr (.inr h)

/-- A given character takes itself. -/
theorem readGivenChar_takes {target : Char} (hP : P target) (h : readGivenChar target s=some rest) :
    Takes P s rest := by
  unfold readGivenChar at h
  split at h
  · split at h
    · rename_i hc
      cases h
      exact (Takes.refl _).cons (hc ▸ hP)
    · cases h
  · cases h

/-- A separated part takes the separator and the part. -/
theorem readSeparator_takes {α : Type} {sep : Char} {index : ℕ} {inner : Text → Option (α×Text)}
    {a : α} (hP : P sep) (hinner : ∀ s a rest,inner s=some (a,rest) → Takes P s rest)
    (h : readSeparator sep index inner s=some (a,rest)) : Takes P s rest := by
  unfold readSeparator at h
  split at h
  · obtain ⟨mid,hsep,hrest⟩ := Option.bind_eq_some_iff.mp h
    exact (readGivenChar_takes hP hsep).trans (hinner _ _ _ hrest)
  · exact hinner _ _ _ h

/-- Digits are taken as long as there are some. -/
theorem readDigits_takes {radix maxDigits result digitCount value count : ℕ}
    (h : readDigits radix maxDigits result digitCount s=some (value,count,rest)) :
    Takes (fun c => (toDigit radix c).isSome=true) s rest := by
  induction s generalizing result digitCount with
  | nil =>
    cases h
    exact .refl []
  | cons c s ih =>
    simp only [readDigits] at h
    split at h
    · rename_i digit hd
      split at h
      · cases h
      · exact (ih h).cons (Option.isSome_iff_exists.mpr ⟨digit,hd⟩)
    · cases h
      exact .refl _

/-- A number takes digits only. -/
theorem readNumber_takes {radix maxDigits bound value : ℕ} {allowZeroPrefix : Bool}
    (h : readNumber radix maxDigits allowZeroPrefix bound s=some (value,rest)) :
    Takes (fun c => (toDigit radix c).isSome=true) s rest := by
  unfold readNumber at h
  dsimp only at h
  split at h
  · cases h
  · rename_i hd
    split at h
    · cases h
    · split at h
      · cases h
      · split at h
        · cases h
          exact readDigits_takes hd
        · cases h

/-- An IPv4 address takes digits and dots. -/
theorem readIpv4Addr_takes {addr : Ipv4Addr} (h : readIpv4Addr s=some (addr,rest)) :
    Takes Ipv4Char s rest := by
  have hoctet : ∀ {index s value rest},readOctet index s=some (value,rest) →
      Takes Ipv4Char s rest := fun h => readSeparator_takes (.inr rfl)
    (fun _ _ _ h => (readNumber_takes h).mono fun _ => .inl) h
  simp only [readIpv4Addr,Option.bind_eq_bind,Option.bind_eq_some_iff,Prod.exists] at h
  obtain ⟨a,s1,ha,b,s2,hb,c,s3,hc,d,s4,hd,he⟩ := h
  cases he
  exact (hoctet ha).trans ((hoctet hb).trans ((hoctet hc).trans (hoctet hd)))

/-- Groups take characters of IPv6 addresses, those of an embedded IPv4
address included. -/
theorem readGroups_takes (index left : ℕ) (s : Text) :
    Takes Ipv6Char s (readGroups index left s).2.2 := by
  induction left generalizing index s with
  | zero => exact .refl s
  | succ left ih =>
    simp only [readGroups]
    split
    · rename_i addr rest h
      split at h
      · exact readSeparator_takes (.inr (.inl rfl))
          (fun _ _ _ h => (readIpv4Addr_takes h).mono fun _ => Ipv4Char.ipv6Char) h
      · cases h
    · split
      · rename_i group rest h
        have hgroup : Takes Ipv6Char s rest := readSeparator_takes (.inr (.inl rfl))
          (fun _ _ _ h => (readNumber_takes h).mono fun _ => .inl) h
        exact hgroup.trans (ih ..)
      · exact .refl s

/-- So does an IPv6 address. -/
theorem readIpv6Addr_takes {addr : Ipv6Addr} (h : readIpv6Addr s=some (addr,rest)) :
    Takes Ipv6Char s rest := by
  unfold readIpv6Addr at h
  have hhead := readGroups_takes 0 8 s
  split at h
  rename_i head headIpv4 s1 hg
  rw [hg] at hhead
  split at h
  · cases h
    exact hhead
  · split at h
    · cases h
    · simp only [Option.bind_eq_bind,Option.bind_eq_some_iff] at h
      obtain ⟨s2,h2,s3,h3,he⟩ := h
      cases he
      exact hhead.trans ((readGivenChar_takes (.inr (.inl rfl)) h2).trans
        ((readGivenChar_takes (.inr (.inl rfl)) h3).trans (readGroups_takes ..)))

/-- The text of an IPv6 address has its characters only. -/
theorem parseIpv6Addr_chars {addr : Ipv6Addr} (h : parseIpv6Addr s=some addr) :
    ∀ c∈s,Ipv6Char c := (readIpv6Addr_takes (parseWith_eq_some.mp h)).all

/-- A text with a whole IPv4 address in front is none of an IPv6 address. -/
theorem readIpv4Addr_of_ipv6 {addr : Ipv6Addr} (h : readIpv6Addr s=some (addr,rest)) :
    readIpv4Addr s=none := by
  cases hv : readIpv4Addr s with
  | none => rfl
  | some r =>
    obtain ⟨v4,rest'⟩ := r
    have hg : readGroups 0 8 s=([v4.a*256+v4.b,v4.c*256+v4.d],true,rest') := by
      simp only [readGroups,readSeparator,hv]
      rfl
    rw [readIpv6Addr,hg] at h
    cases h

/-- The address of a text: an IPv4 one, of its characters only, or else an
IPv6 one. -/
theorem parseIpAddr_eq_some {ip : IpAddr} (h : parseIpAddr s=some ip) :
    (∃ addr,ip=.v4 addr ∧ ∀ c∈s,Ipv4Char c) ∨ ∃ addr,ip=.v6 addr ∧ parseIpv6Addr s=some addr := by
  have hread := parseWith_eq_some.mp h
  unfold readIpAddr at hread
  split at hread
  · rename_i addr rest hv
    cases hread
    exact .inl ⟨addr,rfl,(readIpv4Addr_takes hv).all⟩
  · obtain ⟨⟨addr,rest⟩,hv,he⟩ := Option.map_eq_some_iff.mp hread
    cases he
    exact .inr ⟨addr,rfl,parseWith_eq_some.mpr hv⟩

example : parseIpAddr "127.0.0.1".toList=some (.v4 ⟨127,0,0,1⟩) ∧
    parseIpAddr "127.0.0.01".toList=none := by decide +kernel

/-- An IPv6 address is the address of its text. -/
theorem parseIpAddr_of_ipv6 {addr : Ipv6Addr} (h : parseIpv6Addr s=some addr) :
    parseIpAddr s=some (.v6 addr) := by
  have hread := parseWith_eq_some.mp h
  refine parseWith_eq_some.mpr ?_
  rw [readIpAddr,readIpv4Addr_of_ipv6 hread,hread]
  rfl

example : parseIpAddr "1:2::10.0.0.255".toList=some (.v6 ⟨[1,2,0,0,0,0,2560,255]⟩) ∧
    parseIpAddr "1:2:3:4:5:6:7::".toList=some (.v6 ⟨[1,2,3,4,5,6,7,0]⟩) ∧
    parseIpAddr "1:2:3:4:5:6:7:8:".toList=none := by decide +kernel

end AivyxBroker.Net
