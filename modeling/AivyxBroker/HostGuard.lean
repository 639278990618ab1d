import AivyxBroker.IpAddr

/-!
# The host guard

A request is served if what its `Host` header names, after stripping a port,
is a loopback address or a configured host. Stripping is more generous than
the form of a header: it drops whatever follows a bracket, does not ask for
the bracket to be closed or to hold an IPv6 literal, and leaves colons and
brackets in unbracketed text. Of a bare IPv6 literal it takes a last group of
decimal digits for a port.
-/

namespace AivyxBroker.HostGuard

open Net

/-- The parts before and after the last separator. -/
def rsplitOnce (sep : Char) : Text → Option (Text×Text)
  | [] => none
  | c::s =>
    match rsplitOnce sep s with
    | some (before,after) => some (c::before,after)
    | none => if c=sep then some ([],s) else none

/-- Whether a text is a port number: digits, at least one. -/
def isPort (s : Text) : Bool := !s.isEmpty && s.all Char.isDigit

/-- Strip a port from a header, and the brackets of an IPv6 literal. -/
def stripPort (host : Text) : Text :=
  match host with
  | '['::rest => rest.takeWhile (· != ']')
  | _ =>
    match rsplitOnce ':' host with
    | some (h,port) => if isPort port=true then h else host
    | none => host

/-- Equality up to the case of ASCII letters. -/
def eqIgnoreAsciiCase (s t : Text) : Bool := s.map Char.toLower==t.map Char.toLower

/-- Whether a host is `localhost` or a loopback address. -/
def isLoopbackHost (host : Text) : Bool :=
  eqIgnoreAsciiCase host "localhost".toList || (parseIpAddr host).any IpAddr.isLoopback

/-- Whether a header names a loopback host or one of the extra ones. -/
def hostIsAllowed (hostHeader : Text) (extraAllowedHosts : List Text) : Bool :=
  let host := stripPort hostHeader
  isLoopbackHost host || extraAllowedHosts.any fun allowed => eqIgnoreAsciiCase allowed host

/-- The host is admitted: it is `localhost`, a loopback address or one of the
extra hosts. -/
def Admitted (extra : List Text) (host : Text) : Prop :=
  eqIgnoreAsciiCase host "localhost".toList=true ∨
    (∃ ip,parseIpAddr host=some ip ∧ ip.isLoopback=true) ∨
      ∃ allowed∈extra,eqIgnoreAsciiCase allowed host=true

/-- The guard admits what is left after stripping. -/
theorem hostIsAllowed_iff {h : Text} {extra : List Text} :
    hostIsAllowed h extra=true ↔ Admitted extra (stripPort h) := by
  simp only [hostIsAllowed,isLoopbackHost,Bool.or_eq_true,List.any_eq_true,Option.any_eq_true,
    Admitted,or_assoc]

example : hostIsAllowed "LOCALHOST:1".toList []=true ∧
    hostIsAllowed "[::2]:8899".toList []=false ∧
    hostIsAllowed "MY-BOX.LAN".toList ["my-box.lan".toList]=true := by decide +kernel

/-- No colon and no bracket. -/
def Plain (s : Text) : Prop := ∀ c∈s,c ≠ ':' ∧ c ≠ '[' ∧ c ≠ ']'

instance (s : Text) : Decidable (Plain s) := List.decidableBAll _ s

/-- Nothing, or a colon and a port number. -/
def PortSuffix (s : Text) : Prop := s=[] ∨ ∃ d,s = ':'::d ∧ isPort d=true

/-- A well-formed header with its host component: a plain text or a bracketed
IPv6 literal, with or without a port. -/
inductive HostForm : Text → Text → Prop
  /-- A name, or an IPv4 address. -/
  | name {v t : Text} (hv : Plain v) (ht : PortSuffix t) : HostForm (v++t) v
  /-- An IPv6 literal. -/
  | literal {v t : Text} (hv : (parseIpv6Addr v).isSome=true) (ht : PortSuffix t) :
    HostForm ('['::v++ ']'::t) v

/-- A malformed header that is admitted for what its form hides. -/
inductive Smuggled (extra : List Text) : Text → Prop
  /-- After an opening bracket, an admitted host `a` up to a closing one or to
  the end, but not a whole bracketed literal with or without a port. -/
  | bracketed {a t : Text} (ha : ']' ∉ a) (ht : t=[] ∨ ∃ u,t = ']'::u)
      (hbad : ¬((parseIpv6Addr a).isSome=true ∧ ∃ u,t = ']'::u ∧ PortSuffix u))
      (hadm : Admitted extra a) : Smuggled extra ('['::a++t)
  /-- Before a port, a bare IPv6 loopback literal or an extra host that is
  not plain. -/
  | ported {a d : Text} (ha : a.head?≠some '[') (hd : isPort d=true) (hbad : ¬Plain a)
      (hadm : (parseIpv6Addr a).any Ipv6Addr.isLoopback=true ∨
        ∃ allowed∈extra,eqIgnoreAsciiCase allowed a=true) : Smuggled extra (a++ ':'::d)
  /-- The same without a port. -/
  | bare {a : Text} (ha : a.head?≠some '[') (hd : ∀ b d,a=b++ ':'::d → isPort d=false)
      (hbad : ¬Plain a) (hadm : (parseIpv6Addr a).any Ipv6Addr.isLoopback=true ∨
        ∃ allowed∈extra,eqIgnoreAsciiCase allowed a=true) : Smuggled extra a

/-- Splitting fails exactly if there is no separator. -/
theorem rsplitOnce_eq_none {sep : Char} {s : Text} : rsplitOnce sep s=none ↔ sep∉s := by
  induction s with
  | nil => simp [rsplitOnce]
  | cons c s ih =>
    simp only [rsplitOnce]
    split
    · rename_i hsplit
      rw [hsplit] at ih
      have hmem : sep∈s := by simpa using ih
      simp [hmem]
    · rename_i hsplit
      by_cases hc : c=sep
      · simp [hc]
      · simp [hc,Ne.symm hc,ih.mp hsplit]

/-- What splitting at the last separator finds. -/
theorem rsplitOnce_eq_some {sep : Char} {s before after : Text} :
    rsplitOnce sep s=some (before,after) ↔ s=before++sep::after ∧ sep∉after := by
  induction s generalizing before after with
  | nil => simp [rsplitOnce]
  | cons c s ih =>
    simp only [rsplitOnce]
    split
    · rename_i b a hsplit
      obtain ⟨rfl,hno⟩ := ih.mp hsplit
      constructor
      · intro h
        cases h
        exact ⟨rfl,hno⟩
      · rintro ⟨he,hno'⟩
        cases before with
        | nil =>
          cases he
          simp at hno'
        | cons x before =>
          obtain ⟨rfl,hs⟩ := List.cons.inj he
          cases hsplit.symm.trans (ih.mpr ⟨hs,hno'⟩)
          rfl
    · rename_i hsplit
      constructor
      · intro h
        split at h
        · rename_i hc
          cases h
          exact ⟨by rw [hc]; rfl,rsplitOnce_eq_none.mp hsplit⟩
        · cases h
      · rintro ⟨he,hno⟩
        cases before with
        | nil =>
          obtain ⟨rfl,rfl⟩ := List.cons.inj he
          rw [if_pos rfl]
        | cons x before =>
          obtain ⟨-,hs⟩ := List.cons.inj he
          cases hsplit.symm.trans (ih.mpr ⟨hs,hno⟩)

/-- A port number contains no colon, and is not empty. -/
theorem isPort_no_colon {d : Text} (h : isPort d=true) : ':' ∉ d := by
  simp only [isPort,Bool.and_eq_true,List.all_eq_true] at h
  intro hm
  exact absurd (h.2 _ hm) (by decide)

/-- Stripping takes the text after an opening bracket up to a closing one. -/
theorem stripPort_bracketed {a t : Text} (ha : ']' ∉ a) (ht : t=[] ∨ ∃ u,t = ']'::u) :
    stripPort ('['::a++t)=a := by
  have hall : ∀ c∈a,(c != ']')=true := by
    intro c hc
    have hne : c ≠ ']' := by
      rintro rfl
      exact ha hc
    simpa using hne
  change (a++t).takeWhile (· != ']')=a
  rw [List.takeWhile_append_of_pos hall]
  rcases ht with rfl | ⟨u,rfl⟩
  · simp
  · simp

/-- A header without an opening bracket is left to the split at its last colon. -/
theorem stripPort_unbracketed {h : Text} (hh : h.head?≠some '[') : stripPort h=
    match rsplitOnce ':' h with
    | some (before,port) => if isPort port=true then before else h
    | none => h := by
  unfold stripPort
  split
  · exact absurd rfl hh
  · rfl

/-- Adding a port does not change whether a text begins with a bracket. -/
theorem head_append_colon {a d : Text} :
    (a++ ':'::d).head?≠some '[' ↔ a.head?≠some '[' := by
  cases a <;> simp

/-- Stripping takes the text before a port. -/
theorem stripPort_ported {a d : Text} (ha : a.head?≠some '[') (hd : isPort d=true) :
    stripPort (a++ ':'::d)=a := by
  rw [stripPort_unbracketed (head_append_colon.mpr ha),
    rsplitOnce_eq_some.mpr ⟨rfl,isPort_no_colon hd⟩]
  exact if_pos hd

/-- Stripping leaves a text that ends with no port. -/
theorem stripPort_bare {a : Text} (ha : a.head?≠some '[')
    (hd : ∀ b d,a=b++ ':'::d → isPort d=false) : stripPort a=a := by
  rw [stripPort_unbracketed ha]
  split
  · rename_i b d hsplit
    rw [hd b d (rsplitOnce_eq_some.mp hsplit).1]
    rfl
  · rfl

/-- Every header has one of the three shapes that stripping tells apart. -/
theorem header_cases (h : Text) :
    (∃ a t,h = '['::a++t ∧ ']' ∉ a ∧ (t=[] ∨ ∃ u,t = ']'::u)) ∨
    (∃ a d,h=a++ ':'::d ∧ a.head?≠some '[' ∧ isPort d=true) ∨
    (h.head?≠some '[' ∧ ∀ b d,h=b++ ':'::d → isPort d=false) := by
  by_cases hh : h.head?=some '['
  · obtain ⟨rest,rfl⟩ := List.head?_eq_some_iff.mp hh
    refine .inl ⟨rest.takeWhile (· != ']'),rest.dropWhile (· != ']'),?_,fun hm => ?_,?_⟩
    · rw [List.cons_append,List.takeWhile_append_dropWhile]
    · simpa using List.mem_takeWhile_imp hm
    · cases hd : rest.dropWhile (· != ']') with
      | nil => exact .inl rfl
      | cons c u =>
        have hc := List.head?_dropWhile_not (· != ']') rest
        rw [hd] at hc
        simp only [List.head?_cons] at hc
        exact .inr ⟨u,by simpa using hc⟩
  · by_cases hport : ∃ a d,h=a++ ':'::d ∧ isPort d=true
    · obtain ⟨a,d,rfl,hd⟩ := hport
      exact .inr (.inl ⟨a,d,rfl,head_append_colon.mp hh,hd⟩)
    · push Not at hport
      exact .inr (.inr ⟨hh,fun b d he => by simpa using hport b d he⟩)

/-- A plain text does not begin with a bracket. -/
theorem Plain.head {s : Text} (h : Plain s) : s.head?≠some '[' :=
  fun he => (h _ (List.mem_of_mem_head? he)).2.1 rfl

/-- The text of an IPv6 address contains characters of its grammar only. -/
theorem ipv6_not_mem {v : Text} {c : Char} (h : (parseIpv6Addr v).isSome=true)
    (hc : ¬Ipv6Char c) : c∉v := by
  obtain ⟨addr,ha⟩ := Option.isSome_iff_exists.mp h
  exact fun hm => hc (parseIpv6Addr_chars ha c hm)

/-- The two forms of a header with this host component. -/
theorem HostForm.shape {h v : Text} (hf : HostForm h v) :
    (Plain v ∧ ∃ t,h=v++t ∧ PortSuffix t) ∨
      (parseIpv6Addr v).isSome=true ∧ ∃ t,h = '['::v++ ']'::t ∧ PortSuffix t := by
  cases hf with
  | name hv ht => exact .inl ⟨hv,_,rfl,ht⟩
  | literal hv ht => exact .inr ⟨hv,_,rfl,ht⟩

/-- Stripping finds the host component of a well-formed header. -/
theorem HostForm.stripPort {h v : Text} (hf : HostForm h v) : stripPort h=v := by
  cases hf with
  | name hv ht =>
    rcases ht with rfl | ⟨d,rfl,hd⟩
    · rw [List.append_nil]
      refine stripPort_bare hv.head fun b d he => ?_
      exact absurd rfl (hv ':' (by simp [he])).1
    · exact stripPort_ported hv.head hd
  | @literal v t hv ht => exact stripPort_bracketed (ipv6_not_mem hv (by decide)) (.inr ⟨t,rfl⟩)

example : stripPort "[::1]:8899".toList="::1".toList ∧
    stripPort "127.0.0.1:8899".toList="127.0.0.1".toList := by decide +kernel

/-- An admitted host that is not plain is an IPv6 address or an extra host. -/
theorem admitted_iff_of_not_plain {extra : List Text} {a : Text} (h : ¬Plain a) :
    Admitted extra a ↔ (parseIpv6Addr a).any Ipv6Addr.isLoopback=true ∨
      ∃ allowed∈extra,eqIgnoreAsciiCase allowed a=true := by
  constructor
  · rintro (hlocal | ⟨ip,hip,hl⟩ | hextra)
    · refine absurd (fun c hc => ?_) h
      have hm : c.toLower∈"localhost".toList.map Char.toLower := by
        rw [←beq_iff_eq.mp hlocal]
        exact List.mem_map_of_mem hc
      refine ⟨?_,?_,?_⟩ <;> rintro rfl <;> exact absurd hm (by decide)
    · rcases parseIpAddr_eq_some hip with ⟨addr,-,hchars⟩ | ⟨addr,rfl,hv⟩
      · refine absurd (fun c hc => ?_) h
        have hm := hchars c hc
        refine ⟨?_,?_,?_⟩ <;> rintro rfl <;> exact absurd hm (by decide)
      · exact .inl ((Option.any_eq_true ..).mpr ⟨addr,hv,hl⟩)
    · exact .inr hextra
  · rintro (hv | hextra)
    · obtain ⟨addr,hv,hl⟩ := (Option.any_eq_true ..).mp hv
      exact .inr (.inl ⟨_,parseIpAddr_of_ipv6 hv,hl⟩)
    · exact .inr (.inr hextra)

/-- What a smuggling header leaves after stripping is admitted. -/
theorem Smuggled.admitted {extra : List Text} {h : Text} (hs : Smuggled extra h) :
    Admitted extra (stripPort h) := by
  cases hs with
  | bracketed ha ht _ hadm =>
    rw [stripPort_bracketed ha ht]
    exact hadm
  | ported ha hd hbad hadm =>
    rw [stripPort_ported ha hd]
    exact (admitted_iff_of_not_plain hbad).mpr hadm
  | bare ha hd hbad hadm =>
    rw [stripPort_bare ha hd]
    exact (admitted_iff_of_not_plain hbad).mpr hadm

/-- A smuggling header is malformed. -/
theorem Smuggled.malformed {extra : List Text} {h v : Text} (hs : Smuggled extra h) :
    ¬HostForm h v := by
  intro hf
  have hv := hf.stripPort
  cases hs with
  | @bracketed a t ha ht hbad =>
    rw [stripPort_bracketed ha ht] at hv
    subst hv
    rcases hf.shape with ⟨hplain,t',he,ht'⟩ | ⟨hv,t',he,ht'⟩
    · cases a with
      | nil => rcases ht' with rfl | ⟨d,rfl,-⟩ <;> cases he
      | cons c a => exact hplain.head (by rw [←(List.cons.inj he).1]; rfl)
    · exact hbad ⟨hv,t',List.append_cancel_left (List.cons.inj he).2,ht'⟩
  | @ported a d ha hd hbad =>
    rw [stripPort_ported ha hd] at hv
    subst hv
    rcases hf.shape with ⟨hplain,-⟩ | ⟨-,t',he,-⟩
    · exact hbad hplain
    · cases a with
      | nil => cases he
      | cons c a => exact ha (by rw [(List.cons.inj he).1]; rfl)
  | bare ha hd hbad =>
    rw [stripPort_bare ha hd] at hv
    subst hv
    rcases hf.shape with ⟨hplain,-⟩ | ⟨-,t',he,-⟩
    · exact hbad hplain
    · exact ha (by rw [he]; rfl)

/-- A header that is admitted although it is malformed is a smuggling one. -/
theorem smuggled_of_malformed {extra : List Text} {h : Text} (hadm : Admitted extra (stripPort h))
    (hbad : ∀ v,¬HostForm h v) : Smuggled extra h := by
  rcases header_cases h with ⟨a,t,rfl,ha,ht⟩ | ⟨a,d,rfl,ha,hd⟩ | ⟨ha,hd⟩
  · rw [stripPort_bracketed ha ht] at hadm
    refine .bracketed ha ht ?_ hadm
    rintro ⟨hv,u,rfl,hu⟩
    exact hbad a (.literal hv hu)
  · rw [stripPort_ported ha hd] at hadm
    have hplain : ¬Plain a := fun hp => hbad a (.name hp (.inr ⟨d,rfl,hd⟩))
    exact .ported ha hd hplain ((admitted_iff_of_not_plain hplain).mp hadm)
  · rw [stripPort_bare ha hd] at hadm
    have hplain : ¬Plain h := fun hp => hbad h (by simpa using HostForm.name hp (.inl rfl))
    exact .bare ha hd hplain ((admitted_iff_of_not_plain hplain).mp hadm)

/-- The guard admits exactly the well-formed headers with an admitted host
component, if and only if the header smuggles nothing. -/
theorem hostIsAllowed_exact (h : Text) (extra : List Text) :
    (hostIsAllowed h extra=true ↔ ∃ v,HostForm h v ∧ Admitted extra v) ↔ ¬Smuggled extra h := by
  rw [hostIsAllowed_iff]
  constructor
  · intro hiff hs
    obtain ⟨v,hf,-⟩ := hiff.mp hs.admitted
    exact hs.malformed hf
  · intro hs
    constructor
    · intro hadm
      by_cases hf : ∃ v,HostForm h v
      · obtain ⟨v,hf⟩ := hf
        exact ⟨v,hf,hf.stripPort ▸ hadm⟩
      · push Not at hf
        exact absurd (smuggled_of_malformed hadm hf) hs
    · rintro ⟨v,hf,hadm⟩
      rw [hf.stripPort]
      exact hadm

/-- A name behind a bracketed loopback address is admitted. -/
theorem hostIsAllowed_smuggled : ¬(hostIsAllowed "[::1].evil.example".toList []=true ↔
    ∃ v,HostForm "[::1].evil.example".toList v ∧ Admitted [] v) := by
  have hs : Smuggled [] "[::1].evil.example".toList := by
    refine .bracketed (a:="::1".toList) (t:="].evil.example".toList) (by decide) (.inr ⟨_,rfl⟩) ?_
      (.inr (.inl ⟨.v6 ⟨[0,0,0,0,0,0,0,1]⟩,by decide +kernel,rfl⟩))
    rintro ⟨-,u,he,rfl | ⟨d,rfl,-⟩⟩ <;> cases he
  intro hiff
  obtain ⟨v,hf,-⟩ := hiff.mp (hostIsAllowed_iff.mpr hs.admitted)
  exact hs.malformed hf

/-- Stripping undoes adding a port: to a host, to a bracketed literal, or to
neither. -/
structure StripsPort (host v port : Text) : Prop where
  /-- A host without port is its own. -/
  name : stripPort host=host
  /-- A port after a host goes. -/
  namePort : stripPort (host++ ':'::port)=host
  /-- The brackets of a literal go. -/
  literal : stripPort ('['::v++[']'])=v
  /-- So does a port behind them. -/
  literalPort : stripPort ('['::v++ ']':: ':'::port)=v
  /-- A literal without brackets is left alone. -/
  bare : stripPort v=v

/-- The text ends with a colon and decimal digits, as an IPv6 literal does
whose last group is written without a letter. -/
def EndsDecimal (v : Text) : Prop := ∃ before group,v=before++ ':'::group ∧ isPort group=true

/-- The last colon decides. -/
theorem endsDecimal_iff {v : Text} :
    EndsDecimal v ↔ (rsplitOnce ':' v).any (fun r => isPort r.2)=true := by
  rw [Option.any_eq_true]
  constructor
  · rintro ⟨before,group,rfl,hgroup⟩
    exact ⟨(before,group),rsplitOnce_eq_some.mpr ⟨rfl,isPort_no_colon hgroup⟩,hgroup⟩
  · rintro ⟨⟨before,group⟩,hsplit,hgroup⟩
    exact ⟨before,group,(rsplitOnce_eq_some.mp hsplit).1,hgroup⟩

instance (v : Text) : Decidable (EndsDecimal v) := decidable_of_iff _ endsDecimal_iff.symm

/-- A text that does not begin with a bracket is left alone exactly if it does
not end like a port. -/
theorem stripPort_eq_self_iff {v : Text} (hv : v.head?≠some '[') :
    stripPort v=v ↔ ¬EndsDecimal v := by
  constructor
  · rintro hbare ⟨before,group,rfl,hgroup⟩
    rw [stripPort_ported (head_append_colon.mp hv) hgroup] at hbare
    simpa using congrArg List.length hbare
  · intro hend
    refine stripPort_bare hv fun before group he => ?_
    simpa using fun hgroup => hend ⟨before,group,he,hgroup⟩

/-- Stripping undoes adding a port for every host, IPv6 literal and port if
and only if the literal does not end in a decimal group. -/
theorem stripPort_inverts_iff {host v port : Text} (hhost : Plain host)
    (hv : (parseIpv6Addr v).isSome=true) (hport : isPort port=true) :
    StripsPort host v port ↔ ¬EndsDecimal v := by
  have hhead : v.head?≠some '[' := fun he =>
    ipv6_not_mem hv (by decide) (List.mem_of_mem_head? he)
  rw [←stripPort_eq_self_iff hhead]
  refine ⟨StripsPort.bare,fun hbare => ⟨?_,?_,?_,?_,hbare⟩⟩
  · exact HostForm.stripPort (by simpa using HostForm.name hhost (.inl rfl))
  · exact (HostForm.name hhost (.inr ⟨port,rfl,hport⟩)).stripPort
  · exact (HostForm.literal hv (.inl rfl)).stripPort
  · exact (HostForm.literal hv (.inr ⟨port,rfl,hport⟩)).stripPort

/-- A letter in the last group protects a bare literal. -/
theorem stripPort_inverts_letter : StripsPort "localhost".toList "fe80::1a".toList "8899".toList :=
  (stripPort_inverts_iff (by decide) (by decide +kernel) (by decide)).mpr (by decide)

/-- The bare loopback address loses its last group. -/
theorem stripPort_bare_split : Plain "localhost".toList ∧
    (parseIpv6Addr "::1".toList).isSome=true ∧ isPort "8899".toList=true ∧
    stripPort "::1".toList=":".toList ∧
    ¬StripsPort "localhost".toList "::1".toList "8899".toList := by
  have hsplit : stripPort "::1".toList=":".toList := by decide
  refine ⟨by decide,by decide +kernel,by decide,hsplit,fun h => ?_⟩
  exact absurd (hsplit.symm.trans h.bare) (by decide)

end AivyxBroker.HostGuard
