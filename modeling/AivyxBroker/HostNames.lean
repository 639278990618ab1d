import AivyxBroker.HostGuard
import AivyxBroker.IpCase
import AivyxBroker.Ipv4Text
import AivyxBroker.Json
import AivyxBroker.RunInvariant

/-!
# Which requests the guard lets through

The guard sees no case. Of a well-formed header it admits `localhost`, the one
text of each address in `127.0.0.0/8`, the texts of `::1` and the extra hosts.
A page of another site that had its own name resolved to this machine sends
that name in its requests, so none of them has any effect.
-/

namespace AivyxBroker.HostGuard

open Net RunInvariant

/-- Splitting at a separator that is no letter. -/
theorem rsplitOnce_lower {sep : Char} (h : sep.isAlpha=false) (s : Text) :
    rsplitOnce sep (lower s)=(rsplitOnce sep s).map fun r => (lower r.1,lower r.2) := by
  induction s with
  | nil => rfl
  | cons c s ih =>
    change rsplitOnce sep (c.toLower::lower s)=_
    rw [rsplitOnce,rsplitOnce,ih]
    cases rsplitOnce sep s with
    | some r => rfl
    | none =>
      by_cases hc : c=sep
      · simp only [Option.map_none,if_pos hc,if_pos ((toLower_eq_iff h c).mpr hc)]
        rfl
      · simp only [Option.map_none,if_neg hc,if_neg (mt (toLower_eq_iff h c).mp hc)]

/-- A port number has no letters. -/
theorem isPort_lower (s : Text) : isPort (lower s)=isPort s := by
  have hdigit : ∀ c : Char,c.toLower.isDigit=c.isDigit := by
    intro c
    have hten := toDigit_toLower 10 c
    rw [TextReading.toDigit_ten,TextReading.toDigit_ten] at hten
    rw [Bool.eq_iff_iff]
    by_cases hc : c.isDigit=true <;> by_cases hl : c.toLower.isDigit=true <;> simp_all
  have hall : (lower s).all Char.isDigit=s.all Char.isDigit := by
    rw [lower,List.all_map]
    exact congrArg s.all (funext hdigit)
  rw [isPort,isPort,hall]
  cases s <;> rfl

/-- Stripping a lowered header. -/
theorem stripPort_lower (h : Text) : stripPort (lower h)=lower (stripPort h) := by
  have htake : ∀ rest : Text,(lower rest).takeWhile (· != ']')=
      lower (rest.takeWhile (· != ']')) := by
    intro rest
    rw [lower,List.takeWhile_map]
    refine congrArg lower (congrArg (rest.takeWhile ·) (funext fun c => ?_))
    rw [Function.comp_apply,Bool.eq_iff_iff,bne_iff_ne,bne_iff_ne]
    exact not_congr (toLower_eq_iff rfl c)
  by_cases hh : h.head?=some '['
  · obtain ⟨rest,rfl⟩ := List.head?_eq_some_iff.mp hh
    exact htake rest
  · have hl : (lower h).head?≠some '[' := by
      cases h with
      | nil => simp [lower]
      | cons c h =>
        intro he
        exact hh (congrArg some ((toLower_eq_iff rfl c).mp (Option.some.inj he)))
    rw [stripPort_unbracketed hh,stripPort_unbracketed hl,rsplitOnce_lower rfl]
    cases rsplitOnce ':' h with
    | none => rfl
    | some r =>
      dsimp only [Option.map_some]
      rw [isPort_lower]
      split <;> rfl

/-- Equality without case is equality of the lowered texts. -/
theorem eqIgnoreAsciiCase_iff {s t : Text} : eqIgnoreAsciiCase s t=true ↔ lower s=lower t :=
  beq_iff_eq

/-- The lowered header is admitted if the header is. -/
theorem hostIsAllowed_lower (h : Text) (extra : List Text) :
    hostIsAllowed (lower h) extra=hostIsAllowed h extra := by
  rw [Bool.eq_iff_iff,hostIsAllowed_iff,hostIsAllowed_iff,stripPort_lower]
  simp only [Admitted,eqIgnoreAsciiCase_iff,lower_lower,parseIpAddr_lower]

/-- The guard sees case neither in a header nor in the extra hosts, whose
order and number does not matter either. -/
theorem hostIsAllowed_ignores_case {h h' : Text} {extra extra' : List Text}
    (hh : eqIgnoreAsciiCase h h'=true) (hextra : extra.map lower⊆extra'.map lower)
    (hextra' : extra'.map lower⊆extra.map lower) :
    hostIsAllowed h extra=hostIsAllowed h' extra' := by
  have hmem : ∀ v,(∃ allowed∈extra,lower allowed=v) ↔ ∃ allowed∈extra',lower allowed=v := by
    intro v
    rw [←List.mem_map,←List.mem_map]
    exact ⟨fun hv => hextra hv,fun hv => hextra' hv⟩
  rw [←hostIsAllowed_lower h,eqIgnoreAsciiCase_iff.mp hh,hostIsAllowed_lower,Bool.eq_iff_iff,
    hostIsAllowed_iff,hostIsAllowed_iff]
  simp only [Admitted,eqIgnoreAsciiCase_iff,hmem]

/-- A bracketed address in capitals. -/
theorem hostIsAllowed_ignores_case_address :
    hostIsAllowed "[FE80::A]:80".toList ["box".toList,"fe80::a".toList]=
      hostIsAllowed "[fe80::a]:80".toList ["Fe80::a".toList,"BOX".toList,"box".toList] :=
  hostIsAllowed_ignores_case (by decide) (by decide) (by decide)

/-- A host that a well-formed header may name to be served: `localhost`, a
text of a loopback address or an extra host. -/
def Local (extra : List Text) (v : Text) : Prop :=
  lower v="localhost".toList ∨
    (∃ b c d,b<2^8 ∧ c<2^8 ∧ d<2^8 ∧ v=(Ipv4Addr.mk 127 b c d).text) ∨
      parseIpv6Addr v=some ⟨[0,0,0,0,0,0,0,1]⟩ ∨ lower v∈extra.map lower

/-- An admitted host is a local one: an IPv4 address has one text. -/
theorem admitted_iff_local {extra : List Text} {v : Text} : Admitted extra v ↔ Local extra v := by
  have hv4 : (∃ addr,parseIpAddr v=some (.v4 addr) ∧ addr.isLoopback=true) ↔
      ∃ b c d,b<2^8 ∧ c<2^8 ∧ d<2^8 ∧ v=(Ipv4Addr.mk 127 b c d).text := by
    simp only [parseIpAddr_v4_iff,Ipv4Addr.isLoopback,beq_iff_eq]
    constructor
    · rintro ⟨⟨a,b,c,d⟩,⟨⟨-,hb,hc,hd⟩,rfl⟩,ha⟩
      dsimp only at ha
      subst ha
      exact ⟨b,c,d,hb,hc,hd,rfl⟩
    · rintro ⟨b,c,d,hb,hc,hd,rfl⟩
      exact ⟨⟨127,b,c,d⟩,⟨⟨show 127<2^8 from by decide,hb,hc,hd⟩,rfl⟩,rfl⟩
  have hv6 : (∃ addr,parseIpAddr v=some (.v6 addr) ∧ addr.isLoopback=true) ↔
      parseIpv6Addr v=some ⟨[0,0,0,0,0,0,0,1]⟩ := by
    constructor
    · rintro ⟨addr,hp,hl⟩
      rcases parseIpAddr_eq_some hp with ⟨_,he,-⟩ | ⟨_,he,hv⟩
      · cases he
      · cases he
        rw [hv,show addr=⟨[0,0,0,0,0,0,0,1]⟩ from congrArg Ipv6Addr.mk (beq_iff_eq.mp hl)]
    · exact fun hv => ⟨_,parseIpAddr_of_ipv6 hv,rfl⟩
  have hip : (∃ ip,parseIpAddr v=some ip ∧ ip.isLoopback=true) ↔
      (∃ addr,parseIpAddr v=some (.v4 addr) ∧ addr.isLoopback=true) ∨
        ∃ addr,parseIpAddr v=some (.v6 addr) ∧ addr.isLoopback=true := by
    constructor
    · rintro ⟨ip,hp,hl⟩
      cases ip with
      | v4 addr => exact .inl ⟨addr,hp,hl⟩
      | v6 addr => exact .inr ⟨addr,hp,hl⟩
    · rintro (⟨addr,hp,hl⟩ | ⟨addr,hp,hl⟩)
      · exact ⟨_,hp,hl⟩
      · exact ⟨_,hp,hl⟩
  have hextra : (∃ allowed∈extra,eqIgnoreAsciiCase allowed v=true) ↔ lower v∈extra.map lower := by
    simp only [eqIgnoreAsciiCase_iff,List.mem_map]
  rw [Admitted,hip,hv4,hv6,hextra,or_assoc,eqIgnoreAsciiCase_iff,Local,
    show lower "localhost".toList="localhost".toList from by decide]

/-- Of a well-formed header the guard admits exactly those that name a local
host. -/
theorem hostIsAllowed_iff_local {h v : Text} {extra : List Text} (hf : HostForm h v) :
    hostIsAllowed h extra=true ↔ Local extra v := by
  rw [hostIsAllowed_iff,hf.stripPort,admitted_iff_local]

/-- A zero in front of an octet makes another host of an address. -/
theorem hostIsAllowed_iff_local_octal : HostForm "127.0.0.01:80".toList "127.0.0.01".toList ∧
    (hostIsAllowed "127.0.0.01:80".toList []=true ↔ Local [] "127.0.0.01".toList) := by
  have hf : HostForm "127.0.0.01:80".toList "127.0.0.01".toList :=
    .name (v:="127.0.0.01".toList) (t:=":80".toList) (by decide) (.inr ⟨"80".toList,rfl,by decide⟩)
  exact ⟨hf,hostIsAllowed_iff_local hf⟩

variable {κ β ε σ ω : Type}

/-- A request. -/
structure Request (κ β : Type) where
  /-- Its headers, by their names in small letters. -/
  headers : List (String×κ)
  /-- What the handlers read. -/
  content : β

/-- The first `Host` header, if it is one of visible ASCII characters. What
those are is up to `toStr`. -/
def Request.hostHeader (toStr : κ → Option Text) (req : Request κ β) : Option Text :=
  (req.headers.lookup "host").bind toStr

/-- What a client is answered. -/
inductive Reply (ω : Type) where
  /-- The guard's own answer. -/
  | rejected (status : ℕ) (body : Json)
  /-- What the router answers. -/
  | passed (output : ω)

/-- The answer to a request for another host. -/
def misdirected : Reply ω := .rejected 421 (.object [("error",.string
  "Host header not allowed: this broker only serves loopback requests")])

/-- Pass a request on to the router behind the guard, or answer it here. -/
def enforceAllowedHost (toStr : κ → Option Text) (allowedHosts : List Text)
    (next : σ → Request κ β → Option (ω×σ)) (s : σ) (req : Request κ β) : Option (Reply ω×σ) :=
  match req.hostHeader toStr with
  | some host =>
    if hostIsAllowed host allowedHosts=true then (next s req).map fun r => (.passed r.1,r.2)
    else some (misdirected,s)
  | none => some (misdirected,s)

/-- What happens at the broker. -/
inductive Event (κ β ε : Type) where
  /-- A request arrives. -/
  | request (req : Request κ β)
  /-- Anything else, as a handler going on with an earlier one. -/
  | other (event : ε)

/-- The `Host` header of an arriving request. -/
def Event.hostHeader (toStr : κ → Option Text) : Event κ β ε → Option Text
  | .request req => req.hostHeader toStr
  | .other _ => none

/-- A step of the broker, every route behind the guard. -/
def guardedStep (toStr : κ → Option Text) (allowedHosts : List Text)
    (next : σ → Request κ β → Option (ω×σ)) (goOn : σ → ε → Option (ω×σ)) (s : σ) :
    Event κ β ε → Option (Reply ω×σ)
  | .request req => enforceAllowedHost toStr allowedHosts next s req
  | .other event => (goOn s event).map fun r => (.passed r.1,r.2)

/-- A request for another host: without a readable `Host` header, or with a
well-formed one that names no local host. -/
def Foreign (toStr : κ → Option Text) (allowedHosts : List Text) (event : Event κ β ε) : Prop :=
  ∃ req,event=.request req ∧
    ∀ host,req.hostHeader toStr=some host → ∃ v,HostForm host v ∧ ¬Local allowedHosts v

/-- A foreign request is answered by the guard and changes nothing. -/
theorem guardedStep_foreign {toStr : κ → Option Text} {allowedHosts : List Text}
    {next : σ → Request κ β → Option (ω×σ)} {goOn : σ → ε → Option (ω×σ)} {event : Event κ β ε}
    (h : Foreign toStr allowedHosts event) (s : σ) :
    guardedStep toStr allowedHosts next goOn s event=some (misdirected,s) := by
  obtain ⟨req,rfl,hforeign⟩ := h
  rw [guardedStep,enforceAllowedHost]
  split
  · rename_i host hhost
    obtain ⟨v,hf,hv⟩ := hforeign host hhost
    exact if_neg fun hallowed => hv ((hostIsAllowed_iff_local hf).mp hallowed)
  · rfl

/-- Foreign requests among any others, at any state of the broker, are all
answered with 421. The other replies and the final state are the same as
without them. -/
theorem foreign_requests_ignored {toStr : κ → Option Text} {allowedHosts : List Text}
    (next : σ → Request κ β → Option (ω×σ)) (goOn : σ → ε → Option (ω×σ))
    {keep : Event κ β ε → Bool}
    (hforeign : ∀ event,keep event=false → Foreign toStr allowedHosts event)
    (events : List (Event κ β ε)) (s : σ) :
    exec (guardedStep toStr allowedHosts next goOn) s (events.filter keep)=
        (exec (guardedStep toStr allowedHosts next goOn) s events).map
          (fun r => (r.1.filter fun entry => keep entry.1,r.2)) ∧
      ∀ trace t,exec (guardedStep toStr allowedHosts next goOn) s events=some (trace,t) →
        ∀ entry∈trace,keep entry.1=false → entry.2=misdirected := by
  have hstep : ∀ event,keep event=false → ∀ s,
      guardedStep toStr allowedHosts next goOn s event=some (misdirected,s) :=
    fun event h s => guardedStep_foreign (hforeign event h) s
  refine ⟨exec_filter keep fun s event h => ⟨_,hstep event h s⟩,fun trace t he entry hmem hk => ?_⟩
  obtain ⟨pre,post,rfl⟩ := List.append_of_mem hmem
  obtain ⟨u,u',-,-,hs,-⟩ := (run_of_exec he).cut
  exact congrArg Prod.fst (Option.some.inj (hs.symm.trans (hstep _ hk u)))

/-- A router that counts the requests it gets. -/
def countVisit (n : ℕ) (_ : Request Text Unit) : Option (ℕ×ℕ) := some (n,n+1)

/-- A broker with nothing else to do. -/
def idle (n : ℕ) (_ : Unit) : Option (ℕ×ℕ) := some (n,n)

/-- Two requests, the first one from a page whose name was rebound. -/
def visits : List (Event Text Unit Unit) :=
  [.request ⟨[("host","evil.example:80".toList)],()⟩,.request ⟨[("host","localhost".toList)],()⟩]

/-- Every event but the requests for that name. -/
def notEvil (event : Event Text Unit Unit) : Bool :=
  event.hostHeader some != some "evil.example:80".toList

/-- Only one of the two visits is counted. -/
theorem foreign_requests_ignored_rebound :
    exec (guardedStep some [] countVisit idle) 0 (visits.filter notEvil)=
        (exec (guardedStep some [] countVisit idle) 0 visits).map
          (fun r => (r.1.filter fun entry => notEvil entry.1,r.2)) ∧
      ∀ trace t,exec (guardedStep some [] countVisit idle) 0 visits=some (trace,t) →
        ∀ entry∈trace,notEvil entry.1=false → entry.2=misdirected := by
  refine foreign_requests_ignored countVisit idle (fun event hk => ?_) visits 0
  have hhost : event.hostHeader some=some "evil.example:80".toList := by
    simpa [notEvil] using hk
  cases event with
  | other event => cases hhost
  | request req =>
    refine ⟨req,rfl,fun host he => ⟨"evil.example".toList,?_,?_⟩⟩
    · obtain rfl := Option.some.inj (he.symm.trans hhost)
      exact .name (v:="evil.example".toList) (t:=":80".toList) (by decide)
        (.inr ⟨"80".toList,rfl,by decide⟩)
    · rw [←admitted_iff_local]
      exact fun ha => absurd (hostIsAllowed_iff (h:="evil.example".toList).mpr ha) (by decide)

end AivyxBroker.HostGuard
