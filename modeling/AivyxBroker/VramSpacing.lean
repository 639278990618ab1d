import AivyxBroker.VramCache

/-!
# How far apart probes start

Only the call that awaits a probe records its outcome, and the recorded
reading is all that keeps the next probe back. The probes of a run are
spaced as long as every outcome is recorded in time: no waiting call is
dropped, and no call polls its probe so late that it takes an overdue result
for a punctual one. Both conditions are exact.
-/

namespace AivyxBroker.VramCache

open RunInvariant Gpu

/-- The probe was still running when the deadline after its start passed. -/
def Probe.RanPast (probe : Probe) (now : ℕ) : Prop :=
  probe.started+residencyProbeDeadline ≤ now ∧
    ∀ instant joined,probe.ended=some (instant,joined) →
      probe.started+residencyProbeDeadline ≤ instant

/-- The probe returned nothing after `nvidia-smi`'s own deadline. -/
def Probe.Killed (probe : Probe) (instant : ℕ) : Prop :=
  probe.ended=some (instant,.ok none) ∧ probe.started+nvidiaSmiTimeout ≤ instant

/-- Another probe may start at `start`: after a probe that ran into a
deadline, only once the back-off since that deadline or return is over, and
after any other completed probe, only once the cache's lifetime is. The first
deadline a probe runs into counts. -/
structure Probe.Spaced (probe : Probe) (start : ℕ) : Prop where
  /-- The call's own deadline. -/
  deadline : probe.RanPast start →
    probe.started+residencyProbeDeadline+vramTimeoutBackoff ≤ start
  /-- `nvidia-smi`'s deadline. -/
  killed : ∀ instant,¬probe.RanPast start → probe.Killed instant →
    instant+vramTimeoutBackoff ≤ start
  /-- Any other completion. -/
  completed : ∀ instant joined,¬probe.RanPast start → ¬probe.Killed instant →
    probe.ended=some (instant,joined) → instant+vramCacheTtl ≤ start

/-- The instant from which another probe may start, for a probe that ended
or is past its deadline. -/
def Probe.quietUntil (probe : Probe) : ℕ :=
  match probe.ended with
  | none => probe.started+residencyProbeDeadline+vramTimeoutBackoff
  | some (instant,joined) =>
    if probe.started+residencyProbeDeadline ≤ instant then
      probe.started+residencyProbeDeadline+vramTimeoutBackoff
    else if joined=.ok none ∧ probe.started+nvidiaSmiTimeout ≤ instant then
      instant+vramTimeoutBackoff
    else instant+vramCacheTtl

/-- A probe that ended is spaced exactly from the instant given. -/
theorem spaced_iff {started instant start : ℕ} {joined : Joined}
    (hle : started+residencyProbeDeadline ≤ instant → started+residencyProbeDeadline ≤ start) :
    Probe.Spaced ⟨started,some (instant,joined)⟩ start ↔
      Probe.quietUntil ⟨started,some (instant,joined)⟩ ≤ start := by
  have hpast : Probe.RanPast ⟨started,some (instant,joined)⟩ start ↔
      started+residencyProbeDeadline ≤ instant := by
    refine ⟨fun h => h.2 instant joined rfl,fun h => ⟨hle h,fun i j he => ?_⟩⟩
    cases he
    exact h
  unfold Probe.quietUntil
  dsimp only
  split
  · rename_i hlate
    refine ⟨fun h => h.deadline (hpast.mpr hlate),fun h => ⟨fun _ => h,?_,?_⟩⟩
    · exact fun _ hn => absurd (hpast.mpr hlate) hn
    · exact fun _ _ hn => absurd (hpast.mpr hlate) hn
  · rename_i hearly
    have hn := mt hpast.mp hearly
    split
    · rename_i hk
      have hkill : Probe.Killed ⟨started,some (instant,joined)⟩ instant := ⟨by rw [hk.1],hk.2⟩
      refine ⟨fun h => h.killed instant hn hkill,fun h => ⟨fun hp => absurd hp hn,?_,?_⟩⟩
      · rintro i - ⟨he,-⟩
        cases he
        exact h
      · intro i j _ hnk he
        cases he
        exact absurd hkill hnk
    · rename_i hk
      have hkill : ∀ i,¬Probe.Killed ⟨started,some (instant,joined)⟩ i := by
        rintro i ⟨he,hi⟩
        cases he
        exact hk ⟨rfl,hi⟩
      refine ⟨fun h => h.completed instant joined hn (hkill _) rfl,
        fun h => ⟨fun hp => absurd hp hn,fun i _ hi => absurd hi (hkill i),?_⟩⟩
      intro i j _ _ he
      cases he
      exact h

/-- The step records in time. Nobody drops a call that awaits a probe while
that probe still keeps others back; and no probe past its deadline returns
VRAM or panics while its call, polled late, still awaits it, unless the
back-off it is due is as good as over. -/
def Recording (st : State) : Event → Prop
  | .cancel caller => ∀ holder∈st.holder,holder.caller=caller →
      ∀ probe∈st.probes[holder.probe]?,probe.quietUntil ≤ st.now
  | .finish p joined => ∀ holder∈st.holder,holder.probe=p → joined≠.ok none →
      holder.started+residencyProbeDeadline ≤ st.now →
      holder.started+residencyProbeDeadline+vramTimeoutBackoff ≤ st.now+vramCacheTtl
  | _ => True

instance (st : State) : (event : Event) → Decidable (Recording st event)
  | .cancel caller => inferInstanceAs (Decidable (∀ holder∈st.holder,holder.caller=caller →
      ∀ probe∈st.probes[holder.probe]?,probe.quietUntil ≤ st.now))
  | .finish p joined => inferInstanceAs (Decidable (∀ holder∈st.holder,holder.probe=p →
      joined≠.ok none → holder.started+residencyProbeDeadline ≤ st.now →
      holder.started+residencyProbeDeadline+vramTimeoutBackoff ≤ st.now+vramCacheTtl))
  | .call | .poll _ | .tick _ => inferInstanceAs (Decidable True)

/-- A probe nobody awaits any more is accounted for: it is past its deadline
if it runs, and its quiet time is over or the cached reading outlasts it. -/
structure Accounted (last : Option VramReading) (now : ℕ) (probe : Probe) : Prop where
  /-- It was given up on, not forgotten. -/
  past : probe.ended=none → probe.started+residencyProbeDeadline ≤ now
  /-- Its quiet time is over, or ends before the reading does. -/
  quiet : probe.quietUntil ≤ now ∨ ∃ r,last=some r ∧ probe.quietUntil ≤ r.taken+r.freshFor

/-- What a call that awaits `probe` relies on. -/
structure Awaited (now : ℕ) (holder : Holder) (probe : Probe) : Prop where
  /-- Both clocks started together. -/
  started : probe.started=holder.started
  /-- A probe that ended did so in the past. -/
  ended : ∀ instant joined,probe.ended=some (instant,joined) → instant ≤ now
  /-- It ended in time, returned nothing, or ended too late to matter. -/
  harmless : ∀ instant joined,probe.ended=some (instant,joined) → joined≠.ok none →
    probe.started+residencyProbeDeadline ≤ instant →
    probe.started+residencyProbeDeadline+vramTimeoutBackoff ≤ instant+vramCacheTtl

/-- The spacing invariant. -/
structure Spacing (st : State) : Prop where
  /-- Readings are of the past. -/
  taken : ∀ r,st.last=some r → r.taken ≤ st.now
  /-- Probes that nobody awaits are accounted for. -/
  accounted : ∀ p probe,st.probes[p]?=some probe →
    (∀ holder,st.holder=some holder → holder.probe≠p) → Accounted st.last st.now probe
  /-- The awaited probe is there. -/
  awaited : ∀ holder,st.holder=some holder →
    ∃ probe,st.probes[holder.probe]?=some probe ∧ Awaited st.now holder probe
  /-- Only the awaited probe runs while a call holds the mutex. -/
  alone : ∀ holder p,st.holder=some holder → st.Running p → p=holder.probe
  /-- A call awaits a probe only under a reading that is no longer fresh. -/
  stale : ∀ holder r,st.holder=some holder → st.last=some r → r.taken+r.freshFor ≤ st.now

/-- Accounts stay settled as time passes. -/
theorem Accounted.later {last : Option VramReading} {now now' : ℕ} {probe : Probe}
    (h : Accounted last now probe) (hle : now ≤ now') : Accounted last now' probe :=
  ⟨fun he => Nat.le_trans (h.past he) hle,h.quiet.imp_left fun hq => Nat.le_trans hq hle⟩

/-- A reading that is not fresh has run out. -/
theorem not_fresh {reading : VramReading} {now : ℕ} (htaken : reading.taken ≤ now)
    (h : ¬reading.Fresh now) : reading.taken+reading.freshFor ≤ now := by
  unfold VramReading.Fresh at h
  omega

/-- Every reading is kept for the cache's lifetime at least. -/
theorem ttl_le_freshFor (holder : Holder) (now : ℕ) (outcome : Option Joined) :
    vramCacheTtl≤(holder.reading now outcome).freshFor := by
  have hTB := vramCacheTtl_le_backoff
  unfold Holder.reading judge
  cases outcome with
  | none => exact hTB
  | some joined =>
    dsimp only
    split
    · exact hTB
    · exact Nat.le_refl _

/-- A probe killed as too slow is backed off from. -/
theorem freshFor_killed {holder : Holder} {now : ℕ}
    (h : holder.started+nvidiaSmiTimeout ≤ now) :
    (holder.reading now (some (.ok none))).freshFor=vramTimeoutBackoff := by
  have hslow : nvidiaSmiTimeout≤now-holder.started := by omega
  simp only [Holder.reading,judge,hslow,and_self,if_true]

/-- The reading a call records outlasts the quiet time of the probe it
awaited. -/
theorem record_quiet {now : ℕ} {holder : Holder} {probe : Probe} {outcome : Option Joined}
    (h : Awaited now holder probe) (hend : probe.ended.map Prod.snd=outcome)
    (hlate : outcome=none → holder.started+residencyProbeDeadline ≤ now) :
    probe.quietUntil ≤ now+(holder.reading now outcome).freshFor := by
  have hNT := nvidiaSmiTimeout_le_deadline
  obtain ⟨started,ended⟩ := probe
  obtain ⟨hs,hpast,hharm⟩ := h
  dsimp only at hs hpast hharm hend
  subst hs hend
  unfold Probe.quietUntil
  cases ended with
  | none =>
    have hd := hlate rfl
    have hf : (holder.reading now none).freshFor=vramTimeoutBackoff := rfl
    dsimp only [Option.map_none]
    omega
  | some ended =>
    obtain ⟨instant,joined⟩ := ended
    have hle := hpast instant joined rfl
    have hf := ttl_le_freshFor holder now (some joined)
    dsimp only [Option.map_some]
    by_cases hj : joined=.ok none
    · subst hj
      have hk := @freshFor_killed holder now
      split
      · have := hk (by omega)
        omega
      · split
        · have := hk (by omega)
          omega
        · omega
    · have hh := hharm instant joined rfl hj
      rw [if_neg (c := joined=.ok none ∧ _) fun hk => hj hk.1]
      split <;> omega

/-- A probe that is past its deadline keeps its quiet time when it ends. -/
theorem quietUntil_ended {probe : Probe} {now : ℕ} (joined : Joined) (hrun : probe.ended=none)
    (h : probe.started+residencyProbeDeadline ≤ now) :
    Probe.quietUntil ⟨probe.started,some (now,joined)⟩=probe.quietUntil := by
  unfold Probe.quietUntil
  rw [hrun]
  exact if_pos h

/-- A probe's quiet time begins when it ends. -/
theorem ended_lt_quietUntil (started instant : ℕ) (joined : Joined)
    (h : started+residencyProbeDeadline ≤ instant →
      instant<started+residencyProbeDeadline+vramTimeoutBackoff) :
    instant<Probe.quietUntil ⟨started,some (instant,joined)⟩ := by
  have hT : 0<vramCacheTtl := by decide
  have hB : 0<vramTimeoutBackoff := by decide
  unfold Probe.quietUntil
  dsimp only
  split
  · exact h ‹_›
  · split <;> omega

/-- A probe started while none runs is the awaited one, and the only one. -/
theorem Spacing.spawn {st : State} (h : Spacing st) (hsf : SingleFlight st) (caller : ℕ)
    (waiting : List ℕ) (next : ℕ) (hfree : st.holder=none)
    (hstale : ∀ r,st.last=some r → ¬r.Fresh st.now) (hflag : st.inFlight=false) :
    Spacing ⟨st.last,true,some ⟨caller,st.probes.length,st.now⟩,waiting,next,
      st.probes++[⟨st.now,none⟩],st.now⟩ := by
  have hnone : ∀ p,¬st.Running p := fun p hp => by
    have := hsf.flag p hp
    rw [hflag] at this
    cases this
  have hlast : ∀ p probe,(st.probes++[⟨st.now,none⟩])[p]?=some probe →
      st.probes[p]?=some probe ∨ p=st.probes.length := by
    intro p probe hp
    rw [List.getElem?_append] at hp
    split at hp
    · exact .inl hp
    · have := (List.getElem?_eq_some_iff.mp hp).1
      simp only [List.length_singleton] at this
      exact .inr (by omega)
  refine ⟨h.taken,fun p probe hp hne => ?_,?_,?_,?_⟩
  · rcases hlast p probe hp with hp | rfl
    · exact h.accounted p probe hp fun holder hh => by rw [hfree] at hh; cases hh
    · exact absurd rfl (hne _ rfl)
  · intro holder hh
    cases hh
    refine ⟨⟨st.now,none⟩,by simp,rfl,?_,?_⟩ <;> intro _ _ he <;> cases he
  · rintro holder p hh ⟨probe,hp,he⟩
    cases hh
    rcases hlast p probe hp with hp | rfl
    · exact absurd ⟨probe,hp,he⟩ (hnone p)
    · rfl
  · intro holder r _ hr
    exact not_fresh (h.taken r hr) (hstale r hr)

/-- With nobody holding the mutex, the accounts of all probes are left. -/
theorem Spacing.of_free {st : State} (hfree : st.holder=none)
    (htaken : ∀ r,st.last=some r → r.taken ≤ st.now)
    (hacc : ∀ (p : ℕ) (probe : Probe),st.probes[p]?=some probe →
      Accounted st.last st.now probe) : Spacing st := by
  refine ⟨htaken,fun p probe hp _ => hacc p probe hp,?_,?_,?_⟩ <;>
    · intro _ _
      simp_all

/-- A recorded reading accounts for the probe it was awaited from. -/
theorem Spacing.record {st : State} (h : Spacing st) {holder : Holder} {outcome : Option Joined}
    (hheld : st.holder=some holder)
    (hend : ((st.probes[holder.probe]?).bind Probe.ended).map Prod.snd=outcome)
    (hlate : outcome=none → holder.started+residencyProbeDeadline ≤ st.now) :
    Spacing {st with last := some (holder.reading st.now outcome), holder := none} := by
  obtain ⟨probe,hp,haw⟩ := h.awaited holder hheld
  have he : probe.ended.map Prod.snd=outcome := by
    rw [hp] at hend
    exact hend
  refine .of_free rfl (fun r hr => ?_) fun q probe' hq => ?_
  · cases hr
    exact Nat.le_refl _
  · by_cases hpq : holder.probe=q
    · subst hpq
      obtain rfl := Option.some.inj (hp.symm.trans hq)
      refine ⟨fun hn => ?_,.inr ⟨_,rfl,record_quiet haw he hlate⟩⟩
      rw [hn] at he
      rw [haw.started]
      exact hlate he.symm
    · have hacc := h.accounted q probe' hq fun holder' hh => by
        obtain rfl := Option.some.inj (hheld.symm.trans hh)
        exact hpq
      refine ⟨hacc.past,.inl ?_⟩
      rcases hacc.quiet with hq' | ⟨r,hr,hq'⟩
      · exact hq'
      · exact Nat.le_trans hq' (h.stale holder r hheld hr)

/-- A call dropped when its probe's quiet time is over leaves no account open. -/
theorem Spacing.abandon {st : State} (h : Spacing st) {holder : Holder}
    (hheld : st.holder=some holder)
    (hquiet : ∀ probe∈st.probes[holder.probe]?,probe.quietUntil ≤ st.now) :
    Spacing {st with holder := none} := by
  refine .of_free rfl h.taken fun p probe hp => ?_
  by_cases hpq : holder.probe=p
  · subst hpq
    have hq := hquiet probe hp
    refine ⟨fun he => ?_,.inl hq⟩
    unfold Probe.quietUntil at hq
    rw [he] at hq
    dsimp only at hq
    show _ ≤ st.now
    omega
  · exact h.accounted p probe hp fun holder' hh => by
      obtain rfl := Option.some.inj (hheld.symm.trans hh)
      exact hpq

/-- A probe that ends keeps its account, and stays harmless to the call that
awaits it. -/
theorem Spacing.finish {st : State} (h : Spacing st) {p started : ℕ} {joined : Joined}
    (hrun : st.probes[p]?=some ⟨started,none⟩) (hok : Recording st (.finish p joined)) :
    Spacing {st with probes := st.probes.set p ⟨started,some (st.now,joined)⟩, inFlight := false} := by
  have hlt := (List.getElem?_eq_some_iff.mp hrun).1
  refine ⟨h.taken,fun q probe hq hne => ?_,fun holder hh => ?_,?_,h.stale⟩
  · rw [List.getElem?_set] at hq
    split at hq
    · rename_i hpq
      subst hpq
      cases hq
      have hacc := h.accounted p _ hrun hne
      have hpast := hacc.past rfl
      refine ⟨fun he => (by cases he),?_⟩
      rw [show Probe.quietUntil ⟨started,some (st.now,joined)⟩=
        Probe.quietUntil ⟨started,none⟩ from @quietUntil_ended ⟨started,none⟩ _ joined rfl hpast]
      exact hacc.quiet
    · exact h.accounted q probe hq hne
  · obtain ⟨probe,hp,haw⟩ := h.awaited holder hh
    by_cases hpq : p=holder.probe
    · subst hpq
      cases hrun.symm.trans hp
      refine ⟨_,List.getElem?_set_self hlt,haw.started,?_,?_⟩
      · intro i j he
        cases he
        exact Nat.le_refl _
      · intro i j he hj hlate
        cases he
        have hs : started=holder.started := haw.started
        dsimp only at hlate ⊢
        rw [hs] at hlate ⊢
        exact hok holder hh rfl hj hlate
    · refine ⟨probe,?_,haw⟩
      rw [List.getElem?_set_ne hpq]
      exact hp
  · rintro holder q hh ⟨probe,hq,he⟩
    rw [List.getElem?_set] at hq
    split at hq
    · cases hq
      cases he
    · exact h.alone holder q hh ⟨probe,hq,he⟩

/-- Time only settles accounts. -/
theorem Spacing.tick {st : State} (h : Spacing st) (span : ℕ) :
    Spacing {st with now := st.now+span} := by
  have hle : st.now ≤ st.now+span := Nat.le_add_right _ _
  refine ⟨fun r hr => Nat.le_trans (h.taken r hr) hle,
    fun p probe hp hne => (h.accounted p probe hp hne).later hle,fun holder hh => ?_,h.alone,
    fun holder r hh hr => Nat.le_trans (h.stale holder r hh hr) hle⟩
  obtain ⟨probe,hp,haw⟩ := h.awaited holder hh
  exact ⟨probe,hp,haw.started,fun i j he => Nat.le_trans (haw.ended i j he) hle,haw.harmless⟩

/-- A recording step keeps the spacing invariant. -/
theorem Spacing.step {st st' : State} {event : Event} {output : Output} (h : Spacing st)
    (hsf : SingleFlight st) (hok : Recording st event) (heff : Effect st event output st') :
    Spacing st' := by
  cases heff with
  | wait | serve => exact ⟨h.taken,h.accounted,h.awaited,h.alone,h.stale⟩
  | spawn caller waiting next hfree hstale hflag =>
    exact h.spawn hsf caller waiting next hfree hstale hflag
  | record holder outcome hheld hend hlate => exact h.record hheld hend hlate
  | abandon holder hheld => exact h.abandon hheld (hok holder hheld rfl)
  | finish p started joined hrun => exact h.finish hrun hok
  | tick span => exact h.tick span

/-- The spacing invariant holds after every run of recording steps. -/
theorem spacing_of_run {trace : List (Event×Output)} {st : State}
    (h : RunWhen step Recording State.new trace st) : Spacing st ∧ SingleFlight st := by
  refine h.invariant (fun st => Spacing st ∧ SingleFlight st) ⟨?_,singleFlight_of_run .start⟩ ?_
  · constructor <;> simp [State.new]
  · intro t event output u hi hok hs
    have heff := step_effect hs
    exact ⟨hi.1.step hi.2 hok heff,hi.2.step heff⟩

/-- With the mutex free, nothing fresh to serve and no probe out, the next
call starts a probe. -/
theorem call_probing {st : State} (hfree : st.holder=none)
    (hstale : ∀ r,st.last=some r → ¬r.Fresh st.now) (hflag : st.inFlight=false) :
    ∃ st',step st .call=some (.probing st.next st.probes.length,st') := by
  cases hl : st.last with
  | none =>
    simp only [step,hfree,State.locked,hl,State.swapInFlight,hflag,Bool.false_eq_true,if_false]
    exact ⟨_,rfl⟩
  | some r =>
    simp only [step,hfree,State.locked,hl,if_neg (hstale r hl),State.swapInFlight,hflag,
      Bool.false_eq_true,if_false]
    exact ⟨_,rfl⟩

/-- The next call would start a probe too soon after another. -/
def Crowded (st : State) : Prop :=
  ∃ caller p st',step st .call=some (.probing caller p,st') ∧
    ∃ probe∈st.probes,¬probe.Spaced st.now

/-- A probe that ended and whose quiet time is not over crowds the next. -/
theorem crowded_of_quiet {st : State} {p started instant : ℕ} {joined : Joined}
    (hfree : st.holder=none) (hstale : ∀ r,st.last=some r → ¬r.Fresh st.now)
    (hflag : st.inFlight=false) (hp : st.probes[p]?=some ⟨started,some (instant,joined)⟩)
    (hle : instant ≤ st.now)
    (hquiet : st.now<Probe.quietUntil ⟨started,some (instant,joined)⟩) : Crowded st := by
  obtain ⟨st',hs⟩ := call_probing hfree hstale hflag
  refine ⟨_,_,st',hs,_,List.mem_of_getElem? hp,fun hsp => ?_⟩
  have := (spaced_iff fun h => Nat.le_trans h hle).mp hsp
  omega

/-- Dropping the call that awaits a probe can crowd the next one: the probe
returns, nobody records it, and somebody asks. -/
theorem Spacing.forgotten {st st' : State} {holder : Holder} {probe : Probe} {output : Output}
    (h : Spacing st) (hsf : SingleFlight st) (hheld : st.holder=some holder)
    (hp : st.probes[holder.probe]?=some probe) (hquiet : st.now<probe.quietUntil)
    (hs : VramCache.step st (.cancel holder.caller)=some (output,st')) :
    ∃ rest st'',RunWhen VramCache.step Recording st' rest st'' ∧ Crowded st'' := by
  simp only [VramCache.step,hheld,if_true] at hs
  obtain ⟨rfl,rfl⟩ := Prod.mk.inj (Option.some.inj hs)
  have hstale : ∀ r,st.last=some r → ¬r.Fresh st.now := by
    intro r hr hf
    have := h.stale holder r hheld hr
    unfold VramReading.Fresh at hf
    omega
  obtain ⟨started,ended⟩ := probe
  cases ended with
  | some ended =>
    obtain ⟨instant,joined⟩ := ended
    obtain ⟨probe,hp',haw⟩ := h.awaited holder hheld
    obtain rfl := Option.some.inj (hp.symm.trans hp')
    refine ⟨[],_,.start,crowded_of_quiet rfl hstale ?_ hp (haw.ended instant joined rfl) hquiet⟩
    by_contra hflag
    obtain ⟨q,hq⟩ := hsf.outstanding (Bool.not_eq_false _ ▸ hflag)
    obtain rfl := h.alone holder q hheld hq
    obtain ⟨probe,hq,he⟩ := hq
    rw [hp] at hq
    cases hq
    cases he
  | none =>
    have hlt := (List.getElem?_eq_some_iff.mp hp).1
    have hstep : VramCache.step {st with holder := none} (.finish holder.probe (.ok (some ⟨0,0⟩)))=
        some (.finished holder.probe,{st with
          holder := none
          probes := st.probes.set holder.probe ⟨started,some (st.now,.ok (some ⟨0,0⟩))⟩
          inFlight := false}) := by
      simp only [VramCache.step,hp]
    have hok : Recording {st with holder := none} (.finish holder.probe (.ok (some ⟨0,0⟩))) := by
      rintro _ hn
      cases hn
    refine ⟨_,_,.single hok hstep,?_⟩
    refine crowded_of_quiet rfl hstale rfl (List.getElem?_set_self hlt) (Nat.le_refl _) ?_
    exact ended_lt_quietUntil _ _ _ fun _ => hquiet

/-- An overdue result that a late call takes for a punctual one crowds the
next probe: the call records it for the cache's lifetime only. -/
theorem Spacing.overdue {st st' : State} {holder : Holder} {joined : Joined} {output : Output}
    (hheld : st.holder=some holder) (hj : joined≠.ok none)
    (hlate : holder.started+residencyProbeDeadline ≤ st.now)
    (hquiet : st.now+vramCacheTtl<holder.started+residencyProbeDeadline+vramTimeoutBackoff)
    (h : Spacing st)
    (hs : VramCache.step st (.finish holder.probe joined)=some (output,st')) :
    ∃ rest st'',RunWhen VramCache.step Recording st' rest st'' ∧ Crowded st'' := by
  obtain ⟨⟨started,ended⟩,hp,haw⟩ := h.awaited holder hheld
  have hstart : started=holder.started := haw.started
  subst hstart
  simp only [VramCache.step,hp] at hs
  cases ended with
  | some ended => cases hs
  | none =>
    obtain ⟨rfl,rfl⟩ := Prod.mk.inj (Option.some.inj hs)
    have hlt := (List.getElem?_eq_some_iff.mp hp).1
    have hset : (st.probes.set holder.probe ⟨holder.started,some (st.now,joined)⟩)[holder.probe]?=
        some ⟨holder.started,some (st.now,joined)⟩ := List.getElem?_set_self hlt
    have hpoll : VramCache.step {st with
          probes := st.probes.set holder.probe ⟨holder.started,some (st.now,joined)⟩
          inFlight := false} (.poll holder.caller)=
        some (.probed holder.caller holder.probe (holder.reading st.now (some joined)),{st with
          probes := st.probes.set holder.probe ⟨holder.started,some (st.now,joined)⟩
          inFlight := false
          last := some (holder.reading st.now (some joined))
          holder := none}) := by
      simp only [VramCache.step,hheld,if_true,State.pollProbe,hset,Option.bind_some,State.record]
    have hfresh : holder.reading st.now (some joined)=⟨st.now,joined.flatten,vramCacheTtl⟩ := by
      simp only [Holder.reading,judge,hj,and_false,if_false]
    rw [hfresh] at hpoll
    have hrun := RunWhen.single (show Recording _ (.poll holder.caller) from trivial) hpoll
    refine ⟨_,_,hrun.next (show Recording _ (.tick vramCacheTtl) from trivial) rfl,?_⟩
    refine crowded_of_quiet rfl ?_ rfl hset (Nat.le_add_right _ _) ?_
    · rintro r hr hf
      cases hr
      simp only [VramReading.Fresh,Nat.add_sub_cancel_left,Nat.lt_irrefl] at hf
    · simp only [Probe.quietUntil,hlate,if_true]
      exact hquiet

/-- Probes are spaced, exactly as long as outcomes are recorded in time. Over
every run whose steps all record, whenever a call starts a probe, every
earlier probe is spaced from it. And every step of such a run that does not
record leads, by steps that do, to a probe started too soon. -/
theorem vramCache_spacing {trace : List (Event×Output)} {st : State}
    (h : RunWhen step Recording State.new trace st) :
    (∀ event caller p st',step st event=some (.probing caller p,st') →
      ∀ probe∈st.probes,probe.Spaced st.now) ∧
    ∀ event output st',¬Recording st event → step st event=some (output,st') →
      ∃ rest st'',RunWhen step Recording st' rest st'' ∧ ∃ caller p st3,
        step st'' .call=some (.probing caller p,st3) ∧ ∃ probe∈st''.probes,¬probe.Spaced st''.now := by
  obtain ⟨hsp,hsf⟩ := spacing_of_run h
  refine ⟨fun event caller p st' hs => ?_,fun event output st' hno hs => ?_⟩
  · intro probe hm
    cases step_effect hs with
    | wait _ _ _ hstart => exact absurd rfl (hstart caller p)
    | spawn caller waiting next hfree hstale hflag =>
      obtain ⟨i,hi⟩ := List.getElem?_of_mem hm
      obtain ⟨-,hquiet⟩ := hsp.accounted i probe hi fun holder hh => by rw [hfree] at hh; cases hh
      obtain ⟨started,ended⟩ := probe
      cases ended with
      | none =>
        have := hsf.flag i ⟨_,hi,rfl⟩
        rw [hflag] at this
        cases this
      | some ended =>
        obtain ⟨instant,joined⟩ := ended
        have hq : Probe.quietUntil ⟨started,some (instant,joined)⟩ ≤ st.now := by
          rcases hquiet with hq | ⟨r,hr,hq⟩
          · exact hq
          · exact Nat.le_trans hq (not_fresh (hsp.taken r hr) (hstale r hr))
        refine (spaced_iff fun hlate => ?_).mpr hq
        simp only [Probe.quietUntil,hlate,if_true] at hq
        omega
  · cases event with
    | cancel caller =>
      simp only [Recording,not_forall] at hno
      obtain ⟨holder,hheld,rfl,probe,hp,hq⟩ := hno
      exact hsp.forgotten hsf hheld hp (Nat.lt_of_not_le hq) hs
    | finish p joined =>
      simp only [Recording,not_forall] at hno
      obtain ⟨holder,hheld,rfl,hj,hlate,hq⟩ := hno
      exact hsp.overdue hheld hj hlate (Nat.lt_of_not_le hq) hs
    | call | poll | tick => exact absurd trivial hno

/-- Two ways to start a probe too soon: a call is dropped while it awaits its
probe, so that the result is lost; and a call polled late takes the result of
a probe that ran past its deadline for a punctual one. -/
theorem vramCache_spacing_lost :
    (∃ trace st,exec step State.new [.call,.cancel 0,.finish 0 (.ok (some ⟨2,1⟩))]=
      some (trace,st) ∧ Crowded st) ∧
    ∃ trace st,exec step State.new [.call,.tick residencyProbeDeadline,
      .finish 0 (.ok (some ⟨2,1⟩)),.poll 0,.tick vramCacheTtl]=some (trace,st) ∧ Crowded st := by
  constructor
  · refine ⟨_,⟨none,false,none,[],1,[⟨0,some (0,.ok (some ⟨2,1⟩))⟩],0⟩,rfl,?_⟩
    exact crowded_of_quiet rfl (fun r hr => by cases hr) rfl (p := 0) rfl (Nat.le_refl _)
      (by decide)
  · refine ⟨_,⟨some ⟨residencyProbeDeadline,some ⟨2,1⟩,vramCacheTtl⟩,false,none,[],1,
      [⟨0,some (residencyProbeDeadline,.ok (some ⟨2,1⟩))⟩],residencyProbeDeadline+vramCacheTtl⟩,
      rfl,?_⟩
    refine crowded_of_quiet rfl ?_ rfl (p := 0) rfl (by decide) (by decide)
    intro r hr
    cases hr
    decide

/-- A result recorded after thirty milliseconds and left for the cache's
lifetime makes way for a second probe. -/
theorem vramCache_spacing_recorded :
    ∃ st,(∃ caller p st',step st .call=some (.probing caller p,st')) ∧ st.probes≠[] ∧
      ∀ probe∈st.probes,probe.Spaced st.now := by
  have h := runWhen_of_exec (show exec (restrict step Recording) State.new [.call,.tick 30,
    .finish 0 (.ok (some ⟨2,1⟩)),.poll 0,.tick vramCacheTtl]=some (_,⟨some ⟨30,some ⟨2,1⟩,
      vramCacheTtl⟩,false,none,[],1,[⟨0,some (30,.ok (some ⟨2,1⟩))⟩],30+vramCacheTtl⟩) from rfl)
  exact ⟨_,⟨1,1,_,rfl⟩,by simp,(vramCache_spacing h).1 .call 1 1 _ rfl⟩

end AivyxBroker.VramCache
