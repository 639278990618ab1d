import AivyxBroker.Ipv4Text
import AivyxBroker.MaxByKey
import AivyxBroker.NvidiaSmi

/-!
# The source of the memory reading

`nvidia-smi` is asked first, and where it has no answer the graphics cards in
the file system are. A well-formed answer is read back exactly as it was
printed. Of several cards the largest is reported; the directory is read in no
particular order, and only which of two equally large cards is meant depends
on it.
-/

namespace AivyxBroker.Gpu

open Net TextReading MaxByKey

/-- Where to read GPU memory from. -/
inductive VramSource where
  /-- NVIDIA, or else AMD. -/
  | auto
  /-- NVIDIA only. -/
  | nvidia
  /-- AMD only. -/
  | amd
  /-- Nowhere. -/
  | none
  deriving DecidableEq

/-- An entry of the directory of cards. -/
structure DrmEntry where
  /-- Its name. -/
  name : Text
  /-- The contents of its file with the size of its memory, if readable. -/
  memInfoVramTotal : Option Text
  /-- Those of its file with the part in use. -/
  memInfoVramUsed : Option Text

/-- What there is to read on a machine. -/
structure Host where
  /-- The output of `nvidia-smi`, if it exits with success in time. -/
  nvidiaSmi : Option Text
  /-- The directory of cards, if it can be read, with the entries that can. -/
  drmRoot : Option (List (Option DrmEntry))

/-- Read a number from a file. -/
def readU64 (contents : Option Text) : Option ℕ := contents.bind fun s => parseU64 (trim s)

/-- The name is one of a card, not of a connector of it. -/
def DrmEntry.isCard (e : DrmEntry) : Bool := "card".toList.isPrefixOf e.name && !e.name.contains '-'

/-- The memory of a card, if both files can be read. -/
def DrmEntry.vram (e : DrmEntry) : Option Vram := do
  let total ← readU64 e.memInfoVramTotal
  let used ← readU64 e.memInfoVramUsed
  pure ⟨UInt64.ofNat total,UInt64.ofNat used⟩

/-- The memory of the largest card. -/
def amd (drmRoot : Option (List (Option DrmEntry))) : Option Vram :=
  drmRoot.bind fun entries =>
    maxByKey (fun vram : Vram => vram.totalBytes.toNat)
      (((entries.filterMap id).filter DrmEntry.isCard).filterMap DrmEntry.vram)

/-- The memory of all NVIDIA cards. -/
def nvidia (overflowChecks : Bool) (out : Option Text) : Outcome :=
  match out with
  | none => .returned none
  | some out => parseNvidiaSmi overflowChecks out

/-- Read the memory from this source. -/
def SystemGpuProbe.vram (overflowChecks : Bool) (source : VramSource) (host : Host) : Outcome :=
  match source with
  | .none => .returned none
  | .nvidia => nvidia overflowChecks host.nvidiaSmi
  | .amd => .returned (amd host.drmRoot)
  | .auto =>
    match nvidia overflowChecks host.nvidiaSmi with
    | .returned none => .returned (amd host.drmRoot)
    | outcome => outcome

/-- A card with two readable numbers, with spaces around them. -/
structure DrmEntry.Reports (e : DrmEntry) (vram : Vram) : Prop where
  /-- Its name begins as a card's. -/
  card : "card".toList<+:e.name
  /-- It is not the name of a connector. -/
  noConnector : '-' ∉ e.name
  /-- The size of its memory. -/
  total : ∃ s,e.memInfoVramTotal=some s ∧ PaddedU64 s vram.totalBytes.toNat
  /-- The part in use. -/
  used : ∃ s,e.memInfoVramUsed=some s ∧ PaddedU64 s vram.usedBytes.toNat

/-- What is made of an entry, or of one that cannot be read. -/
def readEntry (entry : Option DrmEntry) : Option Vram :=
  entry.bind fun e => if e.isCard=true then e.vram else none

/-- The candidates are what is made of the entries. -/
theorem candidates_eq (entries : List (Option DrmEntry)) :
    ((entries.filterMap id).filter DrmEntry.isCard).filterMap DrmEntry.vram=
      entries.filterMap readEntry := by
  rw [List.filterMap_filter,List.filterMap_filterMap]
  rfl

/-- A numeral in a file is the number of a word. -/
theorem readU64_eq_some {contents : Option Text} {word : UInt64} :
    (∃ n,readU64 contents=some n ∧ UInt64.ofNat n=word) ↔
      ∃ s,contents=some s ∧ PaddedU64 s word.toNat := by
  simp only [readU64,Option.bind_eq_some_iff,parseU64_trim_eq_some]
  constructor
  · rintro ⟨n,⟨s,hs,hn⟩,rfl⟩
    obtain ⟨_,_,_,-,-,-,_,-,-,-,-,hlt⟩ := id hn
    rw [UInt64.toNat_ofNat_of_lt' hlt]
    exact ⟨s,hs,hn⟩
  · rintro ⟨s,hs,hn⟩
    exact ⟨_,⟨s,hs,hn⟩,UInt64.ofNat_toNat⟩

/-- An entry counts with what it reports. -/
theorem readEntry_eq_some {entry : Option DrmEntry} {vram : Vram} :
    readEntry entry=some vram ↔ ∃ e,entry=some e ∧ e.Reports vram := by
  have hcard : ∀ e : DrmEntry,e.isCard=true ↔ "card".toList<+:e.name ∧ '-' ∉ e.name := by
    intro e
    simp [DrmEntry.isCard]
  have hvram : ∀ e : DrmEntry,e.vram=some vram ↔
      (∃ n,readU64 e.memInfoVramTotal=some n ∧ UInt64.ofNat n=vram.totalBytes) ∧
        ∃ n,readU64 e.memInfoVramUsed=some n ∧ UInt64.ofNat n=vram.usedBytes := by
    intro e
    simp only [DrmEntry.vram,Option.bind_eq_bind,Option.bind_eq_some_iff]
    constructor
    · rintro ⟨total,ht,used,hu,he⟩
      cases he
      exact ⟨⟨total,ht,rfl⟩,used,hu,rfl⟩
    · rintro ⟨⟨total,ht,hte⟩,used,hu,hue⟩
      exact ⟨total,ht,used,hu,by rw [hte,hue]; rfl⟩
  rw [readEntry,Option.bind_eq_some_iff]
  refine exists_congr fun e => and_congr_right fun _ => ?_
  rw [Option.ite_none_right_eq_some,hcard,hvram,readU64_eq_some,readU64_eq_some]
  exact ⟨fun ⟨⟨hc,hn⟩,ht,hu⟩ => ⟨hc,hn,ht,hu⟩,fun h => ⟨⟨h.card,h.noConnector⟩,h.total,h.used⟩⟩

/-- `amd` reports the last card of the directory among those with the most
memory, leaving out connectors and entries that cannot be read. However the
directory is ordered, the size it reports is the same. -/
theorem amd_reports_largest (entries : List (Option DrmEntry)) :
    (∀ vram,amd (some entries)=some vram ↔ ∃ pre e post,entries=pre++some e::post ∧
      e.Reports vram ∧
      (∀ e' vram',some e'∈pre → e'.Reports vram' →
        vram'.totalBytes.toNat ≤ vram.totalBytes.toNat) ∧
      ∀ e' vram',some e'∈post → e'.Reports vram' →
        vram'.totalBytes.toNat<vram.totalBytes.toNat) ∧
    ∀ entries',entries.Perm entries' →
      (amd (some entries')).map Vram.totalBytes=(amd (some entries)).map Vram.totalBytes := by
  have hamd : ∀ entries,amd (some entries)=
      maxByKey (fun vram : Vram => vram.totalBytes.toNat) (entries.filterMap readEntry) := by
    intro entries
    rw [←candidates_eq]
    rfl
  have hmem : ∀ {part : List (Option DrmEntry)} {p : Vram → Prop},
      (∀ vram'∈part.filterMap readEntry,p vram') ↔
        ∀ e' vram',some e'∈part → e'.Reports vram' → p vram' := by
    intro part p
    simp only [List.mem_filterMap,readEntry_eq_some]
    constructor
    · exact fun h e' vram' he hr => h vram' ⟨some e',he,e',rfl,hr⟩
    · rintro h vram' ⟨_,he,e',rfl,hr⟩
      exact h e' vram' he hr
  constructor
  · intro vram
    rw [hamd,maxByKey_eq_some]
    constructor
    · rintro ⟨pre,post,hsplit,hpre,hpost⟩
      obtain ⟨before,rest,rfl,hbefore,hrest⟩ := List.filterMap_eq_append_iff.mp hsplit
      obtain ⟨skipped,entry,after,rfl,hskipped,hentry,hafter⟩ := List.filterMap_eq_cons_iff.mp hrest
      obtain ⟨e,rfl,he⟩ := readEntry_eq_some.mp hentry
      refine ⟨before++skipped,e,after,by simp,he,hmem.mp fun vram' hv => hpre vram' ?_,
        hmem.mp fun vram' hv => hpost vram' (hafter ▸ hv)⟩
      rw [List.filterMap_append,List.filterMap_eq_nil_iff.mpr hskipped,List.append_nil,hbefore] at hv
      exact hv
    · rintro ⟨pre,e,post,rfl,he,hpre,hpost⟩
      refine ⟨pre.filterMap readEntry,post.filterMap readEntry,?_,hmem.mpr hpre,hmem.mpr hpost⟩
      rw [List.filterMap_append,List.filterMap_cons_some (readEntry_eq_some.mpr ⟨e,rfl,he⟩)]
  · intro entries' hperm
    let size := fun vram : Vram => vram.totalBytes.toNat
    have hkeys : (maxByKey size (entries'.filterMap readEntry)).map size=
        (maxByKey size (entries.filterMap readEntry)).map size :=
      maxByKey_perm (hperm.symm.filterMap readEntry)
    have hinj : Function.Injective (Option.map UInt64.toNat) :=
      Option.map_injective fun a b h => UInt64.toNat_inj.mp h
    rw [hamd,hamd]
    refine hinj ?_
    rw [Option.map_map,Option.map_map]
    exact hkeys

example : SystemGpuProbe.vram true .auto ⟨some "[N/A], [N/A]\n".toList,some
    [some ⟨"card1".toList,some "17179869184\n".toList,some "4\n".toList⟩,none,
      some ⟨"card0".toList,some "2147483648\n".toList,some "1\n".toList⟩,
      some ⟨"card1-DP-1".toList,some "99\n".toList,some "9\n".toList⟩]⟩=
    .returned (some ⟨17179869184,4⟩) := by decide +kernel

/-- A line of `nvidia-smi`. -/
def csvLine (row : ℕ×ℕ) : Text := numeral row.1++ ',':: ' '::numeral row.2

/-- The output of `nvidia-smi` for GPUs of these sizes. -/
def csv (rows : List (ℕ×ℕ)) : Text := (rows.map csvLine).flatMap (·++ ['\n'])

/-- A line is read back as the row it was written from. -/
theorem csvLine_row {row : ℕ×ℕ} (h : Fits [row]) : Row (csvLine row) row := by
  have hfirst : row.1<2^64 := by
    have : 2^20*row.1<2^64 := by simpa using h.1
    omega
  have hsecond : row.2<2^64 := by
    have : 2^20*row.2<2^64 := by simpa using h.2
    omega
  refine ⟨numeral row.1,' '::numeral row.2,rfl,fun hc => ?_,?_,?_⟩
  · exact absurd (isDigit_of_mem_numeral hc) (by decide)
  · exact ⟨[],_,[],(List.append_nil _).symm,fun _ hc => (by cases hc),fun _ hc => (by cases hc),isU64_numeral hfirst⟩
  · exact ⟨[' '],_,[],(List.append_nil _).symm,List.forall_mem_singleton.mpr rfl,fun _ hc => (by cases hc),isU64_numeral hsecond⟩

/-- The characters of a line. -/
theorem csvLine_chars {row : ℕ×ℕ} {c : Char} (h : c∈csvLine row) :
    c.isDigit=true ∨ c = ',' ∨ c = ' ' := by
  simp only [csvLine,List.mem_append,List.mem_cons] at h
  rcases h with h | h | h | h
  · exact .inl (isDigit_of_mem_numeral h)
  · exact .inr (.inl h)
  · exact .inr (.inr h)
  · exact .inl (isDigit_of_mem_numeral h)

/-- All lines of the output are read, and none of them is blank. -/
theorem nonBlank_csv (rows : List (ℕ×ℕ)) : nonBlank (csv rows)=rows.map csvLine := by
  have hother : ∀ c : Char,c = '\n' ∨ c = '\r' → ∀ row,c∉csvLine row := by
    rintro c (rfl | rfl) row hc <;>
      rcases csvLine_chars hc with h | h | h <;> exact absurd h (by decide)
  have hlines : lines (csv rows)=rows.map csvLine := by
    refine lines_terminated (List.forall_mem_map.mpr fun row _ => hother _ (.inl rfl) row)
      (List.forall_mem_map.mpr fun row _ he => hother _ (.inr rfl) row (List.mem_of_getLast? he))
  rw [nonBlank,hlines,List.filter_eq_self,List.forall_mem_map]
  intro row _
  rw [Bool.not_eq_true',List.isEmpty_eq_false_iff,ne_eq,trim_eq_nil_iff]
  exact fun hblank => absurd (hblank ',' (by simp [csvLine])) (by decide)

/-- Every part of rows that fit fits. -/
theorem Fits.of_mem {rows : List (ℕ×ℕ)} (h : Fits rows) {row : ℕ×ℕ} (hrow : row∈rows) :
    Fits [row] := by
  have hfst := List.single_le_sum (fun _ _ => Nat.zero_le _) _ (List.mem_map_of_mem (f:=Prod.fst) hrow)
  have hsnd := List.single_le_sum (fun _ _ => Nat.zero_le _) _ (List.mem_map_of_mem (f:=Prod.snd) hrow)
  obtain ⟨ha,hb⟩ := h
  constructor
  · simp only [List.map_cons,List.map_nil,List.sum_singleton]
    omega
  · simp only [List.map_cons,List.map_nil,List.sum_singleton]
    omega

/-- What `nvidia-smi` prints is read back exactly, in a debug and in a release
build, and AMD cards only count if it lists none. -/
theorem vram_auto_csv (overflowChecks : Bool) (rows : List (ℕ×ℕ))
    (drmRoot : Option (List (Option DrmEntry))) (hfits : Fits rows) :
    (rows=[] → SystemGpuProbe.vram overflowChecks .auto ⟨some (csv rows),drmRoot⟩=
      .returned (amd drmRoot)) ∧
    (rows≠[] → ∃ vram,
      SystemGpuProbe.vram overflowChecks .auto ⟨some (csv rows),drmRoot⟩=.returned (some vram) ∧
        vram.totalBytes.toNat=2^20*(rows.map Prod.fst).sum ∧
          vram.usedBytes.toNat=2^20*(rows.map Prod.snd).sum) := by
  have hrows : List.Forall₂ Row (nonBlank (csv rows)) rows := by
    rw [nonBlank_csv,List.forall₂_map_left_iff]
    exact List.forall₂_same.mpr fun row hrow => csvLine_row (hfits.of_mem hrow)
  have hparse : nvidia overflowChecks (some (csv rows))=.returned (totals rows) := by
    have hfold : (nonBlank (csv rows)).foldlM (addLine overflowChecks) (totals [])=
        .ok (totals ([]++rows)) := foldlM_rows hrows (.inr hfits)
    rw [nvidia,parseNvidiaSmi,show (none : Option Vram)=totals [] from rfl,hfold]
    rfl
  constructor
  · rintro rfl
    rw [SystemGpuProbe.vram,hparse]
    rfl
  · intro hne
    obtain ⟨vram,hv⟩ := exists_totals.mpr hne
    refine ⟨vram,?_,totals_exact hv hfits⟩
    rw [SystemGpuProbe.vram,hparse,hv]

/-- Two GPUs of which one is in use. -/
theorem vram_auto_csv_two : Fits [(24564,1000),(24564,0)] ∧
    ([(24564,1000),(24564,0)]=[] → SystemGpuProbe.vram true .auto
      ⟨some (csv [(24564,1000),(24564,0)]),none⟩=.returned (amd none)) ∧
    ([(24564,1000),(24564,0)]≠[] → ∃ vram,SystemGpuProbe.vram true .auto
      ⟨some (csv [(24564,1000),(24564,0)]),none⟩=.returned (some vram) ∧
        vram.totalBytes.toNat=2^20*([(24564,1000),(24564,0)].map Prod.fst).sum ∧
          vram.usedBytes.toNat=2^20*([(24564,1000),(24564,0)].map Prod.snd).sum) :=
  ⟨by decide,vram_auto_csv true _ none (by decide)⟩

end AivyxBroker.Gpu
