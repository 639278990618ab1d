import AivyxBroker.Json

/-!
# Reading llama-server's answers

The broker asks llama-server for its slots and its models. The HTTP exchange
is left out; these are the readers of the parsed bodies. A slot number is
narrowed from 64 to 32 bits as it is read.
-/

namespace AivyxBroker.LlamaClient

/-- A slot as llama-server reports it. -/
structure LlamaSlot where
  /-- Its number, narrowed. -/
  id : UInt32
  /-- It is generating. -/
  isProcessing : Bool
  deriving DecidableEq

/-- Read one entry of `/slots`; `as u32` keeps the low bits of its number. -/
def parseSlot (v : Json) : Option LlamaSlot :=
  match (v.get "id").bind Json.asU64 with
  | none => none
  | some id =>
    match (v.get "is_processing").bind Json.asBool with
    | none => none
    | some isProcessing => some ⟨UInt32.ofNat id,isProcessing⟩

/-- Read `GET /slots`, all entries or nothing. -/
def parseSlots (json : Json) : Option (List LlamaSlot) :=
  match json.asArray with
  | none => none
  | some arr => arr.mapM parseSlot

/-- What an entry of `/slots` says: the exact number of its slot, and whether
that slot is generating. -/
def Reports (v : Json) (id : ℕ) (isProcessing : Bool) : Prop :=
  (v.get "id").bind Json.asU64=some id ∧ (v.get "is_processing").bind Json.asBool=some isProcessing

/-- The entries of a body. -/
def entries (body : Json) : List Json := body.asArray.getD []

/-- An entry is read as what it says, but for the upper half of its number. -/
theorem parseSlot_eq_some {v : Json} {slot : LlamaSlot} : parseSlot v=some slot ↔
    ∃ id,Reports v id slot.isProcessing ∧ slot.id=UInt32.ofNat id := by
  unfold parseSlot Reports
  cases (v.get "id").bind Json.asU64 with
  | none => simp
  | some id =>
    cases (v.get "is_processing").bind Json.asBool with
    | none => simp
    | some isProcessing =>
      obtain ⟨i,p⟩ := slot
      simp [and_comm,eq_comm]

/-- Reading all entries or nothing reads them one by one. -/
theorem mapM_eq_some {α β : Type*} {f : α → Option β} {xs : List α} {ys : List β} :
    xs.mapM f=some ys ↔ List.Forall₂ (fun x y => f x=some y) xs ys := by
  induction xs generalizing ys with
  | nil => simp [eq_comm]
  | cons x xs ih =>
    simp only [List.mapM_cons,Option.pure_def,Option.bind_eq_bind,Option.bind_eq_some_iff,ih,
      Option.some.injEq,List.forall₂_cons_left_iff]
    constructor
    · rintro ⟨y,hy,ys',hys,rfl⟩
      exact ⟨y,ys',hy,hys,rfl⟩
    · rintro ⟨y,ys',hy,hys,rfl⟩
      exact ⟨y,hy,ys',hys,rfl⟩

/-- An accepted body lists one readable entry for each slot read. -/
theorem parseSlots_eq_some {body : Json} {slots : List LlamaSlot} (h : parseSlots body=some slots) :
    List.Forall₂ (fun v slot => parseSlot v=some slot) (entries body) slots := by
  unfold parseSlots at h
  unfold entries
  cases ha : body.asArray with
  | none =>
    rw [ha] at h
    cases h
  | some arr =>
    rw [ha] at h
    exact mapM_eq_some.mp h

/-- One model llama-server knows about. -/
structure LoadedModel where
  /-- Its name. -/
  id : String
  /-- It is loaded, or being loaded. -/
  loaded : Bool
  deriving DecidableEq

/-- What the text of a status means: loaded or not, or an entry to skip. No
text at all means loaded. -/
def statusLoaded : Option String → Option Bool
  | none => some true
  | some text =>
    if text="loaded" ∨ text="loading" then some true
    else if text="unloaded" ∨ text="sleeping" then some false
    else none

/-- The loop over the entries of `/models`: an entry without a string id
gives everything up, and one with an unknown status is skipped. -/
def readModels : List Json → List LoadedModel → Option (List LoadedModel)
  | [],models => some models
  | m::rest,models =>
    match (m.get "id").bind Json.asStr with
    | none => none
    | some id =>
      match statusLoaded (((m.get "status").bind (Json.get "value")).bind Json.asStr) with
      | some loaded => readModels rest (models++[⟨id,loaded⟩])
      | none => readModels rest models

/-- Read `GET /models`. -/
def parseModels (json : Json) : Option (List LoadedModel) :=
  match (json.get "data").bind Json.asArray with
  | none => none
  | some arr => readModels arr []

/-- The status is an object whose value is this text. -/
def Says (status : Json) (text : String) : Prop :=
  (status.get "value").bind Json.asStr=some text

instance (status : Json) (text : String) : Decidable (Says status text) :=
  inferInstanceAs (Decidable (_=_))

/-- The documented rule for one entry: without a status it is loaded, with one
of the four known statuses it is what that says, and with anything else for a
status it is skipped. -/
def documentedLoaded (m : Json) : Option Bool :=
  match m.get "status" with
  | none => some true
  | some status =>
    if Says status "loaded" ∨ Says status "loading" then some true
    else if Says status "unloaded" ∨ Says status "sleeping" then some false
    else none

/-- What an entry with a string id adds to the list, by some rule. -/
def listed (rule : Json → Option Bool) (m : Json) : Option LoadedModel :=
  ((m.get "id").bind Json.asStr).bind fun id => (rule m).map fun loaded => ⟨id,loaded⟩

/-- The result is the documented one. -/
structure FollowsRule (json : Json) (result : Option (List LoadedModel)) : Prop where
  /-- There is none exactly if there is no array of entries, or one of them has
  no string id. -/
  rejected : result=none ↔ (json.get "data").bind Json.asArray=none ∨
    ∃ arr,(json.get "data").bind Json.asArray=some arr ∧ ∃ m∈arr,(m.get "id").bind Json.asStr=none
  /-- Otherwise it lists the entries by the rule, in order. -/
  lists : ∀ arr models,(json.get "data").bind Json.asArray=some arr → result=some models →
    models=arr.filterMap (listed documentedLoaded)

/-- The rule of the code: the text of the status is all it looks at. -/
def codedLoaded (m : Json) : Option Bool :=
  statusLoaded (((m.get "status").bind (Json.get "value")).bind Json.asStr)

/-- The loop lists the entries by the rule of the code, if all have an id. -/
theorem readModels_eq (arr : List Json) (models : List LoadedModel) : readModels arr models=
    if ∃ m∈arr,(m.get "id").bind Json.asStr=none then none
    else some (models++arr.filterMap (listed codedLoaded)) := by
  induction arr generalizing models with
  | nil => simp [readModels]
  | cons m rest ih =>
    unfold readModels
    cases hid : (m.get "id").bind Json.asStr with
    | none => rw [if_pos ⟨m,List.mem_cons_self,hid⟩]
    | some id =>
      have hrest : (∃ m'∈m::rest,(m'.get "id").bind Json.asStr=none) ↔
          ∃ m'∈rest,(m'.get "id").bind Json.asStr=none := by
        rw [List.exists_mem_cons_iff,hid]
        simp only [reduceCtorEq,false_or]
      have hhead : listed codedLoaded m=(codedLoaded m).map fun loaded => ⟨id,loaded⟩ := by
        rw [listed,hid,Option.bind_some]
      simp only [hrest]
      change (match codedLoaded m with | some loaded => _ | none => _)=_
      cases hc : codedLoaded m with
      | none =>
        rw [hc] at hhead
        rw [List.filterMap_cons_none hhead]
        exact ih models
      | some loaded =>
        rw [hc] at hhead
        rw [List.filterMap_cons_some hhead,List.append_cons]
        exact ih _

/-- Both rules agree on an entry, except that an unreadable status is skipped
by the documented one and loaded by the other. -/
theorem codedLoaded_eq (m : Json) :
    (∀ status,m.get "status"=some status → ∃ text,Says status text) ∧
        documentedLoaded m=codedLoaded m ∨
      (∃ status,m.get "status"=some status ∧ ∀ text,¬Says status text) ∧
        documentedLoaded m=none ∧ codedLoaded m=some true := by
  unfold documentedLoaded codedLoaded
  cases hs : m.get "status" with
  | none => exact .inl ⟨fun status h => (by cases h),rfl⟩
  | some status =>
    rw [Option.bind_some]
    cases ht : (status.get "value").bind Json.asStr with
    | none =>
      refine .inr ⟨⟨status,rfl,fun text h => ?_⟩,?_,rfl⟩
      · cases ht.symm.trans h
      · simp [Says,ht]
    | some text =>
      refine .inl ⟨fun status' h => ⟨text,Option.some.inj h ▸ ht⟩,?_⟩
      simp [Says,ht,statusLoaded]

/-- A rule that skips more entries gives the same list only if it skips none
of those more. -/
theorem filterMap_eq_iff {α β : Type*} {f g : α → Option β} (hfg : ∀ x,f x=g x ∨ f x=none)
    (xs : List α) : xs.filterMap f=xs.filterMap g ↔ ∀ x∈xs,f x=g x := by
  have hle : ∀ ys : List α,(ys.filterMap f).length≤(ys.filterMap g).length := by
    intro ys
    induction ys with
    | nil => rfl
    | cons y ys ih =>
      rcases hfg y with hy | hy
      · cases hg : g y with
        | none => rwa [List.filterMap_cons_none (hy.trans hg),List.filterMap_cons_none hg]
        | some z =>
          rw [List.filterMap_cons_some (hy.trans hg),List.filterMap_cons_some hg]
          exact Nat.succ_le_succ ih
      · rw [List.filterMap_cons_none hy,List.filterMap_cons]
        split
        · exact ih
        · exact ih.trans (Nat.le_succ _)
  refine ⟨fun h => ?_,List.filterMap_congr⟩
  induction xs with
  | nil => simp
  | cons x xs ih =>
    cases hg : g x with
    | none =>
      have hx : f x=none := by
        rcases hfg x with hx | hx
        · exact hx.trans hg
        · exact hx
      rw [List.filterMap_cons_none hx,List.filterMap_cons_none hg] at h
      exact List.forall_mem_cons.mpr ⟨hx.trans hg.symm,ih h⟩
    | some z =>
      rcases hfg x with hx | hx
      · rw [List.filterMap_cons_some (hx.trans hg),List.filterMap_cons_some hg] at h
        exact List.forall_mem_cons.mpr ⟨hx,ih (List.cons.inj h).2⟩
      · rw [List.filterMap_cons_none hx,List.filterMap_cons_some hg] at h
        have hlen := congrArg List.length h
        have := hle xs
        rw [List.length_cons] at hlen
        omega

/-- On an entry with an id both rules agree exactly if its status is readable. -/
theorem listed_eq_iff {m : Json} (hid : (m.get "id").bind Json.asStr≠none) :
    listed documentedLoaded m=listed codedLoaded m ↔
      ∀ status,m.get "status"=some status → ∃ text,Says status text := by
  obtain ⟨id,hid⟩ := Option.ne_none_iff_exists'.mp hid
  unfold listed
  rw [hid,Option.bind_some,Option.bind_some]
  rcases codedLoaded_eq m with ⟨hread,he⟩ | ⟨⟨status,hs,hun⟩,hd,hc⟩
  · exact ⟨fun _ => hread,fun _ => by rw [he]⟩
  · rw [hd,hc]
    refine ⟨fun h => (by cases h),fun hread => ?_⟩
    obtain ⟨text,ht⟩ := hread status hs
    exact absurd ht (hun text)

/-- The documented rule lists no entry otherwise than the code does; it may
only skip it. -/
theorem listed_skips (m : Json) : listed documentedLoaded m=listed codedLoaded m ∨
    listed documentedLoaded m=none := by
  unfold listed
  rcases codedLoaded_eq m with ⟨-,he⟩ | ⟨-,hd,-⟩
  · exact .inl (by rw [he])
  · rw [hd]
    cases (m.get "id").bind Json.asStr <;> exact .inr rfl

/-- What the code returns: nothing, or the list by its own rule. -/
theorem parseModels_eq (json : Json) : parseModels json=
    ((json.get "data").bind Json.asArray).bind fun arr =>
      if ∃ m∈arr,(m.get "id").bind Json.asStr=none then none
      else some (arr.filterMap (listed codedLoaded)) := by
  unfold parseModels
  cases (json.get "data").bind Json.asArray with
  | none => rfl
  | some arr => exact readModels_eq arr []

/-- It returns nothing exactly when the rule says so. -/
theorem parseModels_none_iff (json : Json) : parseModels json=none ↔
    (json.get "data").bind Json.asArray=none ∨
      ∃ arr,(json.get "data").bind Json.asArray=some arr ∧
        ∃ m∈arr,(m.get "id").bind Json.asStr=none := by
  rw [parseModels_eq]
  cases (json.get "data").bind Json.asArray with
  | none => simp
  | some arr => simp

/-- The documented rule is followed on exactly these bodies: those rejected
anyway, and those whose statuses all are objects with a string for a value. -/
def StatusesReadable (json : Json) : Prop :=
  ∀ arr,(json.get "data").bind Json.asArray=some arr →
    (∀ m∈arr,(m.get "id").bind Json.asStr≠none) →
    ∀ m∈arr,∀ status,m.get "status"=some status → ∃ text,Says status text

/-- `parse_models` follows its documented rule if and only if no status is
unreadable: it takes an unreadable status for none. -/
theorem parseModels_rule_iff (json : Json) :
    FollowsRule json (parseModels json) ↔ StatusesReadable json := by
  constructor
  · intro h arr harr hids m hm
    have hcode : parseModels json=some (arr.filterMap (listed codedLoaded)) := by
      rw [parseModels_eq,harr,Option.bind_some,if_neg fun ⟨m,hm,hn⟩ => hids m hm hn]
    have hsame := (filterMap_eq_iff listed_skips arr).mp (h.lists arr _ harr hcode).symm
    exact (listed_eq_iff (hids m hm)).mp (hsame m hm)
  · intro h
    refine ⟨parseModels_none_iff json,fun arr models harr hcode => ?_⟩
    rw [parseModels_eq,harr,Option.bind_some] at hcode
    split at hcode
    · cases hcode
    · rename_i hno
      cases hcode
      have hids : ∀ m∈arr,(m.get "id").bind Json.asStr≠none := fun m hm hn => hno ⟨m,hm,hn⟩
      exact ((filterMap_eq_iff listed_skips arr).mpr fun m hm =>
        (listed_eq_iff (hids m hm)).mpr (h arr harr hids m hm)).symm

/-- A status without a value makes an entry loaded that is to be skipped. -/
theorem parseModels_rule_missed : ¬FollowsRule
    (.object [("data",.array [.object [("id",.string "a"),("status",.object [])]])])
    (some [⟨"a",true⟩]) ∧
    parseModels (.object [("data",.array [.object [("id",.string "a"),("status",.object [])]])])=
      some [⟨"a",true⟩] := by
  refine ⟨fun h => ?_,rfl⟩
  have hlist := h.lists _ _ rfl rfl
  cases hlist

end AivyxBroker.LlamaClient
