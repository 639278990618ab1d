import Mathlib

/-!
# The last of the greatest elements

Going through a list and keeping the best element so far finds one with the
greatest key. An element as good as the best one so far replaces it, so of
several with the greatest key it is the last one.
-/

namespace AivyxBroker.MaxByKey

/-- The last one of the elements with the greatest key. -/
def maxByKey {α κ : Type*} [LT κ] [DecidableLT κ] (key : α → κ) (xs : List α) : Option α :=
  xs.foldl (fun best y =>
    match best with
    | none => some y
    | some x => if key y<key x then some x else some y) none

variable {α κ : Type*} [LinearOrder κ] {key : α → κ} {xs : List α} {x : α}

/-- One more element becomes the greatest unless it is smaller. -/
theorem maxByKey_concat (y : α) : maxByKey key (xs++[y])=
    match maxByKey key xs with
    | none => some y
    | some x => if key y<key x then some x else some y := by
  rw [maxByKey,List.foldl_append]
  rfl

/-- There is a greatest element unless there is none at all. -/
theorem maxByKey_eq_none : maxByKey key xs=none ↔ xs=[] := by
  induction xs using List.reverseRecOn with
  | nil => exact ⟨fun _ => rfl,fun _ => rfl⟩
  | append_singleton xs y _ =>
    rw [maxByKey_concat]
    refine ⟨fun h => ?_,fun h => by simp at h⟩
    split at h
    · cases h
    · split at h <;> cases h

/-- The greatest element is as great as all before it and greater than all
after it. -/
theorem maxByKey_eq_some : maxByKey key xs=some x ↔
    ∃ pre post,xs=pre++x::post ∧ (∀ y∈pre,key y ≤ key x) ∧ ∀ y∈post,key y<key x := by
  induction xs using List.reverseRecOn generalizing x with
  | nil => simp [maxByKey]
  | append_singleton xs y ih =>
    rw [maxByKey_concat]
    constructor
    · intro h
      split at h
      · rename_i hnone
        cases h
        rw [maxByKey_eq_none.mp hnone]
        exact ⟨[],[],rfl,by simp,by simp⟩
      · rename_i best hbest
        obtain ⟨pre,post,hxs,hpre,hpost⟩ := ih.mp hbest
        split at h
        · rename_i hlt
          cases h
          refine ⟨pre,post++[y],by rw [hxs]; simp,hpre,fun z hz => ?_⟩
          rcases List.mem_append.mp hz with hz | hz
          · exact hpost z hz
          · rwa [List.mem_singleton.mp hz]
        · rename_i hge
          cases h
          refine ⟨xs,[],rfl,fun z hz => ?_,by simp⟩
          have hle := not_lt.mp hge
          rw [hxs] at hz
          rcases List.mem_append.mp hz with hz | hz
          · exact (hpre z hz).trans hle
          · rcases List.mem_cons.mp hz with rfl | hz
            · exact hle
            · exact (hpost z hz).le.trans hle
    · rintro ⟨pre,post,hxs,hpre,hpost⟩
      rcases List.eq_nil_or_concat post with rfl | ⟨post,z,rfl⟩
      · obtain ⟨rfl,he⟩ := List.append_inj' hxs rfl
        cases he
        cases hbest : maxByKey key xs with
        | none => rfl
        | some best =>
          obtain ⟨pre,post,hxs,-⟩ := ih.mp hbest
          exact if_neg (not_lt.mpr (hpre best (by rw [hxs]; simp)))
      · rw [List.concat_eq_append,←List.cons_append,←List.append_assoc] at hxs
        rw [List.concat_eq_append] at hpost
        obtain ⟨hinit,he⟩ := List.append_inj' hxs rfl
        cases he
        rw [ih.mpr ⟨pre,post,hinit,hpre,fun w hw => hpost w (List.mem_append_left _ hw)⟩]
        exact if_pos (hpost y (by simp))

/-- The greatest key does not depend on the order of the elements. -/
theorem maxByKey_perm {ys : List α} (h : xs.Perm ys) :
    (maxByKey key xs).map key=(maxByKey key ys).map key := by
  cases hx : maxByKey key xs with
  | none =>
    have hys : ys=[] := by simpa [maxByKey_eq_none.mp hx] using h.symm
    rw [maxByKey_eq_none.mpr hys]
  | some x =>
    cases hy : maxByKey key ys with
    | none =>
      have hxs : xs=[] := by simpa [maxByKey_eq_none.mp hy] using h
      rw [maxByKey_eq_none.mpr hxs] at hx
      cases hx
    | some y =>
      have hgreatest : ∀ {zs : List α} {z : α},maxByKey key zs=some z →
          z∈zs ∧ ∀ w∈zs,key w ≤ key z := by
        intro zs z hz
        obtain ⟨pre,post,rfl,hpre,hpost⟩ := maxByKey_eq_some.mp hz
        refine ⟨by simp,fun w hw => ?_⟩
        rcases List.mem_append.mp hw with hw | hw
        · exact hpre w hw
        · rcases List.mem_cons.mp hw with rfl | hw
          · exact le_rfl
          · exact (hpost w hw).le
      obtain ⟨hxmem,hxmax⟩ := hgreatest hx
      obtain ⟨hymem,hymax⟩ := hgreatest hy
      exact congrArg some (le_antisymm (hymax x (h.mem_iff.mp hxmem)) (hxmax y (h.mem_iff.mpr hymem)))

end AivyxBroker.MaxByKey
