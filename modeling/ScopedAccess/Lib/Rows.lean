import Mathlib.Data.List.Nodup

namespace Lib.Rows

variable {ρ κ : Type} [DecidableEq κ] {key : ρ → κ} {rows : List ρ}

theorem find_eq_some (hn : (rows.map key).Nodup) {k : κ} {r : ρ} :
    rows.find? (fun x => key x = k) = some r ↔ r ∈ rows ∧ key r = k := by
  constructor
  · intro h
    exact ⟨List.mem_of_find?_eq_some h, by simpa using List.find?_some h⟩
  · rintro ⟨hmem, rfl⟩
    cases h : rows.find? (fun x => key x = key r) with
    | none => simpa using List.find?_eq_none.mp h r hmem
    | some r' =>
      have hkey : key r' = key r := by simpa using List.find?_some h
      rw [List.inj_on_of_nodup_map hn (List.mem_of_find?_eq_some h) hmem hkey]

def modify (key : ρ → κ) (k : κ) (f : ρ → ρ) (rows : List ρ) : List ρ :=
  rows.map fun r => if key r = k then f r else r

theorem mem_modify {k : κ} {f : ρ → ρ} {r : ρ} :
    r ∈ modify key k f rows ↔
      (r ∈ rows ∧ key r ≠ k) ∨ ∃ r' ∈ rows, key r' = k ∧ f r' = r := by
  simp only [modify, List.mem_map]
  constructor
  · rintro ⟨r', hmem, rfl⟩
    by_cases hk : key r' = k
    · exact .inr ⟨r', hmem, hk, by rw [if_pos hk]⟩
    · exact .inl ⟨by rwa [if_neg hk], by rwa [if_neg hk]⟩
  · rintro (⟨hmem, hk⟩ | ⟨r', hmem, hk, rfl⟩)
    · exact ⟨r, hmem, by rw [if_neg hk]⟩
    · exact ⟨r', hmem, by rw [if_pos hk]⟩

theorem find_modify {k k' : κ} {r : ρ} (hr : key r = k) :
    (modify key k (fun _ => r) rows).find? (fun x => key x = k') =
      if k' = k then (rows.find? fun x => key x = k).map fun _ => r
      else rows.find? fun x => key x = k' := by
  induction rows with
  | nil => simp [modify]
  | cons x rows ih =>
    have hcons : modify key k (fun _ => r) (x :: rows) =
        (if key x = k then r else x) :: modify key k (fun _ => r) rows := rfl
    rw [hcons]
    by_cases hx : key x = k <;> by_cases hk : k' = k
    · subst hk
      simp [hx, hr]
    · simpa [hx, hr, hk, Ne.symm hk] using ih
    · subst hk
      simpa [hx] using ih
    · simp only [hx, if_false, List.find?_cons, ih, if_neg hk]

theorem find_modify_keeping {k k' : κ} {f : ρ → ρ} (hf : ∀ r, key (f r) = key r) :
    (modify key k f rows).find? (fun x => key x = k') =
      if k' = k then (rows.find? fun x => key x = k).map f
      else rows.find? fun x => key x = k' := by
  have hkey (r : ρ) : key (if key r = k then f r else r) = key r := by
    split
    · exact hf r
    · rfl
  have hcomp : (fun x => decide (key x = k')) ∘ (fun r => if key r = k then f r else r) =
      fun r => decide (key r = k') := funext fun r => by
    simp only [Function.comp_apply, hkey]
  rw [modify, List.find?_map, hcomp]
  split
  · subst k'
    cases h : rows.find? (fun x => key x = k) with
    | none => rfl
    | some r =>
      have hr : key r = k := by simpa using List.find?_some h
      rw [Option.map_some, Option.map_some, if_pos hr]
  · cases h : rows.find? (fun x => key x = k') with
    | none => rfl
    | some r =>
      have hr : key r = k' := by simpa using List.find?_some h
      rw [Option.map_some, if_neg (by rwa [hr])]

theorem modify_eq (hn : (rows.map key).Nodup) {r : ρ} (hr : r ∈ rows) (f : ρ → ρ) :
    modify key (key r) f rows = modify key (key r) (fun _ => f r) rows := by
  refine List.map_congr_left fun x hx => ?_
  by_cases hk : key x = key r
  · rw [if_pos hk, if_pos hk, List.inj_on_of_nodup_map hn hx hr hk]
  · rw [if_neg hk, if_neg hk]

theorem find_append_fresh {k : κ} {r : ρ} (hr : key r ∉ rows.map key) :
    (rows ++ [r]).find? (fun x => key x = k) =
      if k = key r then some r else rows.find? fun x => key x = k := by
  rw [List.find?_append]
  by_cases hk : k = key r
  · subst hk
    have hnone : rows.find? (fun x => key x = key r) = none := by
      rw [List.find?_eq_none]
      exact fun x hx hkey => hr (List.mem_map.mpr ⟨x, hx, by simpa using hkey⟩)
    simp [hnone]
  · simp [hk, Ne.symm hk]

def fresh (ids : List Nat) : Nat := ids.foldr max 0 + 1

theorem le_foldr_max {ids : List Nat} {id : Nat} (h : id ∈ ids) : id ≤ ids.foldr max 0 := by
  induction ids with
  | nil => cases h
  | cons x ids ih =>
    rcases List.mem_cons.mp h with rfl | h
    · exact Nat.le_max_left _ _
    · exact Nat.le_trans (ih h) (Nat.le_max_right _ _)

theorem fresh_not_mem (ids : List Nat) : fresh ids ∉ ids := by
  intro h
  have := le_foldr_max h
  simp only [fresh] at this
  omega

/-- Every row is still in its place, changed as `R` allows; new ones come after. -/
def Extends (R : ρ → ρ → Prop) (rows rows' : List ρ) : Prop :=
  ∀ (i : Nat) (r : ρ), rows[i]? = some r → ∃ r', rows'[i]? = some r' ∧ R r r'

section Extends

variable {R : ρ → ρ → Prop}

theorem Extends.refl (hR : ∀ r, R r r) (rows : List ρ) : Extends R rows rows :=
  fun _ r hr => ⟨r, hr, hR r⟩

theorem Extends.trans (hR : ∀ {r s q}, R r s → R s q → R r q) {rows' rows'' : List ρ}
    (h : Extends R rows rows') (h' : Extends R rows' rows'') : Extends R rows rows'' := by
  intro i r hr
  obtain ⟨s, hs, hrs⟩ := h i r hr
  obtain ⟨q, hq, hsq⟩ := h' i s hs
  exact ⟨q, hq, hR hrs hsq⟩

theorem Extends.append (hR : ∀ r, R r r) (rows new : List ρ) : Extends R rows (rows ++ new) := by
  intro i r hr
  have hi : i < rows.length := (List.getElem?_eq_some_iff.mp hr).1
  exact ⟨r, by rw [List.getElem?_append_left hi, hr], hR r⟩

theorem Extends.modify (hR : ∀ r, R r r) {k : κ} {f : ρ → ρ}
    (hf : ∀ r ∈ rows, key r = k → R r (f r)) : Extends R rows (modify key k f rows) := by
  intro i r hr
  refine ⟨if key r = k then f r else r, by rw [Rows.modify, List.getElem?_map, hr]; rfl, ?_⟩
  by_cases hk : key r = k
  · rw [if_pos hk]
    exact hf r (List.mem_of_getElem? hr) hk
  · rw [if_neg hk]
    exact hR r

theorem Extends.mem {rows' : List ρ} (h : Extends R rows rows') {r : ρ} (hr : r ∈ rows) :
    ∃ r' ∈ rows', R r r' := by
  obtain ⟨i, hi⟩ := List.mem_iff_getElem?.mp hr
  obtain ⟨r', hr', hR⟩ := h i r hi
  exact ⟨r', List.mem_of_getElem? hr', hR⟩

end Extends

end Lib.Rows
