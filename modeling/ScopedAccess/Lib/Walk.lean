import Mathlib.Data.Finset.Card
import Mathlib.Data.Finset.Range

universe u

namespace Lib.Walk

variable {α : Type u} (next : α → Option α)

def nth : Nat → α → Option α
  | 0, a => some a
  | k + 1, a => (next a).bind (nth k)

@[simp] theorem nth_zero (a : α) : nth next 0 a = some a := rfl

theorem nth_succ (k : Nat) (a : α) : nth next (k + 1) a = (next a).bind (nth next k) := rfl

theorem nth_add (j k : Nat) (a : α) :
    nth next (j + k) a = (nth next j a).bind (nth next k) := by
  induction j generalizing a with
  | zero => simp
  | succ j ih =>
    rw [Nat.succ_add, nth_succ, nth_succ]
    cases h : next a with
    | none => rfl
    | some b => simpa using ih b

theorem nth_succ' (k : Nat) (a : α) : nth next (k + 1) a = (nth next k a).bind next := by
  rw [nth_add]
  congr 1
  funext b
  rw [nth_succ]
  cases next b <;> rfl

def Reaches (a b : α) : Prop := ∃ k, nth next k a = some b

/-- The walk from `a` comes to an element without a successor. -/
def Ends (a : α) : Prop := ∃ k, nth next k a = none

def Acyclic : Prop := ∀ a b, next a = some b → ¬ Reaches next b a

def Within (rows : List α) : Prop := ∀ a b, next a = some b → b ∈ rows

variable {next}

@[simp] theorem Reaches.refl (a : α) : Reaches next a a := ⟨0, rfl⟩

theorem Reaches.step {a b : α} (h : next a = some b) : Reaches next a b :=
  ⟨1, by simp [nth_succ, h]⟩

theorem Reaches.trans {a b c : α} (hab : Reaches next a b) (hbc : Reaches next b c) :
    Reaches next a c := by
  obtain ⟨j, hj⟩ := hab
  obtain ⟨k, hk⟩ := hbc
  exact ⟨j + k, by simp [nth_add, hj, hk]⟩

theorem Reaches.head {a b c : α} (h : next a = some b) (hbc : Reaches next b c) :
    Reaches next a c := (Reaches.step h).trans hbc

theorem reaches_iff {a c : α} :
    Reaches next a c ↔ a = c ∨ ∃ b, next a = some b ∧ Reaches next b c := by
  constructor
  · rintro ⟨k, hk⟩
    cases k with
    | zero => exact .inl (by simpa using hk)
    | succ k =>
      obtain ⟨b, hb, hk⟩ := Option.bind_eq_some_iff.mp hk
      exact .inr ⟨b, hb, k, hk⟩
  · rintro (rfl | ⟨b, hb, hbc⟩)
    · exact .refl a
    · exact hbc.head hb

theorem Reaches.ends_iff {a b : α} (h : Reaches next a b) : Ends next a ↔ Ends next b := by
  obtain ⟨j, hj⟩ := h
  constructor
  · rintro ⟨k, hk⟩
    refine ⟨k, ?_⟩
    have hadd : nth next (k + j) a = none := by rw [nth_add, hk]; rfl
    rwa [Nat.add_comm, nth_add, hj] at hadd
  · rintro ⟨k, hk⟩
    exact ⟨j + k, by rw [nth_add, hj]; exact hk⟩

theorem nth_none_of_le {j k : Nat} {a : α} (hjk : j ≤ k) (h : nth next j a = none) :
    nth next k a = none := by
  obtain ⟨d, rfl⟩ := Nat.exists_eq_add_of_le hjk
  rw [nth_add, h]
  rfl

section Finite

variable {rows : List α}

theorem nth_mem (hw : Within next rows) {k : Nat} {a b : α} (h : nth next (k + 1) a = some b) :
    b ∈ rows := by
  rw [nth_succ'] at h
  obtain ⟨c, -, hcb⟩ := Option.bind_eq_some_iff.mp h
  exact hw c b hcb

theorem exists_repeat (hw : Within next rows) {a : α}
    (h : nth next (rows.length + 1) a ≠ none) :
    ∃ i j, i < j ∧ j ≤ rows.length + 1 ∧ nth next i a = nth next j a ∧ nth next i a ≠ none := by
  classical
  have hsome (k : Nat) (hk : k ≤ rows.length + 1) : nth next k a ≠ none :=
    fun hnone => h (nth_none_of_le hk hnone)
  have hmaps : ∀ k ∈ Finset.range (rows.length + 1),
      nth next (k + 1) a ∈ rows.toFinset.image some := by
    intro k hk
    obtain ⟨b, hb⟩ := Option.ne_none_iff_exists'.mp (hsome (k + 1) (by simp at hk; omega))
    rw [hb]
    exact Finset.mem_image_of_mem some (List.mem_toFinset.mpr (nth_mem hw hb))
  have hcard : (rows.toFinset.image some).card < (Finset.range (rows.length + 1)).card := by
    have := (Finset.card_image_le (s := rows.toFinset) (f := some)).trans rows.toFinset_card_le
    simpa [Nat.lt_succ_iff] using this
  obtain ⟨i, hi, j, hj, hne, heq⟩ := Finset.exists_ne_map_eq_of_card_lt_of_maps_to hcard hmaps
  simp only [Finset.mem_range] at hi hj
  rcases Nat.lt_or_gt_of_ne hne with hlt | hlt
  · exact ⟨i + 1, j + 1, by omega, by omega, heq, hsome _ (by omega)⟩
  · exact ⟨j + 1, i + 1, by omega, by omega, heq.symm, hsome _ (by omega)⟩

theorem exists_earlier {i j : Nat} {a : α} (hij : i < j) (h : nth next i a = nth next j a)
    (k : Nat) : ∃ k', k' < j ∧ nth next k a = nth next k' a := by
  induction k using Nat.strongRecOn with
  | ind k ih =>
    by_cases hk : k < j
    · exact ⟨k, hk, rfl⟩
    · obtain ⟨k', hk', heq⟩ := ih (i + (k - j)) (by omega)
      refine ⟨k', hk', ?_⟩
      rw [← heq, nth_add, h, ← nth_add]
      congr 1
      omega

theorem ends_of_acyclic (hw : Within next rows) (hac : Acyclic next) (a : α) :
    Ends next a := by
  refine ⟨rows.length + 1, ?_⟩
  by_contra hne
  obtain ⟨i, j, hij, -, heq, hsome⟩ := exists_repeat hw hne
  obtain ⟨b, hb⟩ := Option.ne_none_iff_exists'.mp hsome
  obtain ⟨d, rfl⟩ : ∃ d, j = i + (d + 1) := ⟨j - i - 1, by omega⟩
  have hround : nth next (d + 1) b = some b := by
    rw [hb, nth_add, hb] at heq
    exact heq.symm
  obtain ⟨c, hc, hcb⟩ := Option.bind_eq_some_iff.mp hround
  exact hac b c hc ⟨d, hcb⟩

end Finite

/-- The loop `any(p(x) for x in walk)`: it stops at the first hit, and the fuel
is what a walk that never ends runs out of. -/
def search (next : α → Option α) (p : α → Bool) : Nat → α → Option Bool
  | 0, _ => none
  | fuel + 1, a =>
    if p a then some true
    else match next a with
      | none => some false
      | some b => search next p fuel b

variable {p : α → Bool}

theorem search_false {fuel : Nat} {a : α} (h : search next p fuel a = some false) :
    Ends next a ∧ ∀ b, Reaches next a b → p b = false := by
  induction fuel generalizing a with
  | zero => cases h
  | succ fuel ih =>
    rw [search] at h
    split at h
    · cases h
    · rename_i hpa
      cases hn : next a with
      | none =>
        refine ⟨⟨1, by simp [nth_succ, hn]⟩, fun b hab => ?_⟩
        obtain rfl | ⟨c, hc, -⟩ := reaches_iff.mp hab
        · simpa using hpa
        · simp [hn] at hc
      | some c =>
        obtain ⟨hends, hall⟩ := ih (by simpa [hn] using h)
        refine ⟨(Reaches.step hn).ends_iff.mpr hends, fun b hab => ?_⟩
        obtain rfl | ⟨d, hd, hdb⟩ := reaches_iff.mp hab
        · simpa using hpa
        · exact hall b (by simp_all)

def enough (rows : List α) : Nat := rows.length + 2

theorem repeats_of_steps {rows : List α} (hw : Within next rows) {a : α}
    (hsteps : ∀ k < enough rows, ∃ b, nth next k a = some b ∧ p b = false) :
    ¬ Ends next a ∧ ∀ b, Reaches next a b → p b = false := by
  obtain ⟨c, hc, -⟩ := hsteps (rows.length + 1) (by simp [enough])
  obtain ⟨i, j, hij, hj, heq, -⟩ := exists_repeat hw (a := a) (by simp [hc])
  have hvisited (k : Nat) : ∃ b, nth next k a = some b ∧ p b = false := by
    obtain ⟨k', hk', hkk'⟩ := exists_earlier hij heq k
    rw [hkk']
    exact hsteps k' (by simp only [enough]; omega)
  constructor
  · rintro ⟨k, hk⟩
    obtain ⟨b, hb, -⟩ := hvisited k
    simp [hk] at hb
  · rintro b ⟨k, hk⟩
    obtain ⟨b', hb', hp⟩ := hvisited k
    obtain rfl : b = b' := by simpa [hk] using hb'
    exact hp

/-- The elements `while a: yield a; a = next(a)` yields. -/
def trace (next : α → Option α) : Nat → α → Option (List α)
  | 0, _ => none
  | fuel + 1, a =>
    match next a with
    | none => some [a]
    | some b => (trace next fuel b).map (a :: ·)

theorem trace_isSome_iff {fuel : Nat} {a : α} :
    (∃ bs, trace next fuel a = some bs) ↔ nth next fuel a = none := by
  induction fuel generalizing a with
  | zero => simp [trace]
  | succ fuel ih =>
    rw [trace, nth_succ]
    cases hn : next a with
    | none => simp
    | some b => simpa using ih (a := b)

theorem mem_trace {fuel : Nat} {a b : α} {bs : List α} (h : trace next fuel a = some bs) :
    b ∈ bs ↔ Reaches next a b := by
  induction fuel generalizing a bs with
  | zero => cases h
  | succ fuel ih =>
    rw [trace] at h
    rw [reaches_iff]
    cases hn : next a with
    | none =>
      obtain rfl : [a] = bs := by simpa [hn] using h
      simp [eq_comm]
    | some c =>
      obtain ⟨cs, hcs, rfl⟩ := Option.map_eq_some_iff.mp (by simpa [hn] using h)
      simp [ih hcs, eq_comm]

theorem not_ends_of_cycle {a b : α} (h : next a = some b) (hba : Reaches next b a) :
    ¬ Ends next a := by
  obtain ⟨d, hd⟩ := hba
  have hround (m : Nat) : nth next (m * (d + 1)) a = some a := by
    induction m with
    | zero => simp
    | succ m ih =>
      rw [Nat.succ_mul, nth_add, ih, Option.bind_some, nth_succ, h]
      exact hd
  rintro ⟨k, hk⟩
  have hle : k ≤ k * (d + 1) := Nat.le_mul_of_pos_right k (Nat.succ_pos d)
  exact nomatch (hround k).symm.trans (nth_none_of_le hle hk)

theorem trace_nodup {fuel : Nat} {a : α} {bs : List α} (h : trace next fuel a = some bs) :
    bs.Nodup := by
  induction fuel generalizing a bs with
  | zero => cases h
  | succ fuel ih =>
    have hends : Ends next a := ⟨fuel + 1, trace_isSome_iff.mp ⟨bs, h⟩⟩
    rw [trace] at h
    cases hn : next a with
    | none =>
      obtain rfl : [a] = bs := by simpa [hn] using h
      exact List.nodup_singleton a
    | some c =>
      obtain ⟨cs, hcs, rfl⟩ := Option.map_eq_some_iff.mp (by simpa [hn] using h)
      refine List.nodup_cons.mpr ⟨fun ha => ?_, ih hcs⟩
      exact not_ends_of_cycle hn ((mem_trace hcs).mp ha) hends

theorem Ends.bound {rows : List α} (hw : Within next rows) {a : α} (h : Ends next a) :
    nth next (rows.length + 1) a = none := by
  by_contra hsome
  obtain ⟨i, j, hij, hj, heq, -⟩ := exists_repeat hw hsome
  obtain ⟨k, hk⟩ := h
  obtain ⟨k', hk', hkk'⟩ := exists_earlier hij heq k
  exact hsome (nth_none_of_le (hk'.le.trans hj) (hkk' ▸ hk))

theorem acyclic_iff_ends {rows : List α} (hw : Within next rows) :
    Acyclic next ↔ ∀ a, Ends next a :=
  ⟨ends_of_acyclic hw, fun h a _ hab hba => not_ends_of_cycle hab hba (h a)⟩

section Hom

variable {β : Type u} {next' : β → Option β} {f : α → β}
  (hf : ∀ a b, next a = some b → next' (f a) = some (f b))
include hf

theorem Reaches.map {a b : α} (h : Reaches next a b) : Reaches next' (f a) (f b) := by
  obtain ⟨k, hk⟩ := h
  induction k generalizing a with
  | zero =>
    obtain rfl : a = b := by simpa using hk
    exact .refl _
  | succ k ih =>
    obtain ⟨c, hc, hk⟩ := Option.bind_eq_some_iff.mp hk
    exact .head (hf a c hc) (ih hk)

theorem Acyclic.comap (h : Acyclic next') : Acyclic next :=
  fun a b hab hba => h (f a) (f b) (hf a b hab) (Reaches.map hf hba)

end Hom

section Rank

variable {rank : α → Nat}

theorem acyclic_of_rank (rank : α → Nat) (hrank : ∀ a b, next a = some b → rank a < rank b) :
    Acyclic next := by
  have hle {k : Nat} {a b : α} (h : nth next k a = some b) : rank a ≤ rank b := by
    induction k generalizing a with
    | zero =>
      obtain rfl : a = b := by simpa using h
      exact le_rfl
    | succ k ih =>
      obtain ⟨c, hc, h⟩ := Option.bind_eq_some_iff.mp h
      exact (hrank a c hc).le.trans (ih h)
  rintro a b hab ⟨k, hk⟩
  exact absurd (hle hk) (hrank a b hab).not_ge

end Rank

end Lib.Walk
