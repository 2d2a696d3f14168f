import Mathlib.Logic.Function.Basic

/-! Rows under transactions: what a transaction has written is its own until it commits,
and no other one writes there meanwhile.  Savepoints nest. -/

namespace Lib.Txn

/-- What a block of a transaction would leave, and the changes that made it, the newest
first. -/
structure Level (R E : Type) where
  rows : Nat → Option R := fun _ => none
  done : List (Nat × E) := []

structure Db (R E : Type) where
  committed : Nat → Option R
  /-- The open blocks of each transaction, the innermost first. -/
  levels : Nat → List (Level R E) := fun _ => []
  journal : List (Nat × E) := []

variable {R E : Type}

def changesOf (key : Nat) (done : List (Nat × E)) : List E :=
  done.filterMap fun c => if c.1 = key then some c.2 else none

@[simp] theorem changesOf_append (key : Nat) (done done' : List (Nat × E)) :
    changesOf key (done ++ done') = changesOf key done ++ changesOf key done' :=
  List.filterMap_append

theorem changesOf_cons (key : Nat) (c : Nat × E) (done : List (Nat × E)) :
    changesOf key (c :: done) =
      if c.1 = key then c.2 :: changesOf key done else changesOf key done := by
  rw [changesOf, List.filterMap_cons]
  split <;> rename_i h <;> split at h <;> simp_all [changesOf]

namespace Db

variable (d : Db R E) (t key : Nat)

def top : Level R E := (d.levels t).headD {}

def view (L : Level R E) (key : Nat) : Option R := (L.rows key).or (d.committed key)

def visible : Option R := d.view (d.top t) key

def Free : Prop := ∀ t' ≠ t, ∀ L ∈ d.levels t', L.rows key = none

def setLevels (ls : List (Level R E)) : Db R E :=
  { d with levels := Function.update d.levels t ls }

def enter : Db R E := d.setLevels t (d.top t :: d.levels t)

def undo : Db R E := d.setLevels t (d.levels t).tail

def leave : Db R E :=
  match d.levels t with
  | [] => d
  | [L] =>
    { committed := d.view L
      levels := Function.update d.levels t []
      journal := L.done ++ d.journal }
  | L :: _ :: ls => d.setLevels t (L :: ls)

/-- A row is written inside a block, or at once. -/
def write (r : R) (e : E) : Db R E :=
  match d.levels t with
  | [] =>
    { d with
      committed := Function.update d.committed key (some r)
      journal := (key, e) :: d.journal }
  | L :: ls =>
    d.setLevels t ({ rows := Function.update L.rows key (some r), done := (key, e) :: L.done } :: ls)

theorem levels_setLevels (ls : List (Level R E)) (t' : Nat) :
    (d.setLevels t ls).levels t' = if t' = t then ls else d.levels t' := by
  simp [setLevels, Function.update_apply]

end Db

inductive Path (step : Option R → E → R → Prop) : Option R → List E → Option R → Prop
  | nil {r : Option R} : Path step r [] r
  | cons {r r' : Option R} {es : List E} {e : E} {x : R} (h : Path step r es r')
      (hstep : step r' e x) : Path step r (e :: es) (some x)

theorem Path.append {step : Option R → E → R → Prop} {r r' r'' : Option R} {es es' : List E}
    (h : Path step r es r') (h' : Path step r' es' r'') : Path step r (es' ++ es) r'' := by
  induction h' with
  | nil => exact h
  | cons _ hstep ih => exact .cons ih hstep

theorem Path.append_inv {step : Option R → E → R → Prop} {r r'' : Option R} {es es' : List E}
    (h : Path step r (es' ++ es) r'') : ∃ r', Path step r es r' ∧ Path step r' es' r'' := by
  induction es' generalizing r'' with
  | nil => exact ⟨r'', h, .nil⟩
  | cons e es' ih =>
    cases h with
    | cons h hstep =>
      obtain ⟨r', hold, hnew⟩ := ih h
      exact ⟨r', hold, .cons hnew hstep⟩

theorem Path.unique {step : Option R → E → R → Prop}
    (hstep : ∀ r e x x', step r e x → step r e x' → x = x') {r r' r'' : Option R} {es : List E}
    (h : Path step r es r') (h' : Path step r es r'') : r' = r'' := by
  induction h generalizing r'' with
  | nil =>
    cases h'
    rfl
  | cons _ hs ih =>
    cases h' with
    | cons h' hs' =>
      obtain rfl := ih h'
      rw [hstep _ _ _ _ hs hs']

variable {d : Db R E} {t key : Nat}

theorem Db.top_mem_or (d : Db R E) (t : Nat) : d.top t ∈ d.levels t ∨ d.top t = {} := by
  unfold top
  cases d.levels t with
  | nil => exact .inr rfl
  | cons L ls => exact .inl (List.mem_cons_self ..)

theorem Db.mem_setLevels {ls : List (Level R E)} (hls : ∀ L ∈ ls, L ∈ d.levels t ∨ L = {})
    {t' : Nat} {L : Level R E} (hL : L ∈ (d.setLevels t ls).levels t') :
    L ∈ d.levels t' ∨ L = {} := by
  rw [Db.levels_setLevels] at hL
  split at hL
  · rename_i heq
    exact heq ▸ hls L hL
  · exact .inl hL

theorem Db.mem_replaced {L L₀ : Level R E} {ls : List (Level R E)} (hlevels : d.levels t = L :: ls)
    {t' : Nat} {L' : Level R E} (hL : L' ∈ (d.setLevels t (L₀ :: ls)).levels t') :
    L' ∈ d.levels t' ∨ t' = t ∧ L' = L₀ := by
  rw [Db.levels_setLevels] at hL
  split at hL
  · rename_i heq
    subst heq
    rcases List.mem_cons.mp hL with rfl | hL
    · exact .inr ⟨rfl, rfl⟩
    · exact .inl (hlevels ▸ List.mem_cons_of_mem _ hL)
  · exact .inl hL

theorem Db.mem_closed {t' : Nat} {L : Level R E} (hL : L ∈ Function.update d.levels t [] t') :
    t' ≠ t ∧ L ∈ d.levels t' := by
  rw [Function.update_apply] at hL
  split at hL
  · cases hL
  · rename_i hne
    exact ⟨hne, hL⟩

theorem Db.mem_merged {L L' L'' : Level R E} {ls : List (Level R E)}
    (hlevels : d.levels t = L :: L' :: ls) (hL : L'' ∈ L :: ls) : L'' ∈ d.levels t := by
  rw [hlevels]
  rcases List.mem_cons.mp hL with rfl | hL
  · exact List.mem_cons_self ..
  · exact List.mem_cons_of_mem _ (List.mem_cons_of_mem _ hL)

variable {step : Option R → E → R → Prop} {base : Nat → Option R}

/-- What is committed came about by the journal, and what is not by the changes of its block. -/
structure Serial (step : Option R → E → R → Prop) (base : Nat → Option R) (d : Db R E) : Prop where
  exclusive : ∀ t, ∀ L ∈ d.levels t, ∀ key, L.rows key ≠ none → d.Free t key
  pending : ∀ t, ∀ L ∈ d.levels t, ∀ key,
    Path step (d.committed key) (changesOf key L.done) (d.view L key)
  untouched : ∀ t, ∀ L ∈ d.levels t, ∀ key, L.rows key = none → changesOf key L.done = []
  journal : ∀ key, Path step (base key) (changesOf key d.journal) (d.committed key)

theorem Serial.start (hlevels : ∀ t, d.levels t = []) (hjournal : d.journal = []) :
    Serial step d.committed d where
  exclusive t L hL := by simp [hlevels t] at hL
  pending t L hL := by simp [hlevels t] at hL
  untouched t L hL := by simp [hlevels t] at hL
  journal key := by
    rw [hjournal]
    exact .nil

theorem Db.free_of_sub {ls : List (Level R E)} {t' : Nat} (hfree : d.Free t' key)
    (hls : t ≠ t' → ∀ L ∈ ls, L.rows key = none) : (d.setLevels t ls).Free t' key := by
  intro t'' hne L hL
  rw [Db.levels_setLevels] at hL
  split at hL
  · rename_i heq
    exact hls (heq ▸ hne) L hL
  · exact hfree t'' hne L hL

theorem Serial.setLevels (h : Serial step base d) {ls : List (Level R E)}
    (hls : ∀ L ∈ ls, L ∈ d.levels t ∨ L = {}) : Serial step base (d.setLevels t ls) := by
  refine ⟨fun t' L hL key hrow => ?_, fun t' L hL key => ?_, fun t' L hL key hrow => ?_, h.journal⟩
  · rcases Db.mem_setLevels hls hL with hL | rfl
    · refine Db.free_of_sub (h.exclusive t' L hL key hrow) fun hne L' hL' => ?_
      rcases hls L' hL' with hL' | rfl
      · exact h.exclusive t' L hL key hrow t hne L' hL'
      · rfl
    · exact absurd rfl hrow
  · rcases Db.mem_setLevels hls hL with hL | rfl
    · exact h.pending t' L hL key
    · exact .nil
  · rcases Db.mem_setLevels hls hL with hL | rfl
    · exact h.untouched t' L hL key hrow
    · rfl

theorem Serial.enter (h : Serial step base d) (t : Nat) : Serial step base (d.enter t) := by
  refine h.setLevels fun L hL => ?_
  rcases List.mem_cons.mp hL with rfl | hL
  · exact d.top_mem_or t
  · exact .inl hL

theorem Serial.undo (h : Serial step base d) (t : Nat) : Serial step base (d.undo t) :=
  h.setLevels fun _ hL => .inl (List.mem_of_mem_tail hL)

theorem Serial.leave (h : Serial step base d) (t : Nat) : Serial step base (d.leave t) := by
  unfold Db.leave
  split
  · exact h
  · rename_i L hlevels
    have hmem : L ∈ d.levels t := hlevels ▸ List.mem_singleton_self L
    refine ⟨fun t' L' hL key hrow t'' hne L'' hL'' => ?_, fun t' L' hL key => ?_,
      fun t' L' hL => ?_, fun key => ?_⟩
    · exact h.exclusive t' L' (Db.mem_closed hL).2 key hrow t'' hne L'' (Db.mem_closed hL'').2
    · obtain ⟨hne, hL⟩ := Db.mem_closed hL
      have hpending := h.pending t' L' hL key
      cases hrow : L'.rows key with
      | none =>
        rw [h.untouched t' L' hL key hrow]
        simp only [Db.view, hrow, Option.none_or]
        exact .nil
      | some r =>
        have hfree := h.exclusive t' L' hL key (by simp [hrow]) t hne.symm L hmem
        simpa only [Db.view, hrow, hfree, Option.none_or] using hpending
    · exact h.untouched t' L' (Db.mem_closed hL).2
    · rw [changesOf_append]
      exact (h.journal key).append (h.pending t L hmem key)
  · rename_i L L' ls hlevels
    exact h.setLevels fun L'' hL => .inl (Db.mem_merged hlevels hL)

theorem Serial.write (h : Serial step base d) {r : R} {e : E} (hfree : d.Free t key)
    (hstep : step (d.visible t key) e r) : Serial step base (d.write t key r e) := by
  unfold Db.write
  unfold Db.visible Db.top at hstep
  split
  · rename_i hlevels
    rw [hlevels] at hstep
    have hnone {t' : Nat} {L : Level R E} (hL : L ∈ d.levels t') : L.rows key = none := by
      by_cases heq : t' = t
      · rw [heq, hlevels] at hL
        cases hL
      · exact hfree t' heq L hL
    refine ⟨h.exclusive, fun t' L hL key' => ?_, h.untouched, fun key' => ?_⟩
    · have hpending := h.pending t' L hL key'
      by_cases heq : key' = key
      · subst heq
        rw [h.untouched t' L hL key' (hnone hL)]
        simp only [Db.view, hnone hL, Option.none_or]
        exact .nil
      · simpa only [Db.view, Function.update_of_ne heq] using hpending
    · rw [changesOf_cons]
      by_cases heq : key = key'
      · subst heq
        simp only [if_true, Function.update_self]
        exact .cons (h.journal key) hstep
      · simp only [heq, if_false, Function.update_of_ne (Ne.symm heq)]
        exact h.journal key'
  · rename_i L ls hlevels
    rw [hlevels] at hstep
    have hmem : L ∈ d.levels t := hlevels ▸ List.mem_cons_self ..
    refine ⟨fun t' L' hL key' hrow t'' hne L'' hL'' => ?_, fun t' L' hL key' => ?_,
      fun t' L' hL key' hrow => ?_, h.journal⟩
    · rcases Db.mem_replaced hlevels hL with hmem' | ⟨rfl, rfl⟩ <;>
        rcases Db.mem_replaced hlevels hL'' with hmem'' | ⟨rfl, rfl⟩
      · exact h.exclusive t' L' hmem' key' hrow t'' hne L'' hmem''
      · by_cases heq : key' = key
        · subst heq
          exact absurd (hfree t' (Ne.symm hne) L' hmem') hrow
        · simp only [Function.update_of_ne heq]
          exact h.exclusive t' L' hmem' key' hrow t'' hne L hmem
      · by_cases heq : key' = key
        · subst heq
          exact hfree t'' hne L'' hmem''
        · simp only [Function.update_of_ne heq] at hrow
          exact h.exclusive t' L hmem key' hrow t'' hne L'' hmem''
      · exact absurd rfl hne
    · rcases Db.mem_replaced hlevels hL with hL | ⟨rfl, rfl⟩
      · exact h.pending t' L' hL key'
      · have hpending := h.pending t' L hmem key'
        rw [changesOf_cons]
        by_cases heq : key = key'
        · subst heq
          simp only [Db.view, if_true, Function.update_self, Option.some_or]
          exact .cons hpending hstep
        · simp only [heq, if_false, Db.view, Function.update_of_ne (Ne.symm heq)]
          exact hpending
    · rcases Db.mem_replaced hlevels hL with hL | ⟨rfl, rfl⟩
      · exact h.untouched t' L' hL key' hrow
      · have hne : key' ≠ key := fun heq => by simp [heq] at hrow
        simp only [Function.update_of_ne hne] at hrow
        rw [changesOf_cons, if_neg (Ne.symm hne)]
        exact h.untouched t' L hmem key' hrow

structure Db.All (row : Nat → R → Prop) (change : Nat × E → Prop) (d : Db R E) : Prop where
  committed : ∀ key r, d.committed key = some r → row key r
  journal : ∀ c ∈ d.journal, change c
  rows : ∀ t, ∀ L ∈ d.levels t, ∀ key r, L.rows key = some r → row key r
  done : ∀ t, ∀ L ∈ d.levels t, ∀ c ∈ L.done, change c

namespace Db.All

variable {row row' : Nat → R → Prop} {change change' : Nat × E → Prop}

theorem mono (h : d.All row change) (hrow : ∀ key r, row key r → row' key r)
    (hchange : ∀ c, change c → change' c) : d.All row' change' where
  committed key r hr := hrow key r (h.committed key r hr)
  journal c hc := hchange c (h.journal c hc)
  rows t L hL key r hr := hrow key r (h.rows t L hL key r hr)
  done t L hL c hc := hchange c (h.done t L hL c hc)

theorem setLevels (h : d.All row change) {ls : List (Level R E)}
    (hrows : ∀ L ∈ ls, ∀ key r, L.rows key = some r → row key r)
    (hdone : ∀ L ∈ ls, ∀ c ∈ L.done, change c) : (d.setLevels t ls).All row change := by
  refine ⟨h.committed, h.journal, fun t' L hL => ?_, fun t' L hL => ?_⟩ <;>
    rw [Db.levels_setLevels] at hL <;> split at hL
  · exact hrows L hL
  · exact h.rows t' L hL
  · exact hdone L hL
  · exact h.done t' L hL

theorem top (h : d.All row change) (t : Nat) :
    (∀ key r, (d.top t).rows key = some r → row key r) ∧ ∀ c ∈ (d.top t).done, change c := by
  rcases d.top_mem_or t with hmem | htop
  · exact ⟨h.rows t _ hmem, h.done t _ hmem⟩
  · rw [htop]
    constructor
    · intro _ _ hr
      cases hr
    · intro _ hc
      cases hc

theorem visible (h : d.All row change) {r : R} (hr : d.visible t key = some r) : row key r := by
  rcases Option.or_eq_some_iff.mp hr with hr | ⟨-, hr⟩
  · exact (h.top t).1 key r hr
  · exact h.committed key r hr

theorem enter (h : d.All row change) (t : Nat) : (d.enter t).All row change := by
  refine h.setLevels (fun L hL => ?_) fun L hL => ?_ <;> rcases List.mem_cons.mp hL with rfl | hL
  · exact (h.top t).1
  · exact h.rows t L hL
  · exact (h.top t).2
  · exact h.done t L hL

theorem undo (h : d.All row change) (t : Nat) : (d.undo t).All row change :=
  h.setLevels (fun L hL => h.rows t L (List.mem_of_mem_tail hL))
    fun L hL => h.done t L (List.mem_of_mem_tail hL)

theorem leave (h : d.All row change) (t : Nat) : (d.leave t).All row change := by
  unfold Db.leave
  split
  · exact h
  · rename_i L hlevels
    have hmem : L ∈ d.levels t := hlevels ▸ List.mem_singleton_self L
    refine ⟨fun key r hr => ?_, fun c hc => ?_, fun t' L' hL => h.rows t' L' (Db.mem_closed hL).2,
      fun t' L' hL => h.done t' L' (Db.mem_closed hL).2⟩
    · rcases Option.or_eq_some_iff.mp hr with hr | ⟨-, hr⟩
      · exact h.rows t L hmem key r hr
      · exact h.committed key r hr
    · exact (List.mem_append.mp hc).elim (h.done t L hmem c) (h.journal c)
  · rename_i L L' ls hlevels
    exact h.setLevels (fun L'' hL => h.rows t L'' (Db.mem_merged hlevels hL))
      fun L'' hL => h.done t L'' (Db.mem_merged hlevels hL)

theorem write (h : d.All row change) {r : R} {e : E} (hrow : row key r) (hchange : change (key, e)) :
    (d.write t key r e).All row change := by
  unfold Db.write
  split
  · refine ⟨fun key' r' hr => ?_, fun c hc => ?_, h.rows, h.done⟩
    · simp only [Function.update_apply] at hr
      split at hr
      · rename_i heq
        rw [heq, ← Option.some.inj hr]
        exact hrow
      · exact h.committed key' r' hr
    · rcases List.mem_cons.mp hc with rfl | hc
      · exact hchange
      · exact h.journal c hc
  · rename_i L ls hlevels
    have hmem : L ∈ d.levels t := hlevels ▸ List.mem_cons_self ..
    refine h.setLevels (fun L' hL => ?_) fun L' hL => ?_ <;>
      rcases List.mem_cons.mp hL with rfl | hL
    · intro key' r' hr
      simp only [Function.update_apply] at hr
      split at hr
      · rename_i heq
        rw [heq, ← Option.some.inj hr]
        exact hrow
      · exact h.rows t L hmem key' r' hr
    · exact h.rows t L' (hlevels ▸ List.mem_cons_of_mem _ hL)
    · intro c hc
      rcases List.mem_cons.mp hc with rfl | hc
      · exact hchange
      · exact h.done t L hmem c hc
    · exact h.done t L' (hlevels ▸ List.mem_cons_of_mem _ hL)

end Db.All

theorem Db.leave_journal (d : Db R E) (t : Nat) : d.journal <:+ (d.leave t).journal := by
  unfold leave
  split
  · exact List.suffix_rfl
  · exact List.suffix_append _ _
  · exact List.suffix_rfl

theorem Db.write_journal (d : Db R E) (t key : Nat) (r : R) (e : E) :
    d.journal <:+ (d.write t key r e).journal := by
  unfold write
  split
  · exact List.suffix_cons _ _
  · exact List.suffix_rfl

def RowsApart (clash : R → R → Prop) (rows : Nat → Option R) : Prop :=
  ∀ key key' r r', key ≠ key' → rows key = some r → rows key' = some r' → ¬ clash r r'

/-- No two rows clash that a transaction sees, or that two transactions have written. -/
structure Unique (clash : R → R → Prop) (d : Db R E) : Prop where
  committed : RowsApart clash d.committed
  own : ∀ t, ∀ L ∈ d.levels t, RowsApart clash (d.view L)
  cross : ∀ t t', t ≠ t' → ∀ L ∈ d.levels t, ∀ L' ∈ d.levels t', ∀ key key' r r', key ≠ key' →
    L.rows key = some r → L'.rows key' = some r' → ¬ clash r r'

variable {clash : R → R → Prop}

theorem Unique.start (hlevels : ∀ t, d.levels t = []) (hcommitted : RowsApart clash d.committed) :
    Unique clash d where
  committed := hcommitted
  own t L hL := by simp [hlevels t] at hL
  cross t t' _ L hL := by simp [hlevels t] at hL

theorem Unique.setLevels (h : Unique clash d) {ls : List (Level R E)}
    (hls : ∀ L ∈ ls, L ∈ d.levels t ∨ L = {}) : Unique clash (d.setLevels t ls) := by
  refine ⟨h.committed, fun t' L hL => ?_, fun t' t'' hne L hL L' hL' key key' r r' hkey hr hr' => ?_⟩
  · rcases Db.mem_setLevels hls hL with hL | rfl
    · exact h.own t' L hL
    · exact h.committed
  · rcases Db.mem_setLevels hls hL with hmem | rfl
    · rcases Db.mem_setLevels hls hL' with hmem' | rfl
      · exact h.cross t' t'' hne L hmem L' hmem' key key' r r' hkey hr hr'
      · cases hr'
    · cases hr

theorem Unique.enter (h : Unique clash d) (t : Nat) : Unique clash (d.enter t) := by
  refine h.setLevels fun L hL => ?_
  rcases List.mem_cons.mp hL with rfl | hL
  · exact d.top_mem_or t
  · exact .inl hL

theorem Unique.undo (h : Unique clash d) (t : Nat) : Unique clash (d.undo t) :=
  h.setLevels fun _ hL => .inl (List.mem_of_mem_tail hL)

theorem Unique.leave (h : Unique clash d) (hsymm : ∀ r r', clash r r' → clash r' r) (t : Nat) :
    Unique clash (d.leave t) := by
  unfold Db.leave
  split
  · exact h
  · rename_i L hlevels
    have hmem : L ∈ d.levels t := hlevels ▸ List.mem_singleton_self L
    refine ⟨h.own t L hmem, fun t' L' hL key key' r r' hkey hr hr' => ?_,
      fun t' t'' hne L' hL L'' hL'' =>
        h.cross t' t'' hne L' (Db.mem_closed hL).2 L'' (Db.mem_closed hL'').2⟩
    obtain ⟨hne, hL⟩ := Db.mem_closed hL
    have hown := h.own t' L' hL key key' r r' hkey
    have hcross := h.cross t' t hne L' hL L hmem
    have hcommit := h.own t L hmem key key' r r' hkey
    -- a row is one of the transaction still open, or of the one that commits, or an old one
    simp only [Db.view, Option.or_eq_some_iff] at hr hr' hown hcommit
    rcases hr with hr | ⟨hnone, hr | ⟨hnone₂, hr⟩⟩ <;>
      rcases hr' with hr' | ⟨hnone', hr' | ⟨hnone₂', hr'⟩⟩
    · exact hown (.inl hr) (.inl hr')
    · exact hcross key key' r r' hkey hr hr'
    · exact hown (.inl hr) (.inr ⟨hnone', hr'⟩)
    · exact fun hclash => hcross key' key r' r hkey.symm hr' hr (hsymm r r' hclash)
    · exact hcommit (.inl hr) (.inl hr')
    · exact hcommit (.inl hr) (.inr ⟨hnone₂', hr'⟩)
    · exact hown (.inr ⟨hnone, hr⟩) (.inl hr')
    · exact hcommit (.inr ⟨hnone₂, hr⟩) (.inl hr')
    · exact hcommit (.inr ⟨hnone₂, hr⟩) (.inr ⟨hnone₂', hr'⟩)
  · rename_i L L' ls hlevels
    exact h.setLevels fun L'' hL => .inl (Db.mem_merged hlevels hL)

theorem Unique.view_top (h : Unique clash d) (t : Nat) : RowsApart clash (d.visible t) := by
  rcases d.top_mem_or t with hmem | htop
  · exact h.own t _ hmem
  · unfold Db.visible
    rw [htop]
    exact h.committed

theorem Db.view_level (d : Db R E) (L : Level R E) (key : Nat) (r : R) (done : List (Nat × E)) :
    d.view { rows := Function.update L.rows key (some r), done } =
      Function.update (d.view L) key (some r) := by
  funext k
  by_cases hk : k = key
  · subst hk
    simp [Db.view]
  · simp [Db.view, Function.update_of_ne hk]

theorem Db.view_committed (d : Db R E) {L : Level R E} (hnone : L.rows key = none) (r : R)
    (journal : List (Nat × E)) :
    view { d with committed := Function.update d.committed key (some r), journal } L =
      Function.update (d.view L) key (some r) := by
  funext k
  by_cases hk : k = key
  · subst hk
    simp [Db.view, hnone]
  · simp [Db.view, Function.update_of_ne hk]

theorem Unique.write (h : Unique clash d) (hsymm : ∀ r r', clash r r' → clash r' r) {r : R} {e : E}
    (hfree : d.Free t key)
    (hvisible : ∀ key' r', key' ≠ key → d.visible t key' = some r' → ¬ clash r r')
    (hwritten : ∀ t' ≠ t, ∀ L ∈ d.levels t', ∀ key' r', key' ≠ key → L.rows key' = some r' →
      ¬ clash r r') : Unique clash (d.write t key r e) := by
  have hrow {f : Nat → Option R} (hf : RowsApart clash f)
      (hclash : ∀ key' r', key' ≠ key → f key' = some r' → ¬ clash r r') :
      RowsApart clash (Function.update f key (some r)) := by
    intro k k' x x' hk hx hx'
    by_cases hkey : k = key
    · subst hkey
      rw [Function.update_self] at hx
      rw [Function.update_of_ne hk.symm] at hx'
      obtain rfl := Option.some.inj hx
      exact hclash k' x' hk.symm hx'
    · rw [Function.update_of_ne hkey] at hx
      by_cases hkey' : k' = key
      · subst hkey'
        rw [Function.update_self] at hx'
        obtain rfl := Option.some.inj hx'
        exact fun hc => hclash k x hk hx (hsymm x r hc)
      · rw [Function.update_of_ne hkey'] at hx'
        exact hf k k' x x' hk hx hx'
  unfold Db.write
  unfold Db.visible Db.top at hvisible
  split
  · rename_i hlevels
    simp only [hlevels, List.headD_nil, Db.view, Option.none_or] at hvisible
    refine ⟨hrow h.committed hvisible, fun t' L hL => ?_, h.cross⟩
    have hne : t' ≠ t := fun heq => by simp [heq, hlevels] at hL
    rw [d.view_committed (hfree t' hne L hL)]
    refine hrow (h.own t' L hL) fun key' r' hkey hr' => ?_
    rcases Option.or_eq_some_iff.mp hr' with hr' | ⟨-, hr'⟩
    · exact hwritten t' hne L hL key' r' hkey hr'
    · exact hvisible key' r' hkey hr'
  · rename_i L ls hlevels
    simp only [hlevels, List.headD_cons] at hvisible
    have hmem : L ∈ d.levels t := hlevels ▸ List.mem_cons_self ..
    refine ⟨h.committed, fun t' L' hL => ?_, fun t' t'' hne L' hL L'' hL'' k k' x x' hk hx hx' => ?_⟩
    · rcases Db.mem_replaced hlevels hL with hL | ⟨rfl, rfl⟩
      · exact h.own t' L' hL
      · change RowsApart clash (d.view _)
        rw [d.view_level]
        exact hrow (h.own t' L hmem) hvisible
    · rcases Db.mem_replaced hlevels hL with hmem' | ⟨rfl, rfl⟩ <;>
        rcases Db.mem_replaced hlevels hL'' with hmem'' | ⟨rfl, rfl⟩
      · exact h.cross t' t'' hne L' hmem' L'' hmem'' k k' x x' hk hx hx'
      · by_cases hkey : k' = key
        · subst hkey
          simp only [Function.update_self] at hx'
          obtain rfl := Option.some.inj hx'
          exact fun hc => hwritten t' hne L' hmem' k x hk hx (hsymm x r hc)
        · simp only [Function.update_of_ne hkey] at hx'
          exact h.cross t' t'' hne L' hmem' L hmem k k' x x' hk hx hx'
      · by_cases hkey : k = key
        · subst hkey
          simp only [Function.update_self] at hx
          obtain rfl := Option.some.inj hx
          exact hwritten t'' hne.symm L'' hmem'' k' x' hk.symm hx'
        · simp only [Function.update_of_ne hkey] at hx
          exact h.cross t' t'' hne L hmem L'' hmem'' k k' x x' hk hx hx'
      · exact absurd rfl hne

theorem Unique.update (h : Unique clash d) (hsymm : ∀ r r', clash r r' → clash r' r) {r r₀ : R}
    {e : E} (hfree : d.Free t key) (hr₀ : d.visible t key = some r₀)
    (hclash : ∀ r', clash r r' → clash r₀ r') : Unique clash (d.write t key r e) := by
  refine h.write hsymm hfree (fun key' r' hkey hr' hc => ?_) fun t' hne L hL key' r' hkey hr' hc => ?_
  · exact h.view_top t key key' r₀ r' hkey.symm hr₀ hr' (hclash r' hc)
  · have hview : d.view L key' = some r' := by simp [Db.view, hr']
    rcases Option.or_eq_some_iff.mp hr₀ with hr₀ | ⟨hnone, hr₀⟩
    · have hmem : d.top t ∈ d.levels t := by
        rcases d.top_mem_or t with hmem | htop
        · exact hmem
        · simp [htop] at hr₀
      exact h.cross t t' hne.symm _ hmem L hL key key' r₀ r' hkey.symm hr₀ hr' (hclash r' hc)
    · have hold : d.view L key = some r₀ := by simp [Db.view, hfree t' hne L hL, hr₀]
      exact h.own t' L hL key key' r₀ r' hkey.symm hold hview (hclash r' hc)

end Lib.Txn
