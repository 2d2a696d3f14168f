import Mathlib.Data.List.Basic
import Mathlib.Logic.Function.Basic

/-! Edits of shared data that are a transaction's own until it commits, and exclusive locks
that it keeps as long.  Savepoints nest. -/

namespace Lib.Locks

variable {K E W A : Type}

/-- What edits do, what the constraints let through, and what lies under a key. -/
structure Theory (K E W A : Type) where
  apply : E → W → W
  fits : W → Bool
  part : K → W → A
  touches : E → List K
  frame {k : K} {e : E} (w : W) : k ∉ touches e → part k (apply e w) = part k w
  local_ {k : K} {w w' : W} (e : E) : part k w = part k w' → part k (apply e w) = part k (apply e w')

/-- What a block of a transaction has done, the newest first, and the locks it has taken. -/
structure Block (K E : Type) where
  edits : List E := []
  locks : List K := []

structure Db (K E W : Type) where
  committed : W
  blocks : Nat → List (Block K E) := fun _ => []

inductive Change (K E : Type)
  | none
  | enter
  | leave
  | undo
  | lock (k : K)
  | write (locks : List K) (e : E)

variable (T : Theory K E W A)

def Theory.replay (es : List E) (w : W) : W := es.foldr T.apply w

theorem Theory.replay_frame {k : K} {es : List E} (h : ∀ e ∈ es, k ∉ T.touches e) (w : W) :
    T.part k (T.replay es w) = T.part k w := by
  induction es with
  | nil => rfl
  | cons e es ih =>
    obtain ⟨he, hes⟩ := List.forall_mem_cons.mp h
    exact (T.frame _ he).trans (ih hes)

theorem Theory.replay_local {k : K} {w w' : W} (es : List E) (h : T.part k w = T.part k w') :
    T.part k (T.replay es w) = T.part k (T.replay es w') := by
  induction es with
  | nil => exact h
  | cons e es ih => exact T.local_ e ih

namespace Db

variable (d : Db K E W) (t : Nat)

def pending : List E := (d.blocks t).flatMap Block.edits

def held : List K := (d.blocks t).flatMap Block.locks

def visible : W := T.replay (d.pending t) d.committed

def Free (k : K) : Prop := ∀ t' ≠ t, k ∉ d.held t'

def setBlocks (bs : List (Block K E)) : Db K E W :=
  { d with blocks := Function.update d.blocks t bs }

@[simp] theorem blocks_setBlocks (bs : List (Block K E)) (t' : Nat) :
    (d.setBlocks t bs).blocks t' = if t' = t then bs else d.blocks t' := by
  simp [setBlocks, Function.update_apply]

def enter : Db K E W := d.setBlocks t ({} :: d.blocks t)

def undo : Db K E W := d.setBlocks t (d.blocks t).tail

def commit (es : List E) : W :=
  if T.fits (T.replay es d.committed) then T.replay es d.committed else d.committed

def leave : Db K E W :=
  match d.blocks t with
  | [] => d
  | [B] => { committed := d.commit T B.edits, blocks := Function.update d.blocks t [] }
  | B :: B' :: bs => d.setBlocks t (⟨B.edits ++ B'.edits, B.locks ++ B'.locks⟩ :: bs)

/-- Outside a block a lock is gone with its statement. -/
def lock (ks : List K) : Db K E W :=
  match d.blocks t with
  | [] => d
  | B :: bs => d.setBlocks t ({ B with locks := ks ++ B.locks } :: bs)

def push (e : E) : Db K E W :=
  match d.blocks t with
  | [] => { d with committed := d.commit T [e] }
  | B :: bs => d.setBlocks t ({ B with edits := e :: B.edits } :: bs)

def run : Change K E → Db K E W
  | .none => d
  | .enter => d.enter t
  | .leave => d.leave T t
  | .undo => d.undo t
  | .lock k => d.lock t [k]
  | .write ks e => (d.lock t ks).push T t e

end Db

variable {T} {d : Db K E W} {t t' : Nat} {k : K} {c : Change K E}

theorem Db.blocks_run (h : t' ≠ t) : (d.run T t' c).blocks t = d.blocks t := by
  have hlock (ks : List K) : (d.lock t' ks).blocks t = d.blocks t := by
    unfold lock
    split
    · rfl
    · rw [blocks_setBlocks, if_neg h.symm]
  cases c with
  | none => rfl
  | enter | undo => exact (blocks_setBlocks ..).trans (if_neg h.symm)
  | lock k => exact hlock [k]
  | leave =>
    simp only [run, leave]
    split
    · rfl
    · exact Function.update_of_ne h.symm _ _
    · rw [blocks_setBlocks, if_neg h.symm]
  | write ks e =>
    rw [run, push, ← hlock ks]
    split
    · rfl
    · rw [blocks_setBlocks, if_neg h.symm]

@[simp] theorem Db.committed_lock (ks : List K) : (d.lock t ks).committed = d.committed := by
  unfold lock
  split <;> rfl

theorem Db.lock_ne_nil {ks : List K} (hopen : d.blocks t ≠ []) : (d.lock t ks).blocks t ≠ [] := by
  unfold lock
  split
  · exact hopen
  · simp

theorem Db.mem_held_lock {ks : List K} (hopen : (d.lock t ks).blocks t ≠ [])
    (hk : k ∈ ks ∨ k ∈ d.held t) : k ∈ (d.lock t ks).held t := by
  unfold lock at hopen ⊢
  split at hopen
  · exact absurd ‹_› hopen
  · rename_i B bs hblocks
    rw [held, hblocks, List.flatMap_cons, List.mem_append] at hk
    simp only [held, blocks_setBlocks, if_true, List.flatMap_cons, List.mem_append]
    exact or_assoc.mpr hk

def Covered (T : Theory K E W A) : List (Block K E) → Prop
  | [] => True
  | B :: bs =>
    (∀ e ∈ B.edits, ∀ k ∈ T.touches e, k ∈ (B :: bs).flatMap Block.locks) ∧ Covered T bs

theorem Covered.pending {bs : List (Block K E)} (h : Covered T bs) :
    ∀ e ∈ bs.flatMap Block.edits, ∀ k ∈ T.touches e, k ∈ bs.flatMap Block.locks := by
  induction bs with
  | nil => simp
  | cons B bs ih =>
    intro e he k hk
    rw [List.flatMap_cons, List.mem_append] at he
    rcases he with he | he
    · exact h.1 e he k hk
    · rw [List.flatMap_cons]
      exact List.mem_append_right _ (ih h.2 e he k hk)

theorem Covered.tail {bs : List (Block K E)} (h : Covered T bs) : Covered T bs.tail := by
  cases bs with
  | nil => trivial
  | cons B bs => exact h.2

/-- No lock is held twice, and no edit waits for its commit without the lock. -/
structure Guarded (T : Theory K E W A) (d : Db K E W) : Prop where
  apart : ∀ {t t' k}, k ∈ d.held t → k ∈ d.held t' → t = t'
  covered : ∀ t, Covered T (d.blocks t)

theorem Guarded.start (h : ∀ t, d.blocks t = []) : Guarded T d where
  apart hk _ := by simp [Db.held, h] at hk
  covered t := by
    rw [h t]
    trivial

def Change.Allowed (T : Theory K E W A) (d : Db K E W) (t : Nat) : Change K E → Prop
  | .lock k => d.Free t k
  | .write ks e => (∀ k ∈ ks, d.Free t k) ∧ ∀ k ∈ T.touches e, k ∈ ks ∨ k ∈ d.held t
  | _ => True

namespace Guarded

theorem setBlocks (h : Guarded T d) {bs : List (Block K E)} (hcovered : Covered T bs)
    (hlocks : ∀ k ∈ bs.flatMap Block.locks, k ∈ d.held t ∨ d.Free t k) :
    Guarded T (d.setBlocks t bs) where
  apart := by
    have hnew {t' k} (hk : k ∈ bs.flatMap Block.locks) (hk' : k ∈ d.held t') : t = t' := by
      by_contra hne
      rcases hlocks k hk with hheld | hfree
      · exact hne (h.apart hheld hk')
      · exact hfree t' (Ne.symm hne) hk'
    intro t₁ t₂ k h₁ h₂
    simp only [Db.held, Db.blocks_setBlocks] at h₁ h₂
    split at h₁ <;> split at h₂
    · exact ‹t₁ = t›.trans ‹t₂ = t›.symm
    · exact ‹t₁ = t› ▸ hnew h₁ h₂
    · exact ‹t₂ = t› ▸ (hnew h₂ h₁).symm
    · exact h.apart h₁ h₂
  covered t' := by
    rw [Db.blocks_setBlocks]
    split
    · exact hcovered
    · exact h.covered t'

theorem of_blocks {d' : Db K E W} (h : Guarded T d) (hblocks : d'.blocks = d.blocks) :
    Guarded T d' where
  apart hk hk' := h.apart (by rwa [Db.held, ← hblocks]) (by rwa [Db.held, ← hblocks])
  covered t := hblocks ▸ h.covered t

theorem lock (h : Guarded T d) {ks : List K} (hfree : ∀ k ∈ ks, d.Free t k) :
    Guarded T (d.lock t ks) := by
  unfold Db.lock
  split
  · exact h
  · rename_i B bs hblocks
    have hcovered := h.covered t
    rw [hblocks] at hcovered
    refine h.setBlocks ⟨fun e he k hk => ?_, hcovered.2⟩ fun k hk => ?_
    · have hmem := hcovered.1 e he k hk
      simp only [List.flatMap_cons, List.mem_append] at hmem ⊢
      exact hmem.imp_left .inr
    · simp only [List.flatMap_cons, List.mem_append] at hk
      rw [Db.held, hblocks, List.flatMap_cons, List.mem_append]
      rcases hk with (hk | hk) | hk
      · exact .inr (hfree k hk)
      · exact .inl (.inl hk)
      · exact .inl (.inr hk)

theorem push (h : Guarded T d) {e : E}
    (hheld : d.blocks t ≠ [] → ∀ k ∈ T.touches e, k ∈ d.held t) : Guarded T (d.push T t e) := by
  unfold Db.push
  split
  · exact h.of_blocks rfl
  · rename_i B bs hblocks
    have hcovered := h.covered t
    rw [hblocks] at hcovered
    refine h.setBlocks ⟨fun e' he' k hk => ?_, hcovered.2⟩ fun k hk => ?_
    · rcases List.mem_cons.mp he' with rfl | he'
      · have hmem := hheld (by simp [hblocks]) k hk
        rwa [Db.held, hblocks] at hmem
      · exact hcovered.1 e' he' k hk
    · exact .inl (by rwa [Db.held, hblocks])

theorem leave (h : Guarded T d) : Guarded T (d.leave T t) := by
  unfold Db.leave
  split
  · exact h
  · exact of_blocks (d := d.setBlocks t []) (h.setBlocks trivial (by simp)) rfl
  · rename_i B B' bs hblocks
    have hcovered := h.covered t
    rw [hblocks] at hcovered
    refine h.setBlocks ⟨fun e he k hk => ?_, hcovered.2.2⟩ fun k hk => .inl ?_
    · rw [List.flatMap_cons, List.append_assoc]
      rcases List.mem_append.mp he with he | he
      · exact hcovered.1 e he k hk
      · exact List.mem_append_right _ (hcovered.2.1 e he k hk)
    · rw [Db.held, hblocks]
      simpa only [List.flatMap_cons, List.append_assoc] using hk

theorem run (h : Guarded T d) (hc : c.Allowed T d t) : Guarded T (d.run T t c) := by
  cases c with
  | none => exact h
  | enter =>
    have hcovered : Covered T ({} :: d.blocks t) := ⟨by simp, h.covered t⟩
    refine h.setBlocks hcovered fun k hk => .inl ?_
    simpa [Db.held] using hk
  | leave => exact h.leave
  | undo =>
    refine h.setBlocks (h.covered t).tail fun k hk => .inl ?_
    obtain ⟨B, hB, hkB⟩ := List.mem_flatMap.mp hk
    exact List.mem_flatMap.mpr ⟨B, List.mem_of_mem_tail hB, hkB⟩
  | lock k => exact h.lock fun k' hk' => List.mem_singleton.mp hk' ▸ hc
  | write ks e => exact (h.lock hc.1).push fun hopen k hk => Db.mem_held_lock hopen (hc.2 k hk)

theorem not_touched (h : Guarded T d) (hne : t' ≠ t) (hk : k ∈ d.held t) {e : E}
    (he : e ∈ d.pending t') : k ∉ T.touches e :=
  fun htouch => hne (h.apart ((h.covered t').pending e he k htouch) hk)

theorem part_commit {es : List E} (h : ∀ e ∈ es, k ∉ T.touches e) :
    T.part k (d.commit T es) = T.part k d.committed := by
  unfold Db.commit
  split
  · exact T.replay_frame h _
  · rfl

theorem part_run (h : Guarded T d) (hc : c.Allowed T d t') (hk : k ∈ d.held t)
    (hk' : k ∈ (d.run T t' c).held t) :
    T.part k (d.run T t' c).committed = T.part k d.committed := by
  cases c with
  | none | enter | undo => rfl
  | lock k' => rw [Db.run, Db.committed_lock]
  | leave =>
    simp only [Db.run, Db.leave] at hk' ⊢
    split at hk'
    · rfl
    · rename_i B hblocks
      have hne : t' ≠ t := by
        rintro rfl
        simp [Db.held] at hk'
      refine part_commit fun e he => h.not_touched hne hk ?_
      rw [Db.pending, hblocks]
      simpa using he
    · rfl
  | write ks e =>
    simp only [Db.run, Db.push]
    split
    · rename_i hblocks
      have hclosed : d.blocks t' = [] := by
        by_contra hopen
        exact (Db.lock_ne_nil hopen) hblocks
      have hnone : d.held t' = [] := by rw [Db.held, hclosed, List.flatMap_nil]
      have hne : t' ≠ t := by
        rintro rfl
        simp [hnone] at hk
      refine (part_commit fun e' he' htouch => ?_).trans (congrArg _ (Db.committed_lock ks))
      obtain rfl := List.mem_singleton.mp he'
      rcases hc.2 k htouch with hmem | hheld
      · exact hc.1 k hmem t (Ne.symm hne) hk
      · simp [hnone] at hheld
    · exact congrArg _ (Db.committed_lock ks)

end Guarded

theorem Db.part_visible {d' : Db K E W} (hblocks : d'.blocks t = d.blocks t)
    (hpart : T.part k d'.committed = T.part k d.committed) :
    T.part k (d'.visible T t) = T.part k (d.visible T t) := by
  rw [visible, visible, pending, pending, hblocks]
  exact T.replay_local _ hpart

end Lib.Locks
