import ScopedAccess.Lib.Walk
import Mathlib.Data.List.Nodup

universe u v

namespace Lib.Chain

variable {α : Type u} {φ : Type v}

def follow (next : α → φ → Option α) : α → List φ → Option α
  | a, [] => some a
  | a, f :: fs => (next a f).bind (follow next · fs)

variable (last : α)

def head : List (α × φ) → α
  | [] => last
  | link :: _ => link.1

def Distinct (c : List (α × φ)) : Prop := (c.map Prod.fst).Nodup ∧ last ∉ c.map Prod.fst

variable {last} {c pre : List (α × φ)} {a b : α} {f : φ} {p : List φ}

theorem Distinct.right (h : Distinct last (pre ++ c)) : Distinct last c := by
  obtain ⟨hnodup, hlast⟩ := h
  rw [List.map_append] at hnodup hlast
  exact ⟨(List.nodup_append.mp hnodup).2.1, fun hmem => hlast (List.mem_append_right _ hmem)⟩

theorem Distinct.head_notMem (h : Distinct last (pre ++ c)) : head last c ∉ pre.map Prod.fst := by
  obtain ⟨hnodup, hlast⟩ := h
  rw [List.map_append] at hnodup hlast
  cases c with
  | nil => exact fun hmem => hlast (List.mem_append_left _ hmem)
  | cons link c =>
    intro hmem
    have hself : link.1 ∈ (link :: c).map Prod.fst := List.mem_map_of_mem (List.mem_cons_self ..)
    exact (List.nodup_append.mp hnodup).2.2 _ hmem link.1 hself rfl

variable [DecidableEq α] [DecidableEq φ]

variable (last) in
def next : List (α × φ) → α → φ → Option α
  | [], _, _ => none
  | link :: c, a, f => if a = link.1 ∧ f = link.2 then some (head last c) else next c a f

theorem next_eq_none (h : a ∉ c.map Prod.fst) : next last c a f = none := by
  induction c with
  | nil => rfl
  | cons link c ih =>
    rw [List.map_cons, List.mem_cons, not_or] at h
    rw [next, if_neg fun heq => h.1 heq.1, ih h.2]

theorem next_append (h : a ∉ pre.map Prod.fst) : next last (pre ++ c) a f = next last c a f := by
  induction pre with
  | nil => rfl
  | cons link pre ih =>
    rw [List.map_cons, List.mem_cons, not_or] at h
    rw [List.cons_append, next, if_neg fun heq => h.1 heq.1, ih h.2]

theorem next_head {link : α × φ} (h : Distinct last (link :: c)) :
    next last (link :: c) link.1 f = if f = link.2 then some (head last c) else none := by
  have hnot : link.1 ∉ c.map Prod.fst := (List.nodup_cons.mp h.1).1
  simp only [next, true_and, next_eq_none hnot]

theorem next_mem (h : next last c a f = some b) : a ∈ c.map Prod.fst := by
  by_contra hnot
  rw [next_eq_none hnot] at h
  cases h

theorem next_within (h : next last c a f = some b) : b = last ∨ b ∈ c.map Prod.fst := by
  induction c with
  | nil => cases h
  | cons link c ih =>
    rw [next] at h
    split at h
    · obtain rfl := Option.some.inj h
      cases c with
      | nil => exact .inl rfl
      | cons link' c => exact .inr (by simp [head])
    · exact (ih h).imp_right fun hmem => List.mem_cons_of_mem _ hmem

theorem follow_some (h : Distinct last (pre ++ c))
    (hp : follow (next last (pre ++ c)) (head last c) p = some b) :
    ∃ c₁ c₂, c = c₁ ++ c₂ ∧ p = c₁.map Prod.snd ∧ b = head last c₂ := by
  induction p generalizing pre c with
  | nil => exact ⟨[], c, rfl, rfl, (Option.some.inj hp).symm⟩
  | cons f p ih =>
    obtain ⟨a, ha, hp⟩ := Option.bind_eq_some_iff.mp hp
    rw [next_append h.head_notMem] at ha
    cases c with
    | nil => cases ha
    | cons link c =>
      rw [head, next_head h.right] at ha
      split at ha
      · rename_i hf
        obtain rfl := Option.some.inj ha
        have hsplit : pre ++ link :: c = (pre ++ [link]) ++ c := by simp
        rw [hsplit] at h hp
        obtain ⟨c₁, c₂, rfl, rfl, rfl⟩ := ih h hp
        exact ⟨link :: c₁, c₂, rfl, by rw [hf, List.map_cons], rfl⟩
      · cases ha

theorem follow_all (h : Distinct last (pre ++ c)) :
    follow (next last (pre ++ c)) (head last c) (c.map Prod.snd) = some last := by
  induction c generalizing pre with
  | nil => rfl
  | cons link c ih =>
    rw [List.map_cons, follow, next_append h.head_notMem, head, next_head h.right, if_pos rfl]
    have hsplit : pre ++ link :: c = (pre ++ [link]) ++ c := by simp
    rw [hsplit] at h ⊢
    exact ih h

theorem follow_whole (h : Distinct last c) :
    follow (next last c) (head last c) (c.map Prod.snd) = some last := by
  rw [← List.nil_append c] at h
  exact follow_all h

omit [DecidableEq φ] in
theorem idxOf_head (h : Distinct last (pre ++ c)) :
    ((pre ++ c).map Prod.fst).idxOf (head last c) = pre.length := by
  rw [List.map_append, List.idxOf_append_of_notMem h.head_notMem, List.length_map]
  cases c with
  | nil => simp
  | cons link c => simp [head]

theorem acyclic (h : Distinct last c) {step : α → Option α}
    (hstep : ∀ a b, step a = some b → ∃ p ≠ [], follow (next last c) a p = some b) :
    Walk.Acyclic step := by
  refine Walk.acyclic_of_rank (c.map Prod.fst).idxOf fun a b hab => ?_
  obtain ⟨p, hp, hfollow⟩ := hstep a b hab
  obtain ⟨f, p, rfl⟩ := List.exists_cons_of_ne_nil hp
  obtain ⟨a', ha', -⟩ := Option.bind_eq_some_iff.mp hfollow
  obtain ⟨link, hlink, rfl⟩ := List.mem_map.mp (next_mem ha')
  obtain ⟨pre, rest, rfl⟩ := List.append_of_mem hlink
  have hhead : head last (link :: rest) = link.1 := rfl
  rw [← hhead] at hfollow ⊢
  obtain ⟨c₁, c₂, hc, hlabels, rfl⟩ := follow_some h hfollow
  obtain ⟨link', c₁, rfl⟩ : ∃ link' c₁', c₁ = link' :: c₁' := by
    cases c₁ with
    | nil => cases hlabels
    | cons link' c₁ => exact ⟨link', c₁, rfl⟩
  have hlater : Distinct last ((pre ++ link' :: c₁) ++ c₂) := by
    rw [List.append_assoc, ← hc]
    exact h
  have hto := idxOf_head hlater
  rw [List.append_assoc, ← hc] at hto
  rw [idxOf_head h, hto]
  simp

end Lib.Chain
