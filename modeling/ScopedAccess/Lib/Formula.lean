import Mathlib.Data.List.Basic

universe u v

namespace Lib

inductive Formula (α : Type u) (β : Type v)
  | leaf (a : α)
  | other (b : β)
  | and (f g : Formula α β)
  | or (f g : Formula α β)
  | not (f : Formula α β)
  deriving DecidableEq

namespace Formula

variable {α : Type u} {β : Type v}

def leaves : Formula α β → List α
  | leaf a => [a]
  | other _ => []
  | and f g | or f g => f.leaves ++ g.leaves
  | not f => f.leaves

inductive Within (e : Formula α β) : Formula α β → Prop
  | self : Within e e
  | andLeft {f g : Formula α β} (h : Within e f) : Within e (and f g)
  | andRight {f g : Formula α β} (h : Within e g) : Within e (and f g)
  | orLeft {f g : Formula α β} (h : Within e f) : Within e (or f g)
  | orRight {f g : Formula α β} (h : Within e g) : Within e (or f g)
  | not {f : Formula α β} (h : Within e f) : Within e (not f)

def isChoice : Formula α β → Bool
  | or .. | not _ => true
  | _ => false

/-- Some leaf lies below a disjunction or a negation. -/
def Mixed (f : Formula α β) : Prop := ∃ e a, e.isChoice ∧ Within e f ∧ Within (leaf a) e

variable {a : α} {b : β} {e f g : Formula α β}

def Holds (leafs : α → Prop) (others : β → Prop) : Formula α β → Prop
  | leaf a => leafs a
  | other b => others b
  | and f g => f.Holds leafs others ∧ g.Holds leafs others
  | or f g => f.Holds leafs others ∨ g.Holds leafs others
  | not f => ¬ f.Holds leafs others

theorem mem_leaves : a ∈ f.leaves ↔ Within (leaf a) f := by
  constructor
  · intro h
    induction f with
    | leaf a' =>
      obtain rfl := List.mem_singleton.mp h
      exact .self
    | other b => cases h
    | and f g ihf ihg =>
      rcases List.mem_append.mp h with h | h
      · exact .andLeft (ihf h)
      · exact .andRight (ihg h)
    | or f g ihf ihg =>
      rcases List.mem_append.mp h with h | h
      · exact .orLeft (ihf h)
      · exact .orRight (ihg h)
    | not f ih => exact .not (ih h)
  · intro h
    induction h with
    | self => exact List.mem_singleton_self a
    | andLeft _ ih | orLeft _ ih => exact List.mem_append_left _ ih
    | andRight _ ih | orRight _ ih => exact List.mem_append_right _ ih
    | not _ ih => exact ih

theorem leaves_ne_nil : f.leaves ≠ [] ↔ ∃ a, Within (leaf a) f := by
  simp only [← mem_leaves, ne_eq, List.eq_nil_iff_forall_not_mem, not_forall, not_not]

@[simp] theorem not_mixed_leaf : ¬ (leaf a : Formula α β).Mixed := by
  rintro ⟨e, _, hchoice, he, -⟩
  cases he
  cases hchoice

@[simp] theorem not_mixed_other : ¬ (other b : Formula α β).Mixed := by
  rintro ⟨e, _, hchoice, he, -⟩
  cases he
  cases hchoice

@[simp] theorem mixed_and : (and f g).Mixed ↔ f.Mixed ∨ g.Mixed := by
  constructor
  · rintro ⟨e, a, hchoice, he, ha⟩
    cases he with
    | self => cases hchoice
    | andLeft he => exact .inl ⟨e, a, hchoice, he, ha⟩
    | andRight he => exact .inr ⟨e, a, hchoice, he, ha⟩
  · rintro (⟨e, a, hchoice, he, ha⟩ | ⟨e, a, hchoice, he, ha⟩)
    · exact ⟨e, a, hchoice, .andLeft he, ha⟩
    · exact ⟨e, a, hchoice, .andRight he, ha⟩

theorem Within.trans {d : Formula α β} (hde : Within d e) (hef : Within e f) : Within d f := by
  induction hef with
  | self => exact hde
  | andLeft _ ih => exact .andLeft ih
  | andRight _ ih => exact .andRight ih
  | orLeft _ ih => exact .orLeft ih
  | orRight _ ih => exact .orRight ih
  | not _ ih => exact .not ih

theorem mixed_choice (h : f.isChoice) : f.Mixed ↔ f.leaves ≠ [] := by
  rw [leaves_ne_nil]
  constructor
  · rintro ⟨e, a, -, he, ha⟩
    exact ⟨a, ha.trans he⟩
  · rintro ⟨a, ha⟩
    exact ⟨f, a, h, .self, ha⟩

@[simp] theorem mixed_or : (or f g).Mixed ↔ f.leaves ++ g.leaves ≠ [] := mixed_choice rfl

@[simp] theorem mixed_not : (not f).Mixed ↔ f.leaves ≠ [] := mixed_choice rfl

theorem leaves_of_mixed (h : f.Mixed) : f.leaves ≠ [] := by
  obtain ⟨e, a, -, he, ha⟩ := h
  exact leaves_ne_nil.mpr ⟨a, ha.trans he⟩

theorem holds_leaves {holds : Formula α β → Prop}
    (hand : ∀ f g, holds (and f g) ↔ holds f ∧ holds g) (hpure : ¬ f.Mixed) (h : holds f) :
    ∀ a ∈ f.leaves, holds (leaf a) := by
  induction f with
  | leaf a =>
    intro a' ha'
    obtain rfl := List.mem_singleton.mp ha'
    exact h
  | other b => simp [leaves]
  | and f g ihf ihg =>
    rw [mixed_and, not_or] at hpure
    obtain ⟨hf, hg⟩ := (hand f g).mp h
    exact List.forall_mem_append.mpr ⟨ihf hpure.1 hf, ihg hpure.2 hg⟩
  | or f g => simp [leaves, not_not.mp (mixed_or.not.mp hpure)]
  | not f => simp [leaves, not_not.mp (mixed_not.not.mp hpure)]

end Formula

end Lib
