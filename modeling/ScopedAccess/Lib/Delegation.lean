import Mathlib.Data.Set.Basic

/-! Authority over parts of a structure: what a grant reaches, what a request
asks about, and how authority is handed on.  A principal who may hand on only
what they hold, and only where they hold it, creates none. -/

universe u v w

namespace Lib.Delegation

variable {α : Type u}

inductive Region (α : Type u)
  | everything
  | nodes (X : Set α)

/-- What a request is about: an object outside the structure, an element, an
object that should have an element but has none, or one nobody may see. -/
inductive Target (α : Type u)
  | everywhere
  | node (x : α)
  | nowhere
  | hidden

def Region.Covers : Region α → Target α → Prop
  | _, .hidden => False
  | .everything, _ => True
  | .nodes _, .everywhere => True
  | .nodes X, .node x => x ∈ X
  | .nodes _, .nowhere => False

instance : LE (Region α) where
  le
    | _, .everything => True
    | .everything, .nodes _ => False
    | .nodes X, .nodes Y => X ⊆ Y

namespace Region

@[simp] theorem le_everything (R : Region α) : R ≤ .everything := trivial

@[simp] theorem nodes_le_nodes {X Y : Set α} : nodes X ≤ nodes Y ↔ X ⊆ Y := Iff.rfl

theorem le_trans {R S T : Region α} (hRS : R ≤ S) (hST : S ≤ T) : R ≤ T := by
  cases T with
  | everything => trivial
  | nodes Z =>
    cases S with
    | everything => exact hST.elim
    | nodes Y =>
      cases R with
      | everything => exact hRS.elim
      | nodes X => exact Set.Subset.trans hRS hST

theorem Covers.mono {R S : Region α} {t : Target α} (hRS : R ≤ S) (h : R.Covers t) :
    S.Covers t := by
  cases S with
  | everything => cases t <;> simp_all [Covers]
  | nodes Y =>
    cases R with
    | everything => exact hRS.elim
    | nodes X =>
      cases t with
      | node x => exact hRS h
      | everywhere => trivial
      | nowhere => exact h
      | hidden => exact h

end Region

/-- Which principal holds which permission over which region. -/
abbrev Authority (κ : Type v) (π : Type w) (α : Type u) := κ → π → Region α → Prop

namespace Authority

variable {κ : Type v} {π : Type w}

def Holds (A : Authority κ π α) (u : κ) (p : π) (t : Target α) : Prop :=
  ∃ R, A u p R ∧ R.Covers t

def Backs (A : Authority κ π α) (c : κ) (p : π) (R : Region α) : Prop :=
  ∃ S, A c p S ∧ R ≤ S

theorem Backs.holds {A : Authority κ π α} {c : κ} {p : π} {R : Region α} {t : Target α}
    (h : A.Backs c p R) (ht : R.Covers t) : A.Holds c p t := by
  obtain ⟨S, hS, hRS⟩ := h
  exact ⟨S, hS, ht.mono hRS⟩

theorem Backs.trans {A : Authority κ π α} {c : κ} {p : π} {R S : Region α} (hRS : R ≤ S)
    (h : A.Backs c p S) : A.Backs c p R := by
  obtain ⟨T, hT, hST⟩ := h
  exact ⟨T, hT, Region.le_trans hRS hST⟩

/-- All authority of `A'` was there in `A` or is backed by one of `C` in `A`. -/
def Delegates (C : Set κ) (A A' : Authority κ π α) : Prop :=
  ∀ u p R, A' u p R → A u p R ∨ ∃ c ∈ C, A.Backs c p R

variable {C : Set κ} {A A' A'' : Authority κ π α}

theorem Delegates.of_le (h : ∀ u p R, A' u p R → A u p R) : Delegates C A A' :=
  fun u p R hR => .inl (h u p R hR)

theorem Delegates.refl : Delegates C A A := .of_le fun _ _ _ h => h

theorem Delegates.mono {D : Set κ} (h : Delegates C A A') (hCD : C ⊆ D) : Delegates D A A' := by
  intro u p R hR
  rcases h u p R hR with hR | ⟨c, hc, hback⟩
  · exact .inl hR
  · exact .inr ⟨c, hCD hc, hback⟩

theorem Delegates.trans (h : Delegates C A A') (h' : Delegates C A' A'') :
    Delegates C A A'' := by
  intro u p R hR
  rcases h' u p R hR with hR | ⟨c, hc, S, hS, hRS⟩
  · exact h u p R hR
  · rcases h c p S hS with hS | ⟨d, hd, hback⟩
    · exact .inr ⟨c, hc, S, hS, hRS⟩
    · exact .inr ⟨d, hd, hback.trans hRS⟩

theorem Delegates.holds (h : Delegates C A A') {u : κ} {p : π} {t : Target α}
    (hu : A'.Holds u p t) : A.Holds u p t ∨ ∃ c ∈ C, A.Holds c p t := by
  obtain ⟨R, hR, ht⟩ := hu
  rcases h u p R hR with hR | ⟨c, hc, hback⟩
  · exact .inl ⟨R, hR, ht⟩
  · exact .inr ⟨c, hc, hback.holds ht⟩

end Authority

end Lib.Delegation
