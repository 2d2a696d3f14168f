import Mathlib.Logic.Function.Basic

namespace Lib

structure Memo (κ β : Type) where
  lookup : κ → Option β

namespace Memo

variable {κ β ε : Type} [DecidableEq κ]

def empty : Memo κ β := ⟨fun _ => none⟩

def insert (m : Memo κ β) (k : κ) (b : β) : Memo κ β := ⟨Function.update m.lookup k (some b)⟩

def erase (m : Memo κ β) (k : κ) : Memo κ β := ⟨Function.update m.lookup k none⟩

def read (m : Memo κ β) (k : κ) (answer : Except ε β) : Except ε β × Memo κ β :=
  match m.lookup k, answer with
  | some b, _ => (.ok b, m)
  | none, .ok b => (.ok b, m.insert k b)
  | none, .error e => (.error e, m)

def Agrees (m : Memo κ β) (f : κ → Except ε β) : Prop :=
  ∀ k b, m.lookup k = some b → f k = .ok b

variable {m : Memo κ β} {f g : κ → Except ε β}

omit [DecidableEq κ] in
theorem agrees_empty : (empty : Memo κ β).Agrees f := nofun

theorem Agrees.insert (h : m.Agrees f) {k : κ} {b : β} (hb : f k = .ok b) :
    (m.insert k b).Agrees f := by
  intro k' b' hb'
  by_cases hk : k' = k
  · subst hk
    simp only [Memo.insert, Function.update_self, Option.some.injEq] at hb'
    exact hb' ▸ hb
  · simp only [Memo.insert, Function.update_of_ne hk] at hb'
    exact h k' b' hb'

theorem Agrees.erase (h : m.Agrees f) (k : κ) : (m.erase k).Agrees f := by
  intro k' b hb
  by_cases hk : k' = k
  · subst hk
    simp [Memo.erase] at hb
  · simp only [Memo.erase, Function.update_of_ne hk] at hb
    exact h k' b hb

omit [DecidableEq κ] in
theorem Agrees.congr (h : m.Agrees f) (hfg : ∀ k, g k = f k) : m.Agrees g :=
  fun k b hb => (hfg k).trans (h k b hb)

theorem Agrees.read_fst (h : m.Agrees f) (k : κ) : (m.read k (f k)).1 = f k := by
  unfold read
  cases hm : m.lookup k with
  | some b => exact (h k b hm).symm
  | none => cases f k <;> rfl

theorem Agrees.read_snd (h : m.Agrees f) (k : κ) : (m.read k (f k)).2.Agrees f := by
  unfold read
  cases hm : m.lookup k with
  | some b => exact h
  | none =>
    cases hf : f k with
    | error e => exact h
    | ok b => exact h.insert hf

end Memo

end Lib
