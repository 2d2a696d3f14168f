import Mathlib.Data.List.Infix

namespace Lib.Replay

variable {S E σ : Type*}

def replay (apply : S → E → S) (s : S) (es : List E) : S := es.foldl apply s

/-- One step of a run: the events it has logged, and where it led. -/
structure Entry (E σ : Type*) where
  events : List E
  next : σ

def events (run : List (Entry E σ)) : List E := run.flatMap Entry.events

def last : σ → List (Entry E σ) → σ
  | x, [] => x
  | _, e :: run => last e.next run

def Each (P : σ → Entry E σ → Prop) : σ → List (Entry E σ) → Prop
  | _, [] => True
  | x, e :: run => P x e ∧ Each P e.next run

section Laws

variable {apply : S → E → S} {view : σ → S} {P Q : σ → Entry E σ → Prop} {x : σ}
  {e : Entry E σ} {run : List (Entry E σ)}

@[simp] theorem replay_nil (s : S) : replay apply s [] = s := rfl

@[simp] theorem replay_cons (s : S) (ev : E) (es : List E) :
    replay apply s (ev :: es) = replay apply (apply s ev) es := rfl

theorem replay_append (s : S) (es es' : List E) :
    replay apply s (es ++ es') = replay apply (replay apply s es) es' :=
  List.foldl_append

theorem each_and : Each (fun x e => P x e ∧ Q x e) x run ↔ Each P x run ∧ Each Q x run := by
  induction run generalizing x with
  | nil => simp [Each]
  | cons e run ih =>
    simp only [Each, ih]
    tauto

/-- The events lead where the step does. -/
def Exact (apply : S → E → S) (view : σ → S) (x : σ) (e : Entry E σ) : Prop :=
  replay apply (view x) e.events = view e.next

def Faithful (apply : S → E → S) (view : σ → S) (x : σ) (run : List (Entry E σ)) : Prop :=
  replay apply (view x) (events run) = view (last x run)

theorem faithful_cons (h : Exact apply view x e) :
    Faithful apply view x (e :: run) ↔ Faithful apply view e.next run := by
  simp only [Faithful, events, List.flatMap_cons, replay_append, last]
  rw [show replay apply (view x) e.events = view e.next from h]

theorem faithful_iff_exact :
    (∀ n, Faithful apply view x (run.take n)) ↔ Each (Exact apply view) x run := by
  induction run generalizing x with
  | nil => simp [Faithful, events, last, Each]
  | cons e run ih =>
    constructor
    · intro h
      have hexact : Exact apply view x e := by simpa [Faithful, events, last, Exact] using h 1
      exact ⟨hexact, ih.mp fun n => (faithful_cons hexact).mp (h (n + 1))⟩
    · rintro ⟨hexact, hrest⟩ n
      cases n with
      | zero => rfl
      | succ n => exact (faithful_cons hexact).mpr (ih.mpr hrest n)

end Laws

end Lib.Replay
