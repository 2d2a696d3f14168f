import ScopedAccess.Engine.Scope
import ScopedAccess.Lib.Loop

namespace ScopedAccess

inductive Read (α : Type) : Type
  | pure (x : α)
  | abort (e : Abort)
  | world (k : World → Read α)
  | effective (u : User) (at_ : Option Time) (k : List Assignment → Read α)
  | valid (a : Assignment) (k : Bool → Read α)

namespace Read

variable {α β γ : Type}

def bind : Read α → (α → Read β) → Read β
  | .pure x, f => f x
  | .abort e, _ => .abort e
  | .world k, f => .world fun w => (k w).bind f
  | .effective u at_ k, f => .effective u at_ fun as => (k as).bind f
  | .valid a k, f => .valid a fun b => (k b).bind f

instance : Monad Read where
  pure := .pure
  bind := .bind

theorem bind_pure (p : Read α) : p.bind .pure = p := by
  induction p with
  | pure x => rfl
  | abort e => rfl
  | world k ih => simp only [bind, ih]
  | effective u at_ k ih => simp only [bind, ih]
  | valid a k ih => simp only [bind, ih]

theorem bind_assoc (p : Read α) (f : α → Read β) (g : β → Read γ) :
    (p.bind f).bind g = p.bind fun x => (f x).bind g := by
  induction p with
  | pure x => rfl
  | abort e => rfl
  | world k ih => simp only [bind, ih]
  | effective u at_ k ih => simp only [bind, ih]
  | valid a k ih => simp only [bind, ih]

instance : LawfulMonad Read := LawfulMonad.mk' Read bind_pure (fun _ _ => rfl) bind_assoc

def ofPy : Py α → Read α
  | .ok x => .pure x
  | .error e => .abort e

instance : MonadLift Py Read := ⟨ofPy⟩

def ask : Read World := .world .pure

def effectiveAssignments (u : User) (at_ : Option Time) : Read (List Assignment) :=
  .effective u at_ .pure

def isValid (a : Assignment) : Read Bool := .valid a .pure

/-- The answer with no request cache: everything is read from the database. -/
def run (w : World) : Read α → Py α
  | .pure x => .ok x
  | .abort e => .error e
  | .world k => (k w).run w
  | .effective u at_ k =>
    match w.fetchEffective u (at_.getD w.now) with
    | .ok as => (k as).run w
    | .error e => .error e
  | .valid a k =>
    match w.assignmentIsValid a with
    | .ok b => (k b).run w
    | .error e => .error e

variable (w : World)

@[simp] theorem run_pure (x : α) : (Pure.pure x : Read α).run w = .ok x := rfl

@[simp] theorem run_bind (p : Read α) (f : α → Read β) :
    (p >>= f).run w = p.run w >>= fun x => (f x).run w := by
  change (p.bind f).run w = _
  induction p with
  | pure x => rfl
  | abort e => rfl
  | world k ih => exact ih w
  | effective u at_ k ih =>
    simp only [bind, run]
    cases w.fetchEffective u (at_.getD w.now) with
    | error e => rfl
    | ok as => exact ih as
  | valid a k ih =>
    simp only [bind, run]
    cases w.assignmentIsValid a with
    | error e => rfl
    | ok b => exact ih b

@[simp] theorem run_map (f : α → β) (p : Read α) : (f <$> p).run w = f <$> p.run w := by
  rw [← bind_pure_comp, run_bind, ← bind_pure_comp]
  rfl

@[simp] theorem run_ask : ask.run w = .ok w := rfl

@[simp] theorem run_liftPy (p : Py α) : (liftM p : Read α).run w = p := by
  cases p <;> rfl

@[simp] theorem run_effectiveAssignments (u : User) (at_ : Option Time) :
    (effectiveAssignments u at_).run w = w.fetchEffective u (at_.getD w.now) := by
  simp only [effectiveAssignments, run]
  cases w.fetchEffective u (at_.getD w.now) <;> rfl

@[simp] theorem run_isValid (a : Assignment) : (isValid a).run w = w.assignmentIsValid a := by
  simp only [isValid, run]
  cases w.assignmentIsValid a <;> rfl

@[simp] theorem run_ite (c : Prop) [Decidable c] (p q : Read α) :
    (if c then p else q).run w = if c then p.run w else q.run w := by
  split <;> rfl

@[simp] theorem run_anyM (p : α → Read Bool) (as : List α) :
    (as.anyM p).run w = as.anyM fun a => (p a).run w := by
  induction as with
  | nil => rfl
  | cons a as ih =>
    simp only [List.anyM_cons, run_bind]
    congr 1
    funext b
    cases b with
    | true => rfl
    | false => exact ih

@[simp] theorem run_allM (p : α → Read Bool) (as : List α) :
    (as.allM p).run w = as.allM fun a => (p a).run w := by
  induction as with
  | nil => rfl
  | cons a as ih =>
    simp only [List.allM, run_bind]
    congr 1
    funext b
    cases b with
    | true => exact ih
    | false => rfl

@[simp] theorem run_gather [DecidableEq β] (f : α → Read (Finset β)) (as : List α)
    (acc : Finset β) :
    (Lib.Loop.gather f as acc).run w = Lib.Loop.gather (fun a => (f a).run w) as acc := by
  induction as generalizing acc with
  | nil => rfl
  | cons a as ih =>
    simp only [Lib.Loop.gather, run_bind]
    congr 1
    funext t
    exact ih _

end Read

end ScopedAccess
