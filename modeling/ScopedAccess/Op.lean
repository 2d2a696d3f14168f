import ScopedAccess.Engine.Roles

namespace ScopedAccess

inductive Signal
  | assignmentGranted (assignment : AssignmentRow) (actor : Option User)
  | assignmentSuspended (assignment : AssignmentRow) (actor : Option User) (reason : String)
  | assignmentReactivated (assignment : AssignmentRow) (actor : Option User) (reason : String)
  | assignmentRevoked (assignment : AssignmentRow) (actor : Option User) (reason : String)
  | rolePermissionsChanged (role : Role) (added removed : List String) (actor : Option User)

inductive Invalidation
  | user (pk : Nat)
  | all

inductive Op (α : Type) : Type
  | pure (x : α)
  | abort (e : Abort)
  | world (k : World → Op α)
  | effective (u : User) (at_ : Option Time) (k : List Assignment → Op α)
  | valid (a : Assignment) (k : Bool → Op α)
  | save (t : Tables) (k : Op α)
  | invalidate (i : Invalidation) (k : Op α)
  | onCommit (i : Invalidation) (k : Op α)
  | send (s : Signal) (k : Op α)

namespace Op

variable {α β γ : Type}

def bind : Op α → (α → Op β) → Op β
  | .pure x, f => f x
  | .abort e, _ => .abort e
  | .world k, f => .world fun w => (k w).bind f
  | .effective u at_ k, f => .effective u at_ fun as => (k as).bind f
  | .valid a k, f => .valid a fun b => (k b).bind f
  | .save t k, f => .save t (k.bind f)
  | .invalidate i k, f => .invalidate i (k.bind f)
  | .onCommit i k, f => .onCommit i (k.bind f)
  | .send s k, f => .send s (k.bind f)

instance : Monad Op where
  pure := .pure
  bind := .bind

theorem bind_pure (p : Op α) : p.bind .pure = p := by
  induction p with
  | pure x => rfl
  | abort e => rfl
  | world k ih | effective u at_ k ih | valid a k ih => simp only [bind, ih]
  | save t k ih | invalidate i k ih | onCommit i k ih | send s k ih => simp only [bind, ih]

theorem bind_assoc (p : Op α) (f : α → Op β) (g : β → Op γ) :
    (p.bind f).bind g = p.bind fun x => (f x).bind g := by
  induction p with
  | pure x => rfl
  | abort e => rfl
  | world k ih | effective u at_ k ih | valid a k ih => simp only [bind, ih]
  | save t k ih | invalidate i k ih | onCommit i k ih | send s k ih => simp only [bind, ih]

instance : LawfulMonad Op := LawfulMonad.mk' Op bind_pure (fun _ _ => rfl) bind_assoc

def ofRead : Read α → Op α
  | .pure x => .pure x
  | .abort e => .abort e
  | .world k => .world fun w => ofRead (k w)
  | .effective u at_ k => .effective u at_ fun as => ofRead (k as)
  | .valid a k => .valid a fun b => ofRead (k b)

instance : MonadLift Read Op := ⟨ofRead⟩

def ofPy : Py α → Op α
  | .ok x => .pure x
  | .error e => .abort e

instance : MonadLift Py Op := ⟨ofPy⟩

def raise (cls : ExnClass) (message : String) : Op α := .abort (.raised ⟨cls, message⟩)

def ask : Op World := .world .pure

def write (rows : TableRows) : Op Unit := do
  let t ← rows.commit
  .save t (.pure ())

def invalidateCache (i : Invalidation) : Op Unit := .invalidate i (.pure ())

def afterCommit (i : Invalidation) : Op Unit := .onCommit i (.pure ())

def emit (s : Signal) : Op Unit := .send s (.pure ())

end Op

def World.save (w : World) (t : Tables) : World := { w with tables := t }

namespace World

@[simp] theorem save_tables (w : World) (t : Tables) : (w.save t).tables = t := rfl
@[simp] theorem save_save (w : World) (t t' : Tables) : (w.save t).save t' = w.save t' := rfl
@[simp] theorem save_self (w : World) : w.save w.tables = w := rfl

end World

abbrev Receivers := Signal → Option Exn

def quiet : Receivers := fun _ => none

namespace Op

variable {α β : Type}

/-- The operation with no request cache, as its transaction leaves the world:
where it raises, everything is rolled back. -/
def run (receivers : Receivers) (w : World) : Op α → Py (α × World)
  | .pure x => .ok (x, w)
  | .abort e => .error e
  | .world k => (k w).run receivers w
  | .effective u at_ k =>
    match w.fetchEffective u (at_.getD w.now) with
    | .ok as => (k as).run receivers w
    | .error e => .error e
  | .valid a k =>
    match w.assignmentIsValid a with
    | .ok b => (k b).run receivers w
    | .error e => .error e
  | .save t k => k.run receivers (w.save t)
  | .invalidate _ k => k.run receivers w
  | .onCommit _ k => k.run receivers w
  | .send s k =>
    match receivers s with
    | none => k.run receivers w
    | some e => .error (.raised e)

variable {rc : Receivers} {w w' : World}

theorem run_bind (p : Op α) (f : α → Op β) :
    (p >>= f).run rc w = p.run rc w >>= fun r => (f r.1).run rc r.2 := by
  change (p.bind f).run rc w = _
  induction p generalizing w with
  | pure x => rfl
  | abort e => rfl
  | world k ih => exact ih w
  | effective u at_ k ih =>
    simp only [bind, run]
    cases w.fetchEffective u (at_.getD w.now) with
    | error e => rfl
    | ok as => exact ih as
  | valid a k ih =>
    simp only [bind, run]
    cases w.assignmentIsValid a with
    | error e => rfl
    | ok b => exact ih b
  | save t k ih => exact ih
  | invalidate i k ih => exact ih
  | onCommit i k ih => exact ih
  | send s k ih =>
    simp only [bind, run]
    cases rc s with
    | some e => rfl
    | none => exact ih

theorem run_bind_ok {p : Op α} {f : α → Op β} {y : β} :
    (p >>= f).run rc w = .ok (y, w') ↔
      ∃ x v, p.run rc w = .ok (x, v) ∧ (f x).run rc v = .ok (y, w') := by
  rw [run_bind, Lib.Loop.bind_eq_ok]
  simp

@[simp] theorem run_pure (x : α) : (Pure.pure x : Op α).run rc w = .ok (x, w) := rfl

@[simp] theorem run_ask : ask.run rc w = .ok (w, w) := rfl

@[simp] theorem run_raise (cls : ExnClass) (message : String) :
    (raise cls message : Op α).run rc w = .error (.raised ⟨cls, message⟩) := rfl

@[simp] theorem run_ofRead (p : Read α) :
    (ofRead p).run rc w = (p.run w).map fun x => (x, w) := by
  induction p with
  | pure x => rfl
  | abort e => rfl
  | world k ih => exact ih w
  | effective u at_ k ih =>
    simp only [ofRead, run, Read.run]
    cases w.fetchEffective u (at_.getD w.now) with
    | error e => rfl
    | ok as => exact ih as
  | valid a k ih =>
    simp only [ofRead, run, Read.run]
    cases w.assignmentIsValid a with
    | error e => rfl
    | ok b => exact ih b

theorem run_read_ok {p : Read α} {x : α} :
    (liftM p : Op α).run rc w = .ok (x, w') ↔ p.run w = .ok x ∧ w' = w := by
  change (ofRead p).run rc w = _ ↔ _
  rw [run_ofRead]
  cases p.run w with
  | error e => simp [Except.map]
  | ok y => simp [Except.map, eq_comm]

theorem run_py_ok {p : Py α} {x : α} :
    (liftM p : Op α).run rc w = .ok (x, w') ↔ p = .ok x ∧ w' = w := by
  cases p with
  | error e => simp [liftM, monadLift, MonadLift.monadLift, ofPy, run]
  | ok y => simp [liftM, monadLift, MonadLift.monadLift, ofPy, run, eq_comm]

theorem run_write_ok {rows : TableRows} {x : Unit} :
    (write rows).run rc w = .ok (x, w') ↔ ∃ t : Tables, t.toTableRows = rows ∧ w' = w.save t := by
  rw [write, run_bind_ok]
  simp only [run_py_ok]
  constructor
  · rintro ⟨t, v, ⟨ht, rfl⟩, h⟩
    obtain ⟨-, rfl⟩ : x = () ∧ v.save t = w' := by simpa [run] using h
    exact ⟨t, TableRows.commit_ok ht, rfl⟩
  · rintro ⟨t, rfl, rfl⟩
    exact ⟨t, w, ⟨t.commit_self, rfl⟩, rfl⟩

@[simp] theorem run_invalidateCache (i : Invalidation) :
    (invalidateCache i).run rc w = .ok ((), w) := rfl

@[simp] theorem run_afterCommit (i : Invalidation) :
    (afterCommit i).run rc w = .ok ((), w) := rfl

theorem run_emit_ok {s : Signal} {x : Unit} :
    (emit s).run rc w = .ok (x, w') ↔ rc s = none ∧ w' = w := by
  cases h : rc s <;> simp [emit, run, h, eq_comm]

theorem run_frame {p : Op α} {x : α} (h : p.run rc w = .ok (x, w')) :
    ∃ t, w' = w.save t := by
  induction p generalizing w with
  | pure y =>
    obtain ⟨-, rfl⟩ : y = x ∧ w = w' := by simpa [run] using h
    exact ⟨w.tables, rfl⟩
  | abort e => cases h
  | world k ih => exact ih w h
  | effective u at_ k ih =>
    simp only [run] at h
    cases has : w.fetchEffective u (at_.getD w.now) with
    | error e => simp [has] at h
    | ok as => exact ih as (by simpa [has] using h)
  | valid a k ih =>
    simp only [run] at h
    cases hb : w.assignmentIsValid a with
    | error e => simp [hb] at h
    | ok b => exact ih b (by simpa [hb] using h)
  | save t k ih =>
    obtain ⟨t', rfl⟩ := ih h
    exact ⟨t', rfl⟩
  | invalidate i k ih => exact ih h
  | onCommit i k ih => exact ih h
  | send s k ih =>
    simp only [run] at h
    cases hs : rc s with
    | some e => simp [hs] at h
    | none => exact ih (by simpa [hs] using h)

def after (receivers : Receivers) (w : World) (p : Op α) : World :=
  match p.run receivers w with
  | .ok (_, w') => w'
  | .error _ => w

theorem after_ok {p : Op α} {x : α} (h : p.run rc w = .ok (x, w')) : p.after rc w = w' := by
  rw [after, h]

theorem after_frame (p : Op α) : ∃ t, p.after rc w = w.save t := by
  cases h : p.run rc w with
  | ok r => exact after_ok h ▸ run_frame h
  | error e => exact ⟨w.tables, by rw [after, h]; rfl⟩

theorem run_of_isOk (rc : Receivers) {p : Op α} (h : (p.run rc w).isOk) :
    ∃ x, p.run rc w = .ok (x, p.after rc w) := by
  obtain ⟨⟨x, w'⟩, hrun⟩ := Lib.Loop.isOk_iff.mp h
  exact ⟨x, by rw [after_ok hrun, hrun]⟩

end Op

end ScopedAccess
