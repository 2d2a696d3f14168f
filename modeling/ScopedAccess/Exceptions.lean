/-! The exceptions of `exceptions.py`, with those of Python and Django that the
package catches or lets through. -/

namespace ScopedAccess

inductive ExnClass
  | valueError
  | typeError
  | keyError
  | attributeError
  | objectDoesNotExist
  | validationError
  | fieldError
  | fieldDoesNotExist
  | integrityError
  | protectedError
  | databaseError
  | invalidAssignmentTransitionError
  | assignmentDeletionError
  | roleManagementPermissionError
  | roleAssignmentError
  | roleOwnershipError
  | assignmentScopeError
  | assignmentManagementPermissionError
  | directRoleMutationError
  | directRolePermissionMutationError
  | directAssignmentMutationError
  | scopedAccessConfigError
  | improperlyConfigured
  | permissionDenied
  | methodNotAllowed
  deriving DecidableEq

structure Exn where
  cls : ExnClass
  message : String
  deriving DecidableEq

/-- How a call can fail to return: it raises, or one of its loops never ends. -/
inductive Abort
  | raised (e : Exn)
  | diverges
  deriving DecidableEq

abbrev Py := Except Abort

@[simp] theorem pure_py {α : Type} (x : α) : (pure x : Py α) = .ok x := rfl

def throwing {α : Type} (cls : ExnClass) (message : String) : Py α :=
  .error (.raised ⟨cls, message⟩)

def ExnClass.isUnresolved : ExnClass → Bool
  | .objectDoesNotExist | .typeError | .valueError => true
  | .invalidAssignmentTransitionError | .roleAssignmentError => true
  | .roleOwnershipError | .assignmentScopeError => true
  | _ => false

/-- The value of a generic reference, or `None` where reading it raises one of
the exceptions above.  Every other exception goes through. -/
def orNone {α : Type} : Py (Option α) → Py (Option α)
  | .error (.raised e) => if e.cls.isUnresolved then .ok none else .error (.raised e)
  | outcome => outcome

@[simp] theorem orNone_ok {α : Type} (x : Option α) : orNone (.ok x) = .ok x := rfl

theorem orNone_some {α : Type} {outcome : Py (Option α)} {x : α}
    (h : orNone outcome = .ok (some x)) : outcome = .ok (some x) := by
  cases outcome with
  | ok y => exact h
  | error e =>
    cases e with
    | diverges => cases h
    | raised e => cases hu : e.cls.isUnresolved <;> simp [orNone, hu] at h

end ScopedAccess
