import ScopedAccess.Models

/-! The parsed configuration (`conf.py`), and the state a request sees: the
site, its clock, the host's rows and the package's tables. -/

namespace ScopedAccess

inductive GrantPolicy
  | self
  | any
  | explicit (labels : List String)
  | callable (policy : User → Role → String → Option Time → Bool)

structure Site where
  schema : Schema
  hierarchy : Hierarchy
  resources : ResourceRegistry
  roleOwnerLevels : List String := []
  grantablePermissions : GrantPolicy := .self
  strictRegistration : Bool := false
  roleApp : String := "scoped_access"
  assignmentApp : String := "scoped_access"

structure World where
  site : Site
  db : Database site.schema
  now : Time
  tables : Tables

namespace World

variable (w : World)

/-- A generic reference read from the database: the referred row as stored. -/
def genericObj (ct : Option Ct) (id : Option String) : Py (Option Obj) :=
  match w.db.generic ct id with
  | .ok found => .ok (found.map Obj.stored)
  | .error e => .error e

def loadRole (r : RoleRow) : Role where
  pk := some r.id
  name := r.name
  description := r.description
  ownerLevel := r.ownerLevel
  ownerCt := r.ownerCt
  ownerId := r.ownerId
  createdAt := some r.createdAt
  owner := w.genericObj r.ownerCt r.ownerId
  perms := w.tables.roleLabels r.id

/-- `objects.get(pk=...)`: the scope is read when it is asked for. -/
def loadAssignment (a : AssignmentRow) : Option Assignment :=
  (w.tables.role a.role).map fun r =>
    ⟨a, w.loadRole r, w.db.generic a.scopeCt a.scopeId⟩

section Loaded

variable {w} {row : AssignmentRow} {a : Assignment} (ha : w.loadAssignment row = some a)
include ha

theorem loaded_row : a.row = row := by
  obtain ⟨r, -, rfl⟩ := Option.map_eq_some_iff.mp ha
  rfl

theorem loaded_scope : a.scope = w.db.generic row.scopeCt row.scopeId := by
  obtain ⟨r, -, rfl⟩ := Option.map_eq_some_iff.mp ha
  rfl

theorem loaded_owner : a.role.owner = w.genericObj a.role.ownerCt a.role.ownerId := by
  obtain ⟨r, -, rfl⟩ := Option.map_eq_some_iff.mp ha
  rfl

end Loaded

end World

end ScopedAccess
