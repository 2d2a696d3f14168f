import ScopedAccess.Registry
import ScopedAccess.Lib.Rows
import Mathlib.Data.Finset.Lattice.Basic

/-! Role, RolePermission and ScopeAssignment (`models.py`): their rows, the
tables with the constraints the database enforces, and loaded instances. -/

namespace ScopedAccess

structure User where
  pk : Nat
  isActive : Bool := true
  isSuperuser : Bool := false
  deriving DecidableEq

structure Permission where
  id : Nat
  appLabel : String
  codename : String
  deriving DecidableEq

def Permission.label (p : Permission) : String := p.appLabel ++ "." ++ p.codename

structure RoleRow where
  id : Nat
  name : String
  description : String := ""
  ownerLevel : Option String := none
  ownerCt : Option Ct := none
  ownerId : Option String := none
  createdAt : Time := 0
  deriving DecidableEq

structure RolePermission where
  role : Nat
  permission : Permission
  deriving DecidableEq

inductive AssignmentStatus
  | active
  | suspended
  | revoked
  deriving DecidableEq

def AssignmentStatus.value : AssignmentStatus → String
  | .active => "ACTIVE"
  | .suspended => "SUSPENDED"
  | .revoked => "REVOKED"

structure AssignmentRow where
  id : Nat
  user : Nat
  role : Nat
  level : Option String := none
  scopeCt : Option Ct := none
  scopeId : Option String := none
  status : AssignmentStatus := .active
  validFrom : Option Time := none
  validUntil : Option Time := none
  grantedBy : Option Nat := none
  grantedAt : Time := 0
  revokedBy : Option Nat := none
  revokedAt : Option Time := none
  reason : String := ""
  deriving DecidableEq

namespace AssignmentRow

def isRootScope (a : AssignmentRow) : Bool := a.scopeId.isNone

@[simp] theorem isRootScope_eq_true {a : AssignmentRow} :
    a.isRootScope = true ↔ a.scopeId = none := by simp [isRootScope]

@[simp] theorem isRootScope_eq_false {a : AssignmentRow} :
    a.isRootScope = false ↔ a.scopeId ≠ none := by
  simp [isRootScope, Option.isSome_iff_ne_none]

def isLive (a : AssignmentRow) : Bool := a.status ≠ .revoked

def isEffective (a : AssignmentRow) (at_ : Time) : Bool :=
  a.status = .active && a.validFrom.all (· ≤ at_) && a.validUntil.all (at_ < ·)

def forget (a : AssignmentRow) (pk : Nat) : AssignmentRow :=
  { a with grantedBy := a.grantedBy.filter (· ≠ pk), revokedBy := a.revokedBy.filter (· ≠ pk) }

end AssignmentRow

/-- SQL equality: `NULL` equals nothing. -/
def sqlEq {α : Type} [DecidableEq α] (x y : Option α) : Bool := x.isSome && x = y

namespace RoleRow

def sameCustomName (r r' : RoleRow) : Bool :=
  r.name = r'.name && sqlEq r.ownerCt r'.ownerCt && sqlEq r.ownerId r'.ownerId

def sameSystemName (r r' : RoleRow) : Bool :=
  r.name = r'.name && r.ownerId.isNone && r'.ownerId.isNone

end RoleRow

namespace AssignmentRow

/-- `scoped_access_unique_live_assignment` -/
def sameLiveAssignment (a b : AssignmentRow) : Bool :=
  a.isLive && b.isLive && a.user = b.user && a.role = b.role &&
    sqlEq a.level b.level && sqlEq a.scopeCt b.scopeCt && sqlEq a.scopeId b.scopeId

/-- `scoped_access_unique_live_root` -/
def sameLiveRoot (a b : AssignmentRow) : Bool :=
  a.isLive && b.isLive && a.user = b.user && a.role = b.role &&
    sqlEq a.level b.level && a.scopeId.isNone && b.scopeId.isNone

/-- `scoped_access_unique_live_flat` -/
def sameLiveFlat (a b : AssignmentRow) : Bool :=
  a.isLive && b.isLive && a.user = b.user && a.role = b.role &&
    a.level.isNone && b.level.isNone && a.scopeId.isNone && b.scopeId.isNone

def collides (a b : AssignmentRow) : Bool :=
  a.sameLiveAssignment b || a.sameLiveRoot b || a.sameLiveFlat b

end AssignmentRow

structure TableRows where
  users : List Nat := []
  contentTypes : List Ct := []
  roles : List RoleRow := []
  rolePermissions : List RolePermission := []
  assignments : List AssignmentRow := []
  deriving DecidableEq

namespace TableRows

def RolesValid (t : TableRows) : Prop :=
  (t.roles.map RoleRow.id).Nodup ∧
  t.roles.Pairwise (fun r r' => !(r.sameCustomName r' || r.sameSystemName r')) ∧
  ∀ r ∈ t.roles, ∀ ct ∈ r.ownerCt, ct ∈ t.contentTypes

def RolePermissionsValid (t : TableRows) : Prop :=
  (t.rolePermissions.map fun rp => (rp.role, rp.permission.id)).Nodup ∧
  ∀ rp ∈ t.rolePermissions, rp.role ∈ t.roles.map RoleRow.id

def AssignmentsValid (t : TableRows) : Prop :=
  (t.assignments.map AssignmentRow.id).Nodup ∧
  t.assignments.Pairwise (fun a b => !a.collides b) ∧
  ∀ a ∈ t.assignments, a.role ∈ t.roles.map RoleRow.id ∧ a.user ∈ t.users ∧
    (∀ ct ∈ a.scopeCt, ct ∈ t.contentTypes) ∧
    (∀ u ∈ a.grantedBy, u ∈ t.users) ∧ ∀ u ∈ a.revokedBy, u ∈ t.users

def Valid (t : TableRows) : Prop :=
  t.RolesValid ∧ t.RolePermissionsValid ∧ t.AssignmentsValid

instance (t : TableRows) : Decidable t.Valid :=
  inferInstanceAs (Decidable
    ((_ ∧ _ ∧ ∀ r ∈ t.roles, ∀ ct ∈ r.ownerCt, ct ∈ t.contentTypes) ∧ (_ ∧ _) ∧
      (_ ∧ _ ∧ ∀ a ∈ t.assignments, a.role ∈ t.roles.map RoleRow.id ∧ a.user ∈ t.users ∧
        (∀ ct ∈ a.scopeCt, ct ∈ t.contentTypes) ∧
        (∀ u ∈ a.grantedBy, u ∈ t.users) ∧ ∀ u ∈ a.revokedBy, u ∈ t.users)))

end TableRows

structure Tables extends TableRows where
  valid : toTableRows.Valid

/-- Writing is refused where a key, a foreign key or a unique constraint would
not hold afterwards. -/
def TableRows.commit (t : TableRows) : Py Tables :=
  if h : t.Valid then .ok ⟨t, h⟩ else throwing .integrityError "constraint failed"

theorem TableRows.commit_ok {t : TableRows} {t' : Tables} (h : t.commit = .ok t') :
    t'.toTableRows = t := by
  unfold commit at h
  split at h
  · exact (Except.ok.inj h) ▸ rfl
  · simp [throwing] at h

theorem Tables.commit_self (t : Tables) : t.toTableRows.commit = .ok t := by
  rw [TableRows.commit, dif_pos t.valid]

namespace Tables

variable (t : Tables)

theorem role_ids : (t.roles.map RoleRow.id).Nodup := t.valid.1.1

theorem assignment_ids : (t.assignments.map AssignmentRow.id).Nodup := t.valid.2.2.1

def role (id : Nat) : Option RoleRow := t.roles.find? (·.id = id)

def assignment (id : Nat) : Option AssignmentRow := t.assignments.find? (·.id = id)

theorem role_eq_some {id : Nat} {r : RoleRow} : t.role id = some r ↔ r ∈ t.roles ∧ r.id = id :=
  Lib.Rows.find_eq_some t.role_ids

theorem assignment_eq_some {id : Nat} {a : AssignmentRow} :
    t.assignment id = some a ↔ a ∈ t.assignments ∧ a.id = id :=
  Lib.Rows.find_eq_some t.assignment_ids

theorem exists_role {a : AssignmentRow} (h : a ∈ t.assignments) :
    ∃ r, t.role a.role = some r := by
  obtain ⟨r, hr, hid⟩ := List.mem_map.mp (t.valid.2.2.2.2 a h).1
  exact ⟨r, t.role_eq_some.mpr ⟨hr, hid⟩⟩

theorem assignment_unique {a b : AssignmentRow} (ha : a ∈ t.assignments)
    (hb : b ∈ t.assignments) (h : a.id = b.id) : a = b :=
  List.inj_on_of_nodup_map t.assignment_ids ha hb h

def dropAssignment (id : Nat) : Tables where
  toTableRows := { t.toTableRows with assignments := t.assignments.filter (·.id ≠ id) }
  valid := by
    obtain ⟨hroles, hperms, hids, hunique, hrefs⟩ := t.valid
    refine ⟨hroles, hperms, ?_, hunique.filter _, fun a ha => hrefs a (List.mem_filter.mp ha).1⟩
    exact hids.sublist (List.filter_sublist.map _)

/-- `on_delete` of the user columns: `PROTECT` for the principal, `SET_NULL` for the others. -/
def deleteUser (pk : Nat) : Tables :=
  if h : ∃ a ∈ t.assignments, a.user = pk then t
  else
    { toTableRows := { t.toTableRows with
        users := t.users.filter (· ≠ pk)
        assignments := t.assignments.map (·.forget pk) }
      valid := by
        obtain ⟨hroles, hperms, hids, hunique, hrefs⟩ := t.valid
        refine ⟨hroles, hperms, ?_, List.pairwise_map.mpr (hunique.imp id), fun a' ha' => ?_⟩
        · rw [List.map_map]
          exact hids
        · obtain ⟨a, ha, rfl⟩ := List.mem_map.mp ha'
          obtain ⟨hrole, huser, hct, hby, hrevoked⟩ := hrefs a ha
          refine ⟨hrole, ?_, hct, fun u hu => ?_, fun u hu => ?_⟩
          · have hne : a.user ≠ pk := fun hpk => h ⟨a, ha, hpk⟩
            exact List.mem_filter.mpr ⟨huser, decide_eq_true hne⟩
          · obtain ⟨hmem, hne⟩ := Option.filter_eq_some_iff.mp hu
            exact List.mem_filter.mpr ⟨hby u hmem, hne⟩
          · obtain ⟨hmem, hne⟩ := Option.filter_eq_some_iff.mp hu
            exact List.mem_filter.mpr ⟨hrevoked u hmem, hne⟩ }

def addUser (pk : Nat) : Tables where
  toTableRows := { t.toTableRows with users := t.users ++ [pk] }
  valid := by
    obtain ⟨hroles, hperms, hids, hunique, hrefs⟩ := t.valid
    refine ⟨hroles, hperms, hids, hunique, fun a ha => ?_⟩
    obtain ⟨hrole, huser, hct, hby, hrevoked⟩ := hrefs a ha
    exact ⟨hrole, List.mem_append_left _ huser, hct,
      fun u hu => List.mem_append_left _ (hby u hu),
      fun u hu => List.mem_append_left _ (hrevoked u hu)⟩

def roleLabels (id : Nat) : Finset String :=
  ((t.rolePermissions.filter (·.role = id)).map (·.permission.label)).toFinset

theorem mem_roleLabels {id : Nat} {label : String} :
    label ∈ t.roleLabels id ↔
      ∃ rp ∈ t.rolePermissions, rp.role = id ∧ rp.permission.label = label := by
  simp only [roleLabels, List.mem_toFinset, List.mem_map, List.mem_filter, decide_eq_true_eq,
    and_assoc]

end Tables

namespace TableRows

def setAssignment (t : TableRows) (pk : Nat) (row : AssignmentRow) : TableRows :=
  { t with assignments := Lib.Rows.modify AssignmentRow.id pk (fun _ => row) t.assignments }

def setRole (t : TableRows) (pk : Nat) (row : RoleRow) : TableRows :=
  { t with roles := Lib.Rows.modify RoleRow.id pk (fun _ => row) t.roles }

def addAssignment (t : TableRows) (row : AssignmentRow) : TableRows :=
  { t with assignments := t.assignments ++ [row] }

def addRole (t : TableRows) (row : RoleRow) : TableRows :=
  { t with roles := t.roles ++ [row] }

end TableRows

/-- A role in memory.  `owner` is what the attribute gives when it is read. -/
structure Role where
  pk : Option Nat
  name : String
  description : String
  ownerLevel : Option String
  ownerCt : Option Ct
  ownerId : Option String
  createdAt : Option Time
  owner : Py (Option Obj)
  perms : Finset String

/-- An assignment in memory, with its role.  `scope` is what the attribute gives
when it is read. -/
structure Assignment where
  row : AssignmentRow
  role : Role
  scope : Py (Option Row)

end ScopedAccess
