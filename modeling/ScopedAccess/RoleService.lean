import ScopedAccess.Lifecycle
import Mathlib.Data.List.Sort

/-! Roles and their permissions under authorization (`models.py`, `services.py`,
SPEC §6). -/

namespace ScopedAccess

open Op (ask raise write invalidateCache afterCommit emit)

def World.ownerLevelFor (w : World) (owner : Obj) : Option String → Py String
  | none =>
    match w.matchingLevels owner with
    | [name] => .ok name
    | _ => throwing .roleOwnershipError
        "owner_level is required when the owner model maps to multiple levels."
  | some name =>
    if name ∈ w.matchingLevels owner then .ok name
    else throwing .roleOwnershipError "owner_level does not match the configured hierarchy node."

def World.validateOwner (w : World) (role : Role) : Py Role :=
  if role.ownerId.isNone then
    if role.ownerCt.isSome || role.ownerLevel.isSome then
      throwing .roleOwnershipError "A system role cannot define owner metadata without an owner."
    else .ok role
  else if role.ownerCt.isNone then
    throwing .roleOwnershipError "A custom role requires both owner_ct and owner_id."
  else do
    match ← role.owner with
    | none => throwing .roleOwnershipError "The custom role owner does not exist."
    | some owner =>
      let level ← w.ownerLevelFor owner role.ownerLevel
      if level ∉ w.site.roleOwnerLevels then
        throwing .roleOwnershipError ("Level '" ++ level ++ "' is not allowed to own roles.")
      else return { role with ownerLevel := some level }

def Role.columns (role : Role) (id : Nat) (createdAt : Time) : RoleRow where
  id := id
  name := role.name
  description := role.description
  ownerLevel := role.ownerLevel
  ownerCt := role.ownerCt
  ownerId := role.ownerId
  createdAt := createdAt

/-- `AbstractRole.save`: with a key that is stored every column of that row is
overwritten, otherwise a row is inserted; `created_at` is set on insertion only. -/
def saveRole (role : Role) : Op Role := do
  let w ← ask
  let role ← w.validateOwner role
  match role.pk with
  | some pk =>
    if (w.tables.role pk).isSome then
      match role.createdAt with
      | none => raise .integrityError "NOT NULL constraint failed: created_at"
      | some createdAt =>
        write (w.tables.setRole pk (role.columns pk createdAt))
        return role
    else
      write (w.tables.addRole (role.columns pk w.now))
      return { role with createdAt := some w.now }
  | none =>
    let pk := Lib.Rows.fresh (w.tables.roles.map RoleRow.id)
    write (w.tables.addRole (role.columns pk w.now))
    return { role with pk := some pk, createdAt := some w.now }

def labels (perms : List Permission) : List String :=
  (perms.map Permission.label).insertionSort (· ≤ ·)

def forbiddenLabels (actor : User) (role : Role) : List String → Read (List String)
  | [] => return []
  | label :: rest => do
    let granted ← canGrantPermission actor role label none
    let forbidden ← forbiddenLabels actor role rest
    return if granted then forbidden else label :: forbidden

/-- `self.permissions.filter(pk=p.pk).exists()` -/
def TableRows.carries (t : TableRows) (role : Nat) (p : Permission) : Bool :=
  t.rolePermissions.any fun rp => rp.role = role && rp.permission.id = p.id

def TableRows.addPermissions (t : TableRows) (role : Nat) : List Permission → TableRows
  | [] => t
  | p :: perms =>
    TableRows.addPermissions
      (if t.carries role p then t
        else { t with rolePermissions := t.rolePermissions ++ [⟨role, p⟩] }) role perms

def TableRows.removePermissions (t : TableRows) (role : Nat) (perms : List Permission) :
    TableRows :=
  { t with rolePermissions := t.rolePermissions.filter fun rp =>
      ¬ (rp.role = role ∧ ∃ p ∈ perms, p.id = rp.permission.id) }

namespace Role

def announce (role : Role) (added removed : List Permission) (actor : Option User) : Op Unit := do
  if added.isEmpty && removed.isEmpty then return ()
  else
    invalidateCache .all
    afterCommit .all
    emit (.rolePermissionsChanged role (labels added) (labels removed) actor)

def grantPermissions (role : Role) (perms : List Permission) (actor : Option User) : Op Unit := do
  let role ← refreshForMutation role
  match actor with
  | none => raise .roleManagementPermissionError "The actor cannot manage this role."
  | some user =>
    if !(← canManageRole actor role none) then
      raise .roleManagementPermissionError "The actor cannot manage this role."
    else
      let w ← ask
      let pk := role.pk.getD 0
      let added := perms.filter fun p => !w.tables.carries pk p
      let forbidden ← forbiddenLabels user role (labels added)
      if !forbidden.isEmpty then
        raise .roleManagementPermissionError
          ("The actor cannot delegate these permissions: " ++ ", ".intercalate forbidden ++ ".")
      else
        write (w.tables.addPermissions pk perms)
        role.announce added [] actor

def revokePermissions (role : Role) (perms : List Permission) (actor : Option User) :
    Op Unit := do
  let role ← refreshForMutation role
  if !(← canManageRole actor role none) then
    raise .roleManagementPermissionError "The actor cannot manage this role."
  else
    let w ← ask
    let pk := role.pk.getD 0
    let removed := perms.filter fun p => w.tables.carries pk p
    write (w.tables.removePermissions pk perms)
    role.announce [] removed actor

end Role

namespace RoleService

inductive Owner
  | object (owner : Option Obj)
  | columns (ct : Option Ct) (id : Option String)

structure Fields where
  pk : Option Nat := none
  name : String := ""
  description : String := ""
  owner : Owner := .object none
  ownerLevel : Option String := none
  createdAt : Option Time := none

def Owner.resolve (w : World) : Owner → Option Ct × Option String × Py (Option Obj)
  | .object none => (none, none, .ok none)
  | .object (some o) => (some (w.site.schema.contentType o.model), some o.row.pk, .ok (some o))
  | .columns ct id => (ct, id, w.genericObj ct id)

def Fields.role (w : World) (fields : Fields) : Role :=
  let (ct, id, owner) := fields.owner.resolve w
  { pk := fields.pk
    name := fields.name
    description := fields.description
    ownerLevel := fields.ownerLevel
    ownerCt := ct
    ownerId := id
    createdAt := fields.createdAt
    owner := owner
    perms := (fields.pk.map w.tables.roleLabels).getD ∅ }

def create (actor : Option User) (permissions : List Permission) (fields : Fields) :
    Op Role := do
  let w ← ask
  let role ← w.validateOwner (fields.role w)
  if !(← canManageRole actor role none) then
    raise .roleManagementPermissionError "The actor cannot create this role."
  else
    let role ← saveRole role
    if permissions.isEmpty then return role
    else
      role.grantPermissions permissions actor
      return role

structure Changes where
  name : Option String := none
  description : Option String := none
  owner : Option (Option Obj) := none
  ownerLevel : Option (Option String) := none

/-- `setattr` for each change; a role without owner loses its level too. -/
def Changes.apply (w : World) (changes : Changes) (role : Role) : Role :=
  let role := { role with
    name := changes.name.getD role.name
    description := changes.description.getD role.description
    ownerLevel := changes.ownerLevel.getD role.ownerLevel }
  match changes.owner with
  | none => role
  | some owner =>
    let (ct, id, read) := (Owner.object owner).resolve w
    { role with
      ownerCt := ct
      ownerId := id
      owner := read
      ownerLevel := if owner.isNone && changes.ownerLevel.isNone then none else role.ownerLevel }

def update (role : Role) (actor : Option User) (changes : Changes) : Op Role := do
  let role ← refreshForMutation role
  if !(← canManageRole actor role none) then
    raise .roleManagementPermissionError "The actor cannot edit this role."
  else
    let w ← ask
    let role ← w.validateOwner (changes.apply w role)
    if !(← canManageRole actor role none) then
      raise .roleManagementPermissionError "The actor cannot move this role to the target owner."
    else
      let role ← saveRole role
      invalidateCache .all
      return role

def delete (role : Role) (actor : Option User) : Op Unit := do
  let role ← refreshForMutation role
  if !(← canManageRole actor role none) then
    raise .roleManagementPermissionError "The actor cannot delete this role."
  else
    let w ← ask
    let pk := role.pk.getD 0
    if w.tables.assignments.any (·.role = pk) then
      raise .protectedError
        "Cannot delete some instances of model 'Role' because they are referenced through protected foreign keys: 'ScopeAssignment.role'."
    else
      write { w.tables.toTableRows with
        roles := w.tables.roles.filter (·.id ≠ pk)
        rolePermissions := w.tables.rolePermissions.filter (·.role ≠ pk) }

end RoleService

end ScopedAccess
