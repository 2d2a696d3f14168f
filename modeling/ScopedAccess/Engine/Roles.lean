import ScopedAccess.Engine.Filter

/-! Roles and ownership (`engine.py`, SPEC §6): who sees, manages, extends and
assigns a role. -/

namespace ScopedAccess

open Lib.Loop (gather)
open Read (ask effectiveAssignments isValid)

/-- R1: system roles everywhere; custom roles inside a covering scope. -/
def roleVisible (u : User) (role : Role) (at_ : Option Time) : Read Bool := do
  if !u.isActive then return false
  if role.ownerId.isNone then return true
  match ← (role.ownerOrNone : Py (Option Obj)) with
  | none => return false
  | some owner =>
    if u.isSuperuser then return true
    let as ← effectiveAssignments u at_
    as.anyM fun a => covers a owner

def heldAtRoot (u : User) (at_ : Option Time) : Read (Finset String) := do
  let as ← effectiveAssignments u at_
  gather (fun a => do
    if !(← isValid a) then return ∅
    return if a.row.isRootScope then rolePerms a.role else ∅) as ∅

def carriedAtRoot (u : User) (perm : String) (at_ : Option Time) : Read Bool := do
  let as ← effectiveAssignments u at_
  as.anyM fun a => do
    if !(← isValid a) then return false
    return a.row.isRootScope && perm ∈ rolePerms a.role

def ownerUnlessSystem (role : Role) : Py (Option Obj) :=
  if role.ownerId.isNone then .ok none else role.ownerOrNone

/-- R5: only delegate what you hold at the owner scope. -/
def canGrantPermission (actor : User) (role : Role) (perm : String) (at_ : Option Time) :
    Read Bool := do
  if !actor.isActive then return false
  let owner ← ownerUnlessSystem role
  if role.ownerId.isSome && owner.isNone then return false
  if actor.isSuperuser then return true
  match (← ask).site.grantablePermissions with
  | .any => return true
  | .explicit labels => return perm ∈ labels
  | .callable policy => return policy actor role perm at_
  | .self =>
    if role.ownerId.isNone then return perm ∈ (← heldAtRoot actor at_)
    else return perm ∈ (← userPermissions actor owner at_)

/-- R4: the actor may manage this system or custom role. -/
def canManageRole (actor : Option User) (role : Role) (at_ : Option Time) : Read Bool := do
  match actor with
  | none => return false
  | some actor =>
    if !actor.isActive then return false
    let owner ← ownerUnlessSystem role
    if role.ownerId.isSome && owner.isNone then return false
    if actor.isSuperuser then return true
    let app := (← ask).site.roleApp
    if role.ownerId.isSome then hasPerm actor (app ++ ".manage_roles") owner at_
    else carriedAtRoot actor (app ++ ".manage_global_roles") at_

/-- The actor may create assignments at the node, or globally without one. -/
def canManageAssignment (actor : Option User) (node : Option Obj) (at_ : Option Time) :
    Read Bool := do
  match actor with
  | none => return false
  | some actor =>
    if !actor.isActive then return false
    if actor.isSuperuser then return true
    let permission := (← ask).site.assignmentApp ++ ".manage_assignments"
    if node.isSome then hasPerm actor permission node at_
    else carriedAtRoot actor permission at_

/-- `manage_assignments` authorizes the lifecycle operation; it does not by
itself authorize every role in the catalog. -/
def canAssignRole (actor : Option User) (role : Role) (level : Option String)
    (node : Option Obj) (at_ : Option Time) : Read Bool := do
  match actor with
  | none => return false
  | some actor =>
    if !actor.isActive then return false
    match role.pk with
    | none => return false
    | some pk =>
      let w ← ask
      match w.tables.role pk with
      | none => return false
      | some row =>
        let role := w.loadRole row
        if !(← w.roleAssignable role level node) then return false
        if actor.isSuperuser then return true
        if !(← roleVisible actor role at_) then return false
        match w.site.grantablePermissions with
        | .any => return true
        | .explicit labels => return rolePerms role ⊆ labels.toFinset
        | .callable policy => return decide (∀ perm ∈ rolePerms role, policy actor role perm at_)
        | .self =>
          let held ← if node.isNone then heldAtRoot actor at_
            else userPermissions actor node at_
          return rolePerms role ⊆ held

end ScopedAccess
