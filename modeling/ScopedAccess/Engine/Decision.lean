import ScopedAccess.Engine.Read
import Mathlib.Data.Finset.Sort
import Mathlib.Data.String.Basic

/-! Coverage and the permission decision (`engine.py`, SPEC §4.2 and §5).  The
coverage rule is written out in each function as the source writes it. -/

namespace ScopedAccess

open Lib.Loop (gather)
open Read (ask effectiveAssignments isValid)

def Anchor.node? : Anchor → Option Attr
  | .node n => some n
  | _ => none

def rolePerms (role : Role) : Finset String := role.perms

def covers (a : Assignment) (o : Obj) : Read Bool := do
  if !(← isValid a) then return false
  let w ← ask
  let anchor := w.resolveAnchor o
  if anchor matches .unregistered then return false
  if a.row.isRootScope || anchor matches .everywhere then return true
  match anchor.node? with
  | none => return false
  | some n => w.anyAncestor n (w.sameNode a)

def userPermissions (u : User) (o : Option Obj) (at_ : Option Time) : Read (Finset String) := do
  if !u.isActive then return ∅
  let w ← ask
  let anchor := w.anchorOf o
  if anchor matches .unregistered then return ∅
  let as ← effectiveAssignments u at_
  gather (fun a => do
    if !(← isValid a) then return ∅
    let covered : Bool ← match anchor with
      | .everywhere => pure true
      | .denied => pure a.row.isRootScope
      | .node n =>
        if a.row.isRootScope then pure true
        else liftM (w.anyAncestor n (w.sameNode a))
      | .unregistered => pure false
    return if covered then rolePerms a.role else ∅) as ∅

def hasPerm (u : User) (perm : String) (o : Option Obj) (at_ : Option Time) : Read Bool := do
  if !u.isActive then return false
  if u.isSuperuser then return true
  return perm ∈ (← userPermissions u o at_)

def userCovers (u : User) (o : Obj) (at_ : Option Time) : Read Bool := do
  if !u.isActive then return false
  if u.isSuperuser then return true
  let w ← ask
  let anchor := w.resolveAnchor o
  if anchor matches .everywhere then return true
  if anchor matches .unregistered then return false
  let as ← effectiveAssignments u at_
  as.anyM fun a => do
    if !(← isValid a) then return false
    if a.row.isRootScope then return true
    match anchor with
    | .node n => w.anyAncestor n (w.sameNode a)
    | _ => return false

structure SummaryEntry where
  role : Role
  level : Option String
  scope : Option Row
  status : AssignmentStatus
  validUntil : Option Time
  permissions : List String

structure Summary where
  permissions : List String
  assignments : List SummaryEntry

def sorted (labels : Finset String) : List String := labels.sort (· ≤ ·)

def summaryEntry (a : Assignment) : Py SummaryEntry := do
  let scope ← if a.row.scopeId.all (· = "") then .ok none else a.scope
  return ⟨a.role, a.row.level, scope, a.row.status, a.row.validUntil, sorted (rolePerms a.role)⟩

def summarize : List Assignment → Finset String → List SummaryEntry → Read Summary
  | [], perms, entries => return ⟨sorted perms, entries⟩
  | a :: as, perms, entries => do
    if !(← isValid a) then summarize as perms entries
    else
      let entry ← summaryEntry a
      summarize as (perms ∪ rolePerms a.role) (entries ++ [entry])

def accessSummary (u : User) (at_ : Option Time) : Read Summary := do
  if !u.isActive then return ⟨sorted ∅, []⟩
  let as ← effectiveAssignments u at_
  summarize as ∅ []

end ScopedAccess
