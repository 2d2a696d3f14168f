import ScopedAccess.Concurrent.Calls
import ScopedAccess.RoleServiceLaws
import ScopedAccess.Lib.Locks

namespace ScopedAccess.Locked

open Concurrent (Audit moveTo)

inductive Key
  | role (pk : Nat)
  | assignment (pk : Nat)
  deriving DecidableEq

inductive Edit
  | assigned (row : AssignmentRow)
  | moved (pk : Nat) (target : AssignmentStatus) (allowedFrom : List AssignmentStatus)
    (changes : Option Audit)
  | roleAdded (pk : Option Nat) (role : Role) (createdAt : Time)
  | roleSet (row : RoleRow)
  | roleDeleted (pk : Nat)
  | extended (pk : Nat) (perms : List Permission)
  | reduced (pk : Nat) (perms : List Permission)

namespace Edit

def apply : Edit → TableRows → TableRows
  | .assigned row, t => t.addAssignment row
  | .moved pk target _ changes, t => { t with
      assignments := Lib.Rows.modify AssignmentRow.id pk (moveTo · target changes) t.assignments }
  | .roleAdded pk role createdAt, t => t.addRole (role.columns (pk.getD 0) createdAt)
  | .roleSet row, t => t.setRole row.id row
  | .roleDeleted pk, t => { t with
      roles := t.roles.filter (·.id ≠ pk)
      rolePermissions := t.rolePermissions.filter (·.role ≠ pk) }
  | .extended pk perms, t => t.addPermissions pk perms
  | .reduced pk perms, t => t.removePermissions pk perms

def holds : Edit → TableRows → Bool
  | .moved pk _ allowedFrom _, t =>
    (t.assignments.find? (·.id = pk)).any (·.status ∈ allowedFrom)
  | _, _ => true

/-- An inserted row has a key of the sequence, unless it was given one. -/
def withKey (n : Nat) : Edit → Edit
  | .assigned row => .assigned { row with id := n }
  | .roleAdded none role createdAt => .roleAdded (some n) role createdAt
  | e => e

def locks : Edit → List Key
  | .assigned row => [.assignment row.id]
  | .moved pk .. => [.assignment pk]
  | .roleAdded pk .. => [.role (pk.getD 0)]
  | .roleSet row => [.role row.id]
  | .roleDeleted pk => [.role pk]
  | .extended .. | .reduced .. => []

def touches : Edit → List Key
  | .extended pk _ | .reduced pk _ => [.role pk]
  | e => e.locks

end Edit

/-- What a transaction sees of a row. -/
inductive Part
  | role (row : Option RoleRow) (perms : List RolePermission)
  | assignment (row : Option AssignmentRow)

def part : Key → TableRows → Part
  | .role pk, t => .role (t.roles.find? (·.id = pk)) (t.rolePermissions.filter (·.role = pk))
  | .assignment pk, t => .assignment (t.assignments.find? (·.id = pk))

theorem carries_congr {t t' : TableRows} {pk : Nat}
    (h : t'.rolePermissions.filter (·.role = pk) = t.rolePermissions.filter (·.role = pk))
    (p : Permission) : t'.carries pk p = t.carries pk p := by
  have hcarries (t : TableRows) : t.carries pk p =
      (t.rolePermissions.filter (·.role = pk)).any (·.permission.id = p.id) := by
    rw [TableRows.carries, List.any_filter]
  rw [hcarries, hcarries, h]

theorem filter_addPermissions {t : TableRows} {k pk : Nat} (h : k ≠ pk) (perms : List Permission) :
    (t.addPermissions pk perms).rolePermissions.filter (·.role = k) =
      t.rolePermissions.filter (·.role = k) := by
  induction perms generalizing t with
  | nil => rfl
  | cons p perms ih =>
    rw [TableRows.addPermissions, ih]
    split
    · rfl
    · simp [Ne.symm h]

theorem addPermissions_congr {t t' : TableRows} {pk : Nat}
    (h : t'.rolePermissions.filter (·.role = pk) = t.rolePermissions.filter (·.role = pk))
    (perms : List Permission) :
    (t'.addPermissions pk perms).rolePermissions.filter (·.role = pk) =
      (t.addPermissions pk perms).rolePermissions.filter (·.role = pk) := by
  induction perms generalizing t t' with
  | nil => exact h
  | cons p perms ih =>
    rw [TableRows.addPermissions, TableRows.addPermissions]
    refine ih ?_
    rw [carries_congr h p]
    split
    · exact h
    · simpa using h

theorem filter_removePermissions (t : TableRows) (k pk : Nat) (perms : List Permission) :
    (t.removePermissions pk perms).rolePermissions.filter (·.role = k) =
      (t.rolePermissions.filter (·.role = k)).filter fun rp =>
        ¬ (k = pk ∧ ∃ p ∈ perms, p.id = rp.permission.id) := by
  simp only [TableRows.removePermissions, List.filter_filter]
  refine List.filter_congr fun rp _ => ?_
  by_cases hk : rp.role = k
  · subst hk
    simp
  · simp [hk]

theorem id_moveTo (target : AssignmentStatus) (changes : Option Audit) (row : AssignmentRow) :
    (moveTo row target changes).id = row.id := by
  cases changes <;> rfl

theorem find_append {ρ : Type} {key : ρ → Nat} {rows : List ρ} {row : ρ} {k : Nat}
    (h : k ≠ key row) :
    (rows ++ [row]).find? (fun x => key x = k) = rows.find? fun x => key x = k := by
  rw [List.find?_append, List.find?_singleton, if_neg (by simpa using Ne.symm h), Option.or_none]

theorem find_filter {ρ : Type} {key : ρ → Nat} (rows : List ρ) (k k' : Nat) :
    (rows.filter fun x => key x ≠ k').find? (fun x => key x = k) =
      if k = k' then none else rows.find? fun x => key x = k := by
  rw [List.find?_filter]
  split
  · subst k'
    exact List.find?_eq_none.mpr fun x _ => by simp
  · rename_i hk
    congr 1
    funext x
    by_cases hx : key x = k
    · simp [hx, hk]
    · simp [hx]

theorem part_frame {k : Key} {e : Edit} (t : TableRows) (h : k ∉ e.touches) :
    part k (e.apply t) = part k t := by
  cases k with
  | role k =>
    cases e with
    | assigned | moved => rfl
    | roleAdded pk role createdAt =>
      have hk : k ≠ pk.getD 0 := by simpa [Edit.touches, Edit.locks] using h
      exact congrArg (Part.role · _) (find_append hk)
    | roleSet row =>
      have hk : k ≠ row.id := by simpa [Edit.touches, Edit.locks] using h
      exact congrArg (Part.role · _) ((Lib.Rows.find_modify rfl).trans (if_neg hk))
    | roleDeleted pk =>
      have hk : k ≠ pk := by simpa [Edit.touches, Edit.locks] using h
      refine congrArg₂ Part.role ((find_filter _ k pk).trans (if_neg hk)) ?_
      simp only [Edit.apply, List.filter_filter]
      refine List.filter_congr fun rp _ => ?_
      by_cases hrp : rp.role = k
      · simp [hrp, hk]
      · simp [hrp]
    | extended pk perms =>
      have hk : k ≠ pk := by simpa [Edit.touches] using h
      refine congrArg₂ Part.role ?_ (filter_addPermissions hk perms)
      rw [Edit.apply, TableRows.addPermissions_rest]
    | reduced pk perms =>
      have hk : k ≠ pk := by simpa [Edit.touches] using h
      refine congrArg (Part.role _) ((filter_removePermissions t k pk perms).trans ?_)
      simp [hk]
  | assignment k =>
    cases e with
    | assigned row =>
      have hk : k ≠ row.id := by simpa [Edit.touches, Edit.locks] using h
      exact congrArg Part.assignment (find_append hk)
    | moved pk target allowedFrom changes =>
      have hk : k ≠ pk := by simpa [Edit.touches, Edit.locks] using h
      exact congrArg Part.assignment ((Lib.Rows.find_modify_keeping (id_moveTo target changes)).trans
        (if_neg hk))
    | extended pk perms =>
      refine congrArg Part.assignment ?_
      rw [Edit.apply, TableRows.addPermissions_rest]
    | roleAdded | roleSet | roleDeleted | reduced => rfl

theorem part_local {k : Key} {t t' : TableRows} (e : Edit) (h : part k t = part k t') :
    part k (e.apply t) = part k (e.apply t') := by
  by_cases htouch : k ∈ e.touches
  · cases k with
    | role k =>
      obtain ⟨hrow, hperms⟩ := Part.role.inj h
      cases e with
      | assigned | moved => simp [Edit.touches, Edit.locks] at htouch
      | roleAdded pk role createdAt =>
        refine congrArg₂ Part.role ?_ hperms
        simp only [Edit.apply, TableRows.addRole, List.find?_append, hrow]
      | roleSet row =>
        obtain rfl : k = row.id := by simpa [Edit.touches, Edit.locks] using htouch
        refine congrArg₂ Part.role ?_ hperms
        simp only [Edit.apply, TableRows.setRole, Lib.Rows.find_modify, hrow]
      | roleDeleted pk =>
        obtain rfl : k = pk := by simpa [Edit.touches, Edit.locks] using htouch
        refine congrArg₂ Part.role ?_ ?_
        · simp only [Edit.apply, find_filter, if_true]
        · simp [Edit.apply, List.filter_filter]
      | extended pk perms =>
        obtain rfl : k = pk := by simpa [Edit.touches] using htouch
        refine congrArg₂ Part.role ?_ (addPermissions_congr hperms perms)
        rw [Edit.apply, Edit.apply, TableRows.addPermissions_rest,
          TableRows.addPermissions_rest (t := t')]
        exact hrow
      | reduced pk perms =>
        refine congrArg₂ Part.role hrow ?_
        simp only [Edit.apply, filter_removePermissions, hperms]
    | assignment k =>
      have hrow := Part.assignment.inj h
      cases e with
      | assigned row =>
        refine congrArg Part.assignment ?_
        simp only [Edit.apply, TableRows.addAssignment, List.find?_append, hrow]
      | moved pk target allowedFrom changes =>
        obtain rfl : k = pk := by simpa [Edit.touches, Edit.locks] using htouch
        refine congrArg Part.assignment ?_
        simp only [Edit.apply, Lib.Rows.find_modify_keeping (id_moveTo target changes), hrow]
      | roleAdded | roleSet | roleDeleted | extended | reduced =>
        simp [Edit.touches, Edit.locks] at htouch
  · rw [part_frame t htouch, part_frame t' htouch, h]

def theory : Lib.Locks.Theory Key Edit TableRows Part where
  apply := Edit.apply
  fits t := decide t.Valid
  part := part
  touches := Edit.touches
  frame := part_frame
  local_ := part_local

end ScopedAccess.Locked
