import ScopedAccess.Engine.DecisionLaws

namespace ScopedAccess

open Lib.Loop

namespace World

variable {w : World} {at_ : Option Time}

def HeldAtRoot (w : World) (u : Nat) (t : Time) (p : String) : Prop :=
  ∃ a, w.Effective u t a ∧ w.Valid a ∧ a.row.isRootScope ∧ p ∈ rolePerms a.role

theorem run_heldAtRoot {u : User} {H : Finset String}
    (h : (heldAtRoot u at_).run w = .ok H) {p : String} :
    p ∈ H ↔ w.HeldAtRoot u.pk (at_.getD w.now) p := by
  simp only [heldAtRoot, Read.run_bind, Read.run_effectiveAssignments, Read.run_gather,
    Read.run_isValid] at h
  obtain ⟨as, has, hH⟩ := bind_eq_ok.mp h
  rw [mem_gather hH]
  simp only [Finset.notMem_empty, false_or, HeldAtRoot, mem_fetchEffective has]
  refine exists_congr fun a => and_congr_right fun _ => ?_
  constructor
  · rintro ⟨t, ht, hp⟩
    obtain ⟨valid, hvalid, ht⟩ := bind_eq_ok.mp ht
    cases valid with
    | false =>
      obtain rfl : ∅ = t := by simpa using ht
      simp at hp
    | true =>
      cases hroot : a.row.isRootScope with
      | false =>
        obtain rfl : ∅ = t := by simpa [hroot] using ht
        simp at hp
      | true =>
        obtain rfl : rolePerms a.role = t := by simpa [hroot] using ht
        exact ⟨hvalid, rfl, hp⟩
  · rintro ⟨hvalid, hroot, hp⟩
    have hvalid : w.assignmentIsValid a = .ok true := hvalid
    exact ⟨_, bind_eq_ok.mpr ⟨true, hvalid, by simp [hroot]⟩, hp⟩

theorem run_carriedAtRoot {u : User} {p : String} {b : Bool}
    (h : (carriedAtRoot u p at_).run w = .ok b) :
    b = true ↔ w.HeldAtRoot u.pk (at_.getD w.now) p := by
  simp only [carriedAtRoot, Read.run_bind, Read.run_effectiveAssignments, Read.run_anyM] at h
  obtain ⟨as, has, hb⟩ := bind_eq_ok.mp h
  rw [anyM_true_iff hb]
  simp only [mem_fetchEffective has, HeldAtRoot]
  refine exists_congr fun a => and_congr_right fun _ => ?_
  simp only [Read.run_ite, Read.run_pure, Read.run_isValid, bind_eq_ok, Valid]
  constructor
  · rintro ⟨valid, hvalid, h⟩
    cases valid with
    | false => simp at h
    | true => exact ⟨hvalid, by simpa using h⟩
  · rintro ⟨hvalid, hroot, hp⟩
    exact ⟨true, hvalid, by simp [hroot, hp]⟩

theorem canManageRole_custom {role : Role} {o : Obj} (hid : role.ownerId ≠ none)
    (howner : role.owner = .ok (some o)) (u : User) :
    (canManageRole (some u) role at_).run w =
      (hasPerm u (w.site.roleApp ++ ".manage_roles") (some o) at_).run w := by
  have hread : ownerUnlessSystem role = .ok (some o) := by
    rw [ownerUnlessSystem, if_neg (by simpa using hid), Role.ownerOrNone, howner, orNone_ok]
  have hsome : role.ownerId.isSome := Option.isSome_iff_ne_none.mpr hid
  simp only [canManageRole, Read.run_ite, Read.run_bind, Read.run_liftPy, Read.run_ask, hread,
    ok_bind, hsome, Option.isNone_some, Bool.and_false, Bool.false_eq_true, if_false, if_true,
    run_hasPerm]
  cases u.isActive <;> cases u.isSuperuser <;> rfl

theorem canManageAssignment_node (o : Obj) (u : User) :
    (canManageAssignment (some u) (some o) at_).run w =
      (hasPerm u (w.site.assignmentApp ++ ".manage_assignments") (some o) at_).run w := by
  simp only [canManageAssignment, Read.run_ite, Read.run_bind, Read.run_ask, ok_bind,
    Option.isSome_some, if_true, run_hasPerm]
  cases u.isActive <;> cases u.isSuperuser <;> rfl

section Ordinary

variable {u : User} (hactive : u.isActive) (hsuper : u.isSuperuser = false)
include hactive hsuper

theorem canManageAssignment_root {b : Bool}
    (h : (canManageAssignment (some u) none at_).run w = .ok b) :
    b = true ↔ w.HeldAtRoot u.pk (at_.getD w.now)
      (w.site.assignmentApp ++ ".manage_assignments") := by
  refine run_carriedAtRoot ?_
  simpa [canManageAssignment, hactive, hsuper] using h

theorem canManageRole_ok {role : Role}
    (h : (canManageRole (some u) role at_).run w = .ok true) :
    role.ownerId = none ∧
        w.HeldAtRoot u.pk (at_.getD w.now) (w.site.roleApp ++ ".manage_global_roles") ∨
      role.ownerId ≠ none ∧ ∃ owner P, role.ownerOrNone = .ok (some owner) ∧
        (userPermissions u (some owner) at_).run w = .ok P ∧
        w.site.roleApp ++ ".manage_roles" ∈ P := by
  simp only [canManageRole, hactive, hsuper, Bool.not_true, Bool.false_eq_true, if_false,
    Read.run_bind, Read.run_liftPy, Read.run_ite, Read.run_ask, ok_bind] at h
  obtain ⟨owner, howner, h⟩ := bind_eq_ok.mp h
  cases hid : role.ownerId with
  | none =>
    simp only [hid, Option.isSome_none, Bool.false_and, Bool.false_eq_true, if_false] at h
    exact .inl ⟨rfl, (run_carriedAtRoot h).mp rfl⟩
  | some id =>
    have howner : role.ownerOrNone = .ok owner := by simpa [ownerUnlessSystem, hid] using howner
    cases owner with
    | none => simp [hid] at h
    | some owner =>
      simp only [hid, Option.isSome_some, Option.isNone_some, Bool.and_false, Bool.false_eq_true,
        if_false, if_true, run_hasPerm, hactive, hsuper, Bool.not_true] at h
      obtain ⟨P, hP, hp⟩ := bind_eq_ok.mp h
      exact .inr ⟨by simp, owner, P, howner, hP, by simpa using hp⟩

variable (hself : w.site.grantablePermissions = .self)
include hself

theorem canGrantPermission_ok {role : Role} {p : String}
    (h : (canGrantPermission u role p at_).run w = .ok true) :
    role.ownerId = none ∧ w.HeldAtRoot u.pk (at_.getD w.now) p ∨
      role.ownerId ≠ none ∧ ∃ owner P, role.ownerOrNone = .ok (some owner) ∧
        (userPermissions u (some owner) at_).run w = .ok P ∧ p ∈ P := by
  simp only [canGrantPermission, hactive, hsuper, Bool.not_true, Bool.false_eq_true, if_false,
    Read.run_bind, Read.run_liftPy, Read.run_ite, Read.run_ask, ok_bind, hself] at h
  obtain ⟨owner, howner, h⟩ := bind_eq_ok.mp h
  cases hid : role.ownerId with
  | none =>
    simp only [hid, Option.isSome_none, Bool.false_and, Bool.false_eq_true, if_false,
      Option.isNone_none, if_true] at h
    obtain ⟨H, hH, hp⟩ := bind_eq_ok.mp h
    exact .inl ⟨rfl, (run_heldAtRoot hH).mp (by simpa using hp)⟩
  | some id =>
    have howner : role.ownerOrNone = .ok owner := by simpa [ownerUnlessSystem, hid] using howner
    cases owner with
    | none => simp [hid] at h
    | some owner =>
      simp only [hid, Option.isSome_some, Option.isNone_some, Bool.and_false, Bool.false_eq_true,
        if_false] at h
      obtain ⟨P, hP, hp⟩ := bind_eq_ok.mp h
      exact .inr ⟨by simp, owner, P, howner, hP, by simpa using hp⟩

theorem canAssignRole_ok {row : RoleRow} (hrow : w.tables.role row.id = some row)
    {level : Option String} {node : Option Obj}
    (h : (canAssignRole (some u) (w.loadRole row) level node at_).run w = .ok true) :
    ∀ p ∈ w.tables.roleLabels row.id, match node with
      | none => w.HeldAtRoot u.pk (at_.getD w.now) p
      | some n => ∃ P, (userPermissions u (some n) at_).run w = .ok P ∧ p ∈ P := by
  have hpk : (w.loadRole row).pk = some row.id := rfl
  simp only [canAssignRole, hactive, hsuper, Bool.not_true, Bool.false_eq_true, if_false, hpk,
    Read.run_bind, Read.run_liftPy, Read.run_ite, Read.run_ask, ok_bind, hrow, hself] at h
  obtain ⟨fits, -, h⟩ := bind_eq_ok.mp h
  cases fits with
  | false => simp at h
  | true =>
    simp only [Bool.not_true, Bool.false_eq_true, if_false] at h
    obtain ⟨visible, -, h⟩ := bind_eq_ok.mp h
    cases visible with
    | false => simp at h
    | true =>
      intro p hp
      cases node with
      | none =>
        simp only [Bool.not_true, Bool.false_eq_true, if_false, Option.isNone_none, if_true] at h
        obtain ⟨H, hH, hsub⟩ := bind_eq_ok.mp h
        have hsub : rolePerms (w.loadRole row) ⊆ H := by simpa using hsub
        exact (run_heldAtRoot hH).mp (hsub hp)
      | some n =>
        simp only [Bool.not_true, Bool.false_eq_true, if_false, Option.isNone_some] at h
        obtain ⟨P, hP, hsub⟩ := bind_eq_ok.mp h
        have hsub : rolePerms (w.loadRole row) ⊆ P := by simpa using hsub
        exact ⟨P, hP, hsub hp⟩

end Ordinary

end World

end ScopedAccess
