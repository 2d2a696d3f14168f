import ScopedAccess.Engine.Roles
import ScopedAccess.Engine.ScopeLaws
import Mathlib.Data.List.ReduceOption

namespace ScopedAccess

open Lib.Walk (Acyclic Reaches)
open Lib.Loop

namespace World

variable (w : World)

def reach (anchor : Anchor) (a : Assignment) : Py Bool :=
  match anchor with
  | .everywhere => .ok true
  | .denied => .ok a.row.isRootScope
  | .node n => if a.row.isRootScope then .ok true else w.anyAncestor n (w.sameNode a)
  | .unregistered => .ok false

def contribution (anchor : Anchor) (a : Assignment) : Py (Finset String) := do
  if !(← w.assignmentIsValid a) then return ∅
  return if ← w.reach anchor a then rolePerms a.role else ∅

def validReach (anchor : Anchor) (a : Assignment) : Py Bool := do
  if !(← w.assignmentIsValid a) then return false
  w.reach anchor a

/-- The rule itself: inclusive downward, never upward. -/
def Reach (anchor : Anchor) (a : Assignment) : Prop :=
  match anchor with
  | .everywhere => True
  | .denied => a.row.isRootScope
  | .node n => a.row.isRootScope ∨ ∃ r, w.Ancestor n r ∧ w.sameNode a r
  | .unregistered => False

variable {w}

theorem reach_true {anchor : Anchor} {a : Assignment} :
    w.reach anchor a = .ok true ↔ w.Reach anchor a := by
  cases anchor with
  | everywhere => simp [reach, Reach]
  | denied => simp [reach, Reach]
  | unregistered => simp [reach, Reach]
  | node n =>
    simp only [reach, Reach, ← anyAncestor_true]
    by_cases hroot : a.row.isRootScope <;> simp [hroot]

theorem reach_total {anchor : Anchor} (hw : ∀ n, anchor = .node n → w.Walks n)
    (a : Assignment) : ∃ b, w.reach anchor a = .ok b := by
  cases anchor with
  | everywhere => exact ⟨_, rfl⟩
  | denied => exact ⟨_, rfl⟩
  | unregistered => exact ⟨_, rfl⟩
  | node n =>
    obtain ⟨b, hb, -⟩ := anyAncestor_total (p := w.sameNode a) (hw n rfl)
    by_cases hroot : a.row.isRootScope
    · exact ⟨true, by simp [reach, hroot]⟩
    · exact ⟨b, by simp [reach, hroot, hb]⟩

theorem run_covers (a : Assignment) (o : Obj) :
    (covers a o).run w = w.validReach (w.resolveAnchor o) a := by
  simp only [covers, validReach, Read.run_bind, Read.run_isValid, Read.run_ite, Read.run_ask]
  congr 1
  funext valid
  cases valid with
  | false => rfl
  | true =>
    cases hanchor : w.resolveAnchor o <;> cases hroot : a.row.isRootScope <;>
      simp [hanchor, hroot, reach, Anchor.node?]

theorem run_userPermissions (u : User) (o : Option Obj) (at_ : Option Time) :
    (userPermissions u o at_).run w =
      if !u.isActive || (w.anchorOf o matches .unregistered) then .ok ∅
      else w.fetchEffective u (at_.getD w.now) >>= fun as =>
        gather (w.contribution (w.anchorOf o)) as ∅ := by
  simp only [userPermissions, Read.run_bind, Read.run_ite, Read.run_ask,
    Read.run_effectiveAssignments, Read.run_gather, Read.run_isValid, ok_bind]
  cases hactive : u.isActive with
  | false => simp
  | true =>
    cases hanchor : w.anchorOf o with
    | unregistered => simp
    | everywhere | denied => rfl
    | node n =>
      simp only [Bool.not_true, Bool.false_or, Bool.false_eq_true, if_false]
      refine congrArg _ (funext fun as => congrArg (gather · as ∅) (funext fun a => ?_))
      simp only [contribution, reach]
      congr 1
      funext valid
      cases valid with
      | false => rfl
      | true =>
        cases a.row.isRootScope with
        | true => rfl
        | false => cases w.anyAncestor n (w.sameNode a) <;> rfl

theorem run_userCovers (u : User) (o : Obj) (at_ : Option Time) :
    (userCovers u o at_).run w =
      if !u.isActive then .ok false
      else if u.isSuperuser || (w.resolveAnchor o matches .everywhere) then .ok true
      else if w.resolveAnchor o matches .unregistered then .ok false
      else w.fetchEffective u (at_.getD w.now) >>= fun as =>
        as.anyM (w.validReach (w.resolveAnchor o)) := by
  simp only [userCovers, Read.run_bind, Read.run_ite, Read.run_ask, Read.run_effectiveAssignments,
    Read.run_anyM, Read.run_isValid, ok_bind]
  cases hactive : u.isActive with
  | false => simp
  | true =>
    cases hsuper : u.isSuperuser with
    | true => simp
    | false =>
      cases hanchor : w.resolveAnchor o with
      | unregistered => simp
      | everywhere => simp
      | denied | node n =>
        simp only [Bool.not_true, Bool.false_or, Bool.false_eq_true, if_false]
        refine congrArg _ (funext fun as => congrArg (List.anyM · as) (funext fun a => ?_))
        simp only [validReach, reach]
        congr 1
        funext valid
        cases valid <;> cases a.row.isRootScope <;> simp

theorem validReach_true {anchor : Anchor} {a : Assignment} :
    w.validReach anchor a = .ok true ↔ w.Valid a ∧ w.Reach anchor a := by
  rw [validReach, bind_eq_ok, Valid, ← reach_true]
  constructor
  · rintro ⟨valid, hvalid, h⟩
    cases valid with
    | false => cases h
    | true => exact ⟨hvalid, h⟩
  · rintro ⟨hvalid, h⟩
    exact ⟨true, hvalid, h⟩

theorem contribution_eq (anchor : Anchor) (a : Assignment) : w.contribution anchor a =
    w.validReach anchor a >>= fun b => .ok (if b then rolePerms a.role else ∅) := by
  rw [contribution, validReach]
  cases w.assignmentIsValid a with
  | error e => rfl
  | ok valid => cases valid <;> rfl

theorem contribution_of_not_reach {anchor : Anchor} {a : Assignment}
    (h : w.validReach anchor a = .ok false) : w.contribution anchor a = .ok ∅ := by
  obtain ⟨valid, hvalid, hreach⟩ := bind_eq_ok.mp h
  rw [contribution, hvalid, ok_bind]
  cases valid with
  | false => rfl
  | true =>
    rw [Bool.not_true, if_neg (by simp)] at hreach ⊢
    rw [hreach]
    rfl

theorem mem_contribution {anchor : Anchor} {a : Assignment} {p : String} :
    (∃ t, w.contribution anchor a = .ok t ∧ p ∈ t) ↔
      w.Valid a ∧ w.Reach anchor a ∧ p ∈ rolePerms a.role := by
  simp only [contribution, bind_eq_ok, Valid, ← reach_true]
  constructor
  · rintro ⟨t, ⟨valid, hvalid, h⟩, hp⟩
    cases valid with
    | false =>
      obtain rfl : ∅ = t := by simpa using h
      simp at hp
    | true =>
      obtain ⟨covered, hcovered, h⟩ := bind_eq_ok.mp h
      cases covered with
      | false =>
        obtain rfl : ∅ = t := by simpa using h
        simp at hp
      | true =>
        obtain rfl : rolePerms a.role = t := by simpa using h
        exact ⟨hvalid, hcovered, hp⟩
  · rintro ⟨hvalid, hreach, hp⟩
    exact ⟨_, ⟨true, hvalid, by simp [hreach]⟩, hp⟩

theorem prefetch_some {row : AssignmentRow} {a : Assignment} :
    w.prefetch row = .ok (some a) ↔ ∃ scope r,
      w.db.generic row.scopeCt row.scopeId = .ok scope ∧ w.tables.role row.role = some r ∧
        a = ⟨row, w.loadRole r, .ok scope⟩ := by
  simp only [prefetch, bind_eq_ok, pure_eq_ok, Option.map_eq_some_iff]
  constructor
  · rintro ⟨scope, hscope, r, hr, rfl⟩
    exact ⟨scope, r, hscope, hr, rfl⟩
  · rintro ⟨scope, r, hscope, hr, rfl⟩
    exact ⟨scope, hscope, r, hr, rfl⟩

/-- The stored assignments of a principal that are effective at an instant, as
the decision functions see them. -/
def Effective (w : World) (u : Nat) (t : Time) (a : Assignment) : Prop :=
  ∃ row ∈ w.tables.assignments, row.user = u ∧ row.isEffective t ∧ w.prefetch row = .ok (some a)

theorem mem_fetchEffective {u : User} {t : Time} {as : List Assignment}
    (h : w.fetchEffective u t = .ok as) {a : Assignment} :
    a ∈ as ↔ w.Effective u.pk t a := by
  obtain ⟨found, hfound, h⟩ := bind_eq_ok.mp h
  obtain rfl := pure_eq_ok.mp h
  simp only [List.reduceOption_mem_iff, mem_of_mapM hfound, List.mem_filter, Bool.and_eq_true,
    decide_eq_true_eq, Effective, and_assoc]

theorem mem_userPermissions {u : User} {o : Option Obj} {at_ : Option Time} {P : Finset String}
    (h : (userPermissions u o at_).run w = .ok P) (hactive : u.isActive) {p : String} :
    p ∈ P ↔ ∃ a, w.Effective u.pk (at_.getD w.now) a ∧ w.Valid a ∧
      w.Reach (w.anchorOf o) a ∧ p ∈ rolePerms a.role := by
  rw [run_userPermissions, hactive] at h
  cases hanchor : w.anchorOf o with
  | unregistered =>
    obtain rfl : ∅ = P := by simpa [hanchor] using h
    simp [Reach]
  | everywhere | denied | node n =>
    rw [hanchor] at h
    obtain ⟨as, has, hP⟩ := bind_eq_ok.mp h
    simp [mem_gather hP, mem_fetchEffective has, mem_contribution]

def ScopesRead (w : World) : Prop :=
  ∀ a ∈ w.tables.assignments, ∃ s, w.db.generic a.scopeCt a.scopeId = .ok s

theorem fetchEffective_ok {u : User} {t : Time}
    (hread : ∀ a ∈ w.tables.assignments, a.user = u.pk → a.isEffective t →
      ∃ s, w.db.generic a.scopeCt a.scopeId = .ok s) :
    ∃ as, w.fetchEffective u t = .ok as := by
  obtain ⟨found, hfound⟩ : ∃ found, (w.tables.assignments.filter fun a =>
      a.user = u.pk && a.isEffective t).mapM w.prefetch = .ok found := by
    refine mapM_total fun row hrow => ?_
    simp only [List.mem_filter, Bool.and_eq_true, decide_eq_true_eq] at hrow
    obtain ⟨hmem, huser, heffective⟩ := hrow
    obtain ⟨s, hs⟩ := hread row hmem huser heffective
    obtain ⟨r, hr⟩ := w.tables.exists_role hmem
    exact ⟨_, prefetch_some.mpr ⟨s, r, hs, hr, rfl⟩⟩
  exact ⟨_, bind_eq_ok.mpr ⟨found, hfound, rfl⟩⟩

theorem fetchEffective_total (hw : w.ScopesRead) (u : User) (t : Time) :
    ∃ as, w.fetchEffective u t = .ok as := fetchEffective_ok fun a ha _ _ => hw a ha

def OwnersRead (w : World) : Prop :=
  ∀ r ∈ w.tables.roles, r.ownerId ≠ none → ∃ o, (w.loadRole r).ownerOrNone = .ok o

structure Readable (w : World) : Prop where
  scopes : w.ScopesRead
  owners : w.OwnersRead

theorem Readable.fetchEffective (hw : w.Readable) (u : User) (t : Time) :
    ∃ as, w.fetchEffective u t = .ok as := fetchEffective_total hw.scopes u t

def StoredAsPk (w : World) : Prop :=
  ∀ a ∈ w.tables.assignments, ∀ m i, a.scopeCt = some (w.site.schema.contentType m) →
    a.scopeId = some i → w.site.schema.toPk m i = .ok i

theorem Effective.valid_total {u : Nat} {t : Time} {a : Assignment} (ha : w.Effective u t a)
    (howners : w.OwnersRead) (hends : w.NodesEnd) : ∃ b, w.assignmentIsValid a = .ok b := by
  obtain ⟨row, hrow, -, -, hfetch⟩ := ha
  obtain ⟨scope, r, hscope, hr, rfl⟩ := prefetch_some.mp hfetch
  exact assignmentIsValid_total hends ⟨scope, orNone_ok scope⟩
    (howners r (w.tables.role_eq_some.mp hr).1)

section Total

variable {u : User} {t : Time} (howners : w.OwnersRead) (hends : w.NodesEnd) {anchor : Anchor}
  (hwalk : ∀ n, anchor = .node n → w.Walks n)
include howners hends hwalk

theorem contribution_total {a : Assignment} (ha : w.Effective u.pk t a) :
    ∃ P, w.contribution anchor a = .ok P := by
  obtain ⟨valid, hvalid⟩ := ha.valid_total howners hends
  obtain ⟨b, hb⟩ := reach_total hwalk a
  rw [contribution, hvalid, ok_bind]
  cases valid with
  | false => exact ⟨∅, rfl⟩
  | true => exact ⟨_, by rw [Bool.not_true, if_neg (by simp), hb]; rfl⟩

omit hwalk in
theorem userPermissions_answers (at_ : Option Time) {o : Option Obj}
    (hwalk : ∀ n, w.anchorOf o = .node n → w.Walks n)
    (hfetch : ∃ as, w.fetchEffective u (at_.getD w.now) = .ok as) :
    ∃ P, (userPermissions u o at_).run w = .ok P := by
  obtain ⟨as, has⟩ := hfetch
  obtain ⟨P, hP⟩ : ∃ P, gather (w.contribution (w.anchorOf o)) as ∅ = .ok P :=
    gather_total fun a ha => contribution_total howners hends hwalk ((mem_fetchEffective has).mp ha)
  rw [run_userPermissions, has, ok_bind, hP]
  exact ⟨_, (apply_ite Except.ok _ _ _).symm⟩

end Total

theorem userPermissions_total (hw : w.Readable) (hends : w.NodesEnd) (u : User)
    (at_ : Option Time) {o : Option Obj} (hwalk : ∀ n, w.anchorOf o = .node n → w.Walks n) :
    ∃ P, (userPermissions u o at_).run w = .ok P :=
  userPermissions_answers hw.owners hends at_ hwalk (hw.fetchEffective u _)

theorem run_hasPerm (u : User) (p : String) (o : Option Obj) (at_ : Option Time) :
    (hasPerm u p o at_).run w =
      if !u.isActive then .ok false
      else if u.isSuperuser then .ok true
      else (userPermissions u o at_).run w >>= fun P => .ok (decide (p ∈ P)) := by
  simp only [hasPerm, Read.run_ite, Read.run_bind]
  rfl

section Ordinary

variable {u : User} (hactive : u.isActive) (hsuper : u.isSuperuser = false)
  {at_ : Option Time} {b : Bool}
include hactive hsuper

theorem hasPerm_iff {p : String} {o : Option Obj} (h : (hasPerm u p o at_).run w = .ok b) :
    b = true ↔ ∃ a, w.Effective u.pk (at_.getD w.now) a ∧ w.Valid a ∧
      w.Reach (w.anchorOf o) a ∧ p ∈ rolePerms a.role := by
  rw [run_hasPerm, hactive, hsuper] at h
  obtain ⟨P, hP, hb⟩ := bind_eq_ok.mp h
  obtain rfl := Except.ok.inj hb
  rw [decide_eq_true_iff, mem_userPermissions hP hactive]

theorem userCovers_iff {o : Obj} (h : (userCovers u o at_).run w = .ok b) :
    b = true ↔ w.resolveAnchor o = .everywhere ∨ ∃ a, w.Effective u.pk (at_.getD w.now) a ∧
      w.Valid a ∧ w.Reach (w.resolveAnchor o) a := by
  rw [run_userCovers, hactive, hsuper] at h
  cases hanchor : w.resolveAnchor o with
  | everywhere =>
    obtain rfl : true = b := by simpa [hanchor] using h
    simp
  | unregistered =>
    obtain rfl : false = b := by simpa [hanchor] using h
    simp [Reach]
  | denied | node n =>
    rw [hanchor] at h
    obtain ⟨as, has, hloop⟩ := bind_eq_ok.mp h
    simp [anyM_true_iff hloop, mem_fetchEffective has, validReach_true]

end Ordinary

end World
end ScopedAccess
