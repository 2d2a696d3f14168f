import ScopedAccess.Engine.Agreement
import ScopedAccess.Engine.RolesLaws
import ScopedAccess.LifecycleLaws
import ScopedAccess.Helpdesk

namespace ScopedAccess

open Lib.Loop
open Lib.Walk (Reaches)

namespace World

variable {w : World} {u : User} {t : Time} {p : String} {x : Row}

def Carries (w : World) (u : Nat) (t : Time) (p : String) (a : Assignment) : Prop :=
  w.Effective u t a ∧ w.Valid a ∧ p ∈ rolePerms a.role

/-- Authority over a scope: from the root, from the scope or from above it. -/
def ScopeBound (w : World) (u : Nat) (t : Time) (p : String) (scope : Option Row) : Prop :=
  ∃ a, w.Carries u t p a ∧
    (a.row.isRootScope ∨ ∃ x ∈ scope, ∃ s, Reaches w.parent x s ∧ a.scope = .ok (some s))

/-- What counts as inside the scope of a node assignment without being a node:
a row of a global model, or one with its anchor there. -/
inductive FallsUnder (w : World) (a : Assignment) (x : Row) : Prop
  | registered (hglobal : w.site.resources.isGlobal x.model)
  | default (hpath : w.site.resources.anchorFor x.model = none)
      (hlax : w.site.strictRegistration = false)
  | anchored {path : Accessor} {n s : Row} (hglobal : w.site.resources.isGlobal x.model = false)
      (hpath : w.site.resources.anchorFor x.model = some path)
      (hn : w.db.follow x path.parts = some n) (hs : Reaches w.parent n s)
      (hsame : w.sameNode a s)

/-- A node, or a row that falls under no assignment the root would not make up for. -/
def Placed (w : World) (u : Nat) (t : Time) (p : String) (x : Row) : Prop :=
  w.hierarchy.isNodeModel x.model ∨
    ∀ a, w.Carries u t p a → w.FallsUnder a x → w.HeldAtRoot u t p

theorem Effective.sameNode_scope {a : Assignment} {u : Nat} {r : Row} (ha : w.Effective u t a)
    (hr : r ∈ w.db.rows) (h : w.sameNode a r) : a.scope = .ok (some r) := by
  obtain ⟨scope, hscope⟩ := ha.scope
  rw [hscope, ← ha.generic hscope]
  exact isRow_generic hr h

theorem HeldAtRoot.scopeBound {u : Nat} (h : w.HeldAtRoot u t p) (scope : Option Row) :
    w.ScopeBound u t p scope := by
  obtain ⟨a, ha, hvalid, hroot, hp⟩ := h
  exact ⟨a, ⟨ha, hvalid, hp⟩, .inl hroot⟩

theorem parent_of_not_isNodeModel (h : w.hierarchy.isNodeModel x.model = false) :
    w.parent x = none := by
  have hlevels : w.hierarchy.levelsForModel x.model = [] := by
    simpa [Hierarchy.isNodeModel] using h
  simp [parent, Hierarchy.parentAccessorForModel, hlevels]

theorem ScopeBound.heldAtRoot {u : Nat} (hx : w.hierarchy.isNodeModel x.model = false)
    (h : w.ScopeBound u t p (some x)) : w.HeldAtRoot u t p := by
  obtain ⟨a, ⟨ha, hvalid, hp⟩, hplace⟩ := h
  cases hroot : a.row.isRootScope with
  | true => exact ⟨a, ha, hvalid, hroot, hp⟩
  | false =>
    obtain hroot' | ⟨x', hx', s, hs, hscope⟩ := hplace
    · simp [hroot] at hroot'
    obtain rfl := Option.some.inj hx'
    obtain rfl | ⟨q, hq, -⟩ := Lib.Walk.reaches_iff.mp hs
    · obtain ⟨s', hs', -, -, name, -, l, hl, hsel⟩ := hvalid.node hroot
      obtain rfl : x = s' := by simpa [hscope] using orNone_some hs'
      have hnode := w.hierarchy.level_isNodeModel hl (Level.selects_model hsel)
      rw [hx] at hnode
      cases hnode
    · rw [parent_of_not_isNodeModel hx] at hq
      cases hq

theorem FallsUnder.reach {a : Assignment} (hx : w.hierarchy.isNodeModel x.model = false)
    (h : w.FallsUnder a x) : w.Reach (w.resolveAnchor (.stored x)) a := by
  cases h with
  | registered hglobal =>
    have hanchor : w.resolveAnchor (.stored x) = .everywhere := by
      simp [resolveAnchor, Obj.model, Obj.stored, hx, hglobal]
    rw [hanchor]
    trivial
  | default hpath hlax =>
    have hanchor : w.resolveAnchor (.stored x) = .everywhere := by
      simp [resolveAnchor, Obj.model, Obj.stored, hx, hpath, hlax]
    rw [hanchor]
    trivial
  | @anchored path n s hglobal hpath hn hs hsame =>
    have hfollow : w.followAttr (.stored x) path.parts = some (.stored n) :=
      followAttr_eq_stored.mpr hn
    have hanchor : w.resolveAnchor (.stored x) = .node (.stored n) := by
      have hfollow : w.followAttr (Obj.stored x) path.parts = some (.stored n) := hfollow
      simp [resolveAnchor, show (Obj.stored x).model = x.model from rfl, hx, hglobal, hpath, hfollow]
    rw [hanchor]
    exact .inr ⟨s, ancestor_stored.mpr hs, hsame⟩

theorem fallsUnder_of_reach {a : Assignment} (hroot : a.row.isRootScope = false)
    (hx : w.hierarchy.isNodeModel x.model = false)
    (h : w.Reach (w.resolveAnchor (.stored x)) a) : w.FallsUnder a x := by
  cases hanchor : w.resolveAnchor (.stored x) with
  | unregistered => rw [hanchor] at h; cases h
  | denied => rw [hanchor] at h; simp [Reach, hroot] at h
  | node n =>
    rw [hanchor] at h
    obtain hroot' | ⟨s, hs, hsame⟩ := h
    · simp [hroot] at hroot'
    obtain ⟨hnode, -⟩ | ⟨-, hglobal, path, hpath, rfl | ⟨n, hn, rfl⟩⟩ :=
      resolveAnchor_stored hanchor
    · simp [hx] at hnode
    · exact absurd hs not_ancestor_plain
    · exact .anchored hglobal hpath hn (ancestor_stored.mp hs) hsame
  | everywhere =>
    cases hglobal : w.site.resources.isGlobal x.model with
    | true => exact .registered hglobal
    | false =>
      have hx' : w.hierarchy.isNodeModel (Obj.stored x).model = false := hx
      have hglobal' : w.site.resources.isGlobal (Obj.stored x).model = false := hglobal
      unfold resolveAnchor at hanchor
      rw [hx', hglobal'] at hanchor
      cases hpath : w.site.resources.anchorFor x.model with
      | none =>
        refine .default hpath ?_
        cases hstrict : w.site.strictRegistration with
        | false => rfl
        | true =>
          have hpath' : w.site.resources.anchorFor (Obj.stored x).model = none := hpath
          simp [hpath', hstrict] at hanchor
      | some path =>
        have hpath' : w.site.resources.anchorFor (Obj.stored x).model = some path := hpath
        cases hn : w.followAttr (Obj.stored x) path.parts <;> simp [hpath', hn] at hanchor

section Ordinary

variable (hactive : u.isActive) (hsuper : u.isSuperuser = false) {at_ : Option Time}
include hactive hsuper

theorem hasPerm_bound_iff (hx : x ∈ w.db.rows) {b : Bool}
    (h : (hasPerm u p (some (.stored x)) at_).run w = .ok b) :
    (b = true → w.ScopeBound u.pk (at_.getD w.now) p (some x)) ↔
      w.Placed u.pk (at_.getD w.now) p x := by
  rw [hasPerm_iff hactive hsuper h, anchorOf]
  cases hnode : w.hierarchy.isNodeModel x.model with
  | true =>
    refine iff_of_true ?_ (.inl hnode)
    rintro ⟨a, ha, hvalid, hreach, hp⟩
    refine ⟨a, ⟨ha, hvalid, hp⟩, ?_⟩
    have hanchor : w.resolveAnchor (.stored x) = .node (.stored x) := by
      simp [resolveAnchor, Obj.model, Obj.stored, hnode]
    rw [hanchor] at hreach
    refine hreach.imp_right ?_
    rintro ⟨s, hs, hsame⟩
    have hs := ancestor_stored.mp hs
    exact ⟨x, rfl, s, hs, ha.sameNode_scope (reaches_mem hx hs) hsame⟩
  | false =>
    constructor
    · intro hbound
      refine .inr ?_
      rintro a ⟨ha, hvalid, hp⟩ hfalls
      exact (hbound ⟨a, ha, hvalid, hfalls.reach hnode, hp⟩).heldAtRoot hnode
    · rintro (hnode' | hplaced) ⟨a, ha, hvalid, hreach, hp⟩
      · simp [hnode] at hnode'
      cases hroot : a.row.isRootScope with
      | true => exact ⟨a, ⟨ha, hvalid, hp⟩, .inl hroot⟩
      | false =>
        have hfalls := fallsUnder_of_reach hroot hnode hreach
        exact (hplaced a ⟨ha, hvalid, hp⟩ hfalls).scopeBound _

def RoleBound (w : World) (u : User) (at_ : Option Time) (role : RoleRow) : Prop :=
  ∀ x, w.db.generic role.ownerCt role.ownerId = .ok (some x) →
    (canManageRole (some u) (w.loadRole role) at_).run w = .ok true →
    w.ScopeBound u.pk (at_.getD w.now) (w.site.roleApp ++ ".manage_roles") (some x)

def RolePlaced (w : World) (u : User) (at_ : Option Time) (role : RoleRow) : Prop :=
  ∀ x b, w.db.generic role.ownerCt role.ownerId = .ok (some x) →
    (canManageRole (some u) (w.loadRole role) at_).run w = .ok b →
    w.Placed u.pk (at_.getD w.now) (w.site.roleApp ++ ".manage_roles") x

theorem roleBound_iff (role : RoleRow) : w.RoleBound u at_ role ↔ w.RolePlaced u at_ role := by
  have hrun (x : Row) (hx : w.db.generic role.ownerCt role.ownerId = .ok (some x)) :
      x ∈ w.db.rows ∧ (canManageRole (some u) (w.loadRole role) at_).run w =
        (hasPerm u (w.site.roleApp ++ ".manage_roles") (some (.stored x)) at_).run w := by
    obtain ⟨hmem, -, i, hid, -⟩ := w.db.generic_some hx
    have hsome : (w.loadRole role).ownerId ≠ none := by
      intro hnone
      rw [show role.ownerId = none from hnone] at hid
      cases hid
    exact ⟨hmem, canManageRole_custom hsome (genericObj_stored.mpr hx) u⟩
  constructor
  · intro hbound x b hx hb
    obtain ⟨hmem, heq⟩ := hrun x hx
    rw [heq] at hb
    refine (hasPerm_bound_iff hactive hsuper hmem hb).mp ?_
    rintro rfl
    exact hbound x hx (heq.trans hb)
  · intro hplaced x hx hb
    obtain ⟨hmem, heq⟩ := hrun x hx
    exact (hasPerm_bound_iff hactive hsuper hmem (heq ▸ hb)).mpr (hplaced x true hx hb) rfl

/-- A suspension or revocation of an assignment whose scope can be read: where
the node is gone, the authority is the root's. -/
def AssignmentBound (w : World) (rc : Receivers) (u : User) (row : AssignmentRow) : Prop :=
  ∀ scope a w', w.db.generic row.scopeCt row.scopeId = .ok scope →
    (ScopeAssignment.authorizeTransition (some row.id) (some u)).run rc w = .ok (a, w') →
    w.ScopeBound u.pk w.now (w.site.assignmentApp ++ ".manage_assignments") scope

def AssignmentPlaced (w : World) (u : User) (row : AssignmentRow) : Prop :=
  ∀ x b, w.db.generic row.scopeCt row.scopeId = .ok (some x) →
    (canManageAssignment (some u) (some (.stored x)) none).run w = .ok b →
    w.Placed u.pk w.now (w.site.assignmentApp ++ ".manage_assignments") x

theorem assignmentBound_iff (rc : Receivers) {row : AssignmentRow}
    (hrow : row ∈ w.tables.assignments) (hid : row.scopeId ≠ none) :
    w.AssignmentBound rc u row ↔ w.AssignmentPlaced u row := by
  have hstored : w.tables.assignment row.id = some row :=
    w.tables.assignment_eq_some.mpr ⟨hrow, rfl⟩
  constructor
  · intro hbound x b hx hb
    have hmem := (w.db.generic_some hx).1
    refine (hasPerm_bound_iff hactive hsuper hmem (canManageAssignment_node _ u ▸ hb)).mp ?_
    rintro rfl
    obtain ⟨a, hauth⟩ := ScopeAssignment.authorizeTransition_of_allowed rc hstored hx hb
    exact hbound (some x) a w hx hauth
  · intro hplaced scope a w' hscope hauth
    obtain ⟨row', scope', hid', hrow', hload, hscope', hb, -⟩ :=
      ScopeAssignment.authorizeTransition_ok hauth
    have hid' : row.id = row'.id := Option.some.inj hid'
    obtain rfl : row = row' := by
      rw [← hid', hstored] at hrow'
      exact Option.some.inj hrow'
    obtain ⟨role, -, rfl⟩ := Option.map_eq_some_iff.mp hload
    have hread : scope = scope' := by
      have hsome : row.scopeId.isNone = false := by
        rwa [Option.isNone_eq_false_iff, Option.isSome_iff_ne_none]
      simpa [ScopeAssignment.scopeUnlessRoot, hsome, hscope] using hscope'
    subst hread
    cases scope with
    | some x =>
      have hmem := (w.db.generic_some hscope).1
      have hperm := hb
      rw [Option.map_some, canManageAssignment_node] at hperm
      exact (hasPerm_bound_iff hactive hsuper hmem hperm).mpr (hplaced x true hscope hb) rfl
    | none => exact ((canManageAssignment_root hactive hsuper hb).mp rfl).scopeBound none

end Ordinary

/-- R4 holds of the stored roles and assignments exactly where their owners and
scopes are placed. -/
theorem administration_bound_iff (w : World) (rc : Receivers) {u : User} (hactive : u.isActive)
    (hsuper : u.isSuperuser = false) :
    (∀ at_, ∀ role ∈ w.tables.roles, w.RoleBound u at_ role ↔ w.RolePlaced u at_ role) ∧
      ∀ row ∈ w.tables.assignments, row.scopeId ≠ none →
        (w.AssignmentBound rc u row ↔ w.AssignmentPlaced u row) :=
  ⟨fun _ role _ => roleBound_iff hactive hsuper role,
    fun _ hrow hid => assignmentBound_iff hactive hsuper rc hrow hid⟩

end World

namespace Helpdesk

theorem alice_bound : (∀ role ∈ staff.roles, staffed.RoleBound alice none role) ∧
    ∀ row ∈ staff.assignments, row.scopeId ≠ none →
      staffed.AssignmentBound (fun _ => none) alice row := by
  have hactive : alice.isActive := rfl
  obtain ⟨hroles, hassignments⟩ := staffed.administration_bound_iff (fun _ => none) hactive rfl
  have hlevel (x : Row) (hx : x ∈ db.rows) (hm : x.model ≠ ticket) :
      staffed.hierarchy.isNodeModel x.model := by
    have h : ∀ x ∈ db.rows, x.model ≠ ticket → hierarchy.isNodeModel x.model := by decide
    exact h x hx hm
  have hct (ct : Ct) (hct : ct ∈ staff.contentTypes) : ct ≠ ticket := by
    have h : ∀ ct ∈ staff.contentTypes, ct ≠ ticket := by decide
    exact h ct hct
  refine ⟨fun role hrole => (hroles none role hrole).mpr fun x b hx hb => ?_,
    fun row hrow hid => (hassignments row hrow hid).mpr fun x b hx hb => ?_⟩
  · obtain ⟨hmem, hxct, -⟩ := db.generic_some hx
    exact .inl (hlevel x hmem (hct _ (staff.valid.1.2.2 role hrole _ hxct)))
  · obtain ⟨hmem, hxct, -⟩ := db.generic_some hx
    exact .inl (hlevel x hmem (hct _ ((staff.valid.2.2.2.2 row hrow).2.2.1 _ hxct)))

def globexViewer : AssignmentRow :=
  { id := 2, user := 2, role := 1, level := some "ORGANIZATION",
    scopeCt := some organization, scopeId := some "2" }

def teamStaff : Tables where
  users := [1, 2]
  contentTypes := [organization, team]
  roles := [{ id := 1, name := "viewer" }, { id := 2, name := "manager" }, triage]
  rolePermissions := [⟨1, viewTicket⟩, ⟨2, manageRoles⟩, ⟨2, manageAssignments⟩]
  assignments := [
    { id := 1, user := 1, role := 2, level := some "TEAM", scopeCt := some team,
      scopeId := some "1" },
    globexViewer]
  valid := by decide

def drifted : World where
  site := {
    schema := schema
    hierarchy := ⟨[{ name := "TEAM", model := some team }]⟩
    resources := ResourceRegistry.register {} ticket { first := "team" }
    roleOwnerLevels := ["TEAM"] }
  db := db
  now := 10
  tables := teamStaff

theorem drifted_not_heldAtRoot (u : Nat) (t : Time) (p : String) : ¬ drifted.HeldAtRoot u t p := by
  rintro ⟨a, ha, -, hroot, -⟩
  have h : ∀ row ∈ teamStaff.assignments, row.isRootScope = false := by decide
  rw [h a.row ha.row_mem] at hroot
  cases hroot

theorem drifted_unbound : ¬ drifted.RoleBound alice none triage ∧
    ¬ drifted.AssignmentBound (fun _ => none) alice globexViewer := by
  have hnode : drifted.hierarchy.isNodeModel globex.model = false := by decide
  have hread : drifted.db.generic globexViewer.scopeCt globexViewer.scopeId =
      .ok (some globex) := rfl
  constructor
  · intro hbound
    have hmanages : (canManageRole (some alice) (drifted.loadRole triage) none).run drifted =
        .ok true := by decide
    exact drifted_not_heldAtRoot _ _ _ ((hbound globex hread hmanages).heldAtRoot hnode)
  · intro hbound
    have hmanages : (canManageAssignment (some alice) (some (.stored globex)) none).run drifted =
        .ok true := by decide
    have hstored : drifted.tables.assignment globexViewer.id = some globexViewer := rfl
    obtain ⟨a, hauth⟩ :=
      ScopeAssignment.authorizeTransition_of_allowed (fun _ => none) hstored hread hmanages
    exact drifted_not_heldAtRoot _ _ _
      ((hbound (some globex) a drifted hread hauth).heldAtRoot hnode)

end Helpdesk

end ScopedAccess
