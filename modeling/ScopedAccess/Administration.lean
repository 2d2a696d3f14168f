import ScopedAccess.RoleServiceLaws
import ScopedAccess.Engine.Containment
import ScopedAccess.Engine.RolesLaws
import ScopedAccess.Engine.Settling
import ScopedAccess.Lib.Delegation

namespace ScopedAccess

open Lib.Delegation Lib.Delegation.Authority
open Lib.Walk (Reaches)

namespace World

variable (w : World)

/-- The stored nodes a row's scope covers. -/
def region (row : AssignmentRow) : Region Row :=
  if row.isRootScope then .everything
  else .nodes {r | r ∈ w.db.rows ∧
    ∃ s, Reaches w.parent r s ∧ w.isRow row.scopeCt row.scopeId s}

def target (o : Option Obj) : Target Row :=
  match w.anchorOf o with
  | .everywhere => .everywhere
  | .denied => .nowhere
  | .unregistered => .hidden
  | .node (.object n) => .node n.row
  | .node .plain => .hidden

/-- The row is in force and fits its role. -/
def Confers (row : AssignmentRow) (r : RoleRow) : Prop :=
  row.isEffective w.now ∧ ∃ scope, w.db.generic row.scopeCt row.scopeId = .ok scope ∧
    w.Valid ⟨row, w.loadRole r, .ok scope⟩

def authority : Authority Nat String Row := fun u p R =>
  ∃ row ∈ w.tables.assignments, ∃ r, w.tables.role row.role = some r ∧ row.user = u ∧
    w.Confers row r ∧ p ∈ w.tables.roleLabels r.id ∧ R = w.region row

/-- Hierarchy nodes are passed as they are stored. -/
def Persisted (o : Option Obj) : Prop :=
  ∀ n, w.anchorOf o = .node n → ∃ r ∈ w.db.rows, n = .stored r

variable {w}

theorem covers_iff_reach {o : Option Obj} (ho : w.Persisted o) {a : Assignment} :
    (w.region a.row).Covers (w.target o) ↔ w.Reach (w.anchorOf o) a := by
  unfold region target Reach
  cases hanchor : w.anchorOf o with
  | everywhere => cases a.row.isRootScope <;> simp [Region.Covers]
  | denied => cases a.row.isRootScope <;> simp [Region.Covers]
  | unregistered => cases a.row.isRootScope <;> simp [Region.Covers]
  | node n =>
    obtain ⟨r, hmem, rfl⟩ := ho n hanchor
    cases a.row.isRootScope with
    | true => simp [Region.Covers, Attr.stored]
    | false =>
      simp only [Region.Covers, Bool.false_eq_true, if_false, Set.mem_ofPred_eq, false_or,
        ancestor_stored, sameNode]
      exact and_iff_right hmem

theorem mem_userPermissions_holds {u : User} (hactive : u.isActive) {o : Option Obj}
    (ho : w.Persisted o) {P : Finset String} (hP : (userPermissions u o none).run w = .ok P)
    {p : String} : p ∈ P ↔ w.authority.Holds u.pk p (w.target o) := by
  rw [mem_userPermissions hP hactive]
  constructor
  · rintro ⟨a, ⟨row, hrow, huser, heffective, hfetch⟩, hvalid, hreach, hp⟩
    obtain ⟨scope, r, hscope, hr, rfl⟩ := prefetch_some.mp hfetch
    exact ⟨_, ⟨row, hrow, r, hr, huser, ⟨heffective, scope, hscope, hvalid⟩, hp, rfl⟩,
      (covers_iff_reach ho).mpr hreach⟩
  · rintro ⟨_, ⟨row, hrow, r, hr, huser, ⟨heffective, scope, hscope, hvalid⟩, hp, rfl⟩, hcovers⟩
    exact ⟨_, ⟨row, hrow, huser, heffective, prefetch_some.mpr ⟨scope, r, hscope, hr, rfl⟩⟩,
      hvalid, (covers_iff_reach ho).mp hcovers, hp⟩

theorem heldAtRoot_authority {u : Nat} {p : String} (h : w.HeldAtRoot u w.now p) :
    w.authority u p .everything := by
  obtain ⟨a, ⟨row, hrow, huser, heffective, hfetch⟩, hvalid, hroot, hp⟩ := h
  obtain ⟨scope, r, hscope, hr, rfl⟩ := prefetch_some.mp hfetch
  refine ⟨row, hrow, r, hr, huser, ⟨heffective, scope, hscope, hvalid⟩, hp, ?_⟩
  rw [region, if_pos hroot]

theorem persisted_stored {s : Row} (hs : s ∈ w.db.rows) (hm : w.hierarchy.isNodeModel s.model) :
    w.Persisted (some (.stored s)) ∧ w.target (some (.stored s)) = .node s := by
  have hanchor : w.anchorOf (some (.stored s)) = .node (.stored s) := by
    rw [anchorOf, resolveAnchor, if_pos (show w.hierarchy.isNodeModel (Obj.stored s).model from hm)]
  refine ⟨fun n hn => ⟨s, hs, ?_⟩, by rw [target, hanchor]; rfl⟩
  exact (Anchor.node.inj (hanchor.symm.trans hn)).symm

theorem region_le {row row' : AssignmentRow} {s : Row}
    (hcovers : (w.region row').Covers (.node s))
    (hbelow : ∀ r q, r ∈ w.db.rows → Reaches w.parent r q →
      w.isRow row.scopeCt row.scopeId q → Reaches w.parent r s)
    (hroot : row.isRootScope = false) : w.region row ≤ w.region row' := by
  unfold region at hcovers ⊢
  rw [if_neg (by simp [hroot])]
  cases hroot' : row'.isRootScope with
  | true => exact Region.le_everything _
  | false =>
    simp only [hroot', Bool.false_eq_true, if_false] at hcovers ⊢
    obtain ⟨-, s', hs', hrow'⟩ := hcovers
    rintro r ⟨hr, q, hrq, hq⟩
    exact ⟨hr, s', (hbelow r q hr hrq hq).trans hs', hrow'⟩

section Backing

variable {c : User} (hactive : c.isActive) (hsuper : c.isSuperuser = false)
include hactive

theorem backs_of_node {s : Row} (hs : s ∈ w.db.rows) (hm : w.hierarchy.isNodeModel s.model)
    {P : Finset String} (hP : (userPermissions c (some (.stored s)) none).run w = .ok P)
    {p : String} (hp : p ∈ P) {row : AssignmentRow} (hroot : row.isRootScope = false)
    (hbelow : ∀ r q, r ∈ w.db.rows → Reaches w.parent r q →
      w.isRow row.scopeCt row.scopeId q → Reaches w.parent r s) :
    w.authority.Backs c.pk p (w.region row) := by
  obtain ⟨hpersisted, htarget⟩ := persisted_stored hs hm
  obtain ⟨R, hR, hcovers⟩ := (mem_userPermissions_holds hactive hpersisted hP).mp hp
  rw [htarget] at hcovers
  obtain ⟨row', hrow', r, hr, huser, hconf, hlabel, rfl⟩ := hR
  exact ⟨_, ⟨row', hrow', r, hr, huser, hconf, hlabel, rfl⟩, region_le hcovers hbelow hroot⟩

omit hactive in
theorem backs_of_root {p : String} (h : w.HeldAtRoot c.pk w.now p) (row : AssignmentRow) :
    w.authority.Backs c.pk p (w.region row) :=
  ⟨_, heldAtRoot_authority h, Region.le_everything _⟩

omit hactive in
theorem Confers.scope {row : AssignmentRow} {r : RoleRow} (h : w.Confers row r)
    (hroot : row.isRootScope = false) :
    ∃ s, w.db.generic row.scopeCt row.scopeId = .ok (some s) ∧ w.NodeShape row s := by
  obtain ⟨-, scope, hscope, hvalid⟩ := h
  obtain ⟨s, hs, hshape⟩ := hvalid.node hroot
  obtain rfl : scope = some s := by simpa [Assignment.scopeOrNone] using hs
  exact ⟨s, hscope, hshape⟩

omit hactive in
theorem scope_unique {row : AssignmentRow} {s q : Row}
    (hs : w.db.generic row.scopeCt row.scopeId = .ok (some s)) (hq : q ∈ w.db.rows)
    (hrow : w.isRow row.scopeCt row.scopeId q) : q = s := by
  have hgeneric := isRow_generic hq hrow
  simpa [hs, eq_comm] using hgeneric

variable (hself : w.site.grantablePermissions = .self)
include hsuper hself

theorem assign_backs {row : AssignmentRow} {r : RoleRow} (hr : w.tables.role r.id = some r)
    (hconf : w.Confers row r) (level : Option String) (scope : Option Row)
    (hscope : (if row.scopeId.isNone then .ok none
      else w.db.generic row.scopeCt row.scopeId) = .ok scope)
    (hassign : (canAssignRole (some c) (w.loadRole r) level (scope.map Obj.stored) none).run w =
      .ok true) {p : String} (hp : p ∈ w.tables.roleLabels r.id) :
    w.authority.Backs c.pk p (w.region row) := by
  have hheld := canAssignRole_ok hactive hsuper hself hr hassign p hp
  cases hroot : row.isRootScope with
  | true =>
    have hid : row.scopeId = none := by simpa using hroot
    obtain rfl : none = scope := by simpa [hid] using hscope
    exact backs_of_root hheld row
  | false =>
    have hid : row.scopeId ≠ none := by simpa using hroot
    obtain ⟨s, hs, hshape⟩ := hconf.scope hroot
    obtain rfl : some s = scope := by simpa [hid, hs] using hscope
    obtain ⟨P, hP, hpP⟩ := hheld
    obtain ⟨-, -, name, -, l, hl, hsel⟩ := hshape
    have hm := w.hierarchy.level_isNodeModel hl (Level.selects_model hsel)
    refine backs_of_node hactive (w.db.generic_some hs).1 hm hP hpP hroot fun x q hx hxq hq => ?_
    rw [← scope_unique hs (reaches_mem hx hxq) hq]
    exact hxq

theorem extend_backs {row : AssignmentRow} {r : RoleRow} (hconf : w.Confers row r)
    (howner : ∀ X, w.db.generic r.ownerCt r.ownerId = .ok (some X) →
      w.hierarchy.isNodeModel X.model) {p : String}
    (hgrant : (canGrantPermission c (w.loadRole r) p none).run w = .ok true) :
    w.authority.Backs c.pk p (w.region row) := by
  rcases canGrantPermission_ok hactive hsuper hself hgrant with
    ⟨-, hroot⟩ | ⟨hcustom, owner, P, howner', hP, hp⟩
  · exact backs_of_root hroot row
  · obtain ⟨heffective, scope, hscope, hvalid⟩ := hconf
    obtain ⟨hroot, s, owner', X, hs, -, -, hsX, hX⟩ := hvalid.custom hcustom
    obtain rfl : scope = some s := by simpa [Assignment.scopeOrNone] using hs
    have hmemX : X ∈ w.db.rows := reaches_mem (w.db.generic_some hscope).1 hsX
    have hgeneric : w.db.generic r.ownerCt r.ownerId = .ok (some X) := isRow_generic hmemX hX
    obtain rfl : Obj.stored X = owner := by
      have hread : (w.loadRole r).owner = .ok (some (.stored X)) := genericObj_stored.mpr hgeneric
      simpa [Role.ownerOrNone, hread] using howner'
    refine backs_of_node hactive hmemX (howner X hgeneric) hP hp hroot fun x q hx hxq hq => ?_
    rw [scope_unique hscope (reaches_mem hx hxq) hq] at hxq
    exact hxq.trans hsX

end Backing

def OwnersConfigured (w : World) : Prop :=
  ∀ r ∈ w.tables.roles, ∀ X, w.db.generic r.ownerCt r.ownerId = .ok (some X) →
    w.hierarchy.isNodeModel X.model

/-- A call that leaves host rows alone and adds no authority but what is backed. -/
structure Delegated (C : Set Nat) (w w' : World) : Prop where
  frame : ∃ t, w' = w.save t
  owners : w.OwnersConfigured → w'.OwnersConfigured
  delegates : w.OwnersConfigured → Delegates C w.authority w'.authority

theorem Delegated.refl {C : Set Nat} : Delegated C w w :=
  ⟨⟨w.tables, rfl⟩, id, fun _ => Delegates.refl⟩

theorem Delegated.mono {C D : Set Nat} {w' : World} (h : Delegated C w w') (hCD : C ⊆ D) :
    Delegated D w w' :=
  ⟨h.frame, h.owners, fun hw => (h.delegates hw).mono hCD⟩

theorem Delegated.trans {C : Set Nat} {w' w'' : World} (h : Delegated C w w')
    (h' : Delegated C w' w'') : Delegated C w w'' where
  frame := by
    obtain ⟨t, rfl⟩ := h.frame
    obtain ⟨t', rfl⟩ := h'.frame
    exact ⟨t', rfl⟩
  owners hw := h'.owners (h.owners hw)
  delegates hw := (h.delegates hw).trans (h'.delegates (h.owners hw))

theorem Delegated.of_rows {C : Set Nat} {t : Tables} (hroles : t.roles = w.tables.roles)
    (hperms : t.rolePermissions = w.tables.rolePermissions)
    (hrows : ∀ row ∈ t.assignments, ∀ r, w.tables.role row.role = some r → w.Confers row r →
      row ∈ w.tables.assignments ∨ ∃ c ∈ C, ∀ p ∈ w.tables.roleLabels r.id,
        w.authority.Backs c p (w.region row)) : Delegated C w (w.save t) where
  frame := ⟨t, rfl⟩
  owners hw r hr := hw r (hroles ▸ hr)
  delegates _ := by
    have hrole (id : Nat) : t.role id = w.tables.role id := by rw [Tables.role, hroles]; rfl
    have hlabels (id : Nat) : t.roleLabels id = w.tables.roleLabels id := by
      rw [Tables.roleLabels, hperms]
      rfl
    rintro u p R ⟨row, hrow, r, hr, huser, hconf, hp, rfl⟩
    rw [save_tables, hrole] at hr
    rw [save_tables, hlabels] at hp
    rcases hrows row hrow r hr hconf with hmem | ⟨c, hc, hbacks⟩
    · exact .inl ⟨row, hmem, r, hr, huser, hconf, hp, rfl⟩
    · exact .inr ⟨c, hc, hbacks p hp⟩

section Calls

variable {rc : Receivers} {w' : World} {c : User} (hactive : c.isActive)
  (hsuper : c.isSuperuser = false) (hself : w.site.grantablePermissions = .self)

theorem grantLevel_mem {level level' : Option String} {o : Obj}
    (h : w.grantLevel level (some o) = .ok level') : o.row ∈ w.db.rows := by
  have hmem : ∃ name, name ∈ w.matchingLevels o := by
    unfold grantLevel at h
    cases level with
    | none =>
      dsimp only at h
      split at h
      · rename_i name hlist
        exact ⟨name, by simp [hlist]⟩
      · simp [throwing] at h
    | some name =>
      by_cases hname : name ∈ w.matchingLevels o
      · exact ⟨name, hname⟩
      · simp [hname, throwing] at h
  obtain ⟨name, hname⟩ := hmem
  obtain ⟨l, -, hsel, -⟩ := mem_matchingLevels.mp hname
  exact Level.selects_mem hsel

include hactive hsuper hself in
theorem grant_delegated {user : User} {role : Role} {level : Option String}
    {scope : Option Obj} {validFrom validUntil : Option Time} {a : AssignmentRow}
    (hscope : ∀ o ∈ scope, o = .stored o.row)
    (h : (ScopeAssignment.grant user role (some c) level scope validFrom validUntil).run rc w =
      .ok (a, w')) : Delegated {c.pk} w w' := by
  obtain ⟨r, level', t, hr, hlevel, -, hassign, ha, ht, rfl⟩ := ScopeAssignment.grant_ok h
  refine .of_rows (by rw [ht]; rfl) (by rw [ht]; rfl) ?_
  intro row hrow r' hr' hconf
  rw [ht] at hrow
  rcases List.mem_append.mp hrow with hmem | hmem
  · exact .inl hmem
  · obtain rfl : row = a := List.mem_singleton.mp hmem
    have hrole : row.role = r.id := ha ▸ rfl
    rw [hrole] at hr'
    obtain rfl := Option.some.inj (hr.symm.trans hr')
    refine .inr ⟨c.pk, rfl, fun p hp => ?_⟩
    refine assign_backs hactive hsuper hself hr hconf level' (scope.map Obj.row) ?_ ?_ hp
    · rw [ha]
      cases scope with
      | none => rfl
      | some o => exact isRow_generic (grantLevel_mem hlevel) (isRow_iff.mpr ⟨rfl, rfl⟩)
    · have hstored : (scope.map Obj.row).map Obj.stored = scope := by
        cases scope with
        | none => rfl
        | some o => exact congrArg some (hscope o rfl).symm
      rw [hstored]
      exact hassign

theorem moved_delegated {C : Set Nat} {row : AssignmentRow} {target : AssignmentStatus}
    (h : ScopeAssignment.Moved w w' row target)
    (hbacks : target = .active → ∀ row', row'.scopeId = row.scopeId →
      row'.scopeCt = row.scopeCt → row'.level = row.level → ∀ r,
      w.tables.role row.role = some r → w.Confers row' r →
        ∃ c ∈ C, ∀ p ∈ w.tables.roleLabels r.id, w.authority.Backs c p (w.region row')) :
    Delegated C w w' := by
  obtain ⟨row', t, hstatus, -, -, hrole, hlevel, hct, hid, -, -, ht, rfl⟩ := h
  refine .of_rows (by rw [ht]; rfl) (by rw [ht]; rfl) ?_
  intro x hx r hr hconf
  rw [ht] at hx
  obtain ⟨hmem, -⟩ | ⟨_, -, -, rfl⟩ := Lib.Rows.mem_modify.mp hx
  · exact .inl hmem
  · have hactive : row'.status = .active := by
      have := hconf.1
      simp only [AssignmentRow.isEffective, Bool.and_eq_true, decide_eq_true_eq] at this
      exact this.1.1
    exact .inr (hbacks (hstatus ▸ hactive) row' hid hct hlevel r (hrole ▸ hr) hconf)

include hactive hsuper hself in
theorem reactivate_delegated {pk : Option Nat} {reason : String} {x : Unit}
    (h : (ScopeAssignment.reactivate pk (some c) reason).run rc w = .ok (x, w')) :
    Delegated {c.pk} w w' := by
  obtain ⟨row, r, scope, hmoved, hr, hscope, hassign⟩ := ScopeAssignment.reactivate_ok h
  refine moved_delegated hmoved fun _ row' hid hct hlevel r' hr' hconf => ?_
  obtain rfl := Option.some.inj (hr.symm.trans hr')
  refine ⟨c.pk, rfl, fun p hp => ?_⟩
  have hself' : w.tables.role r.id = some r := by
    have := w.tables.role_eq_some.mp hr
    exact w.tables.role_eq_some.mpr ⟨this.1, rfl⟩
  exact assign_backs hactive hsuper hself hself' hconf _ _ (by rw [hid, hct]; exact hscope)
    hassign hp

theorem suspend_delegated {C : Set Nat} {pk : Option Nat} {actor : Option User}
    {reason : String} {x : Unit}
    (h : (ScopeAssignment.suspend pk actor reason).run rc w = .ok (x, w')) :
    Delegated C w w' := by
  obtain ⟨row, hmoved⟩ := ScopeAssignment.suspend_ok h
  exact moved_delegated hmoved nofun

theorem revoke_delegated {C : Set Nat} {pk : Option Nat} {actor : Option User}
    {reason : String} {x : Unit}
    (h : (ScopeAssignment.revoke pk actor reason).run rc w = .ok (x, w')) :
    Delegated C w w' := by
  obtain ⟨row, hmoved⟩ := ScopeAssignment.revoke_ok h
  exact moved_delegated hmoved nofun

include hactive hsuper hself in
theorem grantPermissions_delegated {role : Role} {perms : List Permission} {x : Unit}
    (h : (role.grantPermissions perms (some c)).run rc w = .ok (x, w')) :
    Delegated {c.pk} w w' := by
  obtain ⟨r, user, t, -, hr, huser, -, hgrant, ht, rfl⟩ := Role.grantPermissions_ok h
  obtain rfl := Option.some.inj huser
  have hrest : t.toTableRows = { w.tables.toTableRows with rolePermissions := t.rolePermissions } := by
    rw [ht]
    exact TableRows.addPermissions_rest perms
  have hroles : t.roles = w.tables.roles := by rw [hrest]
  refine ⟨⟨t, rfl⟩, fun hw r' hr' => hw r' (hroles ▸ hr'), fun hw => ?_⟩
  rintro u p R ⟨row, hrow, r', hr', hu, hconf, hp, rfl⟩
  have hassign : t.assignments = w.tables.assignments := by rw [hrest]
  have hrow : row ∈ w.tables.assignments := hassign ▸ (show row ∈ t.assignments from hrow)
  have hr' : w.tables.role row.role = some r' := by
    rw [Tables.role, ← hroles]
    exact hr'
  obtain ⟨rp, hrp, hrole, hlabel⟩ := (Tables.mem_roleLabels _).mp hp
  rw [save_tables, ht] at hrp
  rcases TableRows.mem_addPermissions hrp with hold | ⟨q, hq, hnew, rfl⟩
  · exact .inl ⟨row, hrow, r', hr', hu, hconf,
      (Tables.mem_roleLabels _).mpr ⟨rp, hold, hrole, hlabel⟩, rfl⟩
  · obtain rfl : r = r' := by
      have hmem := (w.tables.role_eq_some.mp hr').1
      have hself := w.tables.role_eq_some.mpr ⟨hmem, hrole.symm⟩
      exact Option.some.inj (hr.symm.trans hself)
    refine .inr ⟨c.pk, rfl, ?_⟩
    exact extend_backs hactive hsuper hself hconf
      (hw r (w.tables.role_eq_some.mp hr).1) (hlabel ▸ hgrant q hq hnew)

theorem Delegated.of_shrink {C : Set Nat} {t : Tables}
    (hassign : t.assignments = w.tables.assignments)
    (hroles : ∀ a ∈ t.assignments, t.role a.role = w.tables.role a.role)
    (hperms : ∀ rp ∈ t.rolePermissions, rp ∈ w.tables.rolePermissions)
    (howners : w.OwnersConfigured → (w.save t).OwnersConfigured) : Delegated C w (w.save t) where
  frame := ⟨t, rfl⟩
  owners := howners
  delegates _ := .of_le <| by
    rintro u p R ⟨row, hrow, r, hr, hu, hconf, hp, rfl⟩
    have hrow : row ∈ t.assignments := hrow
    obtain ⟨rp, hrp, hrole, hlabel⟩ := (Tables.mem_roleLabels _).mp hp
    exact ⟨row, hassign ▸ hrow, r, hroles row hrow ▸ hr, hu, hconf,
      (Tables.mem_roleLabels _).mpr ⟨rp, hperms rp hrp, hrole, hlabel⟩, rfl⟩

theorem revokePermissions_delegated {C : Set Nat} {role : Role} {perms : List Permission}
    {actor : Option User} {x : Unit}
    (h : (role.revokePermissions perms actor).run rc w = .ok (x, w')) : Delegated C w w' := by
  obtain ⟨r, t, -, -, -, ht, rfl⟩ := Role.revokePermissions_ok h
  have hroles : t.roles = w.tables.roles := by rw [ht]; rfl
  refine .of_shrink (by rw [ht]; rfl) (fun a _ => ?_) (fun rp hrp => ?_)
    fun hw r' hr' => hw r' (hroles ▸ hr')
  · rw [Tables.role, hroles]
    rfl
  · rw [ht] at hrp
    exact (List.mem_filter.mp hrp).1

theorem delete_delegated {C : Set Nat} {role : Role} {actor : Option User} {x : Unit}
    (h : (RoleService.delete role actor).run rc w = .ok (x, w')) : Delegated C w w' := by
  obtain ⟨r, t, -, -, -, hfree, ht, rfl⟩ := RoleService.delete_ok h
  have hassign : t.assignments = w.tables.assignments := by rw [ht]
  have hroles : t.roles = w.tables.roles.filter (·.id ≠ r.id) := by rw [ht]
  have hmem {x : RoleRow} : x ∈ t.roles ↔ x ∈ w.tables.roles ∧ x.id ≠ r.id := by
    simp [hroles]
  refine .of_shrink hassign (fun a ha => ?_) (fun rp hrp => ?_)
    fun hw r' hr' => hw r' (hmem.mp hr').1
  · refine Option.ext fun x => ?_
    rw [Tables.role_eq_some, Tables.role_eq_some, hmem, and_assoc]
    refine and_congr_right fun _ => and_iff_right_of_imp ?_
    intro hid hdeleted
    exact hfree a (hassign ▸ ha) (hid.symm.trans hdeleted)
  · rw [ht] at hrp
    exact (List.mem_filter.mp hrp).1

theorem Owner.resolve_model {owner : RoleService.Owner} {o : Obj} {X : Row}
    (ho : (owner.resolve w).2.2 = .ok (some o))
    (hX : w.db.generic (owner.resolve w).1 (owner.resolve w).2.1 = .ok (some X)) :
    X.model = o.model := by
  cases owner with
  | columns ct id =>
    obtain rfl : Obj.stored X = o := by
      have hread : w.genericObj ct id = .ok (some (.stored X)) := genericObj_stored.mpr hX
      exact Option.some.inj (Except.ok.inj (hread.symm.trans ho))
    rfl
  | object given =>
    cases given with
    | none => cases ho
    | some o' =>
      obtain rfl : o' = o := Option.some.inj (Except.ok.inj ho)
      have hct := (w.db.generic_some hX).2.1
      exact (w.site.schema.contentType_injective (Option.some.inj hct)).symm

theorem addRole_delegated {C : Set Nat} {fields : RoleService.Fields} {v : Role} {pk : Nat}
    (hv : w.validateOwner (fields.role w) = .ok v) {t : Tables}
    (hfresh : pk ∉ w.tables.roles.map RoleRow.id)
    (ht : t.toTableRows = w.tables.addRole (v.columns pk w.now)) : Delegated C w (w.save t) := by
  have hassign : t.assignments = w.tables.assignments := by rw [ht]; rfl
  have hmem {x : RoleRow} : x ∈ t.roles ↔ x ∈ w.tables.roles ∨ x = v.columns pk w.now := by
    rw [ht]
    simp [TableRows.addRole]
  refine .of_shrink hassign (fun a ha => ?_) (fun rp hrp => ?_) fun hw r' hr' X hX => ?_
  · refine Option.ext fun x => ?_
    rw [Tables.role_eq_some, Tables.role_eq_some, hmem]
    refine and_congr_left fun hid => or_iff_left_of_imp ?_
    rintro rfl
    obtain ⟨r, hr⟩ := w.tables.exists_role (hassign ▸ ha)
    obtain ⟨hr, hrid⟩ := w.tables.role_eq_some.mp hr
    exact absurd (List.mem_map.mpr ⟨r, hr, hrid.trans hid.symm⟩) hfresh
  · rw [ht] at hrp
    exact hrp
  · rcases hmem.mp hr' with hold | rfl
    · exact hw r' hold X hX
    · obtain ⟨-, hct, -, rfl⟩ | ⟨o, level, -, -, ho, hlevel, -, rfl⟩ := validateOwner_ok hv
      · have := (w.db.generic_some hX).2.1
        cases hct.symm.trans this
      · obtain ⟨l, hl, hsel, -⟩ := mem_matchingLevels.mp hlevel
        rw [Owner.resolve_model ho hX]
        exact w.hierarchy.isNodeModel_iff.mpr ⟨l, hl, Level.selects_model hsel⟩

include hactive hsuper hself in
theorem create_delegated {permissions : List Permission} {fields : RoleService.Fields}
    {role : Role} (hpk : fields.pk = none)
    (h : (RoleService.create (some c) permissions fields).run rc w = .ok (role, w')) :
    Delegated {c.pk} w w' := by
  obtain ⟨v, pk, createdAt, t, hv, -, hsaved, -, hrest⟩ := RoleService.create_ok h
  have hvpk : v.pk = none := (validateOwner_pk hv).trans hpk
  have hadded : Delegated {c.pk} w (w.save t) := by
    generalize hrows : t.toTableRows = rows at hsaved
    cases hsaved with
    | overwrite hpk' => cases hvpk.symm.trans hpk'
    | fresh _ hfresh => exact addRole_delegated hv hfresh hrows
  rcases hrest with ⟨-, rfl⟩ | hgrant
  · exact hadded
  · exact hadded.trans (grantPermissions_delegated hactive hsuper hself hgrant)

end Calls

inductive Call
  | grant (user : User) (role : Role) (level : Option String) (scope : Option Row)
      (validFrom validUntil : Option Time)
  | suspend (pk : Option Nat) (reason : String)
  | reactivate (pk : Option Nat) (reason : String)
  | revoke (pk : Option Nat) (reason : String)
  | createRole (name description : String) (owner : Option Row) (ownerLevel : Option String)
      (permissions : List Permission)
  | deleteRole (role : Role)
  | grantPermissions (role : Role) (perms : List Permission)
  | revokePermissions (role : Role) (perms : List Permission)

def Call.by_ (actor : Option User) : Call → Op Unit
  | .grant user role level scope validFrom validUntil => do
    let _ ← ScopeAssignment.grant user role actor level (scope.map Obj.stored) validFrom validUntil
    return ()
  | .suspend pk reason => ScopeAssignment.suspend pk actor reason
  | .reactivate pk reason => ScopeAssignment.reactivate pk actor reason
  | .revoke pk reason => ScopeAssignment.revoke pk actor reason
  | .createRole name description owner ownerLevel permissions => do
    let _ ← RoleService.create actor permissions
      { name, description, ownerLevel, owner := .object (owner.map Obj.stored) }
    return ()
  | .deleteRole role => RoleService.delete role actor
  | .grantPermissions role perms => role.grantPermissions perms actor
  | .revokePermissions role perms => role.revokePermissions perms actor

/-- Successful calls of actors of `C`, one after the other. -/
inductive Run (C : Set User) : World → World → Prop
  | done (w : World) : Run C w w
  | step {w w' w'' : World} {c : User} {call : Call} {rc : Receivers} (hc : c ∈ C)
      (hcall : (call.by_ (some c)).run rc w = .ok ((), w')) (hrest : Run C w' w'') : Run C w w''

theorem call_delegated {c : User} (hactive : c.isActive) (hsuper : c.isSuperuser = false)
    (hself : w.site.grantablePermissions = .self) {call : Call} {rc : Receivers} {w' : World}
    (h : (call.by_ (some c)).run rc w = .ok ((), w')) : Delegated {c.pk} w w' := by
  cases call with
  | grant user role level scope validFrom validUntil =>
    obtain ⟨a, v, hgrant, hdone⟩ := Op.run_bind_ok.mp h
    obtain ⟨-, rfl⟩ := Op.run_pure_ok.mp hdone
    refine grant_delegated hactive hsuper hself (fun o ho => ?_) hgrant
    obtain ⟨s, -, rfl⟩ := Option.map_eq_some_iff.mp ho
    rfl
  | suspend pk reason => exact suspend_delegated h
  | reactivate pk reason => exact reactivate_delegated hactive hsuper hself h
  | revoke pk reason => exact revoke_delegated h
  | createRole name description owner ownerLevel permissions =>
    obtain ⟨role, v, hcreate, hdone⟩ := Op.run_bind_ok.mp h
    obtain ⟨-, rfl⟩ := Op.run_pure_ok.mp hdone
    exact create_delegated hactive hsuper hself rfl hcreate
  | deleteRole role => exact delete_delegated h
  | grantPermissions role perms => exact grantPermissions_delegated hactive hsuper hself h
  | revokePermissions role perms => exact revokePermissions_delegated h

theorem run_delegated {C : Set User} (hC : ∀ c ∈ C, c.isActive ∧ c.isSuperuser = false)
    {w' : World} (hself : w.site.grantablePermissions = .self) (h : Run C w w') :
    Delegated (Set.image User.pk C) w w' := by
  induction h with
  | done w => exact .refl
  | step hc hcall _ ih =>
    have hstep := call_delegated (hC _ hc).1 (hC _ hc).2 hself hcall
    have hsub : Delegated (Set.image User.pk C) _ _ := hstep.mono <| by
      rintro _ rfl
      exact ⟨_, hc, rfl⟩
    obtain ⟨t, rfl⟩ := hstep.frame
    exact hsub.trans (ih hself)

/-- `p in user_permissions(u, o)` -/
def Has (w : World) (u : User) (p : String) (o : Option Obj) : Prop :=
  ∃ P, (userPermissions u o none).run w = .ok P ∧ p ∈ P

theorem has_iff (hforest : w.Acyclic) {u : User} (hactive : u.isActive) {o : Option Obj}
    (ho : w.Persisted o) (hsettles : ∀ y ∈ w.fetched u w.now, w.Settles y) {p : String} :
    w.Has u p o ↔ w.authority.Holds u.pk p (w.target o) := by
  obtain ⟨P, hP⟩ : ∃ P, (userPermissions u o none).run w = .ok P := by
    by_cases hanchor : w.anchorOf o = .unregistered
    · exact ⟨∅, by simp [run_userPermissions, hanchor]⟩
    · refine (userPermissions_ok hactive hanchor).mpr fun y hy =>
        ⟨hsettles y hy, fun a _ => hforest.meets (fun hplain => ?_) a⟩
      obtain ⟨r, -, hr⟩ := ho _ hplain
      cases hr
  rw [← mem_userPermissions_holds hactive ho hP]
  constructor
  · rintro ⟨P', hP', hp⟩
    obtain rfl := Except.ok.inj (hP.symm.trans hP')
    exact hp
  · exact fun hp => ⟨P, hP, hp⟩

/-- Delegated administration creates no authority: who can do something after a
run could do it before, or one of the actors could, where the rows of the
principal and of the actors settle before the run. -/
theorem no_authority_created {C : Set User}
    (hC : ∀ c ∈ C, c.isActive ∧ c.isSuperuser = false)
    (hself : w.site.grantablePermissions = .self) (hforest : w.Acyclic)
    (howners : w.OwnersConfigured) {w' : World} (hrun : Run C w w') {u : User}
    (hsettles : ∀ c, c = u ∨ c ∈ C → ∀ y ∈ w.fetched c w.now, w.Settles y) {o : Option Obj}
    (ho : w.Persisted o) {p : String} (hbefore : ¬ w.Has u p o) (hafter : w'.Has u p o) :
    ∃ c ∈ C, w.Has c p o := by
  obtain ⟨P', hP', hp⟩ := hafter
  have hactive : u.isActive := by
    by_contra hinactive
    obtain rfl : ∅ = P' := by simpa [run_userPermissions, hinactive] using hP'
    simp at hp
  have hdelegated := run_delegated hC hself hrun
  obtain ⟨t, rfl⟩ := hdelegated.frame
  have hholds := (mem_userPermissions_holds hactive (w := w.save t) ho hP').mp hp
  rcases (hdelegated.delegates howners).holds hholds with hheld | ⟨_, ⟨c, hc, rfl⟩, hheld⟩
  · exact absurd ((has_iff hforest hactive ho (hsettles u (.inl rfl))).mpr hheld) hbefore
  · exact ⟨c, hc, (has_iff hforest (hC c hc).1 ho (hsettles c (.inr hc))).mpr hheld⟩

end World

namespace Helpdesk

def promote : World.Call :=
  .grant carol (staffed.loadRole { id := 1, name := "viewer" }) none (some frontend) none none

theorem staffed_owners : staffed.OwnersConfigured := by
  have howners : ∀ r ∈ staff.roles, db.generic r.ownerCt r.ownerId = .ok none ∨
      db.generic r.ownerCt r.ownerId = .ok (some globex) := by decide
  intro r hr X hX
  rcases howners r hr with h | h
  · cases h.symm.trans hX
  · obtain rfl := Option.some.inj (Except.ok.inj (h.symm.trans hX))
    decide

theorem persisted_loginButton : staffed.Persisted (some (.stored loginButton)) := by
  intro n hn
  have hanchor : staffed.anchorOf (some (.stored loginButton)) = .node (.stored frontend) := rfl
  exact ⟨frontend, by decide, (Anchor.node.inj (hanchor.symm.trans hn)).symm⟩

theorem staffed_readable : staffed.Readable where
  scopes := by
    have h : ∀ a ∈ staff.assignments, (db.generic a.scopeCt a.scopeId).isOk := by decide
    exact fun a ha => Lib.Loop.isOk_iff.mp (h a ha)
  owners := by
    have h : ∀ r ∈ staff.roles, (staffed.loadRole r).ownerOrNone.isOk := by decide
    exact fun r hr _ => Lib.Loop.isOk_iff.mp (h r hr)

theorem carol_promoted : ∃ c ∈ ({alice} : Set User),
    staffed.Has c "helpdesk.view_ticket" (some (.stored loginButton)) := by
  obtain ⟨_, hrun⟩ := Op.run_of_isOk quiet (w := staffed)
    (p := promote.by_ (some alice)) (by decide)
  have hforest : staffed.Acyclic := (grounded db 10 staff).toAcyclic
  refine World.no_authority_created (C := {alice}) (u := carol) ?_ rfl hforest staffed_owners
    (.step rfl hrun (.done _)) (fun _ _ _ hy => ?_) persisted_loginButton ?_ ?_
  · rintro _ rfl
    exact ⟨rfl, rfl⟩
  · exact staffed_readable.settles (World.nodesEnd_of_acyclic hforest) (World.mem_fetched.mp hy).1
  · rintro ⟨P, hP, hp⟩
    have hnone : (userPermissions carol (some (.stored loginButton)) none).run staffed = .ok ∅ := by
      decide
    obtain rfl := Except.ok.inj (hnone.symm.trans hP)
    simp at hp
  · exact ⟨{"helpdesk.view_ticket"}, by decide, by decide⟩

end Helpdesk

namespace Depot

def takeOver : World.Call := .suspend (some 2) ""

def hireKeeper : World.Call :=
  .grant kim (kept.loadRole { id := 1, name := "keeper" }) none (some east) none none

theorem kim_hired : kept.site.grantablePermissions = .self ∧ kept.Acyclic ∧
    kept.OwnersConfigured ∧ kept.Persisted (some (.stored pallet)) ∧
    (∀ c ∈ ({ida, jon} : Set User), c.isActive ∧ c.isSuperuser = false) ∧
    ∃ w', World.Run {ida, jon} kept w' ∧ ¬ kept.Has kim "depot.view_crate" (some (.stored pallet)) ∧
      w'.Has kim "depot.view_crate" (some (.stored pallet)) ∧
      ∀ c ∈ ({ida, jon} : Set User), ¬ kept.Has c "depot.view_crate" (some (.stored pallet)) := by
  refine ⟨rfl, acyclic, ?_, ?_, ?_, ?_⟩
  · have howners : ∀ r ∈ tables.roles, (db.generic r.ownerCt r.ownerId).toOption.join = none := by
      decide
    intro r hr X hX
    have hnone := howners r hr
    rw [show db.generic r.ownerCt r.ownerId = _ from hX] at hnone
    cases hnone
  · intro n hn
    have hanchor : kept.anchorOf (some (.stored pallet)) = .node (.stored east) := rfl
    exact ⟨east, by decide, (Anchor.node.inj (hanchor.symm.trans hn)).symm⟩
  · rintro c (rfl | rfl) <;> exact ⟨rfl, rfl⟩
  have hnot {u : User} (h : ∀ P ∈ ((userPermissions u (some (.stored pallet)) none).run
      kept).toOption, "depot.view_crate" ∉ P) :
      ¬ kept.Has u "depot.view_crate" (some (.stored pallet)) := by
    rintro ⟨P, hP, hp⟩
    exact h P (by rw [hP]; rfl) hp
  obtain ⟨_, hfirst⟩ := Op.run_of_isOk quiet (w := kept)
    (p := takeOver.by_ (some jon)) (by decide)
  obtain ⟨_, hsecond⟩ := Op.run_of_isOk quiet
    (w := (takeOver.by_ (some jon)).after quiet kept) (p := hireKeeper.by_ (some ida)) (by decide)
  refine ⟨_, .step (.inr rfl) hfirst (.step (.inl rfl) hsecond (.done _)), hnot (by decide),
    ⟨{"depot.view_crate", "scoped_access.manage_assignments"}, by decide, by decide⟩, ?_⟩
  rintro c (rfl | rfl) <;> exact hnot (by decide)

end Depot

end ScopedAccess
