import ScopedAccess.Integrity
import ScopedAccess.Moving
import ScopedAccess.Engine.Collection

namespace ScopedAccess

open Lib.Walk (Reaches)
open Lib.Loop

namespace World

variable {w : World} {X : Row}

/-- The object's node and what is above it are stored outside the tenant's
subtree; an object without a node is decided by root assignments alone. -/
def Beyond (w : World) (X : Row) : Anchor → Prop
  | .everywhere => False
  | .denied | .unregistered => True
  | .node n => ∀ r, w.Ancestor n r → r ∈ w.db.rows ∧ ¬ Reaches w.parent r X

def Fits (w : World) (a : AssignmentRow) (r : RoleRow) : Prop :=
  ∃ scope, w.db.generic a.scopeCt a.scopeId = .ok scope ∧
    w.Valid ⟨a, w.loadRole r, .ok scope⟩

/-- At an instant the assignment gives its principal these permissions on what
has this anchor. -/
def InForce (w : World) (at_ : Time) (x : Anchor) (a : AssignmentRow) (L : Finset String) :
    Prop :=
  a ∈ w.tables.assignments ∧ a.isEffective at_ ∧ ∃ r, w.tables.role a.role = some r ∧
    w.Fits a r ∧ w.ReachedBy x a ∧ L = w.tables.roleLabels r.id

def managing (w : World) : List String :=
  [w.site.roleApp ++ ".manage_roles", w.site.roleApp ++ ".manage_global_roles",
    w.site.assignmentApp ++ ".manage_assignments"]

/-- From now on the principal manages nothing beyond the tenant. -/
def Confined (w : World) (X : Row) (u : Nat) : Prop :=
  ∀ at_, w.now ≤ at_ → ∀ x, w.Beyond X x → ∀ a L, w.InForce at_ x a L → a.user = u →
    ∀ p ∈ w.managing, p ∉ L

theorem reachedBy_iff {x : Anchor} {a : Assignment} : w.Reach x a ↔ w.ReachedBy x a.row := by
  cases x <;> exact Iff.rfl

theorem exists_inForce {u : Nat} {at_ : Time} {x : Anchor}
    {Q : AssignmentRow → Finset String → Prop} :
    (∃ a, w.Effective u at_ a ∧ w.Valid a ∧ w.Reach x a ∧ Q a.row (rolePerms a.role)) ↔
      ∃ a L, w.InForce at_ x a L ∧ a.user = u ∧ Q a L := by
  constructor
  · rintro ⟨a, ⟨row, hrow, huser, heffective, hfetch⟩, hvalid, hreach, hQ⟩
    obtain ⟨scope, r, hscope, hr, rfl⟩ := prefetch_some.mp hfetch
    exact ⟨row, _, ⟨hrow, heffective, r, hr, ⟨scope, hscope, hvalid⟩, reachedBy_iff.mp hreach,
      rfl⟩, huser, hQ⟩
  · rintro ⟨row, _, ⟨hrow, heffective, r, hr, ⟨scope, hscope, hvalid⟩, hreach, rfl⟩, huser, hQ⟩
    exact ⟨_, ⟨row, hrow, huser, heffective, prefetch_some.mpr ⟨scope, r, hscope, hr, rfl⟩⟩,
      hvalid, reachedBy_iff.mpr hreach, hQ⟩

def Away (w : World) (X : Row) (a : AssignmentRow) : Prop :=
  ∀ x, w.Beyond X x → ∀ r, w.Fits a r → ¬ w.ReachedBy x a

theorem beyond_stored {s : Row} (hs : s ∈ w.db.rows) (hX : ¬ Reaches w.parent s X) :
    w.Beyond X (.node (.stored s)) := by
  intro r hr
  rw [ancestor_stored] at hr
  exact ⟨reaches_mem hs hr, fun hrX => hX (hr.trans hrX)⟩

theorem away_of_scope {a : AssignmentRow} {s : Row}
    (hs : w.db.generic a.scopeCt a.scopeId = .ok (some s)) (hroot : a.isRootScope = false)
    (hsX : Reaches w.parent s X) : w.Away X a := by
  intro x hx r _ hreach
  cases x with
  | everywhere => exact hx
  | unregistered => exact hreach
  | denied => simp [ReachedBy, hroot] at hreach
  | node n =>
    obtain hroot' | ⟨q, hq, hrow⟩ := hreach
    · simp [hroot] at hroot'
    · obtain ⟨hmem, hout⟩ := hx q hq
      rw [scope_unique hs hmem hrow] at hout
      exact hout hsX

theorem away_of_owner {r : RoleRow} {Y : Row}
    (hY : w.db.generic r.ownerCt r.ownerId = .ok (some Y)) (hYX : Reaches w.parent Y X)
    {a : AssignmentRow} (hfits : w.Fits a r) : w.Away X a := by
  obtain ⟨scope, hscope, hvalid⟩ := hfits
  obtain ⟨-, -, i, hi, -⟩ := w.db.generic_some hY
  have hcustom : (w.loadRole r).ownerId ≠ none := by
    rw [show (w.loadRole r).ownerId = some i from hi]
    exact Option.some_ne_none i
  obtain ⟨hroot, s, owner, q, hs, -, -, hsq, hq⟩ := hvalid.custom hcustom
  obtain rfl : scope = some s := by simpa [Assignment.scopeOrNone] using hs
  have hmem : q ∈ w.db.rows := reaches_mem (w.db.generic_some hscope).1 hsq
  have hgeneric : w.db.generic r.ownerCt r.ownerId = .ok (some q) := isRow_generic hmem hq
  obtain rfl : Y = q := by simpa [hY] using hgeneric
  exact away_of_scope hscope hroot (hsq.trans hYX)

section Confined

variable {c : User} (hsuper : c.isSuperuser = false) (hconfined : w.Confined X c.pk)
include hsuper hconfined

omit hsuper in
theorem Confined.not_atRoot {p : String} (hp : p ∈ w.managing) : ¬ w.HeldAtRoot c.pk w.now p := by
  rintro ⟨a, heffective, hvalid, hroot, hpa⟩
  obtain ⟨row, L, hforce, huser, hpL⟩ := (exists_inForce (Q := fun _ L => p ∈ L)).mp
    ⟨a, heffective, hvalid, (show w.Reach .denied a from hroot), hpa⟩
  exact hconfined w.now le_rfl .denied trivial row L hforce huser p hp hpL

omit hsuper in
theorem Confined.inside {p : String} (hp : p ∈ w.managing) {s : Row} (hs : s ∈ w.db.rows)
    (hm : w.hierarchy.isNodeModel s.model) (hactive : c.isActive)
    {P : Finset String} (hP : (userPermissions c (some (.stored s)) none).run w = .ok P)
    (hpP : p ∈ P) : Reaches w.parent s X := by
  by_contra hX
  have hanchor : w.anchorOf (some (.stored s)) = .node (.stored s) := by
    rw [anchorOf, resolveAnchor, if_pos (show w.hierarchy.isNodeModel (Obj.stored s).model from hm)]
  have hheld := (mem_userPermissions hP hactive).mp hpP
  rw [hanchor] at hheld
  obtain ⟨row, L, hforce, huser, hpL⟩ := (exists_inForce (Q := fun _ L => p ∈ L)).mp hheld
  exact hconfined w.now le_rfl _ (beyond_stored hs hX) row L hforce huser p hp hpL

theorem away_of_manages {s : Option Row}
    (hmanage : (canManageAssignment (some c) (s.map Obj.stored) none).run w = .ok true)
    {a : AssignmentRow} (hscope : (if a.scopeId.isNone then .ok none
      else w.db.generic a.scopeCt a.scopeId) = .ok s) : w.Away X a := by
  have hactive : c.isActive := by
    cases hactive : c.isActive with
    | true => rfl
    | false => simp [canManageAssignment, hactive] at hmanage
  have hp : w.site.assignmentApp ++ ".manage_assignments" ∈ w.managing := by simp [managing]
  cases s with
  | none =>
    have hheld := (canManageAssignment_root hactive hsuper hmanage).mp rfl
    exact absurd hheld (hconfined.not_atRoot hp)
  | some s =>
    have hid : a.scopeId.isNone = false := by
      cases hid : a.scopeId.isNone with
      | false => rfl
      | true => simp [hid] at hscope
    have hs : w.db.generic a.scopeCt a.scopeId = .ok (some s) := by simpa [hid] using hscope
    by_cases hm : w.hierarchy.isNodeModel s.model
    · rw [Option.map_some, canManageAssignment_node, run_hasPerm, hactive, hsuper] at hmanage
      obtain ⟨P, hP, hpP⟩ := bind_eq_ok.mp hmanage
      have hpP := of_decide_eq_true (Except.ok.inj hpP)
      exact away_of_scope hs hid
        (hconfined.inside hp (w.db.generic_some hs).1 hm hactive hP hpP)
    · intro x hx r hfits hreach
      obtain ⟨scope, hscope', hvalid⟩ := hfits
      obtain ⟨s', hs', -, -, name, -, l, hl, hsel⟩ := hvalid.node hid
      obtain rfl : scope = some s' := by simpa [Assignment.scopeOrNone] using hs'
      obtain rfl : s = s' := by simpa [hs] using hscope'
      exact hm (w.hierarchy.level_isNodeModel hl (Level.selects_model hsel))

theorem away_of_managesRole {r : RoleRow}
    (howner : ∀ Y, w.db.generic r.ownerCt r.ownerId = .ok (some Y) →
      w.hierarchy.isNodeModel Y.model)
    (hmanages : w.Manages (some c) r) {a : AssignmentRow} (hfits : w.Fits a r) : w.Away X a := by
  have hactive : c.isActive := by
    cases hactive : c.isActive with
    | true => rfl
    | false => simp [Manages, canManageRole, hactive] at hmanages
  rcases canManageRole_ok hactive hsuper hmanages with ⟨-, hroot⟩ | ⟨-, owner, P, ho, hP, hp⟩
  · exact absurd hroot (hconfined.not_atRoot (by simp [managing]))
  · obtain ⟨Y, rfl, hY⟩ := genericObj_some (orNone_some ho)
    exact away_of_owner hY
      (hconfined.inside (by simp [managing]) (w.db.generic_some hY).1 (howner Y hY) hactive hP hp)
      hfits

end Confined

/-- Beyond the tenant the same is in force, at every instant. -/
def SameBeyond (X : Row) (w w' : World) : Prop :=
  ∀ x, w.Beyond X x → ∀ at_ a L, w'.InForce at_ x a L ↔ w.InForce at_ x a L

theorem SameBeyond.of_rows {t : Tables} (hroles : t.roles = w.tables.roles)
    (hperms : t.rolePermissions = w.tables.rolePermissions)
    (hnew : ∀ a ∈ t.assignments, a ∈ w.tables.assignments ∨ w.Away X a)
    (hold : ∀ a ∈ w.tables.assignments, a ∈ t.assignments ∨ w.Away X a) :
    SameBeyond X w (w.save t) := by
  have hlabels (id : Nat) : t.roleLabels id = w.tables.roleLabels id := by
    rw [Tables.roleLabels, hperms]
    rfl
  intro x hx at_ a L
  simp only [InForce, save_tables, Tables.role_of_roles hroles, hlabels]
  constructor
  · rintro ⟨ha, heffective, r, hr, hfits, hreach, hL⟩
    have hreach : w.ReachedBy x a := by cases x <;> exact hreach
    rcases hnew a ha with hmem | haway
    · exact ⟨hmem, heffective, r, hr, hfits, hreach, hL⟩
    · exact absurd hreach (haway x hx r hfits)
  · rintro ⟨ha, heffective, r, hr, hfits, hreach, hL⟩
    rcases hold a ha with hmem | haway
    · exact ⟨hmem, heffective, r, hr, hfits, by cases x <;> exact hreach, hL⟩
    · exact absurd hreach (haway x hx r hfits)

theorem SameBeyond.of_role {t : Tables} {i : Nat} (hassign : t.assignments = w.tables.assignments)
    (hrest : ∀ k, k ≠ i → t.role k = w.tables.role k ∧ t.roleLabels k = w.tables.roleLabels k)
    (hnew : ∀ r, t.role i = some r → ∀ a, w.Fits a r → w.Away X a)
    (hold : ∀ r, w.tables.role i = some r → ∀ a, w.Fits a r → w.Away X a) :
    SameBeyond X w (w.save t) := by
  intro x hx at_ a L
  simp only [InForce, save_tables, hassign]
  refine and_congr_right fun _ => and_congr_right fun _ => exists_congr fun r => ?_
  by_cases hid : a.role = i
  · subst hid
    constructor
    · rintro ⟨hr, hfits, hreach, -⟩
      exact absurd (by cases x <;> exact hreach) (hnew r hr a hfits x hx r hfits)
    · rintro ⟨hr, hfits, hreach, -⟩
      exact absurd hreach (hold r hr a hfits x hx r hfits)
  · rw [(hrest _ hid).1]
    constructor
    · rintro ⟨hr, hfits, hreach, hL⟩
      have hrid : r.id = a.role := (w.tables.role_eq_some.mp hr).2
      rw [(hrest r.id (hrid ▸ hid)).2] at hL
      exact ⟨hr, hfits, by cases x <;> exact hreach, hL⟩
    · rintro ⟨hr, hfits, hreach, hL⟩
      have hrid : r.id = a.role := (w.tables.role_eq_some.mp hr).2
      rw [← (hrest r.id (hrid ▸ hid)).2] at hL
      exact ⟨hr, hfits, by cases x <;> exact hreach, hL⟩

theorem OwnerShape.isNodeModel {r : RoleRow} (h : w.OwnerShape r) :
    ∀ Y, w.db.generic r.ownerCt r.ownerId = .ok (some Y) → w.hierarchy.isNodeModel Y.model := by
  intro Y hY
  rcases h with ⟨-, hct, -⟩ | ⟨Y', l, hY', hl, hsel, -⟩
  · have hsome := (w.db.generic_some hY).2.1
    cases hct.symm.trans hsome
  · obtain rfl : Y = Y' := by simpa [hY] using hY'
    exact w.hierarchy.isNodeModel_iff.mpr ⟨l, hl, Level.selects_model hsel⟩

end World

/-- The nodes the call is given are as they are stored, and no key is. -/
def ServiceCall.AsStored : ServiceCall → Prop
  | .grant _ _ _ scope _ _ => ∀ o ∈ scope, o = .stored o.row
  | .onRole (.create _ fields) =>
    fields.pk = none ∧ ∀ o, fields.owner = .object (some o) → o = .stored o.row
  | .onRole (.update _ changes) => ∀ o, changes.owner = some (some o) → o = .stored o.row
  | _ => True

section Write

variable {w : World} {X : Row} {c : User} {call : ServiceCall} {t : Tables}

theorem roleLabels_congr {t t' : Tables} {k : Nat}
    (h : ∀ rp, rp.role = k → (rp ∈ t'.rolePermissions ↔ rp ∈ t.rolePermissions)) :
    t'.roleLabels k = t.roleLabels k := by
  ext label
  rw [Tables.mem_roleLabels, Tables.mem_roleLabels]
  refine exists_congr fun rp => ?_
  rw [← and_assoc, ← and_assoc]
  refine and_congr_left fun _ => ?_
  constructor
  · rintro ⟨hrp, hk⟩
    exact ⟨(h rp hk).mp hrp, hk⟩
  · rintro ⟨hrp, hk⟩
    exact ⟨(h rp hk).mpr hrp, hk⟩

theorem away_of_saved (hsuper : c.isSuperuser = false) (hconfined : w.Confined X c.pk)
    {owner : RoleService.Owner} {r v : Role}
    (howner : (r.ownerCt, r.ownerId, r.owner) = owner.resolve w)
    (hstored : ∀ o, owner = .object (some o) → o = .stored o.row)
    (hv : w.validateOwner r = .ok v)
    (hmanage : (canManageRole (some c) v none).run w = .ok true) (pk : Nat) (createdAt : Time)
    {a : AssignmentRow} (hfits : w.Fits a (v.columns pk createdAt)) : w.Away X a := by
  refine World.away_of_managesRole hsuper hconfined
    (World.validateOwner_shape howner hv pk createdAt).isNodeModel ?_ hfits
  refine (World.manages_iff howner hv hmanage pk createdAt).mpr fun o ho => .inl ?_
  rw [hstored o ho]
  exact .stored o.row

theorem Write.sameBeyond (hw : w.WellFormed) (hsuper : c.isSuperuser = false)
    (hconfined : w.Confined X c.pk) (hcall : call.AsStored)
    (h : Write (some c) w call t.toTableRows) : World.SameBeyond X w (w.save t) := by
  have hstored {r : RoleRow} (hr : w.tables.role r.id = some r) (hmanages : w.Manages (some c) r) :
      ∀ x, w.tables.role r.id = some x → ∀ a, w.Fits a x → w.Away X a := by
    intro x hx a hfits
    obtain rfl := Option.some.inj (hr.symm.trans hx)
    exact World.away_of_managesRole hsuper hconfined
      (hw.owners r (w.tables.role_eq_some.mp hr).1).isNodeModel hmanages hfits
  generalize hrows : t.toTableRows = rows at h
  cases h with
  | @granted user role r given level scope validFrom validUntil hrole hlevel hopens hfits hmanage
      hassign =>
    refine .of_rows (by rw [hrows]; rfl) (by rw [hrows]; rfl) (fun a ha => ?_)
      (fun a ha => .inl (by rw [hrows]; exact List.mem_append_left _ ha))
    rw [hrows] at ha
    rcases List.mem_append.mp ha with hold | hnew
    · exact .inl hold
    · obtain rfl := List.mem_singleton.mp hnew
      refine .inr (World.away_of_manages hsuper hconfined (s := scope.map Obj.row) ?_ ?_)
      · have hscope : (scope.map Obj.row).map Obj.stored = scope := by
          cases scope with
          | none => rfl
          | some o => exact congrArg some (hcall o rfl).symm
        rw [hscope]
        exact hmanage
      · cases scope with
        | none => rfl
        | some o =>
          exact World.isRow_generic (World.grantLevel_mem hlevel) (World.isRow_iff.mpr ⟨rfl, rfl⟩)
  | @moved _ row row' scope hrow hscope hmanage htransition =>
    have haway : w.Away X row := World.away_of_manages hsuper hconfined hmanage hscope
    have haway' : w.Away X row' := by
      refine World.away_of_manages hsuper hconfined hmanage ?_
      cases htransition <;> exact hscope
    refine .of_rows (by rw [hrows]; rfl) (by rw [hrows]; rfl) (fun a ha => ?_) fun a ha => ?_
    · rw [hrows] at ha
      rcases Lib.Rows.mem_modify.mp ha with ⟨hold, -⟩ | ⟨_, -, -, rfl⟩
      · exact .inl hold
      · exact .inr haway'
    · by_cases hid : a.id = row.id
      · rw [w.tables.assignment_unique ha (w.tables.assignment_eq_some.mp hrow).1 hid]
        exact .inr haway
      · refine .inl ?_
        rw [hrows]
        exact Lib.Rows.mem_modify.mpr (.inl ⟨ha, hid⟩)
  | @created permissions fields v pk createdAt _ hv hmanage hsaved =>
    obtain ⟨hpk, howner⟩ := hcall
    have hvpk : v.pk = none := (World.validateOwner_pk hv).trans hpk
    cases hsaved with
    | overwrite hpk' => cases hvpk.symm.trans hpk'
    | fresh _ hfresh =>
      refine .of_role (i := pk) (by rw [hrows]; rfl) (fun k hk => ⟨?_, ?_⟩) ?_ ?_
      · refine Option.ext fun x => ?_
        rw [Tables.role_addRole (r := v.columns pk w.now) hfresh hrows]
        simp [Role.columns, hk]
      · refine roleLabels_congr fun rp _ => ?_
        rw [hrows]
        rfl
      · intro r hr a hfits
        rcases (Tables.role_addRole (r := v.columns pk w.now) hfresh hrows).mp hr with
          ⟨-, hne⟩ | ⟨-, rfl⟩
        · exact absurd rfl hne
        · exact away_of_saved hsuper hconfined (r := fields.role w) rfl howner hv hmanage _ _
            hfits
      · intro r hr
        obtain ⟨hmem, rfl⟩ := w.tables.role_eq_some.mp hr
        exact absurd (List.mem_map.mpr ⟨r, hmem, rfl⟩) hfresh
  | @updated role v changes r hpk hr hmanages hv hmanage =>
    obtain ⟨owner, howner, hgiven⟩ := changes.apply_owner w r
    refine .of_role (i := r.id) (by rw [hrows]; rfl) (fun k hk => ⟨?_, ?_⟩) ?_ ?_
    · refine Option.ext fun x => ?_
      rw [Tables.role_setRole (y := v.columns r.id r.createdAt) hr rfl hrows]
      simp [hk]
    · refine roleLabels_congr fun rp _ => ?_
      rw [hrows]
      rfl
    · intro x hx a hfits
      rcases (Tables.role_setRole (y := v.columns r.id r.createdAt) hr rfl hrows).mp hx with
        ⟨-, hne⟩ | ⟨-, rfl⟩
      · exact absurd rfl hne
      · exact away_of_saved hsuper hconfined howner (fun o ho => hcall o (hgiven o ho)) hv hmanage
          _ _ hfits
    · exact hstored hr hmanages
  | @deleted role r hr hmanages hfree =>
    have hmem {x : RoleRow} : x ∈ t.roles ↔ x ∈ w.tables.roles ∧ x.id ≠ r.id := by simp [hrows]
    refine .of_role (i := r.id) (by rw [hrows]) (fun k hk => ⟨?_, ?_⟩) ?_ ?_
    · refine Option.ext fun x => ?_
      rw [Tables.role_eq_some, Tables.role_eq_some, hmem, and_assoc]
      refine and_congr_right fun _ => and_iff_right_of_imp ?_
      rintro rfl
      exact hk
    · refine roleLabels_congr fun rp hrp => ?_
      simp [hrows, hrp, hk]
    · intro x hx
      obtain ⟨hx, hid⟩ := (Tables.role_eq_some _).mp hx
      exact absurd hid (hmem.mp hx).2
    · exact hstored hr hmanages
  | @extended _ perms r user hadds hr hactor hmanages hgrant =>
    have hroles : t.roles = w.tables.roles := by rw [hrows, TableRows.addPermissions_rest]
    refine .of_role (i := r.id) (by rw [hrows, TableRows.addPermissions_rest])
      (fun k hk => ⟨Tables.role_of_roles hroles, roleLabels_congr fun rp hrp => ?_⟩) ?_ ?_
    · rw [hrows]
      constructor
      · intro hmem
        rcases TableRows.mem_addPermissions hmem with hold | ⟨p, -, -, rfl⟩
        · exact hold
        · exact absurd hrp.symm hk
      · exact TableRows.addPermissions_sub
    · rw [Tables.role_of_roles hroles]
      exact hstored hr hmanages
    · exact hstored hr hmanages
  | @reduced role perms r hr hmanages =>
    have hroles : t.roles = w.tables.roles := by rw [hrows]; rfl
    refine .of_role (i := r.id) (by rw [hrows]; rfl)
      (fun k hk => ⟨Tables.role_of_roles hroles, roleLabels_congr fun rp hrp => ?_⟩) ?_ ?_
    · simp [hrows, TableRows.removePermissions, hrp, hk]
    · rw [Tables.role_of_roles hroles]
      exact hstored hr hmanages
    · exact hstored hr hmanages

end Write

def SiteEvent.By (C : Set User) : SiteEvent → Prop
  | .call actor made _ => (∃ c ∈ C, actor = some c) ∧ made.AsStored
  | .tick _ => True
  | .host _ | .users _ => False

namespace World

variable {w v : World} {X : Row}

structure Isolated (X : Row) (w v : World) : Prop where
  frame : ∃ now t, v = { w with now := now, tables := t }
  later : w.now ≤ v.now
  wellFormed : v.WellFormed
  same : SameBeyond X w v

theorem Isolated.confined (h : Isolated X w v) {u : Nat} (hu : w.Confined X u) :
    v.Confined X u := by
  intro at_ hat x hx a L hforce huser p hp
  have hsame := h.same
  have hlater := h.later
  obtain ⟨now, t, rfl⟩ := h.frame
  have hx : w.Beyond X x := by cases x <;> exact hx
  exact hu at_ (hlater.trans hat) x hx a L ((hsame x hx at_ a L).mp hforce) huser p hp

theorem Isolated.write (h : Isolated X w v) (hnames : (w.hierarchy.levels.map Level.name).Nodup)
    {c : User} (hsuper : c.isSuperuser = false) (hc : w.Confined X c.pk) {call : ServiceCall}
    (hcall : call.AsStored) {t : Tables} (hwrite : Write (some c) v call t.toTableRows) :
    Isolated X w (v.save t) := by
  have hstep := hwrite.sameBeyond h.wellFormed hsuper (h.confined hc) hcall
  have hsame := h.same
  have hwf := h.wellFormed
  have hlater := h.later
  obtain ⟨now, t', rfl⟩ := h.frame
  refine ⟨⟨now, t, rfl⟩, hlater, hwf.write hnames hwrite, fun x hx at_ a L => ?_⟩
  exact (hstep x (by cases x <;> exact hx) at_ a L).trans (hsame x hx at_ a L)

theorem Isolated.tick (h : Isolated X w v) (elapsed : Time) :
    Isolated X w (v.step (.tick elapsed)) where
  frame := by
    obtain ⟨now, t, rfl⟩ := h.frame
    exact ⟨_, t, rfl⟩
  later := h.later.trans (Nat.le_add_right _ _)
  wellFormed := h.wellFormed.tick elapsed
  same := by
    intro x hx at_ a L
    have hsame := h.same
    obtain ⟨now, t, rfl⟩ := h.frame
    rw [← hsame x hx at_ a L]
    cases x <;> exact Iff.rfl

theorem history_isolated {C : Set User} (hnames : (w.hierarchy.levels.map Level.name).Nodup)
    (hw : w.WellFormed) (hC : ∀ c ∈ C, c.isSuperuser = false ∧ w.Confined X c.pk)
    {events : List SiteEvent} (hevents : ∀ e ∈ events, e.By C) :
    Isolated X w (w.history events) := by
  refine history_keeps (P := Isolated X w) (A := SiteEvent.By C) ?_ ?_ ?_ ?_ hevents
    ⟨⟨w.now, w.tables, rfl⟩, le_rfl, hw, fun _ _ _ _ _ => Iff.rfl⟩
  · rintro v _ call t rc ⟨⟨c, hc, rfl⟩, hcall⟩ h hwrite
    exact h.write hnames (hC c hc).1 (hC c hc).2 hcall hwrite
  · exact fun elapsed h => h.tick elapsed
  · exact fun _ hby _ => hby.elim
  · exact fun _ hby _ => hby.elim

theorem admits_iff_reach (hst : w.StoredAsPk) {u : User} {at_ : Time} {permission : Option String}
    {r : Row} : w.Admits u at_ permission r ↔
      permission = none ∧ w.resolveAnchor (.stored r) = .everywhere ∨
        ∃ a, w.Effective u.pk at_ a ∧ w.Valid a ∧ w.Reach (w.resolveAnchor (.stored r)) a ∧
          permission.all (· ∈ rolePerms a.role) := by
  refine or_congr_right (exists_congr fun a => ?_)
  constructor
  · rintro ⟨heffective, hvalid, hcarries, hbelow⟩
    exact ⟨heffective, hvalid, (hst.reach_iff heffective.stands hvalid _).mpr hbelow, hcarries⟩
  · rintro ⟨heffective, hvalid, hreach, hcarries⟩
    exact ⟨heffective, hvalid, hcarries, (hst.reach_iff heffective.stands hvalid _).mp hreach⟩

theorem Isolated.exists_iff (h : Isolated X w v) {x : Anchor} (hx : w.Beyond X x) {u : Nat}
    {t : Time} {Q : AssignmentRow → Finset String → Prop} :
    (∃ a, v.Effective u t a ∧ v.Valid a ∧ v.Reach x a ∧ Q a.row (rolePerms a.role)) ↔
      ∃ a, w.Effective u t a ∧ w.Valid a ∧ w.Reach x a ∧ Q a.row (rolePerms a.role) := by
  rw [exists_inForce, exists_inForce]
  exact exists_congr fun a => exists_congr fun L => and_congr_left fun _ => h.same x hx t a L

theorem run_userCovers_special {u : User} (h : ¬ (u.isActive ∧ u.isSuperuser = false)) {o : Obj}
    {at_ : Option Time} : (userCovers u o at_).run w = .ok u.isActive := by
  rw [run_userCovers]
  cases hactive : u.isActive with
  | false => rfl
  | true =>
    have hsuper : u.isSuperuser = true := by simpa [hactive] using h
    simp [hsuper]

section Decisions

variable (h : Isolated X w v) (hw : w.WellFormed) (hac : w.Grounded) (u : User)
  (at_ : Time)
include h hw hac

theorem Isolated.userPermissions_eq {o : Option Obj} (ho : w.Beyond X (w.anchorOf o)) :
    (userPermissions u o (some at_)).run v = (userPermissions u o (some at_)).run w := by
  have hparent : v.Grounded ∧ v.anchorOf o = w.anchorOf o := by
    obtain ⟨now, t, rfl⟩ := h.frame
    exact ⟨hac.frame now t, rfl⟩
  obtain ⟨P, hP⟩ := returns_userPermissions hw.readable hac u o (some at_)
  obtain ⟨P', hP'⟩ := returns_userPermissions h.wellFormed.readable hparent.1 u o (some at_)
  rw [hP, hP']
  cases hactive : u.isActive with
  | false =>
    rw [run_userPermissions, hactive] at hP hP'
    exact hP'.symm.trans hP
  | true =>
    have hsame : P' = P := by
      ext p
      rw [mem_userPermissions hP hactive, mem_userPermissions hP' hactive, hparent.2]
      exact h.exists_iff ho (Q := fun _ L => p ∈ L)
    rw [hsame]

theorem Isolated.hasPerm_eq (p : String) {o : Option Obj} (ho : w.Beyond X (w.anchorOf o)) :
    (hasPerm u p o (some at_)).run v = (hasPerm u p o (some at_)).run w := by
  rw [run_hasPerm, run_hasPerm, h.userPermissions_eq hw hac u at_ ho]

theorem Isolated.userCovers_eq {o : Obj} (ho : w.Beyond X (w.resolveAnchor o)) :
    (userCovers u o (some at_)).run v = (userCovers u o (some at_)).run w := by
  have hparent : v.Grounded ∧ v.resolveAnchor o = w.resolveAnchor o := by
    obtain ⟨now, t, rfl⟩ := h.frame
    exact ⟨hac.frame now t, rfl⟩
  obtain ⟨b, hb⟩ := returns_userCovers hw.readable hac u o (some at_)
  obtain ⟨b', hb'⟩ := returns_userCovers h.wellFormed.readable hparent.1 u o (some at_)
  rw [hb, hb']
  by_cases hordinary : u.isActive ∧ u.isSuperuser = false
  · obtain ⟨hactive, hsuper⟩ := hordinary
    have hsame : b' = b := by
      rw [Bool.eq_iff_iff, userCovers_iff hactive hsuper hb, userCovers_iff hactive hsuper hb',
        hparent.2]
      refine or_congr_right ?_
      simpa using h.exists_iff ho (u := u.pk) (t := at_) (Q := fun _ _ => True)
    rw [hsame]
  · rw [← hb, ← hb', run_userCovers_special hordinary, run_userCovers_special hordinary]

theorem Isolated.holds_iff (hdoc : w.hierarchy.Documented w.site.schema) (hf : w.Forest)
    (hactive : u.isActive) (hsuper : u.isSuperuser = false) {r : Row}
    (hm : w.hierarchy.isNodeModel r.model = false)
    (hnode : ∀ path n, w.site.resources.anchorFor r.model = some path →
      w.db.follow r path.parts = some n → ∃ k, w.NodeAt k n)
    (hr : w.Beyond X (w.resolveAnchor (.stored r))) {permission : Option String} {q q' : Q}
    (hq : (scopeFilterQ u r.model (some at_) permission).run w = .ok q)
    (hq' : (scopeFilterQ u r.model (some at_) permission).run v = .ok q') :
    q'.holds w.db r ↔ q.holds w.db r := by
  have hst := hw.storedAsPk
  have hst' := h.wellFormed.storedAsPk
  have hsame := h.exists_iff hr (u := u.pk) (t := at_) (Q := fun _ L => permission.all (· ∈ L))
  obtain ⟨now, t, rfl⟩ := h.frame
  have hlist := (scopeFilterQ_admits (w := { w with now := now, tables := t }) hdoc
    ⟨hf.level, hf.parent⟩ hactive hsuper hm (hac.anchors r.model) hnode hq').2
  refine hlist.trans ?_
  rw [(scopeFilterQ_admits hdoc hf hactive hsuper hm (hac.anchors r.model) hnode hq).2,
    admits_iff_reach hst,
    admits_iff_reach hst']
  exact or_congr_right hsame

end Decisions

end World

namespace Helpdesk

theorem alice_confined : staffed.Confined acme alice.pk := by
  intro at_ _ x hx a L hforce huser
  obtain ⟨ha, -, r, -, hfits, hreach, -⟩ := hforce
  have hscope : ∀ a ∈ staff.assignments, a.user = alice.pk →
      db.generic a.scopeCt a.scopeId = .ok (some acme) ∧ a.isRootScope = false := by decide
  obtain ⟨hs, hroot⟩ := hscope a ha huser
  exact absurd hreach (World.away_of_scope hs hroot (.refl acme) x hx r hfits)

theorem support_beyond : staffed.Beyond acme (staffed.anchorOf (some (.stored support))) := by
  have hsearch : Lib.Walk.search staffed.parent (· = acme) 3 support = some false := by decide
  exact World.beyond_stored (by decide) fun h => by
    simpa using (Lib.Walk.search_false hsearch).2 acme h

def tidy : List SiteEvent := [
  .call (some alice) (.revoke (some 2) "left") quiet,
  .tick 1,
  .call (some alice) (.onRole (.create [viewTicket]
    { name := "guest", owner := .object (some (.stored acme)) })) quiet]

end Helpdesk

end ScopedAccess
