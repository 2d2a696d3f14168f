import ScopedAccess.RoleServiceLaws
import ScopedAccess.Engine.RolesLaws
import ScopedAccess.Engine.Settling

namespace ScopedAccess

open Lib.Loop (bind_eq_ok ok_bind)
open Lib.Walk (Reaches)

inductive RoleCall
  | create (permissions : List Permission) (fields : RoleService.Fields)
  | update (role : Role) (changes : RoleService.Changes)
  | delete (role : Role)
  | grantPermissions (role : Role) (perms : List Permission)
  | revokePermissions (role : Role) (perms : List Permission)

def RoleCall.by_ (actor : Option User) : RoleCall → Op Unit
  | .create permissions fields => do
    let _ ← RoleService.create actor permissions fields
    return ()
  | .update role changes => do
    let _ ← RoleService.update role actor changes
    return ()
  | .delete role => RoleService.delete role actor
  | .grantPermissions role perms => role.grantPermissions perms actor
  | .revokePermissions role perms => role.revokePermissions perms actor

namespace World

def Manages (w : World) (actor : Option User) (r : RoleRow) : Prop :=
  (canManageRole actor (w.loadRole r) none).run w = .ok true

def RoleKept (w w' : World) (r : RoleRow) : Prop :=
  (∃ r', w'.tables.role r.id = some r' ∧ { r' with createdAt := r.createdAt } = r) ∧
    ∀ p, w'.tables.carries r.id p = w.tables.carries r.id p

def RoleUntouched (w w' : World) (r : RoleRow) : Prop :=
  w'.tables.role r.id = some r ∧ ∀ p, w'.tables.carries r.id p = w.tables.carries r.id p

def OwnerNew (w : World) (r : RoleRow) : Prop :=
  ∀ old, w.tables.role r.id = some old → (old.ownerCt, old.ownerId) ≠ (r.ownerCt, r.ownerId)

/-- Every row that changed was the actor's to manage, and so is every row with a
new owner; creating changes no row that was there. -/
structure Authorised (w w' : World) (actor : Option User) (call : RoleCall) : Prop where
  changed : ∀ r, w.tables.role r.id = some r → ¬ RoleKept w w' r → w.Manages actor r
  owned : ∀ r, w'.tables.role r.id = some r → w.OwnerNew r → w.Manages actor r
  created : ∀ permissions fields, call = .create permissions fields →
    ∀ r, w.tables.role r.id = some r → RoleUntouched w w' r

/-- Nothing unsaved changes which rows the walk from the instance comes to. -/
structure WalksAsStored (w : World) (o : Obj) : Prop where
  ancestors : ∀ r, w.Ancestor o r ↔ Reaches w.parent o.row r
  walks : w.Walks o → w.Walks (.stored o.row)

/-- The owner is passed below the nodes it is stored below, or the actor manages
roles on it as it is stored. -/
def OwnerAsStored (w : World) (actor : Option User) (o : Obj) : Prop :=
  w.WalksAsStored o ∨ ∃ u ∈ actor,
    (hasPerm u (w.site.roleApp ++ ".manage_roles") (some (.stored o.row)) none).run w = .ok true

/-- What a call must be given for its checks to be about the stored rows. -/
def SoundCall (w : World) (actor : Option User) : RoleCall → Prop
  | .create permissions fields =>
    match fields.pk.bind w.tables.role with
    | some r =>
      (∀ v, w.validateOwner (fields.role w) = .ok v →
        v.columns r.id (fields.createdAt.getD r.createdAt) = r) ∧
      ∀ p ∈ permissions, w.tables.carries r.id p
    | none => ∀ o, fields.owner = .object (some o) → w.OwnerAsStored actor o
  | .update role changes => ∀ o r, changes.owner = some (some o) →
    role.pk.bind w.tables.role = some r →
    (r.ownerCt, r.ownerId) ≠ (some (w.site.schema.contentType o.model), some o.row.pk) →
      w.OwnerAsStored actor o
  | _ => True

variable {w w' : World} {actor : Option User} {r : RoleRow}

theorem RoleUntouched.kept (h : RoleUntouched w w' r) : RoleKept w w' r :=
  ⟨⟨r, h.1, rfl⟩, h.2⟩

theorem not_ownerNew (h : w.tables.role r.id = some r) : ¬ w.OwnerNew r :=
  fun hnew => hnew r h rfl

theorem canManageRole_congr {R S : Role} (hid : R.ownerId = S.ownerId)
    (howner : R.owner = S.owner) (at_ : Option Time) :
    canManageRole actor R at_ = canManageRole actor S at_ := by
  cases R
  cases S
  subst hid howner
  rfl

theorem WalksAsStored.stored (r : Row) : w.WalksAsStored (.stored r) :=
  ⟨fun _ => ancestor_stored, id⟩

theorem hasPerm_asStored {o : Obj} (hm : w.hierarchy.isNodeModel o.model)
    (hwalks : w.WalksAsStored o) {u : User} {p : String} {at_ : Option Time}
    (h : (hasPerm u p (some o) at_).run w = .ok true) :
    (hasPerm u p (some (.stored o.row)) at_).run w = .ok true := by
  have hanchor : w.anchorOf (some o) = .node o := by
    rw [anchorOf, resolveAnchor, if_pos hm]
  have hstored : w.anchorOf (some (.stored o.row)) = .node (.stored o.row) := by
    rw [anchorOf, resolveAnchor,
      if_pos (show w.hierarchy.isNodeModel (Obj.stored o.row).model from hm)]
  have hancestor {r : Row} : w.Ancestor o r ↔ w.Ancestor (.stored o.row) r :=
    (hwalks.ancestors r).trans ancestor_stored.symm
  by_cases hactive : u.isActive
  · by_cases hsuper : u.isSuperuser
    · simp [run_hasPerm, hactive, hsuper]
    · have hsuper : u.isSuperuser = false := by simpa using hsuper
      obtain ⟨P, hP⟩ := (hasPerm_ok hactive hsuper).mp ⟨true, h⟩
      have hreads := (userPermissions_ok hactive (by simp [hanchor])).mp ⟨P, hP⟩
      rw [hanchor] at hreads
      have hreads' : ∀ y ∈ w.fetched u (at_.getD w.now), w.Tells (.node (.stored o.row)) y := by
        refine fun y hy => (hreads y hy).imp_right fun hmeets a ha n hn hvalid => ?_
        cases hn
        refine (hmeets a ha o rfl hvalid).imp_right (Or.imp hwalks.walks ?_)
        rintro ⟨r, hr, hsame⟩
        exact ⟨r, hancestor.mp hr, hsame⟩
      rw [← hstored] at hreads'
      have hread := (userPermissions_ok hactive (by simp [hstored])).mpr hreads'
      obtain ⟨b, hb⟩ := (hasPerm_ok (p := p) hactive hsuper).mpr hread
      obtain ⟨a, ha, hvalid, hreach, hp⟩ := (hasPerm_iff hactive hsuper h).mp rfl
      rw [hanchor] at hreach
      have hreach : w.Reach (w.anchorOf (some (.stored o.row))) a := by
        rw [hstored]
        refine hreach.imp_right ?_
        rintro ⟨r, hr, hsame⟩
        exact ⟨r, hancestor.mp hr, hsame⟩
      rw [hb, (hasPerm_iff hactive hsuper hb).mpr ⟨a, ha, hvalid, hreach, hp⟩]
  · simp [run_hasPerm, hactive] at h

theorem validateOwner_owner {role v : Role} (h : w.validateOwner role = .ok v) :
    v.ownerCt = role.ownerCt ∧ v.ownerId = role.ownerId ∧ v.owner = role.owner := by
  obtain ⟨-, -, -, rfl⟩ | ⟨_, _, -, -, -, -, -, rfl⟩ := validateOwner_ok h <;>
    exact ⟨rfl, rfl, rfl⟩

theorem manages_iff {owner : RoleService.Owner} {role v : Role}
    (hrole : (role.ownerCt, role.ownerId, role.owner) = owner.resolve w)
    (hv : w.validateOwner role = .ok v) (hcheck : (canManageRole actor v none).run w = .ok true)
    (pk : Nat) (createdAt : Time) : w.Manages actor (v.columns pk createdAt) ↔
      ∀ o, owner = .object (some o) → w.OwnerAsStored actor o := by
  obtain ⟨hct, hid, howner⟩ := validateOwner_owner hv
  have hloaded : (w.loadRole (v.columns pk createdAt)).owner =
      w.genericObj role.ownerCt role.ownerId := by rw [← hct, ← hid]; rfl
  have hsame (h : w.genericObj role.ownerCt role.ownerId = role.owner) :
      w.Manages actor (v.columns pk createdAt) := by
    rw [Manages, canManageRole_congr (R := w.loadRole (v.columns pk createdAt)) (S := v) rfl
      (hloaded.trans (h.trans howner.symm))]
    exact hcheck
  cases owner with
  | columns ct id =>
    obtain ⟨hrct, hrid, hrowner⟩ : role.ownerCt = ct ∧ role.ownerId = id ∧
        role.owner = w.genericObj ct id := by simpa [RoleService.Owner.resolve] using hrole
    exact iff_of_true (hsame (by rw [hrct, hrid, hrowner])) nofun
  | object given =>
    cases given with
    | none =>
      obtain ⟨hrct, hrid, hrowner⟩ : role.ownerCt = none ∧ role.ownerId = none ∧
          role.owner = .ok none := by simpa [RoleService.Owner.resolve] using hrole
      exact iff_of_true (hsame (by rw [hrct, hrid, hrowner]; rfl)) nofun
    | some o =>
      obtain ⟨hrct, hrid, hrowner⟩ : role.ownerCt = some (w.site.schema.contentType o.model) ∧
          role.ownerId = some o.row.pk ∧ role.owner = .ok (some o) := by
        simpa [RoleService.Owner.resolve] using hrole
      have hsome : v.ownerId ≠ none := by simp [hid, hrid]
      have hnode : w.genericObj role.ownerCt role.ownerId = .ok (some (.stored o.row)) ∧
          w.hierarchy.isNodeModel o.model := by
        obtain ⟨hnone, -⟩ | ⟨o', level, -, -, ho', hlevel, -, -⟩ := validateOwner_ok hv
        · simp [hrid] at hnone
        · obtain rfl : o = o' := Option.some.inj (Except.ok.inj (hrowner.symm.trans ho'))
          obtain ⟨l, hl, hsel, -⟩ := mem_matchingLevels.mp hlevel
          rw [hrct, hrid]
          exact ⟨genericObj_stored.mpr
            (isRow_generic (Level.selects_mem hsel) (isRow_iff.mpr ⟨rfl, rfl⟩)),
            w.hierarchy.isNodeModel_iff.mpr ⟨l, hl, Level.selects_model hsel⟩⟩
      cases actor with
      | none => cases hcheck
      | some u =>
        have hcolumns : (w.loadRole (v.columns pk createdAt)).ownerId ≠ none := hsome
        have hstored :
            (canManageRole (some u) (w.loadRole (v.columns pk createdAt)) none).run w = _ :=
          canManageRole_custom hcolumns (hloaded.trans hnode.1) u
        rw [canManageRole_custom hsome (howner.trans hrowner)] at hcheck
        rw [Manages, hstored]
        constructor
        · rintro hmanages o' ho'
          obtain rfl : o = o' := by simpa using ho'
          exact .inr ⟨u, rfl, hmanages⟩
        · intro h
          rcases h o rfl with hwalks | ⟨u', hu', hperm⟩
          · exact hasPerm_asStored hnode.2 hwalks hcheck
          · obtain rfl : u = u' := by simpa using hu'
            exact hperm

section Calls

variable {rc : Receivers}

theorem authorised_of_row {call : RoleCall}
    (hcall : ∀ permissions fields, call ≠ .create permissions fields)
    (hmanages : w.Manages actor r)
    (hrest : ∀ x, w.tables.role x.id = some x → x.id ≠ r.id → RoleUntouched w w' x)
    (howned : ∀ x, w'.tables.role x.id = some x → w.OwnerNew x → w.Manages actor x)
    (hr : w.tables.role r.id = some r) : Authorised w w' actor call where
  changed x hx hchanged := by
    by_cases hid : x.id = r.id
    · obtain rfl : x = r := by
        rw [hid, hr] at hx
        exact (Option.some.inj hx).symm
      exact hmanages
    · exact absurd (hrest x hx hid).kept hchanged
  owned := howned
  created permissions fields h := absurd h (hcall permissions fields)

theorem grantPermissions_authorised {role : Role} {perms : List Permission} {x : Unit}
    (h : (role.grantPermissions perms actor).run rc w = .ok (x, w')) :
    Authorised w w' actor (.grantPermissions role perms) := by
  obtain ⟨r, user, t, -, hr, -, hmanages, -, ht, rfl⟩ := Role.grantPermissions_ok h
  have hroles (id : Nat) : t.role id = w.tables.role id :=
    Tables.role_of_roles (by rw [ht, TableRows.addPermissions_rest])
  refine authorised_of_row nofun hmanages (fun x hx hid => ⟨(hroles _).trans hx, fun p => ?_⟩)
    (fun x hx hnew => absurd hnew (not_ownerNew ((hroles _).symm.trans hx))) hr
  rw [save_tables, ht, Bool.eq_iff_iff, TableRows.carries_addPermissions]
  exact or_iff_left fun h => hid h.1

theorem revokePermissions_authorised {role : Role} {perms : List Permission} {x : Unit}
    (h : (role.revokePermissions perms actor).run rc w = .ok (x, w')) :
    Authorised w w' actor (.revokePermissions role perms) := by
  obtain ⟨r, t, -, hr, hmanages, ht, rfl⟩ := Role.revokePermissions_ok h
  have hroles (id : Nat) : t.role id = w.tables.role id :=
    Tables.role_of_roles (by rw [ht]; rfl)
  refine authorised_of_row nofun hmanages (fun x hx hid => ⟨(hroles _).trans hx, fun p => ?_⟩)
    (fun x hx hnew => absurd hnew (not_ownerNew ((hroles _).symm.trans hx))) hr
  rw [save_tables, ht]
  exact TableRows.carries_removePermissions hid

theorem delete_authorised {role : Role} {x : Unit}
    (h : (RoleService.delete role actor).run rc w = .ok (x, w')) :
    Authorised w w' actor (.delete role) := by
  obtain ⟨r, t, -, hr, hmanages, -, ht, rfl⟩ := RoleService.delete_ok h
  have hmem {x : RoleRow} : x ∈ t.roles ↔ x ∈ w.tables.roles ∧ x.id ≠ r.id := by simp [ht]
  refine authorised_of_row nofun hmanages (fun x hx hid => ⟨?_, fun p => ?_⟩) (fun x hx hnew => ?_) hr
  · exact (Tables.role_eq_some _).mpr ⟨hmem.mpr ⟨(w.tables.role_eq_some.mp hx).1, hid⟩, rfl⟩
  · rw [save_tables, ht, Bool.eq_iff_iff, TableRows.carries_iff, TableRows.carries_iff]
    refine exists_congr fun rp => ?_
    simp only [List.mem_filter, decide_eq_true_eq, and_assoc]
    refine and_congr_right fun _ => and_iff_right_of_imp ?_
    rintro ⟨hrole, -⟩ hdeleted
    exact hid (hrole.symm.trans hdeleted)
  · have hold := (hmem.mp ((Tables.role_eq_some _).mp hx).1).1
    exact absurd hnew (not_ownerNew (w.tables.role_eq_some.mpr ⟨hold, rfl⟩))

theorem update_authorised_iff {role role' : Role} {changes : RoleService.Changes}
    (h : (RoleService.update role actor changes).run rc w = .ok (role', w')) :
    Authorised w w' actor (.update role changes) ↔ w.SoundCall actor (.update role changes) := by
  obtain ⟨r, v, t, hpk, hr, hmanages, hv, hcheck, ht, rfl⟩ := RoleService.update_ok h
  have hrole : role.pk.bind w.tables.role = some r := by simpa [hpk] using hr
  have hrows {k : Nat} {x : RoleRow} := Tables.role_setRole (x := x) (k := k) hr
    (y := v.columns r.id r.createdAt) rfl ht
  obtain ⟨hct, hid, -⟩ := validateOwner_owner hv
  have hwritten : t.role r.id = some (v.columns r.id r.createdAt) := hrows.mpr (.inr ⟨rfl, rfl⟩)
  have hnew : w.OwnerNew (v.columns r.id r.createdAt) ↔
      (r.ownerCt, r.ownerId) ≠ (v.ownerCt, v.ownerId) := by
    refine ⟨fun hnew => hnew r hr, fun hne old hold => ?_⟩
    obtain rfl : r = old := Option.some.inj (hr.symm.trans hold)
    exact hne
  have hfirst : Authorised w (w.save t) actor (.update role changes) ↔
      (w.OwnerNew (v.columns r.id r.createdAt) → w.Manages actor (v.columns r.id r.createdAt)) := by
    refine ⟨fun ha => ha.owned _ hwritten, fun howned => ?_⟩
    refine authorised_of_row nofun hmanages (fun x hx hne => ⟨hrows.mpr (.inl ⟨hx, hne⟩), ?_⟩)
      (fun x hx hxnew => ?_) hr
    · intro p
      rw [save_tables, ht]
      rfl
    · rcases hrows.mp hx with ⟨hold, -⟩ | ⟨-, rfl⟩
      · exact absurd hxnew (not_ownerNew hold)
      · exact howned hxnew
  rw [hfirst, hnew]
  cases hchange : changes.owner with
  | none =>
    have hsame : (r.ownerCt, r.ownerId) = (v.ownerCt, v.ownerId) := by
      rw [hct, hid, RoleService.Changes.apply, hchange]
      rfl
    refine iff_of_true (fun hne => absurd hsame hne) fun o _ ho => ?_
    rw [hchange] at ho
    cases ho
  | some given =>
    have hgiven : ((changes.apply w (w.loadRole r)).ownerCt,
        (changes.apply w (w.loadRole r)).ownerId, (changes.apply w (w.loadRole r)).owner) =
          (RoleService.Owner.object given).resolve w := by
      rw [RoleService.Changes.apply, hchange]
    rw [manages_iff hgiven hv hcheck, hct, hid]
    simp only [SoundCall, hchange, hrole, Option.some.injEq]
    constructor
    · rintro h o r' rfl rfl hne
      refine h ?_ o rfl
      rw [RoleService.Changes.apply, hchange]
      exact hne
    · rintro h hne o ho
      obtain rfl : given = some o := by simpa using ho
      refine h o r rfl rfl ?_
      rw [RoleService.Changes.apply, hchange] at hne
      exact hne

theorem create_tables {permissions : List Permission} {fields : RoleService.Fields} {role : Role}
    (h : (RoleService.create actor permissions fields).run rc w = .ok (role, w')) :
    ∃ v pk createdAt, ∃ t : Tables, w.validateOwner (fields.role w) = .ok v ∧
      (canManageRole actor v none).run w = .ok true ∧ Saved w v pk createdAt t.toTableRows ∧
      (∀ id, w'.tables.role id = t.role id) ∧
      ∀ id p, w'.tables.carries id p ↔
        w.tables.carries id p ∨ id = pk ∧ ∃ q ∈ permissions, q.id = p.id := by
  obtain ⟨v, pk, createdAt, t, hv, hcheck, hsaved, rfl, hrest⟩ := RoleService.create_ok h
  have hcarries (id : Nat) (p : Permission) : t.carries id p = w.tables.carries id p := by
    generalize t.toTableRows = rows at hsaved
    cases hsaved <;> rfl
  refine ⟨v, pk, createdAt, t, hv, hcheck, hsaved, ?_⟩
  rcases hrest with ⟨rfl, rfl⟩ | hgrant
  · exact ⟨fun _ => rfl, fun id p => by rw [save_tables, hcarries]; simp⟩
  · obtain ⟨row, user, t', hpk, -, -, -, -, ht', rfl⟩ := Role.grantPermissions_ok hgrant
    obtain rfl : pk = row.id := by simpa [Role.saved] using hpk
    refine ⟨fun id => Tables.role_of_roles ?_, fun id p => ?_⟩
    · rw [save_tables, ht', TableRows.addPermissions_rest]
      rfl
    · rw [← hcarries, save_tables, ht', TableRows.carries_addPermissions]
      rfl

theorem create_authorised_iff {permissions : List Permission} {fields : RoleService.Fields}
    {role : Role} (h : (RoleService.create actor permissions fields).run rc w = .ok (role, w')) :
    Authorised w w' actor (.create permissions fields) ↔
      w.SoundCall actor (.create permissions fields) := by
  obtain ⟨v, pk, createdAt, t, hv, hcheck, hsaved, hroles, hcarries⟩ := create_tables h
  have hvpk : v.pk = fields.pk := validateOwner_pk hv
  have hvcreated : v.createdAt = fields.createdAt := validateOwner_createdAt hv
  generalize hrows : t.toTableRows = rows at hsaved
  cases hsaved with
  | @overwrite r createdAt hpk hr hcreated =>
    have hstored : fields.pk.bind w.tables.role = some r := by simpa [← hvpk, hpk] using hr
    have hwritten {k : Nat} {x : RoleRow} := Tables.role_setRole (x := x) (k := k) hr
      (y := v.columns r.id createdAt) rfl hrows
    have hgiven : fields.createdAt.getD r.createdAt = createdAt := by
      rw [← hvcreated, hcreated]
      rfl
    simp only [SoundCall, hstored, hv, Except.ok.injEq, forall_eq', hgiven]
    constructor
    · intro ha
      obtain ⟨hrow, hperms⟩ := ha.created _ _ rfl r hr
      refine ⟨?_, fun p hp => ?_⟩
      · rw [hroles, hwritten] at hrow
        simpa [eq_comm] using hrow
      · rw [← hperms p]
        exact (hcarries _ _).mpr (.inr ⟨rfl, p, hp, rfl⟩)
    · rintro ⟨hsame, hperms⟩
      have huntouched (x : RoleRow) (hx : w.tables.role x.id = some x) : RoleUntouched w w' x := by
        refine ⟨?_, fun p => ?_⟩
        · rw [hroles, hwritten, hsame]
          by_cases hid : x.id = r.id
          · refine .inr ⟨hid, ?_⟩
            rw [hid, hr] at hx
            exact (Option.some.inj hx).symm
          · exact .inl ⟨hx, hid⟩
        · rw [Bool.eq_iff_iff, hcarries]
          refine or_iff_left_of_imp ?_
          rintro ⟨hid, q, hq, hqp⟩
          obtain ⟨rp, hrp, hrole, hrpid⟩ := TableRows.carries_iff.mp (hperms q hq)
          exact TableRows.carries_iff.mpr ⟨rp, hrp, hrole.trans hid.symm, hrpid.trans hqp⟩
      refine ⟨fun x hx hchanged => absurd (huntouched x hx).kept hchanged, fun x hx hnew => ?_,
        fun _ _ _ => huntouched⟩
      rw [hroles, hwritten, hsame] at hx
      rcases hx with ⟨hx, -⟩ | ⟨-, rfl⟩
      · exact absurd hnew (not_ownerNew hx)
      · exact absurd hnew (not_ownerNew hr)
  | @fresh pk hpk hfresh =>
    have hunused : fields.pk.bind w.tables.role = none := by
      rw [← hvpk]
      rcases hpk with hpk | hpk
      · rw [hpk, Option.bind_some, Option.eq_none_iff_forall_ne_some]
        intro x hx
        obtain ⟨hmem, rfl⟩ := w.tables.role_eq_some.mp hx
        exact hfresh (List.mem_map_of_mem hmem)
      · rw [hpk, Option.bind_none]
    have hwritten {k : Nat} {x : RoleRow} := Tables.role_addRole (x := x) (k := k)
      (r := v.columns pk w.now) hfresh hrows
    have hgiven : ((fields.role w).ownerCt, (fields.role w).ownerId, (fields.role w).owner) =
        fields.owner.resolve w := rfl
    simp only [SoundCall, hunused]
    rw [← manages_iff hgiven hv hcheck pk w.now]
    have hunheld (x : RoleRow) (hx : w.tables.role x.id = some x) : x.id ≠ pk := by
      rintro rfl
      exact hfresh (List.mem_map_of_mem (w.tables.role_eq_some.mp hx).1)
    have huntouched (x : RoleRow) (hx : w.tables.role x.id = some x) : RoleUntouched w w' x := by
      refine ⟨by rw [hroles]; exact hwritten.mpr (.inl ⟨hx, hunheld x hx⟩), fun p => ?_⟩
      rw [Bool.eq_iff_iff, hcarries]
      exact or_iff_left fun h => hunheld x hx h.1
    constructor
    · intro ha
      refine ha.owned _ ((hroles _).trans (hwritten.mpr (.inr ⟨rfl, rfl⟩))) fun old hold => ?_
      obtain ⟨hmem, hid⟩ := w.tables.role_eq_some.mp hold
      exact absurd hid (hunheld old (w.tables.role_eq_some.mpr ⟨hmem, rfl⟩))
    · intro hmanages
      refine ⟨fun x hx hchanged => absurd (huntouched x hx).kept hchanged, fun x hx hnew => ?_,
        fun _ _ _ => huntouched⟩
      rcases hwritten.mp ((hroles _).symm.trans hx) with ⟨hx, -⟩ | ⟨-, rfl⟩
      · exact absurd hnew (not_ownerNew hx)
      · exact hmanages

/-- A role call is authorised against the stored rows exactly when it is sound. -/
theorem authorised_iff_sound {call : RoleCall}
    (h : (call.by_ actor).run rc w = .ok ((), w')) :
    Authorised w w' actor call ↔ w.SoundCall actor call := by
  cases call with
  | create permissions fields =>
    obtain ⟨role, v, hcreate, hdone⟩ := Op.run_bind_ok.mp h
    obtain ⟨-, rfl⟩ := Op.run_pure_ok.mp hdone
    exact create_authorised_iff hcreate
  | update role changes =>
    obtain ⟨role', v, hupdate, hdone⟩ := Op.run_bind_ok.mp h
    obtain ⟨-, rfl⟩ := Op.run_pure_ok.mp hdone
    exact update_authorised_iff hupdate
  | delete role => exact iff_of_true (delete_authorised h) trivial
  | grantPermissions role perms => exact iff_of_true (grantPermissions_authorised h) trivial
  | revokePermissions role perms => exact iff_of_true (revokePermissions_authorised h) trivial

end Calls

end World

namespace Helpdesk

def hire : RoleCall :=
  .create [viewTicket] { name := "helper", owner := .object (some (.stored acme)) }

theorem hire_authorised :
    World.Authorised staffed ((hire.by_ (some alice)).after quiet staffed) (some alice) hire := by
  obtain ⟨_, hrun⟩ := Op.run_of_isOk quiet (w := staffed)
    (p := hire.by_ (some alice)) (by decide)
  refine (World.authorised_iff_sound hrun).mpr ?_
  rintro o ho
  obtain rfl : Obj.stored acme = o := by simpa using ho
  exact .inl (.stored acme)

def seize : RoleCall :=
  .create [] {
    pk := some 3
    name := "seized"
    owner := .object (some (.stored acme))
    createdAt := some 10 }

theorem seize_not_authorised : ∃ w', (seize.by_ (some alice)).run quiet staffed = .ok ((), w') ∧
    ¬ staffed.Manages (some alice) triage ∧
    ¬ World.Authorised staffed w' (some alice) seize := by
  obtain ⟨_, hrun⟩ := Op.run_of_isOk quiet (w := staffed)
    (p := seize.by_ (some alice)) (by decide)
  refine ⟨_, hrun, ?_, fun h => ?_⟩
  · unfold World.Manages
    decide
  · exact absurd (h.created _ _ rfl triage (by decide)).1 (by decide)

end Helpdesk

end ScopedAccess
