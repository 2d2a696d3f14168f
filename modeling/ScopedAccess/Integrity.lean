import ScopedAccess.Services
import ScopedAccess.Engine.Nodes
import ScopedAccess.Engine.Returns

namespace ScopedAccess

open Lib.Loop

variable {w : World} {actor : Option User} {call : ServiceCall} {t : Tables}

inductive WrittenAssignment (w : World) (actor : Option User) (call : ServiceCall)
    (a : AssignmentRow) : Prop
  | kept (h : a ∈ w.tables.assignments)
  | granted {user : User} {r : RoleRow} {given level : Option String} {scope : Option Obj}
      {validFrom validUntil : Option Time} (hlevel : w.grantLevel given scope = .ok level)
      (hopens : ScopeAssignment.windowOpens validFrom validUntil)
      (h : a = ScopeAssignment.granted w user r actor level scope validFrom validUntil)
  | moved {row : AssignmentRow} (hrow : row ∈ w.tables.assignments)
      (h : Transition w actor row call a)

inductive WrittenRole (w : World) (r : RoleRow) : Prop
  | kept (h : r ∈ w.tables.roles)
  | saved {owner : RoleService.Owner} {given v : Role} {pk : Nat} {createdAt : Time}
      (howner : (given.ownerCt, given.ownerId, given.owner) = owner.resolve w)
      (hv : w.validateOwner given = .ok v) (h : r = v.columns pk createdAt)

theorem Write.assignment (h : Write actor w call t.toTableRows) {a : AssignmentRow}
    (ha : a ∈ t.assignments) : WrittenAssignment w actor call a := by
  generalize t.toTableRows = rows at h ha
  cases h with
  | granted hrole hlevel hopens hfits hmanage hassign =>
    rcases List.mem_append.mp ha with hold | hnew
    · exact .kept hold
    · exact .granted hlevel hopens (List.mem_singleton.mp hnew)
  | moved hstored _ _ htransition =>
    rcases Lib.Rows.mem_modify.mp ha with ⟨hold, -⟩ | ⟨_, -, -, rfl⟩
    · exact .kept hold
    · exact .moved (w.tables.assignment_eq_some.mp hstored).1 htransition
  | created _ _ hsaved => cases hsaved <;> exact .kept ha
  | updated | deleted | reduced => exact .kept ha
  | extended =>
    rw [TableRows.addPermissions_rest] at ha
    exact .kept ha

theorem RoleService.Changes.apply_owner (w : World) (changes : RoleService.Changes)
    (r : RoleRow) : ∃ owner : RoleService.Owner,
      ((changes.apply w (w.loadRole r)).ownerCt, (changes.apply w (w.loadRole r)).ownerId,
        (changes.apply w (w.loadRole r)).owner) = owner.resolve w ∧
      ∀ o, owner = .object (some o) → changes.owner = some (some o) := by
  unfold RoleService.Changes.apply
  cases changes.owner with
  | none => exact ⟨.columns r.ownerCt r.ownerId, rfl, nofun⟩
  | some given => exact ⟨.object given, rfl, fun o ho => by rw [RoleService.Owner.object.inj ho]⟩

theorem Write.role (h : Write actor w call t.toTableRows) {r : RoleRow} (hr : r ∈ t.roles) :
    WrittenRole w r := by
  generalize t.toTableRows = rows at h hr
  cases h with
  | granted | moved | reduced => exact .kept hr
  | extended =>
    rw [TableRows.addPermissions_rest] at hr
    exact .kept hr
  | deleted => exact .kept (List.mem_filter.mp hr).1
  | @created _ fields _ _ _ _ hv _ hsaved =>
    have howner : ((fields.role w).ownerCt, (fields.role w).ownerId, (fields.role w).owner) =
        fields.owner.resolve w := rfl
    cases hsaved with
    | overwrite =>
      rcases Lib.Rows.mem_modify.mp hr with ⟨hold, -⟩ | ⟨_, -, -, rfl⟩
      · exact .kept hold
      · exact .saved howner hv rfl
    | fresh =>
      rcases List.mem_append.mp hr with hold | hnew
      · exact .kept hold
      · exact .saved howner hv (List.mem_singleton.mp hnew)
  | @updated _ _ changes r₀ _ _ _ hv =>
    obtain ⟨owner, howner, -⟩ := changes.apply_owner w r₀
    rcases Lib.Rows.mem_modify.mp hr with ⟨hold, -⟩ | ⟨_, -, -, rfl⟩
    · exact .kept hold
    · exact .saved howner hv rfl

namespace World

/-- The scope columns are those of one of the shapes, and name their node by its
own key. -/
def ScopeShape (w : World) (a : AssignmentRow) : Prop :=
  w.RootShape a ∨ ∃ s, w.isRow a.scopeCt a.scopeId s ∧ w.NodeShape a s

/-- A system role without owner metadata, or owned by a node of a level that may
own roles. -/
def OwnerShape (w : World) (r : RoleRow) : Prop :=
  (r.ownerId = none ∧ r.ownerCt = none ∧ r.ownerLevel = none) ∨
    ∃ X l, w.db.generic r.ownerCt r.ownerId = .ok (some X) ∧ l ∈ w.hierarchy.levels ∧
      l.selects w.db X ∧ r.ownerLevel = some l.name ∧ l.name ∈ w.site.roleOwnerLevels

/-- The dates and the revocation stamp tell one story. -/
structure Dated (w : World) (a : AssignmentRow) : Prop where
  opens : ScopeAssignment.windowOpens a.validFrom a.validUntil
  granted : a.grantedAt ≤ w.now
  live : a.status ≠ .revoked → a.revokedBy = none ∧ a.revokedAt = none ∧ a.reason = ""
  revoked : a.status = .revoked → ∃ at_ ∈ a.revokedAt, a.grantedAt ≤ at_ ∧ at_ ≤ w.now

structure WellFormed (w : World) : Prop where
  scopes : ∀ a ∈ w.tables.assignments, w.ScopeShape a
  dates : ∀ a ∈ w.tables.assignments, w.Dated a
  owners : ∀ r ∈ w.tables.roles, w.OwnerShape r

theorem grantLevel_shape (hnames : (w.hierarchy.levels.map Level.name).Nodup)
    {given level : Option String} {scope : Option Obj} (h : w.grantLevel given scope = .ok level)
    {a : AssignmentRow} (hlevel : a.level = level)
    (hct : a.scopeCt = scope.map fun o => w.site.schema.contentType o.model)
    (hid : a.scopeId = scope.map (·.row.pk)) : w.ScopeShape a := by
  cases scope with
  | none =>
    refine .inl ⟨hid, hct, ?_⟩
    cases given with
    | none =>
      obtain rfl : none = level := by simpa [grantLevel] using h
      simp [hlevel]
    | some name =>
      by_cases hroot : w.hierarchy.isRoot name
      · obtain rfl : some name = level := by simpa [grantLevel, hroot] using h
        simp [hlevel, hroot]
      · simp [grantLevel, hroot, throwing] at h
  | some o =>
    have hname : ∃ name ∈ level, name ∈ w.matchingLevels o := by
      unfold grantLevel at h
      cases given with
      | none =>
        dsimp only at h
        split at h
        · rename_i name hlist
          obtain rfl := Except.ok.inj h
          exact ⟨name, rfl, by simp [hlist]⟩
        · simp [throwing] at h
      | some name =>
        by_cases hname : name ∈ w.matchingLevels o
        · obtain rfl : some name = level := by simpa [hname] using h
          exact ⟨name, rfl, hname⟩
        · simp [hname, throwing] at h
    obtain ⟨name, rfl, hname⟩ := hname
    obtain ⟨l, hl, hsel, rfl⟩ := mem_matchingLevels.mp hname
    refine .inr ⟨o.row, isRow_iff.mpr ⟨hid, hct⟩, by simp [hid], by simp [hct], l.name, hlevel, ?_⟩
    exact ⟨l, Hierarchy.level_unique hnames hl, hsel⟩

theorem genericObj_some {ct : Option Ct} {id : Option String} {o : Obj}
    (h : w.genericObj ct id = .ok (some o)) :
    ∃ X, o = .stored X ∧ w.db.generic ct id = .ok (some X) := by
  unfold genericObj at h
  cases hX : w.db.generic ct id with
  | error e => simp [hX] at h
  | ok found =>
    cases found with
    | none => simp [hX] at h
    | some X =>
      obtain rfl : Obj.stored X = o := by simpa [hX] using h
      exact ⟨X, rfl, rfl⟩

theorem resolve_generic {owner : RoleService.Owner} {o : Obj}
    (ho : (owner.resolve w).2.2 = .ok (some o)) (hmem : o.row ∈ w.db.rows) :
    w.db.generic (owner.resolve w).1 (owner.resolve w).2.1 = .ok (some o.row) := by
  cases owner with
  | columns ct id =>
    obtain ⟨X, rfl, hX⟩ := genericObj_some ho
    exact hX
  | object given =>
    cases given with
    | none => cases ho
    | some o' =>
      obtain rfl : o' = o := Option.some.inj (Except.ok.inj ho)
      exact isRow_generic hmem (isRow_iff.mpr ⟨rfl, rfl⟩)

theorem validateOwner_shape {owner : RoleService.Owner} {given v : Role}
    (howner : (given.ownerCt, given.ownerId, given.owner) = owner.resolve w)
    (hv : w.validateOwner given = .ok v) (pk : Nat) (createdAt : Time) :
    w.OwnerShape (v.columns pk createdAt) := by
  obtain ⟨hid, hct, hlevel, rfl⟩ | ⟨o, level, -, -, hread, hlevel, hallowed, rfl⟩ :=
    validateOwner_ok hv
  · exact .inl ⟨hid, hct, hlevel⟩
  · obtain ⟨l, hl, hsel, rfl⟩ := mem_matchingLevels.mp hlevel
    refine .inr ⟨o.row, l, ?_, hl, hsel, rfl, hallowed⟩
    obtain ⟨hct, hid, hown⟩ : given.ownerCt = (owner.resolve w).1 ∧
        given.ownerId = (owner.resolve w).2.1 ∧ given.owner = (owner.resolve w).2.2 := by
      rw [← howner]
      exact ⟨rfl, rfl, rfl⟩
    have hgeneric := resolve_generic (hown ▸ hread) (Level.selects_mem hsel)
    rw [← hct, ← hid] at hgeneric
    exact hgeneric

theorem Dated.granted_now (user : User) (r : RoleRow) (actor : Option User)
    (level : Option String) (scope : Option Obj) {validFrom validUntil : Option Time}
    (hopens : ScopeAssignment.windowOpens validFrom validUntil) :
    w.Dated (ScopeAssignment.granted w user r actor level scope validFrom validUntil) where
  opens := hopens
  granted := Nat.le_refl _
  live _ := ⟨rfl, rfl, rfl⟩
  revoked h := by cases h

theorem Dated.moved {row row' : AssignmentRow} (h : w.Dated row)
    (htransition : Transition w actor row call row') : w.Dated row' := by
  cases htransition with
  | suspend hfrom => exact ⟨h.opens, h.granted, fun _ => h.live (by simp [hfrom]), nofun⟩
  | reactivate hfrom => exact ⟨h.opens, h.granted, fun _ => h.live (by simp [hfrom]), nofun⟩
  | revoke _ =>
    exact ⟨h.opens, h.granted, fun hlive => absurd rfl hlive,
      fun _ => ⟨w.now, rfl, h.granted, Nat.le_refl _⟩⟩

theorem Dated.later {a : AssignmentRow} (h : w.Dated a) {w' : World} (hnow : w.now ≤ w'.now) :
    w'.Dated a where
  opens := h.opens
  granted := h.granted.trans hnow
  live := h.live
  revoked hrevoked := by
    obtain ⟨at_, hat, hfrom, hto⟩ := h.revoked hrevoked
    exact ⟨at_, hat, hfrom, hto.trans hnow⟩

theorem WellFormed.write (hnames : (w.hierarchy.levels.map Level.name).Nodup)
    (h : w.WellFormed) (hwrite : Write actor w call t.toTableRows) : (w.save t).WellFormed where
  scopes a ha := by
    cases hwrite.assignment ha with
    | kept hold => exact h.scopes a hold
    | granted hlevel _ hnew =>
      exact grantLevel_shape hnames hlevel (by rw [hnew]; rfl) (by rw [hnew]; rfl)
        (by rw [hnew]; rfl)
    | moved hrow htransition =>
      have hscope := h.scopes _ hrow
      cases htransition <;> exact hscope
  dates a ha := by
    have hdated : w.Dated a := by
      cases hwrite.assignment ha with
      | kept hold => exact h.dates a hold
      | granted _ hopens hnew => exact hnew ▸ .granted_now _ _ _ _ _ hopens
      | moved hrow htransition => exact (h.dates _ hrow).moved htransition
    exact hdated.later (Nat.le_refl _)
  owners r hr := by
    cases hwrite.role hr with
    | kept hold => exact h.owners r hold
    | saved howner hv hnew => exact hnew ▸ validateOwner_shape howner hv _ _

theorem WellFormed.storedAsPk (h : w.WellFormed) : w.StoredAsPk := by
  intro a ha m i hct hid
  rcases h.scopes a ha with ⟨hnone, -⟩ | ⟨s, hs, -, -, -, -, l, -, hsel⟩
  · cases hnone.symm.trans hid
  · obtain ⟨hpk, hsct⟩ := isRow_iff.mp hs
    obtain rfl : i = s.pk := Option.some.inj (hid.symm.trans hpk)
    obtain rfl : m = s.model :=
      w.site.schema.contentType_injective (Option.some.inj (hct.symm.trans hsct))
    exact w.db.toPk_pk (Level.selects_mem hsel)

theorem WellFormed.readable (h : w.WellFormed) : w.Readable where
  scopes a ha := by
    rcases h.scopes a ha with ⟨-, hct, -⟩ | ⟨s, hs, -, -, -, -, l, -, hsel⟩
    · exact ⟨none, by rw [hct]; rfl⟩
    · exact ⟨some s, isRow_generic (Level.selects_mem hsel) hs⟩
  owners r hr hid := by
    rcases h.owners r hr with ⟨hnone, -⟩ | ⟨X, l, hX, -⟩
    · exact absurd hnone hid
    · have hread : (w.loadRole r).owner = .ok (some (.stored X)) := genericObj_stored.mpr hX
      exact ⟨some (.stored X), by rw [Role.ownerOrNone, hread, orNone_ok]⟩

section Filters

variable (hw : w.Readable) (hac : w.Grounded) (hdoc : w.hierarchy.Documented w.site.schema)
  (u : User) (at_ : Option Time) (permission : Option String)
include hw hac

theorem returns_fetch_collect {paths : Nat → Py (List (List String))}
    (hpaths : ∀ a, w.Effective u.pk (at_.getD w.now) a → w.Valid a → a.row.isRootScope = false →
      ∀ rank, rankOrNone w.hierarchy a = some rank → ∃ ps, paths rank = .ok ps) :
    ∃ q, (w.fetchEffective u (at_.getD w.now) >>= fun as =>
      (collect (term w.hierarchy permission paths) as .never).run w) = .ok q :=
  (fetch_collect_ok hpaths).mpr <| Filters.of_settles fun _ hy =>
    hw.settles (nodesEnd_of_acyclic hac.toAcyclic) (mem_fetched.mp hy).1

include hdoc

theorem returns_accessibleNodes {l : Level} (hl : l ∈ w.hierarchy.levels) {m : Model}
    (hm : l.model = some m) : (accessibleNodes u l.name at_ permission).Returns w := by
  obtain ⟨k, hk⟩ := List.mem_iff_getElem?.mp hl
  have hrun := run_accessibleNodes (w := w) u l.name at_ permission
  rw [Hierarchy.level_unique hdoc.names hl, Hierarchy.rank_of_getElem hdoc.names hk] at hrun
  simp only [hm] at hrun
  cases hactive : u.isActive with
  | false => exact ⟨⟨l, .never⟩, by simp [hrun, hactive]⟩
  | true =>
    cases hsuper : u.isSuperuser with
    | true => exact ⟨⟨l, .always⟩, by simp [hrun, hactive, hsuper]⟩
    | false =>
      obtain ⟨nodes, hnodes⟩ := (accessibleNodes_ok hactive hsuper hk hdoc.toRegular hm).mpr
        (show w.Filters u (at_.getD w.now) permission from .of_settles fun y hy =>
          hw.settles (nodesEnd_of_acyclic hac.toAcyclic) (mem_fetched.mp hy).1)
      refine ⟨nodes, ?_⟩
      rw [run_accessibleNodes] at hnodes ⊢
      exact hnodes

omit hdoc in
theorem returns_catalogueQ : (catalogueQ u at_ permission).Returns w := by
  cases permission with
  | none => exact .pure _
  | some p => exact .bind (returns_userPermissions hw hac u none at_) fun _ _ => .pure _

theorem returns_scopeFilterQ (m : Model) : (scopeFilterQ u m at_ permission).Returns w := by
  rw [Read.Returns, run_scopeFilterQ]
  cases u.isActive with
  | false => exact ⟨_, rfl⟩
  | true =>
    cases w.hierarchy.isNodeModel m with
    | true =>
      refine nodeFilterLoop_total (fun l hl => ?_) .never
      obtain ⟨hmem, hmodel⟩ := (w.hierarchy.mem_levelsForModel).mp hl
      exact returns_accessibleNodes hw hac hdoc u at_ permission hmem hmodel
    | false =>
      cases u.isSuperuser with
      | true => exact ⟨_, rfl⟩
      | false =>
        cases w.site.resources.isGlobal m with
        | true => exact returns_catalogueQ hw hac u at_ permission
        | false =>
          cases hpath : w.site.resources.anchorFor m with
          | none =>
            cases w.site.strictRegistration with
            | true => exact ⟨_, rfl⟩
            | false => exact returns_catalogueQ hw hac u at_ permission
          | some path =>
            obtain ⟨m', hrelated⟩ := Option.isSome_iff_exists.mp (hac.anchors m path hpath)
            obtain ⟨targets, htargets⟩ : ∃ targets,
                anchorTargetLevels w.hierarchy w.site.schema m path = .ok targets := by
              rw [anchorTargetLevels, Schema.lookupPath_related hrelated]
              exact ⟨_, rfl⟩
            obtain ⟨_, -, hmem⟩ := anchorTargetLevels_ok hdoc.names htargets
            simp only [Bool.not_true, Bool.false_eq_true, if_false, htargets, ok_bind]
            refine returns_fetch_collect hw hac u at_ permission fun a ha hvalid hroot rank hrank => ?_
            obtain ⟨s, rank', l, -, -, hrank', hl, hsel⟩ := ha.scopeNode hvalid hroot
            obtain rfl : rank = rank' := Option.some.inj (hrank.symm.trans hrank')
            obtain ⟨ps, hps, -⟩ := hdoc.anchorPaths path hmem hl (Level.selects_model hsel)
            exact ⟨ps, hps⟩

end Filters

/-- Every decision about stored roles gives an answer. -/
structure Decides (w : World) : Prop where
  userPermissions : ∀ u o at_, (userPermissions u o at_).Returns w
  hasPerm : ∀ u p o at_, (hasPerm u p o at_).Returns w
  userCovers : ∀ u o at_, (userCovers u o at_).Returns w
  accessSummary : ∀ u at_, (accessSummary u at_).Returns w
  accessibleNodes : ∀ u, ∀ l ∈ w.hierarchy.levels, l.model ≠ none → ∀ at_ permission,
    (accessibleNodes u l.name at_ permission).Returns w
  scopeFilterQ : ∀ u m at_ permission, (scopeFilterQ u m at_ permission).Returns w
  roleVisible : ∀ u, ∀ r ∈ w.tables.roles, ∀ at_, (roleVisible u (w.loadRole r) at_).Returns w
  canGrantPermission : ∀ u, ∀ r ∈ w.tables.roles, ∀ p at_,
    (canGrantPermission u (w.loadRole r) p at_).Returns w
  canManageRole : ∀ u, ∀ r ∈ w.tables.roles, ∀ at_, (canManageRole u (w.loadRole r) at_).Returns w
  canManageAssignment : ∀ u n at_, (canManageAssignment u n at_).Returns w
  canAssignRole : ∀ u role level n at_, (canAssignRole u role level n at_).Returns w

theorem WellFormed.decides (h : w.WellFormed) (hdoc : w.hierarchy.Documented w.site.schema)
    (hac : w.Grounded) : w.Decides where
  userPermissions := returns_userPermissions h.readable hac
  hasPerm := returns_hasPerm h.readable hac
  userCovers := returns_userCovers h.readable hac
  accessSummary := returns_accessSummary h.readable hac
  accessibleNodes u l hl hm at_ permission := by
    obtain ⟨m, hm⟩ := Option.ne_none_iff_exists'.mp hm
    exact returns_accessibleNodes h.readable hac hdoc u at_ permission hl hm
  scopeFilterQ u m at_ permission := returns_scopeFilterQ h.readable hac hdoc u at_ permission m
  roleVisible u _ hr := returns_roleVisible h.readable hac hr u
  canGrantPermission u _ hr := returns_canGrantPermission h.readable hac hr u
  canManageRole u _ hr := returns_canManageRole h.readable hac hr u
  canManageAssignment := returns_canManageAssignment h.readable hac
  canAssignRole := returns_canAssignRole h.readable hac

end World

namespace World

/-- A stored role or assignment refers to the row. -/
def Refers (w : World) (r : Row) : Prop :=
  (∃ a ∈ w.tables.assignments, w.isRow a.scopeCt a.scopeId r) ∨
    ∃ x ∈ w.tables.roles, w.db.generic x.ownerCt x.ownerId = .ok (some r)

/-- The host may add rows, move nodes and delete those nothing refers to; a node something
refers to stays one of its level. -/
def KeepsNodes (w : World) : SiteEvent → Prop
  | .host change => ∀ l ∈ w.hierarchy.levels, ∀ r, w.Refers r → l.selects w.db r →
      l.selects (change w.site.schema w.db) r
  | _ => True

def KeepsAlong : World → List SiteEvent → Prop
  | _, [] => True
  | w, e :: events => w.KeepsNodes e ∧ (w.step e).KeepsAlong events

theorem WellFormed.of_selects (h : w.WellFormed) {db : Database w.site.schema}
    (hkeeps : ∀ l ∈ w.hierarchy.levels, ∀ r, w.Refers r → l.selects w.db r → l.selects db r) :
    ({ w with db := db } : World).WellFormed where
  scopes a ha := by
    rcases h.scopes a ha with hroot | ⟨s, hs, hid, hct, name, hname, l, hl, hsel⟩
    · exact .inl hroot
    · have hmem : l ∈ w.hierarchy.levels := (w.hierarchy.level_mem hl).1
      exact .inr ⟨s, hs, hid, hct, name, hname, l, hl, hkeeps l hmem s (.inl ⟨a, ha, hs⟩) hsel⟩
  dates a ha := (h.dates a ha).later (Nat.le_refl _)
  owners r hr := by
    rcases h.owners r hr with hsystem | ⟨X, l, hX, hl, hsel, hrest⟩
    · exact .inl hsystem
    · have hsel' := hkeeps l hl X (.inr ⟨r, hr, hX⟩) hsel
      obtain ⟨-, hct, i, hi, hpk⟩ := w.db.generic_some hX
      refine .inr ⟨X, l, ?_, hl, hsel', hrest⟩
      have hm : w.site.schema.modelClass (w.site.schema.contentType X.model) = some X.model :=
        w.site.schema.modelClass_eq_some.mpr rfl
      have hmem : X ∈ db.rows := Level.selects_mem hsel'
      simp [Database.generic, hct, hi, hm, hpk, hmem]

theorem WellFormed.host {change : (sc : Schema) → Database sc → Database sc} (h : w.WellFormed)
    (hkeeps : w.KeepsNodes (.host change)) : (w.step (.host change)).WellFormed :=
  h.of_selects hkeeps

theorem WellFormed.tick (h : w.WellFormed) (elapsed : Time) :
    (w.step (.tick elapsed)).WellFormed where
  scopes := h.scopes
  dates a ha := (h.dates a ha).later (Nat.le_add_right _ _)
  owners := h.owners

theorem Dated.forget {a : AssignmentRow} (h : w.Dated a) (pk : Nat) : w.Dated (a.forget pk) where
  opens := h.opens
  granted := h.granted
  live hlive := by
    obtain ⟨hby, hat⟩ := h.live hlive
    exact ⟨by simp [AssignmentRow.forget, hby], hat⟩
  revoked := h.revoked

theorem WellFormed.users (h : w.WellFormed) (change : UserChange) :
    (w.save (change.apply w.tables)).WellFormed := by
  cases change with
  | add pk => exact ⟨h.scopes, fun a ha => (h.dates a ha).later le_rfl, h.owners⟩
  | delete pk =>
    rw [UserChange.apply, Tables.deleteUser]
    split
    · exact h
    · refine ⟨fun a' ha' => ?_, fun a' ha' => ?_, h.owners⟩
      · obtain ⟨a, ha, rfl⟩ := List.mem_map.mp ha'
        exact h.scopes a ha
      · obtain ⟨a, ha, rfl⟩ := List.mem_map.mp ha'
        exact ((h.dates a ha).forget pk).later le_rfl

theorem WellFormed.step (h : w.WellFormed) (hnames : (w.hierarchy.levels.map Level.name).Nodup)
    {e : SiteEvent} (he : w.KeepsNodes e) : (w.step e).WellFormed := by
  cases e with
  | tick elapsed => exact h.tick elapsed
  | host change => exact h.host he
  | users change => exact h.users change
  | call actor call rc =>
    have hkept := history_keeps (A := (· = .call actor call rc))
      (P := fun v => (v.hierarchy.levels.map Level.name).Nodup ∧ v.WellFormed)
      (fun _ h hwrite => ⟨h.1, h.2.write h.1 hwrite⟩) (fun elapsed h => ⟨h.1, h.2.tick elapsed⟩)
      (fun _ hhost => by cases hhost) (fun _ husers => by cases husers)
      (show ∀ e ∈ [SiteEvent.call actor call rc], e = .call actor call rc by simp) ⟨hnames, h⟩
    exact hkept.2

/-- After any history the rows are well formed, and while the host's parents go
round nowhere every decision can be made. -/
theorem history_decides (hdoc : w.hierarchy.Documented w.site.schema)
    (h : w.WellFormed) {events : List SiteEvent} (hevents : w.KeepsAlong events) :
    (w.history events).WellFormed ∧ ((w.history events).Grounded → (w.history events).Decides) := by
  induction events generalizing w with
  | nil => exact ⟨h, h.decides hdoc⟩
  | cons e events ih =>
    have hsite : (w.step e).site = w.site := by
      cases e with
      | tick | host | users => rfl
      | call actor call rc =>
        obtain ⟨t, ht⟩ : ∃ t, (call.by_ actor).after rc w = w.save t := Op.after_frame _
        rw [step, ht]
        rfl
    refine ih ?_ (h.step hdoc.names hevents.1) hevents.2
    rw [hierarchy, hsite]
    exact hdoc

end World

namespace Helpdesk

theorem wellFormed (t : Tables)
    (hscopes : ∀ a ∈ t.assignments, ∃ s ∈ db.rows, seeded.isRow a.scopeCt a.scopeId s ∧
      a.scopeId ≠ none ∧ a.scopeCt ≠ none ∧ (a.level.bind hierarchy.level).any (·.selects db s))
    (hdates : ∀ a ∈ t.assignments, ScopeAssignment.windowOpens a.validFrom a.validUntil ∧
      a.grantedAt ≤ 10 ∧ a.status = .active ∧ a.revokedBy = none ∧ a.revokedAt = none ∧
      a.reason = "")
    (howners : ∀ r ∈ t.roles, r.ownerId = none ∧ r.ownerCt = none ∧ r.ownerLevel = none ∨
      ∃ X ∈ db.rows, ∃ l ∈ hierarchy.levels, db.generic r.ownerCt r.ownerId = .ok (some X) ∧
        l.selects db X ∧ r.ownerLevel = some l.name ∧ l.name ∈ site.roleOwnerLevels) :
    (world db 10 t).WellFormed where
  scopes a ha := by
    obtain ⟨s, -, hs, hid, hct, hlevel⟩ := hscopes a ha
    obtain ⟨l, hl, hsel⟩ := (Option.any_eq_true _ _).mp hlevel
    obtain ⟨name, hname, hl⟩ := Option.bind_eq_some_iff.mp hl
    exact .inr ⟨s, hs, hid, hct, name, hname, l, hl, hsel⟩
  dates a ha := by
    obtain ⟨hopens, hgranted, hactive, hlive⟩ := hdates a ha
    exact ⟨hopens, hgranted, fun _ => hlive, fun hrevoked => by simp [hactive] at hrevoked⟩
  owners r hr := by
    rcases howners r hr with hsystem | ⟨X, -, l, hl, hX, hsel, hlevel, hallowed⟩
    · exact .inl hsystem
    · exact .inr ⟨X, l, hX, hl, hsel, hlevel, hallowed⟩

theorem staffed_wellFormed : staffed.WellFormed :=
  wellFormed staff (by decide) (by decide) (by decide)

def leave : List SiteEvent := [
  .call (some alice) (.suspend (some 2) "leave") quiet,
  .tick 1,
  .call (some alice) (.grant carol (staffed.loadRole { id := 1, name := "viewer" }) none
    (some (.stored frontend)) none none) quiet]

theorem staffed_decides : (staffed.history leave).Decides := by
  refine (World.history_decides (w := staffed) documented staffed_wellFormed
    (by simp [leave, World.KeepsAlong, World.KeepsNodes])).2 ?_
  have hinternal : ∀ e ∈ leave, e.Internal := by simp [leave, SiteEvent.Internal]
  obtain ⟨now, t, hframe⟩ := World.history_frame hinternal staffed
  rw [hframe]
  exact grounded db now t

end Helpdesk

end ScopedAccess
