import ScopedAccess.Drf.Endpoints
import ScopedAccess.Engine.Collection
import ScopedAccess.Engine.Returns

/-! The viewsets of the package (`drf/viewsets.py`): what a list shows and what a detail route
gives. -/

namespace ScopedAccess

open Lib.Loop

namespace World

variable {w : World} {m : Model}

/-- A model whose rows are resources: not nodes themselves, and anchored at nodes. -/
structure Resources (w : World) (m : Model) : Prop where
  notNode : w.hierarchy.isNodeModel m = false
  anchored : ∀ r path n, r.model = m → w.site.resources.anchorFor m = some path →
    w.db.follow r path.parts = some n → ∃ k, w.NodeAt k n

def decision (u : User) (permission : Option String) (o : Obj) : Read Bool :=
  match permission with
  | none => userCovers u o none
  | some p => hasPerm u p (some o) none

theorem run_hasPerm_now (u : User) (p : String) (o : Option Obj) :
    (hasPerm u p o none).run w = (hasPerm u p o (some w.now)).run w := by
  simp only [run_hasPerm, run_userPermissions, Option.getD_none, Option.getD_some]

theorem run_userCovers_now (u : User) (o : Obj) :
    (userCovers u o none).run w = (userCovers u o (some w.now)).run w := by
  simp only [run_userCovers, Option.getD_none, Option.getD_some]

theorem run_scopeFilterQ_now (hm : w.hierarchy.isNodeModel m = false) (u : User)
    (permission : Option String) :
    (scopeFilterQ u m none permission).run w = (scopeFilterQ u m (some w.now) permission).run w := by
  have hcatalogue : (catalogueQ u none permission).run w =
      (catalogueQ u (some w.now) permission).run w := by
    cases permission with
    | none => rfl
    | some p =>
      simp only [catalogueQ, Read.run_bind, run_userPermissions, Option.getD_none, Option.getD_some]
  simp only [run_scopeFilterQ, hm, hcatalogue, Option.getD_none, Option.getD_some, Bool.false_eq_true,
    if_false]

section Decision

variable (hdoc : w.hierarchy.Documented w.site.schema) (hf : w.Forest) (hw : w.WellFormed)
  (hac : w.Grounded) (hm : w.Resources m)
include hdoc hf hw hac hm

theorem scopeFilterQ_ordinary {u : User} (hactive : u.isActive) (hsuper : u.isSuperuser = false)
    (permission : Option String) : ∃ q, (scopeFilterQ u m none permission).run w = .ok q ∧
      q.compile w.site.schema m = .ok () ∧ ∀ r, r.model = m →
        (q.holds w.db r ↔ (decision u permission (.stored r)).run w = .ok true) := by
  have hst := hw.storedAsPk
  have htotal : ∃ q, (scopeFilterQ u m (some w.now) permission).run w = .ok q :=
    returns_scopeFilterQ hw.readable hac hdoc u (some w.now) permission m
  obtain ⟨q, hq⟩ := htotal
  have hadmits (r : Row) (hr : r.model = m) : q.compile w.site.schema m = .ok () ∧
      (q.holds w.db r ↔ w.Admits u w.now permission r) := by
    subst hr
    exact scopeFilterQ_admits hdoc hf hactive hsuper hm.notNode (hac.anchors r.model)
      (hm.anchored r · · rfl) hq
  refine ⟨q, (run_scopeFilterQ_now hm.notNode u permission).trans hq, (hadmits ⟨m, ""⟩ rfl).1,
    fun r hr => (hadmits r hr).2.trans ?_⟩
  cases permission with
  | none =>
    obtain ⟨b, hb⟩ := returns_userCovers hw.readable hac u (.stored r) (some w.now)
    rw [← userCovers_admits hst hactive hsuper hb, decision, run_userCovers_now, hb, Except.ok.injEq]
  | some p =>
    obtain ⟨b, hb⟩ := returns_hasPerm hw.readable hac u p (some (.stored r)) (some w.now)
    rw [← hasPerm_admits hst hactive hsuper hb, decision, run_hasPerm_now, hb, Except.ok.injEq]

theorem scopeFilterQ_decides (u : User) (permission : Option String) :
    ∃ q, (scopeFilterQ u m none permission).run w = .ok q ∧
      q.compile w.site.schema m = .ok () ∧ ∀ r, r.model = m →
        (q.holds w.db r ↔ (decision u permission (.stored r)).run w = .ok true) := by
  by_cases hactive : u.isActive
  · by_cases hsuper : u.isSuperuser
    · refine ⟨.always, ?_, rfl, fun r _ => ?_⟩
      · simp [run_scopeFilterQ, hactive, hsuper, hm.notNode]
      · cases permission with
        | none => simp [decision, run_userCovers, hactive, hsuper, Q.holds]
        | some p => simp [decision, run_hasPerm, hactive, hsuper, Q.holds]
    · exact scopeFilterQ_ordinary hdoc hf hw hac hm hactive (by simpa using hsuper) permission
  · refine ⟨.never, ?_, rfl, fun r _ => ?_⟩
    · simp [run_scopeFilterQ, hactive]
    · cases permission with
      | none => simp [decision, run_userCovers, hactive, Q.holds]
      | some p => simp [decision, run_hasPerm, hactive, Q.holds]

omit hdoc hf hm in
theorem hasPerm_object {u : User} {p : String} {o : Obj}
    (h : (hasPerm u p (some o) none).run w = .ok true) :
    (hasPerm u p none none).run w = .ok true ∧ (userCovers u o none).run w = .ok true := by
  by_cases hordinary : u.isActive ∧ u.isSuperuser = false
  · obtain ⟨hactive, hsuper⟩ := hordinary
    obtain ⟨a, ha, hvalid, hreach, hp⟩ := (hasPerm_iff hactive hsuper h).mp rfl
    constructor
    · obtain ⟨b, hb⟩ := returns_hasPerm hw.readable hac u p none none
      rw [hb, (hasPerm_iff hactive hsuper hb).mpr ⟨a, ha, hvalid, trivial, hp⟩]
    · obtain ⟨b, hb⟩ := returns_userCovers hw.readable hac u o none
      rw [hb, (userCovers_iff hactive hsuper hb).mpr (.inr ⟨a, ha, hvalid, hreach⟩)]
  · have hactive : u.isActive := by
      by_contra hactive
      rw [run_hasPerm, if_pos (by simpa using hactive)] at h
      cases h
    have hsuper : u.isSuperuser := by
      by_contra hsuper
      exact hordinary ⟨hactive, by simpa using hsuper⟩
    simp [run_hasPerm, run_userCovers, hactive, hsuper]

end Decision

end World

namespace Drf

open World (decision)

variable {γ : Type}

/-- A `ScopedModelViewSet` or `ScopedReadOnlyModelViewSet` of a host, perhaps with a `perms_map`
of its own and with further permission classes. -/
structure ViewSet (γ : Type) where
  modelPermission : ScopedModelPermission := .stock
  others : List γ := []
  queryset : QuerySet
  optsOf : Model → Options
  scopeFilterAllActions : Bool := false

namespace ViewSet

variable (S : ViewSet γ)

def permissionClasses : List (Factory (Gate γ)) :=
  .scopedModelPermission S.modelPermission :: .other .scopeObjectPermission ::
    S.others.map fun q => .other (.host q)

def permissions : List (Permission (Gate γ)) := S.permissionClasses.map Factory.call

def asView (actions : String → Option String) : ViewClass (Gate γ) where
  permissionClasses := S.permissionClasses.map .factory
  getPermissions := some fun _ _ => .done (.ok S.permissions)
  queryset _ _ := .ok S.queryset
  scopeFilterAllActions := S.scopeFilterAllActions
  actionFor := actions
  optsOf := S.optsOf
  isScopeObjectPermission
    | .scopeObjectPermission => true
    | .host _ => false

def required (method : String) : Py (List String) :=
  S.modelPermission.getRequiredPermissions method (S.optsOf S.queryset.model)

variable {S} {w : World} {H : Host γ} {request : Request} {actions : String → Option String}
  {action : Option String}

theorem extendRequired_others (method : String) (opts : Options) (qs : List γ) :
    extendRequired method opts
      ((qs.map fun q => Factory.other (Gate.host q)).map Factory.call) = .ok [] := by
  induction qs with
  | nil => rfl
  | cons q qs ih =>
    simp only [List.map_cons, Factory.call, extendRequired, scopedPermissionLeaves,
      ok_bind, List.mapM_nil, pure_py]
    rw [ih]
    rfl

theorem asked_asView (m : Model) : (S.asView actions).asked (some request) action m =
    (S.modelPermission.getRequiredPermissions request.method (S.optsOf m)).map List.eraseDups := by
  have hextend : extendRequired request.method (S.optsOf m) S.permissions =
      S.modelPermission.getRequiredPermissions request.method (S.optsOf m) := by
    simp only [permissions, permissionClasses, List.map_cons, Factory.call,
      extendRequired, scopedPermissionLeaves, ok_bind, List.mapM_cons, List.mapM_nil,
      extendRequired_others, pure_py]
    cases S.modelPermission.getRequiredPermissions request.method (S.optsOf m) with
    | error e => rfl
    | ok perms => simp
  change (extendRequired request.method (S.optsOf m) S.permissions >>= fun required =>
    .ok required.eraseDups) = _
  rw [hextend]
  cases S.modelPermission.getRequiredPermissions request.method (S.optsOf m) <;> rfl

theorem refusePolicy_asView : (S.asView actions).refusePolicy (some request) action = .ok () := by
  have hcontent : (S.asView actions).protects
      (.factory (.scopedModelPermission S.modelPermission) : Permission (Gate γ)) = .ok true := by
    simp only [ViewClass.protects, scopedPermissionLeaves, Factory.call, ok_bind]
    rfl
  rw [ViewClass.refusePolicy]
  split
  · rfl
  · change (((.factory (.scopedModelPermission S.modelPermission) :: _) : List (Permission (Gate γ))).anyM
      (S.asView actions).protects >>= fun _ => .ok ()) = _
    rw [anyM_cons_ok hcontent]
    rfl

theorem shown_asView : (S.asView actions).shown w (some request) action =
    if S.scopeFilterAllActions || action = some "list" then
      S.required request.method >>= fun perms =>
        ViewClass.filtered w (some request) S.queryset perms.eraseDups
    else .ok S.queryset := by
  change ((S.asView actions).refusePolicy (some request) action >>= fun _ =>
    if !(S.scopeFilterAllActions || action = some "list") then .ok S.queryset
    else (S.asView actions).asked (some request) action S.queryset.model >>= fun perms =>
      ViewClass.filtered w (some request) S.queryset perms) = _
  rw [refusePolicy_asView, asked_asView, ok_bind]
  cases S.scopeFilterAllActions || decide (action = some "list") with
  | false => rfl
  | true =>
    simp only [required, Bool.not_true, Bool.false_eq_true, if_false, if_true]
    cases S.modelPermission.getRequiredPermissions request.method (S.optsOf S.queryset.model) <;>
      rfl

theorem allowed_iff {user : User} {perms : List String} {o : Obj} :
    (allowed user perms o).run w = .ok true ↔
      ∀ permission ∈ (if perms.eraseDups.isEmpty then [none] else perms.eraseDups.map some),
        (decision user permission o).run w = .ok true := by
  have hempty : perms.eraseDups.isEmpty = perms.isEmpty := by
    cases perms with
    | nil => rfl
    | cons p perms => simp [List.eraseDups_cons]
  rw [allowed, hempty]
  split
  · simp [decision]
  · rw [Read.run_allM, allM_eq_true]
    simp [decision]

section Served

variable (hdoc : w.hierarchy.Documented w.site.schema) (hf : w.Forest) (hw : w.WellFormed)
  (hac : w.Grounded) (hm : w.Resources S.queryset.model)
include hdoc hf hw hac hm

theorem filtered_decides (perms : List String) : ∃ qs,
    ViewClass.filtered w (some request) S.queryset perms.eraseDups = .ok qs ∧
      qs.model = S.queryset.model ∧ ∀ r, r ∈ qs.rows w.db ↔ r ∈ S.queryset.rows w.db ∧
        (allowed request.user perms (.stored r)).run w = .ok true := by
  have hdecides := World.scopeFilterQ_decides hdoc hf hw hac hm request.user
  let asked := if perms.eraseDups.isEmpty then [none] else perms.eraseDups.map some
  have htotal : ∃ filters, asked.mapM (fun permission =>
      (scopeFilterQ request.user S.queryset.model none permission).run w) = .ok filters :=
    mapM_total fun permission _ => (hdecides permission).imp fun _ h => h.1
  obtain ⟨filters, hfilters⟩ := htotal
  -- each condition of the list, and the check it stands for
  have hfilter {q : Q} : q ∈ filters ↔ ∃ permission ∈ asked,
      (scopeFilterQ request.user S.queryset.model none permission).run w = .ok q :=
    mem_of_mapM hfilters
  have hcompile : filters.forM (·.compile w.site.schema S.queryset.model) = .ok () := by
    refine forM_eq_ok.mpr fun q hq => ?_
    obtain ⟨permission, -, hrun⟩ := hfilter.mp hq
    obtain ⟨q', hrun', hok, -⟩ := hdecides permission
    obtain rfl := Except.ok.inj (hrun.symm.trans hrun')
    exact hok
  refine ⟨{ S.queryset with filters := S.queryset.filters ++ filters }, ?_, rfl, fun r => ?_⟩
  · change (asked.mapM _ >>= fun filters => filters.forM _ >>= fun _ => _) = _
    rw [hfilters, ok_bind, hcompile]
    rfl
  · have hholds (hr : r.model = S.queryset.model) : filters.all (·.holds w.db r) ↔
        (allowed request.user perms (.stored r)).run w = .ok true := by
      rw [allowed_iff, List.all_eq_true]
      constructor
      · intro hall permission hpermission
        obtain ⟨q, hrun, -, hiff⟩ := hdecides permission
        exact (hiff r hr).mp (hall q (hfilter.mpr ⟨permission, hpermission, hrun⟩))
      · intro hall q hq
        obtain ⟨permission, hpermission, hrun⟩ := hfilter.mp hq
        obtain ⟨q', hrun', -, hiff⟩ := hdecides permission
        obtain rfl := Except.ok.inj (hrun.symm.trans hrun')
        exact (hiff r hr).mpr (hall permission hpermission)
    simp only [QuerySet.rows, List.mem_filter, List.all_append, Bool.and_eq_true, decide_eq_true_eq]
    constructor
    · rintro ⟨hmem, ⟨hmodel, hkeeps⟩, hbase, hall⟩
      exact ⟨⟨hmem, ⟨hmodel, hkeeps⟩, hbase⟩, (hholds hmodel).mp hall⟩
    · rintro ⟨⟨hmem, ⟨hmodel, hkeeps⟩, hbase⟩, hallowed⟩
      exact ⟨hmem, ⟨hmodel, hkeeps⟩, hbase, (hholds hmodel).mpr hallowed⟩

end Served

theorem grantedOr403_eq {x : Py Bool} :
    (x >>= fun granted => grantedOr403 granted) = .ok () ↔ x = .ok true := by
  cases x with
  | error e => simp
  | ok granted => cases granted <;> simp [grantedOr403, throwing]

variable (S) in
theorem forall_permissions {P : Permission (Gate γ) → Prop} : (∀ p ∈ S.permissions, P p) ↔
    P (.scopedModelPermission S.modelPermission) ∧ P (.other .scopeObjectPermission) ∧
      ∀ q ∈ S.others, P (.other (.host q)) := by
  simp [permissions, permissionClasses, Factory.call]

theorem checkPermissions_iff :
    ((S.asView actions).plainly w request).checkPermissions H w S.optsOf request = .ok () ↔
      (∃ qs, (S.asView actions).shown w (some request) (actions request.method) = .ok qs ∧
        ∃ perms, S.modelPermission.getRequiredPermissions request.method (S.optsOf qs.model) =
          .ok perms ∧ ∀ p ∈ perms, (H.hasPerm request.user p none).run w = .ok true) ∧
      ∀ q ∈ S.others, (H.hasPermission q request).run w = .ok true := by
  change (S.permissions.forM fun permission => permission.hasPermission H w S.optsOf request
    ((S.asView actions).plainly w request) >>= fun granted => grantedOr403 granted) = .ok () ↔ _
  rw [forM_eq_ok]
  simp only [grantedOr403_eq]
  rw [forall_permissions]
  refine and_congr ?_ ?_
  · change ((S.asView actions).shown w (some request) (actions request.method) >>= fun qs =>
      S.modelPermission.getRequiredPermissions request.method (S.optsOf qs.model) >>= fun perms =>
        (perms.allM fun p => H.hasPerm request.user p none).run w) = .ok true ↔ _
    simp only [bind_eq_ok, Read.run_allM, allM_eq_true]
  · exact ⟨fun h => h.2, fun h => ⟨rfl, h⟩⟩

theorem checkObjectPermissions_iff {o : Obj} :
    ((S.asView actions).plainly w request).checkObjectPermissions H w S.optsOf request o =
        .ok () ↔
      (∃ perms, S.modelPermission.getRequiredPermissions request.method (S.optsOf o.model) =
        .ok perms ∧ ∀ p ∈ perms, (hasPerm request.user p (some o) none).run w = .ok true) ∧
      (userCovers request.user o none).run w = .ok true ∧
      ∀ q ∈ S.others, (H.hasObjectPermission q request o).run w = .ok true := by
  change (S.permissions.forM fun permission => permission.hasObjectPermission H w S.optsOf request
    ((S.asView actions).plainly w request) o >>= fun granted => grantedOr403 granted) = .ok () ↔ _
  rw [forM_eq_ok]
  simp only [grantedOr403_eq]
  rw [forall_permissions]
  refine and_congr hasObjectPermission_true (and_congr ?_ Iff.rfl)
  change (scopeObjectPermission request.user o).run w = .ok true ↔ _
  rw [scopeObjectPermission, Read.run_bind]
  cases (userCovers request.user o none).run w with
  | error e => simp
  | ok covered => cases covered <;> simp [throwing]

theorem Host.hasPerm_of {user : User} {p : String}
    (h : (ScopedAccess.hasPerm user p none none).run w = .ok true) :
    (H.hasPerm user p none).run w = .ok true := by
  simp only [Host.hasPerm, ScopedPermissionBackend.hasPerm, Read.run_ite, h]
  split
  · rfl
  · split <;> rfl

variable (S H w request) in
/-- Who is served the row: who passes the gates of the host, and the scoped check of the row. -/
def Serves (r : Row) : Prop :=
  r ∈ S.queryset.rows w.db ∧ ∃ perms, S.required request.method = .ok perms ∧
    (allowed request.user perms (.stored r)).run w = .ok true ∧
    ∀ q ∈ S.others, (H.hasPermission q request).run w = .ok true

section Served

variable (hdoc : w.hierarchy.Documented w.site.schema) (hf : w.Forest) (hw : w.WellFormed)
  (hac : w.Grounded) (hm : w.Resources S.queryset.model)
include hw hac

omit hm in
theorem allowed_served {user : User} {perms : List String} {o : Obj} :
    (allowed user perms o).run w = .ok true ↔
      (∀ p ∈ perms, (hasPerm user p (some o) none).run w = .ok true) ∧
        (userCovers user o none).run w = .ok true := by
  rw [allowed]
  cases perms with
  | nil => simp
  | cons p perms =>
    rw [if_neg (by simp), Read.run_allM, allM_eq_true]
    refine ⟨fun h => ⟨h, ?_⟩, fun h => h.1⟩
    exact (World.hasPerm_object hw hac (h p List.mem_cons_self)).2

theorem gate_opens {perms : List String} {r : Row}
    (h : (allowed request.user perms (.stored r)).run w = .ok true) :
    ∀ p ∈ perms, (H.hasPerm request.user p none).run w = .ok true := fun p hp =>
  Host.hasPerm_of (World.hasPerm_object hw hac (((allowed_served hw hac).mp h).1 p hp)).1

include hdoc hf hm

variable (actions action) in
theorem shown_decides {perms : List String} (hperms : S.required request.method = .ok perms) :
    ∃ qs, (S.asView actions).shown w (some request) action = .ok qs ∧
      qs.model = S.queryset.model ∧ ∀ r, (r ∈ qs.rows w.db ↔ r ∈ S.queryset.rows w.db ∧
        (S.scopeFilterAllActions || action = some "list" →
          (allowed request.user perms (.stored r)).run w = .ok true)) := by
  rw [shown_asView, hperms, ok_bind]
  cases S.scopeFilterAllActions || decide (action = some "list") with
  | false => exact ⟨S.queryset, rfl, rfl, fun r => by simp⟩
  | true =>
    obtain ⟨qs, hqs, hmodel, hrows⟩ := filtered_decides hdoc hf hw hac hm perms
    exact ⟨qs, hqs, hmodel, fun r => by simp [hrows r]⟩

end Served

theorem filtered_model {qs qs' : QuerySet} {perms : List String}
    (h : ViewClass.filtered w (some request) qs perms = .ok qs') : qs'.model = qs.model := by
  obtain ⟨filters, -, h⟩ := bind_eq_ok.mp h
  obtain ⟨-, -, h⟩ := bind_eq_ok.mp h
  obtain rfl := pure_eq_ok.mp h
  rfl

theorem shown_model {qs : QuerySet}
    (h : (S.asView actions).shown w (some request) action = .ok qs) :
    qs.model = S.queryset.model := by
  rw [shown_asView] at h
  split at h
  · obtain ⟨asked, -, h⟩ := bind_eq_ok.mp h
    exact filtered_model h
  · rw [Except.ok.inj h]

theorem required_of_check
    (h : ((S.asView actions).plainly w request).checkPermissions H w S.optsOf request = .ok ()) :
    (∃ perms, S.required request.method = .ok perms) ∧
      ∀ q ∈ S.others, (H.hasPermission q request).run w = .ok true := by
  obtain ⟨⟨qs, hqs, perms, hperms, -⟩, hothers⟩ := checkPermissions_iff.mp h
  rw [shown_model hqs] at hperms
  exact ⟨⟨perms, hperms⟩, hothers⟩

theorem getObject_some {pk : Pk} {r : Row}
    (h : ((S.asView actions).plainly w request).getObject H w S.optsOf request pk =
      .ok (some r)) :
    (∃ qs, (S.asView actions).shown w (some request) (actions request.method) = .ok qs ∧
      r ∈ qs.rows w.db ∧ r.pk = pk) ∧
    (∃ perms, S.required request.method = .ok perms ∧
      ∀ p ∈ perms, (hasPerm request.user p (some (.stored r)) none).run w = .ok true) ∧
    (userCovers request.user (.stored r) none).run w = .ok true ∧
    ∀ q ∈ S.others, (H.hasObjectPermission q request (.stored r)).run w = .ok true := by
  obtain ⟨qs, hqs, h⟩ := bind_eq_ok.mp h
  cases hfind : (qs.rows w.db).find? (·.pk = pk) with
  | none => simp [hfind] at h
  | some r' =>
    simp only [hfind] at h
    obtain ⟨⟨⟩, hobject, h⟩ := bind_eq_ok.mp h
    obtain rfl : r' = r := Option.some.inj (pure_eq_ok.mp h)
    have hr := List.mem_of_find?_eq_some hfind
    obtain ⟨⟨perms, hperms, hheld⟩, hrest⟩ := checkObjectPermissions_iff.mp hobject
    rw [show (Obj.stored r').model = S.queryset.model from
      (QuerySet.model_of_mem hr).trans (shown_model hqs)] at hperms
    exact ⟨⟨qs, hqs, hr, by simpa using List.find?_some hfind⟩, ⟨perms, hperms, hheld⟩, hrest⟩

section Respond

variable (hdoc : w.hierarchy.Documented w.site.schema) (hf : w.Forest) (hw : w.WellFormed)
  (hac : w.Grounded) (hm : w.Resources S.queryset.model)
include hdoc hf hw hac hm

variable (actions) in
theorem check_of_serves {r : Row} (h : S.Serves w H request r) :
    ((S.asView actions).plainly w request).checkPermissions H w S.optsOf request = .ok () := by
  obtain ⟨-, perms, hperms, hallowed, hothers⟩ := h
  obtain ⟨qs, hqs, hmodel, -⟩ :=
    shown_decides actions (actions request.method) hdoc hf hw hac hm hperms
  exact checkPermissions_iff.mpr
    ⟨⟨qs, hqs, perms, hmodel.symm ▸ hperms, gate_opens hw hac hallowed⟩, hothers⟩

theorem list_iff (haction : actions request.method = some "list") {r : Row} :
    (∃ L, ((S.asView actions).plainly w request).list H w S.optsOf request = .ok L ∧ r ∈ L) ↔
      S.Serves w H request r := by
  constructor
  · rintro ⟨L, hL, hr⟩
    obtain ⟨⟨⟩, hcheck, hL⟩ := bind_eq_ok.mp hL
    obtain ⟨qs, hqs, hL⟩ := bind_eq_ok.mp hL
    obtain rfl := pure_eq_ok.mp hL
    obtain ⟨⟨perms, hperms⟩, hothers⟩ := required_of_check hcheck
    obtain ⟨qs', hqs', -, hrows⟩ :=
      shown_decides actions (actions request.method) hdoc hf hw hac hm hperms
    obtain rfl := Except.ok.inj (hqs.symm.trans hqs')
    obtain ⟨hbase, hallowed⟩ := (hrows r).mp hr
    exact ⟨hbase, perms, hperms, hallowed (by simp [haction]), hothers⟩
  · intro h
    obtain ⟨hbase, perms, hperms, hallowed, hothers⟩ := h
    obtain ⟨qs, hqs, -, hrows⟩ :=
      shown_decides actions (actions request.method) hdoc hf hw hac hm hperms
    refine ⟨qs.rows w.db, ?_, (hrows r).mpr ⟨hbase, fun _ => hallowed⟩⟩
    have hcheck := check_of_serves actions hdoc hf hw hac hm
      ⟨hbase, perms, hperms, hallowed, hothers⟩
    exact bind_eq_ok.mpr ⟨_, hcheck, bind_eq_ok.mpr ⟨qs, hqs, rfl⟩⟩

theorem retrieve_iff {pk : Pk} {r : Row} :
    ((S.asView actions).plainly w request).retrieve H w S.optsOf request pk = .ok (some r) ↔
      r.pk = pk ∧ S.Serves w H request r ∧
        ∀ q ∈ S.others, (H.hasObjectPermission q request (.stored r)).run w = .ok true := by
  constructor
  · intro h
    obtain ⟨⟨⟩, hcheck, h⟩ := bind_eq_ok.mp h
    obtain ⟨-, hothers⟩ := required_of_check hcheck
    obtain ⟨⟨qs, hqs, hr, hpk⟩, ⟨perms, hperms, hheld⟩, hcovers, hgates⟩ := getObject_some h
    obtain ⟨qs', hqs', -, hrows⟩ :=
      shown_decides actions (actions request.method) hdoc hf hw hac hm hperms
    obtain rfl := Except.ok.inj (hqs.symm.trans hqs')
    have hallowed := (allowed_served hw hac).mpr ⟨hheld, hcovers⟩
    exact ⟨hpk, ⟨((hrows r).mp hr).1, perms, hperms, hallowed, hothers⟩, hgates⟩
  · rintro ⟨rfl, h, hgates⟩
    have hcheck := check_of_serves actions hdoc hf hw hac hm h
    obtain ⟨hbase, perms, hperms, hallowed, -⟩ := h
    obtain ⟨qs, hqs, hmodel, hrows⟩ :=
      shown_decides actions (actions request.method) hdoc hf hw hac hm hperms
    have hr : r ∈ qs.rows w.db := (hrows r).mpr ⟨hbase, fun _ => hallowed⟩
    have hfind := QuerySet.find_pk hr
    have hobject : ((S.asView actions).plainly w request).checkObjectPermissions H w S.optsOf
        request (.stored r) = .ok () := by
      obtain ⟨hheld, hcovers⟩ := (allowed_served hw hac).mp hallowed
      refine checkObjectPermissions_iff.mpr ⟨⟨perms, ?_, hheld⟩, hcovers, hgates⟩
      rw [show (Obj.stored r).model = S.queryset.model from QuerySet.model_of_mem hbase]
      exact hperms
    refine bind_eq_ok.mpr ⟨⟨⟩, hcheck, bind_eq_ok.mpr ⟨qs, hqs, ?_⟩⟩
    simp only [hfind]
    exact bind_eq_ok.mpr ⟨⟨⟩, hobject, rfl⟩

end Respond

/-- A list shows a row exactly to those whom a detail route would give it, were it not for object
checks of the host; and both serve exactly those who pass the host's gates and are allowed the
row. -/
theorem list_agrees_with_detail (hdoc : w.hierarchy.Documented w.site.schema) (hf : w.Forest)
    (hw : w.WellFormed) (hac : w.Grounded) (hm : w.Resources S.queryset.model)
    (request : Request) (lists details : String → Option String)
    (hlists : lists request.method = some "list") (depth : Nat) (r : Row) :
    ((∃ L, (S.asView lists).respond w depth request (·.list H w S.optsOf request) = .ok L ∧
        r ∈ L) ↔ S.Serves w H request r) ∧
    ∀ pk, ((S.asView details).respond w depth request (·.retrieve H w S.optsOf request pk) =
        .ok (some r) ↔ r.pk = pk ∧ S.Serves w H request r ∧
          ∀ q ∈ S.others, (H.hasObjectPermission q request (.stored r)).run w = .ok true) := by
  constructor
  · rw [show (S.asView lists).respond w depth request (·.list H w S.optsOf request) = _ from
      respond_list]
    exact list_iff hdoc hf hw hac hm hlists
  · intro pk
    rw [show (S.asView details).respond w depth request (·.retrieve H w S.optsOf request pk) = _
      from respond_retrieve pk]
    exact retrieve_iff hdoc hf hw hac hm

end ViewSet

namespace Queue

open Helpdesk

def tickets : ViewSet Unit where
  queryset := { model := ticket, keeps := fun _ => true }
  optsOf := optsOf

def plainHost : Host Unit where
  hasPermission _ _ := return true
  hasObjectPermission _ _ _ := return true
  granted _ _ := false

theorem forest : staffed.Forest := ⟨Helpdesk.forest.level, Helpdesk.forest.parent⟩

theorem resources : staffed.Resources ticket where
  notNode := by decide
  anchored r path n hr hpath hn := by
    cases hpath
    have hmodel : n.model = team := by
      have h := db.follow_model hn
      rw [hr] at h
      exact Option.some.inj (h.symm.trans (by decide))
    have hmem : n ∈ db.rows := db.follow_mem (by decide) hn
    have hshown : db.shown n = true := rfl
    exact ⟨1, _, rfl, by simp [Level.selects, hmodel, hmem, hshown, staffed, world]⟩

theorem alice_served : (∃ L, (tickets.asView fun _ => some "list").respond staffed 0
      ⟨"GET", alice, ""⟩ (·.list plainHost staffed optsOf ⟨"GET", alice, ""⟩) = .ok L ∧ loginButton ∈ L) ∧
    (tickets.asView fun _ => some "retrieve").respond staffed 0 ⟨"GET", alice, ""⟩
      (·.retrieve plainHost staffed optsOf ⟨"GET", alice, ""⟩ "1") = .ok (some loginButton) := by
  have hserves : tickets.Serves staffed plainHost ⟨"GET", alice, ""⟩ loginButton :=
    ⟨by decide, ["helpdesk.view_ticket"], by decide, by decide, fun q hq => by cases hq⟩
  have hdoc : staffed.hierarchy.Documented staffed.site.schema := documented
  obtain ⟨hlist, hdetail⟩ := ViewSet.list_agrees_with_detail (S := tickets) (H := plainHost)
    hdoc forest staffed_wellFormed (grounded db 10 staff) resources ⟨"GET", alice, ""⟩ (fun _ => some "list")
    (fun _ => some "retrieve") rfl 0 loginButton
  exact ⟨hlist.mpr hserves, (hdetail "1").mpr ⟨rfl, hserves, fun q hq => by cases hq⟩⟩

end Queue

end Drf

end ScopedAccess
