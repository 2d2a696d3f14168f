import ScopedAccess.Drf.Policies
import ScopedAccess.Lib.Acts
import ScopedAccess.Lib.Memo

/-! A view while it serves a request (`drf/mixins.py`): what it discovers of its own permissions,
though `get_permissions()` may come back to it meanwhile, and what it keeps of that. -/

namespace ScopedAccess.Drf

open Lib (Acts Memo)
open Lib.Loop

variable {β : Type}

structure Request where
  method : String
  user : User
  content : String

/-- A queryset of the host, with the conditions it has been filtered by. -/
structure QuerySet where
  model : Model
  keeps : Row → Bool
  filters : List Q := []

namespace QuerySet

def none (qs : QuerySet) : QuerySet := { qs with filters := .never :: qs.filters }

def rows {sc : Schema} (qs : QuerySet) (db : Database sc) : List Row :=
  db.rows.filter fun r => r.model = qs.model && qs.keeps r && qs.filters.all (·.holds db r)

theorem model_of_mem {sc : Schema} {qs : QuerySet} {db : Database sc} {r : Row}
    (h : r ∈ qs.rows db) : r.model = qs.model := by
  simp only [rows, List.mem_filter, Bool.and_eq_true, decide_eq_true_eq] at h
  exact h.2.1.1

theorem find_pk {sc : Schema} {qs : QuerySet} {db : Database sc} {r : Row} (h : r ∈ qs.rows db) :
    (qs.rows db).find? (·.pk = r.pk) = some r := by
  have hfound : ((qs.rows db).find? (·.pk = r.pk)).isSome :=
    List.find?_isSome.mpr ⟨r, h, by simp⟩
  obtain ⟨s, hs⟩ := Option.isSome_iff_exists.mp hfound
  have hpk : s.pk = r.pk := by simpa using List.find?_some hs
  have hmodel : s.model = r.model :=
    (model_of_mem (List.mem_of_find?_eq_some hs)).trans (model_of_mem h).symm
  rw [hs, show s = r by cases s; cases r; simp_all]

@[simp] theorem rows_none {sc : Schema} (qs : QuerySet) (db : Database sc) : qs.none.rows db = [] := by
  simp [rows, none, Q.holds]

end QuerySet

/-- `get_permissions()` as a host writes it: what it asks of its own view, and what it returns. -/
inductive Hook (β : Type)
  | done (result : Py (List (Permission β)))
  | getQueryset (k : Py (List Row) → Hook β)
  | required (m : Model) (k : Py (List String) → Hook β)

structure ViewClass (β : Type) where
  permissionClasses : List (Permission β)
  getPermissions : Option (Option Request → Option String → Hook β)
  /-- `super().get_queryset()` -/
  queryset : Option Request → Option String → Py QuerySet
  scopeFilterAllActions : Bool := false
  actionFor : String → Option String
  takesCache : Bool := true
  optsOf : Model → Options
  isScopeObjectPermission : β → Bool

structure View where
  request : Option Request := none
  action : Option String := none
  /-- `_discovering_scoped_permissions` -/
  discovering : Bool := false
  /-- `_required_scoped_permissions_cache` -/
  cache : Option (Memo (String × Model) (List String)) := none
  warnings : Nat := 0

abbrev OnView (α : Type) : Type := Acts View Abort α

structure Methods where
  getQueryset : OnView QuerySet
  required : Model → OnView (List String)

def Hook.run {sc : Schema} (db : Database sc) (self : Methods) :
    Hook β → OnView (List (Permission β))
  | done result => liftM result
  | getQueryset k => do
    let qs ← self.getQueryset.attempt
    (k (qs.map (·.rows db))).run db self
  | required m k => do
    let labels ← (self.required m).attempt
    (k labels).run db self

namespace ViewClass

variable (V : ViewClass β)

def callGetPermissions (getPermissions : Option Request → Option String → Hook β) {sc : Schema}
    (db : Database sc) (self : Methods) : OnView (List (Permission β)) := do
  let request ← Acts.read View.request
  let action ← Acts.read View.action
  (getPermissions request action).run db self

def getViewPermissions {sc : Schema} (db : Database sc) (self : Methods) :
    OnView (List (Permission β)) := do
  if ← Acts.read View.discovering then return V.permissionClasses
  match V.getPermissions with
  | some getPermissions =>
    modify fun view => { view with discovering := true }
    (callGetPermissions getPermissions db self).thenRestore fun view =>
      { view with discovering := false }
  | none => return V.permissionClasses

def keepCache (cache : Memo (String × Model) (List String)) : OnView PUnit :=
  if V.takesCache then modify fun view => { view with cache := some cache } else pure ⟨⟩

def requiredPermissions {sc : Schema} (db : Database sc) (self : Methods) (m : Model) :
    OnView (List String) := do
  match ← Acts.read View.request with
  | none => return []
  | some request =>
    if ← Acts.read View.discovering then
      return ← (throwing .improperlyConfigured
        "Scoped permissions cannot be resolved during permission discovery." : Py (List String))
    let cache := (← Acts.read View.cache).getD Memo.empty
    V.keepCache cache
    match cache.lookup (request.method, m) with
    | some required => return required
    | none =>
      let permissions ← V.getViewPermissions db self
      let result ← requiredScopedPermissions permissions request.method (V.optsOf m)
      -- `cache` is the dictionary of the view, unless the view does not take one
      modify fun view => { view with cache := view.cache.map (·.insert (request.method, m) result) }
      return result

/-- Whether `_warn_if_detail_routes_are_unprotected` is content with a permission. -/
def protects (permission : Permission β) : Py Bool := do
  if !(← scopedPermissionLeaves permission).isEmpty then return true
  return match permission with
    | .other q | .factory (.other q) => V.isScopeObjectPermission q
    | _ => false

def warnIfDetailRoutesAreUnprotected {sc : Schema} (db : Database sc) (self : Methods) :
    OnView PUnit := do
  if V.scopeFilterAllActions then return
  let permissions := V.permissionClasses ++ (← V.getViewPermissions db self)
  if ← (permissions.anyM V.protects : Py Bool) then return
  modify fun view => { view with warnings := view.warnings + 1 }

def filtered (w : World) (request : Option Request) (qs : QuerySet) (permissions : List String) :
    Py QuerySet :=
  match request with
  | none => throwing .attributeError "'NoneType' object has no attribute 'user'"
  | some request => do
    let asked := if permissions.isEmpty then [none] else permissions.map some
    let filters ← asked.mapM fun permission =>
      (scopeFilterQ request.user qs.model none permission).run w
    filters.forM (·.compile w.site.schema qs.model)
    return { qs with filters := qs.filters ++ filters }

def getQueryset (w : World) (self : Methods) : OnView QuerySet := do
  let request ← Acts.read View.request
  let action ← Acts.read View.action
  if ← Acts.read View.discovering then
    return (← V.queryset request action).none
  V.warnIfDetailRoutesAreUnprotected w.db self
  let qs ← V.queryset request action
  if !(V.scopeFilterAllActions || action = some "list") then return qs
  let permissions ← V.requiredPermissions w.db self qs.model
  filtered w request qs permissions

/-- The methods as host code finds them, down to a depth of calls. -/
def methods (w : World) : Nat → Methods
  | 0 => ⟨throw .diverges, fun _ => throw .diverges⟩
  | depth + 1 =>
    ⟨V.getQueryset w (methods w depth), V.requiredPermissions w.db (methods w depth)⟩

end ViewClass

def Hook.eval (rows : Py (List Row)) (labels : Model → Py (List String)) :
    Hook β → Py (List (Permission β))
  | done result => result
  | getQueryset k => (k rows).eval rows labels
  | required m k => (k (labels m)).eval rows labels

def refused : Option Request → Py (List String)
  | none => .ok []
  | some _ => throwing .improperlyConfigured
    "Scoped permissions cannot be resolved during permission discovery."

namespace ViewClass

variable (V : ViewClass β) (w : World) (request : Option Request) (action : Option String)

/-- The permissions of the view: its hook sees no rows, and nothing of the permissions. -/
def discovered : Py (List (Permission β)) :=
  match V.getPermissions with
  | none => .ok V.permissionClasses
  | some getPermissions => (getPermissions request action).eval
      ((V.queryset request action).map fun _ => []) fun _ => refused request

def asked (m : Model) : Py (List String) :=
  match request with
  | none => .ok []
  | some r => do
    requiredScopedPermissions (← V.discovered request action) r.method (V.optsOf m)

def refusePolicy : Py Unit :=
  if V.scopeFilterAllActions then .ok ()
  else do
    let permissions := V.permissionClasses ++ (← V.discovered request action)
    let _ ← permissions.anyM V.protects

def shown : Py QuerySet := do
  V.refusePolicy request action
  let qs ← V.queryset request action
  if !(V.scopeFilterAllActions || action = some "list") then return qs
  filtered w request qs (← V.asked request action qs.model)

end ViewClass

/-- What is done with a view: it is given a request, or one of its methods is called. -/
inductive ViewCall
  | request (request : Request)
  | getQueryset
  | required (m : Model)
  | getPermissions

inductive Answer (β : Type)
  | nothing
  | rows (qs : Py QuerySet)
  | labels (required : Py (List String))
  | permissions (result : Py (List (Permission β)))

namespace ViewClass

variable (V : ViewClass β)

def actionOf (request : Option Request) : Option String :=
  request.bind fun request => V.actionFor request.method

def serve (depth : Nat) (w : World) (view : View) : ViewCall → Answer β × View
  | .request request =>
    (.nothing, { view with request := some request, action := V.actionFor request.method })
  | .getQueryset => ((V.getQueryset w (V.methods w depth)).out view).map .rows id
  | .required m => ((V.requiredPermissions w.db (V.methods w depth) m).out view).map .labels id
  | .getPermissions =>
    match V.getPermissions with
    | none => (.permissions (.ok V.permissionClasses), view)
    | some getPermissions =>
      ((callGetPermissions getPermissions w.db (V.methods w depth)).out view).map .permissions id

def serveAll (depth : Nat) : List (World × ViewCall) → View → List (Answer β)
  | [], _ => []
  | (w, call) :: calls, view =>
    (V.serve depth w view call).1 :: serveAll depth calls (V.serve depth w view call).2

def plain (w : World) (request : Option Request) : ViewCall → Answer β × Option Request
  | .request request => (.nothing, some request)
  | .getQueryset => (.rows (V.shown w request (V.actionOf request)), request)
  | .required m => (.labels (V.asked request (V.actionOf request) m), request)
  | .getPermissions =>
    match V.getPermissions with
    | none => (.permissions (.ok V.permissionClasses), request)
    | some getPermissions => (.permissions ((getPermissions request (V.actionOf request)).eval
        ((V.shown w request (V.actionOf request)).map (·.rows w.db))
        (V.asked request (V.actionOf request))), request)

def plainAll : List (World × ViewCall) → Option Request → List (Answer β)
  | [], _ => []
  | (w, call) :: calls, request =>
    (V.plain w request call).1 :: plainAll calls (V.plain w request call).2

/-- For requests of one method the view finds the same permissions. -/
def Steady (calls : List (World × ViewCall)) : Prop :=
  ∀ w r, (w, .request r) ∈ calls → ∀ w' r', (w', .request r') ∈ calls → r.method = r'.method →
    V.discovered (some r) (V.actionFor r.method) = V.discovered (some r') (V.actionFor r'.method)

end ViewClass

def askedFor (V : ViewClass β) (known : String → Py (List (Permission β)))
    (key : String × Model) : Py (List String) := do
  requiredScopedPermissions (← known key.1) key.1 (V.optsOf key.2)

/-- A view that serves a request of a method whose permissions are known, with a cache that
knows no others. -/
structure Serving (V : ViewClass β) (known : String → Py (List (Permission β)))
    (discovering : Bool) (request : Option Request) (view : View) : Prop where
  serves : view.request = request
  acts : view.action = V.actionOf request
  discovering : view.discovering = discovering
  knows : ∀ r ∈ request, V.discovered (some r) (V.actionFor r.method) = known r.method
  cache : ∀ memo ∈ view.cache, memo.Agrees (askedFor V known)

open Lib.Acts (Gives)

theorem Hook.run_gives {P : View → Prop} {sc : Schema} {db : Database sc} {self : Methods}
    {qs : Py QuerySet} {labels : Model → Py (List String)} (hqs : Gives P self.getQueryset qs)
    (hlabels : ∀ m, Gives P (self.required m) (labels m)) (hook : Hook β) :
    Gives P (hook.run db self) (hook.eval (qs.map (·.rows db)) labels) := by
  induction hook with
  | done result => exact .liftM result
  | getQueryset k ih => exact hqs.attempt.bind_ok (ih _)
  | required m k ih => exact (hlabels m).attempt.bind_ok (ih _)

section Serving

variable {V : ViewClass β} {known : String → Py (List (Permission β))} {request : Option Request}
  {w : World} {depth : Nat}

theorem callGetPermissions_gives {discovering : Bool} {sc : Schema} (db : Database sc)
    {self : Methods} {qs : Py QuerySet} {labels : Model → Py (List String)}
    (hqs : Gives (Serving V known discovering request) self.getQueryset qs)
    (hlabels : ∀ m, Gives (Serving V known discovering request) (self.required m) (labels m))
    (getPermissions : Option Request → Option String → Hook β) :
    Gives (Serving V known discovering request)
      (ViewClass.callGetPermissions getPermissions db self)
      ((getPermissions request (V.actionOf request)).eval (qs.map (·.rows db)) labels) :=
  .read (fun _ h => h.serves) (.read (fun _ h => h.acts) (Hook.run_gives hqs hlabels _))

theorem Serving.flag {discovering : Bool} {view : View}
    (h : Serving V known discovering request view) (discovering' : Bool) :
    Serving V known discovering' request { view with discovering := discovering' } :=
  ⟨h.serves, h.acts, rfl, h.knows, h.cache⟩

theorem getQueryset_discovering (self : Methods) : Gives (Serving V known true request)
    (V.getQueryset w self) ((V.queryset request (V.actionOf request)).map QuerySet.none) := by
  refine .read (fun _ h => h.serves) (.read (fun _ h => h.acts) ?_)
  refine .read (fun _ h => h.discovering) ?_
  rw [if_pos rfl]
  exact (Gives.liftM _).bind fun _ _ => .pure _

theorem requiredPermissions_discovering (self : Methods) (m : Model) :
    Gives (Serving V known true request) (V.requiredPermissions w.db self m) (refused request) := by
  refine .read (fun _ h => h.serves) ?_
  cases request with
  | none => exact .pure _
  | some request =>
    refine .read (fun _ h => h.discovering) ?_
    rw [if_pos rfl]
    exact .liftM _

theorem getViewPermissions_gives : Gives (Serving V known false request)
    (V.getViewPermissions w.db (V.methods w (depth + 1)))
    (V.discovered request (V.actionOf request)) := by
  refine .read (fun _ h => h.discovering) ?_
  rw [if_neg Bool.false_ne_true, ViewClass.discovered]
  cases V.getPermissions with
  | none => exact .pure _
  | some getPermissions =>
    refine .within (fun _ h => h.flag true) ?_ fun _ h => h.flag false
    have hrows : ((V.queryset request (V.actionOf request)).map QuerySet.none).map (·.rows w.db) =
        (V.queryset request (V.actionOf request)).map fun _ => [] := by
      cases V.queryset request (V.actionOf request) with
      | error e => rfl
      | ok qs => exact congrArg Except.ok (qs.rows_none w.db)
    exact hrows ▸ callGetPermissions_gives w.db (getQueryset_discovering _)
      (requiredPermissions_discovering _) getPermissions

theorem Serving.asked {discovering : Bool} {r : Request} {view : View}
    (h : Serving V known discovering (some r) view) (m : Model) :
    V.asked (some r) (V.actionFor r.method) m = askedFor V known (r.method, m) := by
  rw [ViewClass.asked, askedFor, h.knows r rfl]

theorem requiredPermissions_gives (m : Model) : Gives (Serving V known false request)
    (V.requiredPermissions w.db (V.methods w (depth + 1)) m)
    (V.asked request (V.actionOf request) m) := by
  refine .read (fun _ h => h.serves) ?_
  cases request with
  | none => exact .pure _
  | some r =>
    refine .read (fun _ h => h.discovering) ?_
    rw [if_neg Bool.false_ne_true]
    refine .inspect fun s hs => ?_
    have hagrees : (s.cache.getD Memo.empty).Agrees (askedFor V known) := by
      cases hcache : s.cache with
      | none => exact Memo.agrees_empty
      | some memo => exact hs.cache memo hcache
    have hkeep : Gives (Serving V known false (some r))
        (V.keepCache (s.cache.getD Memo.empty)) (.ok ⟨⟩) := by
      rw [ViewClass.keepCache]
      split
      · exact .change fun _ h => { h with cache := fun _ hmemo => Option.some.inj hmemo ▸ hagrees }
      · exact .pure _
    refine hkeep.bind_ok ?_
    cases hlookup : (s.cache.getD Memo.empty).lookup (r.method, m) with
    | some required =>
      have hasked : V.asked (some r) (V.actionFor r.method) m = .ok required :=
        (hs.asked m).trans (hagrees (r.method, m) required hlookup)
      rw [ViewClass.actionOf, Option.bind_some, hasked]
      exact .pure _
    | none =>
      refine getViewPermissions_gives.bind fun permissions hpermissions => ?_
      refine (Gives.liftM _).bind_keep fun required hrequired => ?_
      have hasked : askedFor V known (r.method, m) = .ok required :=
        (hs.asked m).symm.trans (bind_eq_ok.mpr ⟨permissions, hpermissions, hrequired⟩)
      refine Gives.bind_ok (.change fun _ h => { h with cache := fun memo' hmemo' => ?_ }) (.pure _)
      obtain ⟨memo, hmemo, rfl⟩ := Option.map_eq_some_iff.mp hmemo'
      exact (h.cache memo hmemo).insert hasked

theorem warn_gives : Gives (Serving V known false request)
    (V.warnIfDetailRoutesAreUnprotected w.db (V.methods w (depth + 1)))
    (V.refusePolicy request (V.actionOf request)) := by
  rw [ViewClass.warnIfDetailRoutesAreUnprotected, ViewClass.refusePolicy]
  refine .ite (fun _ => .pure _) fun _ => ?_
  refine getViewPermissions_gives.bind fun permissions _ => ?_
  refine (Gives.liftM _).bind fun content _ => ?_
  cases content with
  | true => exact .pure _
  | false => exact .change fun _ h => { h with }

theorem getQueryset_gives : Gives (Serving V known false request)
    (V.getQueryset w (V.methods w (depth + 1))) (V.shown w request (V.actionOf request)) := by
  refine .read (fun _ h => h.serves) (.read (fun _ h => h.acts) ?_)
  refine .read (fun _ h => h.discovering) ?_
  rw [if_neg Bool.false_ne_true, ViewClass.shown]
  refine warn_gives.bind fun _ _ => (Gives.liftM _).bind fun qs _ => ?_
  refine .ite (fun _ => .pure _) fun _ => ?_
  exact (requiredPermissions_gives qs.model).bind fun permissions _ => .liftM _

theorem serve_gives (w : World) (depth : Nat) (call : ViewCall) {view : View}
    (hcall : ∀ r, call = .request r →
      V.discovered (some r) (V.actionFor r.method) = known r.method)
    (h : Serving V known false request view) :
    (V.serve (depth + 2) w view call).1 = (V.plain w request call).1 ∧
      Serving V known false (V.plain w request call).2 (V.serve (depth + 2) w view call).2 := by
  cases call with
  | request r =>
    exact ⟨rfl, rfl, rfl, h.discovering, fun _ hr => Option.some.inj hr ▸ hcall r rfl, h.cache⟩
  | getQueryset =>
    obtain ⟨hout, hview⟩ := getQueryset_gives view h
    exact ⟨congrArg Answer.rows hout, hview⟩
  | required m =>
    obtain ⟨hout, hview⟩ := requiredPermissions_gives m view h
    exact ⟨congrArg Answer.labels hout, hview⟩
  | getPermissions =>
    rw [ViewClass.serve, ViewClass.plain]
    cases V.getPermissions with
    | none => exact ⟨rfl, h⟩
    | some getPermissions =>
      have hqs : Gives (Serving V known false request) (V.methods w (depth + 2)).getQueryset _ :=
        getQueryset_gives
      have hlabels : ∀ m, Gives (Serving V known false request)
          ((V.methods w (depth + 2)).required m) _ := requiredPermissions_gives
      have hcall := callGetPermissions_gives w.db hqs hlabels getPermissions view h
      exact ⟨congrArg Answer.permissions hcall.1, hcall.2⟩

theorem serveAll_eq (calls : List (World × ViewCall)) {view : View}
    (hcalls : ∀ w r, (w, .request r) ∈ calls →
      V.discovered (some r) (V.actionFor r.method) = known r.method)
    (h : Serving V known false request view) :
    V.serveAll (depth + 2) calls view = V.plainAll calls request := by
  induction calls generalizing request view with
  | nil => rfl
  | cons entry calls ih =>
    obtain ⟨w, call⟩ := entry
    obtain ⟨hanswer, hview⟩ := serve_gives w depth call
      (fun r hr => hcalls w r (hr ▸ List.mem_cons_self)) h
    rw [ViewClass.serveAll, ViewClass.plainAll, hanswer,
      ih (fun w r hr => hcalls w r (List.mem_cons_of_mem _ hr)) hview]

theorem ViewClass.Steady.exists_known {calls : List (World × ViewCall)} (h : V.Steady calls) :
    ∃ say : String → Py (List (Permission β)), ∀ w r, (w, .request r) ∈ calls →
      V.discovered (some r) (V.actionFor r.method) = say r.method := by
  have hmethod (method : String) : ∃ found : Py (List (Permission β)), ∀ w r,
      (w, .request r) ∈ calls → r.method = method →
        V.discovered (some r) (V.actionFor r.method) = found := by
    by_cases hfound : ∃ w r, (w, .request r) ∈ calls ∧ r.method = method
    · obtain ⟨w, r, hr, rfl⟩ := hfound
      exact ⟨_, fun w' r' hr' hmethod => h w' r' hr' w r hr hmethod⟩
    · exact ⟨.ok [], fun w r hr hmethod => absurd ⟨w, r, hr, hmethod⟩ hfound⟩
  choose say hsay using hmethod
  exact ⟨say, fun w r hr => hsay r.method w r hr rfl⟩

end Serving

/-- Flag and cache are not seen from outside: whatever is done with a view, and however
`get_permissions()` comes back to it, it answers as if its permissions were found anew each
time, and no call is nested deeper than twice. -/
theorem view_transparent (V : ViewClass β) (depth : Nat) (calls : List (World × ViewCall))
    (hsteady : V.Steady calls) : V.serveAll (depth + 2) calls {} = V.plainAll calls none := by
  obtain ⟨known, hknown⟩ := hsteady.exists_known
  exact serveAll_eq calls hknown ⟨rfl, rfl, rfl, by simp, by simp⟩

namespace Queue

open Helpdesk

def dynamic : ViewClass Unit where
  permissionClasses := []
  getPermissions := some fun _ _ => .getQueryset fun _ => .done (.ok [.scopedModelPermission .stock])
  queryset _ _ := .ok ⟨ticket, fun _ => true, []⟩
  actionFor _ := some "list"
  optsOf := optsOf
  isScopeObjectPermission _ := false

def twice : List (World × ViewCall) := [(seeded, .request ⟨"GET", alice, "?page=1"⟩),
  (seeded, .getQueryset), (seeded, .request ⟨"GET", bob, "?page=2"⟩), (seeded, .getQueryset)]

theorem dynamic_transparent : dynamic.serveAll 2 twice {} = dynamic.plainAll twice none :=
  view_transparent dynamic 0 twice fun _ _ _ _ _ _ _ => rfl

end Queue

end ScopedAccess.Drf
