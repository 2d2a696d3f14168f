import ScopedAccess.Drf.Discovery
import ScopedAccess.Drf.WriteGuard
import ScopedAccess.Integrity

/-! The endpoints of a scoped viewset (`drf/viewsets.py`, `drf/permissions.py`, `backends.py`):
the gate, the list, and the object of a detail route. -/

namespace ScopedAccess

namespace ScopedPermissionBackend

def hasPerm (user : User) (perm : String) (o : Option Obj) : Read Bool :=
  ScopedAccess.hasPerm user perm o none

end ScopedPermissionBackend

namespace Drf

open Lib (Acts)
open Lib.Acts (both either)
open Lib.Loop

variable {γ : Type}

/-- A permission class that is no `ScopedModelPermission`. -/
inductive Gate (γ : Type)
  | scopeObjectPermission
  | host (q : γ)

/-- What the host adds to a request: its own permission classes, and what Django's own backend
grants. -/
structure Host (γ : Type) where
  hasPermission : γ → Request → Read Bool
  hasObjectPermission : γ → Request → Obj → Read Bool
  granted : User → String → Bool

namespace Host

variable (H : Host γ)

def hasPerm (user : User) (perm : String) (o : Option Obj) : Read Bool := do
  if user.isActive && user.isSuperuser then return true
  -- `ModelBackend` grants nothing on an object
  if user.isActive && o.isNone && H.granted user perm then return true
  ScopedPermissionBackend.hasPerm user perm o

end Host

/-- `ScopeObjectPermission.has_object_permission` -/
def scopeObjectPermission (user : User) (o : Obj) : Read Bool := do
  if ← userCovers user o none then return true
  (throwing .permissionDenied "This object is outside your scope." : Py Bool)

structure Endpoints (γ : Type) (m : Type → Type) where
  getPermissions : m (List (Permission (Gate γ)))
  getQueryset : m QuerySet
  required : Model → m (List String)

section Checks

variable {m : Type → Type} [Monad m] [MonadLiftT Py m] (H : Host γ) (w : World)
  (optsOf : Model → Options) (request : Request) (view : Endpoints γ m)

def Permission.hasPermission : Permission (Gate γ) → m Bool
  | scopedModelPermission p => do
    let qs ← view.getQueryset
    let perms ← liftM (p.getRequiredPermissions request.method (optsOf qs.model))
    liftM ((perms.allM fun perm => H.hasPerm request.user perm none).run w)
  | other .scopeObjectPermission => return true
  | other (.host q) => liftM ((H.hasPermission q request).run w)
  | and op1 op2 => both (hasPermission op1) (hasPermission op2)
  | or op1 op2 => either (hasPermission op1) (hasPermission op2)
  | not op1 => return !(← hasPermission op1)
  | factory _ =>
    liftM (throwing .typeError "missing 1 required positional argument: 'view'" : Py Bool)

def Permission.hasObjectPermission (o : Obj) : Permission (Gate γ) → m Bool
  | scopedModelPermission p =>
    liftM ((p.hasObjectPermission optsOf request.user request.method o).run w)
  | other .scopeObjectPermission => liftM ((scopeObjectPermission request.user o).run w)
  | other (.host q) => liftM ((H.hasObjectPermission q request o).run w)
  | and op1 op2 => both (hasObjectPermission o op1) (hasObjectPermission o op2)
  | or op1 op2 =>
    either (both (op1.hasPermission H w optsOf request view) (hasObjectPermission o op1))
      (both (op2.hasPermission H w optsOf request view) (hasObjectPermission o op2))
  | not op1 => return !(← hasObjectPermission o op1)
  | factory _ =>
    liftM (throwing .typeError "missing 1 required positional argument: 'obj'" : Py Bool)

def grantedOr403 (granted : Bool) : Py PUnit :=
  if granted then .ok ⟨⟩
  else throwing .permissionDenied "You do not have permission to perform this action."

namespace Endpoints

def checkPermissions : m PUnit := do
  (← view.getPermissions).forM fun permission => do
    liftM (grantedOr403 (← permission.hasPermission H w optsOf request view))

def checkObjectPermissions (o : Obj) : m PUnit := do
  (← view.getPermissions).forM fun permission => do
    liftM (grantedOr403 (← permission.hasObjectPermission H w optsOf request view o))

/-- The object of a detail route, or nothing where it is not found. -/
def getObject (pk : Pk) : m (Option Row) := do
  let qs ← view.getQueryset
  match (qs.rows w.db).find? (·.pk = pk) with
  | none => return none
  | some r =>
    view.checkObjectPermissions H w optsOf request (.stored r)
    return some r

def list : m (List Row) := do
  view.checkPermissions H w optsOf request
  return (← view.getQueryset).rows w.db

def retrieve (pk : Pk) : m (Option Row) := do
  view.checkPermissions H w optsOf request
  view.getObject H w optsOf request pk

end Endpoints

end Checks

namespace ViewClass

variable (V : ViewClass (Gate γ)) (w : World)

def onView (depth : Nat) : Endpoints γ OnView where
  getPermissions :=
    match V.getPermissions with
    | some getPermissions => callGetPermissions getPermissions w.db (V.methods w depth)
    | none => return V.permissionClasses
  getQueryset := V.getQueryset w (V.methods w depth)
  required := V.requiredPermissions w.db (V.methods w depth)

def instance_ (request : Request) : View where
  request := some request
  action := V.actionFor request.method

def respond {α : Type} (depth : Nat) (request : Request) (endpoint : Endpoints γ OnView → OnView α) :
    Py α :=
  ((endpoint (V.onView w (depth + 2))).out (V.instance_ request)).1

def plainly (request : Request) : Endpoints γ Py where
  getPermissions :=
    let action := V.actionFor request.method
    match V.getPermissions with
    | some getPermissions => (getPermissions (some request) action).eval
        ((V.shown w (some request) action).map (·.rows w.db)) (V.asked (some request) action)
    | none => .ok V.permissionClasses
  getQueryset := V.shown w (some request) (V.actionFor request.method)
  required := V.asked (some request) (V.actionFor request.method)

end ViewClass

open Lib.Acts (Gives)

section Gives

variable {H : Host γ} {w : World} {optsOf : Model → Options} {request : Request}
  {P : View → Prop} {view : Endpoints γ OnView} {plain : Endpoints γ Py}

theorem Permission.hasPermission_gives (hqs : Gives P view.getQueryset plain.getQueryset)
    (permission : Permission (Gate γ)) :
    Gives P (permission.hasPermission H w optsOf request view)
      (permission.hasPermission H w optsOf request plain) := by
  induction permission with
  | scopedModelPermission p =>
    exact hqs.bind fun qs _ => (Gives.liftM _).bind fun perms _ => .liftM _
  | other q =>
    cases q with
    | scopeObjectPermission => exact .pure _
    | host q => exact .liftM _
  | and op1 op2 ih ih' => exact ih.both ih'
  | or op1 op2 ih ih' => exact ih.either ih'
  | not op1 ih => exact ih.bind fun _ _ => .pure _
  | factory f => exact .liftM _

theorem Permission.hasObjectPermission_gives (hqs : Gives P view.getQueryset plain.getQueryset)
    (o : Obj) (permission : Permission (Gate γ)) :
    Gives P (permission.hasObjectPermission H w optsOf request view o)
      (permission.hasObjectPermission H w optsOf request plain o) := by
  induction permission with
  | scopedModelPermission p => exact .liftM _
  | other q => cases q <;> exact .liftM _
  | and op1 op2 ih ih' => exact ih.both ih'
  | or op1 op2 ih ih' =>
    exact ((op1.hasPermission_gives hqs).both ih).either ((op2.hasPermission_gives hqs).both ih')
  | not op1 ih => exact ih.bind fun _ _ => .pure _
  | factory f => exact .liftM _

variable (hpermissions : Gives P view.getPermissions plain.getPermissions)
  (hqs : Gives P view.getQueryset plain.getQueryset)
include hpermissions hqs

theorem Endpoints.checkPermissions_gives :
    Gives P (view.checkPermissions H w optsOf request)
      (plain.checkPermissions H w optsOf request) :=
  hpermissions.bind fun _ _ => .forM fun permission _ =>
    (permission.hasPermission_gives hqs).bind fun _ _ => .liftM _

theorem Endpoints.checkObjectPermissions_gives (o : Obj) :
    Gives P (view.checkObjectPermissions H w optsOf request o)
      (plain.checkObjectPermissions H w optsOf request o) :=
  hpermissions.bind fun _ _ => .forM fun permission _ =>
    (permission.hasObjectPermission_gives hqs o).bind fun _ _ => .liftM _

theorem Endpoints.getObject_gives (pk : Pk) :
    Gives P (view.getObject H w optsOf request pk) (plain.getObject H w optsOf request pk) := by
  refine hqs.bind fun qs _ => ?_
  cases (qs.rows w.db).find? (·.pk = pk) with
  | none => exact .pure _
  | some r => exact (checkObjectPermissions_gives hpermissions hqs _).bind fun _ _ => .pure _

theorem Endpoints.list_gives :
    Gives P (view.list H w optsOf request) (plain.list H w optsOf request) :=
  (checkPermissions_gives hpermissions hqs).bind fun _ _ => hqs.bind fun _ _ => .pure _

theorem Endpoints.retrieve_gives (pk : Pk) :
    Gives P (view.retrieve H w optsOf request pk) (plain.retrieve H w optsOf request pk) :=
  (checkPermissions_gives hpermissions hqs).bind fun _ _ => getObject_gives hpermissions hqs pk

end Gives

section Respond

variable {V : ViewClass (Gate γ)} {H : Host γ} {w : World} {request : Request} {depth : Nat}

theorem onView_gives {known : String → Py (List (Permission (Gate γ)))} :
    Gives (Serving V known false (some request)) (V.onView w (depth + 2)).getPermissions
        (V.plainly w request).getPermissions ∧
      Gives (Serving V known false (some request)) (V.onView w (depth + 2)).getQueryset
        (V.plainly w request).getQueryset ∧
      ∀ m, Gives (Serving V known false (some request)) ((V.onView w (depth + 2)).required m)
        ((V.plainly w request).required m) := by
  refine ⟨?_, getQueryset_gives, requiredPermissions_gives⟩
  rw [ViewClass.onView, ViewClass.plainly]
  cases V.getPermissions with
  | none => exact .pure _
  | some getPermissions =>
    have hqs : Gives (Serving V known false (some request)) (V.methods w (depth + 2)).getQueryset _ :=
      getQueryset_gives
    have hlabels : ∀ m, Gives (Serving V known false (some request))
        ((V.methods w (depth + 2)).required m) _ := requiredPermissions_gives
    exact callGetPermissions_gives w.db hqs hlabels getPermissions

theorem respond_eq {α : Type} {endpoint : Endpoints γ OnView → OnView α} {r : Py α}
    (h : Gives (Serving V (fun method => V.discovered (some request) (V.actionFor method)) false
      (some request)) (endpoint (V.onView w (depth + 2))) r) :
    V.respond w depth request endpoint = r :=
  (h _ ⟨rfl, rfl, rfl, fun _ hr => Option.some.inj hr ▸ rfl, fun _ hmemo => by cases hmemo⟩).1

theorem respond_list : V.respond w depth request (·.list H w V.optsOf request) =
    (V.plainly w request).list H w V.optsOf request :=
  respond_eq (Endpoints.list_gives onView_gives.1 onView_gives.2.1)

theorem respond_retrieve (pk : Pk) :
    V.respond w depth request (·.retrieve H w V.optsOf request pk) =
      (V.plainly w request).retrieve H w V.optsOf request pk :=
  respond_eq (Endpoints.retrieve_gives onView_gives.1 onView_gives.2.1 pk)

end Respond

end Drf

end ScopedAccess
