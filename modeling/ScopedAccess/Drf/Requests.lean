import ScopedAccess.Drf.Judged
import ScopedAccess.Drf.Viewsets

namespace ScopedAccess

/-- `delete()`, where relations to the rows let them go (`SET_NULL`). -/
def Database.drop {sc : Schema} (db : Database sc) (gone : List Row) : Database sc where
  rows := db.rows.filter (· ∉ gone)
  related s f := if s ∈ gone then none else (db.related s f).filter (· ∉ gone)
  plain := db.plain
  shown := db.shown
  satisfies := db.satisfies
  related_model {s f t} h := by
    split at h
    · cases h
    · exact db.related_model (Option.filter_eq_some_iff.mp h).1
  related_mem {s f t} h := by
    split at h
    · cases h
    · obtain ⟨hrelated, ht⟩ := Option.filter_eq_some_iff.mp h
      exact List.mem_filter.mpr ⟨db.related_mem hrelated, ht⟩
  toPk_pk h := db.toPk_pk (List.mem_filter.mp h).1

namespace Drf

open Lib.Loop
open Lib.Acts (Gives)

variable {V γ : Type}

def ModelClass.load {w : World} (cls : ModelClass V w) (r : Row) :
    Option (Instance V w cls.label) :=
  if h : r ∈ w.db.rows ∧ r.model = cls.label then
    some {
      pk := some ⟨r.pk, h.2 ▸ w.db.toPk_pk h.1⟩
      related f := ⟨w.db.related r f,
        fun _ hs => ⟨h.2 ▸ w.db.related_model hs, w.db.related_mem hs⟩⟩ }
  else none

section Writes

variable {m : Type → Type} [Monad m] [MonadLiftT Py m] (H : Host γ) {w : World}
  (optsOf : Model → Options) (request : Request) (view : Endpoints γ m) (cls : ModelClass V w)

variable {cls} in
def Serializer.saved (s : Serializer cls) (new : cls.NewKey) : Py (Row × World) := do
  let saved ← s.save new
  return (ModelClass.row (saved.1.pk.getD new.key), saved.2)

namespace Endpoints

variable {cls} in
def performSave (s : Serializer cls) (new : cls.NewKey) : m (Row × World) := do
  let payload ← liftM (applyPayload s)
  let candidate := payload.2[payload.1]?.getD s.start
  let permissions ← view.required cls.label
  liftM ((assertTargetScope request.user permissions (candidate.obj cls)).run w)
  liftM (s.saved new)

variable (validatedData : Data V) (keys : (validatedData.map Prod.fst).Nodup) (new : cls.NewKey)

def create : m (Row × World) := do
  view.checkPermissions H w optsOf request
  view.performSave request ⟨[], none, validatedData, keys⟩ new

def update (pk : Pk) : m (Option (Row × World)) := do
  view.checkPermissions H w optsOf request
  match (← view.getObject H w optsOf request pk).bind cls.load with
  | none => return none
  | some x => return some (← view.performSave request ⟨[x], some 0, validatedData, keys⟩ new)

variable (w) in
def destroy (pk : Pk) : m (Option World) := do
  view.checkPermissions H w optsOf request
  match ← view.getObject H w optsOf request pk with
  | none => return none
  | some r => return some { w with db := w.db.drop [r] }

end Endpoints

end Writes

section Gives

variable {H : Host γ} {w : World} {optsOf : Model → Options} {request : Request}
  {P : View → Prop} {view : Endpoints γ OnView} {plain : Endpoints γ Py} {cls : ModelClass V w}
  (hpermissions : Gives P view.getPermissions plain.getPermissions)
  (hqs : Gives P view.getQueryset plain.getQueryset)
  (hrequired : ∀ m, Gives P (view.required m) (plain.required m))

namespace Endpoints

include hrequired in
theorem performSave_gives (s : Serializer cls) (new : cls.NewKey) :
    Gives P (view.performSave request s new) (plain.performSave request s new) :=
  (Gives.liftM _).bind fun _ _ => (hrequired _).bind fun _ _ =>
    (Gives.liftM _).bind fun _ _ => .liftM _

include hpermissions hqs

theorem destroy_gives (pk : Pk) :
    Gives P (view.destroy H w optsOf request pk) (plain.destroy H w optsOf request pk) := by
  refine (checkPermissions_gives hpermissions hqs).bind fun _ _ => ?_
  refine (getObject_gives hpermissions hqs pk).bind fun found _ => ?_
  cases found with
  | none => exact .pure _
  | some r => exact .pure _

include hrequired

variable (validatedData : Data V) (keys : (validatedData.map Prod.fst).Nodup) (new : cls.NewKey)

theorem create_gives : Gives P (view.create H optsOf request cls validatedData keys new)
    (plain.create H optsOf request cls validatedData keys new) :=
  (checkPermissions_gives hpermissions hqs).bind fun _ _ => performSave_gives hrequired _ new

theorem update_gives (pk : Pk) :
    Gives P (view.update H optsOf request cls validatedData keys new pk)
      (plain.update H optsOf request cls validatedData keys new pk) := by
  refine (checkPermissions_gives hpermissions hqs).bind fun _ _ => ?_
  refine (getObject_gives hpermissions hqs pk).bind fun found _ => ?_
  cases found.bind cls.load with
  | none => exact .pure _
  | some x => exact (performSave_gives hrequired _ new).bind fun _ _ => .pure _

end Endpoints

end Gives

/-- A model that a viewset serves, and the fields that its serializer writes. -/
structure Resource (V γ : Type) where
  viewSet : ViewSet γ
  host : Host γ
  cls : (w : World) → ModelClass V w
  fields : List Field
  writable : List String
  anchor : Field
  cls_label : ∀ w, (cls w).label = viewSet.queryset.model
  cls_fields : ∀ w, (cls w).fields = fields
  writable_nodup : writable.Nodup
  writable_field : ∀ n ∈ writable, ∃ f ∈ fields, n ∈ f.names ∧ f.kind ≠ .primaryKey
  writable_order : ¬ [anchor.attname, anchor.name].Sublist writable
  anchor_mem : anchor ∈ fields
  anchor_kind : anchor.kind = .foreignKey

/-- What a client calls; of a body, what the serializer makes of it. -/
inductive HttpCall (V : Type)
  | list
  | retrieve (pk : Pk)
  | create (body : String → Option (Written V))
  | update (pk : Pk) (body : String → Option (Written V))
  | partialUpdate (pk : Pk) (body : String → Option (Written V))
  | destroy (pk : Pk)

namespace HttpCall

def method : HttpCall V → String
  | list | retrieve _ => "GET"
  | create _ => "POST"
  | update .. => "PUT"
  | partialUpdate .. => "PATCH"
  | destroy _ => "DELETE"

def listRoute : String → Option String
  | "GET" | "HEAD" => some "list"
  | "POST" => some "create"
  | _ => none

def detailRoute : String → Option String
  | "GET" | "HEAD" => some "retrieve"
  | "PUT" => some "update"
  | "PATCH" => some "partial_update"
  | "DELETE" => some "destroy"
  | _ => none

def actions : HttpCall V → String → Option String
  | list | create _ => listRoute
  | retrieve _ | update .. | partialUpdate .. | destroy _ => detailRoute

end HttpCall

namespace Resource

variable (R : Resource V γ)

def model : Model := R.viewSet.queryset.model

def validatedData (body : String → Option (Written V)) : Data V :=
  R.writable.filterMap fun n => (body n).map (n, ·)

theorem validatedData_names (body : String → Option (Written V)) :
    ((R.validatedData body).map Prod.fst).Sublist R.writable := by
  unfold validatedData
  induction R.writable with
  | nil => exact .slnil
  | cons n names ih =>
    cases hn : body n with
    | none =>
      rw [List.filterMap_cons_none (by rw [hn]; rfl)]
      exact ih.cons n
    | some v =>
      rw [List.filterMap_cons_some (b := (n, v)) (by rw [hn]; rfl)]
      exact ih.cons_cons n

theorem validatedData_keys (body : String → Option (Written V)) :
    ((R.validatedData body).map Prod.fst).Nodup :=
  R.writable_nodup.sublist (R.validatedData_names body)

def serve (w : World) (user : User) (content : String) (new : (R.cls w).NewKey)
    (call : HttpCall V) : Py (List Row × World) :=
  let request : Request := ⟨call.method, user, content⟩
  let view := R.viewSet.asView call.actions
  let optsOf := R.viewSet.optsOf
  match call with
  | .list => do
    return (← view.respond w 0 request (·.list R.host w optsOf request), w)
  | .retrieve pk => do
    return ((← view.respond w 0 request (·.retrieve R.host w optsOf request pk)).toList, w)
  | .create body => do
    let stored ← view.respond w 0 request
      (·.create R.host optsOf request (R.cls w) _ (R.validatedData_keys body) new)
    return ([stored.1], stored.2)
  | .update pk body | .partialUpdate pk body => do
    let stored ← view.respond w 0 request
      (·.update R.host optsOf request (R.cls w) _ (R.validatedData_keys body) new pk)
    return stored.elim ([], w) fun stored => ([stored.1], stored.2)
  | .destroy pk => do
    let deleted ← view.respond w 0 request (·.destroy R.host w optsOf request pk)
    return ([], deleted.getD w)

end Resource

end Drf

end ScopedAccess
