import ScopedAccess.Conf

/-! Scope resolution (`engine.py`, SPEC §4): anchors, the walk up the hierarchy,
and which stored assignments still fit it. -/

namespace ScopedAccess

inductive Anchor
  | node (n : Attr)
  | everywhere
  | denied
  | unregistered

namespace World

variable (w : World)

def hierarchy : Hierarchy := w.site.hierarchy

def relatedObj (o : Obj) (name : String) : Option Obj :=
  ((o.edits.lookup { first := name }).getD (w.db.related o.row name)).map (⟨·, o.under name⟩)

def holds (o : Obj) (name : String) : Bool :=
  match w.site.schema.column o.model name with
  | some f => (w.relatedObj o f).isSome
  | none => w.db.plain o.row name

def getattr (name : String) : Attr → Option Attr
  | .plain => none
  | .object o =>
    match w.site.schema.relatedModel o.model name with
    | some m => ((w.relatedObj o name).filter (·.model = m)).map .object
    | none => if w.holds o name then some .plain else none

def followAttr (x : Attr) (path : List String) : Option Attr :=
  path.foldlM (fun x part => w.getattr part x) x

def resolveAnchor (o : Obj) : Anchor :=
  if w.hierarchy.isNodeModel o.model then .node o
  else if w.site.resources.isGlobal o.model then .everywhere
  else match w.site.resources.anchorFor o.model with
    | none => if w.site.strictRegistration then .unregistered else .everywhere
    | some path =>
      match w.followAttr o path.parts with
      | some n => .node n
      | none => .denied

def anchorOf : Option Obj → Anchor
  | none => .everywhere
  | some o => w.resolveAnchor o

def parent (r : Row) : Option Row :=
  (w.hierarchy.parentAccessorForModel r.model).bind (w.db.follow r ·.parts)

def parentAttr : Attr → Option Attr
  | .plain => none
  | .object o => (w.hierarchy.parentAccessorForModel o.model).bind (w.followAttr o ·.parts)

def anyAncestorFrom (parent : Attr → Option Attr) (p : Row → Bool) : Nat → Attr → Py Bool
  | 0, _ => .error .diverges
  | _ + 1, .plain => throwing .attributeError "object has no attribute 'pk'"
  | fuel + 1, .object o =>
    if p o.row then .ok true
    else match parent o with
      | none => .ok false
      | some x => anyAncestorFrom parent p fuel x

/-- The unsaved part of the walk is finite, and the stored one goes round or ends. -/
def walkFuel : Attr → Nat
  | .plain => 1
  | .object o => o.depth + 1 + Lib.Walk.enough w.db.rows

def anyAncestor (x : Attr) (p : Row → Bool) : Py Bool :=
  anyAncestorFrom w.parentAttr p (w.walkFuel x) x

/-- `str(node.pk) == str(id)` and the node's content type is `ct`. -/
def isRow (ct : Option Ct) (id : Option String) (r : Row) : Bool :=
  id = some r.pk && ct = some (w.site.schema.contentType r.model)

def sameNode (a : Assignment) (r : Row) : Bool := w.isRow a.row.scopeCt a.row.scopeId r

end World

def Assignment.scopeOrNone (a : Assignment) : Py (Option Row) := orNone a.scope

def Role.ownerOrNone (r : Role) : Py (Option Obj) := orNone r.owner

namespace World

variable (w : World)

def assignmentScopeIsValid (a : Assignment) : Py Bool :=
  if a.row.isRootScope then
    -- a root assignment that retains scope metadata fails closed
    if a.row.scopeCt.isSome then .ok false
    else .ok (a.row.level.all w.hierarchy.isRoot)
  else do
    let scope ← if a.row.scopeCt.isSome then a.scopeOrNone else .ok none
    match scope, a.row.level.bind w.hierarchy.level with
    | some s, some l => return !l.isRoot && l.model = some s.model && l.selects w.db s
    | _, _ => return false

/-- R2: custom roles only in the owner's subtree, never at root. -/
def roleAssignable (role : Role) (level : Option String) (node : Option Obj) : Py Bool :=
  if role.ownerId.isNone then .ok true
  else do
    if (← role.ownerOrNone).isNone then return false
    match node, level with
    | some n, some level =>
      match w.hierarchy.level level with
      | none => return false
      | some l =>
        if l.isRoot || l.model ≠ some n.model || !l.selects w.db n.row then return false
        w.anyAncestor n (w.isRow role.ownerCt role.ownerId)
    | _, _ => return false

def assignmentIsValid (a : Assignment) : Py Bool := do
  if !(← w.assignmentScopeIsValid a) then return false
  if a.role.ownerId.isNone then return true
  if (← a.role.ownerOrNone).isNone then return false
  w.roleAssignable a.role a.row.level ((← a.scopeOrNone).map Obj.stored)

/-- The rows of one principal that are effective at `at_`, with everything
`_fetch_effective` prefetches.  One reference that cannot be read fails them all. -/
def prefetch (a : AssignmentRow) : Py (Option Assignment) := do
  let scope ← w.db.generic a.scopeCt a.scopeId
  return (w.tables.role a.role).map fun r => ⟨a, w.loadRole r, .ok scope⟩

def fetchEffective (u : User) (at_ : Time) : Py (List Assignment) := do
  let rows := w.tables.assignments.filter fun a => a.user = u.pk && a.isEffective at_
  return (← rows.mapM w.prefetch).reduceOption

end World

end ScopedAccess
