import ScopedAccess.Engine.Decision

/-! Collection filtering (`engine.py`, SPEC §4.3): the query a list view runs,
as a disjunction of key tests along fixed relation paths. -/

namespace ScopedAccess

open Read (ask effectiveAssignments isValid)

inductive Q
  /-- `Q(pk__in=[])` -/
  | never
  /-- `Q()` -/
  | always
  /-- `Q(**{f"{path}__pk": value})` -/
  | pk (path : List String) (value : Option String)
  /-- `Q(pk__in=level.queryset().filter(q).values("pk"))` -/
  | inNodes (level : Level) (q : Q)
  | or (q q' : Q)

namespace Q

variable {sc : Schema}

def holds (db : Database sc) (r : Row) : Q → Bool
  | never => false
  | always => true
  | pk path value =>
    match db.lookup r path, value with
    | some s, some id => sc.toPk s.model id = .ok s.pk
    | _, _ => false
  | inNodes level q => level.selects db r && q.holds db r
  | or q q' => q.holds db r || q'.holds db r

/-- What building the query for a model checks: each path exists, and each key
converts to the key type at its end. -/
def compile (sc : Schema) (m : Model) : Q → Py Unit
  | never => .ok ()
  | always => .ok ()
  | pk path value =>
    match sc.lookupPath m path with
    | none => throwing .fieldError "Cannot resolve keyword into field."
    | some m' =>
      match value with
      | none => throwing .valueError "Cannot use None as a query value"
      | some id =>
        match sc.toPk m' id with
        | .error e => .error (.raised e)
        | .ok _ => .ok ()
  | inNodes _ _ => .ok ()
  | or q q' => do
    q.compile sc m
    q'.compile sc m

end Q

/-- ORM path climbing from one rank up to another; `item` counts the joined
accessors. -/
def upPathFrom (h : Hierarchy) (toRank : Nat) : Nat → Nat → Py (List String)
  | 0, _ => .ok []
  | r + 1, item =>
    if r + 1 ≤ toRank then .ok []
    else match h.levels[r + 1]?.bind Level.parent with
      | none => throwing .typeError s!"sequence item {item}: expected str instance, NoneType found"
      | some accessor => do
        let rest ← upPathFrom h toRank r (item + 1)
        return accessor.parts ++ rest

def upPath (h : Hierarchy) (fromRank toRank : Nat) : Py (List String) :=
  upPathFrom h toRank fromRank 0

def rankOrNone (h : Hierarchy) (a : Assignment) : Option Nat := a.row.level.bind h.rank

def carries (permission : Option String) (a : Assignment) : Bool :=
  permission.all (· ∈ rolePerms a.role)

/-- What one round of a filter loop does with its assignment. -/
inductive Term
  /-- `continue` -/
  | nothing
  /-- `return` -/
  | everything
  | below (paths : List (List String))

def term (h : Hierarchy) (permission : Option String)
    (paths : Nat → Py (List (List String))) (a : Assignment) : Read Term := do
  if !(← isValid a) then return .nothing
  if !carries permission a then return .nothing
  if a.row.isRootScope then return .everything
  match rankOrNone h a with
  | none => return .nothing
  | some rank => return .below (← paths rank)

def collect (term : Assignment → Read Term) : List Assignment → Q → Read Q
  | [], q => return q
  | a :: as, q => do
    match ← term a with
    | .nothing => collect term as q
    | .everything => return .always
    | .below paths =>
      collect term as (paths.foldl (fun q path => q.or (.pk path a.row.scopeId)) q)

/-- A filtered `level.queryset()`. -/
structure NodeQuery where
  level : Level
  q : Q

def NodeQuery.selects {sc : Schema} (nodes : NodeQuery) (db : Database sc) (r : Row) : Bool :=
  nodes.level.selects db r && nodes.q.holds db r

def nodePaths (h : Hierarchy) (targetRank rank : Nat) : Py (List (List String)) :=
  -- deeper assignments contribute nothing (no upward coverage)
  if rank > targetRank then .ok []
  else if rank = targetRank then .ok [[]]
  else do return [← upPath h targetRank rank]

def accessibleNodes (u : User) (levelName : String) (at_ : Option Time)
    (permission : Option String) : Read NodeQuery := do
  let h := (← ask).hierarchy
  match h.level levelName, h.rank levelName with
  | some level, some targetRank =>
    match level.model with
    | none =>
      liftM (throwing .attributeError "'NoneType' object has no attribute '_default_manager'"
        : Py NodeQuery)
    | some m =>
      if !u.isActive then return ⟨level, .never⟩
      if u.isSuperuser then return ⟨level, .always⟩
      let as ← effectiveAssignments u at_
      let q ← collect (term h permission (nodePaths h targetRank)) as .never
      q.compile (← ask).site.schema m
      return ⟨level, q⟩
  | _, _ => liftM (throwing .keyError levelName : Py NodeQuery)

def anchorTargetLevels (h : Hierarchy) (sc : Schema) (m : Model) (path : Accessor) :
    Py (List (Nat × Level)) :=
  match sc.lookupPath m path.parts with
  | none => throwing .fieldError "the model has no such relation"
  | some m' => .ok <| (h.levelsForModel m').filterMap fun l => (h.rank l.name).map (·, l)

def nodeFilterLoop (u : User) (at_ : Option Time) (permission : Option String) :
    List Level → Q → Read Q
  | [], q => return q
  | level :: levels, q => do
    let nodes ← accessibleNodes u level.name at_ permission
    nodeFilterLoop u at_ permission levels (q.or (.inNodes nodes.level nodes.q))

def hierarchyNodeFilterQ (u : User) (m : Model) (at_ : Option Time)
    (permission : Option String) : Read (Option Q) := do
  let levels := (← ask).hierarchy.levelsForModel m
  if levels.isEmpty then return none
  return some (← nodeFilterLoop u at_ permission levels .never)

def joinPath (anchor : Accessor) (up : List String) : List String :=
  if up = [""] then anchor.parts else anchor.parts ++ up

def anchorPaths (h : Hierarchy) (anchor : Accessor) (targets : List (Nat × Level))
    (rank : Nat) : Py (List (List String)) :=
  (targets.filter fun target => ¬ target.1 < rank).mapM fun target => do
    return joinPath anchor (← upPath h target.1 rank)

def catalogueQ (u : User) (at_ : Option Time) : Option String → Read Q
  | none => return .always
  | some permission => do
    return if permission ∈ (← userPermissions u none at_) then .always else .never

/-- A permission held in one tenant is never combined with coverage in another. -/
def scopeFilterQ (u : User) (m : Model) (at_ : Option Time) (permission : Option String) :
    Read Q := do
  if !u.isActive then return .never
  match ← hierarchyNodeFilterQ u m at_ permission with
  | some q => return q
  | none =>
    if u.isSuperuser then return .always
    let w ← ask
    if w.site.resources.isGlobal m then catalogueQ u at_ permission
    else match w.site.resources.anchorFor m with
      | none =>
        if w.site.strictRegistration then return .never
        else catalogueQ u at_ permission
      | some anchor => do
        let targets ← anchorTargetLevels w.hierarchy w.site.schema m anchor
        let as ← effectiveAssignments u at_
        collect (term w.hierarchy permission (anchorPaths w.hierarchy anchor targets)) as .never

structure ResourceQuery where
  model : Model
  q : Q

def ResourceQuery.selects {sc : Schema} (rs : ResourceQuery) (db : Database sc) (r : Row) :
    Bool :=
  r.model = rs.model && r ∈ db.rows && db.shown r && rs.q.holds db r

def visibleResources (u : User) (m : Model) (at_ : Option Time) (permission : Option String) :
    Read ResourceQuery := do
  let q ← scopeFilterQ u m at_ permission
  q.compile (← ask).site.schema m
  return ⟨m, q⟩

end ScopedAccess
