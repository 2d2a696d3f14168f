import ScopedAccess.RoleCalls
import ScopedAccess.Lib.Memo

/-! The request cache (`cache.py`, SPEC §11): the store, the flag that bypasses
it, and a connection's cache blocks and atomic blocks. -/

namespace ScopedAccess

open Lib (Memo)

structure Store where
  assignments : Memo Nat (List Assignment) := Memo.empty
  valid : Memo Nat Bool := Memo.empty

def Store.drop (s : Store) : Invalidation → Store
  | .user pk => { s with assignments := s.assignments.erase pk }
  | .all => {}

structure Cache where
  store : Option Store := none
  dirty : Bool := false

namespace Cache

def getStore (inAtomic : Bool) (c : Cache) : Option Store × Cache :=
  if c.dirty then
    if inAtomic then (none, c)
    else
      let store := c.store.map fun _ => ({} : Store)
      (store, { store, dirty := false })
  else (c.store, c)

def invalidate (inAtomic : Bool) (c : Cache) (i : Invalidation) : Cache where
  store := c.store.map (·.drop i)
  dirty := c.dirty || inAtomic

end Cache

/-- What the store keeps of a principal: future grants too, so that the window
can be tested at each read. -/
def World.fetchActive (w : World) (u : Nat) : Py (List Assignment) := do
  let rows := w.tables.assignments.filter fun a => a.user = u && a.status = .active
  return (← rows.mapM w.prefetch).reduceOption

def Assignment.inWindow (now : Time) (a : Assignment) : Bool :=
  a.row.validFrom.all (· ≤ now) && a.row.validUntil.all (now < ·)

namespace Cache

def effectiveAssignments (inAtomic : Bool) (w : World) (u : User) (at_ : Option Time)
    (c : Cache) : Py (List Assignment) × Cache :=
  match at_ with
  | some t => (w.fetchEffective u t, c)
  | none =>
    match c.getStore inAtomic with
    | (none, c) => (w.fetchEffective u w.now, c)
    | (some store, c) =>
      let (found, memo) := store.assignments.read u.pk (w.fetchActive u.pk)
      (found.map (List.filter (·.inWindow w.now)),
        { c with store := some { store with assignments := memo } })

/-- `_assignment_is_valid` -/
def isValid (inAtomic : Bool) (w : World) (a : Assignment) (c : Cache) : Py Bool × Cache :=
  match c.getStore inAtomic with
  | (none, c) => (w.assignmentIsValid a, c)
  | (some store, c) =>
    let (valid, memo) := store.valid.read a.row.id (w.assignmentIsValid a)
    (valid, { c with store := some { store with valid := memo } })

end Cache

/-- A connection in a context: what it sees, the context variables, and the
hooks its transaction will run. -/
structure Conn where
  world : World
  cache : Cache := {}
  hooks : List Invalidation := []

def Op.cached {α : Type} (inAtomic : Bool) (receivers : Receivers) :
    Op α → Conn → Py α × Conn
  | .pure x, s => (.ok x, s)
  | .abort e, s => (.error e, s)
  | .world k, s => (k s.world).cached inAtomic receivers s
  | .effective u at_ k, s =>
    match s.cache.effectiveAssignments inAtomic s.world u at_ with
    | (.ok as, cache) => (k as).cached inAtomic receivers { s with cache }
    | (.error e, cache) => (.error e, { s with cache })
  | .valid a k, s =>
    match s.cache.isValid inAtomic s.world a with
    | (.ok b, cache) => (k b).cached inAtomic receivers { s with cache }
    | (.error e, cache) => (.error e, { s with cache })
  | .save t k, s => k.cached inAtomic receivers { s with world := s.world.save t }
  | .invalidate i k, s =>
    k.cached inAtomic receivers { s with cache := s.cache.invalidate inAtomic i }
  | .onCommit i k, s => k.cached inAtomic receivers { s with hooks := s.hooks ++ [i] }
  | .send sig k, s =>
    match receivers sig with
    | none => k.cached inAtomic receivers s
    | some e => (.error (.raised e), s)

inductive Query
  | userPermissions (u : User) (o : Option Obj)
  | hasPerm (u : User) (perm : String) (o : Option Obj)
  | userCovers (u : User) (o : Obj)
  | roleVisible (u : User) (role : Role)
  | canManageAssignment (actor : Option User) (node : Option Obj)
  | accessibleNodes (u : User) (level : String) (permission : Option String)
  | scopeFilterQ (u : User) (m : Model) (permission : Option String)

abbrev Query.Answer : Query → Type
  | .userPermissions _ _ => Finset String
  | .hasPerm _ _ _ | .userCovers _ _ | .roleVisible _ _ | .canManageAssignment _ _ => Bool
  | .accessibleNodes _ _ _ => NodeQuery
  | .scopeFilterQ _ _ _ => Q

def Query.program : (q : Query) → Read q.Answer
  | .userPermissions u o => ScopedAccess.userPermissions u o none
  | .hasPerm u perm o => ScopedAccess.hasPerm u perm o none
  | .userCovers u o => ScopedAccess.userCovers u o none
  | .roleVisible u role => ScopedAccess.roleVisible u role none
  | .canManageAssignment actor node => ScopedAccess.canManageAssignment actor node none
  | .accessibleNodes u level permission => ScopedAccess.accessibleNodes u level none permission
  | .scopeFilterQ u m permission => ScopedAccess.scopeFilterQ u m none permission

inductive Mutation
  | grant (user : User) (role : Role) (level : Option String) (scope : Option Obj)
      (validFrom validUntil : Option Time)
  | suspend (pk : Option Nat) (reason : String)
  | reactivate (pk : Option Nat) (reason : String)
  | revoke (pk : Option Nat) (reason : String)
  | roleCall (call : RoleCall)

def Mutation.by_ (actor : Option User) : Mutation → Op Unit
  | .grant user role level scope validFrom validUntil => do
    let _ ← ScopeAssignment.grant user role actor level scope validFrom validUntil
    return ()
  | .suspend pk reason => ScopeAssignment.suspend pk actor reason
  | .reactivate pk reason => ScopeAssignment.reactivate pk actor reason
  | .revoke pk reason => ScopeAssignment.revoke pk actor reason
  | .roleCall call => call.by_ actor

/-- An open block: an atomic block with what a rollback restores, or a cache
block with the flag it restores if it is not inside another. -/
inductive Frame
  | atomic (tables : Tables) (hooks : List Invalidation)
  | cache (outer : Option Bool)

structure Session extends Conn where
  frames : List Frame := []

inductive Event
  | enterCache
  | leaveCache
  | begin
  | commit
  | rollback
  | advance (now : Time)
  | read (q : Query)
  | call (actor : Option User) (mutation : Mutation) (receivers : Receivers)

namespace Session

def inAtomic (s : Session) : Bool := s.frames.any (· matches .atomic _ _)

def answer (s : Session) (q : Query) : Py q.Answer × Conn :=
  (Op.ofRead q.program).cached s.inAtomic quiet s.toConn

def begin (s : Session) : Session :=
  { s with frames := .atomic s.world.tables s.hooks :: s.frames }

def runHooks (s : Session) : Session :=
  { s with
    cache := s.hooks.foldl (·.invalidate false ·) s.cache
    hooks := [] }

def commit (s : Session) : Option Session :=
  match s.frames with
  | .atomic _ _ :: frames =>
    let s := { s with frames }
    some (if s.inAtomic then s else s.runHooks)
  | _ => none

def rollback (s : Session) : Option Session :=
  match s.frames with
  | .atomic tables hooks :: frames =>
    some { s with world := s.world.save tables, hooks, frames }
  | _ => none

def call (s : Session) (op : Op Unit) (receivers : Receivers) : Option Session :=
  match op.cached true receivers s.begin.toConn with
  | (.ok _, conn) => { s.begin with toConn := conn }.commit
  | (.error _, conn) => { s.begin with toConn := conn }.rollback

def step (s : Session) : Event → Option Session
  | .enterCache =>
    match s.cache.store with
    | some _ => some { s with frames := .cache none :: s.frames }
    | none => some { s with
        frames := .cache (some s.cache.dirty) :: s.frames
        cache := { store := some {} } }
  | .leaveCache =>
    match s.frames with
    | .cache none :: frames => some { s with frames }
    | .cache (some dirty) :: frames => some { s with frames, cache := { dirty } }
    | _ => none
  | .begin => some s.begin
  | .commit => s.commit
  | .rollback => s.rollback
  | .advance now => some { s with world := { s.world with now } }
  | .read q => some { s with toConn := (s.answer q).2 }
  | .call actor mutation receivers => s.call (mutation.by_ actor) receivers

def steps (s : Session) : List Event → Option Session
  | [] => some s
  | e :: es => (s.step e).bind (·.steps es)

end Session

end ScopedAccess
