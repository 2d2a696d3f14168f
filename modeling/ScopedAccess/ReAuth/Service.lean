import ScopedAccess.ReAuth.Store

/-! The ReAuth service (`reauth/service.py`, SPEC §7): minting, consuming and
invalidating tokens. -/

namespace ScopedAccess.ReAuth

open Lib.Shared (Prog)

def perform (o : Op) : M o.Res := Prog.perform (S := sig) o

namespace Cache

def get (key : String) : M (Option Value) := perform (.get key)
def set (key : String) (value : Value) (timeout : Option Time) : M Unit :=
  perform (.set key value timeout)
def add (key : String) (value : Value) (timeout : Option Time) : M Bool :=
  perform (.add key value timeout)
def delete (key : String) : M Bool := perform (.delete key)
def getdel (key : String) : M (Option Value) := perform (.getdel key)

end Cache

def now : M Time := perform .now
def tokenUrlsafe (nbytes : Nat) : M String := perform (.tokenUrlsafe nbytes)
def verify (verifier : String) (user : Nat) (credentials : Credentials) : M Bool :=
  perform (.verify verifier user credentials)
def send (notice : Notice) (user : Nat) : M Unit := perform (.send notice user)

def liftExn {α : Type} : Except Exn α → M α
  | .ok x => pure x
  | .error e => Prog.raise e

variable (cfg : Settings)

def generation (user : User) : M String := do
  let key := generationPrefix ++ str user.pk
  match ← Cache.get key with
  | some value => return value.str
  | none =>
    let candidate ← tokenUrlsafe 16
    if ← Cache.add key (.text candidate) none then return candidate
    else
      -- another worker initialized it; if that is gone too, what is returned matches no token
      match (← Cache.get key).filter Value.truthy with
      | some value => return value.str
      | none => tokenUrlsafe 16

def atOrNow : Option Time → M Time
  | some t => return t
  | none => now

def issue (user : User) (verifier : String) (at_ : Option Time) (credentials : Credentials) :
    M (Option String) := do
  if !user.isActive then
    send .failed user.pk
    return none
  else if !(← verify verifier user.pk credentials) then
    send .failed user.pk
    return none
  else
    let issuedAt ← atOrNow at_
    let token ← tokenUrlsafe 32
    let generation ← generation user
    let data : Payload :=
      { userId := str user.pk, generation := some generation, expires := issuedAt + cfg.ttl }
    -- the timeout is a physical backstop; the expiry is checked in consume
    Cache.set (tokenPrefix ++ token) (.payload data) (some (cfg.ttl * 2))
    send .issued user.pk
    return some token

def stillValid (value : Value) (user : User) (at_ : Option Time) : M Bool := do
  let data ← liftExn value.fields
  if data.userId ≠ str user.pk then return false
  else
    let now ← atOrNow at_
    if data.expires ≤ now then return false
    else return data.generation = some (← generation user)

def consumeInWindow (token : String) (value : Value) (user : User) (at_ : Option Time)
    (fresh : Bool) : M Bool := do
  -- validity first: an expired or invalidated token never marks itself used
  if !(← stillValid value user at_) then
    send .failed user.pk
    return false
  else
    let firstUse ← Cache.add (usedPrefix ++ token) .flag (some (cfg.ttl * 2))
    if fresh && !firstUse then
      send .failed user.pk
      return false
    else
      send .consumed user.pk
      return true

def atomicPop (key : String) (observed : Value) (token : String) (timeout : Time) :
    M (Option Value) := do
  if cfg.redis then Cache.getdel key
  else if !(← Cache.add (consumedPrefix ++ token) .flag (some timeout)) then return none
  else if !(← Cache.delete key) then return none
  else return some observed

def consume (token : Option String) (user : User) (at_ : Option Time) (fresh : Bool) :
    M Bool := do
  match token.filter (· ≠ "") with
  | none => return false
  | some token =>
    if !user.isActive then
      send .failed user.pk
      return false
    else
      let key := tokenPrefix ++ token
      match ← Cache.get key with
      | none =>
        send .failed user.pk
        return false
      | some value =>
        let data ← liftExn value.fields
        if data.userId ≠ str user.pk then
          send .failed user.pk
          return false
        else if cfg.window then consumeInWindow cfg token value user at_ fresh
        else
          match ← atomicPop cfg key value token (cfg.ttl * 2) with
          | none =>
            send .failed user.pk
            return false
          | some value =>
            -- the payload that was popped is validated again
            if !(← stillValid value user at_) then
              send .failed user.pk
              return false
            else
              send .consumed user.pk
              return true

/-- The tokens of an index that an earlier version wrote are deleted. -/
def deleteTokens : List String → M Unit
  | [] => return
  | token :: tokens => do
    let _ ← Cache.delete (tokenPrefix ++ token)
    deleteTokens tokens

def invalidateAllForUser (user : User) : M Unit := do
  let generation ← tokenUrlsafe 16
  Cache.set (generationPrefix ++ str user.pk) (.text generation) none
  let legacyIndexKey := legacyUserIndexPrefix ++ str user.pk
  match (← Cache.get legacyIndexKey).filter Value.truthy with
  | none => pure ()
  | some index => deleteTokens (← liftExn index.iter)
  let _ ← Cache.delete legacyIndexKey
  return

end ScopedAccess.ReAuth
