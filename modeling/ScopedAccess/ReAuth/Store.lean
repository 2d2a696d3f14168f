import ScopedAccess.Lib.Shared
import ScopedAccess.Models
import ScopedAccess.ReAuth.Keys

/-! What the ReAuth service shares with its other calls (`reauth/service.py`,
`reauth/atomic.py`): the cache, the clock, the random source and the stored
credentials, each used one operation at a time. -/

namespace ScopedAccess.ReAuth

open Lib.Shared (Signature Prog)

/-- The dict stored for a token. -/
structure Payload where
  userId : String
  generation : Option String
  expires : Time
  deriving DecidableEq

inductive Value
  | payload (data : Payload)
  | text (s : String)
  | flag
  /-- The index of a user's tokens that earlier versions kept. -/
  | tokens (ts : List String)
  deriving DecidableEq

namespace Value

def truthy : Value → Bool
  | .payload _ | .flag => true
  | .text s => s ≠ ""
  | .tokens ts => ts ≠ []

def quote (s : String) : String := "'" ++ s ++ "'"

def str : Value → String
  | .payload data =>
    "\x7b'user_id': " ++ quote data.userId ++ ", 'generation': " ++
      (data.generation.map quote).getD "None" ++ ", 'expires': " ++
      quote (toString data.expires) ++ "\x7d"
  | .text s => s
  | .flag => "True"
  | .tokens ts => "[" ++ ", ".intercalate (ts.map quote) ++ "]"

/-- `data["user_id"]` and the other fields of what was read. -/
def fields : Value → Except Exn Payload
  | .payload data => .ok data
  | .text _ => .error ⟨.typeError, "string indices must be integers, not 'str'"⟩
  | .flag => .error ⟨.typeError, "'bool' object is not subscriptable"⟩
  | .tokens _ => .error ⟨.typeError, "list indices must be integers or slices, not str"⟩

def iter : Value → Except Exn (List String)
  | .payload _ => .ok ["user_id", "generation", "expires"]
  | .text s => .ok (s.toList.map Char.toString)
  | .flag => .error ⟨.typeError, "'bool' object is not iterable"⟩
  | .tokens ts => .ok ts

end Value

structure Entry where
  value : Value
  deadline : Option Time := none

structure Store where
  cache : String → Option Entry := fun _ => none
  clock : Time := 0
  drawn : Nat := 0
  password : Nat → String := fun _ => ""

namespace Store

variable (s : Store)

def read (key : String) : Option Value :=
  ((s.cache key).filter fun e => e.deadline.all (s.clock < ·)).map Entry.value

def put (key : String) (e : Option Entry) : Store :=
  { s with cache := Function.update s.cache key e }

def entry (value : Value) (timeout : Option Time) : Entry := ⟨value, timeout.map (s.clock + ·)⟩

end Store

abbrev Credentials := List (String × String)

inductive Notice
  | issued
  | consumed
  | failed
  deriving DecidableEq

inductive Op
  | get (key : String)
  | set (key : String) (value : Value) (timeout : Option Time)
  | add (key : String) (value : Value) (timeout : Option Time)
  | delete (key : String)
  | getdel (key : String)
  | now
  | tokenUrlsafe (nbytes : Nat)
  | verify (verifier : String) (user : Nat) (credentials : Credentials)
  | send (notice : Notice) (user : Nat)
  | writePassword (user : Nat) (encoded : String)
  | commit (user : Nat) (encoded : String)
  deriving DecidableEq

abbrev Op.Res : Op → Type
  | .get _ | .getdel _ => Option Value
  | .add .. | .delete _ | .verify .. => Bool
  | .now => Time
  | .tokenUrlsafe _ => String
  | .set .. | .send .. | .writePassword .. | .commit .. => Unit

abbrev sig : Signature := ⟨Op, Op.Res⟩

abbrev M (α : Type) := Prog sig Exn α

/-- `verify(user, **credentials)`, by the stored credential of the user. -/
abbrev Verifier := String → Credentials → Bool

/-- The configuration and the parts of the platform the service runs on. -/
structure Settings where
  ttl : Nat
  window : Bool := false
  redis : Bool := false
  verifiers : String → Option Verifier
  secret : Nat → String
  ttl_pos : 0 < ttl
  secret_injective : Function.Injective secret
  secret_urlsafe : ∀ n, Urlsafe (secret n)
  secret_ne : ∀ n, secret n ≠ ""

def passwordVerifier (checkPassword : String → String → Bool) : Verifier := fun encoded credentials =>
  match credentials.lookup "password" with
  | none => false
  | some password => password ≠ "" && checkPassword encoded password

def Settings.verifies (cfg : Settings) (s : Store) (verifier : String) (user : Nat)
    (credentials : Credentials) : Bool :=
  match cfg.verifiers verifier with
  | none => false
  | some verify => verify (s.password user) credentials

def act (cfg : Settings) : (o : Op) → Store → o.Res × Store
  | .get key, s => (s.read key, s)
  | .set key value timeout, s => ((), s.put key (some (s.entry value timeout)))
  | .add key value timeout, s =>
    if (s.read key).isSome then (false, s) else (true, s.put key (some (s.entry value timeout)))
  | .delete key, s => ((s.read key).isSome, s.put key none)
  | .getdel key, s => (s.read key, s.put key none)
  | .now, s => (s.clock, s)
  | .tokenUrlsafe _, s => (cfg.secret s.drawn, { s with drawn := s.drawn + 1 })
  | .verify verifier user credentials, s => (cfg.verifies s verifier user credentials, s)
  | .send .., s => ((), s)
  | .writePassword .., s => ((), s)
  | .commit user encoded, s => ((), { s with password := Function.update s.password user encoded })

def letters (n : Nat) : String := String.ofList (List.replicate (n + 1) 'a')

theorem letters_injective : Function.Injective letters := by
  intro m n h
  have hlength := congrArg (fun s => s.toList.length) h
  simpa [letters] using hlength

def sample (window redis : Bool) : Settings where
  ttl := 300
  window := window
  redis := redis
  verifiers := fun name => if name = "password" then some (passwordVerifier (· = ·)) else none
  secret := letters
  ttl_pos := by decide
  secret_injective := letters_injective
  secret_urlsafe n := by simp [Urlsafe, letters]
  secret_ne n h := by simpa [letters] using congrArg String.toList h

end ScopedAccess.ReAuth
