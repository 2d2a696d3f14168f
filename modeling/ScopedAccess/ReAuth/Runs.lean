import ScopedAccess.ReAuth.Service

namespace ScopedAccess.ReAuth

open Lib.Shared (Prog)

def M.run {α : Type} (cfg : Settings) (p : M α) (s : Store) : Except Exn α × Store :=
  Prog.run (act cfg) p s

variable {cfg : Settings} {s : Store}

namespace Store

@[simp] theorem put_clock (key : String) (e : Option Entry) : (s.put key e).clock = s.clock := rfl

@[simp] theorem put_drawn (key : String) (e : Option Entry) : (s.put key e).drawn = s.drawn := rfl

theorem put_cache (key : String) (e : Option Entry) (key' : String) :
    (s.put key e).cache key' = if key' = key then e else s.cache key' := by
  simp [put, Function.update_apply]

@[simp] theorem put_self (key : String) (e : Option Entry) : (s.put key e).cache key = e := by
  simp [put]

theorem put_of_ne {key key' : String} (h : key' ≠ key) (e : Option Entry) :
    (s.put key e).cache key' = s.cache key' := by simp [put_cache, h]

theorem read_some {key : String} {v : Value} :
    s.read key = some v ↔
      ∃ e, s.cache key = some e ∧ e.deadline.all (s.clock < ·) = true ∧ e.value = v := by
  simp [read, and_assoc]

theorem read_none {key : String} :
    s.read key = none ↔ ∀ e, s.cache key = some e → e.deadline.all (s.clock < ·) = false := by
  simp [read, Option.filter_eq_none_iff]

theorem read_put_of_ne {key key' : String} (h : key' ≠ key) (e : Option Entry) :
    (s.put key e).read key' = s.read key' := by
  rw [read, read, put_of_ne h]
  rfl

def next (s : Store) : Store := { s with drawn := s.drawn + 1 }

@[simp] theorem next_cache : s.next.cache = s.cache := rfl

@[simp] theorem next_clock : s.next.clock = s.clock := rfl

@[simp] theorem next_drawn : s.next.drawn = s.drawn + 1 := rfl

@[simp] theorem next_read (key : String) : s.next.read key = s.read key := rfl

end Store

section Run

variable {α β : Type}

@[simp] theorem run_pure (x : α) : M.run cfg (pure x) s = (.ok x, s) := rfl

@[simp] theorem run_raise (e : Exn) : M.run cfg (Prog.raise e : M α) s = (.error e, s) := rfl

@[simp] theorem run_get (key : String) :
    M.run cfg (Cache.get key) s = (.ok (s.read key), s) := rfl

@[simp] theorem run_set (key : String) (value : Value) (timeout : Option Time) :
    M.run cfg (Cache.set key value timeout) s =
      (.ok (), s.put key (some (s.entry value timeout))) := rfl

@[simp] theorem run_add (key : String) (value : Value) (timeout : Option Time) :
    M.run cfg (Cache.add key value timeout) s =
      if (s.read key).isSome then (.ok false, s)
      else (.ok true, s.put key (some (s.entry value timeout))) := by
  split <;> simp_all [M.run, Cache.add, perform, Prog.run, Prog.perform, act]

@[simp] theorem run_delete (key : String) :
    M.run cfg (Cache.delete key) s = (.ok (s.read key).isSome, s.put key none) := rfl

@[simp] theorem run_getdel (key : String) :
    M.run cfg (Cache.getdel key) s = (.ok (s.read key), s.put key none) := rfl

@[simp] theorem run_now : M.run cfg now s = (.ok s.clock, s) := rfl

@[simp] theorem run_tokenUrlsafe (nbytes : Nat) :
    M.run cfg (tokenUrlsafe nbytes) s = (.ok (cfg.secret s.drawn), s.next) := rfl

@[simp] theorem run_verify (verifier : String) (user : Nat) (credentials : Credentials) :
    M.run cfg (verify verifier user credentials) s =
      (.ok (cfg.verifies s verifier user credentials), s) := rfl

@[simp] theorem run_send (notice : Notice) (user : Nat) :
    M.run cfg (send notice user) s = (.ok (), s) := rfl

theorem run_bind (p : M α) (f : α → M β) :
    M.run cfg (p >>= f) s = Prog.andThen (M.run cfg p s) fun x s' => M.run cfg (f x) s' :=
  Prog.run_bind p f

@[simp] theorem run_map (f : α → β) (p : M α) :
    M.run cfg (f <$> p) s = Prog.andThen (M.run cfg p s) fun x s' => (.ok (f x), s') := by
  rw [← bind_pure_comp, run_bind]
  rfl

@[simp] theorem andThen_ok (x : α) (f : α → Store → Except Exn β × Store) :
    Prog.andThen (.ok x, s) f = f x s := rfl

@[simp] theorem andThen_error (e : Exn) (f : α → Store → Except Exn β × Store) :
    Prog.andThen (.error e, s) f = (.error e, s) := rfl

theorem run_liftExn (x : Except Exn α) : M.run cfg (liftExn x) s = (x, s) := by
  cases x <;> rfl

theorem run_ite {c : Prop} [Decidable c] (p q : M α) :
    M.run cfg (if c then p else q) s = if c then M.run cfg p s else M.run cfg q s := by
  split <;> rfl

end Run

def generationOf (cfg : Settings) (s : Store) (pk : Nat) : String × Store :=
  match s.read (generationPrefix ++ str pk) with
  | some value => (value.str, s)
  | none =>
    (cfg.secret s.drawn,
      s.next.put (generationPrefix ++ str pk) (some ⟨.text (cfg.secret s.drawn), none⟩))

@[simp] theorem run_generation (user : User) :
    M.run cfg (generation user) s =
      (.ok (generationOf cfg s user.pk).1, (generationOf cfg s user.pk).2) := by
  simp only [generation, run_bind, run_get, andThen_ok]
  cases h : s.read (generationPrefix ++ str user.pk) with
  | some value => simp [generationOf, h]
  | none => simp [generationOf, h, run_bind, Store.entry]

@[simp] theorem run_atOrNow (at_ : Option Time) :
    M.run cfg (atOrNow at_) s = (.ok (at_.getD s.clock), s) := by
  cases at_ <;> rfl

theorem run_stillValid (data : Payload) (user : User) (at_ : Option Time) :
    M.run cfg (stillValid (.payload data) user at_) s =
      if data.userId ≠ str user.pk ∨ data.expires ≤ at_.getD s.clock then (.ok false, s)
      else (.ok (data.generation = some (generationOf cfg s user.pk).1),
        (generationOf cfg s user.pk).2) := by
  simp only [stillValid, Value.fields, run_bind, run_liftExn, run_ite, run_pure, run_atOrNow,
    run_generation]
  by_cases hid : data.userId = str user.pk <;> by_cases hexp : data.expires ≤ at_.getD s.clock <;>
    simp [hid, hexp]

def minted (cfg : Settings) (s : Store) (pk : Nat) (at_ : Option Time) : Payload :=
  { userId := str pk, generation := some (generationOf cfg s.next pk).1,
    expires := at_.getD s.clock + cfg.ttl }

theorem run_issue (user : User) (verifier : String) (at_ : Option Time)
    (credentials : Credentials) :
    M.run cfg (issue cfg user verifier at_ credentials) s =
      if user.isActive && cfg.verifies s verifier user.pk credentials then
        (.ok (some (cfg.secret s.drawn)),
          (generationOf cfg s.next user.pk).2.put (tokenPrefix ++ cfg.secret s.drawn)
            (some ((generationOf cfg s.next user.pk).2.entry (.payload (minted cfg s user.pk at_))
              (some (cfg.ttl * 2)))))
      else (.ok none, s) := by
  unfold issue
  cases user.isActive <;> cases hproof : cfg.verifies s verifier user.pk credentials <;>
    simp [run_bind, run_ite, minted, hproof]

theorem run_invalidateAllForUser (user : User)
    (h : s.read (legacyUserIndexPrefix ++ str user.pk) = none) :
    M.run cfg (invalidateAllForUser user) s =
      (.ok (), (s.next.put (generationPrefix ++ str user.pk)
        (some ⟨.text (cfg.secret s.drawn), none⟩)).put (legacyUserIndexPrefix ++ str user.pk)
          none) := by
  have hread (e : Option Entry) : (s.next.put (generationPrefix ++ str user.pk) e).read
      (legacyUserIndexPrefix ++ str user.pk) = none := by
    rw [Store.read_put_of_ne (generation_ne_legacy _ _).symm, Store.next_read, h]
  simp [invalidateAllForUser, run_bind, hread, Store.entry]

/-- The store once the token's entry is popped; `none` where another consumption
has the claim. -/
def popped (cfg : Settings) (s : Store) (token : String) : Option Store :=
  if cfg.redis then some (s.put (tokenPrefix ++ token) none)
  else if (s.read (consumedPrefix ++ token)).isSome then none
  else some ((s.put (consumedPrefix ++ token) (some (s.entry .flag (some (cfg.ttl * 2))))).put
    (tokenPrefix ++ token) none)

theorem run_atomicPop {token : String} {value : Value}
    (h : s.read (tokenPrefix ++ token) = some value) :
    M.run cfg (atomicPop cfg (tokenPrefix ++ token) value token (cfg.ttl * 2)) s =
      match popped cfg s token with
      | none => (.ok none, s)
      | some s' => (.ok (some value), s') := by
  unfold atomicPop popped
  cases cfg.redis with
  | true => simp [h]
  | false =>
    cases hclaim : (s.read (consumedPrefix ++ token)).isSome with
    | true => simp [run_bind, hclaim]
    | false =>
      have hread (e : Option Entry) :
          (s.put (consumedPrefix ++ token) e).read (tokenPrefix ++ token) = some value := by
        rw [Store.read_put_of_ne (consumedFamily.key_ne_self token), h]
      simp [run_bind, run_ite, hclaim, hread]

theorem run_consumeInWindow {data : Payload} {user : User} (hid : data.userId = str user.pk)
    (token : String) (at_ : Option Time) (fresh : Bool) :
    M.run cfg (consumeInWindow cfg token (.payload data) user at_ fresh) s =
      if at_.getD s.clock < data.expires then
        let s' := (generationOf cfg s user.pk).2
        if data.generation ≠ some (generationOf cfg s user.pk).1 then (.ok false, s')
        else if (s'.read (usedPrefix ++ token)).isSome then (.ok !fresh, s')
        else (.ok true, s'.put (usedPrefix ++ token) (some (s'.entry .flag (some (cfg.ttl * 2)))))
      else (.ok false, s) := by
  unfold consumeInWindow
  rw [run_bind, run_stillValid]
  by_cases hexp : data.expires ≤ at_.getD s.clock
  · simp [hid, hexp, run_bind, run_ite, not_lt.mpr hexp]
  · by_cases hgen : data.generation = some (generationOf cfg s user.pk).1
    · cases hused : ((generationOf cfg s user.pk).2.read (usedPrefix ++ token)).isSome <;>
        cases fresh <;> simp [hid, hexp, hgen, hused, run_bind, run_ite, not_le.mp hexp]
    · simp [hid, hexp, hgen, run_bind, run_ite, not_le.mp hexp]

theorem run_consume_inactive {token : String} {user : User} (hne : token ≠ "")
    (hactive : user.isActive = false) (at_ : Option Time) (fresh : Bool) :
    M.run cfg (consume cfg (some token) user at_ fresh) s = (.ok false, s) := by
  simp [consume, Option.filter, hne, hactive]

section Consume

variable {token : String} {user : User} (hne : token ≠ "") (hactive : user.isActive)
  (at_ : Option Time) (fresh : Bool)
include hne hactive

theorem run_consume_absent (h : s.read (tokenPrefix ++ token) = none) :
    M.run cfg (consume cfg (some token) user at_ fresh) s = (.ok false, s) := by
  simp [consume, Option.filter, hne, hactive, run_bind, h]

theorem run_consume_malformed {value : Value} {e : Exn}
    (h : s.read (tokenPrefix ++ token) = some value) (he : value.fields = .error e) :
    M.run cfg (consume cfg (some token) user at_ fresh) s = (.error e, s) := by
  simp [consume, Option.filter, hne, hactive, run_bind, h, run_liftExn, he]

theorem run_consume_foreign {data : Payload}
    (h : s.read (tokenPrefix ++ token) = some (.payload data)) (hid : data.userId ≠ str user.pk) :
    M.run cfg (consume cfg (some token) user at_ fresh) s = (.ok false, s) := by
  simp [consume, Option.filter, hne, hactive, run_bind, h, run_liftExn, Value.fields, hid]

theorem run_consume_window {data : Payload} (hwindow : cfg.window = true)
    (h : s.read (tokenPrefix ++ token) = some (.payload data)) (hid : data.userId = str user.pk) :
    M.run cfg (consume cfg (some token) user at_ fresh) s =
      M.run cfg (consumeInWindow cfg token (.payload data) user at_ fresh) s := by
  simp [consume, Option.filter, hne, hactive, run_bind, h, run_liftExn, Value.fields, hid, hwindow]

theorem run_consume_single {data : Payload} (hwindow : cfg.window = false)
    (h : s.read (tokenPrefix ++ token) = some (.payload data)) (hid : data.userId = str user.pk) :
    M.run cfg (consume cfg (some token) user at_ fresh) s =
      match popped cfg s token with
      | none => (.ok false, s)
      | some s' =>
        if at_.getD s'.clock < data.expires then
          (.ok (data.generation = some (generationOf cfg s' user.pk).1),
            (generationOf cfg s' user.pk).2)
        else (.ok false, s') := by
  simp only [consume, Option.filter, hne, hactive, run_bind, h, run_liftExn, Value.fields, hid,
    hwindow, ne_eq, not_false_eq_true, decide_true, if_true, Bool.not_true, Bool.false_eq_true,
    if_false, not_true, run_get, andThen_ok, run_atomicPop h]
  cases popped cfg s token with
  | none => simp
  | some s' =>
    simp only [andThen_ok, run_bind, run_stillValid, hid, ne_eq, not_true, false_or]
    by_cases hexp : data.expires ≤ at_.getD s'.clock
    · simp [hexp, not_lt.mpr hexp]
    · by_cases hgen : data.generation = some (generationOf cfg s' user.pk).1 <;>
        simp [hexp, hgen, not_le.mp hexp]

end Consume

end ScopedAccess.ReAuth
