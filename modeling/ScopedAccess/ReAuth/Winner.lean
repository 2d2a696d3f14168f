import ScopedAccess.ReAuth.Tokens

namespace ScopedAccess.ReAuth

open Lib.Shared (System Event Reachable Steps Fired Move own mem_own)

def puts (key : String) : Event sig Store → Bool
  | ⟨_, .set key' _ _, _, _⟩ => key' = key
  | ⟨_, .add key' _ _, added, _⟩ => key' = key && added
  | _ => false

def takes (key : String) : Event sig Store → Bool
  | ⟨_, .delete key', deleted, _⟩ => key' = key && deleted
  | ⟨_, .getdel key', found, _⟩ => key' = key && found.isSome
  | _ => false

def Store.holds (w : Store) (key : String) : Nat := (w.cache key).toList.length

/-- Each entry was put there once and is taken once or still there, if it was not evicted. -/
def Balanced (w : Store) (h : Trace) : Prop :=
  ∀ key, h.countP (takes key) + w.holds key ≤ h.countP (puts key)

variable {cfg : Settings} {w w' : Store} {h : Trace}

theorem Balanced.erodes (hb : Balanced w h) (he : Erodes w w') : Balanced w' h := by
  intro key
  refine le_trans (Nat.add_le_add_left ?_ _) (hb key)
  rcases he.cache key with heq | hnone
  · simp [Store.holds, heq]
  · simp [Store.holds, hnone]

theorem Store.holds_put (key key' : String) (e : Option Entry) :
    (w.put key' e).holds key = if key = key' then e.toList.length else w.holds key := by
  rw [holds, put_cache]
  split <;> rfl

theorem Store.holds_of_read {key : String} (hread : (w.read key).isSome = true) :
    w.holds key = 1 := by
  obtain ⟨v, hv⟩ := Option.isSome_iff_exists.mp hread
  obtain ⟨e, he, -⟩ := Store.read_some.mp hv
  simp [holds, he]

theorem Balanced.act (hb : Balanced w h) (i : Nat) (o : Op) :
    Balanced (ReAuth.act cfg o w).2 (⟨i, o, (ReAuth.act cfg o w).1, w⟩ :: h) := by
  intro key
  have hkey := hb key
  rw [List.countP_cons, List.countP_cons]
  have htook (key' : String) : (if (decide (key' = key) && (w.read key').isSome) = true then 1 else 0) +
      (w.put key' none).holds key ≤ w.holds key := by
    rw [Store.holds_put]
    by_cases heq : key' = key
    · subst heq
      cases hread : (w.read key').isSome with
      | true => simp [Store.holds_of_read hread]
      | false => simp
    · simp [heq, Ne.symm heq]
  have hput (key' : String) (e : Entry) :
      (w.put key' (some e)).holds key ≤ w.holds key + if key' = key then 1 else 0 := by
    rw [Store.holds_put]
    by_cases heq : key' = key
    · simp [heq]
    · simp [heq, Ne.symm heq]
  cases o with
  | set key' value timeout =>
    have := hput key' (w.entry value timeout)
    simp [puts, takes, ReAuth.act]
    omega
  | add key' value timeout =>
    have := hput key' (w.entry value timeout)
    cases hread : (w.read key').isSome with
    | true =>
      simp [puts, takes, ReAuth.act, hread]
      omega
    | false =>
      simp [puts, takes, ReAuth.act, hread]
      omega
  | delete key' =>
    have := htook key'
    simp [puts, takes, ReAuth.act] at this ⊢
    omega
  | getdel key' =>
    have := htook key'
    simp [puts, takes, ReAuth.act] at this ⊢
    omega
  | get | now | tokenUrlsafe | verify | send | writePassword | commit => exact hkey

theorem countP_le_one {α : Type} {p : α → Bool} {l : List α}
    (h : ∀ after x before, l = after ++ x :: before → p x = true → ∀ y ∈ before, p y = false) :
    l.countP p ≤ 1 := by
  induction l with
  | nil => simp
  | cons x l ih =>
    rw [List.countP_cons]
    split
    · rename_i hx
      have hnone : l.countP p = 0 := by
        rw [List.countP_eq_zero]
        intro y hy
        simp [h [] x l rfl hx y hy]
      omega
    · exact ih fun after y before heq => h (x :: after) y before (by rw [heq]; rfl)

theorem eq_of_countP_le_one {α : Type} {p : α → Bool} {l : List α} (h : l.countP p ≤ 1) {x y : α}
    (hx : x ∈ l) (hy : y ∈ l) (hpx : p x = true) (hpy : p y = true) : x = y := by
  rw [List.countP_eq_length_filter] at h
  have hmem {z : α} (hz : z ∈ l) (hpz : p z = true) : z ∈ l.filter p :=
    List.mem_filter.mpr ⟨hz, hpz⟩
  match hl : l.filter p with
  | [] => simp [hl] at hmem; exact absurd hpx (by simp [hmem hx])
  | [z] =>
    have hx' := hmem hx hpx
    have hy' := hmem hy hpy
    rw [hl, List.mem_singleton] at hx' hy'
    rw [hx', hy']
  | _ :: _ :: _ => simp [hl] at h

section Underway

variable {drifts : Store → Store → Prop} {admits : Store → Trace → Nat → Call → Op → Prop} {P : Pool}
  (hP : Underway cfg drifts admits w P)
include hP

theorem Underway.balanced : Balanced P.world P.history := by
  refine hP.reached.invariant service_obeys Balanced ?_
    (fun hb hd => hb.erodes (hP.erodes _ _ hd)) fun _ hb _ _ _ => hb.act _ _
  intro key
  simp [Store.holds, hP.empty key]

theorem Underway.put_minted {token : String} (htoken : Urlsafe token) {e : Event sig Store}
    (he : e ∈ P.history) (hputs : puts (tokenPrefix ++ token) e = true) :
    ∃ value timeout, e.op = .set (tokenPrefix ++ token) value timeout := by
  obtain ⟨after, before, heq⟩ := List.append_of_mem he
  obtain ⟨t, -, hmay⟩ := hP.reached.allowed service_obeys heq
  obtain ⟨i, o, r, w'⟩ := e
  cases o with
  | set key value timeout =>
    obtain rfl : key = tokenPrefix ++ token := by simpa [puts] using hputs
    exact ⟨value, timeout, rfl⟩
  | add key value timeout =>
    obtain ⟨rfl, -⟩ : key = tokenPrefix ++ token ∧ r = true := by simpa [puts] using hputs
    rcases hmay.add_inv with ⟨pk, g, hkey, -⟩ | ⟨token', hkey, -⟩ | ⟨token', hkey, -⟩
    · exact absurd hkey (generationFamily.key_ne htoken _)
    · exact absurd hkey (usedFamily.key_ne htoken _)
    · exact absurd hkey (consumedFamily.key_ne htoken _)
  | get | delete | getdel | now | tokenUrlsafe | verify | send | writePassword | commit =>
    simp [puts] at hputs

theorem Underway.puts_once {token : String} (htoken : Urlsafe token) :
    P.history.countP (puts (tokenPrefix ++ token)) ≤ 1 := by
  refine countP_le_one fun after e before heq he e' he' => ?_
  obtain ⟨value, timeout, hset⟩ := hP.put_minted htoken (heq ▸ List.mem_append_right _
    (List.mem_cons_self ..)) he
  by_contra hputs
  obtain ⟨value', timeout', hset'⟩ := hP.put_minted htoken (heq ▸ List.mem_append_right _
    (List.mem_cons_of_mem _ he')) (by simpa using hputs)
  exact hP.minted_once htoken heq hset he' hset'

theorem Underway.taken_once {token : String} (htoken : Urlsafe token) {e e' : Event sig Store}
    (he : e ∈ P.history) (he' : e' ∈ P.history) (htakes : takes (tokenPrefix ++ token) e = true)
    (htakes' : takes (tokenPrefix ++ token) e' = true) : e = e' := by
  have hbalanced := hP.balanced (tokenPrefix ++ token)
  have hputs := hP.puts_once htoken
  exact eq_of_countP_le_one (by omega) he he' htakes htakes'

end Underway

/-- The call took the token from its place, and then found it unexpired and with the
generation of the principal it was issued to. -/
structure Rightful (P : Pool) (i : Nat) (token : String) (owner user : User)
    (at_ : Option Time) : Prop where
  principal : user.pk = owner.pk
  checked : ∃ data check pop before, Wrote P.history (tokenPrefix ++ token) (.payload data) ∧
    P.history = check ++ pop :: before ∧ pop.thread = i ∧
    takes (tokenPrefix ++ token) pop = true ∧ (∃ t, Timed i check at_ t ∧ t < data.expires) ∧
    ∃ g, data.generation = some g ∧ Did i check (.get (generationPrefix ++ str owner.pk))
      (some (.text g))

section Winner

variable {drifts : Store → Store → Prop} {admits : Store → Trace → Nat → Call → Op → Prop} {P : Pool}
  (hP : Underway cfg drifts admits w P) {token : String} {i : Nat}
  {user : User} {at_ : Option Time} {fresh : Bool}
  (htask : Accepted P i token user at_ fresh)
include hP htask

theorem Underway.won (hwindow : cfg.window = false) :
    ∃ data pop, Checked i (own i P.history) data user at_ ∧
    pop ∈ P.history ∧ pop.thread = i ∧ takes (tokenPrefix ++ token) pop = true ∧
    Wrote P.history (tokenPrefix ++ token) (.payload data) := by
  obtain ⟨token', htoken, data, hchecked, -, hsingle⟩ := hP.reached.returned service_obeys htask
  obtain rfl := Option.some.inj htoken
  have hsub := own_subset i P.history
  rcases hsingle hwindow with ⟨w', hmem⟩ | ⟨hget, w', hmem⟩
  · have hwrote := hP.sourced.popped i _ _ ⟨w', hsub hmem⟩
    exact ⟨data, _, hchecked, hsub hmem, rfl, by simp [takes], hwrote⟩
  · have hwrote := hP.sourced.got i _ _ (hget.mono hsub)
    exact ⟨data, _, hchecked, hsub hmem, rfl, by simp [takes], hwrote⟩

theorem Underway.unchecked {check before : Trace} {pop : Event sig Store}
    (heq : P.history = check ++ pop :: before) (hthread : pop.thread = i)
    (htakes : takes (tokenPrefix ++ token) pop = true) : Unchecked token (own i before) := by
  obtain ⟨t, ht, hmay⟩ := hP.reached.allowed service_obeys heq
  rw [hthread] at ht hmay
  obtain rfl := Option.some.inj (htask.symm.trans ht)
  obtain ⟨j, o, r, w'⟩ := pop
  generalize own i before = past at hmay ⊢
  cases hmay with
  | pop _ _ hearly | getdel _ _ hearly => exact hearly
  | legacyDelete hc | legacyDrop hc => cases hc
  | _ => simp [takes] at htakes

theorem Underway.after_pop {check before : Trace} {pop : Event sig Store}
    (heq : P.history = check ++ pop :: before) (hthread : pop.thread = i)
    (htakes : takes (tokenPrefix ++ token) pop = true) {o : Op} {r : o.Res}
    (ho : o = .now ∨ ∃ key, o = .get key ∧ key ≠ tokenPrefix ++ token)
    (hdid : Did i P.history o r) : Did i check o r := by
  obtain ⟨w', hmem⟩ := hdid
  rw [heq] at hmem
  rcases List.mem_append.mp hmem with hmem | hmem
  · exact ⟨w', hmem⟩
  rcases List.mem_cons.mp hmem with rfl | hmem
  · rcases ho with rfl | ⟨key, rfl, -⟩ <;> simp [takes] at htakes
  · have hearly := hP.unchecked htask heq hthread htakes _ (mem_own.mpr ⟨hmem, rfl⟩)
    rcases ho with rfl | ⟨key, rfl, hkey⟩
    · exact absurd rfl hearly.1
    · exact absurd (hearly.2 key rfl) hkey

theorem Underway.rightful (hwindow : cfg.window = false) (htoken : Urlsafe token) {owner : User}
    {data : Payload} (hid : data.userId = str owner.pk)
    (hw : Wrote P.history (tokenPrefix ++ token) (.payload data)) :
    Rightful P i token owner user at_ := by
  obtain ⟨data', pop, hchecked, hmem, hthread, htakes, hw'⟩ := hP.won htask hwindow
  obtain rfl := Value.payload.inj (hP.same_value htoken hw hw')
  obtain ⟨check, before, heq⟩ := List.append_of_mem hmem
  have hsub := own_subset i P.history
  have howner : user.pk = owner.pk := str_injective (hchecked.owner.symm.trans hid)
  refine ⟨howner, data, check, pop, before, hw, heq, hthread, htakes, ?_, ?_⟩
  · obtain ⟨t, htimed, hlt⟩ := hchecked.unexpired
    refine ⟨t, htimed.imp_right fun ⟨hnone, hnow⟩ => ⟨hnone, ?_⟩, hlt⟩
    exact hP.after_pop htask heq hthread htakes (.inl rfl) (hnow.mono hsub)
  · obtain ⟨g, hg, hget⟩ := hP.read_generation htoken htask hw hchecked
    rw [howner] at hget
    exact ⟨g, hg, hP.after_pop htask heq hthread htakes
      (.inr ⟨_, rfl, (generationFamily.key_ne htoken _).symm⟩) hget⟩

end Winner

theorem single_winner (hempty : Empty w) {P : Pool}
    (hreached : Reachable (service cfg Erodes fun _ _ _ _ _ => True) w P)
    (hwindow : cfg.window = false) {k : Nat} {owner : User} {issuedAt : Option Time}
    {token : String} (hissued : Issued P k owner issuedAt token) :
    (∀ (i j : Nat) (user user' : User) (at_ at_' : Option Time) (fresh fresh' : Bool),
      Accepted P i token user at_ fresh → Accepted P j token user' at_' fresh' → i = j) ∧
    ∀ (i : Nat) (user : User) (at_ : Option Time) (fresh : Bool),
      Accepted P i token user at_ fresh → Rightful P i token owner user at_ := by
  have hP : Underway cfg Erodes (fun _ _ _ _ _ => True) w P := ⟨fun _ _ he => he, hempty, hreached⟩
  obtain ⟨htoken, data, -, hw, hid, -⟩ := hP.issued hissued
  constructor
  · intro i j user user' at_ at_' fresh fresh' hi hj
    obtain ⟨-, pop, -, hmem, rfl, htakes, -⟩ := hP.won hi hwindow
    obtain ⟨-, pop', -, hmem', rfl, htakes', -⟩ := hP.won hj hwindow
    rw [hP.taken_once htoken hmem hmem' htakes htakes']
  · intro i user at_ fresh hi
    exact hP.rightful hi hwindow htoken hid hw

namespace Race

def morning : Store := { clock := 1000, password := fun _ => "secret" }

def alice : User := { pk := 1 }

def moves : List (Move Call) :=
  .start (.issue alice "password" none [("password", "secret")]) :: List.replicate 8 (.act 0) ++
    [.start (.consume (some "a") alice none false), .start (.consume (some "a") alice none true),
      .act 1, .act 2, .act 2, .act 1, .act 1, .act 2, .act 2, .act 2, .act 2]

def platform : System sig Exn Store Call.Ans :=
  service (sample false false) Erodes fun _ _ _ _ _ => True

def settled : Pool :=
  (Lib.Shared.Pool.play platform { world := morning } moves).getD { world := morning }

theorem settled_reached : Reachable platform morning settled := by
  have hplay : Lib.Shared.Pool.play platform { world := morning } moves = some settled := rfl
  exact Lib.Shared.Pool.play_steps (fun _ _ _ _ _ => trivial) hplay

theorem settled_winner : Rightful settled 2 "a" alice alice none :=
  (single_winner (fun _ => rfl) settled_reached rfl
    (k := 0) ⟨"password", [("password", "secret")], rfl⟩).2 2 alice none true rfl

end Race

end ScopedAccess.ReAuth
