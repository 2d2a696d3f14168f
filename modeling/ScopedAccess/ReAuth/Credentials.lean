import ScopedAccess.ReAuth.Tokens
import ScopedAccess.ReAuth.Winner

namespace ScopedAccess.ReAuth

open Lib.Shared (System Event Reachable Steps Move own mem_own eq_or_before suffix_or)

def Op.rotates (pk : Nat) : Op → Bool
  | .set key _ none => key = generationPrefix ++ str pk
  | _ => false

theorem Op.rotates_inv {pk : Nat} {o : Op} (h : o.rotates pk = true) :
    ∃ value, o = .set (generationPrefix ++ str pk) value none := by
  cases o with
  | set key value timeout =>
    cases timeout with
    | none => exact ⟨value, by simpa [rotates] using h⟩
    | some t => cases h
  | _ => cases h

def Op.commits (pk : Nat) : Op → Bool
  | .commit pk' _ => pk' = pk
  | _ => false

def Op.proves (pk : Nat) : Op → Bool
  | .verify _ pk' _ => pk' = pk
  | _ => false

def Op.stamps (pk : Nat) : Op → Bool
  | .get key | .add key _ _ => key = generationPrefix ++ str pk
  | _ => false

def Before (h : Trace) (e e' : Event sig Store) : Prop :=
  ∃ after before, h = after ++ e' :: before ∧ e ∈ before

/-- The change that makes this commit has rotated the generation too. -/
structure Changed (pk : Nat) (commit : Event sig Store) (h : Trace) : Prop where
  committed : commit ∈ h ∧ commit.op.commits pk = true
  rotated : ∃ change ∈ h, change.thread = commit.thread ∧ change.op.rotates pk = true

/-- The token was stored for a proof that was checked before the commit. -/
def Outdated (pk : Nat) (commit : Event sig Store) (token : String) (h : Trace) : Prop :=
  ∃ proof ∈ h, proof.op.proves pk = true ∧ ¬ Before h commit proof ∧
    ∃ store ∈ h, store.thread = proof.thread ∧
      ∃ v timeout, store.op = .set (tokenPrefix ++ token) v timeout

/-- Who comes to a generation that a change has rotated has proved itself after the
commit of the change. -/
def ProvesAfterCommit (h : Trace) : Prop :=
  ∀ (pk : Nat) (change commit proof stamp : Event sig Store), change.op.rotates pk = true →
    commit.op.commits pk = true → proof.op.proves pk = true → stamp.op.stamps pk = true →
    change.thread = commit.thread → proof.thread = stamp.thread → commit ∈ h → proof ∈ h →
    Before h change stamp → Before h commit proof

/-- Whoever starts after a change refuses the tokens of older proofs. -/
def Closes (cfg : Settings) (w : Store) (P : Pool) : Prop :=
  ∀ (Q : Pool) (pk : Nat) (commit : Event sig Store) (token : String) (i : Nat) (user : User)
    (at_ : Option Time) (fresh : Bool),
    Reachable (service cfg Erodes fun _ _ _ _ _ => True) w Q →
    Steps (service cfg Erodes fun _ _ _ _ _ => True) Q P → Changed pk commit Q.history →
    Outdated pk commit token P.history → Q.tasks.length ≤ i → ¬ Accepted P i token user at_ fresh

def Op.value : Op → Option Value
  | .set _ value _ | .add _ value _ => some value
  | _ => none

def Newest (w : Store) (h : Trace) : Prop :=
  ∀ key e, w.cache key = some e → ∃ newer put older, h = newer ++ put :: older ∧
    puts key put = true ∧ put.op.value = some e.value ∧ ∀ e' ∈ newer, puts key e' = false

variable {cfg : Settings} {w w' : Store} {h : Trace}

theorem Newest.erodes (hn : Newest w h) (he : Erodes w w') : Newest w' h := by
  intro key e hcache
  rcases he.cache key with heq | hnone
  · exact hn key e (heq ▸ hcache)
  · simp [hnone] at hcache

theorem Newest.act (hn : Newest w h) (i : Nat) (o : Op) :
    Newest (ReAuth.act cfg o w).2 (⟨i, o, (ReAuth.act cfg o w).1, w⟩ :: h) := by
  intro key e hcache
  have hkept (hcache : w.cache key = some e)
      (hputs : puts key ⟨i, o, (ReAuth.act cfg o w).1, w⟩ = false) :
      ∃ newer put older, ⟨i, o, (ReAuth.act cfg o w).1, w⟩ :: h = newer ++ put :: older ∧
        puts key put = true ∧ put.op.value = some e.value ∧ ∀ e' ∈ newer, puts key e' = false := by
    obtain ⟨newer, put, older, rfl, hput, hvalue, hnewest⟩ := hn key e hcache
    refine ⟨_ :: newer, put, older, rfl, hput, hvalue, fun e' he' => ?_⟩
    rcases List.mem_cons.mp he' with rfl | he'
    · exact hputs
    · exact hnewest e' he'
  cases hputs : puts key ⟨i, o, (ReAuth.act cfg o w).1, w⟩ with
  | false =>
    refine hkept ?_ hputs
    rcases act_stored hcache with hold | ⟨timeout, rfl | ⟨rfl, hfree⟩⟩
    · exact hold
    · simp [puts] at hputs
    · simp [puts, ReAuth.act, hfree] at hputs
  | true =>
    refine ⟨[], _, h, rfl, hputs, ?_, by simp⟩
    cases o with
    | set key' value timeout =>
      obtain rfl : key' = key := by simpa [puts] using hputs
      have hentry := (Store.put_self (s := w) key' (some (w.entry value timeout))).symm.trans hcache
      obtain rfl := Option.some.inj hentry
      rfl
    | add key' value timeout =>
      cases hread : (w.read key').isSome with
      | true => simp [puts, ReAuth.act, hread] at hputs
      | false =>
        obtain rfl : key' = key := by simpa [puts, ReAuth.act, hread] using hputs
        simp only [ReAuth.act, hread, Bool.false_eq_true, if_false] at hcache
        have hentry := (Store.put_self (s := w) key' (some (w.entry value timeout))).symm.trans hcache
        obtain rfl := Option.some.inj hentry
        rfl
    | get | delete | getdel | now | tokenUrlsafe | verify | send | writePassword | commit =>
      simp [puts] at hputs

theorem May.add_ungenerated {i : Nat} {c : Call} {key : String} {value : Value}
    {timeout : Option Time} (hmay : May cfg i c h (.add key value timeout)) {pk : Nat}
    (hkey : key = generationPrefix ++ str pk) : Ungenerated pk h := by
  cases hmay with
  | issueAdd hnew hdrew | consumeAdd _ _ hnew hdrew =>
    obtain rfl := str_injective (key_inj.mp hkey)
    exact hnew
  | mark => exact absurd hkey.symm (generation_ne_used _ _)
  | claim => exact absurd hkey.symm (generation_ne_consumed _ _)

section Underway

variable {drifts : Store → Store → Prop} {admits : Store → Trace → Nat → Call → Op → Prop} {P : Pool}
  (hP : Underway cfg drifts admits w P)
include hP

theorem Underway.newest : Newest P.world P.history := by
  refine hP.reached.invariant service_obeys Newest ?_
    (fun hn hd => hn.erodes (hP.erodes _ _ hd)) fun _ hn _ _ _ => hn.act _ _
  intro key e hcache
  simp [hP.empty key] at hcache

theorem Underway.read_newest {after before : Trace} {e : Event sig Store} {key : String} {v : Value}
    (heq : P.history = after ++ e :: before)
    (he : ∃ i w', e = ⟨i, .get key, some v, w'⟩) :
    ∃ newer put older, before = newer ++ put :: older ∧
      (∃ later, P.history = later ++ put :: older) ∧ puts key put = true ∧
      put.op.value = some v ∧ ∀ e' ∈ newer, puts key e' = false := by
  obtain ⟨i, w', rfl⟩ := he
  obtain ⟨Q, hQ, rfl, rfl, hres⟩ := hP.at_event heq
  obtain ⟨entry, hcache, -, rfl⟩ := Store.read_some.mp (show Q.world.read key = some v from hres.symm)
  obtain ⟨newer, put, older, hhistory, hput⟩ := hQ.newest key entry hcache
  refine ⟨newer, put, older, hhistory,
    ⟨after ++ ⟨i, .get key, some entry.value, Q.world⟩ :: newer, ?_⟩, hput⟩
  rw [heq, hhistory, List.append_assoc]
  rfl

structure Generating (P : Pool) (pk : Nat) (put : Event sig Store) (before : Trace) : Prop where
  drew : ∃ g, put.op.value = some (.text g) ∧ Drew put.thread P.history g
  once : ∃ t, P.tasks[put.thread]? = some t ∧
    (put.op.rotates pk = true ∧ t.call.rotates ≠ none ∧
        (∀ e ∈ own put.thread before, e.op.isSet = false) ∨
      put.op.stamps pk = true ∧ t.call.rotates = none ∧ Ungenerated pk (own put.thread before))

theorem Underway.generating {after before : Trace} {put : Event sig Store} {pk : Nat}
    (heq : P.history = after ++ put :: before)
    (hputs : puts (generationPrefix ++ str pk) put = true) : Generating P pk put before := by
  obtain ⟨t, ht, hmay⟩ := hP.reached.allowed service_obeys heq
  obtain ⟨i, o, r, w'⟩ := put
  have hsub {value : String} (hdrew : Drew i (own i before) value) : Drew i P.history value :=
    heq ▸ hdrew.of_own
  cases o with
  | set key value timeout =>
    obtain rfl : key = generationPrefix ++ str pk := by simpa [puts] using hputs
    rcases hmay.set_inv with ⟨token, hkey, hmint⟩ | ⟨pk', hkey, rfl, hrotate⟩
    · exact absurd hkey.symm (generationFamily.key_ne (hP.drew_urlsafe (hsub hmint.drew)) _)
    · obtain ⟨g, rfl, hdrew⟩ := hrotate.drew
      obtain ⟨user, hrotates, -⟩ := hrotate.rotates
      refine ⟨⟨g, rfl, hsub hdrew⟩, t, ht, .inl ⟨?_, by simp [hrotates], hrotate.first⟩⟩
      simp [Op.rotates]
  | add key value timeout =>
    obtain ⟨rfl, -⟩ : key = generationPrefix ++ str pk ∧ r = true := by simpa [puts] using hputs
    rcases hmay.add_inv with ⟨pk', g, -, rfl, -, hrotates, hdrew⟩ | ⟨token, hkey, -⟩ | ⟨token, hkey, -⟩
    · refine ⟨⟨g, rfl, hsub hdrew⟩, t, ht, .inr ⟨?_, hrotates, hmay.add_ungenerated rfl⟩⟩
      simp [Op.stamps]
    · exact absurd hkey (generation_ne_used _ _)
    · exact absurd hkey (generation_ne_consumed _ _)
  | get | delete | getdel | now | tokenUrlsafe | verify | send | writePassword | commit =>
    simp [puts] at hputs

theorem Underway.generated_once {after before : Trace} {put put' : Event sig Store} {pk : Nat}
    (heq : P.history = after ++ put :: before) (hmem : put' ∈ before)
    (hputs : puts (generationPrefix ++ str pk) put = true)
    (hputs' : puts (generationPrefix ++ str pk) put' = true) : put'.thread ≠ put.thread := by
  intro hthread
  obtain ⟨after', before', rfl⟩ := List.append_of_mem hmem
  have heq' : P.history = (after ++ put :: after') ++ put' :: before' := by simp [heq]
  obtain ⟨t, ht, hkind⟩ := (hP.generating heq hputs).once
  obtain ⟨t', ht', hkind'⟩ := (hP.generating heq' hputs').once
  rw [hthread] at ht'
  obtain rfl := Option.some.inj (ht.symm.trans ht')
  have hown : put' ∈ own put.thread (after' ++ put' :: before') := mem_own.mpr ⟨hmem, hthread⟩
  rcases hkind with ⟨-, hsome, hfirst⟩ | ⟨-, hnone, hnew⟩
  · rcases hkind' with ⟨hset, -⟩ | ⟨-, hnone', -⟩
    · obtain ⟨value, hop⟩ := Op.rotates_inv hset
      simpa [hop, Op.isSet] using hfirst put' hown
    · exact hsome hnone'
  · rcases hkind' with ⟨-, hsome', -⟩ | ⟨hstamps', -, -⟩
    · exact hsome' hnone
    · obtain ⟨i, o, r, w'⟩ := put'
      cases o with
      | add key value timeout =>
        obtain ⟨rfl, -⟩ : key = generationPrefix ++ str pk ∧ r = true := by
          simpa [puts] using hputs'
        exact hnew _ hown value timeout rfl
      | set => simp [Op.stamps] at hstamps'
      | _ => simp [puts] at hputs'

theorem Underway.proved_stamp {token : String} {proof : Event sig Store} {pk : Nat}
    (hproof : proof ∈ P.history) (hproves : proof.op.proves pk = true) {v : Value}
    {timeout : Option Time}
    (hset : Did proof.thread P.history (.set (tokenPrefix ++ token) v timeout) ()) :
    Urlsafe token ∧ ∃ g expires t, v = .payload ⟨str pk, some g, expires⟩ ∧
      P.tasks[proof.thread]? = some t ∧ t.call.rotates = none ∧
      Generation proof.thread P.history pk g := by
  obtain ⟨after, before, heq⟩ := List.append_of_mem hproof
  obtain ⟨t, ht, hmay⟩ := hP.reached.allowed service_obeys heq
  obtain ⟨user, verifier, at_, credentials, hcall, rfl⟩ : ∃ user verifier at_ credentials,
      t.call = .issue user verifier at_ credentials ∧ user.pk = pk := by
    generalize own proof.thread before = past at hmay
    generalize t.call = c at hmay
    generalize proof.op = o at hmay hproves
    cases hmay with
    | verify => exact ⟨_, _, _, _, rfl, by simpa [Op.proves] using hproves⟩
    | rotateDraw | rotate | legacyGet | legacyDelete | legacyDrop | now | send =>
      simp [Op.proves] at hproves
    | _ => simp [Op.proves] at hproves
  obtain ⟨t', before', after', w', ht', heq', hmay'⟩ := hP.may hset
  obtain rfl := Option.some.inj (ht.symm.trans ht')
  have hsub : own proof.thread before' ⊆ P.history := fun e he =>
    heq' ▸ List.mem_append_right _ (List.mem_cons_of_mem _ (own_subset _ before' he))
  rcases hmay'.set_inv with ⟨token', hkey, hmint⟩ | ⟨pk', -, -, hrotate⟩
  · obtain rfl := key_inj.mp hkey
    obtain ⟨user', verifier', at_', credentials', g, s, hc, rfl, -, -, hg⟩ := hmint.stamped
    obtain ⟨rfl, -⟩ := Call.issue.inj (hcall.symm.trans hc)
    refine ⟨hP.drew_urlsafe (hmint.drew.mono hsub), g, _, t, rfl, ht, ?_, hg.mono hsub⟩
    rw [hcall]
    rfl
  · obtain ⟨user', hrotates, -⟩ := hrotate.rotates
    rw [hcall] at hrotates
    cases hrotates

theorem Underway.settled_refuses {Q : Pool} (hQ : Underway cfg drifts admits w Q)
    (hsteps : Steps (service cfg drifts admits) Q P) (hsettled : ProvesAfterCommit P.history)
    {pk : Nat}
    {commit : Event sig Store} (hchanged : Changed pk commit Q.history) {token : String}
    (houtdated : Outdated pk commit token P.history) {i : Nat} (hi : Q.tasks.length ≤ i)
    {user : User} {at_ : Option Time} {fresh : Bool} : ¬ Accepted P i token user at_ fresh := by
  intro htask
  obtain ⟨proof, hproof, hproves, hearly, ⟨j, o, r, w₁⟩, hstored, hissuer, v, timeout, hop⟩ := houtdated
  obtain rfl : o = .set (tokenPrefix ++ token) v timeout := hop
  have hset : Did proof.thread P.history (.set (tokenPrefix ++ token) v timeout) () :=
    hissuer ▸ ⟨w₁, hstored⟩
  obtain ⟨htoken, g, expires, t, rfl, ht, hissue, hstamp⟩ := hP.proved_stamp hproof hproves hset
  obtain ⟨data, hchecked, hw⟩ := hP.accepted htask
  obtain rfl := Value.payload.inj (hP.same_value htoken ⟨_, _, .inl hset⟩ hw)
  obtain ⟨g', hg', w', hmem⟩ := hP.read_generation htoken htask hw hchecked
  obtain rfl := Option.some.inj hg'
  obtain rfl : pk = user.pk := str_injective hchecked.owner
  obtain ⟨change, hchange, hthread, hrotates⟩ := hchanged.rotated
  have hgrows := hsteps.grows.1
  -- whoever proved itself before the commit came to the generation before the change
  have hstamps {stamp : Event sig Store} (hbefore : Before P.history change stamp)
      (hs : stamp.op.stamps user.pk = true) (hown : stamp.thread = proof.thread) : False :=
    hearly (hsettled user.pk change commit proof stamp hrotates hchanged.committed.2 hproves hs
      hthread hown.symm (hgrows.subset hchanged.committed.1) hproof hbefore)
  -- the consumer read the generation after the change
  obtain ⟨after, before, heq⟩ := List.append_of_mem hmem
  have hlate : Q.history <:+ before := by
    rcases suffix_or (heq ▸ hgrows) with hs | hs
    · have hlt := (Reachable.obeys service_obeys hQ.reached).1 _ (hs.subset (List.mem_cons_self ..))
      exact absurd hlt (not_lt.mpr hi)
    · exact hs
  obtain ⟨newer, put, older, rfl, ⟨later, hput⟩, hputs, hvalue, hnewest⟩ :=
    hP.read_newest heq ⟨i, w', rfl⟩
  have hchangePuts : puts (generationPrefix ++ str user.pk) change = true := by
    obtain ⟨j, o, r, w''⟩ := change
    obtain ⟨value, rfl⟩ := Op.rotates_inv hrotates
    simp [puts]
  have hsince : change ∈ put :: older := by
    rcases List.mem_append.mp (hlate.subset hchange) with hnew | hold
    · simp [hnewest change hnew] at hchangePuts
    · exact hold
  have hgenerating := hP.generating hput hputs
  obtain ⟨g₁, hg₁, hdrew⟩ := hgenerating.drew
  obtain rfl : g = g₁ := by simpa [hvalue] using hg₁
  cases hstamp with
  | drawn _ hdrew' =>
    -- the token's issuer wrote what the consumer read
    have hself : put.thread = proof.thread := hP.sourced.once _ _ _ hdrew hdrew'
    obtain ⟨t', ht', ⟨-, hsome, -⟩ | ⟨hstamp, -⟩⟩ := hgenerating.once
    · rw [hself] at ht'
      obtain rfl := Option.some.inj (ht.symm.trans ht')
      exact hsome hissue
    · rcases List.mem_cons.mp hsince with rfl | hold
      · obtain ⟨value, hop⟩ := Op.rotates_inv hrotates
        simp [hop, Op.stamps] at hstamp
      · exact hstamps ⟨_, older, hput, hold⟩ hstamp hself
  | @read value hread hg =>
    -- the token's issuer read what the same call had written
    obtain ⟨j, g₂, rfl, -⟩ := hP.generation_wrote (hP.sourced.got _ _ _ hread)
    obtain rfl : g = g₂ := hg
    obtain ⟨w'', hmem'⟩ := hread
    obtain ⟨after', before', heq'⟩ := List.append_of_mem hmem'
    have hunchanged : change ∉ before' := fun hbefore =>
      hstamps ⟨after', before', heq', hbefore⟩ (by simp [Op.stamps]) rfl
    obtain ⟨newer', put', older', rfl, ⟨later', hput'⟩, hputs', hvalue', -⟩ :=
      hP.read_newest heq' ⟨_, _, rfl⟩
    obtain ⟨g₃, hg₃, hdrew'⟩ := (hP.generating hput' hputs').drew
    obtain rfl : g = g₃ := by simpa [hvalue'] using hg₃
    have hself : put'.thread = put.thread := hP.sourced.once _ _ _ hdrew' hdrew
    rcases suffix_or (hput ▸ (⟨_, hput'.symm⟩ : put' :: older' <:+ P.history)) with hs | hs
    · rcases List.suffix_cons_iff.mp hs with hsame | hs
      · exact hunchanged (List.mem_append_right _ (hsame ▸ hsince))
      · have holder : put ∈ older' := hs.subset (List.mem_cons_self ..)
        exact hP.generated_once hput' holder hputs' hputs hself.symm
    · exact hP.generated_once hput (hs.subset (List.mem_cons_self ..)) hputs hputs' hself

end Underway

/-- Where every change is settled, every change closes the tokens issued before it. -/
theorem settled_closes (hempty : Empty w) {P : Pool}
    (hreached : Reachable (service cfg Erodes fun _ _ _ _ _ => True) w P)
    (hsettled : ProvesAfterCommit P.history) : Closes cfg w P := by
  intro Q pk commit token i user at_ fresh hreach hsteps hchanged houtdated hi
  have hP : Underway cfg Erodes (fun _ _ _ _ _ => True) w P := ⟨fun _ _ he => he, hempty, hreached⟩
  have hQ : Underway cfg Erodes (fun _ _ _ _ _ => True) w Q := ⟨fun _ _ he => he, hempty, hreach⟩
  exact hP.settled_refuses hQ hsteps hsettled hchanged houtdated hi

theorem not_before (n : Nat) {p q : Event sig Store → Bool} (hlate : (h.take n).all (!p ·))
    (hearly : (h.drop n).all (!q ·)) {e e' : Event sig Store} (hq : q e = true)
    (hp : p e' = true) : ¬ Before h e e' := by
  rintro ⟨after, before, heq, hbefore⟩
  have hsuffix : h.drop n <:+ after ++ e' :: before := by
    rw [← heq]
    exact List.drop_suffix n h
  rcases suffix_or hsuffix with hs | ⟨mid, hs⟩
  · have hnone := List.all_eq_true.mp hearly e (hs.subset (List.mem_cons_of_mem _ hbefore))
    simp [hq] at hnone
  · have hparts : h.take n ++ h.drop n = (after ++ e' :: mid) ++ h.drop n := by
      rw [List.take_append_drop, List.append_assoc, List.cons_append, hs, heq]
    have hnone := List.all_eq_true.mp hlate e' (by simp [List.append_cancel_right hparts])
    simp [hp] at hnone

def Op.lasts : Op → Bool
  | .set _ _ none => true
  | _ => false

theorem settled_of_apart (n i : Nat)
    (hproofs : h.all fun e => match e.op with
      | .verify .. => decide (e.thread = i)
      | _ => true)
    (hlate : (h.take n).all fun e => !decide (e.thread = i))
    (hearly : (h.drop n).all fun e => !e.op.lasts) : ProvesAfterCommit h := by
  intro pk change commit proof stamp hrotates _ hproves _ _ hthread _ hproof hbefore
  have hi : proof.thread = i := by
    have hchecked := List.all_eq_true.mp hproofs proof hproof
    cases hop : proof.op <;> simp [hop, Op.proves] at hproves hchecked
    exact hchecked
  have hlasts : change.op.lasts = true := by
    obtain ⟨value, hop⟩ := Op.rotates_inv hrotates
    rw [hop]
    rfl
  exact absurd hbefore (not_before n hlate hearly hlasts (by simpa [← hthread] using hi))

namespace Overlap

def morning : Store := { clock := 1000, password := fun _ => "secret" }

def alice : User := { pk := 1 }

def platform : System sig Exn Store Call.Ans :=
  service (sample false false) Erodes fun _ _ _ _ _ => True

def played (P : Pool) (ms : List (Move Call)) : Pool := (P.play platform ms).getD P

def signIn : Move Call := .start (.issue alice "password" none [("password", "secret")])

def change : Move Call := .start (.changePassword alice "changed")

def changed : Pool := played { world := morning }
  (signIn :: List.replicate 8 (.act 0) ++ change :: List.replicate 6 (.act 1))

def refused : Pool :=
  played changed (.start (.consume (some "a") alice none false) :: List.replicate 6 (.act 2))

theorem changed_reached : Reachable platform morning changed := by
  have hplay : Lib.Shared.Pool.play platform { world := morning }
      (signIn :: List.replicate 8 (.act 0) ++ change :: List.replicate 6 (.act 1)) =
        some changed := rfl
  exact Lib.Shared.Pool.play_steps (fun _ _ _ _ _ => trivial) hplay

theorem refused_steps : Steps platform changed refused := by
  have hplay : Lib.Shared.Pool.play platform changed
      (.start (.consume (some "a") alice none false) :: List.replicate 6 (.act 2)) =
        some refused := rfl
  exact Lib.Shared.Pool.play_steps (fun _ _ _ _ _ => trivial) hplay

theorem refused_settled : ProvesAfterCommit refused.history :=
  settled_of_apart 12 0 (by decide) (by decide) (by decide)

theorem refused_closes : (∃ commit, Changed 1 commit changed.history ∧
    Outdated 1 commit "a" refused.history) ∧ Closes (sample false false) morning refused := by
  refine ⟨?_, settled_closes (fun _ => rfl) (changed_reached.trans refused_steps) refused_settled⟩
  refine ⟨changed.history.head (by decide), ⟨⟨List.head_mem _, rfl⟩, ?_⟩, ?_⟩
  · exact ⟨changed.history.get ⟨3, by decide⟩, List.get_mem .., rfl, rfl⟩
  · refine ⟨refused.history.get ⟨19, by decide⟩, List.get_mem .., rfl, ?_,
      refused.history.get ⟨13, by decide⟩, List.get_mem .., rfl, _, _, rfl⟩
    have hlate : (refused.history.take 12).all (fun e => !e.op.proves 1) := by decide
    have hearly : (refused.history.drop 12).all (fun e => !e.op.commits 1) := by decide
    exact not_before 12 hlate hearly rfl rfl

def overtaken : Pool := played { world := morning }
  (change :: List.replicate 3 (.act 0) ++ signIn :: List.replicate 6 (.act 1) ++
    List.replicate 3 (.act 0))

def accepted : Pool :=
  played overtaken (.start (.consume (some "aa") alice none false) :: List.replicate 6 (.act 2))

theorem overtaken_reached : Reachable platform morning overtaken := by
  have hplay : Lib.Shared.Pool.play platform { world := morning }
      (change :: List.replicate 3 (.act 0) ++ signIn :: List.replicate 6 (.act 1) ++
        List.replicate 3 (.act 0)) = some overtaken := rfl
  exact Lib.Shared.Pool.play_steps (fun _ _ _ _ _ => trivial) hplay

theorem accepted_steps : Steps platform overtaken accepted := by
  have hplay : Lib.Shared.Pool.play platform overtaken
      (.start (.consume (some "aa") alice none false) :: List.replicate 6 (.act 2)) =
        some accepted := rfl
  exact Lib.Shared.Pool.play_steps (fun _ _ _ _ _ => trivial) hplay

theorem overtaken_outlives : Reachable platform morning accepted ∧
    ¬ Closes (sample false false) morning accepted := by
  refine ⟨overtaken_reached.trans accepted_steps, fun h => ?_⟩
  have hchanged : Changed 1 (overtaken.history.head (by decide)) overtaken.history :=
    ⟨⟨List.head_mem _, rfl⟩, overtaken.history.get ⟨9, by decide⟩, List.get_mem .., rfl, rfl⟩
  have houtdated : Outdated 1 (overtaken.history.head (by decide)) "aa" accepted.history := by
    refine ⟨accepted.history.get ⟨14, by decide⟩, List.get_mem .., rfl, ?_,
      accepted.history.get ⟨10, by decide⟩, List.get_mem .., rfl, _, _, rfl⟩
    have hlate : (accepted.history.take 12).all (fun e => !e.op.proves 1) := by decide
    have hearly : (accepted.history.drop 12).all (fun e => !e.op.commits 1) := by decide
    exact not_before 12 hlate hearly rfl rfl
  exact h overtaken 1 _ "aa" 2 alice none false overtaken_reached accepted_steps hchanged houtdated
    (by decide) rfl

end Overlap

end ScopedAccess.ReAuth
