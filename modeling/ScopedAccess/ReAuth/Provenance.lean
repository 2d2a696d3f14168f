import ScopedAccess.ReAuth.Discipline
import ScopedAccess.ReAuth.Runs

namespace ScopedAccess.ReAuth

open Lib.Shared (System Event Obeys Reachable Fired own mem_own)

abbrev Pool := Lib.Shared.Pool sig Exn Store Call.Ans

/-- Time goes on and entries go, at any moment. -/
structure Erodes (w w' : Store) : Prop where
  cache : ∀ key, w'.cache key = w.cache key ∨ w'.cache key = none
  clock : w.clock ≤ w'.clock
  drawn : w'.drawn = w.drawn
  password : w'.password = w.password

def Ages (w w' : Store) : Prop := ∃ t, w' = { w with clock := w.clock + t }

theorem Ages.erodes {w w' : Store} (h : Ages w w') : Erodes w w' := by
  obtain ⟨t, rfl⟩ := h
  exact ⟨fun _ => .inl rfl, Nat.le_add_right _ _, rfl, rfl⟩

def service (cfg : Settings) (drifts : Store → Store → Prop)
    (admits : Store → Trace → Nat → Call → Op → Prop) : System sig Exn Store Call.Ans where
  act := act cfg
  body := Call.body cfg
  drifts := drifts
  admits := admits

variable {cfg : Settings}

theorem service_obeys {drifts : Store → Store → Prop}
    {admits : Store → Trace → Nat → Call → Op → Prop}
    (i : Nat) (c : Call) : Obeys (service cfg drifts admits).act i (May cfg i c) (c.Post cfg i)
      ((service cfg drifts admits).body c) [] :=
  body_obeys cfg i c

theorem Did.cons_inv {i : Nat} {e : Event sig Store} {h : Trace} {o : Op} {r : o.Res}
    (hd : Did i (e :: h) o r) : (∃ w, (⟨i, o, r, w⟩ : Event sig Store) = e) ∨ Did i h o r := by
  obtain ⟨w, hw⟩ := hd
  exact (List.mem_cons.mp hw).imp (fun heq => ⟨w, heq⟩) fun hmem => ⟨w, hmem⟩

theorem did_own {i : Nat} {h : Trace} {o : Op} {r : o.Res} (hd : Did i h o r) :
    Did i (own i h) o r :=
  hd.imp fun _ hw => mem_own.mpr ⟨hw, rfl⟩

theorem own_subset (i : Nat) (h : Trace) : own i h ⊆ h := fun _ he => (mem_own.mp he).1

def Wrote (h : Trace) (key : String) (v : Value) : Prop :=
  ∃ i timeout, Did i h (.set key v timeout) () ∨ Did i h (.add key v timeout) true

theorem Wrote.mono {h h' : Trace} {key : String} {v : Value} (hw : Wrote h key v) (hsub : h ⊆ h') :
    Wrote h' key v :=
  hw.imp fun _ hw => hw.imp fun _ hw => hw.imp (·.mono hsub) (·.mono hsub)

/-- What is stored or read was written, and each value drawn is a new one. -/
structure Sourced (cfg : Settings) (w : Store) (h : Trace) : Prop where
  stored : ∀ key e, w.cache key = some e → Wrote h key e.value
  got : ∀ i key v, Did i h (.get key) (some v) → Wrote h key v
  popped : ∀ i key v, Did i h (.getdel key) (some v) → Wrote h key v
  drew : ∀ i nbytes v w', (⟨i, .tokenUrlsafe nbytes, v, w'⟩ : Event sig Store) ∈ h →
    v = cfg.secret w'.drawn ∧ w'.drawn < w.drawn
  once : ∀ i j value, Drew i h value → Drew j h value → i = j

variable {w w' : Store} {h : Trace}

theorem Sourced.erodes (hs : Sourced cfg w h) (he : Erodes w w') : Sourced cfg w' h where
  stored key e hcache := by
    rcases he.cache key with heq | hnone
    · exact hs.stored key e (heq ▸ hcache)
    · simp [hnone] at hcache
  got := hs.got
  popped := hs.popped
  drew i nbytes v w'' hmem := he.drawn ▸ hs.drew i nbytes v w'' hmem
  once := hs.once

theorem Sourced.known (hs : Sourced cfg w h) {i : Nat} {value : String} (hd : Drew i h value) :
    ∃ n < w.drawn, value = cfg.secret n := by
  obtain ⟨nbytes, w', hmem⟩ := hd
  obtain ⟨rfl, hlt⟩ := hs.drew _ _ _ _ hmem
  exact ⟨w'.drawn, hlt, rfl⟩

theorem Drew.cons_inv {i : Nat} {e : Event sig Store} {value : String} (hd : Drew i (e :: h) value) :
    (∃ nbytes w, (⟨i, .tokenUrlsafe nbytes, value, w⟩ : Event sig Store) = e) ∨ Drew i h value := by
  obtain ⟨nbytes, hd⟩ := hd
  exact hd.cons_inv.imp (fun heq => ⟨nbytes, heq⟩) fun hd => ⟨nbytes, hd⟩

theorem act_drawn (o : Op) (w : Store) : w.drawn ≤ (act cfg o w).2.drawn := by
  cases o with
  | tokenUrlsafe => exact Nat.le_succ _
  | add => simp only [act]; split <;> rfl
  | get | set | delete | getdel | now | verify | send | writePassword | commit => exact le_rfl

theorem act_stored {o : Op} {key : String} {e : Entry}
    (he : (act cfg o w).2.cache key = some e) : w.cache key = some e ∨
      ∃ timeout, o = .set key e.value timeout ∨
        o = .add key e.value timeout ∧ (w.read key).isSome = false := by
  have hput {key' : String} {value : Value} {timeout : Option Time}
      (he : (w.put key' (some (w.entry value timeout))).cache key = some e) :
      w.cache key = some e ∨ key' = key ∧ value = e.value := by
    rw [Store.put_cache] at he
    split at he
    · rename_i hkey
      cases he
      exact .inr ⟨hkey.symm, rfl⟩
    · exact .inl he
  have hdrop {key' : String} (he : (w.put key' none).cache key = some e) :
      w.cache key = some e := by
    rw [Store.put_cache] at he
    split at he
    · cases he
    · exact he
  cases o with
  | set key' value timeout =>
    exact (hput he).imp_right fun ⟨hkey, hvalue⟩ => ⟨timeout, .inl (by rw [hkey, hvalue])⟩
  | add key' value timeout =>
    cases hread : (w.read key').isSome with
    | true => exact .inl (by simpa [act, hread] using he)
    | false =>
      simp only [act, hread, Bool.false_eq_true, if_false] at he
      refine (hput he).imp_right fun ⟨hkey, hvalue⟩ => ⟨timeout, .inr ⟨by rw [hkey, hvalue], ?_⟩⟩
      rw [← hkey, hread]
  | delete key' => exact .inl (hdrop he)
  | getdel key' => exact .inl (hdrop he)
  | get | now | tokenUrlsafe | verify | send | writePassword | commit => exact .inl he

theorem Sourced.act (hs : Sourced cfg w h) (i : Nat) (o : Op) :
    Sourced cfg (ReAuth.act cfg o w).2 (⟨i, o, (ReAuth.act cfg o w).1, w⟩ :: h) := by
  have hsub := List.subset_cons_self (⟨i, o, (ReAuth.act cfg o w).1, w⟩ : Event sig Store) h
  have hread {key : String} {v : Value} (hv : w.read key = some v) : Wrote h key v := by
    obtain ⟨e, he, -, rfl⟩ := Store.read_some.mp hv
    exact hs.stored key e he
  have hnew {j : Nat} {value : String} {nbytes : Nat} {w' : Store} {r : o.Res}
      (hr : r = (ReAuth.act cfg o w).1)
      (heq : (⟨j, .tokenUrlsafe nbytes, value, w'⟩ : Event sig Store) = ⟨i, o, r, w⟩) :
      j = i ∧ w' = w ∧ value = cfg.secret w.drawn ∧ w.drawn < (ReAuth.act cfg o w).2.drawn := by
    cases heq
    exact ⟨rfl, rfl, hr, Nat.lt_succ_self _⟩
  refine ⟨fun key e he => ?_, fun j key v hd => ?_, fun j key v hd => ?_,
    fun j nbytes v w' hmem => ?_, fun j k value hj hk => ?_⟩
  · rcases act_stored he with he | ⟨timeout, rfl | ⟨rfl, hfree⟩⟩
    · exact (hs.stored key e he).mono hsub
    · exact ⟨i, timeout, .inl ⟨w, List.mem_cons_self ..⟩⟩
    · refine ⟨i, timeout, .inr ⟨w, ?_⟩⟩
      simp [ReAuth.act, hfree]
  · rcases hd.cons_inv with ⟨w', heq⟩ | hd
    · generalize hr : (ReAuth.act cfg o w).1 = r at heq
      cases heq
      exact (hread hr).mono (List.subset_cons_self _ _)
    · exact (hs.got j key v hd).mono hsub
  · rcases hd.cons_inv with ⟨w', heq⟩ | hd
    · generalize hr : (ReAuth.act cfg o w).1 = r at heq
      cases heq
      exact (hread hr).mono (List.subset_cons_self _ _)
    · exact (hs.popped j key v hd).mono hsub
  · rcases List.mem_cons.mp hmem with heq | hmem
    · obtain ⟨-, rfl, rfl, hlt⟩ := hnew rfl heq
      exact ⟨rfl, hlt⟩
    · obtain ⟨hv, hlt⟩ := hs.drew j nbytes v w' hmem
      exact ⟨hv, hlt.trans_le (act_drawn o w)⟩
  · have hold {j : Nat} (hd : Drew j h (cfg.secret w.drawn)) : False := by
      obtain ⟨n, hn, heq⟩ := hs.known hd
      exact hn.ne' (cfg.secret_injective heq)
    rcases hj.cons_inv with ⟨nb, w', heq⟩ | hj <;> rcases hk.cons_inv with ⟨nb', w'', heq'⟩ | hk
    · exact (hnew rfl heq).1.trans (hnew rfl heq').1.symm
    · obtain ⟨-, -, rfl, -⟩ := hnew rfl heq
      exact (hold hk).elim
    · obtain ⟨-, -, rfl, -⟩ := hnew rfl heq'
      exact (hold hj).elim
    · exact hs.once j k value hj hk

def Empty (w : Store) : Prop := ∀ key, w.cache key = none

structure Underway (cfg : Settings) (drifts : Store → Store → Prop)
    (admits : Store → Trace → Nat → Call → Op → Prop) (w : Store) (P : Pool) : Prop where
  erodes : ∀ w w', drifts w w' → Erodes w w'
  empty : Empty w
  reached : Reachable (service cfg drifts admits) w P

variable {drifts : Store → Store → Prop} {admits : Store → Trace → Nat → Call → Op → Prop} {P : Pool}

theorem Underway.sourced (h : Underway cfg drifts admits w P) :
    Sourced cfg P.world P.history := by
  refine h.reached.invariant service_obeys (Sourced cfg) ?_
    (fun hs hd => hs.erodes (h.erodes _ _ hd)) fun _ hs _ _ _ => hs.act _ _
  exact ⟨by simp [h.empty _], by simp [Did], by simp [Did], by simp, by simp [Drew, Did]⟩

section Inversion

variable {i : Nat} {c : Call} {key : String} {value : Value} {timeout : Option Time}

structure Minting (cfg : Settings) (i : Nat) (c : Call) (h : Trace) (token : String)
    (value : Value) : Prop where
  drew : Drew i h token
  first : ∀ e ∈ h, e.op.isSet = false
  stamped : ∃ user verifier at_ credentials g t, c = .issue user verifier at_ credentials ∧
    value = .payload ⟨str user.pk, some g, t + cfg.ttl⟩ ∧ Timed i h at_ t ∧
    Did i h (.verify verifier user.pk credentials) true ∧ Generation i h user.pk g

structure Rotating (i : Nat) (c : Call) (h : Trace) (pk : Nat) (value : Value) : Prop where
  first : ∀ e ∈ h, e.op.isSet = false
  drew : ∃ g, value = .text g ∧ Drew i h g
  rotates : ∃ user, c.rotates = some user ∧ user.pk = pk

structure Marking (cfg : Settings) (i : Nat) (c : Call) (h : Trace) (token : String) : Prop where
  window : cfg.window = true
  checked : ∃ user at_ fresh data, c = .consume (some token) user at_ fresh ∧
    Did i h (.get (tokenPrefix ++ token)) (some (.payload data)) ∧ Checked i h data user at_

theorem May.set_inv (hmay : May cfg i c h (.set key value timeout)) :
    (∃ token, key = tokenPrefix ++ token ∧ Minting cfg i c h token value) ∨
      ∃ pk, key = generationPrefix ++ str pk ∧ timeout = none ∧ Rotating i c h pk value := by
  cases hmay with
  | mint hproof htime hdrew hg hfirst =>
    exact .inl ⟨_, rfl, hdrew, hfirst, _, _, _, _, _, _, rfl, rfl, htime, hproof, hg⟩
  | rotate hc _ hdrew hfirst => exact .inr ⟨_, rfl, rfl, hfirst, ⟨_, rfl, hdrew⟩, _, hc, rfl⟩

theorem May.add_inv (hmay : May cfg i c h (.add key value timeout)) :
    (∃ pk g, key = generationPrefix ++ str pk ∧ value = .text g ∧ timeout = none ∧
        c.rotates = none ∧ Drew i h g) ∨
      (∃ token, key = usedPrefix ++ token ∧ value = .flag ∧ timeout = some (cfg.ttl * 2) ∧
        Marking cfg i c h token) ∨
      ∃ token, key = consumedPrefix ++ token ∧ value = .flag ∧ cfg.window = false := by
  cases hmay with
  | issueAdd _ hdrew | consumeAdd _ _ _ hdrew => exact .inl ⟨_, _, rfl, rfl, rfl, rfl, hdrew⟩
  | mark hwindow hread hchecked =>
    exact .inr (.inl ⟨_, rfl, rfl, rfl, hwindow, _, _, _, _, rfl, hread, hchecked⟩)
  | claim hwindow => exact .inr (.inr ⟨_, rfl, rfl, hwindow⟩)

end Inversion

theorem Drew.of_own {i : Nat} {before after : Trace} {e : Event sig Store} {value : String}
    (hd : Drew i (own i before) value) : Drew i (after ++ e :: before) value :=
  hd.mono fun _ he => List.mem_append_right _ (List.mem_cons_of_mem _ (own_subset i before he))

def Issued (P : Pool) (k : Nat) (owner : User) (at_ : Option Time) (token : String) : Prop :=
  ∃ verifier credentials,
    P.tasks[k]? = some ⟨.issue owner verifier at_ credentials, .done (some token)⟩

def Accepted (P : Pool) (i : Nat) (token : String) (user : User) (at_ : Option Time)
    (fresh : Bool) : Prop :=
  P.tasks[i]? = some ⟨.consume (some token) user at_ fresh, .done true⟩

section Allowed

variable (hP : Underway cfg drifts admits w P)
include hP

theorem Underway.may {i : Nat} {o : Op} {r : o.Res} (hd : Did i P.history o r) :
    ∃ t before after w', P.tasks[i]? = some t ∧ P.history = after ++ ⟨i, o, r, w'⟩ :: before ∧
      May cfg i t.call (own i before) o := by
  obtain ⟨w', hmem⟩ := hd
  obtain ⟨after, before, heq⟩ := List.append_of_mem hmem
  obtain ⟨t, ht, hmay⟩ := hP.reached.allowed service_obeys heq
  exact ⟨t, before, after, w', ht, heq, hmay⟩

theorem Underway.at_event {after before : Trace} {e : Event sig Store}
    (heq : P.history = after ++ e :: before) :
    ∃ Q, Underway cfg drifts admits w Q ∧ Q.history = before ∧ Q.world = e.before ∧
      e.res = (act cfg e.op e.before).1 := by
  obtain ⟨Q, c, k, hreach, -, hworld, hhistory, -, -, hres⟩ := hP.reached.fired heq
  exact ⟨Q, ⟨hP.erodes, hP.empty, hreach⟩, hhistory, hworld, hres⟩

theorem Underway.drew_urlsafe {i : Nat} {value : String} (hd : Drew i P.history value) :
    Urlsafe value := by
  obtain ⟨n, -, rfl⟩ := hP.sourced.known hd
  exact cfg.secret_urlsafe n

theorem Underway.generation_wrote {pk : Nat} {v : Value}
    (hw : Wrote P.history (generationPrefix ++ str pk) v) :
    ∃ i g, v = .text g ∧ Drew i P.history g := by
  obtain ⟨i, timeout, hset | hadd⟩ := hw
  · obtain ⟨t, before, after, w', ht, heq, hmay⟩ := hP.may hset
    rcases hmay.set_inv with ⟨token, hkey, hmint⟩ | ⟨pk', hkey, -, hrotate⟩
    · have hdrew : Drew i P.history token := heq ▸ hmint.drew.of_own
      exact absurd hkey.symm (generationFamily.key_ne
        (hP.drew_urlsafe hdrew) _)
    · obtain ⟨g, rfl, hdrew⟩ := hrotate.drew
      exact ⟨i, g, rfl, heq ▸ hdrew.of_own⟩
  · obtain ⟨t, before, after, w', ht, heq, hmay⟩ := hP.may hadd
    rcases hmay.add_inv with ⟨pk', g, hkey, rfl, -, -, hdrew⟩ | ⟨token, hkey, -⟩ | ⟨token, hkey, -⟩
    · exact ⟨i, g, rfl, heq ▸ hdrew.of_own⟩
    · exact absurd hkey (generation_ne_used _ _)
    · exact absurd hkey (generation_ne_consumed _ _)

theorem Underway.generation_drew {i pk : Nat} {g : String}
    (hg : Generation i P.history pk g) : ∃ j, Drew j P.history g := by
  cases hg with
  | drawn _ hdrew => exact ⟨i, hdrew⟩
  | read hread hg =>
    have hwrote := hP.sourced.got _ _ _ hread
    obtain ⟨j, g', rfl, hdrew⟩ := hP.generation_wrote hwrote
    exact ⟨j, hg ▸ hdrew⟩

theorem Underway.token_wrote {token : String} (htoken : Urlsafe token) {v : Value}
    (hw : Wrote P.history (tokenPrefix ++ token) v) :
    ∃ i timeout, Did i P.history (.set (tokenPrefix ++ token) v timeout) () := by
  obtain ⟨i, timeout, hset | hadd⟩ := hw
  · exact ⟨i, timeout, hset⟩
  · obtain ⟨t, before, after, w', ht, heq, hmay⟩ := hP.may hadd
    rcases hmay.add_inv with ⟨pk', g, hkey, -⟩ | ⟨token', hkey, -⟩ | ⟨token', hkey, -⟩
    · exact absurd hkey (generationFamily.key_ne htoken _)
    · exact absurd hkey (usedFamily.key_ne htoken _)
    · exact absurd hkey (consumedFamily.key_ne htoken _)

theorem Underway.minted_once {token : String} (htoken : Urlsafe token) {e e' : Event sig Store}
    {after before : Trace} (heq : P.history = after ++ e :: before) {v v' : Value}
    {timeout timeout' : Option Time} (he : e.op = .set (tokenPrefix ++ token) v timeout)
    (hmem : e' ∈ before) : e'.op ≠ .set (tokenPrefix ++ token) v' timeout' := by
  intro he'
  have hminting {e : Event sig Store} {v : Value} {timeout : Option Time} {after before : Trace}
      (heq : P.history = after ++ e :: before)
      (he : e.op = .set (tokenPrefix ++ token) v timeout) :
      ∃ c, Minting cfg e.thread c (own e.thread before) token v := by
    obtain ⟨t, -, hmay⟩ := hP.reached.allowed service_obeys heq
    rw [he] at hmay
    rcases hmay.set_inv with ⟨token', hkey, hmint⟩ | ⟨pk', hkey, -⟩
    · exact ⟨t.call, key_inj.mp hkey ▸ hmint⟩
    · exact absurd hkey (generationFamily.key_ne htoken _)
  obtain ⟨c, hmint⟩ := hminting heq he
  obtain ⟨after', before', rfl⟩ := List.append_of_mem hmem
  have heq' : P.history = (after ++ e :: after') ++ e' :: before' := by simp [heq]
  obtain ⟨c', hmint'⟩ := hminting heq' he'
  have hthread : e'.thread = e.thread :=
    hP.sourced.once e'.thread e.thread token
      (heq' ▸ hmint'.drew.of_own) (heq ▸ hmint.drew.of_own)
  have hunset := hmint.first e' (mem_own.mpr ⟨hmem, hthread⟩)
  rw [he'] at hunset
  cases hunset

end Allowed

end ScopedAccess.ReAuth
