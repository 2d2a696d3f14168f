import ScopedAccess.ReAuth.Retained
import ScopedAccess.ReAuth.Tokens

namespace ScopedAccess.ReAuth

open Relation (ReflTransGen)
open Lib.Shared (System Event Reachable Steps Move own mem_own eq_or_before exists_newest suffix_or)

def marks (cfg : Settings) (token : String) : Op :=
  .add (usedPrefix ++ token) .flag (some (cfg.ttl * 2))

/-- A fresh consumer that comes to the marker of a used token comes less than twice the
TTL after it was made. -/
def Prompt (cfg : Settings) (w : Store) (h : Trace) (_ : Nat) (c : Call) (o : Op) : Prop :=
  ∀ token user at_, c = .consume (some token) user at_ true → o = marks cfg token →
    (∃ e ∈ h, e.op = marks cfg token) → ∃ i w',
      (⟨i, .add (usedPrefix ++ token) .flag (some (cfg.ttl * 2)), true, w'⟩ : Event sig Store) ∈ h ∧
        w.clock < w'.clock + cfg.ttl * 2

/-- What window mode promises for a token that call `k` issued. -/
structure Elects (cfg : Settings) (admits : Store → Trace → Nat → Call → Op → Prop) (w : Store)
    (P : Pool) (k : Nat) (owner : User) (issuedAt : Option Time) (token : String) : Prop where
  one : ∀ (i j : Nat) (user user' : User) (at_ at_' : Option Time),
    Accepted P i token user at_ true → Accepted P j token user' at_' true → i = j
  first : ∀ (Q : Pool) (i j : Nat) (user user' : User) (at_ at_' : Option Time) (fresh : Bool),
    Reachable (service cfg Ages admits) w Q → Steps (service cfg Ages admits) Q P →
    Accepted P i token user at_ true → Accepted Q j token user' at_' fresh →
    Did i Q.history (.add (usedPrefix ++ token) .flag (some (cfg.ttl * 2))) true
  unexpired : ∀ (i : Nat) (user : User) (at_ : Option Time) (fresh : Bool),
    Accepted P i token user at_ fresh →
    ∃ s t, Timed k P.history issuedAt s ∧ Timed i P.history at_ t ∧ t < s + cfg.ttl
  current : ∀ (Q R : Pool) (m i : Nat) (owner' user : User) (at_ : Option Time) (fresh : Bool),
    Reachable (service cfg Ages admits) w Q → Steps (service cfg Ages admits) Q R →
    Steps (service cfg Ages admits) R P → Issued Q k owner issuedAt token → Q.tasks.length ≤ m →
    R.tasks[m]? = some ⟨.invalidateAllForUser owner', .done ()⟩ → owner'.pk = owner.pk →
    Accepted P i token user at_ fresh →
    ∃ g, Did i R.history (.get (generationPrefix ++ str owner.pk)) (some (.text g))
  harmless : ∀ (i : Nat) (user : User) (at_ : Option Time) (fresh : Bool) (rest : M Bool),
    P.tasks[i]? = some ⟨.consume (some token) user at_ fresh, rest⟩ →
    (∀ data, Wrote P.history (tokenPrefix ++ token) (.payload data) →
      ¬ Checked i (own i P.history) data user at_) →
    ∀ e ∈ P.history, e.thread = i → (act cfg e.op e.before).2.cache = e.before.cache

variable {cfg : Settings} {w : Store} {admits : Store → Trace → Nat → Call → Op → Prop} {P : Pool}

section Accepted

variable (hP : Underway cfg Ages admits w P) (hwindow : cfg.window = true) {token : String}
  {i : Nat} {user : User} {at_ : Option Time} {fresh : Bool}
  (htask : Accepted P i token user at_ fresh)
include hP hwindow htask

theorem Underway.used : ∃ data first, Checked i (own i P.history) data user at_ ∧
    Wrote P.history (tokenPrefix ++ token) (.payload data) ∧ (fresh = true → first = true) ∧
    Did i P.history (.add (usedPrefix ++ token) .flag (some (cfg.ttl * 2))) first := by
  obtain ⟨token', htoken, data, hchecked, hused, -⟩ := hP.reached.returned service_obeys htask
  obtain rfl := Option.some.inj htoken
  have hsub := own_subset i P.history
  obtain ⟨hget, first, hfirst, hadd⟩ := hused hwindow
  exact ⟨data, first, hchecked, hP.sourced.got _ _ _ (hget.mono hsub), hfirst, hadd.mono hsub⟩

theorem Underway.used_unexpired {k : Nat} {owner : User} {issuedAt : Option Time}
    (hissued : Issued P k owner issuedAt token) :
    ∃ s t, Timed k P.history issuedAt s ∧ Timed i P.history at_ t ∧ t < s + cfg.ttl := by
  obtain ⟨htoken, data, s, hw, -, hexpires, hs⟩ := hP.issued hissued
  obtain ⟨data', -, hchecked, hw', -⟩ := hP.used hwindow htask
  obtain rfl := Value.payload.inj (hP.same_value htoken hw hw')
  obtain ⟨t, ht, hlt⟩ := hchecked.unexpired
  exact ⟨s, t, hs, ht.mono (own_subset i P.history), hexpires ▸ hlt⟩

end Accepted

theorem Underway.first_at_marker (hP : Underway cfg Ages (Prompt cfg) w P) {token : String}
    {i : Nat} {user : User} {at_ : Option Time} {rest : M Bool}
    (htask : P.tasks[i]? = some ⟨.consume (some token) user at_ true, rest⟩)
    {after before : Trace} {w' : Store}
    (heq : P.history = after ++
      ⟨i, .add (usedPrefix ++ token) .flag (some (cfg.ttl * 2)), true, w'⟩ :: before) :
    ∀ e ∈ before, e.op ≠ marks cfg token := by
  intro e he hmarks
  obtain ⟨Q, c, k, hreach, hsteps, rfl, rfl, hcall, hprompt, hres⟩ := hP.reached.fired heq
  obtain ⟨t, ht, rfl⟩ := hsteps.grows.2 _ _ hcall
  obtain rfl := Option.some.inj (htask.symm.trans ht)
  obtain ⟨j, w'', hmem, hlt⟩ := hprompt token user at_ rfl rfl ⟨e, he, hmarks⟩
  have hQ : Underway cfg Ages (Prompt cfg) w Q := ⟨hP.erodes, hP.empty, hreach⟩
  obtain ⟨d, hcache, hd⟩ := hQ.retained.marked token j w'' hmem
  have hread : Q.world.read (usedPrefix ++ token) = some .flag :=
    Store.read_some.mpr ⟨_, hcache, by simpa using hlt.trans_le hd, rfl⟩
  simp [service, act, hread] at hres

theorem Underway.elected_once (hP : Underway cfg Ages (Prompt cfg) w P)
    (hwindow : cfg.window = true) {token : String} {i j : Nat} {user user' : User}
    {at_ at_' : Option Time} (hi : Accepted P i token user at_ true)
    (hj : Accepted P j token user' at_' true) : i = j := by
  obtain ⟨-, first, -, -, hfirst, w', hmem⟩ := hP.used hwindow hi
  obtain ⟨-, first', -, -, hfirst', w'', hmem'⟩ := hP.used hwindow hj
  obtain rfl := hfirst rfl
  obtain rfl := hfirst' rfl
  rcases eq_or_before hmem hmem' with heq | ⟨after, before, heq, hbefore⟩ |
    ⟨after, before, heq, hbefore⟩
  · cases heq
    rfl
  · exact absurd rfl (hP.first_at_marker hi heq _ hbefore)
  · exact absurd rfl (hP.first_at_marker hj heq _ hbefore)

theorem Underway.elected_first (hP : Underway cfg Ages (Prompt cfg) w P)
    (hwindow : cfg.window = true) {token : String} {i j : Nat} {user user' : User}
    {at_ at_' : Option Time} {fresh : Bool} (hi : Accepted P i token user at_ true) {Q : Pool}
    (hreach : Reachable (service cfg Ages (Prompt cfg)) w Q)
    (hsteps : Steps (service cfg Ages (Prompt cfg)) Q P)
    (hj : Accepted Q j token user' at_' fresh) :
    Did i Q.history (.add (usedPrefix ++ token) .flag (some (cfg.ttl * 2))) true := by
  have hQ : Underway cfg Ages (Prompt cfg) w Q := ⟨hP.erodes, hP.empty, hreach⟩
  obtain ⟨-, first, -, -, hfirst, w', hmem⟩ := hP.used hwindow hi
  obtain rfl := hfirst rfl
  obtain ⟨-, first', -, -, -, w'', hmem'⟩ := hQ.used hwindow hj
  obtain ⟨after, before, heq⟩ := List.append_of_mem hmem
  rcases suffix_or (heq ▸ hsteps.grows.1) with hs | hs
  · exact ⟨w', hs.subset (List.mem_cons_self ..)⟩
  · exact absurd rfl (hP.first_at_marker hi heq _ (hs.subset hmem'))

theorem Underway.read_new (hP : Underway cfg Ages admits w P) {Q R : Pool}
    (hQ : Underway cfg Ages admits w Q) (hQR : Steps (service cfg Ages admits) Q R)
    (hRP : Steps (service cfg Ages admits) R P) {m pk : Nat} (hm : Q.tasks.length ≤ m)
    {g₀ : String} (hset : Did m R.history (.set (generationPrefix ++ str pk) (.text g₀) none) ())
    {token : String} (htoken : Urlsafe token) {data : Payload} {g : String}
    (hw : Wrote Q.history (tokenPrefix ++ token) (.payload data)) (hg : data.generation = some g)
    {i : Nat} (hget : Did i P.history (.get (generationPrefix ++ str pk)) (some (.text g))) :
    Did i R.history (.get (generationPrefix ++ str pk)) (some (.text g)) := by
  obtain ⟨w', hmem⟩ := hget
  obtain ⟨after, before, heq⟩ := List.append_of_mem hmem
  rcases suffix_or (heq ▸ hRP.grows.1) with hs | hs
  · exact ⟨w', hs.subset (List.mem_cons_self ..)⟩
  exfalso
  -- the read found what the newest rotation had set
  obtain ⟨S, hS, rfl, rfl, hres⟩ := hP.at_event heq
  obtain ⟨w'', hmset⟩ := hset
  let rotation (e : Event sig Store) : Prop :=
    ∃ v, e.op = .set (generationPrefix ++ str pk) v none
  obtain ⟨newer, e, older, hhistory, ⟨v, he⟩, hnewest⟩ : ∃ newer e older,
      S.history = newer ++ e :: older ∧ rotation e ∧ ∀ e' ∈ newer, ¬ rotation e' :=
    exists_newest ⟨_, hs.subset hmset, .text g₀, rfl⟩
  have hcache := hS.retained.latest pk newer e older v hhistory he fun e' he' v' hv' =>
    hnewest e' he' ⟨v', hv'⟩
  have hread : S.world.read (generationPrefix ++ str pk) = some v :=
    Store.read_some.mpr ⟨_, hcache, rfl, rfl⟩
  have hv : v = .text g := Option.some.inj (hread.symm.trans hres.symm)
  have hsuffix : Q.history <:+ newer ++ e :: older := hhistory ▸ (hQR.grows.1.trans hs)
  rcases suffix_or hsuffix with holder | holder
  · -- that one is older than the token, so the call had not started
    have hold : (⟨m, .set (generationPrefix ++ str pk) (.text g₀) none, (), w''⟩ :
        Event sig Store) ∈ Q.history := by
      rcases List.mem_append.mp (hhistory ▸ hs.subset hmset) with hnew | hold
      · exact absurd ⟨.text g₀, rfl⟩ (hnewest _ hnew)
      · exact holder.subset hold
    exact absurd ((Reachable.obeys service_obeys hQ.reached).1 _ hold) (not_lt.mpr hm)
  · obtain ⟨j, c, rest, pk', g', hj, hrotates, -, hg', hgeneration⟩ := hQ.stamp htoken hw
    obtain rfl := Option.some.inj (hg.symm.trans hg')
    have hQP : Steps (service cfg Ages admits) Q P := hQR.trans hRP
    obtain ⟨t', ht', rfl⟩ := hQP.grows.2 _ _ hj
    obtain ⟨after', hP'⟩ : ∃ after', P.history = after' ++ e :: older :=
      ⟨_, by rw [heq, hhistory, ← List.cons_append, ← List.append_assoc]⟩
    exact hP.rotation_new hP' he ht' hrotates (hgeneration.mono holder.subset) hv

theorem Underway.used_current (hP : Underway cfg Ages admits w P) (hwindow : cfg.window = true)
    {Q R : Pool} (hreach : Reachable (service cfg Ages admits) w Q)
    (hQR : Steps (service cfg Ages admits) Q R) (hRP : Steps (service cfg Ages admits) R P)
    {k m : Nat} {owner owner' : User} {issuedAt : Option Time} {token : String}
    (hissued : Issued Q k owner issuedAt token) (hm : Q.tasks.length ≤ m)
    (hdone : R.tasks[m]? = some ⟨.invalidateAllForUser owner', .done ()⟩)
    (howner : owner'.pk = owner.pk) {i : Nat} {user : User} {at_ : Option Time} {fresh : Bool}
    (htask : Accepted P i token user at_ fresh) :
    ∃ g, Did i R.history (.get (generationPrefix ++ str owner.pk)) (some (.text g)) := by
  have hQ : Underway cfg Ages admits w Q := ⟨hP.erodes, hP.empty, hreach⟩
  have hR : Reachable (service cfg Ages admits) w R := hreach.trans hQR
  have hQP : Steps (service cfg Ages admits) Q P := hQR.trans hRP
  obtain ⟨htoken, data, -, hw, hid, -⟩ := hQ.issued hissued
  obtain ⟨data', -, hchecked, hw', -⟩ := hP.used hwindow htask
  have hwP : Wrote P.history (tokenPrefix ++ token) (.payload data) := hw.mono hQP.grows.1.subset
  obtain rfl := Value.payload.inj (hP.same_value htoken hwP hw')
  have huser : user.pk = owner.pk := str_injective (hchecked.owner.symm.trans hid)
  obtain ⟨g₀, hset⟩ := hR.returned service_obeys hdone
  obtain ⟨g, hg, hget⟩ := hP.read_generation htoken htask hwP hchecked
  rw [huser] at hget
  rw [howner] at hset
  exact ⟨g, hP.read_new hQ hQR hRP hm (hset.mono (own_subset m R.history)) htoken hw hg hget⟩

theorem Underway.generation_present (hP : Underway cfg Ages admits w P) {i pk : Nat} {g : String}
    (hg : Generation i P.history pk g) :
    ∃ g', P.world.cache (generationPrefix ++ str pk) = some ⟨.text g', none⟩ := by
  cases hg with
  | read hread => exact hP.retained.generation pk _ (hP.sourced.got _ _ _ hread)
  | @drawn candidate added hadd =>
    obtain ⟨w', hmem⟩ := hadd
    cases added with
    | true => exact hP.retained.generation pk _ ⟨i, none, .inr ⟨w', hmem⟩⟩
    | false =>
      obtain ⟨after, before, heq⟩ := List.append_of_mem hmem
      obtain ⟨Q, hQ, rfl, rfl, hres⟩ := hP.at_event heq
      have hsome : (Q.world.read (generationPrefix ++ str pk)).isSome = true := by
        by_contra hnone
        simp [act, hnone] at hres
      obtain ⟨v, hv⟩ := Option.isSome_iff_exists.mp hsome
      obtain ⟨e, he, -⟩ := Store.read_some.mp hv
      refine hP.retained.generation pk _ ((hQ.sourced.stored _ e he).mono fun e' he' => ?_)
      exact heq ▸ List.mem_append_right _ (List.mem_cons_of_mem _ he')

theorem Underway.unchecked_harmless (hP : Underway cfg Ages admits w P)
    (hwindow : cfg.window = true) {token : String} {i : Nat} {user : User} {at_ : Option Time}
    {fresh : Bool} {rest : M Bool}
    (htask : P.tasks[i]? = some ⟨.consume (some token) user at_ fresh, rest⟩)
    (hfails : ∀ data, Wrote P.history (tokenPrefix ++ token) (.payload data) →
      ¬ Checked i (own i P.history) data user at_) {e : Event sig Store} (he : e ∈ P.history)
    (hthread : e.thread = i) : (act cfg e.op e.before).2.cache = e.before.cache := by
  obtain ⟨after, before, heq⟩ := List.append_of_mem he
  obtain ⟨t, ht, hmay⟩ := hP.reached.allowed service_obeys heq
  rw [hthread] at ht hmay
  obtain rfl := Option.some.inj (htask.symm.trans ht)
  obtain ⟨Q, hQ, rfl, hworld, -⟩ := hP.at_event heq
  rw [← hworld]
  have hsub : Q.history ⊆ P.history := fun e' he' =>
    heq ▸ List.mem_append_right _ (List.mem_cons_of_mem _ he')
  have hown : own i Q.history ⊆ own i P.history := fun e' he' =>
    mem_own.mpr ⟨hsub (mem_own.mp he').1, (mem_own.mp he').2⟩
  have hquiet (hnone : e.op.changes = none) :
      (act cfg e.op Q.world).2.cache = Q.world.cache := by
    funext key
    exact act_unchanged (by simp [hnone])
  have hlooked {data : Payload} (hlook : Did i (own i Q.history) (.get (tokenPrefix ++ token))
      (some (.payload data))) : Wrote Q.history (tokenPrefix ++ token) (.payload data) :=
    hQ.sourced.got _ _ _ (hlook.mono (own_subset i Q.history))
  have hchecks {data : Payload} (hc : Checked i (own i Q.history) data user at_) :
      Checked i (own i P.history) data user at_ := hc.mono hown
  generalize own i Q.history = past at hmay hlooked hchecks
  generalize e.op = o at hmay hquiet ⊢
  cases hmay with
  | now | consumeDraw | send | look | consumeGet => exact hquiet rfl
  | claim hw | pop hw | getdel hw => simp [hwindow] at hw
  | rotateDraw hc | rotate hc | legacyGet hc | legacyDelete hc | legacyDrop hc => cases hc
  | mark _ hlook hchecked => exact absurd (hchecks hchecked) (hfails _ ((hlooked hlook).mono hsub))
  | consumeAdd hlook hid =>
    obtain ⟨token', htoken, hkey⟩ := hQ.payload_key (hlooked hlook)
    obtain ⟨j, c, rest', pk, g, -, -, hpk, -, hgeneration⟩ :=
      hQ.stamp htoken (hkey ▸ hlooked hlook)
    obtain rfl := str_injective (hid.symm.trans hpk)
    obtain ⟨g', hpresent⟩ := hQ.generation_present hgeneration
    rw [act_add_present hpresent]

theorem window_elects (hempty : Empty w)
    (hreached : Reachable (service cfg Ages (Prompt cfg)) w P) (hwindow : cfg.window = true)
    {k : Nat} {owner : User} {issuedAt : Option Time} {token : String}
    (hissued : Issued P k owner issuedAt token) :
    Elects cfg (Prompt cfg) w P k owner issuedAt token := by
  have hP : Underway cfg Ages (Prompt cfg) w P := ⟨fun _ _ ha => ha.erodes, hempty, hreached⟩
  constructor
  · intro i j user user' at_ at_' hi hj
    exact hP.elected_once hwindow hi hj
  · intro Q i j user user' at_ at_' fresh hreach hsteps hi hj
    exact hP.elected_first hwindow hi hreach hsteps hj
  · intro i user at_ fresh hi
    exact hP.used_unexpired hwindow hi hissued
  · intro Q R m i owner' user at_ fresh hreach hQR hRP hissued' hm hdone howner hi
    exact hP.used_current hwindow hreach hQR hRP hissued' hm hdone howner hi
  · intro i user at_ fresh rest hi hfails e he hthread
    exact hP.unchecked_harmless hwindow hi hfails he hthread

namespace Stall

def morning : Store := { clock := 1000, password := fun _ => "secret" }

def alice : User := { pk := 1 }

def platform : System sig Exn Store Call.Ans :=
  service (sample true false) Ages fun _ _ _ _ _ => True

def moves : List (Move Call) :=
  .start (.issue alice "password" none [("password", "secret")]) :: List.replicate 8 (.act 0) ++
    [.start (.consume (some "a") alice none true), .start (.consume (some "a") alice none true),
      .act 1, .act 2, .act 1, .act 2, .act 1, .act 2, .act 1, .act 1]

def played (P : Pool) (ms : List (Move Call)) : Pool := (P.play platform ms).getD P

def midway : Pool := played { world := morning } moves

theorem midway_reached : Reachable platform morning midway := by
  have hplay : Lib.Shared.Pool.play platform { world := morning } moves = some midway := rfl
  exact Lib.Shared.Pool.play_steps (fun _ _ _ _ _ => trivial) hplay

theorem promptly {cfg : Settings} {w : Store} {P : Pool} (token : String)
    (h : Reachable (service cfg Ages fun _ _ _ _ _ => True) w P)
    (hone : P.history.all fun e => match e.op with
      | .add _ .flag _ => decide (e.op = marks cfg token)
      | _ => true)
    (honce : P.history.countP (fun e => decide (e.op = marks cfg token)) ≤ 1) :
    Reachable (service cfg Ages (Prompt cfg)) w P := by
  refine Reachable.restrict (M := service cfg Ages (Prompt cfg)) h fun after e before t heq ht => ?_
  rintro token' user at_ - ho ⟨e', he', ho'⟩
  have hmem : e ∈ P.history := heq ▸ List.mem_append_right _ (List.mem_cons_self ..)
  have hsame := List.all_eq_true.mp hone e hmem
  obtain rfl : token' = token := by simpa [ho, marks, key_inj] using hsame
  have hpos : 0 < before.countP (fun e => decide (e.op = marks cfg token')) :=
    List.countP_pos_iff.mpr ⟨e', he', by simpa using ho'⟩
  rw [heq, List.countP_append, List.countP_cons, if_pos (by simpa using ho)] at honce
  omega

theorem midway_elects : Elects (sample true false) (Prompt (sample true false)) morning midway 0
    alice none "a" := by
  have hprompt := promptly "a" midway_reached (by decide) (by decide)
  exact window_elects (fun _ => rfl) hprompt rfl ⟨"password", [("password", "secret")], rfl⟩

def late : Pool :=
  played { midway with world := { midway.world with clock := 1000 + 600 } } [.act 2, .act 2]

theorem late_reached : Reachable platform morning late := by
  have hdrift : Steps platform midway
      { midway with world := { midway.world with clock := 1000 + 600 } } :=
    ReflTransGen.single (.drift ⟨600, rfl⟩)
  have hplay : Lib.Shared.Pool.play platform
      { midway with world := { midway.world with clock := 1000 + 600 } } [.act 2, .act 2] =
        some late := rfl
  have hsteps := Lib.Shared.Pool.play_steps (fun _ _ _ _ _ => trivial) hplay
  exact midway_reached.trans (hdrift.trans hsteps)

theorem late_twice : Reachable platform morning late ∧
    Issued late 0 alice none "a" ∧
    ¬ Elects (sample true false) (fun _ _ _ _ _ => True) morning late 0 alice none "a" := by
  refine ⟨late_reached, ⟨"password", [("password", "secret")], rfl⟩, fun h => ?_⟩
  exact absurd (h.one 1 2 alice alice none none rfl rfl) (by decide)

end Stall

end ScopedAccess.ReAuth
