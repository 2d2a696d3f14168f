import ScopedAccess.ReAuth.Provenance

namespace ScopedAccess.ReAuth

open Lib.Shared (Event own eq_or_before)

variable {cfg : Settings} {w : Store} {drifts : Store → Store → Prop}
  {admits : Store → Trace → Nat → Call → Op → Prop} {P : Pool}
  (hP : Underway cfg drifts admits w P)
include hP

theorem Underway.same_value {token : String} (htoken : Urlsafe token) {v v' : Value}
    (hw : Wrote P.history (tokenPrefix ++ token) v)
    (hw' : Wrote P.history (tokenPrefix ++ token) v') : v = v' := by
  obtain ⟨i, timeout, w', hmem⟩ := hP.token_wrote htoken hw
  obtain ⟨j, timeout', w'', hmem'⟩ := hP.token_wrote htoken hw'
  rcases eq_or_before hmem hmem' with heq | ⟨after, before, heq, hbefore⟩ |
    ⟨after, before, heq, hbefore⟩
  · cases heq
    rfl
  · exact absurd rfl (hP.minted_once htoken heq rfl hbefore)
  · exact absurd rfl (hP.minted_once htoken heq rfl hbefore)

theorem Underway.mint {token : String} (htoken : Urlsafe token) {data : Payload}
    (hw : Wrote P.history (tokenPrefix ++ token) (.payload data)) :
    ∃ i c rest before after e, P.tasks[i]? = some ⟨c, rest⟩ ∧ e.thread = i ∧
      P.history = after ++ e :: before ∧
      Minting cfg i c (own i before) token (.payload data) := by
  obtain ⟨i, timeout, hset⟩ := hP.token_wrote htoken hw
  obtain ⟨⟨c, rest⟩, before, after, w', ht, heq, hmay⟩ := hP.may hset
  rcases hmay.set_inv with ⟨token', hkey, hmint⟩ | ⟨pk, hkey, -⟩
  · obtain rfl := key_inj.mp hkey
    exact ⟨i, c, rest, before, after, _, ht, rfl, heq, hmint⟩
  · exact absurd hkey (generationFamily.key_ne htoken _)

theorem Underway.stamp {token : String} (htoken : Urlsafe token) {data : Payload}
    (hw : Wrote P.history (tokenPrefix ++ token) (.payload data)) :
    ∃ i c rest pk g, P.tasks[i]? = some ⟨c, rest⟩ ∧ c.rotates = none ∧
      data.userId = str pk ∧ data.generation = some g ∧ Generation i P.history pk g := by
  obtain ⟨i, c, rest, before, after, e, ht, rfl, heq, hmint⟩ := hP.mint htoken hw
  obtain ⟨user, verifier, at_, credentials, g', t', rfl, hvalue, -, -, hgeneration⟩ := hmint.stamped
  obtain rfl := Value.payload.inj hvalue
  refine ⟨e.thread, _, rest, user.pk, g', ht, rfl, rfl, rfl, hgeneration.mono fun e' he' => ?_⟩
  exact heq ▸ List.mem_append_right _ (List.mem_cons_of_mem _ (own_subset _ before he'))

theorem Underway.stamp_known {token : String} (htoken : Urlsafe token) {data : Payload} {g : String}
    (hw : Wrote P.history (tokenPrefix ++ token) (.payload data)) (hg : data.generation = some g) :
    ∃ n < P.world.drawn, g = cfg.secret n := by
  obtain ⟨i, c, rest, pk, g', -, -, -, hg', hgeneration⟩ := hP.stamp htoken hw
  obtain rfl := Option.some.inj (hg.symm.trans hg')
  obtain ⟨j, hdrew⟩ := hP.generation_drew hgeneration
  exact hP.sourced.known hdrew

theorem Underway.not_drew {token : String} (htoken : Urlsafe token) {i : Nat} {user : User}
    {at_ : Option Time} {fresh : Bool} {rest : M Bool}
    (htask : P.tasks[i]? = some ⟨.consume (some token) user at_ fresh, rest⟩) {data : Payload}
    (hw : Wrote P.history (tokenPrefix ++ token) (.payload data)) {g : String}
    (hg : data.generation = some g) : ¬ Drew i P.history g := by
  rintro ⟨nbytes, hdid⟩
  obtain ⟨t, before, after, w', ht, heq, hmay⟩ := hP.may hdid
  obtain rfl := Option.some.inj (htask.symm.trans ht)
  obtain ⟨data', hlook⟩ : ∃ data', Did i (own i before) (.get (tokenPrefix ++ token))
      (some (.payload data')) := by
    generalize own i before = past at hmay ⊢
    cases hmay with
    | consumeDraw hlook => exact ⟨_, hlook⟩
    | rotateDraw hc => cases hc
  obtain ⟨Q, hQ, rfl, hworld, -⟩ := hP.at_event heq
  have hwrote := hQ.sourced.got _ _ _ (hlook.mono (own_subset i Q.history))
  have hsub : Q.history ⊆ P.history := fun e he =>
    heq ▸ List.mem_append_right _ (List.mem_cons_of_mem _ he)
  obtain rfl := Value.payload.inj (hP.same_value htoken hw (hwrote.mono hsub))
  obtain ⟨n, hn, rfl⟩ := hQ.stamp_known htoken hwrote hg
  obtain ⟨hvalue, -⟩ := hP.sourced.drew i nbytes _ w' (heq ▸ List.mem_append_right _
    (List.mem_cons_self ..))
  rw [hworld] at hn
  exact hn.ne (cfg.secret_injective hvalue)

theorem Underway.accepted {token : String} {i : Nat} {user : User} {at_ : Option Time} {fresh : Bool}
    (htask : Accepted P i token user at_ fresh) :
    ∃ data, Checked i (own i P.history) data user at_ ∧
      Wrote P.history (tokenPrefix ++ token) (.payload data) := by
  obtain ⟨token', htoken, data, hchecked, hwindow, hsingle⟩ :=
    hP.reached.returned service_obeys htask
  obtain rfl := Option.some.inj htoken
  have hsub := own_subset i P.history
  cases hmode : cfg.window with
  | true => exact ⟨data, hchecked, hP.sourced.got _ _ _ ((hwindow hmode).1.mono hsub)⟩
  | false =>
    rcases hsingle hmode with hpopped | ⟨hget, -⟩
    · exact ⟨data, hchecked, hP.sourced.popped _ _ _ (hpopped.mono hsub)⟩
    · exact ⟨data, hchecked, hP.sourced.got _ _ _ (hget.mono hsub)⟩

theorem Underway.read_generation {token : String} (htoken : Urlsafe token) {i : Nat} {user : User}
    {at_ : Option Time} {fresh : Bool} (htask : Accepted P i token user at_ fresh) {data : Payload}
    (hw : Wrote P.history (tokenPrefix ++ token) (.payload data))
    (hchecked : Checked i (own i P.history) data user at_) :
    ∃ g, data.generation = some g ∧
      Did i P.history (.get (generationPrefix ++ str user.pk)) (some (.text g)) := by
  have hsub := own_subset i P.history
  obtain ⟨g, hg, hgeneration⟩ := hchecked.generation
  cases hgeneration with
  | drawn _ hdrew => exact absurd (hdrew.mono hsub) (hP.not_drew htoken htask hw hg)
  | @read value hread hvalue =>
    have hget := hread.mono hsub
    obtain ⟨j, g', rfl, -⟩ := hP.generation_wrote (hP.sourced.got _ _ _ hget)
    obtain rfl : g = g' := hvalue
    exact ⟨g, hg, hget⟩

theorem Underway.issued {k : Nat} {owner : User} {at_ : Option Time} {token : String}
    (hissued : Issued P k owner at_ token) :
    Urlsafe token ∧ ∃ data s, Wrote P.history (tokenPrefix ++ token) (.payload data) ∧
      data.userId = str owner.pk ∧ data.expires = s + cfg.ttl ∧ Timed k P.history at_ s := by
  obtain ⟨verifier, credentials, htask⟩ := hissued
  obtain ⟨g, t, hdid⟩ := hP.reached.returned service_obeys htask
  have hset := hdid.mono (own_subset k P.history)
  obtain ⟨t, before, after, w', ht, heq, hmay⟩ := hP.may hset
  obtain rfl := Option.some.inj (htask.symm.trans ht)
  have hsub : own k before ⊆ P.history := fun e he =>
    heq ▸ List.mem_append_right _ (List.mem_cons_of_mem _ (own_subset _ before he))
  rcases hmay.set_inv with ⟨token', hkey, hmint⟩ | ⟨pk, -, -, hrotate⟩
  · obtain rfl := key_inj.mp hkey
    obtain ⟨user, verifier', at_', credentials', g', s, hc, hvalue, htimed, -⟩ := hmint.stamped
    obtain ⟨rfl, rfl, rfl, rfl⟩ := Call.issue.inj hc
    have hexpires := congrArg Payload.expires (Value.payload.inj hvalue)
    exact ⟨hP.drew_urlsafe (hmint.drew.mono hsub), _, s, ⟨k, some (cfg.ttl * 2), .inl hset⟩, rfl,
      hexpires, htimed.mono hsub⟩
  · obtain ⟨user, hrotates, -⟩ := hrotate.rotates
    cases hrotates

end ScopedAccess.ReAuth
