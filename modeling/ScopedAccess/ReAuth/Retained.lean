import ScopedAccess.ReAuth.Provenance

namespace ScopedAccess.ReAuth

open Lib.Shared (Event Reachable own mem_own)

variable {cfg : Settings} {w : Store}

def Op.changes : Op → Option String
  | .set key _ _ | .add key _ _ | .delete key | .getdel key => some key
  | .get _ | .now | .tokenUrlsafe _ | .verify .. | .send .. | .writePassword .. | .commit .. => none

theorem act_unchanged {o : Op} {key : String} (h : o.changes ≠ some key) :
    (act cfg o w).2.cache key = w.cache key := by
  have hput {key' : String} (hne : some key' ≠ some key) (e : Option Entry) :
      (w.put key' e).cache key = w.cache key :=
    Store.put_of_ne (fun heq => hne (congrArg some heq.symm)) e
  cases o with
  | set | delete | getdel => exact hput h _
  | add =>
    simp only [act]
    split
    · rfl
    · exact hput h _
  | get | now | tokenUrlsafe | verify | send | writePassword | commit => rfl

theorem act_clock (o : Op) : (act cfg o w).2.clock = w.clock := by
  cases o with
  | add => simp only [act]; split <;> rfl
  | get | set | delete | getdel | now | tokenUrlsafe | verify | send | writePassword | commit => rfl

section Families

variable {drifts : Store → Store → Prop} {admits : Store → Trace → Nat → Call → Op → Prop}
  {P : Pool} (hP : Underway cfg drifts admits w P)
include hP

theorem Underway.payload_key {key : String} {data : Payload}
    (hw : Wrote P.history key (.payload data)) :
    ∃ token, Urlsafe token ∧ key = tokenPrefix ++ token := by
  obtain ⟨i, timeout, hset | hadd⟩ := hw
  · obtain ⟨t, before, after, w', -, heq, hmay⟩ := hP.may hset
    rcases hmay.set_inv with ⟨token, rfl, hmint⟩ | ⟨pk, -, -, hrotate⟩
    · have hdrew : Drew i P.history token := heq ▸ hmint.drew.of_own
      exact ⟨token, hP.drew_urlsafe hdrew, rfl⟩
    · obtain ⟨g, hvalue, -⟩ := hrotate.drew
      cases hvalue
  · obtain ⟨t, before, after, w', -, heq, hmay⟩ := hP.may hadd
    rcases hmay.add_inv with ⟨pk, g, -, hvalue, -⟩ | ⟨token, -, hvalue, -⟩ | ⟨token, -, hvalue, -⟩ <;>
      cases hvalue

theorem Underway.legacy_unread {i : Nat} {pk : String} {value : Value} :
    ¬ Did i P.history (.get (legacyUserIndexPrefix ++ pk)) (some value) := by
  intro hget
  obtain ⟨j, timeout, hset | hadd⟩ := hP.sourced.got _ _ _ hget
  · obtain ⟨t, before, after, w', -, heq, hmay⟩ := hP.may hset
    rcases hmay.set_inv with ⟨token, hkey, hmint⟩ | ⟨pk', hkey, -⟩
    · have hdrew : Drew j P.history token := heq ▸ hmint.drew.of_own
      exact absurd hkey.symm (legacyFamily.key_ne (hP.drew_urlsafe hdrew) _)
    · exact absurd hkey.symm (generation_ne_legacy _ _)
  · obtain ⟨t, before, after, w', -, heq, hmay⟩ := hP.may hadd
    rcases hmay.add_inv with ⟨pk', g, hkey, -⟩ | ⟨token, hkey, -⟩ | ⟨token, hkey, -⟩
    · exact absurd hkey.symm (generation_ne_legacy _ _)
    · exact absurd hkey.symm (used_ne_legacy _ _)
    · exact absurd hkey.symm (consumed_ne_legacy _ _)

theorem Underway.rotation_new {after before : Trace} {e : Event sig Store}
    (heq : P.history = after ++ e :: before) {pk : Nat} {v : Value} {timeout : Option Time}
    (he : e.op = .set (generationPrefix ++ str pk) v timeout) {j pk' : Nat} {c : Call}
    {rest : M c.Ans} (htask : P.tasks[j]? = some ⟨c, rest⟩) (hrotates : c.rotates = none)
    {g : String} (hg : Generation j before pk' g) : v ≠ .text g := by
  rintro rfl
  obtain ⟨t, ht, hmay⟩ := hP.reached.allowed service_obeys heq
  rw [he] at hmay
  have hsub : before ⊆ P.history := fun e' he' =>
    heq ▸ List.mem_append_right _ (List.mem_cons_of_mem _ he')
  rcases hmay.set_inv with ⟨token, hkey, hmint⟩ | ⟨pk₁, -, -, hrotate⟩
  · exact generationFamily.key_ne (hP.drew_urlsafe (heq ▸ hmint.drew.of_own)) _ hkey.symm
  obtain ⟨g', hg', hdrew⟩ := hrotate.drew
  obtain rfl := Value.text.inj hg'
  obtain ⟨user, hc, -⟩ := hrotate.rotates
  -- whoever drew the generation is the rotating call
  have hthread {x : Nat} (hx : Drew x P.history g) : x = e.thread :=
    hP.sourced.once _ _ _ hx (heq ▸ hdrew.of_own)
  have hmine {x : Nat} {t' : Lib.Shared.Task sig Exn Call.Ans} (hx : Drew x P.history g)
      (ht' : P.tasks[x]? = some t') : t'.call.rotates = some user := by
    obtain rfl := hthread hx
    obtain rfl := Option.some.inj (ht.symm.trans ht')
    exact hc
  cases hg with
  | drawn _ hdrew' => simpa [hrotates] using hmine (hdrew'.mono hsub) htask
  | @read value hread hvalue =>
    obtain ⟨Q, hQ, rfl, -⟩ := hP.at_event heq
    obtain ⟨x, timeout', hset | hadd⟩ := hQ.sourced.got _ _ _ hread
    · obtain ⟨t', before', after', w', ht', heq', hmay'⟩ := hP.may (hset.mono hsub)
      rcases hmay'.set_inv with ⟨token, hkey, hmint⟩ | ⟨pk₂, -, -, hrotate'⟩
      · exact generationFamily.key_ne (hP.drew_urlsafe (heq' ▸ hmint.drew.of_own)) _ hkey.symm
      · obtain ⟨g', rfl, hx⟩ := hrotate'.drew
        obtain rfl : g = g' := hvalue
        obtain rfl := hthread (heq' ▸ hx.of_own)
        obtain ⟨w'', hmem⟩ := did_own hset
        simpa [Op.isSet] using hrotate.first _ hmem
    · obtain ⟨t', before', after', w', ht', heq', hmay'⟩ := hP.may (hadd.mono hsub)
      rcases hmay'.add_inv with ⟨pk₂, g', -, rfl, -, hnone, hx⟩ | ⟨token, hkey, -⟩ | ⟨token, hkey, -⟩
      · obtain rfl : g = g' := hvalue
        simpa [hnone] using hmine (heq' ▸ hx.of_own) ht'
      · exact generation_ne_used _ _ hkey
      · exact generation_ne_consumed _ _ hkey

variable {i : Nat} {c : Call} {o : Op} (hmay : May cfg i c (own i P.history) o)
include hmay

theorem Underway.deletes {key : String} (ho : o = .delete key ∨ o = .getdel key)
    (hkey : ∀ pk, key ≠ legacyUserIndexPrefix ++ pk) :
    cfg.window = false ∧ ∃ token, Urlsafe token ∧ key = tokenPrefix ++ token := by
  have hlooked {token : String} {data : Payload} (hlook : Did i (own i P.history)
      (.get (tokenPrefix ++ token)) (some (.payload data))) :
      ∃ token', Urlsafe token' ∧ tokenPrefix ++ token = tokenPrefix ++ token' :=
    hP.payload_key (hP.sourced.got _ _ _ (hlook.mono (own_subset i P.history)))
  have hlegacy {pk : String} {value : Value} (hread : Did i (own i P.history)
      (.get (legacyUserIndexPrefix ++ pk)) (some value)) : False :=
    hP.legacy_unread (hread.mono (own_subset i P.history))
  generalize own i P.history = past at hmay hlooked hlegacy
  cases hmay with
  | pop hwindow hlook =>
    obtain rfl := Op.delete.inj (ho.resolve_right (by simp))
    exact ⟨hwindow, hlooked hlook⟩
  | getdel hwindow hlook =>
    obtain rfl := Op.getdel.inj (ho.resolve_left (by simp))
    exact ⟨hwindow, hlooked hlook⟩
  | legacyDelete hc hread => exact (hlegacy hread).elim
  | legacyDrop hc =>
    obtain rfl := Op.delete.inj (ho.resolve_right (by simp))
    exact absurd rfl (hkey _)
  | _ => simp at ho

theorem Underway.generation_change {pk : Nat}
    (hkey : o.changes = some (generationPrefix ++ str pk)) :
    (∃ v, o = .set (generationPrefix ++ str pk) v none ∧ Rotating i c (own i P.history) pk v) ∨
      ∃ g, o = .add (generationPrefix ++ str pk) (.text g) none := by
  have hdeletes (ho : o = .delete (generationPrefix ++ str pk) ∨
      o = .getdel (generationPrefix ++ str pk)) : False := by
    obtain ⟨-, token, htoken, heq⟩ := hP.deletes hmay ho fun _ => generation_ne_legacy _ _
    exact generationFamily.key_ne htoken _ heq.symm
  cases o with
  | set key value timeout =>
    obtain rfl := Option.some.inj hkey
    rcases hmay.set_inv with ⟨token, heq, hmint⟩ | ⟨pk', heq, rfl, hrotate⟩
    · exact absurd heq.symm (generationFamily.key_ne
        (hP.drew_urlsafe (hmint.drew.mono (own_subset i P.history))) _)
    · obtain rfl := str_injective (key_inj.mp heq)
      exact .inl ⟨value, rfl, hrotate⟩
  | add key value timeout =>
    obtain rfl := Option.some.inj hkey
    rcases hmay.add_inv with ⟨pk', g, -, rfl, rfl, -⟩ | ⟨token, heq, -⟩ | ⟨token, heq, -⟩
    · exact .inr ⟨g, rfl⟩
    · exact absurd heq (generation_ne_used _ _)
    · exact absurd heq (generation_ne_consumed _ _)
  | delete key => exact (hdeletes (.inl (congrArg _ (Option.some.inj hkey)))).elim
  | getdel key => exact (hdeletes (.inr (congrArg _ (Option.some.inj hkey)))).elim
  | get | now | tokenUrlsafe | verify | send | writePassword | commit => cases hkey

theorem Underway.marker_change {token : String} (hkey : o.changes = some (usedPrefix ++ token)) :
    o = .add (usedPrefix ++ token) .flag (some (cfg.ttl * 2)) ∧
      Marking cfg i c (own i P.history) token := by
  have hdeletes (ho : o = .delete (usedPrefix ++ token) ∨ o = .getdel (usedPrefix ++ token)) :
      False := by
    obtain ⟨-, token', htoken, heq⟩ := hP.deletes hmay ho fun _ => used_ne_legacy _ _
    exact usedFamily.key_ne htoken _ heq.symm
  cases o with
  | set key value timeout =>
    obtain rfl := Option.some.inj hkey
    rcases hmay.set_inv with ⟨token', heq, hmint⟩ | ⟨pk', heq, -⟩
    · exact absurd heq.symm (usedFamily.key_ne
        (hP.drew_urlsafe (hmint.drew.mono (own_subset i P.history))) _)
    · exact absurd heq.symm (generation_ne_used _ _)
  | add key value timeout =>
    obtain rfl := Option.some.inj hkey
    rcases hmay.add_inv with ⟨pk', g, heq, -⟩ | ⟨token', heq, rfl, rfl, hmark⟩ | ⟨token', heq, -⟩
    · exact absurd heq.symm (generation_ne_used _ _)
    · obtain rfl := key_inj.mp heq
      exact ⟨rfl, hmark⟩
    · exact absurd heq.symm (consumed_ne_used _ _)
  | delete key => exact (hdeletes (.inl (congrArg _ (Option.some.inj hkey)))).elim
  | getdel key => exact (hdeletes (.inr (congrArg _ (Option.some.inj hkey)))).elim
  | get | now | tokenUrlsafe | verify | send | writePassword | commit => cases hkey

end Families

structure Retained (cfg : Settings) (w : Store) (h : Trace) : Prop where
  clock : ∀ e ∈ h, e.before.clock ≤ w.clock
  generation : ∀ pk v, Wrote h (generationPrefix ++ str pk) v →
    ∃ g, w.cache (generationPrefix ++ str pk) = some ⟨.text g, none⟩
  latest : ∀ pk after e before v, h = after ++ e :: before →
    e.op = .set (generationPrefix ++ str pk) v none →
    (∀ e' ∈ after, ∀ v', e'.op ≠ .set (generationPrefix ++ str pk) v' none) →
    w.cache (generationPrefix ++ str pk) = some ⟨v, none⟩
  marked : ∀ token i w',
    (⟨i, .add (usedPrefix ++ token) .flag (some (cfg.ttl * 2)), true, w'⟩ : Event sig Store) ∈ h →
    ∃ d, w.cache (usedPrefix ++ token) = some ⟨.flag, some d⟩ ∧ w'.clock + cfg.ttl * 2 ≤ d

theorem Retained.ages {w' : Store} {h : Trace} (hr : Retained cfg w h) (ha : Ages w w') :
    Retained cfg w' h := by
  obtain ⟨t, rfl⟩ := ha
  exact ⟨fun e he => (hr.clock e he).trans (Nat.le_add_right _ _), hr.generation, hr.latest,
    hr.marked⟩

theorem Wrote.cons_inv {e : Event sig Store} {h : Trace} {key : String} {v : Value}
    (hw : Wrote (e :: h) key v) : e.op.changes = some key ∨ Wrote h key v := by
  obtain ⟨i, timeout, hset | hadd⟩ := hw
  · rcases hset.cons_inv with ⟨w', rfl⟩ | hset
    · exact .inl rfl
    · exact .inr ⟨i, timeout, .inl hset⟩
  · rcases hadd.cons_inv with ⟨w', rfl⟩ | hadd
    · exact .inl rfl
    · exact .inr ⟨i, timeout, .inr hadd⟩

theorem act_add_present {key : String} {v : Value} (hv : w.cache key = some ⟨v, none⟩) (value : Value)
    (timeout : Option Time) : act cfg (.add key value timeout) w = (false, w) := by
  have hread : w.read key = some v := Store.read_some.mpr ⟨_, hv, rfl, rfl⟩
  simp [act, hread]

section Step

variable {drifts : Store → Store → Prop} {admits : Store → Trace → Nat → Call → Op → Prop}
  {P : Pool} (hP : Underway cfg drifts admits w P) {i : Nat} {c : Call} {o : Op}
  (hmay : May cfg i c (own i P.history) o)
include hP hmay

theorem Underway.generation_kept {pk : Nat} {v : Value}
    (hv : P.world.cache (generationPrefix ++ str pk) = some ⟨v, none⟩)
    (ho : ∀ v', o ≠ .set (generationPrefix ++ str pk) v' none) :
    (act cfg o P.world).2.cache (generationPrefix ++ str pk) = some ⟨v, none⟩ := by
  by_cases hkey : o.changes = some (generationPrefix ++ str pk)
  · rcases hP.generation_change hmay hkey with ⟨v', rfl, -⟩ | ⟨g, rfl⟩
    · exact absurd rfl (ho v')
    · rw [act_add_present hv]
      exact hv
  · rw [act_unchanged hkey, hv]

theorem Underway.marker_kept {token : String} {t : Time} (ht : t ≤ P.world.clock)
    (hd : ∃ d, P.world.cache (usedPrefix ++ token) = some ⟨.flag, some d⟩ ∧ t + cfg.ttl * 2 ≤ d) :
    ∃ d, (act cfg o P.world).2.cache (usedPrefix ++ token) = some ⟨.flag, some d⟩ ∧
      t + cfg.ttl * 2 ≤ d := by
  by_cases hkey : o.changes = some (usedPrefix ++ token)
  · obtain ⟨rfl, -⟩ := hP.marker_change hmay hkey
    simp only [act]
    split
    · exact hd
    · exact ⟨_, Store.put_self _ _, Nat.add_le_add_right ht _⟩
  · rwa [act_unchanged hkey]

variable (hr : Retained cfg P.world P.history)
include hr

theorem Retained.generation_changed {pk : Nat}
    (hkey : o.changes = some (generationPrefix ++ str pk)) :
    ∃ g, (act cfg o P.world).2.cache (generationPrefix ++ str pk) = some ⟨.text g, none⟩ := by
  rcases hP.generation_change hmay hkey with ⟨v, rfl, hrotate⟩ | ⟨g, rfl⟩
  · obtain ⟨g, rfl, -⟩ := hrotate.drew
    exact ⟨g, Store.put_self _ _⟩
  · cases hcache : P.world.cache (generationPrefix ++ str pk) with
    | some e =>
      obtain ⟨g', hg'⟩ := hr.generation pk _ (hP.sourced.stored _ e hcache)
      rw [act_add_present hg']
      exact ⟨g', hg'⟩
    | none =>
      have hread : P.world.read (generationPrefix ++ str pk) = none := by simp [Store.read, hcache]
      simp only [act, hread, Option.isSome_none, Bool.false_eq_true, if_false]
      exact ⟨g, Store.put_self _ _⟩

theorem Retained.act : Retained cfg (ReAuth.act cfg o P.world).2
    (⟨i, o, (ReAuth.act cfg o P.world).1, P.world⟩ :: P.history) where
  clock e he := by
    rw [act_clock]
    rcases List.mem_cons.mp he with rfl | he
    · exact le_rfl
    · exact hr.clock e he
  generation pk v hw := by
    by_cases hkey : o.changes = some (generationPrefix ++ str pk)
    · exact hr.generation_changed hP hmay hkey
    · rw [act_unchanged hkey]
      exact hr.generation pk v (hw.cons_inv.resolve_left hkey)
  latest pk after e before v heq he hnewest := by
    cases after with
    | nil =>
      obtain ⟨rfl, rfl⟩ := List.cons.inj heq
      obtain rfl : o = _ := he
      exact Store.put_self _ _
    | cons e' after =>
      obtain ⟨rfl, hhistory⟩ := List.cons.inj heq
      refine hP.generation_kept hmay (hr.latest pk after e before v hhistory he fun e' he' =>
        hnewest e' (List.mem_cons_of_mem _ he')) ?_
      exact hnewest _ (List.mem_cons_self ..)
  marked token j w' hmem := by
    rcases List.mem_cons.mp hmem with heq | hmem
    · generalize hadded : (ReAuth.act cfg o P.world).1 = added at heq
      cases heq
      cases hread : (P.world.read (usedPrefix ++ token)).isSome with
      | true => simp [ReAuth.act, hread] at hadded
      | false =>
        simp only [ReAuth.act, hread, Bool.false_eq_true, if_false]
        exact ⟨_, Store.put_self _ _, le_rfl⟩
    · exact hP.marker_kept hmay (hr.clock _ hmem) (hr.marked token j w' hmem)

end Step

theorem Underway.retained {admits : Store → Trace → Nat → Call → Op → Prop} {P : Pool}
    (hP : Underway cfg Ages admits w P) : Retained cfg P.world P.history := by
  refine hP.reached.invariant service_obeys (Retained cfg) ?_ (fun hr ha => hr.ages ha)
    fun hreach hr _ hmay _ => hr.act ⟨hP.erodes, hP.empty, hreach⟩ hmay
  exact ⟨by simp, by simp [Wrote, Did], by simp, by simp⟩

end ScopedAccess.ReAuth
