import ScopedAccess.ReAuth.Runs

namespace ScopedAccess.ReAuth

open Relation (ReflTransGen)

variable {cfg : Settings}

namespace Ledger

inductive Record
  | issued (token : String) (pk : Nat) (at_ : Time)
  | consumed (token : String) (pk : Nat) (fresh answer : Bool)
  | invalidated (pk : Nat)

def Record.token : Record → Option String
  | .issued token _ _ | .consumed token _ _ _ => some token
  | .invalidated _ => none

def Used (token : String) (past : List Record) : Prop :=
  ∃ pk fresh, .consumed token pk fresh true ∈ past

structure Session where
  store : Store
  /-- The instant the calls are made at; the clock of the cache may be another one. -/
  now : Time
  active : Nat → Bool := fun _ => true
  past : List Record := []

/-- The rule: issued to the user less than the TTL ago, not invalidated since, and
not used unless the window leaves it open. -/
def Verifies (cfg : Settings) (σ : Session) (token : String) (pk : Nat) (fresh : Bool) : Prop :=
  ∃ after before t, σ.past = after ++ .issued token pk t :: before ∧
    σ.now < t + cfg.ttl ∧ σ.active pk = true ∧ .invalidated pk ∉ after ∧
    ((cfg.window = true → fresh = true) → ¬ Used token σ.past)

inductive Step (cfg : Settings) : Session → Session → Prop
  | issue {σ : Session} {token : Option String} {s : Store} (user : User) (verifier : String)
      (at_ : Option Time) (credentials : Credentials)
      (hactive : user.isActive = σ.active user.pk) (hat : at_.getD σ.store.clock = σ.now)
      (h : M.run cfg (issue cfg user verifier at_ credentials) σ.store = (.ok token, s)) :
      Step cfg σ { σ with
        store := s
        past := (token.map fun token => .issued token user.pk σ.now).toList ++ σ.past }
  | consume {σ : Session} {token : String} {b : Bool} {s : Store} (user : User)
      (at_ : Option Time) (fresh : Bool) (hissued : ∃ pk t, .issued token pk t ∈ σ.past)
      (hactive : user.isActive = σ.active user.pk) (hat : at_.getD σ.store.clock = σ.now)
      (h : M.run cfg (consume cfg (some token) user at_ fresh) σ.store = (.ok b, s)) :
      Step cfg σ { σ with store := s, past := .consumed token user.pk fresh b :: σ.past }
  | invalidateAllForUser {σ : Session} {s : Store} (user : User)
      (h : M.run cfg (invalidateAllForUser user) σ.store = (.ok (), s)) :
      Step cfg σ { σ with store := s, past := .invalidated user.pk :: σ.past }
  | setActive {σ : Session} (pk : Nat) (b : Bool) :
      Step cfg σ { σ with active := Function.update σ.active pk b }
  | advance {σ : Session} (a b : Nat) (h : a ≤ b) :
      Step cfg σ { σ with
        store := { σ.store with clock := σ.store.clock + a }
        now := σ.now + b }

structure Initial (σ : Session) : Prop where
  past : σ.past = []
  cache : ∀ key, σ.store.cache key = none

def Reached (cfg : Settings) (σ : Session) : Prop :=
  ∃ σ₀, Initial σ₀ ∧ ReflTransGen (Step cfg) σ₀ σ

/-- Issued at `t`, stored when the clock of the cache showed `p`, with the `m`-th
draw as its generation. -/
structure Held (cfg : Settings) (s : Store) (now : Time) (token : String) (pk : Nat) (t p : Time)
    (m : Nat) (stale used : Prop) : Prop where
  stored : p ≤ s.clock
  aged : t + s.clock ≤ p + now
  drawn : m < s.drawn
  generation : ∃ k, s.cache (generationPrefix ++ str pk) = some ⟨.text (cfg.secret k), none⟩ ∧
    (k = m ↔ ¬ stale)
  entry : ∀ e, s.cache (tokenPrefix ++ token) = some e →
    e = ⟨.payload ⟨str pk, some (cfg.secret m), t + cfg.ttl⟩, some (p + cfg.ttl * 2)⟩
  claimed : cfg.window = false → s.cache (consumedPrefix ++ token) ≠ none →
    s.cache (tokenPrefix ++ token) = none
  popped : cfg.window = false → used → s.cache (tokenPrefix ++ token) = none
  gone : s.cache (tokenPrefix ++ token) = none →
    cfg.window = false ∧ (used ∨ stale ∨ t + cfg.ttl ≤ now)
  unmarked : cfg.window = true → ¬ used → s.cache (usedPrefix ++ token) = none
  marked : cfg.window = true → used → ∃ τ, p ≤ τ ∧
    s.cache (usedPrefix ++ token) = some ⟨.flag, some (τ + cfg.ttl * 2)⟩

section Held

variable {s s' : Store} {now : Time} {token : String} {pk m : Nat} {t p : Time}
  {stale used : Prop}

theorem Held.move (h : Held cfg s now token pk t p m stale used) (s' : Store)
    (hclock : s'.clock = s.clock) (hdrawn : s.drawn ≤ s'.drawn) {stale' : Prop}
    (hstale : stale → stale')
    (hgeneration : ∃ k, s'.cache (generationPrefix ++ str pk) =
      some ⟨.text (cfg.secret k), none⟩ ∧ (k = m ↔ ¬ stale'))
    (htoken : s'.cache (tokenPrefix ++ token) = s.cache (tokenPrefix ++ token))
    (hconsumed : s'.cache (consumedPrefix ++ token) = s.cache (consumedPrefix ++ token))
    (hused : s'.cache (usedPrefix ++ token) = s.cache (usedPrefix ++ token)) :
    Held cfg s' now token pk t p m stale' used where
  stored := hclock ▸ h.stored
  aged := hclock ▸ h.aged
  drawn := h.drawn.trans_le hdrawn
  generation := hgeneration
  entry := htoken ▸ h.entry
  claimed := by rw [htoken, hconsumed]; exact h.claimed
  popped := by rw [htoken]; exact h.popped
  gone hnone := by
    rw [htoken] at hnone
    exact (h.gone hnone).imp_right (.imp_right (.imp_left hstale))
  unmarked := by rw [hused]; exact h.unmarked
  marked := by rw [hused]; exact h.marked

theorem Held.advance (h : Held cfg s now token pk t p m stale used) {a b : Nat} (hab : a ≤ b) :
    Held cfg { s with clock := s.clock + a } (now + b) token pk t p m stale used :=
  { h with
    stored := h.stored.trans (Nat.le_add_right _ _)
    aged := by
      have haged := h.aged
      dsimp only
      lia
    gone := fun hnone => (h.gone hnone).imp_right
      (.imp_right (.imp_right fun hexpired => hexpired.trans (Nat.le_add_right _ _))) }

theorem Held.congr (h : Held cfg s now token pk t p m stale used) {stale' used' : Prop}
    (hstale : stale ↔ stale') (hused : used ↔ used') :
    Held cfg s now token pk t p m stale' used' := by
  rwa [← propext hstale, ← propext hused]

theorem Held.read_generation (h : Held cfg s now token pk t p m stale used) :
    ∃ k, generationOf cfg s pk = (cfg.secret k, s) ∧ (k = m ↔ ¬ stale) := by
  obtain ⟨k, hcache, hk⟩ := h.generation
  have hread : s.read (generationPrefix ++ str pk) = some (.text (cfg.secret k)) :=
    Store.read_some.mpr ⟨_, hcache, rfl, rfl⟩
  refine ⟨k, ?_, hk⟩
  rw [generationOf, hread]
  rfl

theorem Held.present (h : Held cfg s now token pk t p m stale used) {value : Value}
    (hread : s.read (tokenPrefix ++ token) = some value) :
    s.cache (tokenPrefix ++ token) ≠ none ∧
      value = .payload ⟨str pk, some (cfg.secret m), t + cfg.ttl⟩ := by
  obtain ⟨e, he, -, rfl⟩ := Store.read_some.mp hread
  obtain rfl := h.entry e he
  exact ⟨by simp [he], rfl⟩

theorem Held.absent (h : Held cfg s now token pk t p m stale used)
    (hread : s.read (tokenPrefix ++ token) = none) :
    t + cfg.ttl ≤ now ∨ stale ∨ cfg.window = false ∧ used := by
  cases hcache : s.cache (tokenPrefix ++ token) with
  | none =>
    obtain ⟨hwindow, hwhy⟩ := h.gone hcache
    rcases hwhy with hused | hstale | hexpired
    · exact .inr (.inr ⟨hwindow, hused⟩)
    · exact .inr (.inl hstale)
    · exact .inl hexpired
  | some e =>
    have hdead := Store.read_none.mp hread e hcache
    rw [h.entry e hcache] at hdead
    have hdead : p + cfg.ttl * 2 ≤ s.clock := by simpa using hdead
    have haged := h.aged
    exact .inl (by lia)

theorem Held.read_used (h : Held cfg s now token pk t p m stale used) (hwindow : cfg.window = true)
    (hlive : now < t + cfg.ttl) :
    (s.read (usedPrefix ++ token)).isSome = true ↔ used := by
  constructor
  · intro hsome
    by_contra hunused
    simp [Store.read, h.unmarked hwindow hunused] at hsome
  · intro hused
    obtain ⟨τ, hτ, hcache⟩ := h.marked hwindow hused
    have hread : s.read (usedPrefix ++ token) = some .flag := by
      refine Store.read_some.mpr ⟨_, hcache, ?_, rfl⟩
      have haged := h.aged
      have houtlive : s.clock < τ + cfg.ttl * 2 := by lia
      simpa using houtlive
    simp [hread]

structure Near (token : String) (s s' : Store) : Prop where
  clock : s'.clock = s.clock
  drawn : s'.drawn = s.drawn
  cache : ∀ key, key ≠ tokenPrefix ++ token → key ≠ usedPrefix ++ token →
    key ≠ consumedPrefix ++ token → s'.cache key = s.cache key

theorem Near.refl (token : String) (s : Store) : Near token s s := ⟨rfl, rfl, fun _ _ _ _ => rfl⟩

theorem Near.put {key : String} (hkey : key = tokenPrefix ++ token ∨ key = usedPrefix ++ token ∨
    key = consumedPrefix ++ token) (h : Near token s s') (e : Option Entry) :
    Near token s (s'.put key e) where
  clock := h.clock
  drawn := h.drawn
  cache key' htoken hused hconsumed := by
    rw [Store.put_of_ne, h.cache key' htoken hused hconsumed]
    rintro rfl
    rcases hkey with rfl | rfl | rfl
    · exact htoken rfl
    · exact hused rfl
    · exact hconsumed rfl

theorem Near.generation (h : Near token s s') (htoken : Urlsafe token) (pk : Nat) :
    s'.cache (generationPrefix ++ str pk) = s.cache (generationPrefix ++ str pk) :=
  h.cache _ (generationFamily.key_ne htoken _).symm (generation_ne_used _ _)
    (generation_ne_consumed _ _)

theorem Held.pop (h : Held cfg s now token pk t p m stale used) (hwindow : cfg.window = false)
    (hpresent : s.cache (tokenPrefix ++ token) ≠ none) :
    ∃ s', ReAuth.popped cfg s token = some s' ∧ Near token s s' ∧
      s'.cache (tokenPrefix ++ token) = none := by
  have hunclaimed : s.cache (consumedPrefix ++ token) = none := by
    by_contra hclaimed
    exact hpresent (h.claimed hwindow hclaimed)
  unfold ReAuth.popped
  cases cfg.redis with
  | true => exact ⟨_, rfl, (Near.refl token s).put (.inl rfl) none, Store.put_self _ _⟩
  | false =>
    simp only [Store.read, hunclaimed, Bool.false_eq_true, if_false, Option.filter_none,
      Option.map_none, Option.isSome_none]
    exact ⟨_, rfl, ((Near.refl token s).put (.inr (.inr rfl)) _).put (.inl rfl) none,
      Store.put_self _ _⟩

theorem Held.after_pop (h : Held cfg s now token pk t p m stale used) (hwindow : cfg.window = false)
    (htoken : Urlsafe token) (hnear : Near token s s')
    (hnone : s'.cache (tokenPrefix ++ token) = none) {used' : Prop}
    (hwhy : used' ∨ stale ∨ t + cfg.ttl ≤ now) :
    Held cfg s' now token pk t p m stale used' where
  stored := hnear.clock ▸ h.stored
  aged := hnear.clock ▸ h.aged
  drawn := hnear.drawn ▸ h.drawn
  generation := hnear.generation htoken pk ▸ h.generation
  entry := by simp [hnone]
  claimed _ _ := hnone
  popped _ _ := hnone
  gone _ := ⟨hwindow, hwhy⟩
  unmarked := by simp [hwindow]
  marked := by simp [hwindow]

theorem Held.mark (h : Held cfg s now token pk t p m stale used) (hwindow : cfg.window = true)
    (htoken : Urlsafe token) {used' : Prop} (hused' : used') :
    Held cfg (s.put (usedPrefix ++ token) (some (s.entry .flag (some (cfg.ttl * 2))))) now token pk
      t p m stale used' where
  stored := h.stored
  aged := h.aged
  drawn := h.drawn
  generation := by
    rw [Store.put_of_ne (generation_ne_used _ _)]
    exact h.generation
  entry := by
    rw [Store.put_of_ne (usedFamily.key_ne htoken token)]
    exact h.entry
  claimed := by simp [hwindow]
  popped := by simp [hwindow]
  gone := by
    rw [Store.put_of_ne (usedFamily.key_ne htoken token)]
    intro hnone
    simpa [hwindow] using (h.gone hnone).1
  unmarked _ hunused := absurd hused' hunused
  marked _ _ := ⟨s.clock, h.stored, Store.put_self _ _⟩

structure Open (cfg : Settings) (now : Time) (pk : Nat) (t : Time) (stale used : Prop) (user : User)
    (fresh : Bool) : Prop where
  owner : user.pk = pk
  active : user.isActive
  unexpired : now < t + cfg.ttl
  current : ¬ stale
  unused : (cfg.window = true → fresh = true) → ¬ used

def Judged (cfg : Settings) (s : Store) (now : Time) (token : String) (pk : Nat) (t p : Time)
    (m : Nat) (stale used : Prop) (user : User) (at_ : Option Time) (fresh : Bool) : Prop :=
  ∃ b s', M.run cfg (consume cfg (some token) user at_ fresh) s = (.ok b, s') ∧
    Near token s s' ∧ Held cfg s' now token pk t p m stale (used ∨ b = true) ∧
    (b = true ↔ Open cfg now pk t stale used user fresh)

theorem Held.refused (h : Held cfg s now token pk t p m stale used) {user : User}
    {at_ : Option Time} {fresh : Bool}
    (hrun : M.run cfg (consume cfg (some token) user at_ fresh) s = (.ok false, s))
    (hshut : ¬ Open cfg now pk t stale used user fresh) :
    Judged cfg s now token pk t p m stale used user at_ fresh :=
  ⟨false, s, hrun, .refl token s, h.congr Iff.rfl (by simp), by simp [hshut]⟩

section Consume

variable (h : Held cfg s now token pk t p m stale used) (htoken : Urlsafe token) (hne : token ≠ "")
  {user : User} (hactive : user.isActive) (howner : user.pk = pk)
  (hread : s.read (tokenPrefix ++ token) =
    some (.payload ⟨str pk, some (cfg.secret m), t + cfg.ttl⟩))
  {at_ : Option Time} (hat : at_.getD s.clock = now) (fresh : Bool)
include h htoken hne hactive howner hread hat

theorem Held.consume_single (hwindow : cfg.window = false) :
    Judged cfg s now token pk t p m stale used user at_ fresh := by
  have hpresent := (h.present hread).1
  have hunused : ¬ used := fun hused => hpresent (h.popped hwindow hused)
  obtain ⟨s', hpopped, hnear, hnone⟩ := h.pop hwindow hpresent
  have hrun := run_consume_single hne hactive at_ fresh hwindow hread (congrArg str howner.symm)
  simp only [hpopped] at hrun
  rw [hnear.clock, hat] at hrun
  by_cases hlive : now < t + cfg.ttl
  · have hpop : Held cfg s' now token pk t p m stale True :=
      h.after_pop hwindow htoken hnear hnone (.inl trivial)
    obtain ⟨k, hgeneration, hk⟩ := hpop.read_generation
    rw [if_pos hlive, howner, hgeneration] at hrun
    have hcurrent : cfg.secret m = cfg.secret k ↔ ¬ stale := by
      rw [← hk, cfg.secret_injective.eq_iff, eq_comm]
    refine ⟨_, s', hrun, hnear, h.after_pop hwindow htoken hnear hnone ?_, ?_⟩
    · by_cases hstale : stale
      · exact .inr (.inl hstale)
      · simp [hcurrent.mpr hstale]
    · simp only [Option.some.injEq, decide_eq_true_eq, hcurrent]
      exact ⟨fun hstale => ⟨howner, hactive, hlive, hstale, fun _ => hunused⟩, (·.current)⟩
  · rw [if_neg hlive] at hrun
    refine ⟨false, s', hrun, hnear, h.after_pop hwindow htoken hnear hnone ?_, ?_⟩
    · exact .inr (.inr (not_lt.mp hlive))
    · simp only [Bool.false_eq_true, false_iff]
      exact fun hopen => hlive hopen.unexpired

theorem Held.consume_window (hwindow : cfg.window = true) :
    Judged cfg s now token pk t p m stale used user at_ fresh := by
  have hid : str pk = str user.pk := congrArg str howner.symm
  have hrun := (run_consume_window hne hactive at_ fresh hwindow hread hid).trans
    (run_consumeInWindow hid token at_ fresh)
  obtain ⟨k, hgeneration, hk⟩ := h.read_generation
  simp only [hat, howner, hgeneration] at hrun
  have hcurrent : cfg.secret m = cfg.secret k ↔ ¬ stale := by
    rw [← hk, cfg.secret_injective.eq_iff, eq_comm]
  by_cases hlive : now < t + cfg.ttl
  · rw [if_pos hlive] at hrun
    by_cases hstale : stale
    · rw [if_pos (by simpa [hcurrent] using hstale)] at hrun
      exact h.refused hrun fun hopen => hopen.current hstale
    rw [if_neg (by simpa [hcurrent] using hstale)] at hrun
    by_cases hused : used
    · rw [if_pos ((h.read_used hwindow hlive).mpr hused)] at hrun
      refine ⟨_, s, hrun, .refl token s, h.congr Iff.rfl (by simp [hused]), ?_⟩
      simp only [Bool.not_eq_true']
      exact ⟨fun hfresh => ⟨howner, hactive, hlive, hstale, by simp [hwindow, hfresh]⟩,
        fun hopen => by simpa [hwindow, hused] using hopen.unused⟩
    · rw [if_neg (mt (h.read_used hwindow hlive).mp hused)] at hrun
      refine ⟨true, _, hrun, (Near.refl token s).put (.inr (.inl rfl)) _,
        h.mark hwindow htoken (.inr rfl), ?_⟩
      simp only [true_iff]
      exact ⟨howner, hactive, hlive, hstale, fun _ => hused⟩
  · rw [if_neg hlive] at hrun
    exact h.refused hrun fun hopen => hlive hopen.unexpired

end Consume

theorem Held.consume (h : Held cfg s now token pk t p m stale used) (htoken : Urlsafe token)
    (hne : token ≠ "") (user : User) {at_ : Option Time} (hat : at_.getD s.clock = now)
    (fresh : Bool) : Judged cfg s now token pk t p m stale used user at_ fresh := by
  cases hactive : user.isActive with
  | false =>
    exact h.refused (run_consume_inactive hne hactive at_ fresh) fun hopen => by
      simpa [hactive] using hopen.active
  | true =>
    cases hread : s.read (tokenPrefix ++ token) with
    | none =>
      refine h.refused (run_consume_absent hne hactive at_ fresh hread) fun hopen => ?_
      rcases h.absent hread with hexpired | hstale | ⟨hwindow, hused⟩
      · exact not_lt.mpr hexpired hopen.unexpired
      · exact hopen.current hstale
      · exact hopen.unused (by simp [hwindow]) hused
    | some value =>
      obtain ⟨-, rfl⟩ := h.present hread
      by_cases howner : user.pk = pk
      · cases hwindow : cfg.window with
        | false => exact h.consume_single htoken hne hactive howner hread hat fresh hwindow
        | true => exact h.consume_window htoken hne hactive howner hread hat fresh hwindow
      · refine h.refused (run_consume_foreign hne hactive at_ fresh hread ?_) fun hopen =>
          howner hopen.owner
        exact fun hid => howner (str_injective hid).symm

end Held

structure CacheFollows (cfg : Settings) (s : Store) (now : Time) (past : List Record) : Prop where
  held : ∀ {after token pk t before}, past = after ++ .issued token pk t :: before →
    ∃ p m, Held cfg s now token pk t p m (.invalidated pk ∈ after) (Used token past)
  known : ∀ r ∈ past, ∀ token ∈ r.token, ∃ n < s.drawn, token = cfg.secret n
  generations : ∀ pk e, s.cache (generationPrefix ++ str pk) = some e →
    ∃ k < s.drawn, e = ⟨.text (cfg.secret k), none⟩
  unborn : ∀ n, s.drawn ≤ n → s.cache (usedPrefix ++ cfg.secret n) = none ∧
    s.cache (consumedPrefix ++ cfg.secret n) = none
  legacy : ∀ pk, s.cache (legacyUserIndexPrefix ++ str pk) = none

variable {s s' : Store} {now : Time} {past : List Record} {token : String}

theorem CacheFollows.advance (h : CacheFollows cfg s now past) {a b : Nat} (hab : a ≤ b) :
    CacheFollows cfg { s with clock := s.clock + a } (now + b) past where
  held hpast := by
    obtain ⟨p, m, hheld⟩ := h.held hpast
    exact ⟨p, m, hheld.advance hab⟩
  known := h.known
  generations := h.generations
  unborn := h.unborn
  legacy := h.legacy

theorem cons_eq {r : Record} {after before : List Record} {token : String} {pk : Nat} {t : Time}
    (hr : r.token ≠ some token ∨ ∀ pk t, r ≠ .issued token pk t)
    (h : r :: past = after ++ .issued token pk t :: before) :
    ∃ after', after = r :: after' ∧ past = after' ++ .issued token pk t :: before := by
  cases after with
  | nil =>
    obtain ⟨rfl, -⟩ := List.cons.inj h
    exact hr.elim (absurd rfl) fun hr => absurd rfl (hr pk t)
  | cons r' after' =>
    obtain ⟨rfl, hpast⟩ := List.cons.inj h
    exact ⟨after', rfl, hpast⟩

theorem used_cons {r : Record} {token : String}
    (hr : ∀ pk fresh, r ≠ .consumed token pk fresh true) :
    Used token past ↔ Used token (r :: past) := by
  simp only [Used, List.mem_cons]
  refine exists₂_congr fun pk fresh => ?_
  simp [(hr pk fresh).symm]

theorem CacheFollows.known_issued (h : CacheFollows cfg s now past) {after before : List Record}
    {token : String} {pk : Nat} {t : Time} (hpast : past = after ++ .issued token pk t :: before) :
    ∃ n < s.drawn, token = cfg.secret n :=
  h.known (.issued token pk t) (by simp [hpast]) token rfl

theorem Near.held (h : Near token s s') (htoken : Urlsafe token) {token' : String}
    (htoken' : Urlsafe token') (hne : token' ≠ token) {pk m : Nat} {t : Time} {stale used : Prop}
    (hheld : Held cfg s now token' pk t p m stale used) :
    Held cfg s' now token' pk t p m stale used := by
  refine hheld.move s' h.clock h.drawn.ge id (h.generation htoken pk ▸ hheld.generation) ?_ ?_ ?_
  · exact h.cache _ (mt key_inj.mp hne) (usedFamily.key_ne htoken' _)
      (consumedFamily.key_ne htoken' _)
  · exact h.cache _ (consumedFamily.key_ne htoken _).symm (consumed_ne_used _ _)
      (mt key_inj.mp hne)
  · exact h.cache _ (usedFamily.key_ne htoken _).symm (mt key_inj.mp hne)
      (consumed_ne_used _ _).symm

theorem CacheFollows.consume (h : CacheFollows cfg s now past)
    (hissued : ∃ pk t, .issued token pk t ∈ past)
    {user : User} {at_ : Option Time} (hat : at_.getD s.clock = now) {fresh b : Bool}
    (hrun : M.run cfg (consume cfg (some token) user at_ fresh) s = (.ok b, s')) :
    CacheFollows cfg s' now (.consumed token user.pk fresh b :: past) := by
  obtain ⟨pk, t, hmem⟩ := hissued
  obtain ⟨n, hn, rfl⟩ := h.known _ hmem token rfl
  have hurlsafe := cfg.secret_urlsafe
  have hjudged {after before : List Record} {pk : Nat} {t : Time}
      (hpast : past = after ++ .issued (cfg.secret n) pk t :: before) :
      Near (cfg.secret n) s s' ∧ ∃ p m, Held cfg s' now (cfg.secret n) pk t p m
        (Record.invalidated pk ∈ after) (Used (cfg.secret n) past ∨ b = true) := by
    obtain ⟨p, m, hheld⟩ := h.held hpast
    obtain ⟨b', s'', hrun', hnear, hheld', -⟩ :=
      hheld.consume (hurlsafe n) (cfg.secret_ne n) user hat fresh
    obtain ⟨hb, rfl⟩ := Prod.mk.inj (hrun.symm.trans hrun')
    obtain rfl := Except.ok.inj hb
    exact ⟨hnear, p, m, hheld'⟩
  obtain ⟨after, before, hpast⟩ := List.append_of_mem hmem
  have hnear := (hjudged hpast).1
  refine ⟨fun {after token pk t before} heq => ?_, fun r hr token htoken => ?_, fun pk e he => ?_,
    fun k hk => ?_, fun pk => ?_⟩
  · obtain ⟨after, rfl, hpast⟩ := cons_eq (.inr (by simp)) heq
    have hstale : .invalidated pk ∈ after ↔
        .invalidated pk ∈ Record.consumed (cfg.secret n) user.pk fresh b :: after := by simp
    by_cases htoken : token = cfg.secret n
    · subst htoken
      obtain ⟨p, m, hheld⟩ := (hjudged hpast).2
      refine ⟨p, m, hheld.congr hstale ?_⟩
      cases b with
      | true => exact iff_of_true (.inr rfl) ⟨user.pk, fresh, List.mem_cons_self ..⟩
      | false => simpa using used_cons (by simp)
    · obtain ⟨p, m, hheld⟩ := h.held hpast
      obtain ⟨k, -, rfl⟩ := h.known_issued hpast
      refine ⟨p, m, (hnear.held (hurlsafe n) (hurlsafe k) htoken hheld).congr hstale (used_cons ?_)⟩
      simp [Ne.symm htoken]
  · rw [hnear.drawn]
    rcases List.mem_cons.mp hr with rfl | hr
    · obtain rfl := Option.some.inj htoken
      exact ⟨n, hn, rfl⟩
    · exact h.known r hr token htoken
  · rw [hnear.drawn]
    exact h.generations pk e (hnear.generation (hurlsafe n) pk ▸ he)
  · have hne : cfg.secret k ≠ cfg.secret n := fun heq =>
      absurd (cfg.secret_injective heq) (hnear.drawn ▸ hk |>.trans_lt' hn).ne'
    obtain ⟨hused, hclaimed⟩ := h.unborn k (hnear.drawn ▸ hk)
    constructor
    · rwa [hnear.cache _ (usedFamily.key_ne (hurlsafe n) _).symm (mt key_inj.mp hne)
        (consumed_ne_used _ _).symm]
    · rwa [hnear.cache _ (consumedFamily.key_ne (hurlsafe n) _).symm (consumed_ne_used _ _)
        (mt key_inj.mp hne)]
  · rw [hnear.cache _ (legacyFamily.key_ne (hurlsafe n) _).symm
      (used_ne_legacy _ _).symm (consumed_ne_legacy _ _).symm]
    exact h.legacy pk

theorem CacheFollows.invalidateAllForUser (h : CacheFollows cfg s now past) {user : User}
    (hrun : M.run cfg (invalidateAllForUser user) s = (.ok (), s')) :
    CacheFollows cfg s' now (.invalidated user.pk :: past) := by
  have hread : s.read (legacyUserIndexPrefix ++ str user.pk) = none := by
    simp [Store.read, h.legacy user.pk]
  rw [run_invalidateAllForUser user hread] at hrun
  obtain ⟨-, rfl⟩ := Prod.mk.inj hrun
  set s' := (s.next.put (generationPrefix ++ str user.pk)
    (some ⟨.text (cfg.secret s.drawn), none⟩)).put (legacyUserIndexPrefix ++ str user.pk) none
    with hs'
  have hother {key : String} (hgeneration : key ≠ generationPrefix ++ str user.pk)
      (hlegacy : key ≠ legacyUserIndexPrefix ++ str user.pk) : s'.cache key = s.cache key := by
    rw [hs', Store.put_of_ne hlegacy, Store.put_of_ne hgeneration, Store.next_cache]
  have hself : s'.cache (generationPrefix ++ str user.pk) =
      some ⟨.text (cfg.secret s.drawn), none⟩ := by
    rw [hs', Store.put_of_ne (generation_ne_legacy _ _), Store.put_self]
  refine ⟨fun {after token pk t before} heq => ?_, fun r hr token htoken => ?_, fun pk e he => ?_,
    fun k hk => ?_, fun pk => ?_⟩
  · obtain ⟨after, rfl, hpast⟩ := cons_eq (.inr (by simp)) heq
    obtain ⟨p, m, hheld⟩ := h.held hpast
    obtain ⟨n, -, rfl⟩ := h.known_issued hpast
    have hurlsafe := cfg.secret_urlsafe n
    have hstale : Record.invalidated pk ∈ after →
        Record.invalidated pk ∈ Record.invalidated user.pk :: after := List.mem_cons_of_mem _
    refine ⟨p, m, Held.congr (hheld.move s' rfl (Nat.le_succ s.drawn) hstale ?_ ?_ ?_ ?_)
      Iff.rfl (used_cons (by simp))⟩
    · by_cases hpk : pk = user.pk
      · subst hpk
        refine ⟨s.drawn, hself, ?_⟩
        simp [hheld.drawn.ne']
      · rw [hother (mt (fun heq => str_injective (key_inj.mp heq)) hpk) (generation_ne_legacy _ _)]
        simpa [hpk] using hheld.generation
    · exact hother (generationFamily.key_ne hurlsafe _) (legacyFamily.key_ne hurlsafe _)
    · exact hother (generation_ne_consumed _ _).symm (consumed_ne_legacy _ _)
    · exact hother (generation_ne_used _ _).symm (used_ne_legacy _ _)
  · rcases List.mem_cons.mp hr with rfl | hr
    · cases htoken
    · obtain ⟨n, hn, rfl⟩ := h.known r hr token htoken
      exact ⟨n, hn.trans (Nat.lt_succ_self _), rfl⟩
  · by_cases hpk : pk = user.pk
    · subst hpk
      rw [hself] at he
      exact ⟨s.drawn, Nat.lt_succ_self _, (Option.some.inj he).symm⟩
    · rw [hother (mt (fun heq => str_injective (key_inj.mp heq)) hpk)
        (generation_ne_legacy _ _)] at he
      obtain ⟨k, hk, rfl⟩ := h.generations pk e he
      exact ⟨k, hk.trans (Nat.lt_succ_self _), rfl⟩
  · rw [hother (generation_ne_used _ _).symm (used_ne_legacy _ _),
      hother (generation_ne_consumed _ _).symm (consumed_ne_legacy _ _)]
    exact h.unborn k (Nat.le_of_succ_le hk)
  · by_cases hpk : pk = user.pk
    · subst hpk
      exact Store.put_self _ _
    · rw [hother (generation_ne_legacy _ _).symm
        (mt (fun heq => str_injective (key_inj.mp heq)) hpk)]
      exact h.legacy pk

structure Stamped (cfg : Settings) (s : Store) (pk k : Nat) (s' : Store) : Prop where
  value : generationOf cfg s.next pk = (cfg.secret k, s')
  generation : s'.cache (generationPrefix ++ str pk) = some ⟨.text (cfg.secret k), none⟩
  drawn : k < s'.drawn
  grows : s.drawn < s'.drawn
  clock : s'.clock = s.clock
  other : ∀ key, key ≠ generationPrefix ++ str pk → s'.cache key = s.cache key
  kept : s.cache (generationPrefix ++ str pk) ≠ none →
    s'.cache (generationPrefix ++ str pk) = s.cache (generationPrefix ++ str pk)

theorem CacheFollows.stamp (h : CacheFollows cfg s now past) (pk : Nat) :
    ∃ k s', Stamped cfg s pk k s' := by
  cases hcache : s.cache (generationPrefix ++ str pk) with
  | some e =>
    obtain ⟨k, hk, rfl⟩ := h.generations pk e hcache
    have hread : s.next.read (generationPrefix ++ str pk) = some (.text (cfg.secret k)) :=
      Store.read_some.mpr ⟨_, hcache, rfl, rfl⟩
    refine ⟨k, s.next, ?_, hcache, hk.trans (Nat.lt_succ_self _), Nat.lt_succ_self _, rfl,
      fun _ _ => rfl, fun _ => rfl⟩
    rw [generationOf, hread]
    rfl
  | none =>
    have hread : s.next.read (generationPrefix ++ str pk) = none := by simp [Store.read, hcache]
    refine ⟨s.drawn + 1, s.next.next.put (generationPrefix ++ str pk)
      (some ⟨.text (cfg.secret (s.drawn + 1)), none⟩), ?_, Store.put_self _ _, Nat.lt_succ_self _,
      Nat.lt_succ_of_lt (Nat.lt_succ_self _), rfl, fun key hkey => Store.put_of_ne hkey _,
      absurd hcache⟩
    rw [generationOf, hread]
    rfl

theorem CacheFollows.mint (h : CacheFollows cfg s now past) {pk k : Nat} {s₁ : Store}
    (hs₁ : Stamped cfg s pk k s₁)
    (hs' : s' = s₁.put (tokenPrefix ++ cfg.secret s.drawn) (some
      ⟨.payload ⟨str pk, some (cfg.secret k), now + cfg.ttl⟩,
        some (s.clock + cfg.ttl * 2)⟩)) :
    CacheFollows cfg s' now (.issued (cfg.secret s.drawn) pk now :: past) := by
  have hurlsafe := cfg.secret_urlsafe s.drawn
  have hclock : s'.clock = s.clock := hs' ▸ hs₁.clock
  have hdrawn : s.drawn < s'.drawn := hs' ▸ hs₁.grows
  have hother {key : String} (htoken : key ≠ tokenPrefix ++ cfg.secret s.drawn)
      (hgeneration : key ≠ generationPrefix ++ str pk) : s'.cache key = s.cache key := by
    rw [hs', Store.put_of_ne htoken, hs₁.other key hgeneration]
  have hgeneration : s'.cache (generationPrefix ++ str pk) =
      some ⟨.text (cfg.secret k), none⟩ := by
    rw [hs', Store.put_of_ne (generationFamily.key_ne hurlsafe _).symm, hs₁.generation]
  have hused (token : String) : s'.cache (usedPrefix ++ token) = s.cache (usedPrefix ++ token) :=
    hother (usedFamily.key_ne hurlsafe _).symm (generation_ne_used _ _).symm
  have hconsumed (token : String) :
      s'.cache (consumedPrefix ++ token) = s.cache (consumedPrefix ++ token) :=
    hother (consumedFamily.key_ne hurlsafe _).symm (generation_ne_consumed _ _).symm
  have hnew : ∀ r ∈ past, r.token ≠ some (cfg.secret s.drawn) := by
    intro r hr htoken
    obtain ⟨n, hn, heq⟩ := h.known r hr _ htoken
    exact hn.ne (cfg.secret_injective heq.symm)
  refine ⟨fun {after token pk' t before} heq => ?_, fun r hr token htoken => ?_, fun pk' e he => ?_,
    fun n hn => ?_, fun pk' => ?_⟩
  · cases after with
    | nil =>
      obtain ⟨hrecord, rfl⟩ := List.cons.inj heq
      obtain ⟨rfl, rfl, rfl⟩ := Record.issued.inj hrecord
      have hunused : ¬ Used (cfg.secret s.drawn)
          (.issued (cfg.secret s.drawn) pk now :: past) := by
        rw [← used_cons (by simp)]
        rintro ⟨pk', fresh, hmem⟩
        exact hnew _ hmem rfl
      obtain ⟨hunmarked, hunclaimed⟩ := h.unborn s.drawn le_rfl
      have htoken : s'.cache (tokenPrefix ++ cfg.secret s.drawn) =
          some ⟨.payload ⟨str pk, some (cfg.secret k), now + cfg.ttl⟩,
            some (s.clock + cfg.ttl * 2)⟩ := by rw [hs', Store.put_self]
      exact ⟨s.clock, k, {
        stored := hclock.ge
        aged := by rw [hclock, Nat.add_comm]
        drawn := hs' ▸ hs₁.drawn
        generation := ⟨k, hgeneration, by simp⟩
        entry := fun e he => (Option.some.inj (htoken.symm.trans he)).symm
        claimed := fun _ hclaimed => absurd ((hconsumed _).trans hunclaimed) hclaimed
        popped := fun _ hyes => absurd hyes hunused
        gone := fun hnone => by simp [htoken] at hnone
        unmarked := fun _ _ => (hused _).trans hunmarked
        marked := fun _ hyes => absurd hyes hunused }⟩
    | cons r after =>
      obtain ⟨rfl, hpast⟩ := List.cons.inj heq
      obtain ⟨p, m, hheld⟩ := h.held hpast
      obtain ⟨n, hn, rfl⟩ := h.known_issued hpast
      have hne : cfg.secret n ≠ cfg.secret s.drawn := mt (@cfg.secret_injective _ _) hn.ne
      have hkept :
          s'.cache (generationPrefix ++ str pk') = s.cache (generationPrefix ++ str pk') := by
        by_cases hpk : pk' = pk
        · subst hpk
          obtain ⟨j, hj, -⟩ := hheld.generation
          rw [hgeneration, ← hs₁.generation, hs₁.kept (by simp [hj])]
        · exact hother (generationFamily.key_ne hurlsafe _).symm
            (mt (fun heq => str_injective (key_inj.mp heq)) hpk)
      refine ⟨p, m, Held.congr (hheld.move s' hclock hdrawn.le id (hkept ▸ hheld.generation) ?_
        (hconsumed _) (hused _)) (by simp) (used_cons (by simp))⟩
      exact hother (mt key_inj.mp hne) (generationFamily.key_ne (cfg.secret_urlsafe n) _)
  · rcases List.mem_cons.mp hr with rfl | hr
    · obtain rfl := Option.some.inj htoken
      exact ⟨s.drawn, hdrawn, rfl⟩
    · obtain ⟨n, hn, rfl⟩ := h.known r hr token htoken
      exact ⟨n, hn.trans hdrawn, rfl⟩
  · by_cases hpk : pk' = pk
    · subst hpk
      exact ⟨k, hs' ▸ hs₁.drawn, Option.some.inj (he.symm.trans hgeneration)⟩
    · rw [hother (generationFamily.key_ne hurlsafe _).symm
        (mt (fun heq => str_injective (key_inj.mp heq)) hpk)] at he
      obtain ⟨n, hn, rfl⟩ := h.generations pk' e he
      exact ⟨n, hn.trans hdrawn, rfl⟩
  · rw [hused, hconsumed]
    exact h.unborn n (hdrawn.le.trans hn)
  · rw [hother (legacyFamily.key_ne hurlsafe _).symm (generation_ne_legacy _ _).symm]
    exact h.legacy pk'

theorem CacheFollows.issue (h : CacheFollows cfg s now past) {user : User} {verifier : String}
    {at_ : Option Time}
    {credentials : Credentials} (hat : at_.getD s.clock = now) {token : Option String}
    (hrun : M.run cfg (issue cfg user verifier at_ credentials) s = (.ok token, s')) :
    CacheFollows cfg s' now ((token.map fun token => .issued token user.pk now).toList ++ past) := by
  obtain ⟨k, s₁, hs₁⟩ := h.stamp user.pk
  rw [run_issue, minted, hs₁.value, hat] at hrun
  split at hrun
  · obtain ⟨htoken, rfl⟩ := Prod.mk.inj hrun
    obtain rfl := Except.ok.inj htoken
    refine h.mint hs₁ ?_
    simp [Store.entry, hs₁.clock]
  · obtain ⟨htoken, rfl⟩ := Prod.mk.inj hrun
    obtain rfl := Except.ok.inj htoken
    exact h

theorem CacheFollows.initial {σ : Session} (h : Initial σ) :
    CacheFollows cfg σ.store σ.now σ.past where
  held hpast := by simp [h.past] at hpast
  known := by simp [h.past]
  generations := by simp [h.cache]
  unborn := by simp [h.cache]
  legacy := by simp [h.cache]

theorem Reached.kept {σ : Session} (h : Reached cfg σ) : CacheFollows cfg σ.store σ.now σ.past := by
  obtain ⟨σ₀, hinit, hsteps⟩ := h
  induction hsteps with
  | refl => exact .initial hinit
  | tail _ hstep ih =>
    cases hstep with
    | issue user verifier at_ credentials _ hat hrun => exact ih.issue hat hrun
    | consume user at_ fresh hissued _ hat hrun => exact ih.consume hissued hat hrun
    | invalidateAllForUser user hrun => exact ih.invalidateAllForUser hrun
    | setActive pk b => exact ih
    | advance a b hab => exact ih.advance hab

theorem splits_skip {r x : Record} (hne : r ≠ x) (more past : List Record)
    {P : List Record → Prop} (hP : ∀ as bs, P (as ++ r :: bs) ↔ P (as ++ bs)) :
    (∃ after before, more ++ r :: past = after ++ x :: before ∧ P after) ↔
      ∃ after before, more ++ past = after ++ x :: before ∧ P after := by
  constructor
  · rintro ⟨after, before, heq, h⟩
    rcases List.append_eq_append_iff.mp heq with ⟨as, rfl, has⟩ | ⟨bs, rfl, hbs⟩
    · cases as with
      | nil => exact absurd (List.cons.inj has).1 hne
      | cons r' as =>
        obtain ⟨rfl, rfl⟩ := List.cons.inj has
        exact ⟨more ++ as, before, by simp, (hP more as).mp h⟩
    · cases bs with
      | nil => exact absurd (List.cons.inj hbs).1.symm hne
      | cons x' bs =>
        obtain ⟨rfl, rfl⟩ := List.cons.inj hbs
        exact ⟨after, bs ++ past, by simp, h⟩
  · rintro ⟨after, before, heq, h⟩
    rcases List.append_eq_append_iff.mp heq with ⟨as, rfl, rfl⟩ | ⟨bs, rfl, hbs⟩
    · exact ⟨more ++ r :: as, before, by simp, (hP more as).mpr h⟩
    · cases bs with
      | nil =>
        obtain rfl := hbs
        exact ⟨after ++ [r], before, by simp, (hP after []).mpr (by simpa using h)⟩
      | cons x' bs =>
        obtain ⟨rfl, rfl⟩ := List.cons.inj hbs
        exact ⟨after, bs ++ r :: past, by simp, h⟩

theorem used_skip {r : Record} {token : String} (more past : List Record)
    (hr : ∀ pk fresh, r ≠ .consumed token pk fresh true) :
    Used token (more ++ r :: past) ↔ Used token (more ++ past) := by
  refine exists₂_congr fun pk fresh => ?_
  simp [(hr pk fresh).symm]

theorem Used.mono {past past' : List Record} (hsub : past ⊆ past') {token : String}
    (h : Used token past) : Used token past' :=
  h.imp fun _ h => h.imp fun _ h => hsub h

theorem verifies_iff {σ : Session} {pk : Nat} {fresh : Bool} {token : String} :
    Verifies cfg σ token pk fresh ↔ ∃ t, (∃ after before,
      σ.past = after ++ .issued token pk t :: before ∧ .invalidated pk ∉ after) ∧
      σ.now < t + cfg.ttl ∧ σ.active pk = true ∧
      ((cfg.window = true → fresh = true) → ¬ Used token σ.past) := by
  constructor
  · rintro ⟨after, before, t, hpast, hlive, hactive, hcurrent, hunused⟩
    exact ⟨t, ⟨after, before, hpast, hcurrent⟩, hlive, hactive, hunused⟩
  · rintro ⟨t, ⟨after, before, hpast, hcurrent⟩, hlive, hactive, hunused⟩
    exact ⟨after, before, t, hpast, hlive, hactive, hcurrent, hunused⟩

section Skip

variable {token token' : String} {pk pk' : Nat} {fresh fresh' b : Bool} (σ : Session)
  (more past : List Record)

theorem splits_consumed (t : Time) :
    (∃ after before, more ++ .consumed token pk fresh b :: past =
        after ++ .issued token' pk' t :: before ∧ .invalidated pk' ∉ after) ↔
      ∃ after before, more ++ past = after ++ .issued token' pk' t :: before ∧
        Record.invalidated pk' ∉ after :=
  splits_skip (by simp) more past fun as bs => by simp

theorem verifies_forget
    (h : Verifies cfg { σ with past := more ++ .consumed token pk fresh b :: past } token' pk'
      fresh') :
    Verifies cfg { σ with past := more ++ past } token' pk' fresh' := by
  rw [verifies_iff] at h ⊢
  obtain ⟨t, hsplit, hlive, hactive, hunused⟩ := h
  refine ⟨t, (splits_consumed more past t).mp hsplit, hlive, hactive, fun hfresh hused => ?_⟩
  exact hunused hfresh (hused.mono (by simp))

theorem verifies_failed :
    Verifies cfg { σ with past := more ++ .consumed token pk fresh false :: past } token' pk'
        fresh' ↔ Verifies cfg { σ with past := more ++ past } token' pk' fresh' := by
  rw [verifies_iff, verifies_iff]
  refine exists_congr fun t => ?_
  rw [splits_consumed more past t, used_skip more past (by simp)]

end Skip

/-- `consume` answers by the rule; whatever follows, a failed use changes no later
answer and no use makes a later one succeed. -/
def Refines (cfg : Settings) (σ : Session) (token : String) (user : User) (at_ : Option Time)
    (fresh : Bool) : Prop :=
  ∃ b s, M.run cfg (consume cfg (some token) user at_ fresh) σ.store = (.ok b, s) ∧
    (b = true ↔ Verifies cfg σ token user.pk fresh) ∧
    ∀ (σ' : Session) (more : List Record) (token' : String) (pk : Nat) (fresh' : Bool),
      let record := Record.consumed token user.pk fresh b
      (Verifies cfg { σ' with past := more ++ record :: σ.past } token' pk fresh' →
        Verifies cfg { σ' with past := more ++ σ.past } token' pk fresh') ∧
      (b = false → (Verifies cfg { σ' with past := more ++ record :: σ.past } token' pk fresh' ↔
        Verifies cfg { σ' with past := more ++ σ.past } token' pk fresh'))

theorem CacheFollows.answer {σ : Session} (h : CacheFollows cfg σ.store σ.now σ.past) {token : String}
    (hissued : ∃ pk t, .issued token pk t ∈ σ.past) {user : User}
    (hactive : user.isActive = σ.active user.pk) {at_ : Option Time}
    (hat : at_.getD σ.store.clock = σ.now) (fresh : Bool) :
    ∃ b s, M.run cfg (ReAuth.consume cfg (some token) user at_ fresh) σ.store = (.ok b, s) ∧
      (b = true ↔ Verifies cfg σ token user.pk fresh) := by
  obtain ⟨pk, t, hmem⟩ := hissued
  obtain ⟨n, -, rfl⟩ := h.known _ hmem token rfl
  have hjudged {after before : List Record} {pk : Nat} {t : Time}
      (hpast : σ.past = after ++ .issued (cfg.secret n) pk t :: before) :
      ∃ b s, M.run cfg (ReAuth.consume cfg (some (cfg.secret n)) user at_ fresh) σ.store =
        (.ok b, s) ∧ (b = true ↔ Open cfg σ.now pk t (Record.invalidated pk ∈ after)
          (Used (cfg.secret n) σ.past) user fresh) := by
    obtain ⟨p, m, hheld⟩ := h.held hpast
    obtain ⟨b, s, hrun, -, -, hb⟩ :=
      hheld.consume (cfg.secret_urlsafe n) (cfg.secret_ne n) user hat fresh
    exact ⟨b, s, hrun, hb⟩
  obtain ⟨after, before, hpast⟩ := List.append_of_mem hmem
  obtain ⟨b, s, hrun, hb⟩ := hjudged hpast
  refine ⟨b, s, hrun, hb.trans ⟨fun hopen => ?_, fun hverifies => ?_⟩⟩
  · obtain ⟨rfl, hyes, hlive, hcurrent, hunused⟩ := hopen
    exact ⟨after, before, t, hpast, hlive, hactive ▸ hyes, hcurrent, hunused⟩
  · obtain ⟨after', before', t', hpast', hlive, hyes, hcurrent, hunused⟩ := hverifies
    obtain ⟨b', s', hrun', hb'⟩ := hjudged hpast'
    obtain ⟨hanswer, rfl⟩ := Prod.mk.inj (hrun.symm.trans hrun')
    obtain rfl := Except.ok.inj hanswer
    exact hb.mp (hb'.mpr ⟨rfl, hactive.trans hyes, hlive, hcurrent, hunused⟩)

theorem consume_refines {σ : Session} (h : Reached cfg σ) {token : String}
    (hissued : ∃ pk t, .issued token pk t ∈ σ.past) {user : User}
    (hactive : user.isActive = σ.active user.pk) {at_ : Option Time}
    (hat : at_.getD σ.store.clock = σ.now) (fresh : Bool) :
    Refines cfg σ token user at_ fresh := by
  obtain ⟨b, s, hrun, hb⟩ := h.kept.answer hissued hactive hat fresh
  refine ⟨b, s, hrun, hb, fun σ' more token' pk fresh' => ⟨verifies_forget σ' more σ.past, ?_⟩⟩
  rintro rfl
  exact verifies_failed σ' more σ.past

def opened : Session where
  store := { clock := 1000, password := fun _ => "secret" }
  now := 1000

def carol : User := { pk := 3 }

def served : Session where
  store := (M.run (sample true false)
    (issue (sample true false) carol "password" none [("password", "secret")]) opened.store).2
  now := 1000
  past := [.issued "a" 3 1000]

theorem served_refines : Refines (sample true false) served "a" carol none true := by
  have hrun : M.run (sample true false)
      (issue (sample true false) carol "password" none [("password", "secret")]) opened.store =
        (.ok (some "a"), served.store) := rfl
  have hreached : Reached (sample true false) served :=
    ⟨opened, ⟨rfl, fun _ => rfl⟩,
      ReflTransGen.single (Step.issue carol "password" none [("password", "secret")] rfl rfl hrun)⟩
  exact consume_refines hreached ⟨3, 1000, by simp [served]⟩ rfl rfl true

end Ledger

end ScopedAccess.ReAuth
