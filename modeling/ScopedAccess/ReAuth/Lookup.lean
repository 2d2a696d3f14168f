import ScopedAccess.ReAuth.Discipline
import ScopedAccess.ReAuth.Runs

namespace ScopedAccess.ReAuth

open Lib.Shared (Prog Obeys)
open Relation (ReflTransGen)

variable {cfg : Settings}

def Store.Keeps (s s' : Store) : Prop :=
  ∀ key e, s'.cache key = some e → s.cache key = some e ∨ ∀ data, e.value ≠ .payload data

namespace Store

variable {s s' s'' : Store}

theorem Keeps.of_cache (h : s'.cache = s.cache) : s.Keeps s' :=
  fun _ _ he => .inl (h ▸ he)

theorem Keeps.trans (h : s.Keeps s') (h' : s'.Keeps s'') : s.Keeps s'' :=
  fun key e he => (h' key e he).elim (h key e) .inr

theorem keeps_put {key : String} {e : Option Entry}
    (he : ∀ e' ∈ e, ∀ data, e'.value ≠ .payload data) : s.Keeps (s.put key e) := by
  intro key' e' he'
  rw [put_cache] at he'
  split at he'
  · exact .inr (he e' he')
  · exact .inl he'

theorem keeps_act {i : Nat} {c : Call} (hc : ∀ user verifier at_ credentials,
      c ≠ .issue user verifier at_ credentials) {h : Trace} {o : Op} (s : Store)
    (hmay : May cfg i c h o) : s.Keeps (act cfg o s).2 := by
  have hadd (key : String) {value : Value} (timeout : Option Time)
      (hvalue : ∀ data, value ≠ .payload data) :
      s.Keeps (act cfg (.add key value timeout) s).2 := by
    simp only [act]
    split
    · exact .of_cache rfl
    · exact keeps_put fun e he => by cases he; exact hvalue
  cases hmay with
  | now | consumeDraw | rotateDraw | send | look | consumeGet | legacyGet | writePassword
  | commit => exact .of_cache rfl
  | issueDraw | verify | issueGet | issueAdd | mint => exact absurd rfl (hc _ _ _ _)
  | consumeAdd | mark | claim => exact hadd _ _ (by simp)
  | rotate => exact keeps_put fun e he => by cases he; simp [entry]
  | pop | getdel | legacyDelete | legacyDrop => exact keeps_put (by simp)

theorem keeps_run {c : Call} (hc : ∀ user verifier at_ credentials,
      c ≠ .issue user verifier at_ credentials) (s : Store) :
    s.Keeps (M.run cfg (c.body cfg) s).2 :=
  (Obeys.run (fun _ => .of_cache rfl) .trans (fun s => keeps_act hc s)
    (body_obeys cfg 0 c) s).1

theorem keeps_generationOf (s : Store) (pk : Nat) : s.Keeps (generationOf cfg s pk).2 := by
  unfold generationOf
  split
  · exact .of_cache rfl
  · exact (Keeps.of_cache rfl : s.Keeps s.next).trans (keeps_put fun e he => by cases he; simp)

end Store

/-- The store, with the tokens issued so far and whom each was issued to. -/
structure Desk where
  store : Store
  issued : List (String × Nat) := []

namespace Desk

inductive Step (cfg : Settings) : Desk → Desk → Prop
  | issue {d : Desk} {token : Option String} {s : Store} (user : User) (verifier : String)
      (at_ : Option Time) (credentials : Credentials)
      (h : M.run cfg (ReAuth.issue cfg user verifier at_ credentials) d.store = (.ok token, s)) :
      Step cfg d ⟨s, (token.map fun token => (token, user.pk)).toList ++ d.issued⟩
  | consume {d : Desk} (token : Option String) (user : User) (at_ : Option Time) (fresh : Bool) :
      Step cfg d ⟨(M.run cfg (ReAuth.consume cfg token user at_ fresh) d.store).2, d.issued⟩
  | invalidateAllForUser {d : Desk} (user : User) :
      Step cfg d ⟨(M.run cfg (ReAuth.invalidateAllForUser user) d.store).2, d.issued⟩
  | advance {d : Desk} (t : Time) :
      Step cfg d ⟨{ d.store with clock := d.store.clock + t }, d.issued⟩
  | evict {d : Desk} (key : String) : Step cfg d ⟨d.store.put key none, d.issued⟩

structure Initial (d : Desk) : Prop where
  issued : d.issued = []
  unminted : ∀ key e data, d.store.cache key = some e → e.value ≠ .payload data

def Reached (cfg : Settings) (d : Desk) : Prop :=
  ∃ d₀, Initial d₀ ∧ ReflTransGen (Step cfg) d₀ d

/-- A payload is stored for an issued token and names its principal. -/
def PayloadsIssued (d : Desk) : Prop :=
  ∀ key e data, d.store.cache key = some e → e.value = .payload data →
    ∃ token pk, (token, pk) ∈ d.issued ∧ key = tokenPrefix ++ token ∧ data.userId = str pk

theorem PayloadsIssued.of_keeps {d : Desk} (hd : d.PayloadsIssued) {s : Store} (hs : d.store.Keeps s)
    (more : List (String × Nat)) : PayloadsIssued ⟨s, more ++ d.issued⟩ := by
  intro key e data he hdata
  obtain hold | hnew := hs key e he
  · obtain ⟨token, pk, hmem, hrest⟩ := hd key e data hold hdata
    exact ⟨token, pk, List.mem_append_right _ hmem, hrest⟩
  · exact absurd hdata (hnew data)

theorem PayloadsIssued.step {d d' : Desk} (hd : d.PayloadsIssued) (h : Step cfg d d') :
    d'.PayloadsIssued := by
  cases h with
  | consume token user at_ fresh =>
    exact hd.of_keeps (Store.keeps_run (c := .consume token user at_ fresh) (by simp) _) []
  | invalidateAllForUser user =>
    exact hd.of_keeps (Store.keeps_run (c := .invalidateAllForUser user) (by simp) _) []
  | advance t => exact hd.of_keeps (.of_cache rfl) []
  | evict key => exact hd.of_keeps (Store.keeps_put (by simp)) []
  | @issue token s user verifier at_ credentials hrun =>
    rw [run_issue] at hrun
    split at hrun
    · obtain ⟨htoken, rfl⟩ := Prod.mk.inj hrun
      obtain rfl := Except.ok.inj htoken
      have hkept := (Store.Keeps.of_cache rfl : d.store.Keeps d.store.next).trans
        (@Store.keeps_generationOf cfg d.store.next user.pk)
      intro key e data he hdata
      rw [Store.put_cache] at he
      split at he
      · rename_i hkey
        cases he
        obtain rfl := Value.payload.inj hdata
        exact ⟨cfg.secret d.store.drawn, user.pk, by simp, hkey, rfl⟩
      · exact hd.of_keeps hkept _ key e data he hdata
    · obtain ⟨htoken, rfl⟩ := Prod.mk.inj hrun
      exact hd.of_keeps (.of_cache rfl) _

theorem Reached.payloadsIssued {d : Desk} (h : Reached cfg d) : d.PayloadsIssued := by
  obtain ⟨d₀, hinit, hsteps⟩ := h
  induction hsteps with
  | refl => exact fun key e data he hdata => absurd hdata (hinit.unminted key e data he)
  | tail _ hstep ih => exact ih.step hstep

/-- A string sent as token is judged without raising, accepted only if it was
issued to the principal, and touches nothing if it never was. -/
def Clean (cfg : Settings) (d : Desk) (token : String) (user : User) : Prop :=
  ∀ at_ fresh, ∃ b s, M.run cfg (consume cfg (some token) user at_ fresh) d.store = (.ok b, s) ∧
    (b = true → (token, user.pk) ∈ d.issued) ∧
    ((∀ pk, (token, pk) ∉ d.issued) → b = false ∧ s.cache = d.store.cache)

/-- No live entry of another family is stored where the string is looked up. -/
def LookupApart (d : Desk) (token : String) : Prop :=
  token ≠ "" → ∀ value, d.store.read (tokenPrefix ++ token) = some value →
    ∃ data, value = .payload data

theorem PayloadsIssued.issued {d : Desk} (hd : d.PayloadsIssued) {token : String} {data : Payload}
    (hread : d.store.read (tokenPrefix ++ token) = some (.payload data)) {user : User}
    (hid : data.userId = str user.pk) : (token, user.pk) ∈ d.issued := by
  obtain ⟨e, he, -, hdata⟩ := Store.read_some.mp hread
  obtain ⟨token', pk, hmem, hkey, hpk⟩ := hd _ e data he hdata
  obtain rfl := key_inj.mp hkey
  obtain rfl := str_injective (hid.symm.trans hpk)
  exact hmem

theorem consume_returns {s : Store} {token : String} (hne : token ≠ "") {user : User}
    (hactive : user.isActive) {data : Payload}
    (hread : s.read (tokenPrefix ++ token) = some (.payload data))
    (hid : data.userId = str user.pk) (at_ : Option Time) (fresh : Bool) :
    ∃ b s', M.run cfg (consume cfg (some token) user at_ fresh) s = (.ok b, s') := by
  cases hwindow : cfg.window with
  | true =>
    rw [run_consume_window hne hactive at_ fresh hwindow hread hid, run_consumeInWindow hid]
    dsimp only
    split_ifs <;> exact ⟨_, _, rfl⟩
  | false =>
    rw [run_consume_single hne hactive at_ fresh hwindow hread hid]
    cases popped cfg s token with
    | none => exact ⟨_, _, rfl⟩
    | some s' =>
      dsimp only
      split_ifs <;> exact ⟨_, _, rfl⟩

theorem clean_iff_apart {d : Desk} (h : Reached cfg d) (token : String) {user : User}
    (hactive : user.isActive) : Clean cfg d token user ↔ d.LookupApart token := by
  constructor
  · intro hclean hne value hread
    obtain ⟨b, s, hrun, -⟩ := hclean none false
    have hmalformed {e : Exn} (he : value.fields = .error e) : False := by
      rw [run_consume_malformed hne hactive none false hread he] at hrun
      cases hrun
    cases value with
    | payload data => exact ⟨data, rfl⟩
    | text s => exact (hmalformed rfl).elim
    | flag => exact (hmalformed rfl).elim
    | tokens ts => exact (hmalformed rfl).elim
  · intro hapart at_ fresh
    have hrefused (hrun : M.run cfg (consume cfg (some token) user at_ fresh) d.store =
        (.ok false, d.store)) : ∃ b s,
        M.run cfg (consume cfg (some token) user at_ fresh) d.store = (.ok b, s) ∧
          (b = true → (token, user.pk) ∈ d.issued) ∧
          ((∀ pk, (token, pk) ∉ d.issued) → b = false ∧ s.cache = d.store.cache) :=
      ⟨false, d.store, hrun, by simp, fun _ => ⟨rfl, rfl⟩⟩
    by_cases hne : token = ""
    · refine hrefused ?_
      subst hne
      rfl
    cases hread : d.store.read (tokenPrefix ++ token) with
    | none => exact hrefused (run_consume_absent hne hactive at_ fresh hread)
    | some value =>
      obtain ⟨data, rfl⟩ := hapart hne value hread
      by_cases hid : data.userId = str user.pk
      · obtain ⟨b, s, hrun⟩ := @consume_returns cfg _ _ hne _ hactive _ hread hid at_ fresh
        have hissued := h.payloadsIssued.issued hread hid
        exact ⟨b, s, hrun, fun _ => hissued, fun hnever => absurd hissued (hnever _)⟩
      · exact hrefused (run_consume_foreign hne hactive at_ fresh hread hid)

def initial : Desk where
  store := { clock := 1000, password := fun _ => "secret" }

def alice : User := { pk := 1 }

def served : Desk where
  store := (M.run (sample false false)
    (issue (sample false false) alice "password" none [("password", "secret")]) initial.store).2
  issued := [("a", 1)]

theorem served_reached : Reached (sample false false) served := by
  refine ⟨initial, ⟨rfl, by simp [initial]⟩, ReflTransGen.single ?_⟩
  have hrun : M.run (sample false false)
      (issue (sample false false) alice "password" none [("password", "secret")]) initial.store =
        (.ok (some "a"), served.store) := rfl
  exact Step.issue alice "password" none [("password", "secret")] hrun

theorem unknown_refused : Clean (sample false false) served "unknown" alice := by
  refine (clean_iff_apart served_reached "unknown" rfl).mpr fun _ value hread => ?_
  have hnone : served.store.read (tokenPrefix ++ "unknown") = none := by decide
  simp [hnone] at hread

theorem generation_raises : Reached (sample false false) served ∧
    ¬ Clean (sample false false) served "generation:1" alice := by
  refine ⟨served_reached, fun hclean => ?_⟩
  obtain ⟨b, s, hrun, -⟩ := hclean none false
  have hread : served.store.read (tokenPrefix ++ "generation:1") = some (.text "aa") := by decide
  rw [run_consume_malformed (by decide) rfl none false hread rfl] at hrun
  cases hrun

end Desk

end ScopedAccess.ReAuth
