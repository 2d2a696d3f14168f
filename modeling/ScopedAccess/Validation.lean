import ScopedAccess.Checks
import ScopedAccess.Lib.Loop

namespace ScopedAccess

open Lib.Loop

def NoError (messages : List CheckMessage) : Prop := ∀ message ∈ messages, message.level ≠ .error

@[simp] theorem noError_nil : NoError [] := by simp [NoError]

@[simp] theorem noError_append {ms ms' : List CheckMessage} :
    NoError (ms ++ ms') ↔ NoError ms ∧ NoError ms' := List.forall_mem_append

@[simp] theorem noError_error {text id : String} : ¬ NoError [.error text id] := by
  simp [NoError, CheckMessage.error]

theorem noError_flatten {mss : List (List CheckMessage)} :
    NoError mss.flatten ↔ ∀ ms ∈ mss, NoError ms := by
  simp only [NoError, List.mem_flatten]
  constructor
  · exact fun h ms hms message hmessage => h message ⟨ms, hms, hmessage⟩
  · rintro h message ⟨ms, hms, hmessage⟩
    exact h ms hms message hmessage

/-- A check returns on what is `typed`, and then objects to nothing that is `sound`. -/
structure Verdict (check : Py (List CheckMessage)) (typed sound : Prop) : Prop where
  returns : (∃ ms, check = .ok ms) ↔ typed
  quiet : ∀ {ms}, check = .ok ms → (NoError ms ↔ sound)

namespace Verdict

variable {check check' : Py (List CheckMessage)} {typed typed' sound sound' : Prop}
  {ms : List CheckMessage}

theorem ok (htyped : typed) (h : NoError ms ↔ sound) : Verdict (.ok ms) typed sound where
  returns := by simp [htyped]
  quiet heq := by
    cases heq
    exact h

theorem raised {e : Abort} (h : ¬ typed) : Verdict (.error e) typed sound where
  returns := by simp [h]
  quiet heq := by cases heq

theorem congr (h : Verdict check typed sound) (htyped : typed ↔ typed')
    (hsound : typed → (sound ↔ sound')) : Verdict check typed' sound' where
  returns := h.returns.trans htyped
  quiet heq := (h.quiet heq).trans (hsound (h.returns.mp ⟨_, heq⟩))

theorem append (h : Verdict check typed sound) (h' : Verdict check' typed' sound') :
    Verdict (do return (← check) ++ (← check')) (typed ∧ typed') (sound ∧ sound') where
  returns := by
    simp only [bind_eq_ok, pure_eq_ok, ← h.returns, ← h'.returns]
    constructor
    · rintro ⟨_, ms, hms, ms', hms', -⟩
      exact ⟨⟨ms, hms⟩, ms', hms'⟩
    · rintro ⟨⟨ms, hms⟩, ms', hms'⟩
      exact ⟨_, ms, hms, ms', hms', rfl⟩
  quiet heq := by
    obtain ⟨ms, hms, heq⟩ := bind_eq_ok.mp heq
    obtain ⟨ms', hms', heq⟩ := bind_eq_ok.mp heq
    obtain rfl := pure_eq_ok.mp heq
    rw [noError_append, h.quiet hms, h'.quiet hms']

theorem each {α : Type} {as : List α} {f : α → Py (List CheckMessage)} {typed sound : α → Prop}
    (h : ∀ a ∈ as, Verdict (f a) (typed a) (sound a)) :
    Verdict (do return (← as.mapM f).flatten) (∀ a ∈ as, typed a) (∀ a ∈ as, sound a) where
  returns := by
    simp only [bind_eq_ok, pure_eq_ok]
    constructor
    · rintro ⟨_, mss, hmss, -⟩ a ha
      obtain ⟨ms, -, hms⟩ := ok_of_mapM hmss ha
      exact (h a ha).returns.mp ⟨ms, hms⟩
    · intro hall
      obtain ⟨mss, hmss⟩ := mapM_total fun a ha => (h a ha).returns.mpr (hall a ha)
      exact ⟨_, mss, hmss, rfl⟩
  quiet heq := by
    obtain ⟨mss, hmss, heq⟩ := bind_eq_ok.mp heq
    obtain rfl := pure_eq_ok.mp heq
    rw [noError_flatten]
    constructor
    · intro hall a ha
      obtain ⟨ms, hms, hf⟩ := ok_of_mapM hmss ha
      exact ((h a ha).quiet hf).mp (hall ms hms)
    · intro hall ms hms
      obtain ⟨a, ha, hf⟩ := (mem_of_mapM hmss).mp hms
      exact ((h a ha).quiet hf).mpr (hall a ha)

end Verdict

variable {apps : Apps} {sc : Schema} {resources : ResourceRegistry} {raw : Settings}
  {entries : List Dict} {e : Dict}

theorem checkHashable_ok {names : List Value} :
    checkHashable names = .ok () ↔ ∀ name ∈ names, name.unhashable = none := by
  unfold checkHashable
  split
  · rename_i h
    simpa using h
  · rename_i typeName h
    obtain ⟨name, hmem, hname⟩ := List.exists_of_findSome?_eq_some h
    simp only [throwing, reduceCtorEq, false_iff, not_forall]
    exact ⟨name, hmem, by simp [hname]⟩

def NamesDistinct (names : List Value) : Prop :=
  names.Pairwise fun name name' => name.eq name' = false

theorem checkNames_verdict : Verdict (checkNames entries)
    (∀ e ∈ entries, (e.get "level").unhashable = none)
    (NamesDistinct (entries.map fun e => e.get "level")) := by
  have hall : (∀ e ∈ entries, (e.get "level").unhashable = none) ↔
      checkHashable (entries.map fun e => e.get "level") = .ok () := by
    simp [checkHashable_ok]
  rw [hall]
  change Verdict (checkHashable (entries.map fun e => e.get "level") >>= fun _ => .ok _) _ _
  cases h : checkHashable (entries.map fun e => e.get "level") with
  | error abort => exact .raised (fun hok => nomatch hok)
  | ok _ =>
    refine .ok rfl ?_
    split
    · exact iff_of_true noError_nil ‹_›
    · exact iff_of_false noError_error ‹_›

theorem mem_rootRanks {k : Nat} :
    k ∈ rootRanks entries ↔ ∃ e, entries[k]? = some e ∧ e.isModeled = false := by
  simp only [rootRanks, List.mem_map, List.mem_filter, Prod.exists, List.mem_zipIdx_iff_getElem?,
    Bool.not_eq_true']
  constructor
  · rintro ⟨e, _, ⟨he, hmodeled⟩, rfl⟩
    exact ⟨e, he, hmodeled⟩
  · rintro ⟨e, he, hmodeled⟩
    exact ⟨e, k, ⟨he, hmodeled⟩, rfl⟩

theorem rootRanks_nodup : (rootRanks entries).Nodup := by
  have hsub : (rootRanks entries).Sublist (entries.zipIdx.map Prod.snd) :=
    List.filter_sublist.map _
  refine hsub.nodup ?_
  rw [List.zipIdx_map_snd]
  exact List.nodup_range'

theorem checkRoots_noError : NoError (checkRoots entries) ↔
    ∀ {k e}, entries[k]? = some e → e.isModeled = false → k = 0 := by
  have hzero : (rootRanks entries = [] ∨ rootRanks entries = [0]) ↔
      ∀ k ∈ rootRanks entries, k = 0 := by
    constructor
    · rintro (h | h) <;> simp [h]
    · intro h
      have hnodup : (rootRanks entries).Nodup := rootRanks_nodup
      generalize rootRanks entries = ks at h hnodup
      match ks with
      | [] => exact .inl rfl
      | [k] => exact .inr (by simp [h k])
      | k :: k' :: ks =>
        have hk : k = 0 := h k (by simp)
        have hk' : k' = 0 := h k' (by simp)
        simp [hk, hk'] at hnodup
  have hmem : (∀ k ∈ rootRanks entries, k = 0) ↔
      ∀ {k e}, entries[k]? = some e → e.isModeled = false → k = 0 := by
    simp only [mem_rootRanks]
    exact ⟨fun h k e he hm => h k ⟨e, he, hm⟩, fun h k ⟨e, he, hm⟩ => h he hm⟩
  rw [← hmem, ← hzero]
  unfold checkRoots
  split
  · exact iff_of_false noError_error (by tauto)
  · exact iff_of_true noError_nil (by tauto)

theorem walkRelationPath_iff {m : Model} {parts : List String} :
    (walkRelationPath sc m parts).1 = none ↔ ∃ m', sc.lookupPath m parts = some m' := by
  induction parts generalizing m with
  | nil => simp [walkRelationPath, Schema.lookupPath]
  | cons part parts ih =>
    cases h : (sc.getField m part).bind (sc.relatedModel m) with
    | none => simp [walkRelationPath, Schema.lookupPath, h]
    | some m' => simp [walkRelationPath, Schema.lookupPath, h, ih]

theorem walk_noError {m : Model} {parts : List String} {message : String → CheckMessage}
    (hmessage : ∀ part, ¬ NoError [message part]) :
    NoError (match (walkRelationPath sc m parts).1 with
      | none => []
      | some badPart => [message badPart]) ↔ ∃ target, sc.lookupPath m parts = some target := by
  rw [← walkRelationPath_iff]
  cases (walkRelationPath sc m parts).1 with
  | none => simp
  | some part => simpa using hmessage part

def Dict.Loads (apps : Apps) (e : Dict) (m : Model) : Prop :=
  ∃ label, e.get "model" = .str label ∧ apps.getModel label = some m

def Dict.Climbs (sc : Schema) (e : Dict) (m : Model) : Prop :=
  ∃ parent target, e.get "parent" = .str parent ∧
    sc.lookupPath m (Accessor.ofString parent).parts = some target

theorem checkParent_verdict {m : Model} : Verdict (checkParent sc e m)
    (e.hasParent → ∃ parent, e.get "parent" = .str parent) (e.hasParent → e.Climbs sc m) := by
  unfold checkParent
  cases hparent : e.hasParent with
  | false => exact .ok (by simp) (by simp)
  | true =>
    cases hv : e.get "parent" with
    | str parent =>
      refine .ok (by simp) ((walk_noError fun _ => noError_error).trans ?_)
      simp [Dict.Climbs, hv]
    | _ => exact .raised (by simp)

theorem checkLevel_verdict {i : Nat} : Verdict (checkLevel apps sc i e)
    (∃ label, e.get "model" = .str label ∧ (apps.getModel label ≠ none → e.hasParent →
      ∃ parent, e.get "parent" = .str parent))
    (∃ m, e.Loads apps m ∧ (0 < i → e.hasParent) ∧ (e.hasParent → e.Climbs sc m)) := by
  unfold checkLevel
  cases hv : e.get "model" with
  | str label =>
    simp only [asString, ok_bind, Value.str.injEq, exists_eq_left']
    cases hm : apps.getModel label with
    | none =>
      refine Verdict.ok (fun hne => absurd rfl hne) (iff_of_false noError_error ?_)
      simp [Dict.Loads, hv, hm]
    | some m =>
      have hneeds (text : String) : NoError (if i > 0 && !e.hasParent then
          [.error text "scoped_access.E003"] else []) ↔ (0 < i → e.hasParent) := by
        cases e.hasParent with
        | false => by_cases hi : 0 < i <;> simp [hi]
        | true => simp
      refine ((Verdict.ok trivial (hneeds _)).append (checkParent_verdict (m := m))).congr ?_ ?_
      · simp
      · simp [Dict.Loads, hv, hm]
  | _ => exact .raised (by simp)

theorem checkLevels_verdict {modeled : List Dict} : Verdict (checkLevels apps sc modeled)
    (∀ e ∈ modeled, ∃ label, e.get "model" = .str label ∧ (apps.getModel label ≠ none →
      e.hasParent → ∃ parent, e.get "parent" = .str parent))
    (∀ {i e}, modeled[i]? = some e →
      ∃ m, e.Loads apps m ∧ (0 < i → e.hasParent) ∧ (e.hasParent → e.Climbs sc m)) := by
  refine (Verdict.each fun _ _ => checkLevel_verdict).congr ?_ fun _ => ?_
  · constructor
    · intro h e he
      obtain ⟨i, hi⟩ := List.mem_iff_getElem?.mp he
      exact h (e, i) (List.mem_zipIdx_iff_getElem?.mpr hi)
    · rintro h ⟨e, i⟩ he
      exact h e (List.mem_of_getElem? (List.mem_zipIdx_iff_getElem?.mp he))
  · constructor
    · intro h i e he
      exact h (e, i) (List.mem_zipIdx_iff_getElem?.mpr he)
    · rintro h ⟨e, i⟩ he
      exact h (List.mem_zipIdx_iff_getElem?.mp he)

theorem names_total {modeled : List Dict} : (∃ names, modeled.mapM Dict.name = .ok names) ↔
    ∀ e ∈ modeled, e.get? "level" ≠ none := by
  have hname (e : Dict) : (∃ name, e.name = .ok name) ↔ e.get? "level" ≠ none := by
    unfold Dict.name
    cases e.get? "level" <;> simp [throwing]
  constructor
  · rintro ⟨names, hnames⟩ e he
    obtain ⟨name, -, hname'⟩ := ok_of_mapM hnames he
    exact (hname e).mp ⟨name, hname'⟩
  · exact fun h => mapM_total fun e he => (hname e).mpr (h e he)

theorem mem_names {modeled : List Dict} {names : List Value}
    (h : modeled.mapM Dict.name = .ok names) {name : Value} :
    name ∈ names ↔ ∃ e ∈ modeled, e.get? "level" = some name := by
  have hname (e : Dict) : e.name = .ok name ↔ e.get? "level" = some name := by
    unfold Dict.name
    cases e.get? "level" <;> simp [throwing]
  simp only [mem_of_mapM h, hname]

theorem checkOwnerLevel_verdict {names : List Value} {v : Value} :
    Verdict (checkOwnerLevel names v) (unsearchable v = none) (∃ name ∈ names, name.eq v) := by
  unfold checkOwnerLevel
  cases h : unsearchable v with
  | some typeName => exact .raised (by simp)
  | none =>
    refine .ok rfl ?_
    split
    · rename_i hany
      exact iff_of_true noError_nil (List.any_eq_true.mp hany)
    · rename_i hany
      exact iff_of_false noError_error fun h => hany (List.any_eq_true.mpr h)

theorem checkOwnerLevels_verdict {names : List Value} : Verdict (checkOwnerLevels names raw)
    (∃ owners, raw.roleOwnerLevels.elements = .ok owners ∧ ∀ v ∈ owners, unsearchable v = none)
    (∀ {owners}, raw.roleOwnerLevels.elements = .ok owners →
      ∀ v ∈ owners, ∃ name ∈ names, name.eq v) := by
  unfold checkOwnerLevels
  cases h : raw.roleOwnerLevels.elements with
  | error abort => exact .raised (by simp)
  | ok owners =>
    refine (Verdict.each fun _ _ => checkOwnerLevel_verdict).congr (by simp) fun _ => ?_
    constructor
    · intro hall owners' heq
      obtain rfl := Except.ok.inj heq
      exact hall
    · exact fun hall => hall rfl

inductive Grantable : Value → Prop
  | self : Grantable (.str "self")
  | any : Grantable (.str "any")
  | list {xs : List Value} : Grantable (.list xs)
  | tuple {xs : List Value} : Grantable (.tuple xs)
  | set {xs : List Value} : Grantable (.set xs)
  | callable {policy : Nat} {text : String} : Grantable (.callable policy text)

theorem checkGrantable_noError {v : Value} : NoError (checkGrantable v) ↔ Grantable v := by
  cases v with
  | list | tuple | set | callable => exact iff_of_true noError_nil (by constructor)
  | str s =>
    change NoError (if s = "self" ∨ s = "any" then [] else [checkGrantable.message]) ↔ _
    split
    · rename_i h
      refine iff_of_true noError_nil ?_
      rcases h with rfl | rfl <;> constructor
    · rename_i h
      refine iff_of_false noError_error ?_
      rintro (_ | _)
      · exact h (.inl rfl)
      · exact h (.inr rfl)
  | _ => exact iff_of_false noError_error (fun h => nomatch h)

theorem checkStrictRegistration_noError {v : Value} :
    NoError (checkStrictRegistration v) ↔ ∃ b, v = .bool b := by
  cases v with
  | bool b => exact iff_of_true noError_nil ⟨b, rfl⟩
  | _ => exact iff_of_false noError_error (by simp)

structure ReauthSound (reauth : Dict) : Prop where
  enabled : ∃ b, reauth.getOr "ENABLED" (.bool false) = .bool b
  ttl : ∃ n, reauth.getOr "TTL" (.int 300) = .int n ∧ 0 < n
  rate : ∃ rate, reauth.getOr "RATE" (.str "5/minute") = .str rate ∧ isRate rate
  mode : ∃ mode, reauth.getOr "MODE" (.str "single_use") = .str mode ∧
    (mode = "single_use" ∨ mode = "window")

theorem checkEnabled_noError {v : Value} : NoError (checkEnabled v) ↔ ∃ b, v = .bool b := by
  cases v with
  | bool b => exact iff_of_true noError_nil ⟨b, rfl⟩
  | _ => exact iff_of_false noError_error (by simp)

theorem checkTtl_noError {v : Value} : NoError (checkTtl v) ↔ ∃ n, v = .int n ∧ 0 < n := by
  cases v with
  | int n =>
    change NoError (if n ≤ 0 then [checkTtl.message] else []) ↔ _
    split
    · exact iff_of_false noError_error (by simpa)
    · exact iff_of_true noError_nil ⟨n, rfl, by omega⟩
  | _ => exact iff_of_false noError_error (by simp)

theorem any_str? {v : Value} {accepts : String → Bool} :
    v.str?.any accepts ↔ ∃ s, v = .str s ∧ accepts s := by
  cases v <;> simp [Value.str?]

theorem checkRate_noError {v : Value} :
    NoError (checkRate v) ↔ ∃ rate, v = .str rate ∧ isRate rate := by
  rw [← any_str?]
  unfold checkRate
  split
  · exact iff_of_true noError_nil ‹_›
  · exact iff_of_false noError_error ‹_›

theorem checkMode_noError {v : Value} : NoError (checkMode v) ↔
    ∃ mode, v = .str mode ∧ (mode = "single_use" ∨ mode = "window") := by
  have hany : v.str?.any (fun s => s = "single_use" || s = "window") ↔
      ∃ mode, v = .str mode ∧ (mode = "single_use" ∨ mode = "window") := by
    simp only [any_str?, Bool.or_eq_true, decide_eq_true_eq]
  rw [← hany]
  unfold checkMode
  split
  · exact iff_of_true noError_nil ‹_›
  · exact iff_of_false noError_error ‹_›

theorem checkBackend_noError {enabled : Value} {backend : String} :
    NoError (checkBackend enabled backend) := by
  unfold checkBackend
  split <;> simp [NoError]

theorem checkReauth_noError {backend : String} {v : Value} :
    NoError (checkReauth backend v) ↔ ∃ reauth, v = .dict reauth ∧ ReauthSound reauth := by
  cases v with
  | dict items =>
    simp only [checkReauth, noError_append, checkEnabled_noError, checkTtl_noError,
      checkRate_noError, checkMode_noError, checkBackend_noError, and_true, Value.dict.injEq,
      exists_eq_left']
    constructor
    · rintro ⟨⟨⟨henabled, httl⟩, hrate⟩, hmode⟩
      exact ⟨henabled, httl, hrate, hmode⟩
    · exact fun h => ⟨⟨⟨h.enabled, h.ttl⟩, h.rate⟩, h.mode⟩
  | _ => exact iff_of_false noError_error (by simp)

theorem checkAnchors_noError : NoError (checkAnchors sc resources) ↔
    ∀ a ∈ resources.anchors, ∃ target, sc.lookupPath a.1 a.2.parts = some target := by
  have hanchor (a : Model × Accessor) : NoError (checkAnchor sc a.1 a.2) ↔
      ∃ target, sc.lookupPath a.1 a.2.parts = some target :=
    walk_noError fun _ => noError_error
  simp only [← hanchor, checkAnchors, List.flatMap, noError_flatten, List.forall_mem_map]

def Registered (apps : Apps) (resources : ResourceRegistry) (modeled : List Dict) : Prop :=
  ∀ host ∈ resources.models ++ hierarchyModels apps modeled,
    ∀ m ∈ apps.models (apps.appLabel host),
      apps.autoCreated m ∨ m ∈ hierarchyModels apps modeled ∨ resources.isRegistered m

theorem checkRegistration_noError {modeled : List Dict} :
    NoError (checkRegistration apps resources modeled) ↔ Registered apps resources modeled := by
  simp only [checkRegistration, List.flatMap, noError_flatten, List.forall_mem_map,
    (List.perm_insertionSort ..).mem_iff, List.mem_dedup, Registered]
  refine forall_congr' fun host => forall_congr' fun _ => forall_congr' fun m =>
    forall_congr' fun _ => ?_
  split
  · rename_i h
    simp only [Bool.or_eq_true, decide_eq_true_eq, or_assoc] at h
    exact iff_of_true noError_nil h
  · rename_i h
    simp only [Bool.or_eq_true, decide_eq_true_eq, or_assoc] at h
    exact iff_of_false (by simp [NoError]) h

/-- Values of the types that the check works with, and no modeled level without a name. -/
structure Typed (apps : Apps) (raw : Settings) : Prop where
  names : ∀ e ∈ raw.entries, (e.get "level").unhashable = none
  levels : ∀ e ∈ raw.modeled, ∃ label, e.get "model" = .str label ∧ (apps.getModel label ≠ none →
    e.hasParent → ∃ parent, e.get "parent" = .str parent)
  named : ∀ e ∈ raw.modeled, e.get? "level" ≠ none
  owners : ∃ owners, raw.roleOwnerLevels.elements = .ok owners ∧
    ∀ v ∈ owners, unsearchable v = none

/-- What the check has no objection to. -/
structure SettingsSound (apps : Apps) (sc : Schema) (resources : ResourceRegistry) (raw : Settings) :
    Prop where
  names : NamesDistinct (raw.entries.map fun e => e.get "level")
  roots : ∀ {k e}, raw.entries[k]? = some e → e.isModeled = false → k = 0
  levels : ∀ {i e}, raw.modeled[i]? = some e →
    ∃ m, e.Loads apps m ∧ (0 < i → e.hasParent) ∧ (e.hasParent → e.Climbs sc m)
  owners : ∀ {owners}, raw.roleOwnerLevels.elements = .ok owners →
    ∀ v ∈ owners, ∃ e ∈ raw.modeled, ∃ name, e.get? "level" = some name ∧ name.eq v
  grantable : Grantable raw.grantablePermissions
  strict : ∃ b, raw.strictRegistration = .bool b
  reauth : ∃ reauth, raw.reauth = .dict reauth ∧ ReauthSound reauth
  anchors : ∀ a ∈ resources.anchors, ∃ target, sc.lookupPath a.1 a.2.parts = some target
  registered : raw.strictRegistration = .bool true → Registered apps resources raw.modeled

theorem check_returns : (∃ messages, checkScopedAccessConfig apps sc resources raw = .ok messages) ↔
    Typed apps raw := by
  constructor
  · rintro ⟨messages, h⟩
    obtain ⟨names, hnames, h⟩ := bind_eq_ok.mp h
    obtain ⟨levels, hlevels, h⟩ := bind_eq_ok.mp h
    obtain ⟨modeledNames, hmodeled, h⟩ := bind_eq_ok.mp h
    obtain ⟨owners, howners, -⟩ := bind_eq_ok.mp h
    exact ⟨checkNames_verdict.returns.mp ⟨_, hnames⟩, checkLevels_verdict.returns.mp ⟨_, hlevels⟩,
      names_total.mp ⟨_, hmodeled⟩, checkOwnerLevels_verdict.returns.mp ⟨_, howners⟩⟩
  · intro h
    obtain ⟨names, hnames⟩ := checkNames_verdict.returns.mpr h.names
    obtain ⟨levels, hlevels⟩ : ∃ levels, checkLevels apps sc raw.modeled = .ok levels :=
      checkLevels_verdict.returns.mpr h.levels
    obtain ⟨modeledNames, hmodeled⟩ := names_total.mpr h.named
    obtain ⟨owners, howners⟩ : ∃ owners, checkOwnerLevels modeledNames raw = .ok owners :=
      checkOwnerLevels_verdict.returns.mpr h.owners
    simp [checkScopedAccessConfig, hnames, hlevels, hmodeled, howners]

theorem checkStrictly_noError : NoError (match raw.strictRegistration with
      | .bool true => checkRegistration apps resources raw.modeled
      | _ => []) ↔ (raw.strictRegistration = .bool true → Registered apps resources raw.modeled) := by
  split
  · rename_i hstrict
    simp [hstrict, checkRegistration_noError]
  · rename_i hstrict
    exact iff_of_true noError_nil fun htrue => absurd htrue hstrict

theorem check_quiet {messages : List CheckMessage}
    (h : checkScopedAccessConfig apps sc resources raw = .ok messages) :
    NoError messages ↔ SettingsSound apps sc resources raw := by
  obtain ⟨names, hnames, h⟩ := bind_eq_ok.mp h
  obtain ⟨levels, hlevels, h⟩ := bind_eq_ok.mp h
  obtain ⟨modeledNames, hmodeled, h⟩ := bind_eq_ok.mp h
  obtain ⟨owners, howners, h⟩ := bind_eq_ok.mp h
  obtain rfl := pure_eq_ok.mp h
  have howned : (∀ {owners}, raw.roleOwnerLevels.elements = .ok owners →
        ∀ v ∈ owners, ∃ name ∈ modeledNames, name.eq v) ↔
      ∀ {owners}, raw.roleOwnerLevels.elements = .ok owners →
        ∀ v ∈ owners, ∃ e ∈ raw.modeled, ∃ name, e.get? "level" = some name ∧ name.eq v := by
    have hname (v : Value) : (∃ name ∈ modeledNames, name.eq v) ↔
        ∃ e ∈ raw.modeled, ∃ name, e.get? "level" = some name ∧ name.eq v := by
      simp only [mem_names hmodeled]
      constructor
      · rintro ⟨name, ⟨e, he, hname⟩, heq⟩
        exact ⟨e, he, name, hname, heq⟩
      · rintro ⟨e, he, name, hname, heq⟩
        exact ⟨name, ⟨e, he, hname⟩, heq⟩
    simp only [hname]
  simp only [noError_append, checkNames_verdict.quiet hnames, checkRoots_noError,
    checkLevels_verdict.quiet hlevels, checkOwnerLevels_verdict.quiet howners, howned,
    checkGrantable_noError, checkStrictRegistration_noError, checkReauth_noError,
    checkAnchors_noError]
  constructor
  · rintro ⟨⟨⟨⟨⟨⟨⟨⟨hnames, hroots⟩, hlevels⟩, howners⟩, hgrantable⟩, hstrict⟩, hreauth⟩, hanchors⟩,
      hregistered⟩
    exact ⟨hnames, hroots, hlevels, howners, hgrantable, hstrict, hreauth, hanchors,
      checkStrictly_noError.mp hregistered⟩
  · exact fun h => ⟨⟨⟨⟨⟨⟨⟨⟨h.names, h.roots⟩, h.levels⟩, h.owners⟩, h.grantable⟩, h.strict⟩,
      h.reauth⟩, h.anchors⟩, checkStrictly_noError.mpr h.registered⟩

end ScopedAccess
