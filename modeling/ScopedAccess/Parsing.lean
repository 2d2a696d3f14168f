import ScopedAccess.Validation
import ScopedAccess.Testapp

namespace ScopedAccess

open Lib.Loop

namespace LevelConfig

theorem isRoot_iff {l : LevelConfig} : l.isRoot ↔ l.modelLabel = .none := by
  unfold isRoot
  split <;> simp_all

end LevelConfig

def Sortable (v : Value) : Prop :=
  v.truthy = false ∨ ∃ items sorted, v = .dict items ∧ Dict.sorted items = .ok sorted

structure Parsed (e : Dict) (l : LevelConfig) : Prop where
  name : e.get? "level" = some l.name
  model : l.modelLabel = e.get "model"
  parent : l.parent = e.get "parent"

structure ScopedAccessConfig.WellFormed (cfg : ScopedAccessConfig) : Prop where
  names : NamesDistinct (cfg.levels.map LevelConfig.name)
  roots : ∀ {k l}, cfg.levels[k]? = some l → l.isRoot → k = 0
  parents : ∀ {j k : Nat} {l l' : LevelConfig}, j < k → cfg.levels[j]? = some l →
    cfg.levels[k]? = some l' → l.isRoot = false → l'.isRoot = false → l'.parent.truthy
  owners : ∀ v ∈ cfg.roleOwnerLevels, ∃ l ∈ cfg.levels, l.isRoot = false ∧ l.name.eq v

variable {e : Dict} {l : LevelConfig} {raw : Settings} {cfg : ScopedAccessConfig}

theorem discriminator_returns {v : Value} :
    (∃ sorted, discriminatorItems v >>= Dict.sorted = .ok sorted) ↔ Sortable v := by
  unfold discriminatorItems Sortable
  cases hv : v.truthy with
  | false => simp [Dict.sorted]
  | true =>
    cases v with
    | dict items => simp
    | _ => simp [throwing]

theorem buildLevel_ok (h : buildLevel e = .ok l) : Parsed e l ∧ Sortable (e.get "discriminator") := by
  unfold buildLevel at h
  cases hname : e.get? "level" with
  | none => simp [hname, throwing] at h
  | some name =>
    simp only [hname] at h
    obtain ⟨items, hitems, h⟩ := bind_eq_ok.mp h
    obtain ⟨sorted, hsorted, h⟩ := bind_eq_ok.mp h
    obtain rfl := pure_eq_ok.mp h
    exact ⟨⟨hname, rfl, rfl⟩,
      discriminator_returns.mp ⟨sorted, bind_eq_ok.mpr ⟨items, hitems, hsorted⟩⟩⟩

theorem buildLevel_returns : (∃ l, buildLevel e = .ok l) ↔
    e.get? "level" ≠ none ∧ Sortable (e.get "discriminator") := by
  constructor
  · rintro ⟨l, h⟩
    obtain ⟨hparsed, hsortable⟩ := buildLevel_ok h
    exact ⟨by simp [hparsed.name], hsortable⟩
  · rintro ⟨hname, hsortable⟩
    obtain ⟨name, hname⟩ := Option.ne_none_iff_exists'.mp hname
    obtain ⟨sorted, hsorted⟩ := discriminator_returns.mpr hsortable
    obtain ⟨items, hitems, hsorted⟩ := bind_eq_ok.mp hsorted
    simp [buildLevel, hname, hitems, hsorted]

theorem getConfig_parsed (h : getConfig raw = .ok cfg) :
    List.Forall₂ Parsed raw.entries cfg.levels ∧
      raw.roleOwnerLevels.elements = .ok cfg.roleOwnerLevels := by
  obtain ⟨levels, hlevels, h⟩ := bind_eq_ok.mp h
  obtain ⟨owners, howners, h⟩ := bind_eq_ok.mp h
  obtain ⟨_, -, h⟩ := bind_eq_ok.mp h
  obtain rfl := pure_eq_ok.mp h
  obtain ⟨levels', hbuilt, hlevels⟩ := bind_eq_ok.mp hlevels
  obtain ⟨_, -, hlevels⟩ := bind_eq_ok.mp hlevels
  obtain rfl := pure_eq_ok.mp hlevels
  exact ⟨(mapM_eq_ok.mp hbuilt).imp fun _ _ h => (buildLevel_ok h).1, howners⟩

theorem getConfig_returns {apps : Apps} {sc : Schema} {resources : ResourceRegistry}
    (htyped : Typed apps raw) (hsound : SettingsSound apps sc resources raw) :
    (∃ cfg, getConfig raw = .ok cfg) ↔
      ∀ e ∈ raw.entries, e.get? "level" ≠ none ∧ Sortable (e.get "discriminator") := by
  constructor
  · rintro ⟨cfg, h⟩ e he
    obtain ⟨levels, hlevels, -⟩ := bind_eq_ok.mp h
    obtain ⟨levels', hbuilt, -⟩ := bind_eq_ok.mp hlevels
    obtain ⟨l, -, hl⟩ := ok_of_mapM hbuilt he
    exact buildLevel_returns.mp ⟨l, hl⟩
  · intro hall
    obtain ⟨levels, hbuilt⟩ := mapM_total fun e he => buildLevel_returns.mpr (hall e he)
    obtain ⟨owners, howners, -⟩ := htyped.owners
    obtain ⟨reauth, hreauth, -⟩ := hsound.reauth
    have hnames : checkHashable (levels.map LevelConfig.name) = .ok () := by
      rw [checkHashable_ok]
      intro name hname
      obtain ⟨l, hl, rfl⟩ := List.mem_map.mp hname
      obtain ⟨e, he, hl⟩ := (mem_of_mapM hbuilt).mp hl
      have hget : e.get "level" = l.name := by simp [Dict.get, (buildLevel_ok hl).1.name]
      exact hget ▸ htyped.names e he
    simp [getConfig, buildHierarchy, hbuilt, hnames, howners, hreauth, merged]

/-- Each entry names its level and can be put in order, and a first entry with an empty model
that is not `None` is followed by one with a parent. -/
structure Parsable (raw : Settings) : Prop where
  named : ∀ e ∈ raw.entries, e.get? "level" ≠ none
  discriminators : ∀ e ∈ raw.entries, Sortable (e.get "discriminator")
  first : ∀ {e e'}, raw.entries[0]? = some e → raw.entries[1]? = some e' →
    e.isModeled = false → e.get "model" ≠ .none → e'.hasParent

theorem getElem?_filter_pos {α : Type} {keep : α → Bool} {as : List α} {j k : Nat} {a a' : α}
    (hjk : j < k) (ha : as[j]? = some a) (hkeep : keep a) (ha' : as[k]? = some a')
    (hkeep' : keep a') : ∃ i, 0 < i ∧ (as.filter keep)[i]? = some a' := by
  have hsplit : as = as.take k ++ a' :: as.drop (k + 1) := by
    obtain ⟨hlt, heq⟩ := List.getElem?_eq_some_iff.mp ha'
    rw [← heq, List.cons_getElem_drop_succ, List.take_append_drop]
  have hmem : a ∈ (as.take k).filter keep := by
    refine List.mem_filter.mpr ⟨List.mem_of_getElem? (i := j) ?_, hkeep⟩
    rw [List.getElem?_take_of_lt hjk, ha]
  refine ⟨((as.take k).filter keep).length, List.length_pos_of_mem hmem, ?_⟩
  have hfilter : as.filter keep =
      (as.take k).filter keep ++ a' :: (as.drop (k + 1)).filter keep := by
    conv_lhs => rw [hsplit]
    rw [List.filter_append, List.filter_cons_of_pos hkeep']
  simp [hfilter]

section Checked

variable {apps : Apps} {sc : Schema} {resources : ResourceRegistry}
  (htyped : Typed apps raw) (hsound : SettingsSound apps sc resources raw)
include hsound

theorem SettingsSound.hasParent {j k : Nat} {e e' : Dict} (hjk : j < k)
    (he : raw.entries[j]? = some e)
    (hmodeled : e.isModeled) (he' : raw.entries[k]? = some e') (hmodeled' : e'.isModeled) :
    e'.hasParent := by
  obtain ⟨i, hi, hmem⟩ := getElem?_filter_pos hjk he hmodeled he' hmodeled'
  obtain ⟨-, -, hparent, -⟩ := hsound.levels hmem
  exact hparent hi

theorem SettingsSound.isModeled {k : Nat} {e : Dict} (he : raw.entries[k + 1]? = some e) :
    e.isModeled := by
  by_contra hmodeled
  exact absurd (hsound.roots he (by simpa using hmodeled)) (Nat.succ_ne_zero k)

theorem wellFormed_iff (hconfig : getConfig raw = .ok cfg) :
    cfg.WellFormed ↔ ∀ {e e'}, raw.entries[0]? = some e → raw.entries[1]? = some e' →
      e.isModeled = false → e.get "model" ≠ .none → e'.hasParent := by
  obtain ⟨hparsed, howners⟩ := getConfig_parsed hconfig
  have hroot {e : Dict} {l : LevelConfig} (h : Parsed e l) :
      l.isRoot = false ↔ e.get "model" ≠ .none := by
    rw [← h.model, ← Bool.not_eq_true, LevelConfig.isRoot_iff]
  have hmodeled {e : Dict} {l : LevelConfig} (h : Parsed e l) (hm : e.isModeled) :
      l.isRoot = false := by
    refine (hroot h).mpr fun hnone => ?_
    simp [Dict.isModeled, hnone, Value.truthy] at hm
  constructor
  · intro hwell e e' he he' _ hnone
    obtain ⟨l, hl, hel⟩ := getElem?_of_forall₂ hparsed.flip he
    obtain ⟨l', hl', hel'⟩ := getElem?_of_forall₂ hparsed.flip he'
    have hparent := hwell.parents Nat.zero_lt_one hl hl' ((hroot hel).mpr hnone)
      (hmodeled hel' (hsound.isModeled he'))
    rwa [hel'.parent] at hparent
  · intro hfirst
    refine ⟨?_, fun hl hlroot => ?_, fun {j k l l'} hjk hl hl' hlroot _ => ?_, fun v hv => ?_⟩
    · have hnames : cfg.levels.map LevelConfig.name = raw.entries.map fun e => e.get "level" := by
        clear howners hconfig hfirst
        generalize raw.entries = entries at hparsed
        generalize cfg.levels = levels at hparsed
        induction hparsed with
        | nil => rfl
        | cons h _ ih => rw [List.map_cons, List.map_cons, ih, Dict.get, h.name]; rfl
      exact hnames ▸ hsound.names
    · obtain ⟨e, he, hel⟩ := getElem?_of_forall₂ hparsed hl
      refine hsound.roots he ?_
      have hnone : e.get "model" = .none := hel.model ▸ LevelConfig.isRoot_iff.mp hlroot
      simp [Dict.isModeled, hnone, Value.truthy]
    · obtain ⟨e, he, hel⟩ := getElem?_of_forall₂ hparsed hl
      obtain ⟨e', he', hel'⟩ := getElem?_of_forall₂ hparsed hl'
      obtain ⟨k, rfl⟩ : ∃ d, k = d + 1 := ⟨k - 1, by omega⟩
      rw [hel'.parent]
      cases hm : e.isModeled with
      | true => exact hsound.hasParent hjk he hm he' (hsound.isModeled he')
      | false =>
        obtain rfl := hsound.roots he hm
        -- the entries after the first are modeled, so only the second can lack a parent
        cases k with
        | zero => exact hfirst he he' hm ((hroot hel).mp hlroot)
        | succ k =>
          obtain ⟨e'', he''⟩ : ∃ e'', raw.entries[1]? = some e'' := by
            have hlt := (List.getElem?_eq_some_iff.mp he').1
            exact ⟨_, List.getElem?_eq_getElem (by omega)⟩
          exact hsound.hasParent (by omega) he'' (hsound.isModeled he'') he'
            (hsound.isModeled he')
    · obtain ⟨e, he, name, hname, heq⟩ := hsound.owners howners v hv
      obtain ⟨he, hm⟩ := List.mem_filter.mp he
      obtain ⟨k, hk⟩ := List.mem_iff_getElem?.mp he
      obtain ⟨l, hl, hel⟩ := getElem?_of_forall₂ hparsed.flip hk
      refine ⟨l, List.mem_of_getElem? hl, hmodeled hel hm, ?_⟩
      rwa [← Option.some.inj (hname.symm.trans hel.name)]

include htyped

theorem parses_iff : (∃ cfg, getConfig raw = .ok cfg ∧ cfg.WellFormed) ↔ Parsable raw := by
  constructor
  · rintro ⟨cfg, hconfig, hwell⟩
    have hall := (getConfig_returns htyped hsound).mp ⟨cfg, hconfig⟩
    exact ⟨fun e he => (hall e he).1, fun e he => (hall e he).2,
      (wellFormed_iff hsound hconfig).mp hwell⟩
  · intro h
    obtain ⟨cfg, hconfig⟩ := (getConfig_returns htyped hsound).mpr fun e he =>
      ⟨h.named e he, h.discriminators e he⟩
    exact ⟨cfg, hconfig, (wellFormed_iff hsound hconfig).mpr h.first⟩

end Checked

/-- The check returns, and what it does not object to is parsed into a hierarchy. -/
structure StartsUp (apps : Apps) (sc : Schema) (resources : ResourceRegistry) (raw : Settings) :
    Prop where
  returns : ∃ messages, checkScopedAccessConfig apps sc resources raw = .ok messages
  parses : ∀ {messages}, checkScopedAccessConfig apps sc resources raw = .ok messages →
    NoError messages → ∃ cfg, getConfig raw = .ok cfg ∧ cfg.WellFormed

theorem startsUp_iff {apps : Apps} {sc : Schema} {resources : ResourceRegistry} :
    StartsUp apps sc resources raw ↔
      Typed apps raw ∧ (SettingsSound apps sc resources raw → Parsable raw) := by
  constructor
  · intro h
    have htyped := check_returns.mp h.returns
    obtain ⟨messages, hmessages⟩ := h.returns
    exact ⟨htyped, fun hsound =>
      (parses_iff htyped hsound).mp (h.parses hmessages ((check_quiet hmessages).mpr hsound))⟩
  · rintro ⟨htyped, hparsable⟩
    refine ⟨check_returns.mpr htyped, fun hmessages hquiet => ?_⟩
    have hsound := (check_quiet hmessages).mp hquiet
    exact (parses_iff htyped hsound).mpr (hparsable hsound)

namespace Testapp

def apps : Apps where
  getModel label := if label = node ∨ label = resource then some label else none
  appLabel _ := "testapp"
  models _ := [node, resource]
  autoCreated _ := false
  policy _ _ _ _ _ := false
  getModel_empty := by decide

def unnamed : Settings where
  hierarchy := [.entry [(.str "model", .str node)]]

def nameless : Settings where
  hierarchy := [.entry [(.str "parent", .str "parent")]]

theorem unnamed_not_started : ¬ StartsUp apps schema {} unnamed ∧
    ¬ StartsUp apps schema {} nameless := by
  constructor
  · intro h
    obtain ⟨messages, hmessages⟩ := h.returns
    have hraised : checkScopedAccessConfig apps schema {} unnamed =
      throwing .keyError "'level'" := rfl
    exact nomatch hraised.symm.trans hmessages
  · intro h
    obtain ⟨messages, hmessages⟩ := h.returns
    have hnone : checkScopedAccessConfig apps schema {} nameless = .ok [] := rfl
    obtain rfl := Except.ok.inj (hmessages.symm.trans hnone)
    obtain ⟨cfg, hconfig, -⟩ := h.parses hmessages noError_nil
    have hraised : getConfig nameless = throwing .scopedAccessConfigError
      "Each HIERARCHY entry needs a 'level' key." := rfl
    exact nomatch hraised.symm.trans hconfig

end Testapp

end ScopedAccess
