import ScopedAccess.Parsing
import ScopedAccess.Engine.Climb
import ScopedAccess.Lib.Chain

namespace ScopedAccess

open Lib.Loop

/-- The settings of a site start: no check reports an error, and they are parsed. -/
structure Accepted (apps : Apps) (raw : Settings) (site : Site) : Prop where
  checked : ∃ messages, checkScopedAccessConfig apps site.schema site.resources raw = .ok messages ∧
    NoError messages
  parsed : ∃ cfg, getConfig raw = .ok cfg ∧ cfg.site apps site.schema site.resources = some site

structure Hierarchy.Checked (h : Hierarchy) (sc : Schema) : Prop where
  names : (h.levels.map Level.name).Nodup
  root_first : ∀ {k : Nat} {l : Level}, h.levels[k]? = some l → l.model = none → k = 0
  parents : ∀ {k : Nat} {l l' : Level} {m m' : Model}, h.levels[k]? = some l →
    h.levels[k + 1]? = some l' → l.model = some m → l'.model = some m' →
    ∃ accessor target, l'.parent = some accessor ∧ accessor.truthy ∧
      sc.lookupPath m' accessor.parts = some target
  climbs : ∀ {l : Level} {m : Model} {accessor : Accessor}, l ∈ h.levels → l.model = some m →
    l.parent = some accessor → accessor.truthy → (sc.lookupPath m accessor.parts).isSome

theorem splitPath_nil {cs : List Char} (h : splitPath cs = ([], [])) : cs = [] := by
  match cs with
  | [] => rfl
  | c :: cs =>
    unfold splitPath at h
    split at h <;> simp_all

theorem Accessor.ofString_truthy {path : String} (h : path ≠ "") :
    (Accessor.ofString path).truthy := by
  refine decide_eq_true fun hparts => h ?_
  obtain ⟨hfirst, hrest⟩ := List.cons.inj hparts
  have hsplit : splitPath path.toList = ([], []) := by
    exact Prod.ext (String.ofList_eq_empty_iff.mp hfirst) (List.map_eq_nil_iff.mp hrest)
  simpa using congrArg String.ofList (splitPath_nil hsplit)

structure Reads (apps : Apps) (e : Dict) (l : Level) : Prop where
  name : e.get? "level" = some (.str l.name)
  parent : l.parent = (e.get "parent").str?.map Accessor.ofString
  root : l.model = none → e.get "model" = .none
  model : ∀ m, l.model = some m → e.Loads apps m

theorem Dict.isModeled_of_loads {apps : Apps} {e : Dict} {m : Model} (h : e.Loads apps m) :
    e.isModeled := by
  obtain ⟨label, hlabel, hm⟩ := h
  have hne : label ≠ "" := fun hempty => by simp [hempty, apps.getModel_empty] at hm
  simp [Dict.isModeled, hlabel, Value.truthy, hne]

theorem Parsed.reads {apps : Apps} {e : Dict} {c : LevelConfig} {l : Level} (h : Parsed e c)
    (hload : c.load apps = some l) : Reads apps e l := by
  obtain ⟨name, hname, hload⟩ := Option.bind_eq_some_iff.mp hload
  obtain ⟨model, hmodel, hload⟩ := Option.bind_eq_some_iff.mp hload
  obtain ⟨parent, hparent, hload⟩ := Option.bind_eq_some_iff.mp hload
  obtain ⟨discriminator, -, hload⟩ := Option.bind_eq_some_iff.mp hload
  obtain rfl := Option.some.inj hload
  rw [h.model] at hmodel
  refine ⟨by rw [h.name, Value.str?_eq_some.mp hname], ?_, ?_, ?_⟩
  · rw [← h.parent]
    cases hc : c.parent with
    | none | str => simpa [hc, Value.accessor, Value.str?, eq_comm] using hparent
    | _ => simp [hc, Value.accessor] at hparent
  · rintro rfl
    cases hv : e.get "model" with
    | none => rfl
    | _ => simp [hv, Apps.model] at hmodel
  · rintro m rfl
    cases hv : e.get "model" with
    | str label => exact ⟨label, hv, by simpa [hv, Apps.model] using hmodel⟩
    | _ => simp [hv, Apps.model] at hmodel

variable {apps : Apps} {raw : Settings} {site : Site}

theorem site_levels {cfg : ScopedAccessConfig} {sc : Schema} {resources : ResourceRegistry}
    (h : cfg.site apps sc resources = some site) :
    cfg.levels.mapM (LevelConfig.load apps) = some site.hierarchy.levels := by
  obtain ⟨levels, hlevels, h⟩ := Option.bind_eq_some_iff.mp h
  have hsite := congrArg (·.hierarchy.levels) (Option.some.inj h)
  exact hsite ▸ hlevels

theorem forall₂_comp {α β γ : Type} {R : α → β → Prop} {S : β → γ → Prop} {T : α → γ → Prop}
    {as : List α} {bs : List β} {cs : List γ} (h : List.Forall₂ R as bs)
    (h' : List.Forall₂ S bs cs) (hT : ∀ a b c, R a b → S b c → T a c) : List.Forall₂ T as cs := by
  induction h generalizing cs with
  | nil =>
    cases h'
    exact .nil
  | cons hR _ ih =>
    cases h' with
    | cons hS hrest => exact .cons (hT _ _ _ hR hS) (ih hrest)

namespace Accepted

variable (h : Accepted apps raw site)
include h

theorem reads : List.Forall₂ (Reads apps) raw.entries site.hierarchy.levels := by
  obtain ⟨cfg, hconfig, hsite⟩ := h.parsed
  exact forall₂_comp (getConfig_parsed hconfig).1 (mapM_eq_some.mp (site_levels hsite))
    fun _ _ _ hparsed hload => hparsed.reads hload

theorem sound : SettingsSound apps site.schema site.resources raw := by
  obtain ⟨messages, hmessages, hquiet⟩ := h.checked
  exact (check_quiet hmessages).mp hquiet

theorem anchors_checked (m : Model) (anchor : Accessor)
    (hanchor : site.resources.anchorFor m = some anchor) :
    (site.schema.lookupPath m anchor.parts).isSome := by
  obtain ⟨before, after, hmem, -⟩ := List.lookup_eq_some_iff.mp hanchor
  exact Option.isSome_iff_exists.mpr (h.sound.anchors (m, anchor) (by simp [hmem]))

theorem hierarchy_checked : site.hierarchy.Checked site.schema := by
  have hread {k : Nat} {l : Level} (hl : site.hierarchy.levels[k]? = some l) :=
    getElem?_of_forall₂ h.reads hl
  refine ⟨?_, fun {k l} hl hroot => ?_, fun {k l l' m m'} hl hl' hm hm' => ?_,
    fun {l m accessor} hl hm hparent htruthy => ?_⟩
  · have hmap : raw.entries.map (fun e => e.get "level") =
        site.hierarchy.levels.map fun l => .str l.name := by
      have hreads := h.reads
      generalize raw.entries = entries at hreads
      generalize site.hierarchy.levels = levels at hreads
      induction hreads with
      | nil => rfl
      | cons hread _ ih => rw [List.map_cons, List.map_cons, ih, Dict.get, hread.name]; rfl
    have hnames := h.sound.names
    rw [hmap, NamesDistinct, List.pairwise_map] at hnames
    exact List.pairwise_map.mpr (hnames.imp fun hne => by simpa using hne)
  · obtain ⟨e, he, hreads⟩ := hread hl
    exact h.sound.roots he (by simp [Dict.isModeled, hreads.root hroot, Value.truthy])
  · obtain ⟨e, he, hreads⟩ := hread hl
    obtain ⟨e', he', hreads'⟩ := hread hl'
    obtain ⟨label, hlabel, hload⟩ := hreads.model m hm
    obtain ⟨label', hlabel', hload'⟩ := hreads'.model m' hm'
    have hmodeled : e.isModeled := Dict.isModeled_of_loads ⟨label, hlabel, hload⟩
    obtain ⟨i, hi, hmem⟩ := getElem?_filter_pos (Nat.lt_succ_self k) he hmodeled he'
      (Dict.isModeled_of_loads ⟨label', hlabel', hload'⟩)
    obtain ⟨m'', ⟨label'', hlabel'', hload''⟩, hparent, hclimbs⟩ := h.sound.levels hmem
    obtain rfl := Value.str.inj (hlabel'.symm.trans hlabel'')
    obtain rfl := Option.some.inj (hload'.symm.trans hload'')
    obtain ⟨parent, target, hp, htarget⟩ := hclimbs (hparent hi)
    have hne : parent ≠ "" := by
      rintro rfl
      simp [Dict.hasParent, hp, Value.truthy] at hparent
      omega
    exact ⟨.ofString parent, target, by rw [hreads'.parent, hp]; rfl,
      Accessor.ofString_truthy hne, htarget⟩
  · obtain ⟨k, hk⟩ := List.mem_iff_getElem?.mp hl
    obtain ⟨e, he, hreads⟩ := hread hk
    obtain ⟨label, hlabel, hload⟩ := hreads.model m hm
    obtain ⟨i, hi⟩ := List.mem_iff_getElem?.mp (List.mem_filter.mpr
      ⟨List.mem_of_getElem? he, Dict.isModeled_of_loads ⟨label, hlabel, hload⟩⟩)
    obtain ⟨m', ⟨label', hlabel', hload'⟩, -, hclimbs⟩ := h.sound.levels hi
    obtain rfl := Value.str.inj (hlabel.symm.trans hlabel')
    obtain rfl := Option.some.inj (hload.symm.trans hload')
    rw [hreads.parent] at hparent
    obtain ⟨path, hpath, rfl⟩ := Option.map_eq_some_iff.mp hparent
    have hstr : e.get "parent" = .str path := Value.str?_eq_some.mp hpath
    have hne : path ≠ "" := by
      rintro rfl
      simp [Accessor.truthy, Accessor.parts, Accessor.ofString, splitPath] at htruthy
    obtain ⟨parent, target, hp, htarget⟩ :=
      hclimbs (by simp [Dict.hasParent, hstr, Value.truthy, hne])
    obtain rfl := Value.str.inj (hstr.symm.trans hp)
    exact Option.isSome_iff_exists.mpr ⟨target, htarget⟩

end Accepted

namespace Testapp

def nodeEntry (name : String) (parent : List (Value × Value)) : HierarchyEntry :=
  .entry ([(.str "level", .str name), (.str "model", .str node),
    (.str "discriminator", .dict [(.str "level", .str name)])] ++ parent)

def settings : Settings where
  hierarchy := [
    .name "NATIONAL",
    nodeEntry "REGIONAL" [],
    nodeEntry "DISTRICT" [(.str "parent", .str "parent")],
    nodeEntry "FACILITY" [(.str "parent", .str "parent")]]

theorem accepted : Accepted Testapp.apps settings Testapp.site where
  checked := ⟨[], rfl, noError_nil⟩
  parsed := ⟨_, rfl, rfl⟩

end Testapp

end ScopedAccess
