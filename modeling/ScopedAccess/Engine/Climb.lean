import ScopedAccess.Engine.FilterLaws

namespace ScopedAccess

open Lib.Walk (Reaches nth)
open Lib.Loop

/-- One accessor for each model, leading to the model of the level above. -/
structure Hierarchy.Regular (h : Hierarchy) (sc : Schema) : Prop where
  names : (h.levels.map Level.name).Nodup
  root_first : ∀ {k : Nat} {l : Level}, h.levels[k]? = some l → l.model = none → k = 0
  parents : ∀ {k : Nat} {l l' : Level} {m m' : Model}, h.levels[k]? = some l →
    h.levels[k + 1]? = some l' → l.model = some m → l'.model = some m' →
    ∃ accessor, l'.parent = some accessor ∧ h.parentAccessorForModel m' = some accessor ∧
      sc.relatedPath m' accessor.parts = some m

namespace Hierarchy

variable {h : Hierarchy}

theorem parentAccessorForModel_truthy {m : Model} {accessor : Accessor}
    (ha : h.parentAccessorForModel m = some accessor) : accessor.truthy := by
  obtain ⟨l, -, hl⟩ := List.exists_of_findSome?_eq_some ha
  exact (Option.filter_eq_some_iff.mp hl).2

theorem rank_getElem {name : String} {k : Nat} (hk : h.rank name = some k) :
    ∃ l, h.level name = some l ∧ h.levels[k]? = some l := by
  obtain ⟨l, hl, rfl⟩ := Option.map_eq_some_iff.mp hk
  exact ⟨l, hl, List.getElem?_idxOf (h.level_mem hl).1⟩

theorem level_unique (hn : (h.levels.map Level.name).Nodup) {l : Level} (hl : l ∈ h.levels) :
    h.level l.name = some l := by
  have hnr : (h.levels.reverse.map Level.name).Nodup := by simpa using hn
  exact (Lib.Rows.find_eq_some hnr).mpr ⟨by simpa using hl, rfl⟩

theorem rank_of_getElem (hn : (h.levels.map Level.name).Nodup) {k : Nat} {l : Level}
    (hl : h.levels[k]? = some l) : h.rank l.name = some k := by
  have hmem : l ∈ h.levels := List.mem_of_getElem? hl
  rw [rank, level_unique hn hmem, Option.map_some, Option.some.injEq]
  obtain ⟨hlt, rfl⟩ := List.getElem?_eq_some_iff.mp hl
  exact (List.Nodup.of_map _ hn).idxOf_getElem k hlt

theorem modeled_between (hroot : ∀ {k : Nat} {l : Level}, h.levels[k]? = some l →
      l.model = none → k = 0) {rank k : Nat} {l₀ l : Level} {m₀ : Model}
    (hl₀ : h.levels[rank]? = some l₀) (hm₀ : l₀.model = some m₀)
    (hl : h.levels[k + 1]? = some l) (hle : rank ≤ k) :
    ∃ l' m', h.levels[k]? = some l' ∧ l'.model = some m' := by
  have hlt : k < h.levels.length := by
    have := (List.getElem?_eq_some_iff.mp hl).1
    omega
  have hl' : h.levels[k]? = some h.levels[k] := List.getElem?_eq_getElem hlt
  cases hm' : h.levels[k].model with
  | some m' => exact ⟨_, m', hl', hm'⟩
  | none =>
    obtain rfl := hroot hl' hm'
    obtain rfl : rank = 0 := by omega
    obtain rfl : l₀ = h.levels[0] := by simpa [hl₀] using hl'
    simp [hm₀] at hm'

end Hierarchy

variable {w : World}

theorem Hierarchy.Regular.climb (hreg : w.hierarchy.Regular w.site.schema) {rank : Nat}
    {l : Level} {m : Model} (hl : w.hierarchy.levels[rank]? = some l) (hm : l.model = some m)
    {target : Nat} {l' : Level} {m' : Model} (hl' : w.hierarchy.levels[target]? = some l')
    (hm' : l'.model = some m') (hle : rank ≤ target) (item : Nat) :
    ∃ up, upPathFrom w.hierarchy rank target item = .ok up ∧ up ≠ [""] ∧
      w.site.schema.relatedPath m' up = some m ∧
      ∀ r : Row, r.model = m' → w.db.follow r up = nth w.parent (target - rank) r := by
  induction target generalizing l' m' item with
  | zero =>
    obtain rfl : rank = 0 := by omega
    obtain rfl : l = l' := by simpa [hl] using hl'
    obtain rfl : m = m' := by simpa [hm] using hm'
    exact ⟨[], rfl, by simp, rfl, fun r _ => rfl⟩
  | succ k ih =>
    by_cases hk : k + 1 ≤ rank
    · obtain rfl : rank = k + 1 := by omega
      obtain rfl : l = l' := by simpa [hl] using hl'
      obtain rfl : m = m' := by simpa [hm] using hm'
      exact ⟨[], by simp [upPathFrom], by simp, rfl, fun r _ => by simp [Database.follow]⟩
    · obtain ⟨lk, mk, hlk, hmk⟩ :=
        Hierarchy.modeled_between hreg.root_first hl hm hl' (by omega)
      obtain ⟨accessor, hparent, haccessor, hrelated⟩ := hreg.parents hlk hl' hmk hm'
      obtain ⟨rest, hrest, -, hrestModel, hfollow⟩ := ih hlk hmk (by omega) (item + 1)
      refine ⟨accessor.parts ++ rest, ?_, ?_, ?_, ?_⟩
      · simp [upPathFrom, hk, hl', hparent, hrest]
      · intro hempty
        have htruthy := Hierarchy.parentAccessorForModel_truthy haccessor
        simp only [Accessor.truthy, Accessor.parts, List.cons_append, List.cons.injEq,
          List.append_eq_nil_iff] at htruthy hempty
        simp [hempty.1, hempty.2.1] at htruthy
      · rw [Schema.relatedPath_append, hrelated]
        exact hrestModel
      · intro r hr
        have hstep : w.parent r = w.db.follow r accessor.parts := by
          rw [World.parent, hr, haccessor]
          rfl
        rw [Database.follow_append, show k + 1 - rank = (k - rank) + 1 by omega,
          Lib.Walk.nth_succ, hstep]
        cases hs : w.db.follow r accessor.parts with
        | none => rfl
        | some s =>
          refine hfollow s ?_
          have hmodel := w.db.follow_model hs
          rw [hr, hrelated] at hmodel
          exact (Option.some.inj hmodel).symm

/-- The path climbs the walk by the difference of the ranks. -/
structure Climbs (w : World) (m m' : Model) (steps : Nat) (path : List String) : Prop where
  related : w.site.schema.relatedPath m path = some m'
  follow : ∀ r : Row, r.model = m → w.db.follow r path = nth w.parent steps r

theorem Hierarchy.Regular.nodePaths (hreg : w.hierarchy.Regular w.site.schema) {rank : Nat}
    {l : Level} {m : Model} (hl : w.hierarchy.levels[rank]? = some l) (hm : l.model = some m)
    {target : Nat} {l' : Level} {m' : Model} (hl' : w.hierarchy.levels[target]? = some l')
    (hm' : l'.model = some m') :
    ∃ ps, ScopedAccess.nodePaths w.hierarchy target rank = .ok ps ∧
      (target < rank → ps = []) ∧
      (rank ≤ target → ∃ path, ps = [path] ∧ Climbs w m' m (target - rank) path) := by
  rcases Nat.lt_trichotomy rank target with hlt | heq | hgt
  · obtain ⟨up, hup, -, hrelated, hfollow⟩ := hreg.climb hl hm hl' hm' hlt.le 0
    refine ⟨[up], ?_, by omega, fun _ => ⟨up, rfl, hrelated, hfollow⟩⟩
    simp [ScopedAccess.nodePaths, upPath, hup, hlt.ne, hlt.le]
  · subst heq
    obtain rfl : l = l' := by simpa [hl] using hl'
    obtain rfl : m = m' := by simpa [hm] using hm'
    refine ⟨[[]], by simp [ScopedAccess.nodePaths], by omega, fun _ => ⟨[], rfl, rfl, fun r _ => ?_⟩⟩
    simp [Database.follow]
  · exact ⟨[], by simp [ScopedAccess.nodePaths, hgt], fun _ => rfl, by omega⟩

theorem Hierarchy.Regular.climbs_of_mem (hreg : w.hierarchy.Regular w.site.schema) {rank : Nat}
    {l : Level} {m : Model} (hl : w.hierarchy.levels[rank]? = some l) (hm : l.model = some m)
    {target : Nat} {l' : Level} {m' : Model} (hl' : w.hierarchy.levels[target]? = some l')
    (hm' : l'.model = some m') {ps : List (List String)}
    (hps : ScopedAccess.nodePaths w.hierarchy target rank = .ok ps) {path : List String}
    (hp : path ∈ ps) : rank ≤ target ∧ Climbs w m' m (target - rank) path := by
  obtain ⟨ps', hps', hdeep, hone⟩ := hreg.nodePaths hl hm hl' hm'
  obtain rfl : ps = ps' := Except.ok.inj (hps.symm.trans hps')
  rcases Nat.lt_or_ge target rank with hlt | hle
  · rw [hdeep hlt] at hp
    cases hp
  · obtain ⟨path', rfl, hclimbs⟩ := hone hle
    obtain rfl := List.mem_singleton.mp hp
    exact ⟨hle, hclimbs⟩

theorem anchorTargetLevels_ok {m : Model} {anchor : Accessor} {targets : List (Nat × Level)}
    (hn : (w.hierarchy.levels.map Level.name).Nodup)
    (h : anchorTargetLevels w.hierarchy w.site.schema m anchor = .ok targets) :
    ∃ m', w.site.schema.lookupPath m anchor.parts = some m' ∧ ∀ k l, (k, l) ∈ targets ↔
      w.hierarchy.levels[k]? = some l ∧ l.model = some m' := by
  unfold anchorTargetLevels at h
  cases hm : w.site.schema.lookupPath m anchor.parts with
  | none => simp [hm, throwing] at h
  | some m' =>
    obtain rfl := by simpa [hm] using h
    refine ⟨m', rfl, fun k l => ?_⟩
    simp only [List.mem_filterMap, Hierarchy.mem_levelsForModel, Option.map_eq_some_iff,
      Prod.mk.injEq]
    constructor
    · rintro ⟨l', ⟨hmem, hmodel⟩, k', hk, rfl, rfl⟩
      obtain ⟨l'', hl'', hget⟩ := Hierarchy.rank_getElem hk
      rw [Hierarchy.level_unique hn hmem, Option.some.injEq] at hl''
      exact ⟨hl'' ▸ hget, hmodel⟩
    · rintro ⟨hget, hmodel⟩
      exact ⟨l, ⟨List.mem_of_getElem? hget, hmodel⟩, k, Hierarchy.rank_of_getElem hn hget, rfl, rfl⟩

theorem Hierarchy.Regular.anchorPaths (hreg : w.hierarchy.Regular w.site.schema) {m' : Model}
    (anchor : Accessor) {targets : List (Nat × Level)}
    (htargets : ∀ k l, (k, l) ∈ targets ↔ w.hierarchy.levels[k]? = some l ∧ l.model = some m')
    {rank : Nat} {l : Level} {mid : Model} (hl : w.hierarchy.levels[rank]? = some l)
    (hm : l.model = some mid) :
    ∃ ps, ScopedAccess.anchorPaths w.hierarchy anchor targets rank = .ok ps ∧
      (∀ path ∈ ps, ∃ steps up, path = anchor.parts ++ up ∧ Climbs w m' mid steps up) ∧
      ∀ k l', w.hierarchy.levels[k]? = some l' → l'.model = some m' → rank ≤ k →
        ∃ up, anchor.parts ++ up ∈ ps ∧ Climbs w m' mid (k - rank) up := by
  have hpath (target : Nat × Level)
      (ht : target ∈ targets.filter fun target => ¬ target.1 < rank) :
      ∃ up, ((do return joinPath anchor (← upPath w.hierarchy target.1 rank) : Py _) =
        .ok (anchor.parts ++ up)) ∧ Climbs w m' mid (target.1 - rank) up := by
    obtain ⟨hmem, hle⟩ := List.mem_filter.mp ht
    obtain ⟨hget, hmodel⟩ := (htargets target.1 target.2).mp hmem
    obtain ⟨up, hup, hne, hrelated, hfollow⟩ :=
      hreg.climb hl hm hget hmodel (by simpa using hle) 0
    exact ⟨up, by simp [upPath, hup, joinPath, hne], hrelated, hfollow⟩
  obtain ⟨ps, hps⟩ := mapM_total fun target ht => ⟨_, (hpath target ht).choose_spec.1⟩
  refine ⟨ps, hps, ?_, ?_⟩
  · intro path hp
    obtain ⟨target, ht, heq⟩ := (mem_of_mapM hps).mp hp
    obtain ⟨up, hup, hclimbs⟩ := hpath target ht
    exact ⟨_, up, Except.ok.inj (heq.symm.trans hup), hclimbs⟩
  · intro k l' hget hmodel hle
    have ht : (k, l') ∈ targets.filter fun target => ¬ target.1 < rank :=
      List.mem_filter.mpr ⟨(htargets k l').mpr ⟨hget, hmodel⟩, by simpa using hle⟩
    obtain ⟨up, hup, hclimbs⟩ := hpath _ ht
    obtain ⟨path, hp, heq⟩ := ok_of_mapM hps ht
    obtain rfl := Except.ok.inj (heq.symm.trans hup)
    exact ⟨up, hp, hclimbs⟩

theorem World.NodeShape.rank {a : Assignment} {s : Row} (h : w.NodeShape a.row s) :
    ∃ rank l, rankOrNone w.hierarchy a = some rank ∧ w.hierarchy.levels[rank]? = some l ∧
      l.selects w.db s := by
  obtain ⟨-, -, name, hname, l, hl, hsel⟩ := h
  refine ⟨w.hierarchy.levels.idxOf l, l, ?_, List.getElem?_idxOf (w.hierarchy.level_mem hl).1,
    hsel⟩
  rw [rankOrNone, Option.mem_def.mp hname, Option.bind_some, Hierarchy.rank, Option.mem_def.mp hl]
  rfl

section Key

variable {a : Assignment} {s r : Row} {path : List String}

theorem pk_holds_scope (hs : w.db.generic a.row.scopeCt a.row.scopeId = .ok (some s))
    (hpath : w.site.schema.relatedPath r.model path = some s.model) :
    (Q.pk path a.row.scopeId).holds w.db r ↔ w.db.follow r path = some s := by
  obtain ⟨-, -, i, hid, hi⟩ := w.db.generic_some hs
  rw [hid, Q.holds_pk, w.db.lookup_related hpath]
  constructor
  · rintro ⟨s', hs', hkey⟩
    have hmodel : s.model = s'.model := by
      simpa [hpath] using w.db.follow_model hs'
    rw [← hmodel, hi] at hkey
    have hpk := Except.ok.inj hkey
    cases s
    cases s'
    simp_all
  · intro h
    exact ⟨s, h, hi⟩

theorem pk_compile_scope {m : Model}
    (hs : w.db.generic a.row.scopeCt a.row.scopeId = .ok (some s))
    (hpath : w.site.schema.relatedPath m path = some s.model) :
    (Q.pk path a.row.scopeId).compile w.site.schema m = .ok () := by
  obtain ⟨-, -, i, hid, hi⟩ := w.db.generic_some hs
  simp [Q.compile, Schema.lookupPath_related hpath, hid, hi]

end Key

end ScopedAccess
