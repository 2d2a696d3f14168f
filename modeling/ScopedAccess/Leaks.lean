import ScopedAccess.Listed

namespace ScopedAccess

open Lib (Chain.Distinct Chain.head Chain.next)
open Lib.Walk (Acyclic Reaches)
open Lib.Loop

/-- A key field reads back the keys it writes, and there is always one more key. -/
structure Schema.Keyed (sc : Schema) : Prop where
  canonical : ∀ {m : Model} {id : String} {pk : Pk}, sc.toPk m id = .ok pk → sc.toPk m pk = .ok pk
  fresh : ∀ (m : Model) (taken : List Pk), ∃ pk ∉ taken, sc.toPk m pk = .ok pk

def Schema.Links (sc : Schema) (last : Row) : List (Row × String) → Prop
  | [] => True
  | link :: c =>
    sc.relatedModel link.1.model link.2 = some (Chain.head last c).model ∧ sc.Links last c

structure Schema.Laid (sc : Schema) (taken : List Pk) (last : Row) (m : Model) (path : List String)
    (c : List (Row × String)) : Prop where
  labels : c.map Prod.snd = path
  start : (Chain.head last c).model = m
  links : sc.Links last c
  distinct : Chain.Distinct last c
  keys : ∀ r ∈ c.map Prod.fst, r.pk ∉ taken ∧ sc.toPk r.model r.pk = .ok r.pk

section Laid

variable {sc : Schema} {last : Row} {c : List (Row × String)}

theorem Schema.EndsAtColumn.not_related {m : Model} {path : List String}
    (h : sc.EndsAtColumn m path) : ¬ (sc.relatedPath m path).isSome := by
  induction h with
  | column hattribute _ => simp [relatedPath, hattribute]
  | relation hrelated _ ih => simpa [relatedPath, hrelated] using ih

theorem Schema.Links.related (h : sc.Links last c) {r s : Row} {f : String}
    (hs : Chain.next last c r f = some s) : sc.relatedModel r.model f = some s.model := by
  induction c with
  | nil => cases hs
  | cons link c ih =>
    rw [Chain.next] at hs
    split at hs
    · rename_i heq
      obtain rfl := Option.some.inj hs
      rw [heq.1, heq.2]
      exact h.1
    · exact ih h.2 hs

theorem Hierarchy.exists_deepest (h : Hierarchy) {m : Model} (hm : h.isNodeModel m) :
    ∃ (rank : Nat) (l : Level), h.levels[rank]? = some l ∧ l.model = some m ∧
      ∀ (k : Nat) (l' : Level), h.levels[k]? = some l' → l'.model = some m → k ≤ rank := by
  classical
  obtain ⟨l, hl, hlm⟩ := h.isNodeModel_iff.mp hm
  obtain ⟨k, hk⟩ := List.mem_iff_getElem?.mp hl
  let P (k : Nat) : Prop := ∃ l, h.levels[k]? = some l ∧ l.model = some m
  have hbound {k : Nat} (hP : P k) : k ≤ h.levels.length := by
    obtain ⟨l, hl, -⟩ := hP
    exact (List.getElem?_eq_some_iff.mp hl).1.le
  have hP : P k := ⟨l, hk, hlm⟩
  obtain ⟨l', hl', hlm'⟩ := Nat.findGreatest_spec (P := P) (hbound hP) hP
  exact ⟨_, l', hl', hlm', fun j l hj hjm => Nat.le_findGreatest (hbound ⟨l, hj, hjm⟩) ⟨l, hj, hjm⟩⟩

theorem Schema.Keyed.exists_laid (hkeyed : sc.Keyed) {taken : List Pk} (hlast : last.pk ∈ taken)
    {m : Model} {path : List String} (hpath : sc.relatedPath m path = some last.model) :
    ∃ c, sc.Laid taken last m path c := by
  induction path generalizing m with
  | nil =>
    exact ⟨[], rfl, (Option.some.inj hpath).symm, trivial, ⟨.nil, by simp⟩, by simp⟩
  | cons f path ih =>
    obtain ⟨m', hm', hpath⟩ := Option.bind_eq_some_iff.mp hpath
    obtain ⟨c, hlabels, hstart, hlinks, ⟨hnodup, hnot⟩, hkeys⟩ := ih hpath
    obtain ⟨pk, hfresh, hpk⟩ := hkeyed.fresh m (taken ++ c.map fun link => link.1.pk)
    simp only [List.mem_append, List.mem_map, not_or] at hfresh
    refine ⟨(⟨m, pk⟩, f) :: c, by rw [List.map_cons, hlabels], rfl,
      ⟨by rw [hstart]; exact hm', hlinks⟩, ⟨?_, ?_⟩, ?_⟩
    · refine List.nodup_cons.mpr ⟨fun hmem => hfresh.2 ?_, hnodup⟩
      obtain ⟨link, hlink, heq⟩ := List.mem_map.mp hmem
      exact ⟨link, hlink, congrArg Row.pk heq⟩
    · rw [List.map_cons, List.mem_cons, not_or]
      exact ⟨fun heq => hfresh.1 (by rw [heq] at hlast; exact hlast), hnot⟩
    · rw [List.map_cons]
      exact List.forall_mem_cons.mpr ⟨⟨hfresh.1, hpk⟩, hkeys⟩

end Laid

theorem World.followAttr_plain {w : World} {r s : Row} {path names : List String}
    (hends : w.site.schema.EndsAtColumn r.model path)
    (hnames : w.site.schema.joined r.model path = some names)
    (hs : w.db.follow r names = some s) : w.followAttr (.stored r) path = some .plain := by
  generalize hm : r.model = m at hends hnames
  induction hends generalizing r names with
  | @column m f hattribute hfield =>
    subst hm
    obtain ⟨g, hg, hnames⟩ := Option.bind_eq_some_iff.mp hnames
    obtain ⟨m', hm', hnames⟩ := Option.bind_eq_some_iff.mp hnames
    obtain rfl := Option.some.inj hnames
    obtain ⟨x, hx, -⟩ := Option.bind_eq_some_iff.mp hs
    have hcolumn : w.site.schema.column r.model f = some g := by
      rw [Schema.getField, hattribute] at hg
      exact (Option.filter_eq_some_iff.mp hg).1
    have hrelated : w.relatedObj (.stored r) g = some (.stored x) := by
      simp [relatedObj, Obj.stored, Obj.under, hx]
    have hholds : w.holds (.stored r) f := by
      rw [holds, show w.site.schema.column (Obj.stored r).model f = some g from hcolumn]
      simp [hrelated]
    simp only [followAttr_cons, getattr, show w.site.schema.relatedModel (Obj.stored r).model f =
      none from hattribute, hholds, if_true, Option.bind_some, followAttr_nil]
  | @relation m m' f path hrelated _ ih =>
    subst hm
    obtain ⟨g, hg, hnames⟩ := Option.bind_eq_some_iff.mp hnames
    obtain rfl : f = g := Option.some.inj ((Schema.getField_related hrelated).symm.trans hg)
    obtain ⟨m₁, hm₁, hnames⟩ := Option.bind_eq_some_iff.mp hnames
    obtain rfl : m' = m₁ := Option.some.inj (hrelated.symm.trans hm₁)
    obtain ⟨rest, hrest, hnames⟩ := Option.bind_eq_some_iff.mp hnames
    obtain rfl := Option.some.inj hnames
    obtain ⟨x, hx, hs⟩ := Option.bind_eq_some_iff.mp hs
    have hmodel : x.model = m' :=
      (Option.some.inj (hrelated.symm.trans (w.db.related_model hx))).symm
    have hattr : w.getattr f (.stored r) = some (.stored x) := by
      rcases getattr_stored (w := w) r f with hattr | ⟨hnone, -⟩
      · simp [hattr, hx]
      · simp [hx] at hnone
    rw [followAttr_cons, hattr, Option.bind_some]
    exact ih hs hmodel hrest

namespace Leak

open Testapp (nadia viewPatient)

def tables (rooted : Bool) (level : String) (ct : Ct) (id : String) : Tables where
  users := [1]
  contentTypes := [ct]
  roles := [{ id := 1, name := "viewer" }]
  rolePermissions := [⟨1, viewPatient⟩]
  assignments := (if rooted then [{ id := 2, user := 1, role := 1 }] else []) ++
    [{ id := 1, user := 1, role := 1, level := some level, scopeCt := some ct, scopeId := some id }]
  valid := by
    refine ⟨⟨by simp, by simp, by simp⟩, ⟨by simp, by simp⟩, ?_, ?_, ?_⟩
    · cases rooted <;> simp
    · cases rooted
      · simp
      · simp [AssignmentRow.collides, AssignmentRow.sameLiveAssignment, AssignmentRow.sameLiveRoot,
          AssignmentRow.sameLiveFlat, sqlEq]
    · cases rooted <;> simp

/-- The scope, and apart from it a row whose relations lead along the names. -/
structure Plan (sc : Schema) (l₀ : Level) (scope last : Row) (m : Model) (id : String)
    (names : List String) (c : List (Row × String)) : Prop where
  laid : sc.Laid [id, scope.pk, last.pk] last m names c
  scopeLevel : l₀.model = some scope.model
  scopeKey : sc.toPk scope.model id = .ok scope.pk
  scopePk : sc.toPk scope.model scope.pk = .ok scope.pk
  lastPk : sc.toPk last.model last.pk = .ok last.pk

variable {sc : Schema} {l₀ l : Level} {scope last : Row} {m : Model} {id : String}
  {names : List String} {c : List (Row × String)}

def db (l : Level) (h : Plan sc l₀ scope last m id names c) : Database sc where
  rows := scope :: last :: c.map Prod.fst
  related := Chain.next last c
  shown _ := true
  satisfies r filter :=
    r = Chain.head last c && filter ∈ l.discriminator || r = scope && filter ∈ l₀.discriminator
  related_model hs := h.laid.links.related hs
  related_mem hs := List.mem_cons_of_mem _ (List.mem_cons.mpr (Lib.Chain.next_within hs))
  toPk_pk {r} hr := by
    obtain rfl | rfl | hr : r = scope ∨ r = last ∨ r ∈ c.map Prod.fst := by simpa using hr
    · exact h.scopePk
    · exact h.lastPk
    · exact (h.laid.keys r hr).2

theorem follow_eq (h : Plan sc l₀ scope last m id names c) (r : Row) (p : List String) :
    (db l h).follow r p = Lib.Chain.follow (Chain.next last c) r p := by
  induction p generalizing r with
  | nil => rfl
  | cons f p ih => exact congrArg _ (funext ih)

theorem follow_names (h : Plan sc l₀ scope last m id names c) :
    (db l h).follow (Chain.head last c) names = some last := by
  rw [follow_eq, ← h.laid.labels]
  exact Lib.Chain.follow_whole h.laid.distinct

theorem selects_scope (h : Plan sc l₀ scope last m id names c) : l₀.selects (db l h) scope := by
  simp +contextual [Level.selects, h.scopeLevel, db]

theorem head_mem : Chain.head last c ∈ last :: c.map Prod.fst := by
  cases c <;> simp [Chain.head]

theorem selects_head (h : Plan sc l₀ scope last m id names c) (hlevel : l.model = some m) :
    l.selects (db l h) (Chain.head last c) := by
  simp only [Level.selects, hlevel, h.laid.start, db]
  simp +contextual [List.mem_cons_of_mem scope head_mem]

section World

variable {site : Site} (rooted : Bool) (l : Level)
  (h : Plan site.schema l₀ scope last m id names c)

def world : World where
  site := site
  db := db l h
  now := 10
  tables := tables rooted l₀.name (site.schema.contentType scope.model) id

def viewer : Assignment where
  row := { id := 1, user := 1, role := 1, level := some l₀.name,
           scopeCt := some (site.schema.contentType scope.model), scopeId := some id }
  role := (world rooted l h).loadRole { id := 1, name := "viewer" }
  scope := .ok (some scope)

def rootViewer : Assignment where
  row := { id := 2, user := 1, role := 1 }
  role := (world rooted l h).loadRole { id := 1, name := "viewer" }
  scope := .ok none

theorem fetch_viewer : (world rooted l h).fetchEffective nadia 10 =
    .ok ((if rooted then [rootViewer rooted l h] else []) ++ [viewer rooted l h]) := by
  have hgeneric : (db l h).generic (some (site.schema.contentType scope.model)) (some id) =
      .ok (some scope) := by
    simp [Database.generic, site.schema.modelClass_eq_some.mpr rfl, h.scopeKey, db]
  have hrow : (world rooted l h).prefetch (viewer rooted l h).row =
      .ok (some (viewer rooted l h)) :=
    World.prefetch_some.mpr ⟨some scope, _, hgeneric, rfl, rfl⟩
  have hroot : (world rooted l h).prefetch (rootViewer rooted l h).row =
      .ok (some (rootViewer rooted l h)) :=
    World.prefetch_some.mpr ⟨none, _, rfl, rfl, rfl⟩
  refine World.fetchEffective_pairs.mpr ?_
  cases rooted with
  | false => exact .cons hrow .nil
  | true => exact .cons hroot (.cons hrow .nil)

theorem viewer_effective : (world rooted l h).Effective nadia.pk 10 (viewer rooted l h) :=
  (World.mem_fetchEffective (fetch_viewer rooted l h)).mp (by simp)

theorem carries_viewer : carries (some viewPatient.label) (viewer rooted l h) := by
  have hlabels : viewPatient.label ∈ (tables rooted "" "" "").roleLabels 1 := by
    cases rooted <;> decide
  exact decide_eq_true hlabels

theorem valid_viewer (hlevel : site.hierarchy.level l₀.name = some l₀) :
    (world rooted l h).Valid (viewer rooted l h) := by
  have hshape : (world rooted l h).NodeShape (viewer rooted l h).row scope :=
    ⟨by simp [viewer], by simp [viewer], l₀.name, rfl, l₀, hlevel, selects_scope h⟩
  have hscope := World.assignmentScopeIsValid_true.mpr (.inr ⟨scope, rfl, hshape⟩)
  exact World.valid_iff.mpr ⟨hscope, .inl rfl⟩

theorem owners_viewer : (world rooted l h).OwnersRead := by
  intro r hr hid
  obtain rfl : r = { id := 1, name := "viewer" } := List.mem_singleton.mp hr
  exact absurd rfl hid

theorem scopeIds {ids : Model → String → Prop} (hid : ids scope.model id) :
    (world rooted l h).ScopeIds ids := by
  intro a ha m i hct hi
  obtain hroot | rfl : a.scopeCt = none ∨ a = (viewer rooted l h).row := by
    rcases List.mem_append.mp ha with ha | ha
    · refine .inl ?_
      cases rooted with
      | false => cases ha
      | true => rw [List.mem_singleton.mp ha]
    · exact .inr (List.mem_singleton.mp ha)
  · simp [hroot] at hct
  · obtain rfl := site.schema.contentType_injective (Option.some.inj hct)
    exact Option.some.inj hi ▸ hid

theorem parent_follow {r s : Row} (hs : (world rooted l h).parent r = some s) : ∃ accessor,
    site.hierarchy.parentAccessorForModel r.model = some accessor ∧
      site.schema.relatedPath r.model accessor.parts = some s.model ∧
      Lib.Chain.follow (Chain.next last c) r accessor.parts = some s := by
  obtain ⟨accessor, haccessor, hs⟩ := Option.bind_eq_some_iff.mp hs
  exact ⟨accessor, haccessor, (db l h).follow_model hs, follow_eq h r _ ▸ hs⟩

theorem acyclic : Acyclic (world rooted l h).parent := by
  refine Lib.Chain.acyclic h.laid.distinct fun r s hs => ?_
  obtain ⟨accessor, -, -, hfollow⟩ := parent_follow rooted l h hs
  exact ⟨accessor.parts, by simp [Accessor.parts], hfollow⟩

theorem walked {pre rest : List (Row × String)} (hc : c = pre ++ rest) {x : Row}
    (hx : Reaches (world rooted l h).parent (Chain.head last rest) x) : ∃ c₁ c₂, rest = c₁ ++ c₂ ∧
      x = Chain.head last c₂ ∧ site.hierarchy.Walked site.schema (Chain.head last rest).model
        (c₁.map Prod.snd) x.model := by
  obtain ⟨steps, hx⟩ := hx
  induction steps generalizing pre rest with
  | zero =>
    obtain rfl : Chain.head last rest = x := by simpa using hx
    exact ⟨[], rest, rfl, rfl, .here⟩
  | succ steps ih =>
    obtain ⟨y, hy, hx⟩ := Option.bind_eq_some_iff.mp hx
    obtain ⟨accessor, haccessor, hrelated, hfollow⟩ := parent_follow rooted l h hy
    have hdistinct : Chain.Distinct last (pre ++ rest) := hc ▸ h.laid.distinct
    rw [hc] at hfollow
    obtain ⟨d, rest', rfl, hparts, rfl⟩ := Lib.Chain.follow_some hdistinct hfollow
    obtain ⟨c₁, c₂, rfl, rfl, hwalked⟩ := ih (by rw [hc, List.append_assoc]) hx
    refine ⟨d ++ c₁, c₂, by simp, rfl, ?_⟩
    rw [List.map_append, ← hparts]
    exact .step haccessor hrelated hwalked

section Listed

variable (hnames : (site.hierarchy.levels.map Level.name).Nodup) {rank : Nat}
  (hl₀ : site.hierarchy.levels[rank]? = some l₀)
include hnames hl₀

theorem term_viewer {hierarchy : Hierarchy} (hsite : hierarchy = site.hierarchy)
    {paths : Nat → Py (List (List String))} {ps : List (List String)}
    (hps : paths rank = .ok ps) :
    (term hierarchy (some viewPatient.label) paths (viewer rooted l h)).run (world rooted l h) =
      .ok (.below ps) := by
  have hvalid :=
    valid_viewer rooted l h (Hierarchy.level_unique hnames (List.mem_of_getElem? hl₀))
  have hrank : rankOrNone hierarchy (viewer rooted l h) = some rank :=
    hsite ▸ Hierarchy.rank_of_getElem hnames hl₀
  exact run_term_of_rank hvalid (carries_viewer rooted l h) rfl hrank hps

omit hnames hl₀ in
theorem collect_root {hierarchy : Hierarchy} {paths : Nat → Py (List (List String))} :
    (collect (term hierarchy (some viewPatient.label) paths)
      ([rootViewer true l h] ++ [viewer true l h]) .never).run (world true l h) = .ok .always := by
  have hlabels : viewPatient.label ∈ (tables true "" "" "").roleLabels 1 := by decide
  have hroot : (term hierarchy (some viewPatient.label) paths (rootViewer true l h)).run
      (world true l h) = .ok .everything :=
    run_term_everything.mpr ⟨rfl, decide_eq_true hlabels, rfl⟩
  rw [List.singleton_append, run_collect_cons, hroot, ok_bind]

theorem run_nodes {id : String} (h : Plan site.schema l₀ scope last m id names c)
    (husable : site.hierarchy.Usable site.schema rank m id) {k : Nat} {l' : Level}
    (hl : site.hierarchy.levels[k]? = some l') (hm : l'.model = some m) :
    ∃ ps, nodePaths site.hierarchy k rank = .ok ps ∧
      (accessibleNodes nadia l'.name (some 10) (some viewPatient.label)).run (world false l h) =
        .ok ⟨l', ps.foldl (fun q path => q.or (.pk path (some id))) .never⟩ := by
  obtain ⟨ps, hps, hcompile⟩ := husable.paths hl hm
  refine ⟨ps, hps, ?_⟩
  rw [World.run_accessibleNodes_level (w := world false l h) rfl rfl hl hnames hm,
    Option.getD_some, fetch_viewer, ok_bind]
  have hterm : (term (world false l h).hierarchy (some viewPatient.label)
      (nodePaths (world false l h).hierarchy k) (viewer false l h)).run (world false l h) =
        .ok (.below ps) := term_viewer false l h hnames hl₀ rfl hps
  simp only [Bool.false_eq_true, if_false, List.nil_append]
  rw [run_collect_cons, hterm, ok_bind]
  have hall := (Q.compile_foldl hcompile .never).trans (by rfl : Q.never.compile _ _ = .ok ())
  exact congrArg (· >>= fun _ => _) hall

theorem listed (husable : site.hierarchy.Usable site.schema rank m id) {k : Nat}
    (hl : site.hierarchy.levels[k]? = some l) (hlevel : l.model = some m) (hle : rank ≤ k)
    {path : List String} (hup : upPath site.hierarchy k rank = .ok path)
    (hjoined : site.schema.joined m path = some names)
    (hlast : site.schema.toPk last.model id = .ok last.pk) :
    (world false l h).Listed nadia 10 viewPatient.label (Chain.head last c) := by
  have hnode : site.hierarchy.isNodeModel (Chain.head last c).model :=
    site.hierarchy.isNodeModel_iff.mpr ⟨l, List.mem_of_getElem? hl, by rw [h.laid.start, hlevel]⟩
  obtain ⟨q, hq⟩ : ∃ q, (nodeFilterLoop nadia (some 10) (some viewPatient.label)
      (site.hierarchy.levelsForModel (Chain.head last c).model) .never).run
        (world false l h) = .ok q := by
    refine World.nodeFilterLoop_total (fun l' hl' => ?_) .never
    obtain ⟨hmem, hm⟩ := site.hierarchy.mem_levelsForModel.mp hl'
    obtain ⟨k, hk⟩ := List.mem_iff_getElem?.mp hmem
    obtain ⟨ps, -, hrun⟩ := run_nodes l hnames hl₀ h husable hk (by rw [hm, h.laid.start])
    exact ⟨_, hrun⟩
  obtain ⟨ps, hps, hrun⟩ := run_nodes l hnames hl₀ h husable hl hlevel
  obtain rfl := Except.ok.inj ((nodePaths_of_up hle hup).symm.trans hps)
  refine ⟨q, ?_, World.compile_nodeFilterLoop hq rfl, (World.holds_nodeFilterLoop hq).mpr (.inr ?_)⟩
  · rw [run_scopeFilterQ]
    simpa [World.hierarchy, world, hnode, nadia] using hq
  · have hhit : (Q.pk path (some id)).holds (db l h) (Chain.head last c) := by
      refine Q.holds_pk.mpr ⟨last, ?_, hlast⟩
      rw [Database.lookup_joined _ (h.laid.start ▸ hjoined), follow_names]
    have hmem : l ∈ site.hierarchy.levelsForModel (Chain.head last c).model :=
      site.hierarchy.mem_levelsForModel.mpr
        ⟨List.mem_of_getElem? hl, by rw [h.laid.start, hlevel]⟩
    refine ⟨l, hmem, _, hrun, Bool.and_eq_true_iff.mpr ⟨selects_head h hlevel, ?_⟩⟩
    exact (Q.holds_foldl ..).mpr (.inr ⟨path, List.mem_singleton.mpr rfl, hhit⟩)

omit hl₀ in
theorem listed_root (hlevel : l.model = some m) (hl : l ∈ site.hierarchy.levels) :
    (world true l h).Listed nadia 10 viewPatient.label (Chain.head last c) := by
  have hnode : site.hierarchy.isNodeModel (Chain.head last c).model :=
    site.hierarchy.isNodeModel_iff.mpr ⟨l, hl, by rw [h.laid.start, hlevel]⟩
  have hrun {l' : Level} (hl' : l' ∈ site.hierarchy.levelsForModel (Chain.head last c).model) :
      (accessibleNodes nadia l'.name (some 10) (some viewPatient.label)).run (world true l h) =
        .ok ⟨l', .always⟩ := by
    obtain ⟨hmem, hm⟩ := site.hierarchy.mem_levelsForModel.mp hl'
    obtain ⟨k, hk⟩ := List.mem_iff_getElem?.mp hmem
    rw [World.run_accessibleNodes_level (w := world true l h) rfl rfl hk hnames hm,
      Option.getD_some, fetch_viewer, ok_bind]
    simp only [if_true]
    rw [collect_root l h]
    rfl
  obtain ⟨q, hq⟩ : ∃ q, (nodeFilterLoop nadia (some 10) (some viewPatient.label)
      (site.hierarchy.levelsForModel (Chain.head last c).model) .never).run
        (world true l h) = .ok q :=
    World.nodeFilterLoop_total (fun l' hl' => ⟨_, hrun hl'⟩) .never
  have hmem : l ∈ site.hierarchy.levelsForModel (Chain.head last c).model :=
    site.hierarchy.mem_levelsForModel.mpr ⟨hl, by rw [h.laid.start, hlevel]⟩
  refine ⟨q, ?_, World.compile_nodeFilterLoop hq rfl, (World.holds_nodeFilterLoop hq).mpr (.inr ?_)⟩
  · rw [run_scopeFilterQ]
    simpa [World.hierarchy, world, hnode, nadia] using hq
  · exact ⟨l, hmem, _, hrun hmem, Bool.and_eq_true_iff.mpr ⟨selects_head h hlevel, rfl⟩⟩

variable {anchor : Accessor} (hanchor : site.resources.anchorFor m = some anchor)
  (hnode : site.hierarchy.isNodeModel m = false)
include hanchor hnode

theorem listed_anchored (hself : last = scope) (hid : id = scope.pk)
    (hdeepest : ∀ k l', site.hierarchy.levels[k]? = some l' → l'.model = some scope.model → k ≤ rank)
    (hjoined : site.schema.joined m anchor.parts = some names) :
    (world false l h).Listed nadia 10 viewPatient.label (Chain.head last c) := by
  subst hself hid
  have hlookup : site.schema.lookupPath m anchor.parts = some last.model := by
    have hrelated := (db l h).follow_model (follow_names h)
    rw [h.laid.start] at hrelated
    exact (Schema.joined_related hjoined).mpr hrelated
  obtain ⟨targets, htargets⟩ :
      ∃ targets, anchorTargetLevels site.hierarchy site.schema m anchor = .ok targets :=
    ⟨_, by rw [anchorTargetLevels, hlookup]⟩
  obtain ⟨m', hm', hmem⟩ := anchorTargetLevels_ok (w := world false l h) hnames htargets
  obtain rfl : last.model = m' := Option.some.inj (hlookup.symm.trans hm')
  have hup : upPath site.hierarchy rank rank = .ok [] := upPath_self _ _
  obtain ⟨ps, hps⟩ : ∃ ps, anchorPaths site.hierarchy anchor targets rank = .ok ps := by
    refine mapM_total fun target htarget => ?_
    obtain ⟨hmem', hle⟩ := List.mem_filter.mp htarget
    obtain ⟨hget, hmodel⟩ := (hmem target.1 target.2).mp hmem'
    obtain rfl : target.1 = rank :=
      le_antisymm (hdeepest _ _ hget hmodel) (by simpa using hle)
    exact ⟨joinPath anchor [], by simp [hup]⟩
  have hpaths : ∀ path, path ∈ ps ↔ path = anchor.parts := by
    intro path
    rw [mem_anchorPaths hps]
    constructor
    · rintro ⟨k, l', up, htarget, hle, hup', rfl⟩
      obtain ⟨hget, hmodel⟩ := (hmem k l').mp htarget
      obtain rfl : k = rank := le_antisymm (hdeepest _ _ hget hmodel) hle
      obtain rfl := Except.ok.inj (hup.symm.trans hup')
      simp [joinPath]
    · rintro rfl
      exact ⟨rank, l₀, [], (hmem rank l₀).mpr ⟨hl₀, h.scopeLevel⟩, le_rfl, hup, by simp [joinPath]⟩
  have hcompile : ∀ path ∈ ps, (Q.pk path (some last.pk)).compile site.schema m = .ok () := by
    intro path hpath
    rw [(hpaths path).mp hpath, Q.compile, hlookup]
    simp [h.scopePk]
  refine ⟨ps.foldl (fun q path => q.or (.pk path (some last.pk))) .never, ?_, ?_, ?_⟩
  · rw [run_scopeFilterQ, h.laid.start]
    have hglobal := site.resources.isGlobal_of_anchorFor hanchor
    simp only [World.hierarchy, world, nadia, hnode, hglobal, hanchor, htargets]
    simp only [Bool.not_true, Bool.false_eq_true, if_false, ok_bind, Option.getD_some]
    erw [fetch_viewer false l h]
    simp only [Bool.false_eq_true, if_false, List.nil_append, ok_bind]
    erw [run_collect_cons, term_viewer false l h hnames hl₀ rfl hps]
    rfl
  · rw [h.laid.start]
    exact (Q.compile_foldl hcompile .never).trans rfl
  · refine (Q.holds_foldl ..).mpr (.inr ⟨anchor.parts, (hpaths _).mpr rfl, ?_⟩)
    refine Q.holds_pk.mpr ⟨last, ?_, h.scopePk⟩
    rw [Database.lookup_joined _ (h.laid.start ▸ hjoined)]
    exact follow_names h

omit hnames hl₀ in
theorem listed_anchored_root
    (hlookup : (site.schema.lookupPath m anchor.parts).isSome) :
    (world true l h).Listed nadia 10 viewPatient.label (Chain.head last c) := by
  obtain ⟨m', hm'⟩ := Option.isSome_iff_exists.mp hlookup
  obtain ⟨targets, htargets⟩ :
      ∃ targets, anchorTargetLevels site.hierarchy site.schema m anchor = .ok targets :=
    ⟨_, by rw [anchorTargetLevels, hm']⟩
  refine ⟨.always, ?_, rfl, rfl⟩
  rw [run_scopeFilterQ, h.laid.start]
  have hglobal := site.resources.isGlobal_of_anchorFor hanchor
  simp only [World.hierarchy, world, nadia, hnode, hglobal, hanchor, htargets]
  simp only [Bool.not_true, Bool.false_eq_true, if_false, ok_bind, Option.getD_some]
  erw [fetch_viewer true l h]
  simp only [if_true, ok_bind]
  exact collect_root l h

end Listed

theorem walked_of_permits (hlast : site.schema.toPk last.model id = .ok last.pk)
    (hnode : site.hierarchy.isNodeModel m)
    (hpermits : (world false l h).Permits nadia 10 viewPatient.label (Chain.head last c)) :
    site.hierarchy.Walked site.schema m names scope.model ∧ id = scope.pk := by
  obtain ⟨b, hb⟩ := hpermits.answered (owners_viewer false l h)
  obtain ⟨a, ha, -, hreach, -⟩ := (World.hasPerm_iff rfl rfl hb).mp (hpermits.granted b hb)
  obtain rfl : a = viewer false l h :=
    List.mem_singleton.mp ((World.mem_fetchEffective (fetch_viewer false l h)).mpr ha)
  have hanchor : (world false l h).resolveAnchor (.stored (Chain.head last c)) =
      .node (.stored (Chain.head last c)) := by
    rw [World.resolveAnchor, if_pos]
    exact h.laid.start ▸ hnode
  rw [World.anchorOf, hanchor] at hreach
  obtain ⟨x, hx, hsame⟩ := hreach.resolve_left (by simp [viewer])
  obtain ⟨hid, hct⟩ := World.isRow_iff.mp hsame
  have hid : id = x.pk := Option.some.inj hid
  have hmodel : scope.model = x.model :=
    site.schema.contentType_injective (Option.some.inj hct)
  obtain ⟨c₁, c₂, hc, rfl, hwalked⟩ :=
    walked false l h (List.nil_append c).symm (World.ancestor_stored.mp hx)
  cases c₂ with
  | nil =>
    rw [List.append_nil] at hc
    rw [← hc, h.laid.labels, h.laid.start, ← hmodel] at hwalked
    refine ⟨hwalked, ?_⟩
    have hkey := hlast
    rw [show last.model = scope.model from hmodel.symm, h.scopeKey] at hkey
    exact hid.trans (Except.ok.inj hkey).symm
  | cons link c₂ =>
    have hfresh := (h.laid.keys link.1 (by rw [hc]; simp)).1
    exact absurd (by rw [hid]; simp [Chain.head]) hfresh

theorem related_of_permits {anchor : Accessor} (hnode : site.hierarchy.isNodeModel m = false)
    (hanchor : site.resources.anchorFor m = some anchor)
    (hpermits : (world false l h).Permits nadia 10 viewPatient.label (Chain.head last c)) :
    (site.schema.relatedPath m anchor.parts).isSome := by
  obtain ⟨b, hb⟩ := hpermits.answered (owners_viewer false l h)
  obtain ⟨a, ha, -, hreach, -⟩ := (World.hasPerm_iff rfl rfl hb).mp (hpermits.granted b hb)
  obtain rfl : a = viewer false l h :=
    List.mem_singleton.mp ((World.mem_fetchEffective (fetch_viewer false l h)).mpr ha)
  rw [World.anchorOf] at hreach
  generalize hresolved : (world false l h).resolveAnchor (.stored (Chain.head last c)) = resolved
    at hreach
  cases resolved with
  | unregistered => exact hreach.elim
  | denied => cases hreach
  | everywhere =>
    have hm : (Obj.stored (Chain.head last c)).model = m := h.laid.start
    have hglobal := site.resources.isGlobal_of_anchorFor hanchor
    simp only [World.resolveAnchor, hm, World.hierarchy, world, hnode, hglobal, hanchor,
      Bool.false_eq_true, if_false] at hresolved
    split at hresolved <;> cases hresolved
  | node n =>
    rcases World.resolveAnchor_stored hresolved with ⟨hm, -⟩ | ⟨-, -, anchor', hanchor', hn⟩
    · rw [h.laid.start] at hm
      exact absurd (hnode.symm.trans hm) (by simp)
    · rw [h.laid.start] at hanchor'
      obtain rfl : anchor = anchor' := Option.some.inj (hanchor.symm.trans hanchor')
      rcases hn with rfl | ⟨s, hs, -⟩
      · obtain ⟨x, hx, -⟩ := hreach.resolve_left (by simp [viewer])
        exact absurd hx World.not_ancestor_plain
      · have hmodel := (db l h).follow_model hs
        rw [h.laid.start] at hmodel
        exact Option.isSome_iff_exists.mpr ⟨_, hmodel⟩

theorem walks_of_permits (hid : id = scope.pk)
    (hlevel : site.hierarchy.level l₀.name = some l₀)
    (hpermits : (world true l h).Permits nadia 10 viewPatient.label (Chain.head last c)) {n : Attr}
    (hn : (world true l h).resolveAnchor (.stored (Chain.head last c)) = .node n) :
    (world true l h).Walks n ∨ (world true l h).Ancestor n scope := by
  have hanswered := hpermits.answered (owners_viewer true l h)
  have hregistered : (world true l h).anchorOf (some (.stored (Chain.head last c))) ≠
      .unregistered := by
    rw [World.anchorOf, hn]
    simp
  have htells := (World.userPermissions_ok rfl hregistered).mp
    ((World.hasPerm_ok rfl rfl).mp hanswered)
  obtain ⟨-, hmeets⟩ := htells (viewer true l h).row
    (World.mem_fetched.mpr ⟨by simp [world, tables, viewer], rfl, rfl⟩)
  have hload : (world true l h).loadAssignment (viewer true l h).row = some (viewer true l h) := by
    obtain ⟨row, hrow, -, -, hprefetch⟩ := viewer_effective true l h
    obtain ⟨found, hfound, heq⟩ := World.prefetch_row hrow hprefetch
    obtain rfl := Option.some.inj hfound
    rw [heq]
    exact World.loadAssignment_of_prefetch hprefetch
  rcases hmeets _ hload n hn (valid_viewer true l h hlevel) with hroot | hwalk | ⟨x, hx, hsame⟩
  · cases hroot
  · exact .inl hwalk
  · have hscope : (world true l h).sameNode (viewer true l h) scope :=
      World.isRow_iff.mpr ⟨congrArg some hid, rfl⟩
    exact .inr (World.isRow_unique hsame hscope ▸ hx)

end World

end Leak

section Necessity

variable {site : Site} (hchecked : site.hierarchy.Checked site.schema) (hkeyed : site.schema.Keyed)
  {ids : Model → String → Prop} (hleakless : site.Leakless ids)
include hchecked hkeyed hleakless

theorem climbs_of_leakless : site.hierarchy.Faithful site.schema ids := by
  intro rank k l₀ l m₀ m id key path hl₀ hm₀ hl hm hle hid hkey husable hup
  obtain ⟨path', hup', hcompile⟩ := husable k l hl hm hle
  obtain rfl := Except.ok.inj (hup.symm.trans hup')
  obtain ⟨m', key', hpath, hkey'⟩ := Q.compile_pk hcompile
  obtain ⟨names, hnames⟩ := Schema.exists_joined hpath
  obtain ⟨c, hlaid⟩ : ∃ c, site.schema.Laid [id, key, key'] ⟨m', key'⟩ m names c :=
    hkeyed.exists_laid (by simp) ((Schema.joined_related hnames).mp hpath)
  have plan : Leak.Plan site.schema l₀ ⟨m₀, key⟩ ⟨m', key'⟩ m id names c :=
    ⟨hlaid, hm₀, hkey, hkeyed.canonical hkey, hkeyed.canonical hkey'⟩
  have hnode : site.hierarchy.isNodeModel m :=
    site.hierarchy.isNodeModel_iff.mpr ⟨l, List.mem_of_getElem? hl, hm⟩
  obtain ⟨hwalked, hid⟩ := Leak.walked_of_permits l plan hkey' hnode <|
    hleakless _ rfl (Leak.acyclic false l plan) (Leak.scopeIds false l plan hid) _ _ _ _ rfl rfl
      (.inl (hlaid.start ▸ hnode))
      (Leak.listed l plan hchecked.names hl₀ husable hl hm hle hup hnames hkey')
  exact ⟨⟨names, hnames, hwalked⟩, hid⟩

variable (hgrant : ∀ m id, site.schema.strPk m id → ids m id)
include hgrant

omit hchecked hleakless in
theorem exists_plan {l₀ : Level} {m₀ m m' : Model} (hm₀ : l₀.model = some m₀) {path : List String}
    (hpath : site.schema.lookupPath m path = some m') :
    ∃ scope last names c, site.schema.joined m path = some names ∧ scope.model = m₀ ∧
      last.model = m' ∧ ids m₀ scope.pk ∧
      Leak.Plan site.schema l₀ scope last m scope.pk names c := by
  obtain ⟨names, hnames⟩ := Schema.exists_joined hpath
  obtain ⟨key, -, hkey⟩ := hkeyed.fresh m₀ []
  obtain ⟨key', -, hkey'⟩ := hkeyed.fresh m' []
  obtain ⟨c, hlaid⟩ : ∃ c, site.schema.Laid [key, key, key'] ⟨m', key'⟩ m names c :=
    hkeyed.exists_laid (by simp) ((Schema.joined_related hnames).mp hpath)
  exact ⟨⟨m₀, key⟩, ⟨m', key'⟩, names, c, hnames, rfl, rfl, hgrant m₀ key hkey,
    hlaid, hm₀, hkey, hkey, hkey'⟩

theorem parents_of_leakless {m : Model} {accessor : Accessor}
    (haccessor : site.hierarchy.parentAccessorForModel m = some accessor) :
    ¬ site.schema.EndsAtColumn m accessor.parts := by
  intro hends
  obtain ⟨l, hl, hparent⟩ := List.exists_of_findSome?_eq_some haccessor
  obtain ⟨hl, hm⟩ := site.hierarchy.mem_levelsForModel.mp hl
  obtain ⟨hparent, htruthy⟩ := Option.filter_eq_some_iff.mp hparent
  obtain ⟨m', hpath⟩ := Option.isSome_iff_exists.mp (hchecked.climbs hl hm hparent htruthy)
  obtain ⟨scope, last, names, c, hnames, hscope, -, hid, plan⟩ :=
    exists_plan hkeyed hgrant hm hpath
  have hnode : site.hierarchy.isNodeModel m := site.hierarchy.isNodeModel_iff.mpr ⟨l, hl, hm⟩
  have hstart := plan.laid.start
  have hanchor : (Leak.world true l plan).resolveAnchor (.stored (Chain.head last c)) =
      .node (.stored (Chain.head last c)) := by
    rw [World.resolveAnchor, if_pos]
    exact hstart ▸ hnode
  have hpermits := hleakless _ rfl (Leak.acyclic true l plan)
    (Leak.scopeIds true l plan (hscope ▸ hid)) _ _ _ _ rfl rfl (.inl (hstart ▸ hnode))
    (Leak.listed_root l plan hchecked.names hm hl)
  have hplain : (Leak.world true l plan).parentAttr (.stored (Chain.head last c)) = some .plain := by
    have hattr : (Leak.world true l plan).followAttr (.stored (Chain.head last c))
        accessor.parts = some .plain :=
      World.followAttr_plain (hstart ▸ hends) (hstart ▸ hnames) (Leak.follow_names plan)
    have haccessor' : (Leak.world true l plan).hierarchy.parentAccessorForModel
        (Obj.stored (Chain.head last c)).model = some accessor := hstart.symm ▸ haccessor
    change ((Leak.world true l plan).hierarchy.parentAccessorForModel _).bind _ = _
    rw [haccessor']
    exact hattr
  have hparent : (Leak.world true l plan).parent (Chain.head last c) = none := by
    rcases World.parentAttr_stored (w := Leak.world true l plan) (Chain.head last c) with hattr | h
    · rw [hplain] at hattr
      obtain ⟨s, -, hs⟩ := Option.map_eq_some_iff.mp hattr.symm
      cases hs
    · exact h.1
  rcases Leak.walks_of_permits l plan rfl
      (Hierarchy.level_unique hchecked.names hl) hpermits hanchor with hwalks | hancestor
  · exact (World.walks_stored.mp hwalks).2 _ (.refl _) hplain
  · rcases Lib.Walk.reaches_iff.mp (World.ancestor_stored.mp hancestor) with heq | ⟨x, hx, -⟩
    · cases c with
      | nil =>
        obtain rfl : [] = names := plan.laid.labels
        obtain ⟨_, -, hnames⟩ := Option.bind_eq_some_iff.mp hnames
        obtain ⟨_, -, hnames⟩ := Option.bind_eq_some_iff.mp hnames
        obtain ⟨_, -, hnames⟩ := Option.bind_eq_some_iff.mp hnames
        cases hnames
      | cons link c =>
        have hfresh := (plan.laid.keys link.1 (by simp)).1
        exact hfresh (by rw [show link.1 = scope from heq]; simp)
    · simp [hparent] at hx

theorem anchors_of_leakless {m : Model} {anchor : Accessor}
    (hnode : site.hierarchy.isNodeModel m = false)
    (hanchor : site.resources.anchorFor m = some anchor) {m' : Model}
    (hpath : site.schema.lookupPath m anchor.parts = some m')
    (hm' : site.hierarchy.isNodeModel m') : (site.schema.relatedPath m anchor.parts).isSome := by
  obtain ⟨rank, l₀, hl₀, hmodel, hdeepest⟩ := site.hierarchy.exists_deepest hm'
  obtain ⟨names, hnames⟩ := Schema.exists_joined hpath
  obtain ⟨key, -, hkey⟩ := hkeyed.fresh m' []
  obtain ⟨c, hlaid⟩ : ∃ c, site.schema.Laid [key, key, key] ⟨m', key⟩ m names c :=
    hkeyed.exists_laid (by simp) ((Schema.joined_related hnames).mp hpath)
  have plan : Leak.Plan site.schema l₀ ⟨m', key⟩ ⟨m', key⟩ m key names c :=
    ⟨hlaid, hmodel, hkey, hkey, hkey⟩
  refine Leak.related_of_permits l₀ plan hnode hanchor <|
    hleakless _ rfl (Leak.acyclic false l₀ plan) (Leak.scopeIds false l₀ plan (hgrant _ _ hkey))
      _ _ _ _ rfl rfl (.inr ⟨anchor, hlaid.start ▸ hanchor⟩) ?_
  exact Leak.listed_anchored l₀ plan hchecked.names hl₀ hanchor hnode rfl rfl hdeepest hnames

theorem keyless_of_leakless {m : Model} {anchor : Accessor}
    (hnode : site.hierarchy.isNodeModel m = false)
    (hanchor : site.resources.anchorFor m = some anchor)
    (hpath : (site.schema.lookupPath m anchor.parts).isSome) {m₀ : Model}
    (hm₀ : site.hierarchy.isNodeModel m₀) : ¬ site.schema.EndsAtColumn m anchor.parts := by
  intro hends
  obtain ⟨m', hm'⟩ := Option.isSome_iff_exists.mp hpath
  obtain ⟨l, hl, hm⟩ := site.hierarchy.isNodeModel_iff.mp hm₀
  obtain ⟨scope, last, names, c, hnames, hscope, -, hid, plan⟩ :=
    exists_plan hkeyed hgrant hm hm'
  have hstart := plan.laid.start
  have hpermits := hleakless _ rfl (Leak.acyclic true l plan)
    (Leak.scopeIds true l plan (hscope ▸ hid)) _ _ _ _ rfl rfl (.inr ⟨anchor, hstart ▸ hanchor⟩)
    (Leak.listed_anchored_root l plan hanchor hnode hpath)
  have hattr : (Leak.world true l plan).followAttr (.stored (Chain.head last c)) anchor.parts =
      some .plain :=
    World.followAttr_plain (hstart ▸ hends) (hstart ▸ hnames) (Leak.follow_names plan)
  have hresolved : (Leak.world true l plan).resolveAnchor (.stored (Chain.head last c)) =
      .node .plain := by
    have hglobal := site.resources.isGlobal_of_anchorFor hanchor
    have hm : (Obj.stored (Chain.head last c)).model = m := hstart
    simp only [World.resolveAnchor, hm, World.hierarchy, Leak.world, hnode, hglobal, hanchor,
      Bool.false_eq_true, if_false] at hattr ⊢
    rw [hattr]
  rcases Leak.walks_of_permits l plan rfl
      (Hierarchy.level_unique hchecked.names hl) hpermits hresolved with ⟨-, hplain⟩ | hancestor
  · exact hplain (.refl _)
  · exact World.not_ancestor_plain hancestor

theorem faithful_of_leakless (hanchors : ∀ m anchor, site.resources.anchorFor m = some anchor →
    (site.schema.lookupPath m anchor.parts).isSome) : site.Faithful ids where
  climbs := climbs_of_leakless hchecked hkeyed hleakless
  parents _ _ haccessor := parents_of_leakless hchecked hkeyed hleakless hgrant haccessor
  anchors m anchor hnode hanchor :=
    ⟨fun _ hpath hm' => anchors_of_leakless hchecked hkeyed hleakless hgrant hnode hanchor hpath hm',
      fun ⟨_, hm₀⟩ => keyless_of_leakless hchecked hkeyed hleakless hgrant hnode hanchor
        (hanchors m anchor hanchor) hm₀⟩

end Necessity

theorem Hierarchy.walked_self {h : Hierarchy} {sc : Schema} {rank : Nat} {l₀ l : Level}
    {m₀ m : Model} (hl₀ : h.levels[rank]? = some l₀) (hm₀ : l₀.model = some m₀)
    (hl : h.levels[rank]? = some l) (hm : l.model = some m) : h.Walked sc m [] m₀ := by
  obtain rfl : l₀ = l := Option.some.inj (hl₀.symm.trans hl)
  obtain rfl : m₀ = m := Option.some.inj (hm₀.symm.trans hm)
  exact .here

theorem Hierarchy.Regular.walked {h : Hierarchy} {sc : Schema} (hreg : h.Regular sc) {rank k : Nat}
    {l₀ l : Level} {m₀ m : Model} (hl₀ : h.levels[rank]? = some l₀) (hm₀ : l₀.model = some m₀)
    (hl : h.levels[k]? = some l) (hm : l.model = some m) (hle : rank ≤ k) {item : Nat}
    {path : List String} (hup : upPathFrom h rank k item = .ok path) : h.Walked sc m path m₀ := by
  induction k generalizing l m path item with
  | zero =>
    obtain rfl : rank = 0 := by omega
    obtain rfl := Except.ok.inj hup
    exact walked_self hl₀ hm₀ hl hm
  | succ k ih =>
    rw [upPathFrom] at hup
    split at hup
    · obtain rfl : rank = k + 1 := by omega
      obtain rfl := Except.ok.inj hup
      exact walked_self hl₀ hm₀ hl hm
    · obtain ⟨l', m', hl', hm'⟩ := modeled_between hreg.root_first hl₀ hm₀ hl (by omega)
      obtain ⟨accessor, hparent, haccessor, hrelated⟩ := hreg.parents hl' hl hm' hm
      rw [hl, Option.bind_some, hparent] at hup
      obtain ⟨rest, hrest, hup⟩ := bind_eq_ok.mp hup
      obtain rfl := Except.ok.inj hup
      exact .step haccessor hrelated (ih hl' hm' (by omega) hrest)

theorem Hierarchy.Regular.faithful {site : Site} (hreg : site.hierarchy.Regular site.schema)
    (haccessors : World.AccessorsRelate site) (hanchors : World.AnchorsRelate site) :
    site.Faithful site.schema.strPk where
  climbs := fun _ _ _ _ _ _ _ _ _ hl₀ hm₀ hl hm hle hid hkey _ hup =>
    have hwalked := hreg.walked hl₀ hm₀ hl hm hle hup
    ⟨⟨_, Schema.joined_of_related hwalked.related, hwalked⟩, Except.ok.inj (hid.symm.trans hkey)⟩
  parents m accessor h hends := hends.not_related (haccessors m accessor h)
  anchors m anchor _ h :=
    ⟨fun _ _ _ => hanchors m anchor h, fun _ hends => hends.not_related (hanchors m anchor h)⟩

namespace Testapp

theorem keyed : schema.Keyed where
  canonical _ := rfl
  fresh _ taken := by
    obtain ⟨pk, hpk⟩ := Infinite.exists_notMem_finset taken.toFinset
    exact ⟨pk, by simpa using hpk, rfl⟩

end Testapp

namespace Branches

def region : Model := "bank.Region"
def office : Model := "bank.Office"
def branch : Model := "bank.Branch"

def schema : Schema where
  relatedModel m f :=
    if m = branch ∧ f = "office" then some office
    else if m = office ∧ f = "region" then some region
    else none
  contentType m := m
  modelClass ct := some ct
  toPk _ s := .ok s
  modelClass_eq_some := @Schema.modelClass_self

def apps : Apps where
  getModel label := if label = region ∨ label = office ∨ label = branch then some label else none
  appLabel _ := "bank"
  models _ := [region, office, branch]
  autoCreated _ := false
  policy _ _ _ _ _ := false
  getModel_empty := by decide

/-- The accessor stops at the office: `"office"` in place of `"office__region"`. -/
def settings : Settings where
  hierarchy := [
    .entry [(.str "level", .str "REGION"), (.str "model", .str region)],
    .entry [(.str "level", .str "BRANCH"), (.str "model", .str branch),
      (.str "parent", .str "office")]]

def site : Site where
  schema := schema
  hierarchy := ⟨[{ name := "REGION", model := some region },
    { name := "BRANCH", model := some branch, parent := some { first := "office" } }]⟩
  resources := {}

theorem accepted : Accepted apps settings site where
  checked := ⟨[], rfl, noError_nil⟩
  parsed := ⟨_, rfl, rfl⟩

def north : Row := ⟨region, "1"⟩
def south : Row := ⟨region, "2"⟩
def harbour : Row := ⟨office, "1"⟩
def quay : Row := ⟨branch, "1"⟩

def db : Database schema := Database.ofLinks schema [north, south, harbour, quay]
  [((quay, "office"), harbour), ((harbour, "region"), south)] []
  (by decide) (by decide) (by decide)

def world : World where
  site := site
  db := db
  now := 10
  tables := Leak.tables false "REGION" region "1"

theorem acyclic : Acyclic world.parent := by
  refine Lib.Walk.acyclic_of_rank (fun r => if r.model = branch then 0 else 1) fun r s hs => ?_
  obtain ⟨accessor, haccessor, hs⟩ := Option.bind_eq_some_iff.mp hs
  obtain ⟨l, hl, hparent⟩ := List.exists_of_findSome?_eq_some haccessor
  obtain ⟨hl, hm⟩ := site.hierarchy.mem_levelsForModel.mp hl
  have hlevels : ∀ l ∈ site.hierarchy.levels, l.parent = none ∨
      l.model = some branch ∧ l.parent = some { first := "office" } := by decide
  obtain hnone | ⟨hbranch, hoffice⟩ := hlevels l hl
  · simp [hnone] at hparent
  · have hr : r.model = branch := Option.some.inj (hm.symm.trans hbranch)
    rw [hoffice] at hparent
    obtain rfl := Option.some.inj (Option.filter_eq_some_iff.mp hparent).1
    have hmodel := db.follow_model hs
    rw [hr] at hmodel
    have hs : s.model = office := (Option.some.inj hmodel).symm
    rw [if_pos hr, if_neg (by rw [hs]; decide)]
    exact Nat.one_pos

end Branches

end ScopedAccess
