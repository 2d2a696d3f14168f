import ScopedAccess.Engine.Climb
import ScopedAccess.Engine.Agreement

namespace ScopedAccess

open Lib.Walk (Reaches Ends nth)
open Lib.Loop

/-- Each level has a model of its own, or all share one. -/
structure Hierarchy.Documented (h : Hierarchy) (sc : Schema) : Prop extends h.Regular sc where
  models :
    (∀ l ∈ h.levels, ∀ l' ∈ h.levels, ∀ m, l.model = some m → l'.model = some m → l = l') ∨
      ∃ m, ∀ l ∈ h.levels, ∀ m', l.model = some m' → m' = m

namespace World

variable {w : World}

def NodeAt (w : World) (k : Nat) (r : Row) : Prop :=
  ∃ l, w.hierarchy.levels[k]? = some l ∧ l.selects w.db r

/-- Nodes have one level, and their parents are nodes further up. -/
structure Forest (w : World) : Prop where
  level : ∀ {j k : Nat} {r : Row}, w.NodeAt j r → w.NodeAt k r → j = k
  parent : ∀ {k : Nat} {r : Row} {x : Attr}, w.NodeAt k r → w.parentAttr (.stored r) = some x →
    ∃ j < k, ∃ s, x = .stored s ∧ w.NodeAt j s

theorem NodeAt.isNodeModel {k : Nat} {r : Row} (h : w.NodeAt k r) :
    w.hierarchy.isNodeModel r.model := by
  obtain ⟨l, hl, hsel⟩ := h
  exact w.hierarchy.isNodeModel_iff.mpr ⟨l, List.mem_of_getElem? hl, Level.selects_model hsel⟩

theorem Forest.parent_row (hf : w.Forest) {k : Nat} {r s : Row} (hr : w.NodeAt k r)
    (hs : w.parent r = some s) : ∃ j < k, w.NodeAt j s := by
  obtain ⟨j, hj, s', heq, hs'⟩ := hf.parent hr (parentAttr_of_parent hs)
  obtain rfl := Attr.stored_injective heq
  exact ⟨j, hj, hs'⟩

theorem Forest.nth (hf : w.Forest) {k n : Nat} {r s : Row} (hr : w.NodeAt k r)
    (h : Lib.Walk.nth w.parent n r = some s) : ∃ j, w.NodeAt j s ∧ j + n ≤ k := by
  induction n generalizing k r with
  | zero =>
    obtain rfl : r = s := by simpa using h
    exact ⟨k, hr, le_rfl⟩
  | succ n ih =>
    obtain ⟨t, ht, h⟩ := Option.bind_eq_some_iff.mp h
    obtain ⟨k', hk', ht⟩ := hf.parent_row hr ht
    obtain ⟨j, hj, hle⟩ := ih ht h
    exact ⟨j, hj, by omega⟩

theorem Forest.ends (hf : w.Forest) {k : Nat} {r : Row} (hr : w.NodeAt k r) :
    Ends w.parent r := by
  refine ⟨k + 1, ?_⟩
  by_contra hne
  obtain ⟨s, hs⟩ := Option.ne_none_iff_exists'.mp hne
  obtain ⟨j, -, hle⟩ := hf.nth hr hs
  omega

theorem Forest.walks (hf : w.Forest) {k : Nat} {r : Row} (hr : w.NodeAt k r) :
    w.Walks (.stored r) := by
  refine walks_stored.mpr ⟨hf.ends hr, ?_⟩
  rintro s ⟨n, hs⟩ hplain
  obtain ⟨j, hj, -⟩ := hf.nth hr hs
  obtain ⟨_, _, s', heq, _⟩ := hf.parent hj hplain
  cases heq

theorem Forest.nodesEnd (hf : w.Forest) : w.NodesEnd := by
  intro l hl r hsel
  obtain ⟨k, hk⟩ := List.mem_iff_getElem?.mp hl
  exact hf.walks ⟨l, hk, hsel⟩

theorem AccessorsRelate.forest (hrel : AccessorsRelate w.site)
    (hlevel : ∀ {j k : Nat} {r : Row}, w.NodeAt j r → w.NodeAt k r → j = k)
    (hparent : ∀ {k : Nat} {r s : Row}, w.NodeAt k r → w.parent r = some s →
      ∃ j < k, w.NodeAt j s) : w.Forest where
  level := hlevel
  parent {k r x} hr hx := by
    rcases parentAttr_stored (w := w) r with h | ⟨-, h⟩
    · obtain ⟨s, hs, rfl⟩ := Option.map_eq_some_iff.mp (h.symm.trans hx)
      obtain ⟨j, hj, hs⟩ := hparent hr hs
      exact ⟨j, hj, s, rfl, hs⟩
    · exact absurd h (parentAttr_ne_plain hrel _)

end World

section Documented

variable {w : World} (hdoc : w.hierarchy.Documented w.site.schema) (hf : w.Forest)
include hdoc hf

theorem Hierarchy.Documented.parent_own
    (hown : ∀ l ∈ w.hierarchy.levels, ∀ l' ∈ w.hierarchy.levels, ∀ m, l.model = some m →
      l'.model = some m → l = l') {k : Nat} {r s : Row} (hr : w.NodeAt k r)
    (hs : w.parent r = some s) : ∃ j, w.NodeAt j s ∧ j + 1 = k := by
  obtain ⟨j, hjk, l', hl', hsel'⟩ := hf.parent_row hr hs
  obtain ⟨l, hl, hsel⟩ := hr
  obtain ⟨k, rfl⟩ : ∃ k', k = k' + 1 := ⟨k - 1, by omega⟩
  obtain ⟨lk, mk, hlk, hmk⟩ := Hierarchy.modeled_between hdoc.root_first hl'
    (Level.selects_model hsel') hl (by omega)
  obtain ⟨accessor, -, haccessor, hrelated⟩ :=
    hdoc.parents hlk hl hmk (Level.selects_model hsel)
  have hsmodel : s.model = mk := by
    have hfollow : w.db.follow r accessor.parts = some s := by
      rw [← hs, World.parent, haccessor]
      rfl
    simpa [hrelated, eq_comm] using w.db.follow_model hfollow
  have hsame : l' = lk := hown l' (List.mem_of_getElem? hl') lk (List.mem_of_getElem? hlk) mk
    (hsmodel ▸ Level.selects_model hsel') hmk
  refine ⟨k, ⟨lk, hlk, hsame ▸ hsel'⟩, rfl⟩

theorem Hierarchy.Documented.hops {n k j : Nat} {r s : Row} (hr : w.NodeAt k r)
    (h : nth w.parent n r = some s) (hs : w.NodeAt j s) :
    ∃ l, w.hierarchy.levels[j + n]? = some l ∧ l.model = some r.model := by
  obtain ⟨j', hj', hle⟩ := hf.nth hr h
  obtain rfl := hf.level hs hj'
  rcases hdoc.models with hown | ⟨m, hshared⟩
  · have hexact : j + n = k := by
      clear hle hj'
      induction n generalizing k r with
      | zero =>
        obtain rfl : r = s := by simpa using h
        exact hf.level hs hr
      | succ n ih =>
        obtain ⟨t, ht, h⟩ := Option.bind_eq_some_iff.mp h
        obtain ⟨k', hk', rfl⟩ := hdoc.parent_own hf hown hr ht
        have := ih hk' h
        omega
    obtain ⟨l, hl, hsel⟩ := hr
    exact ⟨l, hexact ▸ hl, Level.selects_model hsel⟩
  · obtain ⟨l, hl, hsel⟩ := hr
    have hlt : j + n < w.hierarchy.levels.length := by
      have := (List.getElem?_eq_some_iff.mp hl).1
      omega
    refine ⟨_, List.getElem?_eq_getElem hlt, ?_⟩
    have hget := List.getElem?_eq_getElem hlt
    have hrm := hshared l (List.mem_of_getElem? hl) _ (Level.selects_model hsel)
    cases hm : (w.hierarchy.levels[j + n]).model with
    | some m' => rw [hrm, hshared _ (List.mem_of_getElem? hget) m' hm]
    | none =>
      have hzero := hdoc.root_first hget hm
      obtain ⟨ls, hls, hsels⟩ := hs
      have hj : j = 0 := by omega
      have hn : n = 0 := by omega
      subst hj hn
      obtain rfl : w.hierarchy.levels[0 + 0] = ls := by simpa [hget] using hls
      simp [Level.selects_model hsels] at hm

end Documented

namespace World

variable {w : World} {u : User} {t : Time}

theorem Effective.scopeNode {a : Assignment} (ha : w.Effective u.pk t a) (hvalid : w.Valid a)
    (hroot : a.row.isRootScope = false) : ∃ s rank l, a.scope = .ok (some s) ∧
      w.db.generic a.row.scopeCt a.row.scopeId = .ok (some s) ∧
      rankOrNone w.hierarchy a = some rank ∧ w.hierarchy.levels[rank]? = some l ∧
      l.selects w.db s := by
  obtain ⟨s, hs, hshape⟩ := hvalid.node hroot
  have hscope : a.scope = .ok (some s) := orNone_some hs
  obtain ⟨rank, l, hrank, hl, hsel⟩ := hshape.rank
  exact ⟨s, rank, l, hscope, ha.generic hscope, hrank, hl, hsel⟩

/-- The rows settle, up to a root assignment with the permission, at which a filter stops. -/
def Filters (w : World) (u : User) (t : Time) (permission : Option String) : Prop :=
  w.Answers u t .everywhere fun a => w.Valid a ∧ carries permission a ∧ a.row.isRootScope

theorem Filters.of_settles {permission : Option String} (h : ∀ y ∈ w.fetched u t, w.Settles y) :
    w.Filters u t permission :=
  ⟨fun y hy => (h y hy).reads, .of_forall fun y hy => tells_everywhere.mpr (h y hy)⟩

theorem fetch_collect_ok {permission : Option String} {paths : Nat → Py (List (List String))}
    (hpaths : ∀ a, w.Effective u.pk t a → w.Valid a → a.row.isRootScope = false → ∀ rank,
      rankOrNone w.hierarchy a = some rank → ∃ ps, paths rank = .ok ps) :
    (∃ q, (w.fetchEffective u t >>= fun as =>
        (collect (term w.hierarchy permission paths) as .never).run w) = .ok q) ↔
      w.Filters u t permission := by
  rw [Filters, answers_iff]
  simp only [bind_eq_ok]
  rw [exists_comm]
  refine exists_congr fun as => ?_
  rw [exists_and_left]
  refine and_congr_right fun has => collect_ok.trans ?_
  refine until_congr (fun a _ => run_term_everything) fun a ha => ?_
  rw [validReach_ok, and_iff_left (meets_everywhere a)]
  constructor
  · rintro ⟨τ, hτ⟩
    rw [run_term] at hτ
    obtain ⟨valid, hvalid, -⟩ := bind_eq_ok.mp hτ
    exact ⟨valid, hvalid⟩
  · exact fun hvalid => term_total hvalid (hpaths a ((mem_fetchEffective has).mp ha))

/-- What both the filter and the decision are to admit. -/
def Admits (w : World) (u : User) (t : Time) (permission : Option String) (r : Row) : Prop :=
  permission = none ∧ w.resolveAnchor (.stored r) = .everywhere ∨
    ∃ a, w.Effective u.pk t a ∧ w.Valid a ∧ carries permission a ∧ w.Below a (.stored r)

section Decision

variable (hst : w.StoredAsPk) (hactive : u.isActive) (hsuper : u.isSuperuser = false) {r : Row}
  {b : Bool}
include hst hactive hsuper

theorem hasPerm_admits {p : String}
    (h : (hasPerm u p (some (.stored r)) (some t)).run w = .ok b) :
    b = true ↔ w.Admits u t (some p) r := by
  rw [hasPerm_iff hactive hsuper h, Admits]
  simp only [reduceCtorEq, false_and, false_or]
  refine exists_congr fun a => and_congr_right fun ha => and_congr_right fun hvalid => ?_
  rw [← hst.reach_iff ha.stands hvalid, and_comm]
  simp [carries, anchorOf]

theorem userCovers_admits (h : (userCovers u (.stored r) (some t)).run w = .ok b) :
    b = true ↔ w.Admits u t none r := by
  rw [userCovers_iff hactive hsuper h, Admits]
  simp only [true_and]
  refine or_congr_right (exists_congr fun a => ?_)
  refine and_congr_right fun ha => and_congr_right fun hvalid => ?_
  rw [← hst.reach_iff ha.stands hvalid]
  simp [carries]

end Decision

theorem below_anchored {r : Row} {path : Accessor} (hm : w.hierarchy.isNodeModel r.model = false)
    (hpath : w.site.resources.anchorFor r.model = some path)
    (hrelated : (w.site.schema.relatedPath r.model path.parts).isSome) (a : Assignment) :
    w.Below a (.stored r) ↔ a.row.isRootScope ∨ ∃ n s, w.db.follow r path.parts = some n ∧
      a.scope = .ok (some s) ∧ Reaches w.parent n s := by
  rw [Below, resolveAnchor_anchored hm hpath hrelated]
  cases w.db.follow r path.parts with
  | none => simp
  | some n => simp [ancestor_stored]

section Filter

variable (hdoc : w.hierarchy.Documented w.site.schema)
include hdoc

theorem anchor_term (hf : w.Forest) {r : Row} {anchor : Accessor} {m' : Model}
    {targets : List (Nat × Level)}
    (hm' : w.site.schema.relatedPath r.model anchor.parts = some m')
    (htargets : ∀ k l, (k, l) ∈ targets ↔ w.hierarchy.levels[k]? = some l ∧ l.model = some m')
    (hnode : ∀ n, w.db.follow r anchor.parts = some n → ∃ k, w.NodeAt k n)
    {permission : Option String} {a : Assignment} (ha : w.Effective u.pk t a) :
    (∃ τ, (term w.hierarchy permission (anchorPaths w.hierarchy anchor targets) a).run w =
        .ok τ ∧ τ.holds w.db a.row.scopeId r) ↔
      w.Valid a ∧ carries permission a ∧ (a.row.isRootScope ∨ ∃ n s,
        w.db.follow r anchor.parts = some n ∧ a.scope = .ok (some s) ∧
          Reaches w.parent n s) := by
  rw [term_holds]
  refine and_congr_right fun hvalid => and_congr_right fun _ => ?_
  cases hroot : a.row.isRootScope with
  | true => simp
  | false =>
    obtain ⟨s, rank, l, hscope, hs, hrank, hl, hsel⟩ := ha.scopeNode hvalid hroot
    obtain ⟨ps, hps, hclimbs, hall⟩ :=
      hdoc.anchorPaths anchor htargets hl (Level.selects_model hsel)
    have hholds {up : List String} {steps : Nat} (hup : Climbs w m' s.model steps up) :
        (Q.pk (anchor.parts ++ up) a.row.scopeId).holds w.db r ↔
          ∃ n, w.db.follow r anchor.parts = some n ∧ nth w.parent steps n = some s := by
      rw [pk_holds_scope hs (by rw [Schema.relatedPath_append, hm']; exact hup.related),
        Database.follow_append, Option.bind_eq_some_iff]
      refine exists_congr fun n => and_congr_right fun hn => ?_
      have hmodel : n.model = m' := by simpa [hm', eq_comm] using w.db.follow_model hn
      rw [hup.follow n hmodel]
    simp only [Bool.false_eq_true, false_or, true_and]
    constructor
    · rintro ⟨rank', ps', hrank', hps', path, hp, hpath⟩
      obtain rfl : rank = rank' := Option.some.inj (hrank.symm.trans hrank')
      obtain rfl : ps = ps' := Except.ok.inj (hps.symm.trans hps')
      obtain ⟨steps, up, rfl, hup⟩ := hclimbs path hp
      obtain ⟨n, hn, hsteps⟩ := (hholds hup).mp hpath
      exact ⟨n, s, hn, hscope, steps, hsteps⟩
    · rintro ⟨n, s', hn, hscope', steps, hsteps⟩
      obtain rfl : s = s' := by simpa [hscope] using hscope'
      obtain ⟨k, hk⟩ := hnode n hn
      obtain ⟨l', hl', hmodel⟩ := hdoc.hops hf hk hsteps ⟨l, hl, hsel⟩
      have hnm : n.model = m' := by simpa [hm', eq_comm] using w.db.follow_model hn
      obtain ⟨up, hp, hup⟩ := hall _ l' hl' (hnm ▸ hmodel) (Nat.le_add_right _ _)
      rw [Nat.add_sub_cancel_left] at hup
      exact ⟨rank, ps, hrank, hps, _, hp, (hholds hup).mpr ⟨n, hn, hsteps⟩⟩

theorem anchor_compile {r : Row} {anchor : Accessor} {m' : Model} {targets : List (Nat × Level)}
    (hm' : w.site.schema.relatedPath r.model anchor.parts = some m')
    (htargets : ∀ k l, (k, l) ∈ targets ↔ w.hierarchy.levels[k]? = some l ∧ l.model = some m')
    {permission : Option String} {a : Assignment} (ha : w.Effective u.pk t a)
    {ps : List (List String)}
    (hps : (term w.hierarchy permission (anchorPaths w.hierarchy anchor targets) a).run w =
      .ok (.below ps)) :
    ∀ path ∈ ps, (Q.pk path a.row.scopeId).compile w.site.schema r.model = .ok () := by
  obtain ⟨hvalid, hroot, rank, hrank, hpaths⟩ := term_below hps
  obtain ⟨s, rank', l, -, hs, hrank', hl, hsel⟩ := ha.scopeNode hvalid hroot
  obtain rfl : rank = rank' := Option.some.inj (hrank.symm.trans hrank')
  obtain ⟨ps', hps', hclimbs, -⟩ :=
    hdoc.anchorPaths anchor htargets hl (Level.selects_model hsel)
  obtain rfl : ps = ps' := Except.ok.inj (hpaths.symm.trans hps')
  intro path hp
  obtain ⟨steps, up, rfl, hup⟩ := hclimbs path hp
  refine pk_compile_scope hs ?_
  rw [Schema.relatedPath_append, hm']
  exact hup.related

omit hdoc in
theorem catalogueQ_admits (hactive : u.isActive) {r : Row}
    (hr : w.resolveAnchor (.stored r) = .everywhere) {permission : Option String} {q : Q}
    (h : (catalogueQ u (some t) permission).run w = .ok q) :
    q.compile w.site.schema r.model = .ok () ∧ (q.holds w.db r ↔ w.Admits u t permission r) := by
  cases permission with
  | none =>
    obtain rfl : Q.always = q := by simpa [catalogueQ] using h
    exact ⟨rfl, by simp [Q.holds, Admits, hr]⟩
  | some p =>
    simp only [catalogueQ, Read.run_bind] at h
    obtain ⟨P, hP, h⟩ := bind_eq_ok.mp h
    have hmem : p ∈ P ↔ w.Admits u t (some p) r := by
      rw [mem_userPermissions hP hactive, Admits]
      simp only [reduceCtorEq, false_and, false_or]
      refine exists_congr fun a => and_congr_right fun _ => and_congr_right fun _ => ?_
      simp [anchorOf, Reach, Below, hr, carries]
    rw [← hmem]
    by_cases hp : p ∈ P
    · obtain rfl : Q.always = q := by simpa [hp] using h
      exact ⟨rfl, by simp [Q.holds, hp]⟩
    · obtain rfl : Q.never = q := by simpa [hp] using h
      exact ⟨rfl, by simp [Q.holds, hp]⟩

variable (hf : w.Forest) (hactive : u.isActive) (hsuper : u.isSuperuser = false) {r : Row}
  (hm : w.hierarchy.isNodeModel r.model = false) {permission : Option String}
  (hsingle : ∀ path, w.site.resources.anchorFor r.model = some path →
    (w.site.schema.relatedPath r.model path.parts).isSome)
include hf hactive hsuper hm hsingle

theorem scopeFilterQ_admits (hnode : ∀ path n, w.site.resources.anchorFor r.model = some path →
      w.db.follow r path.parts = some n → ∃ k, w.NodeAt k n) {q : Q}
    (h : (scopeFilterQ u r.model (some t) permission).run w = .ok q) :
    q.compile w.site.schema r.model = .ok () ∧ (q.holds w.db r ↔ w.Admits u t permission r) := by
  rw [run_scopeFilterQ, hactive, hm, hsuper] at h
  simp only [Bool.not_true, Bool.false_eq_true, if_false] at h
  cases hglobal : w.site.resources.isGlobal r.model with
  | true =>
    rw [if_pos hglobal] at h
    refine catalogueQ_admits hactive ?_ h
    simp [resolveAnchor, Obj.stored, Obj.model, hm, hglobal]
  | false =>
    rw [if_neg (by simp [hglobal])] at h
    cases hpath : w.site.resources.anchorFor r.model with
    | none =>
      cases hstrict : w.site.strictRegistration with
      | true =>
        obtain rfl : Q.never = q := by simpa [hpath, hstrict] using h
        have hr : w.resolveAnchor (.stored r) = .unregistered := by
          simp [resolveAnchor, Obj.stored, Obj.model, hm, hglobal, hpath, hstrict]
        exact ⟨rfl, by simp [Q.holds, Admits, Below, hr]⟩
      | false =>
        refine catalogueQ_admits hactive ?_ (by simpa [hpath, hstrict] using h)
        simp [resolveAnchor, Obj.stored, Obj.model, hm, hglobal, hpath, hstrict]
    | some path =>
      simp only [hpath] at h
      obtain ⟨targets, htargets, h⟩ := bind_eq_ok.mp h
      obtain ⟨as, has, hcollect⟩ := bind_eq_ok.mp h
      obtain ⟨m', hm', hmem⟩ := anchorTargetLevels_ok hdoc.names htargets
      obtain ⟨m'', hrelated⟩ := Option.isSome_iff_exists.mp (hsingle path hpath)
      obtain rfl : m'' = m' := Option.some.inj ((Schema.lookupPath_related hrelated).symm.trans hm')
      refine ⟨compile_collect hcollect rfl fun a ha ps hps =>
        anchor_compile hdoc hrelated hmem ((mem_fetchEffective has).mp ha) hps, ?_⟩
      rw [holds_collect hcollect, Admits]
      have hnever : w.resolveAnchor (.stored r) ≠ .everywhere := by
        rw [resolveAnchor_anchored hm hpath (hsingle path hpath)]
        split <;> simp
      simp only [Q.holds, Bool.false_eq_true, false_or, hnever, and_false]
      refine exists_congr fun a => ?_
      rw [mem_fetchEffective has, Option.getD_some]
      refine and_congr_right fun ha => ?_
      rw [anchor_term hdoc hf hrelated hmem (fun n => hnode path n hpath) ha,
        below_anchored hm hpath (hsingle path hpath)]

omit hdoc hf in
theorem scopeFilterQ_run : (scopeFilterQ u r.model (some t) permission).run w =
    match w.resolveAnchor (.stored r) with
    | .everywhere => (catalogueQ u (some t) permission).run w
    | .unregistered => .ok .never
    | _ => match w.site.resources.anchorFor r.model with
      | none => .ok .never
      | some anchor =>
        anchorTargetLevels w.hierarchy w.site.schema r.model anchor >>= fun targets =>
        w.fetchEffective u t >>= fun as =>
        (collect (term w.hierarchy permission (anchorPaths w.hierarchy anchor targets)) as
          .never).run w := by
  rw [run_scopeFilterQ, hactive, hm, hsuper]
  simp only [Bool.not_true, Bool.false_eq_true, if_false, Option.getD_some]
  cases hglobal : w.site.resources.isGlobal r.model with
  | true => simp [resolveAnchor, Obj.stored, Obj.model, hm, hglobal]
  | false =>
    cases hpath : w.site.resources.anchorFor r.model with
    | none =>
      cases hstrict : w.site.strictRegistration <;>
        simp [resolveAnchor, Obj.stored, Obj.model, hm, hglobal, hpath, hstrict]
    | some path =>
      rw [resolveAnchor_anchored hm hpath (hsingle path hpath)]
      cases w.db.follow r path.parts <;> simp

omit hf in
theorem scopeFilterQ_ok (hglobal : w.resolveAnchor (.stored r) ≠ .everywhere)
    (hregistered : w.resolveAnchor (.stored r) ≠ .unregistered) :
    (∃ q, (scopeFilterQ u r.model (some t) permission).run w = .ok q) ↔
      w.Filters u t permission := by
  obtain ⟨path, hpath⟩ : ∃ path, w.site.resources.anchorFor r.model = some path := by
    cases hpath : w.site.resources.anchorFor r.model with
    | some path => exact ⟨path, rfl⟩
    | none =>
      cases hg : w.site.resources.isGlobal r.model <;>
        cases hstrict : w.site.strictRegistration <;>
          simp [resolveAnchor, Obj.stored, Obj.model, hm, hg, hpath, hstrict] at hglobal hregistered
  obtain ⟨m', hrelated⟩ := Option.isSome_iff_exists.mp (hsingle path hpath)
  obtain ⟨targets, htargets⟩ : ∃ targets,
      anchorTargetLevels w.hierarchy w.site.schema r.model path = .ok targets := by
    rw [anchorTargetLevels, Schema.lookupPath_related hrelated]
    exact ⟨_, rfl⟩
  obtain ⟨_, -, hmem⟩ := anchorTargetLevels_ok hdoc.names htargets
  have hrun : (scopeFilterQ u r.model (some t) permission).run w =
      w.fetchEffective u t >>= fun as =>
        (collect (term w.hierarchy permission (anchorPaths w.hierarchy path targets)) as
          .never).run w := by
    rw [scopeFilterQ_run hactive hsuper hm hsingle, hpath]
    dsimp only
    rw [htargets, ok_bind]
    cases hanchor : w.resolveAnchor (.stored r) with
    | everywhere => exact absurd hanchor hglobal
    | unregistered => exact absurd hanchor hregistered
    | denied | node n => rfl
  rw [hrun]
  refine fetch_collect_ok fun a ha hvalid hroot rank hrank => ?_
  obtain ⟨s, rank', l, -, -, hrank', hl, hsel⟩ := ha.scopeNode hvalid hroot
  obtain rfl : rank = rank' := Option.some.inj (hrank.symm.trans hrank')
  obtain ⟨ps, hps, -⟩ := hdoc.anchorPaths path hmem hl (Level.selects_model hsel)
  exact ⟨ps, hps⟩

end Filter

def Agree (w : World) (r : Row) (q : Py Q) (b : Py Bool) : Prop :=
  ∃ q' b', q = .ok q' ∧ b = .ok b' ∧ q'.compile w.site.schema r.model = .ok () ∧
    q'.holds w.db r = b'

section Agree

variable (hdoc : w.hierarchy.Documented w.site.schema) (hf : w.Forest) (hst : w.StoredAsPk)
  (hactive : u.isActive) (hsuper : u.isSuperuser = false) {r : Row}
  (hm : w.hierarchy.isNodeModel r.model = false)
  (hsingle : ∀ path, w.site.resources.anchorFor r.model = some path →
    (w.site.schema.relatedPath r.model path.parts).isSome)
  (hnode : ∀ path n, w.site.resources.anchorFor r.model = some path →
    w.db.follow r path.parts = some n → ∃ k, w.NodeAt k n)
include hf hm hsingle hnode

theorem anchor_walks {n : Attr} (hn : w.resolveAnchor (.stored r) = .node n) : w.Walks n := by
  obtain ⟨hnode', -⟩ | ⟨-, -, path, hpath, hplain | ⟨s, hs, rfl⟩⟩ := resolveAnchor_stored hn
  · simp [hm] at hnode'
  · exact absurd (hplain ▸ hn) (resolveAnchor_ne_plain hsingle)
  · obtain ⟨k, hk⟩ := hnode path s hpath hs
    exact hf.walks hk

theorem anchor_tells {y : AssignmentRow} (hset : w.Settles y) :
    w.Tells (w.resolveAnchor (.stored r)) y :=
  ⟨hset, fun _ _ _ hn _ => .inr (.inl (anchor_walks hf hm hsingle hnode hn))⟩

include hdoc hst hactive hsuper

omit hst in
theorem agree_iff {permission : Option String} {b : Py Bool}
    (hb : ∀ b', b = .ok b' → (b' = true ↔ w.Admits u t permission r)) :
    w.Agree r ((scopeFilterQ u r.model (some t) permission).run w) b ↔
      (∃ q, (scopeFilterQ u r.model (some t) permission).run w = .ok q) ∧ ∃ b', b = .ok b' := by
  constructor
  · rintro ⟨q, b', hq, hb', -⟩
    exact ⟨⟨q, hq⟩, b', hb'⟩
  · rintro ⟨⟨q, hq⟩, b', hb'⟩
    obtain ⟨hcompile, hholds⟩ := scopeFilterQ_admits hdoc hf hactive hsuper hm hsingle hnode hq
    refine ⟨q, b', hq, hb', hcompile, ?_⟩
    rw [Bool.eq_iff_iff, hholds, hb b' hb']

theorem permission_agrees (p : String) :
    w.Agree r ((scopeFilterQ u r.model (some t) (some p)).run w)
        ((hasPerm u p (some (.stored r)) (some t)).run w) ↔
      w.resolveAnchor (.stored r) = .unregistered ∨ ∀ y ∈ w.fetched u t, w.Settles y := by
  have hperms : (∃ b, (hasPerm u p (some (.stored r)) (some t)).run w = .ok b) ↔
      w.resolveAnchor (.stored r) = .unregistered ∨ ∀ y ∈ w.fetched u t, w.Settles y := by
    rw [hasPerm_ok hactive hsuper]
    by_cases hun : w.resolveAnchor (.stored r) = .unregistered
    · exact iff_of_true ⟨∅, by simp [run_userPermissions, anchorOf, hun]⟩ (.inl hun)
    · rw [or_iff_right hun]
      refine Iff.trans (userPermissions_ok hactive hun) ?_
      exact forall₂_congr fun y _ => ⟨And.left, anchor_tells hf hm hsingle hnode⟩
  rw [agree_iff hdoc hf hactive hsuper hm hsingle hnode fun b hb =>
    hasPerm_admits hst hactive hsuper hb, hperms]
  refine and_iff_right_of_imp fun hset => ?_
  cases hanchor : w.resolveAnchor (.stored r) with
  | unregistered => exact ⟨.never, by rw [scopeFilterQ_run hactive hsuper hm hsingle, hanchor]⟩
  | everywhere =>
    have hset : ∀ y ∈ w.fetched u t, w.Settles y := hset.resolve_left (by simp [hanchor])
    obtain ⟨P, hP⟩ : ∃ P, (userPermissions u none (some t)).run w = .ok P :=
      (userPermissions_ok hactive (by simp [anchorOf])).mpr fun y hy =>
        tells_everywhere.mpr (hset y hy)
    rw [scopeFilterQ_run hactive hsuper hm hsingle, hanchor]
    exact ⟨if p ∈ P then .always else .never, by simp [catalogueQ, hP]⟩
  | denied | node n =>
    have hset : ∀ y ∈ w.fetched u t, w.Settles y := hset.resolve_left (by simp [hanchor])
    refine (scopeFilterQ_ok hdoc hactive hsuper hm hsingle (by simp [hanchor])
      (by simp [hanchor])).mpr (.of_settles hset)

theorem scope_agrees :
    w.Agree r ((scopeFilterQ u r.model (some t) none).run w)
        ((userCovers u (.stored r) (some t)).run w) ↔
      w.resolveAnchor (.stored r) = .everywhere ∨ w.resolveAnchor (.stored r) = .unregistered ∨
        w.Filters u t none := by
  rw [agree_iff hdoc hf hactive hsuper hm hsingle hnode fun b hb =>
    userCovers_admits hst hactive hsuper hb]
  cases hanchor : w.resolveAnchor (.stored r) with
  | unregistered =>
    refine iff_of_true ⟨⟨.never, ?_⟩, false, ?_⟩ (.inr (.inl rfl))
    · rw [scopeFilterQ_run hactive hsuper hm hsingle, hanchor]
    · simp [run_userCovers, hactive, hsuper, hanchor]
  | everywhere =>
    refine iff_of_true ⟨⟨.always, ?_⟩, true, ?_⟩ (.inl rfl)
    · rw [scopeFilterQ_run hactive hsuper hm hsingle, hanchor]
      rfl
    · simp [run_userCovers, hactive, hanchor]
  | denied | node n =>
    have hglobal : w.resolveAnchor (.stored r) ≠ .everywhere := by simp [hanchor]
    have hregistered : w.resolveAnchor (.stored r) ≠ .unregistered := by simp [hanchor]
    rw [scopeFilterQ_ok hdoc hactive hsuper hm hsingle hglobal hregistered,
      userCovers_ok hactive hsuper hglobal hregistered]
    simp only [reduceCtorEq, false_or]
    refine and_iff_left_of_imp fun ⟨hreads, huntil⟩ => ⟨hreads, huntil.mono ?_ ?_⟩
    · rintro y - ⟨a, ha, hvalid, -, hroot⟩
      exact ⟨a, ha, hvalid, by simp [Reach, hanchor, hroot]⟩
    · exact fun y _ htells => anchor_tells hf hm hsingle hnode htells.1

/-- A list view shows exactly the resources an object check lets through, where the
principal's rows settle. -/
theorem filter_agrees_iff :
    (∀ p, w.Agree r ((scopeFilterQ u r.model (some t) (some p)).run w)
        ((hasPerm u p (some (.stored r)) (some t)).run w) ↔
      w.resolveAnchor (.stored r) = .unregistered ∨ ∀ y ∈ w.fetched u t, w.Settles y) ∧
    (w.Agree r ((scopeFilterQ u r.model (some t) none).run w)
        ((userCovers u (.stored r) (some t)).run w) ↔
      w.resolveAnchor (.stored r) = .everywhere ∨ w.resolveAnchor (.stored r) = .unregistered ∨
        w.Filters u t none) :=
  ⟨permission_agrees hdoc hf hst hactive hsuper hm hsingle hnode,
    scope_agrees hdoc hf hst hactive hsuper hm hsingle hnode⟩

end Agree

end World

namespace Helpdesk

theorem documented : hierarchy.Documented schema where
  toRegular := regular
  models := .inl (by decide)

theorem nodeAt {k : Nat} {r : Row} (h : seeded.NodeAt k r) :
    k = 0 ∧ r.model = organization ∨ k = 1 ∧ r.model = team := by
  obtain ⟨l, hl, hsel⟩ := h
  have hmodel := Level.selects_model hsel
  match k with
  | 0 =>
    cases hl
    exact .inl ⟨rfl, (Option.some.inj hmodel).symm⟩
  | 1 =>
    cases hl
    exact .inr ⟨rfl, (Option.some.inj hmodel).symm⟩
  | _ + 2 => cases hl

theorem forest : seeded.Forest := by
  refine (grounded db 10 tables).relations.forest (fun {j k r} hj hk => ?_)
    fun {k r s} hr hs => ?_
  · obtain ⟨rfl, hm⟩ | ⟨rfl, hm⟩ := nodeAt hj <;> obtain ⟨rfl, hm'⟩ | ⟨rfl, hm'⟩ := nodeAt hk
    · rfl
    · exact absurd (hm.symm.trans hm') (by decide)
    · exact absurd (hm.symm.trans hm') (by decide)
    · rfl
  · obtain ⟨hteam, horg⟩ := parent_models hs
    obtain ⟨rfl, hm⟩ | ⟨rfl, -⟩ := nodeAt hr
    · exact absurd (hm.symm.trans hteam) (by decide)
    · have hmem : s ∈ db.rows := seeded.parent_within r s hs
      have hshown : db.shown s = true := rfl
      exact ⟨0, Nat.one_pos, _, rfl, by simp [Level.selects, horg, hmem, hshown, world]⟩

theorem alice_tickets : seeded.Agree loginButton
    ((scopeFilterQ alice ticket (some 10) (some "helpdesk.view_ticket")).run seeded)
    ((hasPerm alice "helpdesk.view_ticket" (some (.stored loginButton)) (some 10)).run seeded) := by
  refine ((World.filter_agrees_iff (w := seeded) (u := alice) (t := 10) (r := loginButton)
    documented forest stored rfl rfl (by decide) (fun path h => by cases h; decide)
    fun path n hpath hn => ?_).1 _).mpr (.inr fun y hy => ?_)
  · cases hpath
    obtain rfl : frontend = n := by simpa using (show some frontend = some n from hn)
    exact ⟨1, _, rfl, by decide⟩
  · exact readable.settles forest.nodesEnd (World.mem_fetched.mp hy).1

end Helpdesk

namespace Depot

theorem level_first {k : Nat} {l : Level} (h : hierarchy.levels[k]? = some l) :
    k = 0 ∧ l.model = some wing := by
  match k with
  | 0 => cases h; exact ⟨rfl, rfl⟩
  | _ + 1 => cases h

theorem documented : hierarchy.Documented schema where
  names := by decide
  root_first hl _ := (level_first hl).1
  parents _ hl' _ _ := absurd (level_first hl').1 (Nat.succ_ne_zero _)
  models := .inl (by decide)

theorem nodeAt {k : Nat} {r : Row} (h : kept.NodeAt k r) : k = 0 := by
  obtain ⟨l, hl, -⟩ := h
  exact (level_first hl).1

theorem forest : kept.Forest where
  level hj hk := (nodeAt hj).trans (nodeAt hk).symm
  parent hr hx := by rw [parentAttr_none] at hx; cases hx

theorem pallet_listed : hierarchy.Documented schema ∧ kept.Forest ∧ kept.StoredAsPk ∧
    ida.isActive ∧ ida.isSuperuser = false ∧
    (scopeFilterQ ida crate (some 10) (some "depot.view_crate")).run kept = .ok .always ∧
    ((hasPerm ida "depot.view_crate" (some (.stored pallet)) (some 10)).run kept).isOk = false :=
  ⟨documented, forest, stored, rfl, rfl, rfl, by decide⟩

end Depot

end ScopedAccess
