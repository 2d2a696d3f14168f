import ScopedAccess.Engine.DecisionLaws

namespace ScopedAccess

open Lib.Walk (Reaches nth)
open Lib.Loop

variable {w : World}

section Query

variable {sc : Schema} {db : Database sc} {r : Row}

theorem Q.holds_pk {path : List String} {id : String} :
    (Q.pk path (some id)).holds db r ↔
      ∃ s, db.lookup r path = some s ∧ sc.toPk s.model id = .ok s.pk := by
  cases h : db.lookup r path <;> simp [holds, h]

theorem Q.holds_foldl (paths : List (List String)) (id : Option String) (q : Q) :
    (paths.foldl (fun q path => q.or (.pk path id)) q).holds db r ↔
      q.holds db r ∨ ∃ path ∈ paths, (Q.pk path id).holds db r := by
  induction paths generalizing q with
  | nil => simp
  | cons path paths ih => simp [ih, holds, or_assoc]

theorem Q.compile_foldl {m : Model} {paths : List (List String)} {id : Option String}
    (h : ∀ path ∈ paths, (Q.pk path id).compile sc m = .ok ()) (q : Q) :
    (paths.foldl (fun q path => q.or (.pk path id)) q).compile sc m = q.compile sc m := by
  induction paths generalizing q with
  | nil => rfl
  | cons path paths ih =>
    rw [List.foldl_cons, ih fun path hp => h path (List.mem_cons_of_mem _ hp), compile,
      h path List.mem_cons_self]
    cases q.compile sc m <;> rfl

def Term.holds (db : Database sc) (id : Option String) (r : Row) : Term → Prop
  | .nothing => False
  | .everything => True
  | .below paths => ∃ path ∈ paths, (Q.pk path id).holds db r

end Query

section Collect

variable {f : Assignment → Read Term} {as : List Assignment} {q q' : Q}

theorem run_collect_cons (a : Assignment) :
    (collect f (a :: as) q).run w = (f a).run w >>= fun
      | .nothing => (collect f as q).run w
      | .everything => .ok .always
      | .below paths =>
        (collect f as (paths.foldl (fun q path => q.or (.pk path a.row.scopeId)) q)).run w := by
  rw [collect, Read.run_bind]
  congr 1
  funext t
  cases t <;> rfl

theorem run_collect_congr {v : World} (h : ∀ a ∈ as, (f a).run w = (f a).run v) (q : Q) :
    (collect f as q).run w = (collect f as q).run v := by
  induction as generalizing q with
  | nil => rfl
  | cons a as ih =>
    rw [run_collect_cons, run_collect_cons, h a List.mem_cons_self]
    congr 1
    funext t
    cases t <;> simp [ih fun a ha => h a (List.mem_cons_of_mem _ ha)]

theorem holds_collect {r : Row} (h : (collect f as q).run w = .ok q') :
    q'.holds w.db r ↔ q.holds w.db r ∨
      ∃ a ∈ as, ∃ t, (f a).run w = .ok t ∧ t.holds w.db a.row.scopeId r := by
  induction as generalizing q with
  | nil =>
    obtain rfl : q = q' := by simpa [collect] using h
    simp
  | cons a as ih =>
    rw [run_collect_cons] at h
    obtain ⟨t, ht, h⟩ := bind_eq_ok.mp h
    cases t with
    | nothing => simp [ih h, ht, Term.holds]
    | everything =>
      obtain rfl : Q.always = q' := by simpa using h
      simp [Q.holds, ht, Term.holds]
    | below paths => simp [ih h, ht, Term.holds, Q.holds_foldl, or_assoc]

theorem collect_ok : (∃ q', (collect f as q).run w = .ok q') ↔
    Until (fun a => (f a).run w = .ok .everything) (fun a => ∃ t, (f a).run w = .ok t) as := by
  induction as generalizing q with
  | nil => exact iff_of_true ⟨q, rfl⟩ trivial
  | cons a as ih =>
    rw [run_collect_cons, Until]
    cases ht : (f a).run w with
    | error e => simp
    | ok t => cases t <;> simp [ih]

theorem compile_collect {sc : Schema} {m : Model} (h : (collect f as q).run w = .ok q')
    (hq : q.compile sc m = .ok ())
    (hpaths : ∀ a ∈ as, ∀ paths, (f a).run w = .ok (.below paths) →
      ∀ path ∈ paths, (Q.pk path a.row.scopeId).compile sc m = .ok ()) :
    q'.compile sc m = .ok () := by
  induction as generalizing q with
  | nil =>
    obtain rfl : q = q' := by simpa [collect] using h
    exact hq
  | cons a as ih =>
    rw [run_collect_cons] at h
    obtain ⟨t, ht, h⟩ := bind_eq_ok.mp h
    have ih {q : Q} (h : (collect f as q).run w = .ok q') (hq : q.compile sc m = .ok ()) :=
      ih h hq fun a ha => hpaths a (List.mem_cons_of_mem _ ha)
    cases t with
    | nothing => exact ih h hq
    | everything =>
      obtain rfl : Q.always = q' := by simpa using h
      rfl
    | below paths =>
      exact ih h (by rw [Q.compile_foldl (hpaths a List.mem_cons_self paths ht), hq])

theorem collect_filter {keep : Assignment → Bool}
    (h : ∀ a ∈ as, keep a = false → (f a).run w = .ok .nothing) (q : Q) :
    (collect f (as.filter keep) q).run w = (collect f as q).run w := by
  induction as generalizing q with
  | nil => rfl
  | cons a as ih =>
    have ih := ih fun a ha => h a (List.mem_cons_of_mem _ ha)
    cases hk : keep a with
    | true =>
      rw [List.filter_cons_of_pos hk, run_collect_cons, run_collect_cons]
      congr 1
      funext t
      cases t <;> simp [ih]
    | false =>
      rw [List.filter_cons_of_neg (by simp [hk]), ih, run_collect_cons,
        h a List.mem_cons_self hk]
      rfl

def Q.SameOn (sc : Schema) (m : Model) (db : Database sc) (on : Row → Prop) (q q' : Q) : Prop :=
  q.compile sc m = q'.compile sc m ∧ ∀ r, on r → q.holds db r = q'.holds db r

theorem Q.SameOn.foldl {sc : Schema} {m : Model} {db : Database sc} {on : Row → Prop}
    (hq : Q.SameOn sc m db on q q') (paths : List (List String)) (id : Option String) :
    Q.SameOn sc m db on (paths.foldl (fun q path => q.or (.pk path id)) q)
      (paths.foldl (fun q path => q.or (.pk path id)) q') := by
  induction paths generalizing q q' with
  | nil => exact hq
  | cons path paths ih =>
    refine ih ⟨?_, fun r hr => ?_⟩
    · simp only [compile, hq.1]
    · simp only [holds, hq.2 r hr]

theorem Q.SameOn.drop {sc : Schema} {m : Model} {db : Database sc} {on : Row → Prop}
    (hq : Q.SameOn sc m db on q q') {paths : List (List String)} {id : Option String}
    (hcompile : ∀ path ∈ paths, (Q.pk path id).compile sc m = .ok ())
    (hholds : ∀ r, on r → ∀ path ∈ paths, ¬ (Q.pk path id).holds db r) :
    Q.SameOn sc m db on (paths.foldl (fun q path => q.or (.pk path id)) q) q' := by
  refine ⟨(compile_foldl hcompile q).trans hq.1, fun r hr => ?_⟩
  rw [← hq.2 r hr, Bool.eq_iff_iff, holds_foldl]
  simp only [or_iff_left_iff_imp, forall_exists_index, and_imp]
  exact fun path hp h => absurd h (hholds r hr path hp)

theorem collect_drop {m : Model} {on : Row → Prop} {keep : Assignment → Bool}
    (hdrop : ∀ a ∈ as, keep a = false → (f a).run w = .ok .nothing ∨
      ∃ paths, (f a).run w = .ok (.below paths) ∧
        (∀ path ∈ paths, (Q.pk path a.row.scopeId).compile w.site.schema m = .ok ()) ∧
        ∀ r, on r → ∀ path ∈ paths, ¬ (Q.pk path a.row.scopeId).holds w.db r)
    (hq : Q.SameOn w.site.schema m w.db on q q') :
    Both (Q.SameOn w.site.schema m w.db on) ((collect f as q).run w)
      ((collect f (as.filter keep) q').run w) := by
  induction as generalizing q q' with
  | nil => exact hq
  | cons a as ih =>
    have ih {q q' : Q} (hq : Q.SameOn w.site.schema m w.db on q q') :=
      ih (fun a ha => hdrop a (List.mem_cons_of_mem _ ha)) hq
    cases hk : keep a with
    | true =>
      rw [List.filter_cons_of_pos hk, run_collect_cons, run_collect_cons]
      refine (Both.refl (R := Eq) (fun _ => rfl) _).bind fun t t' ht => ?_
      subst ht
      cases t with
      | nothing => exact ih hq
      | everything => exact ⟨rfl, fun _ _ => rfl⟩
      | below paths => exact ih (hq.foldl paths _)
    | false =>
      rw [List.filter_cons_of_neg (by simp [hk]), run_collect_cons]
      rcases hdrop a List.mem_cons_self hk with ht | ⟨paths, ht, hcompile, hholds⟩
      · rw [ht, ok_bind]
        exact ih hq
      · rw [ht, ok_bind]
        exact ih (hq.drop hcompile hholds)

end Collect

section Term

variable {permission : Option String} {paths : Nat → Py (List (List String))} {a : Assignment}

theorem run_term (h : Hierarchy) :
    (term h permission paths a).run w = w.assignmentIsValid a >>= fun valid =>
      if !valid || !carries permission a then .ok .nothing
      else if a.row.isRootScope then .ok .everything
      else match rankOrNone h a with
        | none => .ok .nothing
        | some rank => paths rank >>= fun ps => .ok (.below ps) := by
  simp only [term, Read.run_bind, Read.run_isValid, Read.run_ite]
  congr 1
  funext valid
  cases valid with
  | false => rfl
  | true =>
    cases carries permission a with
    | false => rfl
    | true =>
      cases a.row.isRootScope with
      | true => rfl
      | false =>
        cases rankOrNone h a with
        | none => rfl
        | some rank => cases hp : paths rank <;> simp [hp]

theorem run_term_everything {h : Hierarchy} : (term h permission paths a).run w = .ok .everything ↔
    w.Valid a ∧ carries permission a ∧ a.row.isRootScope := by
  rw [run_term, World.Valid]
  cases w.assignmentIsValid a with
  | error e => simp
  | ok valid =>
    cases valid with
    | false => simp
    | true =>
      cases carries permission a with
      | false => simp
      | true =>
        cases a.row.isRootScope with
        | true => simp
        | false =>
          cases rankOrNone h a with
          | none => simp
          | some rank => cases hp : paths rank <;> simp [hp]

theorem run_term_of_not {h : Hierarchy} (hvalid : ∃ b, w.assignmentIsValid a = .ok b)
    (hnot : ¬ (w.Valid a ∧ carries permission a)) :
    (term h permission paths a).run w = .ok .nothing := by
  obtain ⟨valid, hvalid⟩ := hvalid
  rw [run_term, hvalid, ok_bind]
  cases valid with
  | false => rfl
  | true =>
    have hcarries : carries permission a = false := by simpa [World.Valid, hvalid] using hnot
    simp [hcarries]

theorem run_term_of_rank {h : Hierarchy} (hvalid : w.Valid a) (hcarries : carries permission a)
    (hroot : a.row.isRootScope = false) {rank : Nat} (hrank : rankOrNone h a = some rank)
    {ps : List (List String)} (hps : paths rank = .ok ps) :
    (term h permission paths a).run w = .ok (.below ps) := by
  rw [run_term, hvalid, ok_bind]
  simp [hcarries, hroot, hrank, hps]

theorem term_holds {h : Hierarchy} {r : Row} :
    (∃ t, (term h permission paths a).run w = .ok t ∧ t.holds w.db a.row.scopeId r) ↔
      w.Valid a ∧ carries permission a ∧ (a.row.isRootScope ∨
        a.row.isRootScope = false ∧ ∃ rank ps, rankOrNone h a = some rank ∧
          paths rank = .ok ps ∧ ∃ path ∈ ps, (Q.pk path a.row.scopeId).holds w.db r) := by
  simp only [run_term, bind_eq_ok, World.Valid]
  constructor
  · rintro ⟨t, ⟨valid, hvalid, ht⟩, hholds⟩
    cases valid with
    | false =>
      obtain rfl : Term.nothing = t := by simpa using ht
      exact hholds.elim
    | true =>
      refine ⟨hvalid, ?_⟩
      cases hcarries : carries permission a with
      | false =>
        obtain rfl : Term.nothing = t := by simpa [hcarries] using ht
        exact hholds.elim
      | true =>
        refine ⟨rfl, ?_⟩
        cases hroot : a.row.isRootScope with
        | true => exact .inl rfl
        | false =>
          cases hrank : rankOrNone h a with
          | none =>
            obtain rfl : Term.nothing = t := by simpa [hcarries, hroot, hrank] using ht
            exact hholds.elim
          | some rank =>
            simp only [hcarries, hroot, hrank, Bool.not_true, Bool.false_or, Bool.false_eq_true,
              if_false] at ht
            obtain ⟨ps, hps, ht⟩ := bind_eq_ok.mp ht
            obtain rfl : Term.below ps = t := by simpa using ht
            exact .inr ⟨rfl, rank, ps, rfl, hps, hholds⟩
  · rintro ⟨hvalid, hcarries, hroot | ⟨hroot, rank, ps, hrank, hps, hholds⟩⟩
    · exact ⟨.everything, ⟨true, hvalid, by simp [hcarries, hroot]⟩, trivial⟩
    · exact ⟨.below ps, ⟨true, hvalid, by simp [hcarries, hroot, hrank, hps]⟩, hholds⟩

theorem term_below {h : Hierarchy} {ps : List (List String)}
    (ht : (term h permission paths a).run w = .ok (.below ps)) :
    w.Valid a ∧ a.row.isRootScope = false ∧
      ∃ rank, rankOrNone h a = some rank ∧ paths rank = .ok ps := by
  rw [run_term] at ht
  obtain ⟨valid, hvalid, ht⟩ := bind_eq_ok.mp ht
  cases valid with
  | false => simp at ht
  | true =>
    refine ⟨hvalid, ?_⟩
    cases hcarries : carries permission a with
    | false => simp [hcarries] at ht
    | true =>
      cases hroot : a.row.isRootScope with
      | true => simp [hcarries, hroot] at ht
      | false =>
        cases hrank : rankOrNone h a with
        | none => simp [hcarries, hroot, hrank] at ht
        | some rank =>
          simp only [hcarries, hroot, hrank, Bool.not_true, Bool.false_or, Bool.false_eq_true,
            if_false] at ht
          obtain ⟨ps', hps, ht⟩ := bind_eq_ok.mp ht
          obtain rfl : ps' = ps := by simpa using ht
          exact ⟨rfl, rank, rfl, hps⟩

theorem term_total {h : Hierarchy} (hvalid : ∃ b, w.assignmentIsValid a = .ok b)
    (hpaths : w.Valid a → a.row.isRootScope = false → ∀ rank, rankOrNone h a = some rank →
      ∃ ps, paths rank = .ok ps) :
    ∃ t, (term h permission paths a).run w = .ok t := by
  obtain ⟨valid, hvalid⟩ := hvalid
  rw [run_term, hvalid, ok_bind]
  cases valid with
  | false => exact ⟨.nothing, rfl⟩
  | true =>
    cases carries permission a with
    | false => exact ⟨.nothing, rfl⟩
    | true =>
      cases hroot : a.row.isRootScope with
      | true => exact ⟨.everything, rfl⟩
      | false =>
        cases hrank : rankOrNone h a with
        | none => exact ⟨.nothing, rfl⟩
        | some rank =>
          obtain ⟨ps, hps⟩ := hpaths hvalid hroot rank hrank
          exact ⟨.below ps, by simp [hps]⟩

end Term

theorem run_accessibleNodes (u : User) (name : String) (at_ : Option Time)
    (permission : Option String) :
    (accessibleNodes u name at_ permission).run w =
      match w.hierarchy.level name, w.hierarchy.rank name with
      | some level, some target =>
        match level.model with
        | none => throwing .attributeError "'NoneType' object has no attribute '_default_manager'"
        | some m =>
          if !u.isActive then .ok ⟨level, .never⟩
          else if u.isSuperuser then .ok ⟨level, .always⟩
          else w.fetchEffective u (at_.getD w.now) >>= fun as =>
            (collect (term w.hierarchy permission (nodePaths w.hierarchy target)) as
              .never).run w >>= fun q =>
            q.compile w.site.schema m >>= fun _ => .ok ⟨level, q⟩
      | _, _ => throwing .keyError name := by
  simp only [accessibleNodes, Read.run_bind, Read.run_ask, ok_bind]
  cases w.hierarchy.level name with
  | none => rfl
  | some level =>
    cases w.hierarchy.rank name with
    | none => rfl
    | some target =>
      dsimp only
      cases level.model with
      | none => simp
      | some m =>
        simp only [Read.run_ite, Read.run_bind, Read.run_effectiveAssignments, Read.run_ask,
          Read.run_liftPy, ok_bind]
        rfl

theorem run_scopeFilterQ (u : User) (m : Model) (at_ : Option Time)
    (permission : Option String) :
    (scopeFilterQ u m at_ permission).run w =
      if !u.isActive then .ok .never
      else if w.hierarchy.isNodeModel m then
        (nodeFilterLoop u at_ permission (w.hierarchy.levelsForModel m) .never).run w
      else if u.isSuperuser then .ok .always
      else if w.site.resources.isGlobal m then (catalogueQ u at_ permission).run w
      else match w.site.resources.anchorFor m with
        | none =>
          if w.site.strictRegistration then .ok .never
          else (catalogueQ u at_ permission).run w
        | some anchor =>
          anchorTargetLevels w.hierarchy w.site.schema m anchor >>= fun targets =>
          w.fetchEffective u (at_.getD w.now) >>= fun as =>
          (collect (term w.hierarchy permission (anchorPaths w.hierarchy anchor targets)) as
            .never).run w := by
  simp only [scopeFilterQ, hierarchyNodeFilterQ, Read.run_bind, Read.run_ite, Read.run_ask,
    ok_bind]
  split
  · rfl
  · by_cases hempty : (w.hierarchy.levelsForModel m).isEmpty
    · have hnode : w.hierarchy.isNodeModel m = false := by simpa [Hierarchy.isNodeModel] using hempty
      rw [if_pos hempty, hnode]
      simp only [Bool.false_eq_true, if_false, Read.run_pure, ok_bind,
        Read.run_ite, Read.run_bind, Read.run_ask]
      split
      · rfl
      · split
        · rfl
        · cases w.site.resources.anchorFor m with
          | none => simp
          | some anchor => simp
    · have hnode : w.hierarchy.isNodeModel m := by simpa [Hierarchy.isNodeModel] using hempty
      rw [if_neg hempty, if_pos hnode]
      cases hrun : (nodeFilterLoop u at_ permission (w.hierarchy.levelsForModel m) .never).run w <;>
        simp

end ScopedAccess
