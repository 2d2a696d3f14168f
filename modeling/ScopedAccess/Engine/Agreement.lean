import ScopedAccess.Engine.Settling

namespace ScopedAccess

open Lib.Walk (Reaches)
open Lib.Loop

namespace World

variable {w : World}

theorem StoredAsPk.sameNode_iff (hst : w.StoredAsPk) {a : Assignment} {s r : Row}
    (ha : w.Stands a) (hs : a.scope = .ok (some s)) :
    w.sameNode a r ↔ r = s := by
  have hself : w.sameNode a s := generic_isRow (ha.generic hs) (hst a.row ha.row_mem)
  constructor
  · exact fun h => isRow_unique h hself
  · rintro rfl
    exact hself

def validOnes (w : World) (as : List Assignment) : List Assignment :=
  as.filter fun a => w.assignmentIsValid a = .ok true

theorem summaryEntry_total {a : Assignment} (hs : ∃ s, a.scope = .ok s) :
    ∃ e, summaryEntry a = .ok e := by
  obtain ⟨scope, hscope⟩ := hs
  rw [summaryEntry, hscope]
  split <;> exact ⟨_, rfl⟩

theorem summarize_total {as : List Assignment} (hs : ∀ a ∈ as, ∃ s, a.scope = .ok s)
    (hvalid : ∀ a ∈ as, ∃ b, w.assignmentIsValid a = .ok b) (perms : Finset String)
    (entries : List SummaryEntry) : ∃ S, (summarize as perms entries).run w = .ok S := by
  induction as generalizing perms entries with
  | nil => exact ⟨_, rfl⟩
  | cons a as ih =>
    obtain ⟨valid, hv⟩ := hvalid a List.mem_cons_self
    obtain ⟨e, he⟩ := summaryEntry_total (hs a List.mem_cons_self)
    have ih := ih (fun a ha => hs a (List.mem_cons_of_mem _ ha))
      (fun a ha => hvalid a (List.mem_cons_of_mem _ ha))
    cases valid with
    | false => simpa [summarize, hv] using ih perms entries
    | true => simpa [summarize, hv, he] using ih (perms ∪ rolePerms a.role) (entries ++ [e])

theorem run_summarize {as : List Assignment} {perms : Finset String}
    {entries : List SummaryEntry} {S : Summary} (h : (summarize as perms entries).run w = .ok S) :
    ∃ P es, gather (w.contribution .everywhere) as perms = .ok P ∧
      List.Forall₂ (fun a e => summaryEntry a = .ok e) (w.validOnes as) es ∧
      S = ⟨sorted P, entries ++ es⟩ := by
  induction as generalizing perms entries with
  | nil =>
    obtain rfl : ⟨sorted perms, entries⟩ = S := by simpa [summarize] using h
    exact ⟨perms, [], rfl, .nil, by simp⟩
  | cons a as ih =>
    simp only [summarize, Read.run_bind, Read.run_isValid] at h
    obtain ⟨valid, hvalid, h⟩ := bind_eq_ok.mp h
    cases valid with
    | false =>
      obtain ⟨P, es, hP, hes, rfl⟩ := ih h
      have hnone : w.contribution .everywhere a = .ok ∅ := by simp [contribution, hvalid]
      refine ⟨P, es, ?_, by simpa [validOnes, hvalid] using hes, rfl⟩
      rw [gather_cons_ok hnone, Finset.union_empty, hP]
    | true =>
      simp only [Bool.not_true, Bool.false_eq_true, if_false, Read.run_bind,
        Read.run_liftPy] at h
      obtain ⟨e, he, h⟩ := bind_eq_ok.mp h
      obtain ⟨P, es, hP, hes, rfl⟩ := ih h
      have hall : w.contribution .everywhere a = .ok (rolePerms a.role) := by
        simp [contribution, hvalid, reach]
      refine ⟨P, e :: es, by rw [gather_cons_ok hall, hP], ?_, by simp⟩
      simpa [validOnes, hvalid] using ⟨he, hes⟩

/-- The rule in words: everywhere for a root scope, else below the scope node. -/
def Below (w : World) (a : Assignment) (o : Obj) : Prop :=
  match w.resolveAnchor o with
  | .unregistered => False
  | .everywhere => True
  | .denied => a.row.isRootScope
  | .node n => a.row.isRootScope ∨ ∃ s, a.scope = .ok (some s) ∧ w.Ancestor n s

theorem StoredAsPk.reach_iff (hst : w.StoredAsPk) {a : Assignment} (ha : w.Stands a)
    (hvalid : w.Valid a) (o : Obj) :
    w.Reach (w.resolveAnchor o) a ↔ w.Below a o := by
  unfold Reach Below
  cases w.resolveAnchor o with
  | everywhere => rfl
  | denied => rfl
  | unregistered => rfl
  | node n =>
    cases hroot : a.row.isRootScope with
    | true => simp
    | false =>
      obtain ⟨s, hs, -⟩ := hvalid.node hroot
      have hscope := orNone_some hs
      simp [hst.sameNode_iff ha hscope, hscope]

def CoversIfAny (w : World) (a : Assignment) (o : Option Obj) : Prop :=
  ∀ x ∈ o, (covers a x).run w = .ok true

theorem coversIfAny_iff {a : Assignment} (hvalid : w.Valid a) (o : Option Obj) :
    w.CoversIfAny a o ↔ w.Reach (w.anchorOf o) a := by
  cases o with
  | none => simp [CoversIfAny, anchorOf, Reach]
  | some x => simp [CoversIfAny, anchorOf, run_covers, validReach_true, hvalid]

structure Lists (a : Assignment) (e : SummaryEntry) : Prop where
  role : e.role = a.role
  level : e.level = a.row.level
  scope : if a.row.scopeId.all (· = "") then e.scope = none else a.scope = .ok e.scope
  status : e.status = a.row.status
  validUntil : e.validUntil = a.row.validUntil
  permissions : e.permissions = sorted (rolePerms a.role)

theorem lists_of_summaryEntry {a : Assignment} {e : SummaryEntry} (h : summaryEntry a = .ok e) :
    Lists a e := by
  unfold summaryEntry at h
  by_cases hid : a.row.scopeId.all (· = "")
  · rw [if_pos hid, ok_bind, pure_eq_ok] at h
    subst h
    exact ⟨rfl, rfl, by rw [if_pos hid], rfl, rfl, rfl⟩
  · rw [if_neg hid] at h
    obtain ⟨scope, hscope, h⟩ := bind_eq_ok.mp h
    obtain rfl := pure_eq_ok.mp h
    exact ⟨rfl, rfl, by rw [if_neg hid, hscope], rfl, rfl, rfl⟩

/-- One effective valid assignment has the permission and covers the object. -/
def Carried (w : World) (u : User) (t : Time) (p : String) (o : Option Obj) : Prop :=
  ∃ a, w.Effective u.pk t a ∧ w.Valid a ∧ p ∈ rolePerms a.role ∧ w.CoversIfAny a o

section Ordinary

variable {u : User} (hactive : u.isActive) (t : Time)
include hactive

theorem mem_userPermissions_carried {o : Option Obj} {P : Finset String}
    (hP : (userPermissions u o (some t)).run w = .ok P) (p : String) :
    p ∈ P ↔ w.Carried u t p o := by
  rw [mem_userPermissions hP hactive]
  refine exists_congr fun a => and_congr_right fun _ => and_congr_right fun hvalid => ?_
  rw [coversIfAny_iff hvalid, and_comm]

theorem userPermissions_agrees (o : Option Obj) :
    (∃ P, (userPermissions u o (some t)).run w = .ok P ∧ ∀ p, p ∈ P ↔ w.Carried u t p o) ↔
      w.anchorOf o = .unregistered ∨ ∀ y ∈ w.fetched u t, w.Tells (w.anchorOf o) y := by
  have hmem {P : Finset String} (hP : (userPermissions u o (some t)).run w = .ok P) :=
    mem_userPermissions_carried hactive t hP
  by_cases hun : w.anchorOf o = .unregistered
  · have hrun : (userPermissions u o (some t)).run w = .ok ∅ := by
      rw [run_userPermissions, hun]
      simp
    exact iff_of_true ⟨∅, hrun, hmem hrun⟩ (.inl hun)
  · rw [or_iff_right hun]
    have hok : (∃ P, (userPermissions u o (some t)).run w = .ok P) ↔
        ∀ y ∈ w.fetched u t, w.Tells (w.anchorOf o) y := userPermissions_ok hactive hun
    rw [← hok]
    constructor
    · exact fun ⟨P, hP, _⟩ => ⟨P, hP⟩
    · exact fun ⟨P, hP⟩ => ⟨P, hP, hmem hP⟩

variable (hsuper : u.isSuperuser = false)
include hsuper

theorem hasPerm_agrees (p : String) (o : Option Obj) :
    (∃ b, (hasPerm u p o (some t)).run w = .ok b ∧ (b = true ↔ w.Carried u t p o)) ↔
      w.anchorOf o = .unregistered ∨ ∀ y ∈ w.fetched u t, w.Tells (w.anchorOf o) y := by
  rw [← userPermissions_agrees hactive t o, run_hasPerm, hactive, hsuper]
  simp only [Bool.not_true, Bool.false_eq_true, if_false, bind_eq_ok]
  constructor
  · rintro ⟨b, ⟨P, hP, -⟩, -⟩
    exact ⟨P, hP, mem_userPermissions_carried hactive t hP⟩
  · rintro ⟨P, hP, hmem⟩
    exact ⟨_, ⟨P, hP, rfl⟩, by rw [decide_eq_true_iff, hmem]⟩

theorem userCovers_agrees (o : Obj) :
    (∃ b, (userCovers u o (some t)).run w = .ok b ∧ (b = true ↔
        w.resolveAnchor o = .everywhere ∨
          ∃ a, w.Effective u.pk t a ∧ (covers a o).run w = .ok true)) ↔
      w.resolveAnchor o = .everywhere ∨ w.resolveAnchor o = .unregistered ∨
        w.Answers u t (w.resolveAnchor o) fun a => w.Valid a ∧ w.Reach (w.resolveAnchor o) a := by
  have hiff {b : Bool} (hb : (userCovers u o (some t)).run w = .ok b) : b = true ↔
      w.resolveAnchor o = .everywhere ∨
        ∃ a, w.Effective u.pk t a ∧ (covers a o).run w = .ok true := by
    simp only [userCovers_iff hactive hsuper hb, run_covers, validReach_true]
    rfl
  have hreturns : (∃ b, (userCovers u o (some t)).run w = .ok b) ↔
      w.resolveAnchor o = .everywhere ∨ w.resolveAnchor o = .unregistered ∨
        w.Answers u t (w.resolveAnchor o) fun a => w.Valid a ∧ w.Reach (w.resolveAnchor o) a := by
    by_cases hall : w.resolveAnchor o = .everywhere
    · exact iff_of_true ⟨true, by simp [run_userCovers, hactive, hall]⟩ (.inl hall)
    by_cases hun : w.resolveAnchor o = .unregistered
    · exact iff_of_true ⟨false, by simp [run_userCovers, hactive, hsuper, hun]⟩ (.inr (.inl hun))
    rw [or_iff_right hall, or_iff_right hun, userCovers_ok hactive hsuper hall hun]
  rw [← hreturns]
  exact ⟨fun ⟨b, hb, _⟩ => ⟨b, hb⟩, fun ⟨b, hb⟩ => ⟨b, hb, hiff hb⟩⟩

omit hsuper in
theorem accessSummary_agrees :
    (∃ S V P, (accessSummary u (some t)).run w = .ok S ∧
        (∀ a, a ∈ V ↔ w.Effective u.pk t a ∧ w.Valid a) ∧
        (V.map (·.row)).Sublist w.tables.assignments ∧ List.Forall₂ Lists V S.assignments ∧
        (userPermissions u none (some t)).run w = .ok P ∧ S.permissions = sorted P) ↔
      ∀ y ∈ w.fetched u t, w.Settles y := by
  have hnone : w.anchorOf none = .everywhere := rfl
  have hok : (∃ P, (userPermissions u none (some t)).run w = .ok P) ↔
      ∀ y ∈ w.fetched u t, w.Settles y := by
    rw [userPermissions_ok hactive (by simp [hnone]), hnone]
    simp only [tells_everywhere, Option.getD_some]
  constructor
  · rintro ⟨S, V, P, -, -, -, -, hP, -⟩
    exact hok.mp ⟨P, hP⟩
  · intro hset
    obtain ⟨as, has, huntil⟩ := answers_iff.mp <| answers_never.mpr fun y hy =>
      tells_everywhere.mpr (hset y hy)
    have hvalid (a : Assignment) (ha : a ∈ as) : ∃ b, w.assignmentIsValid a = .ok b :=
      (validReach_ok.mp (until_never.mp huntil a ha)).1
    obtain ⟨S, hS⟩ := summarize_total (w := w)
      (fun a ha => ((mem_fetchEffective has).mp ha).scope) hvalid ∅ []
    obtain ⟨P, es, hP, hes, rfl⟩ := run_summarize hS
    refine ⟨_, w.validOnes as, P, by simpa [accessSummary, hactive, has] using hS,
      by simp [validOnes, mem_fetchEffective has, Valid], ?_,
      hes.imp fun a e he => lists_of_summaryEntry he, ?_, rfl⟩
    · have hV : (w.validOnes as).Sublist as := List.filter_sublist
      refine (hV.map (·.row)).trans ?_
      rw [fetchEffective_rows has]
      exact List.filter_sublist
    · rw [run_userPermissions, hactive, Option.getD_some, has, ok_bind]
      exact hP

end Ordinary

theorem covers_agrees (hst : w.StoredAsPk) {a : Assignment} (ha : w.Stands a) (hvalid : w.Valid a)
    (o : Obj) :
    (∃ b, (covers a o).run w = .ok b ∧ (b = true ↔ w.Below a o)) ↔
      w.Meets (w.resolveAnchor o) a := by
  have hok : (∃ b, (covers a o).run w = .ok b) ↔ w.Meets (w.resolveAnchor o) a := by
    rw [run_covers, validReach_ok, and_iff_right ⟨true, hvalid⟩]
  rw [← hok]
  refine exists_congr fun b => and_iff_left_of_imp fun hb => ?_
  rw [run_covers] at hb
  have htrue : w.validReach (w.resolveAnchor o) a = .ok true ↔ _ := validReach_true
  rw [hb, Except.ok.injEq] at htrue
  rw [htrue, hst.reach_iff ha hvalid o, and_iff_right hvalid]

/-- Each copy returns and agrees with the rule where what it reads can be read. -/
theorem coverage_copies_agree (hst : w.StoredAsPk) {u : User} (hactive : u.isActive)
    (hsuper : u.isSuperuser = false) (t : Time) :
    (∀ o, (∃ P, (userPermissions u o (some t)).run w = .ok P ∧ ∀ p, p ∈ P ↔ w.Carried u t p o) ↔
      w.anchorOf o = .unregistered ∨ ∀ y ∈ w.fetched u t, w.Tells (w.anchorOf o) y) ∧
    (∀ p o, (∃ b, (hasPerm u p o (some t)).run w = .ok b ∧ (b = true ↔ w.Carried u t p o)) ↔
      w.anchorOf o = .unregistered ∨ ∀ y ∈ w.fetched u t, w.Tells (w.anchorOf o) y) ∧
    (∀ o, (∃ b, (userCovers u o (some t)).run w = .ok b ∧ (b = true ↔
        w.resolveAnchor o = .everywhere ∨
          ∃ a, w.Effective u.pk t a ∧ (covers a o).run w = .ok true)) ↔
      w.resolveAnchor o = .everywhere ∨ w.resolveAnchor o = .unregistered ∨
        w.Answers u t (w.resolveAnchor o) fun a => w.Valid a ∧ w.Reach (w.resolveAnchor o) a) ∧
    ((∃ S V P, (accessSummary u (some t)).run w = .ok S ∧
        (∀ a, a ∈ V ↔ w.Effective u.pk t a ∧ w.Valid a) ∧
        (V.map (·.row)).Sublist w.tables.assignments ∧ List.Forall₂ Lists V S.assignments ∧
        (userPermissions u none (some t)).run w = .ok P ∧ S.permissions = sorted P) ↔
      ∀ y ∈ w.fetched u t, w.Settles y) ∧
    (∀ a, w.Stands a → w.Valid a → ∀ o,
      (∃ b, (covers a o).run w = .ok b ∧ (b = true ↔ w.Below a o)) ↔
        w.Meets (w.resolveAnchor o) a) :=
  ⟨userPermissions_agrees hactive t, hasPerm_agrees hactive t hsuper,
    userCovers_agrees hactive t hsuper, accessSummary_agrees hactive t,
    fun _ ha hvalid => covers_agrees hst ha hvalid⟩

end World

theorem Helpdesk.bob_coverage : ∃ P,
    (userPermissions bob (some (.stored loginButton)) (some 10)).run seeded = .ok P ∧
      ∀ p, p ∈ P ↔ seeded.Carried bob 10 p (some (.stored loginButton)) := by
  refine ((World.coverage_copies_agree (u := bob) stored rfl rfl 10).1 _).mpr (.inr ?_)
  have hgrounded := grounded db 10 tables
  exact fun y hy => readable.tells hgrounded.toAcyclic (fun h => by cases h) hy

theorem Depot.ida_unanswered : kept.StoredAsPk ∧ kept.Acyclic ∧
    ida.isActive ∧ ida.isSuperuser = false ∧
    ((userPermissions ida none (some 10)).run kept).isOk = false ∧
    ((hasPerm ida "depot.view_crate" (some (.stored pallet)) (some 10)).run kept).isOk = false ∧
    ((accessSummary ida (some 10)).run kept).isOk = false :=
  ⟨stored, acyclic, rfl, rfl, by decide, by decide, by decide⟩

end ScopedAccess
