import ScopedAccess.Concurrent.Linear

namespace ScopedAccess.Concurrent

open Lib.Shared (Event Reachable)
open Lib.Txn (Unique RowsApart)

structure Agree (a b : AssignmentRow) : Prop where
  user : a.user = b.user
  role : a.role = b.role
  level : a.level = b.level
  scopeCt : a.scopeCt = b.scopeCt
  scopeId : a.scopeId = b.scopeId

theorem collides_iff {a b : AssignmentRow} (ha : Shaped a) (hb : Shaped b) :
    a.collides b = true ↔ a.isLive = true ∧ b.isLive = true ∧ Agree a b := by
  constructor
  · intro h
    simp only [AssignmentRow.collides, Bool.or_eq_true] at h
    rcases h with (h | h) | h
    · simp only [AssignmentRow.sameLiveAssignment, sqlEq, Bool.and_eq_true, decide_eq_true_eq] at h
      obtain ⟨⟨⟨⟨⟨⟨hlive, hlive'⟩, huser⟩, hrole⟩, -, hlevel⟩, -, hct⟩, -, hid⟩ := h
      exact ⟨hlive, hlive', huser, hrole, hlevel, hct, hid⟩
    · simp only [AssignmentRow.sameLiveRoot, sqlEq, Bool.and_eq_true, decide_eq_true_eq,
        Option.isNone_iff_eq_none] at h
      obtain ⟨⟨⟨⟨⟨⟨hlive, hlive'⟩, huser⟩, hrole⟩, -, hlevel⟩, hid⟩, hid'⟩ := h
      exact ⟨hlive, hlive', huser, hrole, hlevel, by rw [ha.scopeCt hid, hb.scopeCt hid'],
        by rw [hid, hid']⟩
    · simp only [AssignmentRow.sameLiveFlat, Bool.and_eq_true, decide_eq_true_eq,
        Option.isNone_iff_eq_none] at h
      obtain ⟨⟨⟨⟨⟨⟨⟨hlive, hlive'⟩, huser⟩, hrole⟩, hlevel⟩, hlevel'⟩, hid⟩, hid'⟩ := h
      exact ⟨hlive, hlive', huser, hrole, by rw [hlevel, hlevel'],
        by rw [ha.scopeCt hid, hb.scopeCt hid'], by rw [hid, hid']⟩
  · rintro ⟨hlive, hlive', huser, hrole, hlevel, hct, hid⟩
    simp only [AssignmentRow.collides, Bool.or_eq_true]
    cases hscope : a.scopeId with
    | some key =>
      have hct' : a.scopeCt.isSome = true := ha.scope.trans (by simp [hscope])
      have hlevel' : a.level.isSome = true := ha.level (by simp [hscope])
      left; left
      simp [AssignmentRow.sameLiveAssignment, sqlEq, hlive, hlive', huser, hrole, ← hlevel, ← hct,
        ← hid, hct', hlevel', hscope]
    | none =>
      cases hnamed : a.level with
      | some name =>
        left; right
        simp [AssignmentRow.sameLiveRoot, sqlEq, hlive, hlive', huser, hrole, ← hlevel, ← hid, hscope,
          hnamed]
      | none =>
        right
        simp [AssignmentRow.sameLiveFlat, hlive, hlive', huser, hrole, ← hlevel, ← hid, hscope, hnamed]

def Clash (a b : AssignmentRow) : Prop := a.collides b = true

theorem Clash.symm {a b : AssignmentRow} (h : Clash a b) : Clash b a := by
  simp only [Clash, AssignmentRow.collides, AssignmentRow.sameLiveAssignment,
    AssignmentRow.sameLiveRoot, AssignmentRow.sameLiveFlat, sqlEq, Bool.or_eq_true,
    Bool.and_eq_true, decide_eq_true_eq] at h ⊢
  rcases h with (h | h) | h
  · obtain ⟨⟨⟨⟨⟨⟨hlive, hlive'⟩, huser⟩, hrole⟩, hlevel, heq⟩, hct, heq'⟩, hid, heq''⟩ := h
    exact .inl (.inl ⟨⟨⟨⟨⟨⟨hlive', hlive⟩, huser.symm⟩, hrole.symm⟩, heq ▸ hlevel, heq.symm⟩,
      heq' ▸ hct, heq'.symm⟩, heq'' ▸ hid, heq''.symm⟩)
  · obtain ⟨⟨⟨⟨⟨⟨hlive, hlive'⟩, huser⟩, hrole⟩, hlevel, heq⟩, hid⟩, hid'⟩ := h
    exact .inl (.inr ⟨⟨⟨⟨⟨⟨hlive', hlive⟩, huser.symm⟩, hrole.symm⟩, heq ▸ hlevel, heq.symm⟩, hid'⟩,
      hid⟩)
  · obtain ⟨⟨⟨⟨⟨⟨⟨hlive, hlive'⟩, huser⟩, hrole⟩, hlevel⟩, hlevel'⟩, hid⟩, hid'⟩ := h
    exact .inr ⟨⟨⟨⟨⟨⟨⟨hlive', hlive⟩, huser.symm⟩, hrole.symm⟩, hlevel'⟩, hlevel⟩, hid'⟩, hid⟩

theorem collides_comm (a b : AssignmentRow) : a.collides b = b.collides a :=
  Bool.eq_iff_iff.mpr ⟨Clash.symm, Clash.symm⟩

theorem Clash.of_moveTo {row row' : AssignmentRow} {target : AssignmentStatus}
    {changes : Option Audit} (h : Clash (moveTo row target changes) row')
    (hlive : row.isLive = true) : Clash row row' := by
  cases changes <;>
    simp only [Clash, AssignmentRow.collides, AssignmentRow.sameLiveAssignment,
      AssignmentRow.sameLiveRoot, AssignmentRow.sameLiveFlat, moveTo, hlive, Bool.or_eq_true,
      Bool.and_eq_true, true_and] at h ⊢ <;>
    grind

theorem Shaped.moveTo {row : AssignmentRow} (h : Shaped row) (target : AssignmentStatus)
    (changes : Option Audit) : Shaped (moveTo row target changes) := by
  cases changes with
  | none => exact ⟨h.scope, h.level⟩
  | some audit => exact ⟨h.scope, h.level⟩

/-- The constraints hold of what is stored, and `grant` has written it. -/
structure Constrained (s : Store) : Prop extends Idle s where
  shaped : ∀ pk row, s.db.committed pk = some row → Shaped row
  apart : RowsApart Clash s.db.committed

variable {s : Store} {P : Pool} {h : Trace} {i conn : Nat} {code : Code} {o : Stmt}

theorem unique_act (hunique : Unique Clash s.db)
    (hall : s.db.All (fun pk row => pk < s.next ∧ Shaped row) fun _ => True)
    (hmay : May i conn code h o) (hready : o.Ready s) : Unique Clash (act o s).2.db := by
  cases o with
  | enter => exact hunique.enter _
  | leave => exact hunique.leave (fun _ _ => Clash.symm) _
  | undo => exact hunique.undo _
  | select | ask | effective | valid | send => exact hunique
  | update conn' pk target allowedFrom changes =>
    simp only [act]
    split
    · exact hunique
    · rename_i row hvisible
      split
      · rename_i hstatus
        have hfree : s.db.Free conn' pk :=
          hready.resolve_right fun hnone => hnone row hvisible hstatus
        have hlive : row.isLive = true := by
          refine decide_eq_true fun hrevoked => ?_
          cases hmay <;> simp [hrevoked] at hstatus
        exact hunique.update (fun _ _ => Clash.symm) hfree hvisible fun _ hc => hc.of_moveTo hlive
      · exact hunique
  | insert conn' row =>
    simp only [act]
    split
    · exact hunique
    · rename_i hrefuses
      obtain ⟨hfree, -⟩ := next_unused hall conn'
      refine hunique.write (fun _ _ => Clash.symm) hfree (fun pk row' _ hvisible hclash => ?_)
        fun t ht L hL pk row' _ hrow' hclash => ?_
      · have hrefused : s.refuses conn' { row with id := s.next } = true := by
          refine List.any_eq_true.mpr ⟨pk, List.mem_range.mpr (hall.visible hvisible).1, ?_⟩
          rw [hvisible]
          exact hclash
        exact hrefuses hrefused
      · have hapart : row.collides row' = false := hready t ht L hL pk row' hrow'
        have hcollides : row.collides row' = true := hclash
        simp [hapart] at hcollides

theorem Constrained.unique (hs : Constrained s) (hreached : Reachable platform s P) :
    Unique Clash P.world.db ∧
      P.world.db.All (fun pk row => pk < P.world.next ∧ Shaped row) fun _ => True := by
  refine hreached.invariant platform_obeys
    (fun s' _ => Unique Clash s'.db ∧
      s'.db.All (fun pk row => pk < s'.next ∧ Shaped row) fun _ => True) ?_ ?_ ?_
  · refine ⟨.start hs.levels hs.apart, fun pk row hrow => ⟨hs.keys pk row hrow, hs.shaped pk row hrow⟩,
      fun _ _ => trivial, fun t L hL => ?_, fun _ _ _ _ _ => trivial⟩
    simp [hs.levels t] at hL
  · rintro w w' h ⟨hunique, hall⟩ ⟨hdb, hnext⟩
    rw [hdb, hnext]
    exact ⟨hunique, hall⟩
  · rintro Q i t o - ⟨hunique, hall⟩ - hmay ⟨-, hready⟩
    refine ⟨unique_act hunique hall hmay hready, ?_⟩
    exact all_act (fun _ _ hrow => ⟨hrow.scope, hrow.level⟩)
      (fun _ _ target changes hrow => hrow.moveTo target changes) hall hmay (fun _ => trivial)
      fun _ _ _ _ _ _ _ => trivial

def LiveOnce (rows : Nat → Option AssignmentRow) : Prop :=
  ∀ pk pk' row row', rows pk = some row → rows pk' = some row' → row.isLive = true →
    row'.isLive = true → Agree row row' → pk = pk'

theorem liveOnce_of_apart {rows : Nat → Option AssignmentRow} (h : RowsApart Clash rows)
    (hshaped : ∀ pk row, rows pk = some row → Shaped row) : LiveOnce rows := by
  intro pk pk' row row' hrow hrow' hlive hlive' hagree
  by_contra hne
  exact h pk pk' row row' hne hrow hrow'
    ((collides_iff (hshaped pk row hrow) (hshaped pk' row' hrow')).mpr ⟨hlive, hlive', hagree⟩)

/-- An insert that the constraints refuse has found the row it would have been the second of. -/
def RefusedRightly (h : Trace) : Prop :=
  ∀ i conn row w, (⟨i, .insert conn row, none, w⟩ : Lib.Shared.Event sig Store) ∈ h →
    ∃ pk row', w.db.visible conn pk = some row' ∧ row'.isLive = true ∧ Agree row row'

theorem refuses_agree (hall : s.db.All (fun pk row => pk < s.next ∧ Shaped row) fun _ => True)
    {row : AssignmentRow} (hrow : Shaped row) (hrefuses : s.refuses conn row = true) :
    ∃ pk row', s.db.visible conn pk = some row' ∧ row'.isLive = true ∧ Agree row row' := by
  obtain ⟨pk, -, hany⟩ := List.any_eq_true.mp hrefuses
  cases hvisible : s.db.visible conn pk with
  | none => simp [hvisible] at hany
  | some row' =>
    rw [hvisible] at hany
    obtain ⟨-, hlive, hagree⟩ := (collides_iff hrow (hall.visible hvisible).2).mp hany
    exact ⟨pk, row', hvisible, hlive, hagree⟩

theorem Constrained.refused (hs : Constrained s) (hreached : Reachable platform s P) :
    RefusedRightly P.history := by
  intro i conn row w hmem
  obtain ⟨after, before, heq⟩ := List.append_of_mem hmem
  obtain ⟨Q, c, k, hQ, -, rfl, -, -, -, hres⟩ := hreached.fired heq
  obtain ⟨t, -, hmay⟩ := hreached.allowed platform_obeys heq
  have hall := (hs.unique hQ).2
  have hrefuses : Q.world.refuses conn { row with id := Q.world.next } = true := by
    by_contra hnot
    change none = (act (.insert conn row) Q.world).1 at hres
    simp only [act, hnot] at hres
    cases hres
  dsimp only at hmay
  cases hmay with
  | insert hrow _ =>
    have hshaped : Shaped { row with id := Q.world.next } := ⟨hrow.scope, hrow.level⟩
    obtain ⟨pk, row', hvisible, hlive, hagree⟩ := refuses_agree hall hshaped hrefuses
    exact ⟨pk, row', hvisible, hlive, hagree.user, hagree.role, hagree.level, hagree.scopeCt,
      hagree.scopeId⟩

theorem live_once (hs : Constrained s) (hreached : Reachable platform s P) :
    LiveOnce P.world.db.committed ∧ (∀ conn, LiveOnce (P.world.db.visible conn)) ∧
      RefusedRightly P.history := by
  obtain ⟨hunique, hall⟩ := hs.unique hreached
  refine ⟨liveOnce_of_apart hunique.committed fun pk row hrow => (hall.committed pk row hrow).2,
    fun conn => ?_,
    hs.refused hreached⟩
  exact liveOnce_of_apart (hunique.view_top conn) fun pk row hrow => (hall.visible hrow).2

namespace Twice

open Lib.Shared (Move Pool.play_then Pool.play_admitted Pool.admitted_of_allPass)
open Crossing (admin untouched_elsewhere)

def empty : Store where
  db := { committed := fun _ => none }
  next := 1
  site := Testapp.sparse
  receivers := quiet

def granting (conn : Nat) : Client :=
  ⟨conn, .call (.grant Testapp.nadia (Testapp.sparse.loadRole { id := 1, name := "viewer" }) (some admin)
    none none none none) fun _ => .done⟩

def start : Pool := { world := empty }

def asking : List (Move Client) :=
  [.start (granting 0), .start (granting 1), .act 0, .act 0, .act 0, .act 0, .act 0, .act 0, .act 1,
    .act 1, .act 1, .act 1, .act 1, .act 1]
def returning : List (Move Client) := [.act 0, .act 0]

def asked : Pool := (start.play platform asking).getD start
def inserted : Pool := (asked.move platform (.act 0)).getD asked
def returned : Pool := (inserted.play platform returning).getD inserted
def refused : Pool := (returned.move platform (.act 1)).getD returned
def granted : Pool := (refused.play platform [.act 1]).getD refused

theorem granted_reached : Reachable platform empty granted := by
  have hasking : start.play platform asking = some asked := rfl
  have hreturning : inserted.play platform returning = some returned := rfl
  have hundoing : refused.play platform [.act 1] = some granted := rfl
  refine ((Pool.play_then prompt_admits (by decide +kernel) hasking (m := .act 0) ?_ rfl).trans
    (Pool.play_then prompt_admits (by decide +kernel) hreturning (m := .act 1) ?_ rfl)).trans
    (Pool.play_admitted (Pool.admitted_of_allPass prompt_admits (by decide +kernel)) hundoing)
  · refine ⟨rfl, fun t ht L hL pk row hrow => ?_⟩
    have hnone := untouched_elsewhere 1 (fun t ht ht' => ?_) (fun L hL pk => ?_) t ht L hL pk
    · rw [hnone] at hrow
      cases hrow
    · match t with
      | t + 2 => rfl
    · cases List.mem_singleton.mp hL
      rfl
  · refine ⟨rfl, fun t ht L hL pk row hrow => ?_⟩
    have hnone := untouched_elsewhere 0 (fun t ht ht' => ?_) (fun L hL pk => ?_) t ht L hL pk
    · rw [hnone] at hrow
      cases hrow
    · match t with
      | t + 2 => rfl
    · cases hL

theorem constrained : Constrained empty where
  levels _ := rfl
  journal := rfl
  keys _ _ hrow := by cases hrow
  shaped _ _ hrow := by cases hrow
  apart _ _ _ _ _ hrow _ := by cases hrow

theorem granted_once : LiveOnce granted.world.db.committed ∧
    (∀ conn, LiveOnce (granted.world.db.visible conn)) ∧ RefusedRightly granted.history :=
  live_once constrained granted_reached

end Twice

end ScopedAccess.Concurrent
