import ScopedAccess.Concurrent.Discipline

namespace ScopedAccess.Concurrent

open Lib.Shared (System Event Obeys Reachable own)
open Lib.Txn (Serial Db Level)

structure Client where
  conn : Nat
  code : Code

abbrev Ans (_ : Client) : Type := Unit

abbrev Pool := Lib.Shared.Pool sig Abort Store Ans

def Drifts (s s' : Store) : Prop := s'.db = s.db ∧ s'.next = s.next

/-- The row is not locked, or no row matches; no open transaction has written a row that
stands in the way. -/
def Stmt.Ready (s : Store) : Stmt → Prop
  | .update conn pk _ allowedFrom _ => s.db.Free conn pk ∨
    ∀ row, s.db.visible conn pk = some row → row.status ∉ allowedFrom
  | .insert conn row => ∀ t ≠ conn, ∀ L ∈ s.db.levels t, ∀ pk row', L.rows pk = some row' →
    row.collides row' = false
  | _ => True

def Admits (s : Store) (_ : Trace) (i : Nat) (c : Client) (o : Stmt) : Prop := c.conn = i ∧ o.Ready s

def platform : System sig Abort Store Ans where
  act := act
  body c := c.code.body c.conn
  drifts := Drifts
  admits := Admits

def prompt (i : Nat) (c : Client) : Stmt → Bool
  | .update .. | .insert .. => false
  | _ => c.conn = i

theorem prompt_admits (s : Store) (h : Trace) (i : Nat) (c : Client) (o : Stmt)
    (ho : prompt i c o = true) : platform.admits s h i c o := by
  cases o with
  | update | insert => cases ho
  | _ => exact ⟨of_decide_eq_true ho, trivial⟩

theorem platform_obeys (i : Nat) (c : Client) :
    Obeys platform.act i (May i c.conn c.code) (fun _ _ => True) (platform.body c) [] :=
  (safe_part fun _ hc => hc).mono (fun _ _ _ => trivial) [] rfl

def Told (h : Trace) (c : Nat × Entry) : Prop :=
  match c.2 with
  | .granted _ => True
  | .moved target changes => ∃ i conn allowedFrom w,
    (⟨i, .update conn c.1 target allowedFrom changes, true, w⟩ : Event sig Store) ∈ h

theorem Told.mono {h h' : Trace} {c : Nat × Entry} (ht : Told h c) (hsub : h ⊆ h') : Told h' c := by
  unfold Told at ht ⊢
  split
  · trivial
  · rename_i hc
    rw [hc] at ht
    obtain ⟨i, conn, allowedFrom, w, hmem⟩ := ht
    exact ⟨i, conn, allowedFrom, w, hsub hmem⟩

structure Idle (s : Store) : Prop where
  levels : ∀ t, s.db.levels t = []
  journal : s.db.journal = []
  keys : ∀ pk row, s.db.committed pk = some row → pk < s.next

variable {s : Store} {h : Trace} {i conn : Nat} {code : Code} {o : Stmt}

section Rows

variable {I : Nat → AssignmentRow → Prop}
  (hinsert : ∀ pk row, Granted row → I pk { row with id := pk })
  (hmove : ∀ pk row target changes, I pk row → I pk (moveTo row target changes))
include hinsert hmove

theorem all_act {J : Nat × Entry → Prop} (hall : s.db.All (fun pk row => pk < s.next ∧ I pk row) J)
    (hmay : May i conn code h o) (hgranted : ∀ row, J (s.next, .granted row))
    (hmoved : ∀ conn pk target allowedFrom changes, o = .update conn pk target allowedFrom changes →
      (act (.update conn pk target allowedFrom changes) s).1 = true → J (pk, .moved target changes)) :
    (act o s).2.db.All (fun pk row => pk < (act o s).2.next ∧ I pk row) J := by
  cases o with
  | enter => exact hall.enter _
  | leave => exact hall.leave _
  | undo => exact hall.undo _
  | select | ask | effective | valid | send => exact hall
  | update conn' pk target allowedFrom changes =>
    have hmoved' := hmoved conn' pk target allowedFrom changes rfl
    simp only [act] at hmoved' ⊢
    split
    · exact hall
    · rename_i row hvisible
      have hrow := hall.visible hvisible
      split
      · rename_i hstatus
        refine hall.write ⟨hrow.1, hmove _ _ _ _ hrow.2⟩ (hmoved' ?_)
        simp only [hvisible, hstatus, if_true]
      · exact hall
  | insert conn' row =>
    have hlater : s.db.All (fun pk row => pk < s.next + 1 ∧ I pk row) J :=
      hall.mono (fun _ _ hrow => ⟨Nat.lt_succ_of_lt hrow.1, hrow.2⟩) fun _ hc => hc
    cases hmay with
    | insert hrow _ =>
      simp only [act]
      split
      · exact hlater
      · exact hlater.write ⟨Nat.lt_succ_self _, hinsert _ _ hrow⟩ (hgranted _)

theorem told_act (hall : s.db.All (fun pk row => pk < s.next ∧ I pk row) (Told h))
    (hmay : May i conn code (own i h) o) :
    (act o s).2.db.All (fun pk row => pk < (act o s).2.next ∧ I pk row)
      (Told (⟨i, o, (act o s).1, s⟩ :: h)) := by
  refine all_act hinsert hmove (hall.mono (fun _ _ hrow => hrow) fun c hc =>
    hc.mono (List.subset_cons_self _ _)) hmay (fun _ => trivial) ?_
  rintro conn' pk target allowedFrom changes rfl htrue
  exact ⟨i, conn', allowedFrom, s, htrue ▸ List.mem_cons_self ..⟩

end Rows

inductive Transitions : Option AssignmentRow → Entry → AssignmentRow → Prop
  | granted {row : AssignmentRow} : Transitions none (.granted row) row
  | suspend {row : AssignmentRow} (h : row.status = .active) :
    Transitions (some row) (.moved .suspended none) (moveTo row .suspended none)
  | reactivate {row : AssignmentRow} (h : row.status = .suspended) :
    Transitions (some row) (.moved .active none) (moveTo row .active none)
  | revoke {row : AssignmentRow} {audit : Audit} (h : row.status ≠ .revoked) :
    Transitions (some row) (.moved .revoked (some audit)) (moveTo row .revoked (some audit))

theorem Transitions.unique (r : Option AssignmentRow) (e : Entry) (x x' : AssignmentRow)
    (h : Transitions r e x) (h' : Transitions r e x') : x = x' := by
  cases h <;> cases h' <;> rfl

theorem next_unused {I : Nat → AssignmentRow → Prop} {J : Nat × Entry → Prop}
    (hall : s.db.All (fun pk row => pk < s.next ∧ I pk row) J) (conn : Nat) :
    s.db.Free conn s.next ∧ s.db.visible conn s.next = none := by
  constructor
  · intro t _ L hL
    cases hrow : L.rows s.next with
    | none => rfl
    | some row => exact absurd (hall.rows t L hL _ row hrow).1 (lt_irrefl _)
  · cases hrow : s.db.visible conn s.next with
    | none => rfl
    | some row => exact absurd (hall.visible hrow).1 (lt_irrefl _)

theorem serial_act {base : Nat → Option AssignmentRow} (hserial : Serial Transitions base s.db)
    {I : Nat → AssignmentRow → Prop} {J : Nat × Entry → Prop}
    (hall : s.db.All (fun pk row => pk < s.next ∧ I pk row) J)
    (hmay : May i conn code h o) (hready : o.Ready s) :
    Serial Transitions base (act o s).2.db := by
  cases o with
  | enter => exact hserial.enter _
  | leave => exact hserial.leave _
  | undo => exact hserial.undo _
  | select | ask | effective | valid | send => exact hserial
  | update conn' pk target allowedFrom changes =>
    simp only [act]
    split
    · exact hserial
    · rename_i row hvisible
      split
      · rename_i hstatus
        have hfree : s.db.Free conn' pk :=
          hready.resolve_right fun hnone => hnone row hvisible hstatus
        refine hserial.write hfree ?_
        rw [hvisible]
        cases hmay with
        | suspend => exact .suspend (by simpa using hstatus)
        | reactivate => exact .reactivate (by simpa using hstatus)
        | revoke =>
          refine .revoke fun hrevoked => ?_
          simp [hrevoked] at hstatus
      · exact hserial
  | insert conn' row =>
    simp only [act]
    split
    · exact hserial
    · obtain ⟨hfree, hvisible⟩ := next_unused hall conn'
      refine hserial.write hfree ?_
      rw [hvisible]
      exact .granted

/-- The calls that a statement commits: the block it closes is the outermost one. -/
def commits (e : Event sig Store) (before : Trace) : List Call :=
  match e.op, frames (own e.thread before) with
  | .leave _ call, [F] => call.toList ++ F.calls
  | _, _ => []

def committedCalls : Trace → List Call
  | [] => []
  | e :: h => commits e h ++ committedCalls h

def cumulative : List Frame → List (List (Nat × Entry))
  | [] => []
  | F :: gs => (F.done ++ (cumulative gs).headD []) :: cumulative gs

@[simp] theorem cumulative_tail (gs : List Frame) : cumulative gs.tail = (cumulative gs).tail := by
  cases gs <;> rfl

theorem cumulative_push (F : Frame) {gs : List Frame} {done : List (Nat × Entry)}
    {rest : List (List (Nat × Entry))} (h : cumulative gs = done :: rest) :
    cumulative (F.push gs) = (F.done ++ done) :: rest := by
  cases gs with
  | nil => cases h
  | cons G gs =>
    obtain ⟨rfl, rfl⟩ := List.cons.inj h
    simp [Frame.push, Frame.over, cumulative]

/-- What the history tells of a client is what its transaction has done, and what is
committed are the changes of the calls that returned. -/
structure Accounted (s : Store) (h : Trace) : Prop where
  blocks : ∀ t, (s.db.levels t).map Level.done = cumulative (frames (own t h))
  calls : Matched (committedCalls h) s.db.journal

theorem Accounted.step {s' : Store} {r : o.Res} (haccounted : Accounted s h)
    (hown : (s'.db.levels i).map Level.done = cumulative (o.frames r (frames (own i h))))
    (hothers : ∀ t ≠ i, s'.db.levels t = s.db.levels t)
    (hcalls : Matched (commits ⟨i, o, r, s⟩ h ++ committedCalls h) s'.db.journal) :
    Accounted s' (⟨i, o, r, s⟩ :: h) := by
  refine ⟨fun t => ?_, hcalls⟩
  by_cases ht : t = i
  · subst ht
    rw [hown, own, own, List.filter_cons_of_pos (by simp)]
    rfl
  · rw [hothers t ht, haccounted.blocks t, own, own, List.filter_cons_of_neg (by simpa using Ne.symm ht)]

theorem Accounted.write {s' : Store} {r : o.Res} {pk : Nat} {row : AssignmentRow} {e : Entry}
    (haccounted : Accounted s h) (hdb : s'.db = s.db.write i pk row e)
    (hframes : ∀ gs, o.frames r gs = Frame.push ⟨[], [(pk, e)]⟩ gs)
    (hcommits : commits ⟨i, o, r, s⟩ h = []) (hopen : frames (own i h) ≠ []) :
    Accounted s' (⟨i, o, r, s⟩ :: h) := by
  have hblocks := haccounted.blocks i
  cases hlevels : s.db.levels i with
  | nil =>
    cases hgs : frames (own i h) with
    | nil => exact absurd hgs hopen
    | cons F gs =>
      rw [hlevels, hgs] at hblocks
      cases hblocks
  | cons L ls =>
    rw [hlevels] at hblocks
    have hwrite : s'.db = s.db.setLevels i
        ({ rows := Function.update L.rows pk (some row), done := (pk, e) :: L.done } :: ls) := by
      rw [hdb, Db.write, hlevels]
    refine haccounted.step ?_ (fun t ht => ?_) ?_
    · rw [hwrite, Db.levels_setLevels, if_pos rfl, hframes, cumulative_push _ hblocks.symm]
      rfl
    · rw [hwrite, Db.levels_setLevels, if_neg ht]
    · rw [hcommits, hwrite]
      exact haccounted.calls

theorem Accounted.leave {call : Option Call} (haccounted : Accounted s h)
    (hmatched : ∀ F gs, frames (own i h) = F :: gs → Matched (call.toList ++ F.calls) F.done) :
    Accounted (act (.leave i call) s).2 (⟨i, .leave i call, (), s⟩ :: h) := by
  have hblocks := haccounted.blocks i
  cases hgs : frames (own i h) with
  | nil =>
    rw [hgs, cumulative, List.map_eq_nil_iff] at hblocks
    have hleave : s.db.leave i = s.db := by rw [Db.leave, hblocks]
    refine haccounted.step ?_ (fun t ht => ?_) ?_
    · simp [act, hleave, hblocks, hgs, Stmt.frames, cumulative]
    · rw [act, hleave]
    · simpa [act, hleave, commits, hgs] using haccounted.calls
  | cons F gs =>
    rw [hgs, cumulative, List.map_eq_cons_iff] at hblocks
    obtain ⟨L, ls, hlevels, hL, hls⟩ := hblocks
    cases gs with
    | nil =>
      obtain rfl := List.map_eq_nil_iff.mp hls
      refine haccounted.step ?_ (fun t ht => ?_) ?_
      · simp [act, Db.leave, hlevels, hgs, Stmt.frames, Frame.push, cumulative]
      · simp [act, Db.leave, hlevels, Function.update_of_ne ht]
      · have hcommits : commits ⟨i, .leave i call, (), s⟩ h = call.toList ++ F.calls := by
          simp [commits, hgs]
        have hjournal : (act (.leave i call) s).2.db.journal = F.done ++ s.db.journal := by
          simp [act, Db.leave, hlevels, hL, cumulative]
        rw [hcommits, hjournal]
        exact (hmatched F [] hgs).append haccounted.calls
    | cons G gs =>
      rw [cumulative, List.map_eq_cons_iff] at hls
      obtain ⟨L', ls, rfl, hL', hls⟩ := hls
      have hleave : s.db.leave i = s.db.setLevels i (L :: ls) := by rw [Db.leave, hlevels]
      refine haccounted.step ?_ (fun t ht => ?_) ?_
      · simp [act, hleave, Db.levels_setLevels, hgs, Stmt.frames, Frame.push, Frame.over, cumulative,
          hL, hls]
      · simp [act, hleave, Db.levels_setLevels, ht]
      · simpa [act, hleave, Db.setLevels, commits, hgs] using haccounted.calls

theorem accounted_act (haccounted : Accounted s h) (hmay : May i i code (own i h) o) :
    Accounted (act o s).2 (⟨i, o, (act o s).1, s⟩ :: h) := by
  cases hmay with
  | enter =>
    refine haccounted.step ?_ (fun t ht => ?_) haccounted.calls
    · have hblocks := haccounted.blocks i
      simp only [act, Db.enter, Db.levels_setLevels, if_true, Stmt.frames, cumulative, ← hblocks,
        List.map_cons, Db.top]
      cases s.db.levels i <;> rfl
    · simp [act, Db.enter, Db.levels_setLevels, ht]
  | leave hmatched => exact haccounted.leave hmatched
  | undo =>
    refine haccounted.step ?_ (fun t ht => ?_) haccounted.calls
    · simp [act, Db.undo, Db.levels_setLevels, Stmt.frames, ← haccounted.blocks i]
    · simp [act, Db.undo, Db.levels_setLevels, ht]
  | select | ask | effective | valid | send =>
    exact haccounted.step (haccounted.blocks i) (fun _ _ => rfl) haccounted.calls
  | insert hrow hopen =>
    simp only [act]
    split
    · exact haccounted.step (haccounted.blocks i) (fun _ _ => rfl) haccounted.calls
    · exact haccounted.write rfl (fun _ => rfl) rfl hopen
  | suspend _ hopen | reactivate _ hopen | revoke _ _ hopen =>
    simp only [act]
    split
    · exact haccounted.step (haccounted.blocks i) (fun _ _ => rfl) haccounted.calls
    · split
      · exact haccounted.write rfl (fun _ => rfl) rfl hopen
      · exact haccounted.step (haccounted.blocks i) (fun _ _ => rfl) haccounted.calls

theorem Idle.accounted {P : Pool} (hidle : Idle s) (hreached : Reachable platform s P) :
    Accounted P.world P.history := by
  refine hreached.invariant platform_obeys Accounted ⟨fun t => ?_, ?_⟩ ?_ ?_
  · rw [hidle.levels t]
    rfl
  · rw [hidle.journal]
    exact .nil
  · rintro w w' h haccounted ⟨hdb, -⟩
    exact ⟨hdb ▸ haccounted.blocks, hdb ▸ haccounted.calls⟩
  · rintro Q i t o - haccounted - hmay ⟨hconn, -⟩
    rw [hconn] at hmay
    exact accounted_act haccounted hmay

end ScopedAccess.Concurrent
