import ScopedAccess.Locked.Runs
import ScopedAccess.Helpdesk

namespace ScopedAccess.Locked

open Lib.Shared (Reachable own)

/-- The world shows the role and its permissions as the connection sees them in the store. -/
def Store.ShowsRole (v : Store) (conn pk : Nat) (w : World) : Prop :=
  part (.role pk) w.tables.toTableRows = part (.role pk) (v.visible conn)

theorem Store.sees_tables {s : Store} {conn : Nat} {w : World} (h : s.sees conn = .ok w) :
    w.tables.toTableRows = s.visible conn := by
  obtain ⟨t, ht, hw⟩ := Lib.Loop.bind_eq_ok.mp h
  obtain rfl := Except.ok.inj hw
  exact TableRows.commit_ok ht

variable {s : Store} {h : Trace} {P : Pool}

theorem LocksHold.shows (hs : LocksHold s h) {i pk : Nat} {u : Store} {later earlier : Trace}
    (heq : h = later ++ ⟨i, .lock i pk, true, u⟩ :: earlier)
    (hquiet : ∀ e ∈ own i later, e.op.Quiet) (hpk : u.hasRole i pk = true) :
    .role pk ∈ s.db.held i ∧
      part (.role pk) (s.visible i) = part (.role pk) ((Locked.act (.lock i pk) u).2.visible i) := by
  have hheld : .role pk ∈ s.db.held i := by
    have hown : own i h = own i later ++ ⟨i, .lock i pk, true, u⟩ :: own i earlier := by
      rw [heq, own, List.filter_append, List.filter_cons_of_pos (by simp)]
      rfl
    exact hs.holding hown hquiet hpk
  obtain ⟨hblocks, hparts⟩ := hs.quiet heq fun e he hi => hquiet e (Lib.Shared.mem_own.mpr ⟨he, hi⟩)
  exact ⟨hheld, Lib.Locks.Db.part_visible (T := theory) hblocks (hparts _ hheld)⟩

/-- The connection is in the block of the call, and has written nothing in it. -/
def InCall (i : Nat) (c : Call) (h : Trace) : Prop :=
  ∃ es s h₀, own i h = es ++ ⟨i, .enter i (some c), (), s⟩ :: h₀ ∧
    ∀ e ∈ es, e.op.Quiet ∨ ∃ pk, e.op = .lock i pk

/-- What led to a write. -/
structure Decided (P : Pool) (before : Trace) (i : Nat) (edit : Edit) (c : Call) (plan : Plan)
    (d : Decision) (v : Store) : Prop where
  made : ∃ code rest, P.tasks[i]? = some ⟨⟨i, code⟩, rest⟩ ∧ code.Makes c
  call : InCall i c before
  planned : c.plan.Yields (fun _ => True) plan
  wrote : d.edit = edit
  writes : Writes c plan.role edit
  decided : ∀ pk ∈ plan.role, plan.decide.Yields (v.ShowsRole i pk) d
  held : ∀ pk ∈ plan.role, .role pk ∈ v.db.held i

theorem decided (hidle : ∀ conn, s.db.blocks conn = []) (hreached : Reachable platform s P)
    {after before : Trace} {i conn : Nat} {edit : Edit} {r : Py (Option Nat)} {v : Store}
    (he : P.history = after ++ ⟨i, .write conn edit, r, v⟩ :: before) :
    conn = i ∧ ∃ c plan d, Decided P before i edit c plan d v := by
  obtain ⟨Q, client, k, hQ, hsteps, rfl, rfl, htask, ⟨hconn, -⟩, -⟩ := hreached.fired he
  obtain ⟨⟨client', rest⟩, ht, hclient⟩ := hsteps.grows.2 _ _ htask
  obtain ⟨client, code⟩ := client
  obtain rfl : client = i := hconn
  obtain rfl : client' = ⟨client, code⟩ := hclient
  have hmay := ((Reachable.obeys platform_obeys hQ).2 _ _ htask).1
  dsimp only at hmay
  cases hmay with
  | @write c plan d es h₁ h₂ hcall hplan hheld hdecide heq =>
    obtain ⟨ps, u, h₀, hps, rfl⟩ := hplan
    refine ⟨rfl, c, plan, d, ⟨code, rest, ht, hcall⟩, ?_, hps.yields fun _ _ _ _ => trivial,
      rfl, hdecide.always (hps.always (plan_writes c)), fun pk hpk => ?_, fun pk hpk => ?_⟩
    · cases hheld with
      | unlocked _ =>
        refine ⟨es ++ ps, u, h₀, by simpa using heq, fun e he => .inl ?_⟩
        exact (List.mem_append.mp he).elim (hdecide.quiet e) (hps.quiet e)
      | @locked pk l _ _ =>
        refine ⟨es ++ ⟨conn, .lock conn pk, true, l⟩ :: ps, u, h₀, by simpa using heq,
          fun e he => ?_⟩
        rcases List.mem_append.mp he with he | he
        · exact .inl (hdecide.quiet e he)
        · rcases List.mem_cons.mp he with rfl | he
          · exact .inr ⟨pk, rfl⟩
          · exact .inl (hps.quiet e he)
    · cases hheld with
      | unlocked hrole => simp [hrole] at hpk
      | @locked pk' l hrole hhas =>
        obtain rfl : pk' = pk := Option.some.inj (hrole.symm.trans hpk)
        obtain ⟨later, earlier, hbefore, hown, -⟩ := Lib.Shared.own_split heq
        have hnow := (locks_hold hidle hQ).shows hbefore (hown ▸ hdecide.quiet) hhas
        refine hdecide.yields fun e hes w hw => ?_
        obtain ⟨hlater, hthread⟩ := Lib.Shared.mem_own.mp (hown ▸ hes)
        obtain ⟨newer, older, rfl⟩ := List.append_of_mem hlater
        -- the state that answered this read
        have hread : Q.history = newer ++ e :: (older ++ ⟨conn, .lock conn pk', true, l⟩ :: earlier) := by
          rw [hbefore]
          simp
        obtain ⟨R, -, -, hR, -, hworld, hhistory, -⟩ := hQ.fired hread
        have hthen := (locks_hold hidle hR).shows hhistory (fun e' he' => hdecide.quiet e' ?_) hhas
        · rw [Store.ShowsRole, Store.sees_tables hw, ← hworld, hthen.2, hnow.2]
        · rw [← hown, own, List.filter_append]
          refine List.mem_append_right _ ?_
          rw [List.filter_cons_of_pos (by simpa using hthread)]
          exact List.mem_cons_of_mem _ he'
    · cases hheld with
      | unlocked hrole => simp [hrole] at hpk
      | @locked pk' l hrole hhas =>
        obtain rfl : pk' = pk := Option.some.inj (hrole.symm.trans hpk)
        exact (locks_hold hidle hQ).holding heq hdecide.quiet hhas

def Delegates (S : World → Prop) (labels : Finset String) (actor : Option User)
    (scope : Option Obj) : Prop :=
  ∃ u, actor = some u ∧ u.isActive = true ∧ (u.isSuperuser = true ∨ ∃ w, S w ∧
    match w.site.grantablePermissions with
    | .any => True
    | .explicit allowed => labels ⊆ allowed.toFinset
    | .callable policy => ∃ role, ∀ label ∈ labels, policy u role label none = true
    | .self => ∃ held, labels ⊆ held ∧
      (if scope.isNone then heldAtRoot u none else userPermissions u scope none).Yields S held)

def Store.labels (v : Store) (conn pk : Nat) : Finset String :=
  (((v.visible conn).rolePermissions.filter (·.role = pk)).map (·.permission.label)).toFinset

theorem Store.ShowsRole.labels {v : Store} {conn pk : Nat} {w : World} (h : v.ShowsRole conn pk w) :
    w.tables.roleLabels pk = v.labels conn pk := by
  rw [Tables.roleLabels, Store.labels, (Part.role.inj h).2]

theorem delegates {S : World → Prop} {labels : Finset String} {actor : Option User} {role : Role}
    {pk : Nat} {level : Option String} {scope : Option Obj} (hpk : role.pk = some pk)
    (hS : ∀ w, S w → w.tables.roleLabels pk = labels)
    (h : (canAssignRole actor role level scope none).Yields S true) :
    Delegates S labels actor scope := by
  cases actor with
  | none => cases h
  | some u =>
    refine ⟨u, rfl, ?_⟩
    simp only [canAssignRole, hpk] at h
    split at h
    · cases h
    rename_i hactive
    refine ⟨by simpa using hactive, ?_⟩
    obtain ⟨w, hw, h⟩ := h.ask_inv
    cases hrow : w.tables.role pk with
    | none =>
      simp only [hrow] at h
      cases h
    | some row =>
      have hlabels : rolePerms (w.loadRole row) = labels := by
        rw [← hS w hw, ← (w.tables.role_eq_some.mp hrow).2]
        rfl
      simp only [hrow] at h
      obtain ⟨fits, -, h⟩ := h.py_inv
      split at h
      · cases h
      split at h
      · exact .inl ‹_›
      obtain ⟨seen, -, h⟩ := h.bind_inv
      split at h
      · cases h
      refine .inr ⟨w, hw, ?_⟩
      cases hpolicy : w.site.grantablePermissions with
      | any => trivial
      | explicit allowed =>
        simp only [hpolicy, hlabels] at h
        exact of_decide_eq_true h.pure_inv
      | callable policy =>
        simp only [hpolicy, hlabels] at h
        exact ⟨w.loadRole row, of_decide_eq_true h.pure_inv⟩
      | self =>
        simp only [hpolicy] at h
        split at h
        · rename_i hroot
          obtain ⟨held, hheld, h⟩ := h.bind_inv
          exact ⟨held, hlabels ▸ of_decide_eq_true h.pure_inv, by rwa [if_pos hroot]⟩
        · rename_i hnode
          obtain ⟨held, hheld, h⟩ := h.bind_inv
          exact ⟨held, hlabels ▸ of_decide_eq_true h.pure_inv, by rwa [if_neg hnode]⟩

theorem refreshForMutation_inv {S : World → Prop} {role : Role} {decide : Role → Read Decision}
    {plan : Plan} (h : (refreshForMutation role decide).Yields S plan) :
    plan.role = role.pk ∧ ∃ pk, role.pk = some pk ∧ plan.decide = refreshed pk >>= decide := by
  unfold refreshForMutation at h
  cases hpk : role.pk with
  | none =>
    rw [hpk] at h
    cases h
  | some pk =>
    rw [hpk] at h
    obtain rfl := h.pure_inv
    exact ⟨rfl, pk, rfl, rfl⟩

theorem refreshed_inv {S : World → Prop} {pk : Nat} {role : Role}
    (h : (refreshed pk).Yields S role) :
    ∃ w row, S w ∧ w.tables.role pk = some row ∧ row.id = pk ∧ role = w.loadRole row := by
  obtain ⟨w, hw, h⟩ := Read.Yields.ask_inv h
  cases hrow : w.tables.role pk with
  | none =>
    simp only [hrow] at h
    cases h
  | some row =>
    simp only [hrow] at h
    exact ⟨w, row, hw, hrow, (w.tables.role_eq_some.mp hrow).2, h.pure_inv.symm⟩

theorem grant_planned {S : World → Prop} {user : User} {role : Role} {actor : Option User}
    {level : Option String} {scope : Option Obj} {validFrom validUntil : Option Time} {plan : Plan}
    (h : (grant user role actor level scope validFrom validUntil).Yields S plan) {pk : Nat}
    (hplan : plan.role = some pk) : ∃ level, role.pk = some pk ∧
      plan.decide = refreshed pk >>= grantDecision user actor level scope validFrom validUntil := by
  obtain ⟨w, -, h⟩ := h.ask_inv
  obtain ⟨level', -, h⟩ := h.py_inv
  split at h
  · cases h
  · obtain ⟨hrole, pk', hpk', hdecide⟩ := refreshForMutation_inv h
    obtain rfl : pk = pk' := Option.some.inj (hplan.symm.trans (hrole.trans hpk'))
    exact ⟨level', hpk', hdecide⟩

theorem grantDecision_inv {S : World → Prop} {user : User} {role : Role} {actor : Option User}
    {level : Option String} {scope : Option Obj} {validFrom validUntil : Option Time} {d : Decision}
    (h : (grantDecision user actor level scope validFrom validUntil role).Yields S d) :
    (canManageAssignment actor scope none).Yields S true ∧
      (canAssignRole actor role level scope none).Yields S true ∧
        ∃ row, d.edit = .assigned row ∧ row.user = user.pk ∧ row.role = role.pk.getD 0 ∧
          row.grantedBy = actor.map User.pk ∧ row.scopeId = scope.map (·.row.pk) := by
  obtain ⟨w, -, h⟩ := h.ask_inv
  obtain ⟨-, h⟩ := h.check_inv
  obtain ⟨hmanage, h⟩ := h.check_inv
  obtain ⟨hassign, h⟩ := h.check_inv
  obtain ⟨w', -, h⟩ := h.ask_inv
  obtain rfl := h.pure_inv
  exact ⟨hmanage, hassign, _, rfl, rfl, rfl, rfl, rfl⟩

/-- The grant that a connection inserts a row for: its actor may manage assignments at its
scope, and delegate every permission the role has at that moment. -/
structure Grant (P : Pool) (before : Trace) (i : Nat) (row : AssignmentRow) (v : Store)
    (user : User) (role : Role) (actor : Option User) (scope : Option Obj) : Prop where
  call : ∃ level validFrom validUntil plan d, Decided P before i (.assigned row)
    (.grant user role actor level scope validFrom validUntil) plan d v
  user_eq : row.user = user.pk
  role_eq : role.pk = some row.role
  scope_eq : row.scopeId = scope.map (·.row.pk)
  actor_eq : row.grantedBy = actor.map User.pk
  manages : (canManageAssignment actor scope none).Yields (v.ShowsRole i row.role) true
  delegates : Delegates (v.ShowsRole i row.role) (v.labels i row.role) actor scope

theorem forbiddenLabels_nil {S : World → Prop} {u : User} {role : Role} {labels : List String}
    (h : (forbiddenLabels u role labels).Yields S []) :
    ∀ label ∈ labels, (canGrantPermission u role label none).Yields S true := by
  induction labels with
  | nil => simp
  | cons label labels ih =>
    obtain ⟨granted, hgranted, h⟩ := h.bind_inv
    obtain ⟨forbidden, hforbidden, h⟩ := h.bind_inv
    have hnil := h.pure_inv
    cases granted with
    | false => cases hnil
    | true =>
      subst hnil
      exact List.forall_mem_cons.mpr ⟨hgranted, ih hforbidden⟩

theorem grantPermissions_inv {S : World → Prop} {perms : List Permission} {actor : Option User}
    {role : Role} {d : Decision} (h : (grantPermissionsDecision perms actor role).Yields S d) :
    d.edit = .extended (role.pk.getD 0) perms ∧ ∃ u w, actor = some u ∧ S w ∧
      (canManageRole actor role none).Yields S true ∧
        ∀ p ∈ perms, w.tables.carries (role.pk.getD 0) p = false →
          (canGrantPermission u role p.label none).Yields S true := by
  cases actor with
  | none => cases h
  | some u =>
    obtain ⟨hmanage, h⟩ := Read.Yields.check_inv h
    obtain ⟨w, hw, h⟩ := h.ask_inv
    obtain ⟨forbidden, hforbidden, h⟩ := h.bind_inv
    split at h
    · cases h
    · rename_i hnone
      obtain rfl : forbidden = [] := by simpa using hnone
      obtain rfl := h.pure_inv
      refine ⟨rfl, u, w, rfl, hw, hmanage, fun p hp hnew => ?_⟩
      refine forbiddenLabels_nil hforbidden _ (mem_labels.mpr ⟨p, ?_, rfl⟩)
      exact List.mem_filter.mpr ⟨hp, by simp [hnew]⟩

/-- The call that a connection adds permissions to a role for: its actor may manage the role
as it is stored then, and grant every permission that it does not have yet. -/
structure Extension (P : Pool) (before : Trace) (i pk : Nat) (perms : List Permission) (v : Store)
    (role : Role) (actor : User) : Prop where
  call : ∃ plan d, Decided P before i (.extended pk perms)
    (.grantPermissions role perms (some actor)) plan d v
  role_eq : role.pk = some pk
  grants : ∃ w row, v.ShowsRole i pk w ∧ w.tables.role pk = some row ∧
    (canManageRole (some actor) (w.loadRole row) none).Yields (v.ShowsRole i pk) true ∧
    ∀ p ∈ perms, (v.visible i).carries pk p = false →
      (canGrantPermission actor (w.loadRole row) p.label none).Yields (v.ShowsRole i pk) true

namespace Granting

open Lib.Shared (Move Pool.play_then)
open Helpdesk

def store : Store where
  db := { committed := staff.toTableRows }
  next := 5
  site := staffed
  receivers := quiet

def viewer : Role := staffed.loadRole { id := 1, name := "viewer" }

def granting : Client := ⟨0, .call (.grant carol viewer (some alice) none (some (.stored frontend))
  none none) fun _ => .done⟩

def extending : Client :=
  ⟨1, .call (.grantPermissions viewer [addTicket] (some { pk := 5, isSuperuser := true })) fun _ => .done⟩

def start : Pool := { world := store }

def locking : List (Move Client) := [.start granting, .start extending, .act 0, .act 0]

def alone : Pool := (start.play platform locking).getD start
def locked : Pool := (alone.move platform (.act 0)).getD alone

def deciding : List (Move Client) := .act 1 :: List.replicate 11 (.act 0)

def asked : Pool := (locked.play platform deciding).getD locked
def granted : Pool := (asked.move platform (.act 0)).getD asked

theorem free {d : Lib.Locks.Db Key Edit TableRows} {conn : Nat} (other : Nat)
    (hconn : conn + other = 1) (hother : d.held other = []) (hrest : ∀ t, d.held (t + 2) = [])
    (k : Key) : d.Free conn k := by
  intro t ht
  by_cases hlate : 2 ≤ t
  · obtain ⟨t, rfl⟩ := Nat.exists_eq_add_of_le' hlate
    simp [hrest]
  · obtain rfl : t = other := by omega
    simp [hother]

theorem granted_reached : Reachable platform store granted := by
  have hlocking : start.play platform locking = some alone := rfl
  have hdeciding : locked.play platform deciding = some asked := rfl
  refine (Pool.play_then prompt_admits (by decide +kernel) hlocking (m := .act 0) ?_ rfl).trans
    (Pool.play_then prompt_admits (by decide +kernel) hdeciding (m := .act 0) ?_ rfl)
  · exact ⟨rfl, fun _ => free 1 rfl rfl (fun _ => rfl) _⟩
  · exact ⟨rfl, fun _ k _ => free 1 rfl rfl (fun _ => rfl) k⟩

def row : AssignmentRow :=
  { id := 0, user := 3, role := 1, level := some "TEAM", scopeCt := some team, scopeId := some "1",
    grantedBy := some 1, grantedAt := 10 }

theorem granted_history : granted.history =
    [] ++ ⟨0, .write 0 (.assigned row), .ok (some 5), asked.world⟩ :: asked.history := rfl

def leaving : List (Move Client) := [.act 0, .act 0]
def judging : List (Move Client) := [.act 1, .act 1]

def left : Pool := (granted.play platform leaving).getD granted
def relocked : Pool := (left.move platform (.act 1)).getD left
def checked : Pool := (relocked.play platform judging).getD relocked
def extended : Pool := (checked.move platform (.act 1)).getD checked

theorem extended_reached : Reachable platform store extended := by
  have hleaving : granted.play platform leaving = some left := rfl
  have hjudging : relocked.play platform judging = some checked := rfl
  refine (granted_reached.trans
    (Pool.play_then prompt_admits (by decide +kernel) hleaving (m := .act 1) ?_ rfl)).trans
    (Pool.play_then prompt_admits (by decide +kernel) hjudging (m := .act 1) ?_ rfl)
  · exact ⟨rfl, fun _ => free 0 rfl rfl (fun _ => rfl) _⟩
  · exact ⟨rfl, fun _ _ hk => by cases hk⟩

theorem extended_history : extended.history =
    [] ++ ⟨1, .write 1 (.extended 1 [addTicket]), .ok (some 6), checked.world⟩ ::
      checked.history := rfl

end Granting

end ScopedAccess.Locked
