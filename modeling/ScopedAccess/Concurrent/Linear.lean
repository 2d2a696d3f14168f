import ScopedAccess.Concurrent.Runs
import ScopedAccess.Testapp

namespace ScopedAccess.Concurrent

open Lib.Shared (Event Reachable Steps Step)
open Lib.Txn (Serial Path changesOf changesOf_append changesOf_cons)

/-- A way through the states, the newest transition first. -/
inductive Leads : AssignmentStatus → List Entry → AssignmentStatus → Prop
  | nil {s : AssignmentStatus} : Leads s [] s
  | suspend {s : AssignmentStatus} {es : List Entry} (h : Leads s es .active) :
    Leads s (.moved .suspended none :: es) .suspended
  | reactivate {s : AssignmentStatus} {es : List Entry} (h : Leads s es .suspended) :
    Leads s (.moved .active none :: es) .active
  | revoke {s s' : AssignmentStatus} {es : List Entry} {audit : Audit} (h : Leads s es s')
    (hlive : s' ≠ .revoked) : Leads s (.moved .revoked (some audit) :: es) .revoked

def Entry.revocation : Entry → Option Audit
  | .moved .revoked changes => changes
  | _ => none

def revocations (es : List Entry) : List Audit := es.filterMap Entry.revocation

structure SameGrant (row row' : AssignmentRow) : Prop where
  id : row'.id = row.id
  user : row'.user = row.user
  role : row'.role = row.role
  level : row'.level = row.level
  scopeCt : row'.scopeCt = row.scopeCt
  scopeId : row'.scopeId = row.scopeId
  validFrom : row'.validFrom = row.validFrom
  validUntil : row'.validUntil = row.validUntil
  grantedBy : row'.grantedBy = row.grantedBy
  grantedAt : row'.grantedAt = row.grantedAt

def SameAudit (row row' : AssignmentRow) : Prop :=
  row'.revokedBy = row.revokedBy ∧ row'.revokedAt = row.revokedAt ∧ row'.reason = row.reason

structure Linear (row : AssignmentRow) (es : List Entry) (row' : AssignmentRow) : Prop where
  path : Leads row.status es row'.status
  once : (revocations es).length ≤ 1
  revoked : ∀ audit ∈ revocations es, row'.revokedBy = audit.revokedBy ∧
    row'.revokedAt = some audit.revokedAt ∧ row'.reason = audit.reason
  unset : revocations es = [] → SameAudit row row'
  same : SameGrant row row'

theorem SameGrant.moveTo {row row' : AssignmentRow} (h : SameGrant row row')
    (target : AssignmentStatus) (changes : Option Audit) :
    SameGrant row (moveTo row' target changes) := by
  cases changes with
  | none => exact ⟨h.1, h.2, h.3, h.4, h.5, h.6, h.7, h.8, h.9, h.10⟩
  | some audit => exact ⟨h.1, h.2, h.3, h.4, h.5, h.6, h.7, h.8, h.9, h.10⟩

theorem Leads.live {s s' : AssignmentStatus} {es : List Entry} (h : Leads s es s')
    (hlive : s' ≠ .revoked) : revocations es = [] := by
  induction h with
  | nil => rfl
  | suspend h ih => exact ih (by decide)
  | reactivate h ih => exact ih (by decide)
  | revoke => exact absurd rfl hlive

theorem Linear.suspend {row row' : AssignmentRow} {es : List Entry} (h : Linear row es row')
    (hstatus : row'.status = .active) :
    Linear row (.moved .suspended none :: es) (moveTo row' .suspended none) where
  path := .suspend (hstatus ▸ h.path)
  once := h.once
  revoked := h.revoked
  unset := h.unset
  same := h.same.moveTo _ _

theorem Linear.reactivate {row row' : AssignmentRow} {es : List Entry} (h : Linear row es row')
    (hstatus : row'.status = .suspended) :
    Linear row (.moved .active none :: es) (moveTo row' .active none) where
  path := .reactivate (hstatus ▸ h.path)
  once := h.once
  revoked := h.revoked
  unset := h.unset
  same := h.same.moveTo _ _

theorem Linear.revoke {row row' : AssignmentRow} {es : List Entry} (h : Linear row es row')
    (hlive : row'.status ≠ .revoked) (audit : Audit) :
    Linear row (.moved .revoked (some audit) :: es) (moveTo row' .revoked (some audit)) := by
  have hnone := h.path.live hlive
  have hone : revocations (.moved .revoked (some audit) :: es) = [audit] :=
    congrArg (audit :: ·) hnone
  refine ⟨.revoke h.path hlive, by simp [hone], fun audit' haudit => ?_, fun hempty => ?_,
    h.same.moveTo _ _⟩
  · rw [hone, List.mem_singleton] at haudit
    rw [haudit]
    exact ⟨rfl, rfl, rfl⟩
  · simp [hone] at hempty

theorem linear_of_path {row : AssignmentRow} {es : List Entry} {r : Option AssignmentRow}
    (h : Path Transitions (some row) es r) : ∃ row', r = some row' ∧ Linear row es row' := by
  induction h with
  | nil =>
    refine ⟨row, rfl, .nil, by simp [revocations], by simp [revocations], fun _ => ?_, ?_⟩
    · exact ⟨rfl, rfl, rfl⟩
    · exact ⟨rfl, rfl, rfl, rfl, rfl, rfl, rfl, rfl, rfl, rfl⟩
  | cons _ hstep ih =>
    obtain ⟨row', rfl, hlinear⟩ := ih
    cases hstep with
    | suspend hstatus => exact ⟨_, rfl, hlinear.suspend hstatus⟩
    | reactivate hstatus => exact ⟨_, rfl, hlinear.reactivate hstatus⟩
    | revoke hlive => exact ⟨_, rfl, hlinear.revoke hlive _⟩

theorem path_of_revoked {row : AssignmentRow} (hrevoked : row.status = .revoked) {es : List Entry}
    {r : Option AssignmentRow} (h : Path Transitions (some row) es r) : r = some row := by
  induction h with
  | nil => rfl
  | cons _ hstep ih =>
    subst ih
    cases hstep with
    | suspend hstatus => simp [hrevoked] at hstatus
    | reactivate hstatus => simp [hrevoked] at hstatus
    | revoke hlive => exact absurd hrevoked hlive

theorem Leads.moved {s s' : AssignmentStatus} {es : List Entry} (h : Leads s es s') {e : Entry}
    (he : e ∈ es) : ∃ target changes, e = .moved target changes := by
  induction h with
  | nil => cases he
  | suspend _ ih | reactivate _ ih | revoke _ _ ih =>
    rcases List.mem_cons.mp he with rfl | he
    · exact ⟨_, _, rfl⟩
    · exact ih he

def Call.moves (pk : Nat) : Call → Bool
  | .grant .. => false
  | .suspend key _ _ | .reactivate key _ _ | .revoke key _ _ => key = some pk

theorem Matched.moves {calls : List Call} {done : List (Nat × Entry)} (h : Matched calls done)
    {pk : Nat} (hmoved : ∀ e ∈ changesOf pk done, ∃ target changes, e = .moved target changes) :
    List.Forall₂ (fun c e => Made c (pk, e)) (calls.filter (·.moves pk)) (changesOf pk done) := by
  induction h with
  | nil => exact .nil
  | @cons c e calls done hmade _ ih =>
    rw [changesOf_cons] at hmoved ⊢
    by_cases hkey : e.1 = pk
    · subst hkey
      simp only [if_true] at hmoved ⊢
      have hrest := ih fun e' he' => hmoved e' (List.mem_cons_of_mem _ he')
      obtain ⟨target, changes, hentry⟩ := hmoved e.2 (List.mem_cons_self ..)
      have hmoves : c.moves e.1 = true := by
        cases hmade with
        | grant => cases hentry
        | suspend | reactivate | revoke => exact decide_eq_true rfl
      rw [List.filter_cons_of_pos hmoves]
      exact .cons hmade hrest
    · simp only [hkey, if_false] at hmoved ⊢
      have hmoves : ¬ c.moves pk = true := by
        cases hmade with
        | grant => exact Bool.false_ne_true
        | suspend | reactivate | revoke => simpa [Call.moves] using hkey
      rw [List.filter_cons_of_neg hmoves]
      exact ih hmoved

/-- Who made the transition, and with what values. -/
inductive Caller (P : Pool) (pk : Nat) : AssignmentStatus → Option Audit → Prop
  | suspend {i : Nat} {client : Client} {rest : M Unit} {actor : Option User} {reason : String}
    (htask : P.tasks[i]? = some ⟨client, rest⟩)
    (hcall : client.code.Makes (.suspend (some pk) actor reason)) : Caller P pk .suspended none
  | reactivate {i : Nat} {client : Client} {rest : M Unit} {actor : Option User} {reason : String}
    (htask : P.tasks[i]? = some ⟨client, rest⟩)
    (hcall : client.code.Makes (.reactivate (some pk) actor reason)) : Caller P pk .active none
  | revoke {i : Nat} {client : Client} {rest : M Unit} {actor : Option User} {reason : String}
    {now : Time} (htask : P.tasks[i]? = some ⟨client, rest⟩)
    (hcall : client.code.Makes (.revoke (some pk) actor reason)) (hnow : Asked i P.history now) :
    Caller P pk .revoked (some ⟨actor.map User.pk, now, reason⟩)

variable {s : Store} {P Q : Pool}

theorem journal_act (o : Stmt) : s.db.journal <:+ (act o s).2.db.journal := by
  cases o with
  | leave => exact s.db.leave_journal _
  | update =>
    simp only [act]
    split
    · exact List.suffix_rfl
    · split
      · exact s.db.write_journal ..
      · exact List.suffix_rfl
  | insert =>
    simp only [act]
    split
    · exact List.suffix_rfl
    · exact s.db.write_journal ..
  | enter | undo | select | ask | effective | valid | send => exact List.suffix_rfl

theorem journal_grows (h : Steps platform Q P) : Q.world.db.journal <:+ P.world.db.journal := by
  induction h with
  | refl => exact List.suffix_rfl
  | tail _ hstep ih =>
    refine ih.trans ?_
    cases hstep with
    | drift hdrifts => exact hdrifts.1 ▸ List.suffix_rfl
    | start => exact List.suffix_rfl
    | act => exact journal_act _

theorem Idle.serial (hidle : Idle s) (hreached : Reachable platform s P) :
    Serial Transitions s.db.committed P.world.db ∧
      P.world.db.All (fun pk _ => pk < P.world.next ∧ True) (Told P.history) := by
  refine hreached.invariant platform_obeys
    (fun s' h => Serial Transitions s.db.committed s'.db ∧
      s'.db.All (fun pk _ => pk < s'.next ∧ True) (Told h)) ?_ ?_ ?_
  · refine ⟨.start hidle.levels hidle.journal, fun pk row hrow => ⟨hidle.keys pk row hrow, trivial⟩,
      fun c hc => ?_, fun t L hL => ?_, fun t L hL => ?_⟩
    · simp [hidle.journal] at hc
    · simp [hidle.levels t] at hL
    · simp [hidle.levels t] at hL
  · rintro w w' h ⟨hserial, hall⟩ ⟨hdb, hnext⟩
    rw [hdb, hnext]
    exact ⟨hserial, hall⟩
  · rintro R i t o - ⟨hserial, hall⟩ - hmay ⟨-, hready⟩
    exact ⟨serial_act hserial hall hmay hready,
      told_act (fun _ _ _ => trivial) (fun _ _ _ _ _ => trivial) hall hmay⟩

theorem Idle.caller (hidle : Idle s) (hreached : Reachable platform s P) {pk : Nat}
    {target : AssignmentStatus} {changes : Option Audit}
    (he : .moved target changes ∈ changesOf pk P.world.db.journal) : Caller P pk target changes := by
  obtain ⟨⟨key, e⟩, hc, hentry⟩ := List.mem_filterMap.mp he
  obtain ⟨rfl, rfl⟩ : key = pk ∧ e = .moved target changes := by
    split at hentry
    · exact ⟨‹_›, Option.some.inj hentry⟩
    · cases hentry
  obtain ⟨i, conn, allowedFrom, w, hmem⟩ := (hidle.serial hreached).2.journal _ hc
  obtain ⟨after, before, heq⟩ := List.append_of_mem hmem
  obtain ⟨⟨client, rest⟩, htask, hmay⟩ := hreached.allowed platform_obeys heq
  have hsub : Lib.Shared.own i before ⊆ P.history := fun e he =>
    heq ▸ List.mem_append_right _ (List.mem_cons_of_mem _ (Lib.Shared.mem_own.mp he).1)
  dsimp only at htask hmay
  cases hmay with
  | suspend hcall _ => exact .suspend htask hcall
  | reactivate hcall _ => exact .reactivate htask hcall
  | revoke hcall hnow _ =>
    obtain ⟨r, v, hask, hclock⟩ := hnow
    exact .revoke htask hcall ⟨r, v, hsub hask, hclock⟩

/-- What the committed transitions of an assignment come to. -/
structure Lifecycle (s : Store) (P : Pool) (pk : Nat) (row₀ row : AssignmentRow) : Prop where
  linear : Linear row₀ (changesOf pk P.world.db.journal) row
  called : ∀ target changes, .moved target changes ∈ changesOf pk P.world.db.journal →
    Caller P pk target changes
  calls : List.Forall₂ (fun c e => Made c (pk, e))
    ((committedCalls P.history).filter (·.moves pk)) (changesOf pk P.world.db.journal)
  ordered : ∀ Q, Steps platform Q P →
    changesOf pk Q.world.db.journal <:+ changesOf pk P.world.db.journal
  terminal : ∀ Q row', Reachable platform s Q → Steps platform Q P →
    Q.world.db.committed pk = some row' → row'.status = .revoked → row = row'

theorem transitions_linear (hidle : Idle s) (hreached : Reachable platform s P) {pk : Nat}
    {row₀ : AssignmentRow} (hrow₀ : s.db.committed pk = some row₀) :
    ∃ row, P.world.db.committed pk = some row ∧ Lifecycle s P pk row₀ row := by
  have hpath := (hidle.serial hreached).1.journal pk
  rw [hrow₀] at hpath
  obtain ⟨row, hrow, hlinear⟩ := linear_of_path hpath
  have hordered {Q : Pool} (hsteps : Steps platform Q P) :
      changesOf pk Q.world.db.journal <:+ changesOf pk P.world.db.journal := by
    obtain ⟨new, hnew⟩ := journal_grows hsteps
    exact ⟨changesOf pk new, by rw [← changesOf_append, hnew]⟩
  refine ⟨row, hrow, hlinear, fun _ _ he => hidle.caller hreached he,
    (hidle.accounted hreached).calls.moves fun _ he => hlinear.path.moved he,
    fun Q hsteps => hordered hsteps, fun Q row' hQ hsteps hrow' hrevoked => ?_⟩
  obtain ⟨new, hnew⟩ := hordered hsteps
  have hold := (hidle.serial hQ).1.journal pk
  rw [hrow₀, hrow'] at hold
  rw [← hnew, hrow] at hpath
  obtain ⟨mid, hmid, hlater⟩ := hpath.append_inv
  obtain rfl := Path.unique Transitions.unique hmid hold
  exact Option.some.inj (path_of_revoked hrevoked hlater)

namespace Crossing

open Lib.Shared (Move Pool.play_then Pool.play_admitted Pool.admitted_of_allPass)

def admin : User := { pk := 7, isSuperuser := true }

def row : AssignmentRow :=
  { id := 1, user := 1, role := 1, level := some "REGIONAL", scopeCt := some "testapp.Node",
    scopeId := some "1" }

def store : Store where
  db := { committed := fun pk => if pk = 1 then some row else none }
  next := 2
  site := Testapp.sparse
  receivers := quiet

def suspending : Client := ⟨0, .call (.suspend (some 1) (some admin) "") fun _ => .done⟩
def revoking : Client := ⟨1, .call (.revoke (some 1) (some admin) "left") fun _ => .done⟩

def start : Pool := { world := store }

def authorizing : List (Move Client) :=
  [.start suspending, .start revoking, .act 0, .act 0, .act 0, .act 1, .act 1, .act 1, .act 1]
def returning : List (Move Client) := [.act 0, .act 0]

def authorized : Pool := (start.play platform authorizing).getD start
def suspended : Pool := (authorized.move platform (.act 0)).getD authorized
def returned : Pool := (suspended.play platform returning).getD suspended
def revoked : Pool := (returned.move platform (.act 1)).getD returned
def crossed : Pool := (revoked.play platform [.act 1, .act 1]).getD revoked

theorem idle : Idle store where
  levels _ := rfl
  journal := rfl
  keys pk row hrow := by
    simp only [store] at hrow ⊢
    split at hrow
    · lia
    · cases hrow

theorem untouched_elsewhere {d : Lib.Txn.Db AssignmentRow Entry} {conn : Nat} (conn' : Nat)
    (hlevels : ∀ t ≠ conn, t ≠ conn' → d.levels t = [])
    (hrows : ∀ L ∈ d.levels conn', ∀ pk, L.rows pk = none) :
    ∀ t ≠ conn, ∀ L ∈ d.levels t, ∀ pk, L.rows pk = none := by
  intro t ht L hL
  by_cases hconn : t = conn'
  · exact hrows L (hconn ▸ hL)
  · rw [hlevels t ht hconn] at hL
    cases hL

theorem crossed_reached : Reachable platform store crossed := by
  have hauthorizing : start.play platform authorizing = some authorized := rfl
  have hreturning : suspended.play platform returning = some returned := rfl
  have hclosing : revoked.play platform [.act 1, .act 1] = some crossed := rfl
  refine ((Pool.play_then prompt_admits (by decide +kernel) hauthorizing (m := .act 0) ?_ rfl).trans
    (Pool.play_then prompt_admits (by decide +kernel) hreturning (m := .act 1) ?_ rfl)).trans
    (Pool.play_admitted (Pool.admitted_of_allPass prompt_admits (by decide +kernel)) hclosing)
  · refine ⟨rfl, .inl fun t ht L hL =>
      untouched_elsewhere 1 (fun t ht ht' => ?_) (fun L hL pk => ?_) t ht L hL 1⟩
    · match t with
      | t + 2 => rfl
    · cases List.mem_singleton.mp hL
      rfl
  · refine ⟨rfl, .inl fun t ht L hL =>
      untouched_elsewhere 0 (fun t ht ht' => ?_) (fun L hL pk => ?_) t ht L hL 1⟩
    · match t with
      | t + 2 => rfl
    · cases hL

theorem crossed_linear : ∃ row', crossed.world.db.committed 1 = some row' ∧
    Lifecycle store crossed 1 row row' :=
  transitions_linear idle crossed_reached rfl

end Crossing

end ScopedAccess.Concurrent
