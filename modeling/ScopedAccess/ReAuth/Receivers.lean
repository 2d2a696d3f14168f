import ScopedAccess.ReAuth.Keys

/-! The receivers that close a user's tokens when the password changes
(`reauth/receivers.py`), among the other receivers of the same signals: these may set
the password, save the instance again, open transactions, raise and catch. -/

namespace ScopedAccess.ReAuth.Receivers

/-- What happened to the row of the user and to its tokens; the newest event comes first. -/
inductive Event
  | remembered (stored : Option String) (password : String)
  | wrote (stored : Option String) (password : String)
  | invalidated
  | passed

def Event.changes : Event → Bool
  | .wrote stored password => stored.any (· ≠ password)
  | _ => false

def Event.isWrite : Event → Bool
  | .wrote .. => true
  | _ => false

inductive Phase
  | opened
  | remembered
  | written
  | posted
  deriving DecidableEq

inductive Frame
  | save (updateFields : Option (List String)) (phase : Phase) (began : Option String)
  | atomic (stored : Option String) (log : List Event)

/-- The instance, its row and the calls under way, the innermost first. -/
structure State where
  pk : Option Nat
  password : String
  /-- `_scoped_access_password_changed` -/
  changed : Option Bool := none
  stored : Option String
  frames : List Frame := []
  raising : Bool := false
  log : List Event := []

/-- `update_fields is None or "password" in update_fields` -/
def carries (updateFields : Option (List String)) : Bool :=
  updateFields.all (·.contains "password")

def rememberPasswordChange (raw : Bool) (updateFields : Option (List String)) (s : State) : State :=
  if raw || s.pk.isNone || !carries updateFields then s
  else { s with
    changed := some (s.stored.any (· ≠ s.password))
    log := .remembered s.stored s.password :: s.log }

def invalidateAfterPasswordChange (raw : Bool) (s : State) : State :=
  if raw then s
  else
    let log := if s.changed = some true then .invalidated :: s.log else s.log
    { s with changed := none, log := .passed :: log }

def saveTable (key : Nat) (updateFields : Option (List String)) (s : State) : State :=
  let pk := s.pk.or (some key)
  if carries updateFields then
    { s with pk, stored := some s.password, log := .wrote s.stored s.password :: s.log }
  else { s with pk }

inductive Move
  | assign (password : String)
  | save (updateFields : Option (List String))
  | remember
  | write (key : Nat)
  | invalidate
  | return
  | enterAtomic
  | leaveAtomic
  | raise
  | unwind
  | catch

namespace State

variable (s : State)

/-- A rollback undoes the writes, but not what was done to the cache. -/
def rollback (stored : Option String) (log : List Event) : State :=
  { s with
    stored
    log := (s.log.take (s.log.length - log.length)).filter (!·.isWrite) ++ log }

def step (s : State) : Move → Option State
  | .raise => if s.raising then none else some { s with raising := true }
  | .catch => if s.raising then some { s with raising := false } else none
  | .unwind =>
    match s.raising, s.frames with
    | true, .save .. :: frames => some { s with frames }
    | true, .atomic stored log :: frames => some { s.rollback stored log with frames }
    | _, _ => none
  | .assign password => if s.raising then none else some { s with password }
  | .save updateFields =>
    if s.raising then none
    -- nothing to save, and no signal either
    else if updateFields = some [] then some s
    else some { s with frames := .save updateFields .opened s.stored :: s.frames }
  | .remember =>
    match s.raising, s.frames with
    | false, .save updateFields .opened began :: frames =>
      some { rememberPasswordChange false updateFields s with
        frames := .save updateFields .remembered began :: frames }
    | _, _ => none
  | .write key =>
    match s.raising, s.frames with
    | false, .save updateFields .remembered began :: frames =>
      -- an update that matches no row is an error
      if s.stored.isNone && updateFields.isSome then none
      else some { saveTable key updateFields s with
        frames := .save updateFields .written began :: frames }
    | _, _ => none
  | .invalidate =>
    match s.raising, s.frames with
    | false, .save updateFields .written began :: frames =>
      some { invalidateAfterPasswordChange false s with
        frames := .save updateFields .posted began :: frames }
    | _, _ => none
  | .return =>
    match s.raising, s.frames with
    | false, .save _ .posted _ :: frames => some { s with frames }
    | _, _ => none
  | .enterAtomic =>
    if s.raising then none
    else some { s with frames := .atomic s.stored s.log :: s.frames }
  | .leaveAtomic =>
    match s.raising, s.frames with
    | false, .atomic .. :: frames => some { s with frames }
    | _, _ => none

def play (s : State) : List Move → Option State
  | [] => some s
  | m :: ms => (s.step m).bind (·.play ms)

def began : Option String :=
  match s.frames with
  | .save _ _ began :: _ => began
  | _ => none

end State

/-- The password was written by a save and not changed since, and
`invalidate_all_for_user` was called since. -/
def Followed (password : String) (log : List Event) : Prop :=
  ∃ later old earlier, log = later ++ .wrote (some old) password :: earlier ∧ old ≠ password ∧
    (∀ e ∈ later, e.changes = false) ∧ .invalidated ∈ later

/-- If a save that returns here has changed the password, the tokens were closed. -/
def State.Closes (s : State) : Prop :=
  ∀ s' old new, s.step .return = some s' → s.began = some old → s.stored = some new →
    old ≠ new → Followed new s.log

def noted : List Event → Bool
  | [] => false
  | .remembered stored password :: _ => stored.any (· ≠ password)
  | .passed :: _ => false
  | _ :: es => noted es

def awaiting : List Event → Bool
  | [] => false
  | .invalidated :: _ => false
  | e :: es => e.changes || awaiting es

namespace State

variable (s : State)

def posted : Bool :=
  match s.frames.find? fun | .save .. => true | .atomic .. => false with
  | some (.save _ phase _) => phase = .posted
  | _ => false

def differs : Bool := s.stored.any (· ≠ s.password)

def writes : Bool :=
  match s.frames with
  | .save updateFields .. :: _ => carries updateFields
  | _ => false

/-- A change is written when the receiver has noted it; a change that still waits is not
forgotten for none; an exception that left a change waiting is caught before the
post-save receiver. -/
def meets : Move → Bool
  | .write _ => !(s.writes && s.differs) || noted s.log
  | .remember => !(s.writes && awaiting s.log) || s.differs
  | .catch => !(awaiting s.log && s.posted)
  | _ => true

def careful (s : State) : List Move → Bool
  | [] => true
  | m :: ms => s.meets m && (s.step m).all (·.careful ms)

end State

theorem noted_undone (since log : List Event) :
    noted (since.filter (!·.isWrite) ++ log) = noted (since ++ log) := by
  induction since with
  | nil => rfl
  | cons e since ih =>
    cases e with
    | remembered | passed => rfl
    | wrote | invalidated => exact ih

theorem awaiting_undone {since log : List Event}
    (h : awaiting (since.filter (!·.isWrite) ++ log) = true) : awaiting (since ++ log) = true := by
  induction since with
  | nil => exact h
  | cons e since ih =>
    cases e with
    | remembered | passed => exact ih h
    | wrote stored password => exact Bool.or_eq_true_iff.mpr (.inr (ih h))
    | invalidated => cases h

theorem invalidated_of_not_awaiting {later earlier : List Event} {e : Event}
    (he : e.changes = true) (h : awaiting (later ++ e :: earlier) = false) :
    .invalidated ∈ later := by
  induction later with
  | nil =>
    cases e with
    | wrote => simp [awaiting, he] at h
    | remembered | invalidated | passed => cases he
  | cons e' later ih =>
    cases e' with
    | invalidated => exact List.mem_cons_self ..
    | remembered | passed => exact List.mem_cons_of_mem _ (ih h)
    | wrote => exact List.mem_cons_of_mem _ (ih (Bool.or_eq_false_iff.mp h).2)

structure Explained (began stored : Option String) (log : List Event) : Prop where
  kept : began.isSome = true → stored.isSome = true
  written : ∀ old new, began = some old → stored = some new → old ≠ new →
    ∃ later old' earlier, log = later ++ .wrote (some old') new :: earlier ∧ old' ≠ new ∧
      ∀ e ∈ later, e.changes = false

variable {began stored : Option String} {log : List Event}

theorem Explained.refl (stored : Option String) (log : List Event) :
    Explained stored stored log where
  kept := id
  written _ _ hold hnew hne := absurd (Option.some.inj (hold.symm.trans hnew)) hne

theorem Explained.append (h : Explained began stored log) (es : List Event)
    (hes : ∀ e ∈ es, e.changes = false) : Explained began stored (es ++ log) where
  kept := h.kept
  written old new hold hnew hne := by
    obtain ⟨later, old', earlier, rfl, hold', hlater⟩ := h.written old new hold hnew hne
    refine ⟨es ++ later, old', earlier, (List.append_assoc ..).symm, hold', fun e he => ?_⟩
    exact (List.mem_append.mp he).elim (hes e) (hlater e)

theorem Explained.write (h : Explained began stored log) (password : String) :
    Explained began (some password) (.wrote stored password :: log) where
  kept _ := rfl
  written old new hold hnew hne := by
    obtain rfl := Option.some.inj hnew
    obtain ⟨old', rfl⟩ := Option.isSome_iff_exists.mp (h.kept (by simp [hold]))
    by_cases hsame : old' = password
    · subst hsame
      have hquiet : ∀ e ∈ [Event.wrote (some old') old'], e.changes = false := by
        simp [Event.changes]
      exact (h.append _ hquiet).written old old' hold rfl hne
    · exact ⟨[], old', log, rfl, hsame, by simp⟩

def Traced : List Frame → Option String → List Event → Prop
  | [], _, _ => True
  | .save _ _ began :: frames, stored, log => Explained began stored log ∧ Traced frames stored log
  | .atomic stored' log' :: frames, stored, log =>
    log' <:+ log ∧ Traced frames stored log ∧ Traced frames stored' log'

theorem Traced.append {frames : List Frame} (h : Traced frames stored log) (es : List Event)
    (hes : ∀ e ∈ es, e.changes = false) : Traced frames stored (es ++ log) := by
  induction frames with
  | nil => trivial
  | cons f frames ih =>
    cases f with
    | save => exact ⟨h.1.append es hes, ih h.2⟩
    | atomic => exact ⟨h.1.trans (List.suffix_append ..), ih h.2.1, h.2.2⟩

theorem Traced.write {frames : List Frame} (h : Traced frames stored log) (password : String) :
    Traced frames (some password) (.wrote stored password :: log) := by
  induction frames with
  | nil => trivial
  | cons f frames ih =>
    cases f with
    | save => exact ⟨h.1.write password, ih h.2⟩
    | atomic => exact ⟨h.1.trans (List.suffix_cons ..), ih h.2.1, h.2.2⟩

namespace State

variable {s s' : State}

/-- A change that waits is noted on the instance, and still has its post-save receiver
ahead unless an exception is under way. -/
structure ChangesNoted (s : State) : Prop where
  noted_iff : noted s.log = true ↔ s.changed = some true
  waits : awaiting s.log = true → noted s.log = true
  ahead : s.raising = false → awaiting s.log = true → s.posted = false
  traced : Traced s.frames s.stored s.log

theorem rollback_log {log : List Event} (h : log <:+ s.log) (stored : Option String) :
    ∃ since, s.log = since ++ log ∧
      (s.rollback stored log).log = since.filter (!·.isWrite) ++ log := by
  obtain ⟨since, hlog⟩ := h
  refine ⟨since, hlog.symm, ?_⟩
  simp [rollback, ← hlog]

theorem ChangesNoted.rollback {frames : List Frame} {stored : Option String} {log : List Event}
    (h : s.ChangesNoted) (hraising : s.raising = true)
    (hframes : s.frames = .atomic stored log :: frames) :
    ChangesNoted { s.rollback stored log with frames } := by
  obtain ⟨hsuffix, -, htraced⟩ : Traced (.atomic stored log :: frames) s.stored s.log :=
    hframes ▸ h.traced
  obtain ⟨since, hlog, hrolled⟩ := rollback_log hsuffix stored
  have hnoted : noted (s.rollback stored log).log = noted s.log := by
    rw [hrolled, hlog, noted_undone]
  refine ⟨?_, fun hwaits => ?_, fun hquiet => ?_, ?_⟩
  · rw [hnoted]
    exact h.noted_iff
  · rw [hnoted]
    rw [hrolled] at hwaits
    exact h.waits (hlog ▸ awaiting_undone hwaits)
  · cases hraising.symm.trans hquiet
  · show Traced frames stored (s.rollback stored log).log
    rw [hrolled]
    refine htraced.append _ fun e he => ?_
    have hquiet := (List.mem_filter.mp he).2
    cases e <;> first | rfl | cases hquiet

theorem ChangesNoted.remember {updateFields : Option (List String)} {began : Option String}
    {frames : List Frame} (h : s.ChangesNoted)
    (hframes : s.frames = .save updateFields .opened began :: frames)
    (hmeets : s.meets .remember = true) :
    ChangesNoted { rememberPasswordChange false updateFields s with
      frames := .save updateFields .remembered began :: frames } := by
  obtain ⟨hexplained, htraced⟩ : Traced (.save updateFields .opened began :: frames) s.stored s.log :=
    hframes ▸ h.traced
  unfold rememberPasswordChange
  split
  · exact ⟨h.noted_iff, h.waits, fun _ _ => rfl, hexplained, htraced⟩
  · rename_i hcarries
    have hwrites : s.writes = true := by
      simp only [State.writes, hframes]
      simp only [Bool.false_or, Bool.or_eq_true, Bool.not_eq_true', not_or,
        Bool.not_eq_false] at hcarries
      exact hcarries.2
    refine ⟨?_, fun hwaits => ?_, fun _ _ => rfl, ?_, ?_⟩
    · simp [noted]
    · have hdiffers : s.differs = true := by
        simpa [meets, hwrites, show awaiting s.log = true from hwaits] using hmeets
      exact hdiffers
    · exact hexplained.append [_] (by simp [Event.changes])
    · exact htraced.append [_] (by simp [Event.changes])

theorem ChangesNoted.write {updateFields : Option (List String)} {began : Option String}
    {frames : List Frame} (h : s.ChangesNoted)
    (hframes : s.frames = .save updateFields .remembered began :: frames) (key : Nat)
    (hmeets : s.meets (.write key) = true) :
    ChangesNoted { saveTable key updateFields s with
      frames := .save updateFields .written began :: frames } := by
  obtain ⟨hexplained, htraced⟩ :
      Traced (.save updateFields .remembered began :: frames) s.stored s.log := hframes ▸ h.traced
  unfold saveTable
  cases hcarries : carries updateFields with
  | false => exact ⟨h.noted_iff, h.waits, fun _ _ => rfl, hexplained, htraced⟩
  | true =>
    have hwrites : s.writes = true := by simpa [State.writes, hframes] using hcarries
    refine ⟨h.noted_iff, fun hwaits => ?_, fun _ _ => rfl, hexplained.write _, htraced.write _⟩
    cases hdiffers : s.differs with
    | true =>
      have hnoted : noted s.log = true := by simpa [meets, hwrites, hdiffers] using hmeets
      exact hnoted
    | false =>
      rcases Bool.or_eq_true_iff.mp hwaits with hchanges | hwaits
      · exact absurd hchanges (by simpa [Event.changes, differs] using hdiffers)
      · exact h.waits hwaits

theorem ChangesNoted.invalidate {updateFields : Option (List String)} {began : Option String}
    {frames : List Frame} (h : s.ChangesNoted)
    (hframes : s.frames = .save updateFields .written began :: frames) :
    ChangesNoted { invalidateAfterPasswordChange false s with
      frames := .save updateFields .posted began :: frames } := by
  obtain ⟨hexplained, htraced⟩ :
      Traced (.save updateFields .written began :: frames) s.stored s.log := hframes ▸ h.traced
  unfold invalidateAfterPasswordChange
  by_cases hchanged : s.changed = some true
  · simp only [Bool.false_eq_true, if_false, hchanged, if_true]
    refine ⟨by simp [noted], fun hwaits => ?_, fun _ hwaits => ?_, ?_⟩
    · cases hwaits
    · cases hwaits
    · exact ⟨hexplained.append [_, _] (by simp [Event.changes]),
        htraced.append [_, _] (by simp [Event.changes])⟩
  · simp only [Bool.false_eq_true, if_false, hchanged]
    have hquiet : awaiting s.log = true → False := fun hwaits =>
      hchanged (h.noted_iff.mp (h.waits hwaits))
    refine ⟨by simp [noted], fun hwaits => (hquiet hwaits).elim,
      fun _ hwaits => (hquiet hwaits).elim, ?_⟩
    exact ⟨hexplained.append [_] (by simp [Event.changes]),
      htraced.append [_] (by simp [Event.changes])⟩

theorem ChangesNoted.return {updateFields : Option (List String)} {began : Option String}
    {frames : List Frame} (h : s.ChangesNoted) (hraising : s.raising = false)
    (hframes : s.frames = .save updateFields .posted began :: frames) :
    ChangesNoted { s with frames } := by
  obtain ⟨-, htraced⟩ : Traced (.save updateFields .posted began :: frames) s.stored s.log :=
    hframes ▸ h.traced
  refine ⟨h.noted_iff, h.waits, fun _ hwaits => ?_, htraced⟩
  simpa [State.posted, hframes] using h.ahead hraising hwaits

theorem ChangesNoted.step (h : s.ChangesNoted) {m : Move} (hmeets : s.meets m = true)
    (hstep : s.step m = some s') : s'.ChangesNoted := by
  cases m with
  | assign password =>
    simp only [State.step] at hstep
    split at hstep
    · cases hstep
    · obtain rfl := Option.some.inj hstep
      exact ⟨h.noted_iff, h.waits, h.ahead, h.traced⟩
  | save updateFields =>
    simp only [State.step] at hstep
    split at hstep
    · cases hstep
    · split at hstep
      · obtain rfl := Option.some.inj hstep
        exact h
      · obtain rfl := Option.some.inj hstep
        exact ⟨h.noted_iff, h.waits, fun _ _ => rfl, .refl _ _, h.traced⟩
  | remember =>
    simp only [State.step] at hstep
    split at hstep
    · rename_i hraising hframes
      obtain rfl := Option.some.inj hstep
      exact h.remember hframes hmeets
    · cases hstep
  | write key =>
    simp only [State.step] at hstep
    split at hstep
    · rename_i hraising hframes
      split at hstep
      · cases hstep
      · obtain rfl := Option.some.inj hstep
        exact h.write hframes key hmeets
    · cases hstep
  | invalidate =>
    simp only [State.step] at hstep
    split at hstep
    · rename_i hraising hframes
      obtain rfl := Option.some.inj hstep
      exact h.invalidate hframes
    · cases hstep
  | «return» =>
    simp only [State.step] at hstep
    split at hstep
    · rename_i hraising hframes
      obtain rfl := Option.some.inj hstep
      exact h.return hraising hframes
    · cases hstep
  | enterAtomic =>
    simp only [State.step] at hstep
    split at hstep
    · cases hstep
    · obtain rfl := Option.some.inj hstep
      exact ⟨h.noted_iff, h.waits, h.ahead, List.suffix_rfl, h.traced, h.traced⟩
  | leaveAtomic =>
    simp only [State.step] at hstep
    split at hstep
    · rename_i hraising hframes
      obtain rfl := Option.some.inj hstep
      have htraced := h.traced
      have hahead := h.ahead
      simp only [State.posted, hframes] at hahead
      rw [hframes] at htraced
      exact ⟨h.noted_iff, h.waits, hahead, htraced.2.1⟩
    · cases hstep
  | raise =>
    simp only [State.step] at hstep
    split at hstep
    · cases hstep
    · obtain rfl := Option.some.inj hstep
      refine ⟨h.noted_iff, h.waits, fun hraising => ?_, h.traced⟩
      cases hraising
  | unwind =>
    simp only [State.step] at hstep
    split at hstep
    · rename_i hraising hframes
      obtain rfl := Option.some.inj hstep
      have htraced := h.traced
      rw [hframes] at htraced
      refine ⟨h.noted_iff, h.waits, fun hquiet => ?_, htraced.2⟩
      cases hraising.symm.trans hquiet
    · rename_i hraising hframes
      obtain rfl := Option.some.inj hstep
      exact h.rollback hraising hframes
    · cases hstep
  | «catch» =>
    simp only [State.step] at hstep
    split at hstep
    · obtain rfl := Option.some.inj hstep
      refine ⟨h.noted_iff, h.waits, fun _ hwaits => ?_, h.traced⟩
      have hposted : s.posted = false := by
        simpa [meets, show awaiting s.log = true from hwaits] using hmeets
      exact hposted
    · cases hstep

theorem ChangesNoted.play (h : s.ChangesNoted) {ms : List Move} (hcareful : s.careful ms = true)
    (hplay : s.play ms = some s') : s'.ChangesNoted := by
  induction ms generalizing s with
  | nil =>
    obtain rfl := Option.some.inj hplay
    exact h
  | cons m ms ih =>
    obtain ⟨s₁, hstep, hrest⟩ := Option.bind_eq_some_iff.mp hplay
    obtain ⟨hmeets, hall⟩ := Bool.and_eq_true_iff.mp hcareful
    rw [hstep] at hall
    exact ih (h.step hmeets hstep) hall hrest

theorem ChangesNoted.closes (h : s.ChangesNoted) : s.Closes := by
  intro s' old new hstep hold hnew hne
  simp only [State.step] at hstep
  split at hstep
  · rename_i updateFields began frames hraising hframes
    have htraced := h.traced
    rw [hframes] at htraced
    have hbegan : s.began = began := by rw [State.began, hframes]
    have hquiet : awaiting s.log = false := by
      by_contra hwaits
      have hposted := h.ahead hraising (by simpa using hwaits)
      simp [State.posted, hframes] at hposted
    obtain ⟨later, old', earlier, hlog, hold', hlater⟩ :=
      htraced.1.written old new (hbegan.symm.trans hold) hnew hne
    rw [hlog] at hquiet
    exact ⟨later, old', earlier, hlog, hold', hlater,
      invalidated_of_not_awaiting (by simpa [Event.changes] using hold') hquiet⟩
  · cases hstep

structure Fresh (s : State) : Prop where
  changed : s.changed = none
  frames : s.frames = []
  log : s.log = []

theorem Fresh.changesNoted (h : s.Fresh) : s.ChangesNoted where
  noted_iff := by simp [h.log, h.changed, noted]
  waits hwaits := by simp [h.log, awaiting] at hwaits
  ahead _ hwaits := by simp [h.log, awaiting] at hwaits
  traced := by
    rw [h.frames]
    trivial

end State

/-- A save that returns with another password has closed the tokens, where the other
receivers leave the two receivers what they need. -/
theorem careful_closes {s s' : State} (hfresh : s.Fresh) {ms : List Move}
    (hplay : s.play ms = some s') (hcareful : s.careful ms = true) : s'.Closes :=
  (hfresh.changesNoted.play hcareful hplay).closes

namespace Profile

def user : State := { pk := some 1, password := "old", stored := some "old" }

def after (ms : List Move) : State := (user.play ms).getD user

def flat : List Move :=
  [.assign "new", .save (some ["password"]), .remember, .write 1, .invalidate]

theorem flat_closes : ((after flat).step .return).isSome = true ∧ (after flat).Closes := by
  have hplay : user.play flat = some (after flat) := rfl
  exact ⟨rfl, careful_closes ⟨rfl, rfl, rfl⟩ hplay rfl⟩

def nested : List Move :=
  [.assign "new", .save none, .remember, .write 1, .save none, .remember, .write 1, .invalidate,
    .return, .invalidate]

theorem nested_open : user.play nested = some (after nested) ∧ ¬ (after nested).Closes := by
  refine ⟨rfl, fun h => ?_⟩
  obtain ⟨later, old, earlier, hlog, -, -, hmem⟩ := h _ "old" "new" rfl rfl rfl (by decide)
  have hcalled : Event.invalidated ∈ (after nested).log := hlog ▸ List.mem_append_left _ hmem
  have hnone : (after nested).log.all fun | .invalidated => false | _ => true := rfl
  cases List.all_eq_true.mp hnone _ hcalled

end Profile

end ScopedAccess.ReAuth.Receivers
