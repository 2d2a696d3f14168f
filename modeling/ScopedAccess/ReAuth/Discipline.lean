import ScopedAccess.ReAuth.Service

namespace ScopedAccess.ReAuth

open Lib.Shared (Prog Event History Obeys)

/-- A password change: the row is written in a transaction, the receiver rotates
the generation, the transaction commits. -/
def changePassword (user : User) (encoded : String) : M Unit := do
  perform (.writePassword user.pk encoded)
  invalidateAllForUser user
  perform (.commit user.pk encoded)

inductive Call
  | issue (user : User) (verifier : String) (at_ : Option Time) (credentials : Credentials)
  | consume (token : Option String) (user : User) (at_ : Option Time) (fresh : Bool)
  | invalidateAllForUser (user : User)
  | changePassword (user : User) (encoded : String)

abbrev Call.Ans : Call → Type
  | .issue .. => Option String
  | .consume .. => Bool
  | .invalidateAllForUser _ | .changePassword .. => Unit

def Call.body (cfg : Settings) : (c : Call) → M c.Ans
  | .issue user verifier at_ credentials =>
    ReAuth.issue cfg user verifier at_ credentials
  | .consume token user at_ fresh => ReAuth.consume cfg token user at_ fresh
  | .invalidateAllForUser user => ReAuth.invalidateAllForUser user
  | .changePassword user encoded => ReAuth.changePassword user encoded

abbrev Trace := History sig Store

section Evidence

variable (i : Nat) (h : Trace)

def Did (o : Op) (r : o.Res) : Prop := ∃ w, (⟨i, o, r, w⟩ : Event sig Store) ∈ h

def Drew (value : String) : Prop := ∃ nbytes, Did i h (.tokenUrlsafe nbytes) value

def Timed (at_ : Option Time) (t : Time) : Prop := at_ = some t ∨ at_ = none ∧ Did i h .now t

inductive Generation (pk : Nat) (g : String) : Prop
  | read {value : Value} (hread : Did i h (.get (generationPrefix ++ str pk)) (some value))
      (hg : g = value.str)
  | drawn {candidate : String} {added : Bool}
      (hadd : Did i h (.add (generationPrefix ++ str pk) (.text candidate) none) added)
      (hdrew : Drew i h g)

structure Checked (data : Payload) (user : User) (at_ : Option Time) : Prop where
  owner : data.userId = str user.pk
  unexpired : ∃ t, Timed i h at_ t ∧ t < data.expires
  generation : ∃ g, data.generation = some g ∧ Generation i h user.pk g

end Evidence

def Op.isSet : Op → Bool
  | .set .. => true
  | _ => false

def Later (h h' : Trace) : Prop := ∃ es, h' = es ++ h ∧ ∀ e ∈ es, e.op.isSet = false

variable {i : Nat} {h h' h'' : Trace}

theorem Later.refl (h : Trace) : Later h h := ⟨[], rfl, by simp⟩

theorem Later.cons (hl : Later h h') {e : Event sig Store} (he : e.op.isSet = false) :
    Later h (e :: h') := by
  obtain ⟨es, rfl, hes⟩ := hl
  exact ⟨e :: es, rfl, by simpa [he] using hes⟩

theorem Later.trans (hl : Later h h') (hl' : Later h' h'') : Later h h'' := by
  obtain ⟨es, rfl, hes⟩ := hl
  obtain ⟨es', rfl, hes'⟩ := hl'
  refine ⟨es' ++ es, (List.append_assoc _ _ _).symm, fun e he => ?_⟩
  exact (List.mem_append.mp he).elim (hes' e) (hes e)

theorem Later.mem (hl : Later h h') {e : Event sig Store} (he : e ∈ h) : e ∈ h' := by
  obtain ⟨es, rfl, -⟩ := hl
  exact List.mem_append_right es he

theorem Later.unset (hl : Later h h') (hunset : ∀ e ∈ h, e.op.isSet = false) :
    ∀ e ∈ h', e.op.isSet = false := by
  obtain ⟨es, rfl, hes⟩ := hl
  exact fun e he => (List.mem_append.mp he).elim (hes e) (hunset e)

theorem Did.mono {o : Op} {r : o.Res} (hd : Did i h o r) (hsub : h ⊆ h') : Did i h' o r :=
  hd.imp fun _ hw => hsub hw

theorem Drew.mono {value : String} (hd : Drew i h value) (hsub : h ⊆ h') : Drew i h' value :=
  hd.imp fun _ hd => hd.mono hsub

theorem Timed.mono {at_ : Option Time} {t : Time} (ht : Timed i h at_ t) (hsub : h ⊆ h') :
    Timed i h' at_ t := ht.imp_right fun ⟨hnone, hd⟩ => ⟨hnone, hd.mono hsub⟩

theorem Generation.mono {pk : Nat} {g : String} (hg : Generation i h pk g) (hsub : h ⊆ h') :
    Generation i h' pk g := by
  cases hg with
  | read hread hg => exact .read (hread.mono hsub) hg
  | drawn hadd hdrew => exact .drawn (hadd.mono hsub) (hdrew.mono hsub)

theorem Checked.mono {data : Payload} {user : User} {at_ : Option Time}
    (hc : Checked i h data user at_) (hsub : h ⊆ h') : Checked i h' data user at_ where
  owner := hc.owner
  unexpired := hc.unexpired.imp fun _ ht => ⟨ht.1.mono hsub, ht.2⟩
  generation := hc.generation.imp fun _ hg => ⟨hg.1, hg.2.mono hsub⟩

theorem Later.subset (hl : Later h h') : h ⊆ h' := fun _ he => hl.mem he

def Call.rotates : Call → Option User
  | .invalidateAllForUser user | .changePassword user _ => some user
  | .issue .. | .consume .. => none

def Ungenerated (pk : Nat) (h : Trace) : Prop :=
  ∀ e ∈ h, ∀ value timeout, e.op ≠ .add (generationPrefix ++ str pk) value timeout

def Unchecked (token : String) (h : Trace) : Prop :=
  ∀ e ∈ h, e.op ≠ .now ∧ ∀ key, e.op = .get key → key = tokenPrefix ++ token

inductive May (cfg : Settings) (i : Nat) : Call → Trace → Op → Prop
  | now {c : Call} {h : Trace} : May cfg i c h .now
  | send {c : Call} {h : Trace} {notice : Notice} {pk : Nat} : May cfg i c h (.send notice pk)
  | issueDraw {user verifier at_ credentials h nbytes} :
      May cfg i (.issue user verifier at_ credentials) h (.tokenUrlsafe nbytes)
  | consumeDraw {token user at_ fresh h data nbytes}
      (hlook : Did i h (.get (tokenPrefix ++ token)) (some (.payload data))) :
      May cfg i (.consume (some token) user at_ fresh) h (.tokenUrlsafe nbytes)
  | rotateDraw {c user h nbytes} (hc : c.rotates = some user) :
      May cfg i c h (.tokenUrlsafe nbytes)
  | verify {user verifier at_ credentials} :
      May cfg i (.issue user verifier at_ credentials) [] (.verify verifier user.pk credentials)
  | issueGet {user verifier at_ credentials h}
      (hproof : Did i h (.verify verifier user.pk credentials) true) :
      May cfg i (.issue user verifier at_ credentials) h
        (.get (generationPrefix ++ str user.pk))
  | issueAdd {user verifier at_ credentials h g} (hnew : Ungenerated user.pk h)
      (hdrew : Drew i h g) :
      May cfg i (.issue user verifier at_ credentials) h
        (.add (generationPrefix ++ str user.pk) (.text g) none)
  | mint {user verifier at_ credentials h token g t}
      (hproof : Did i h (.verify verifier user.pk credentials) true) (htime : Timed i h at_ t)
      (hdrew : Drew i h token) (hg : Generation i h user.pk g)
      (hfirst : ∀ e ∈ h, e.op.isSet = false) :
      May cfg i (.issue user verifier at_ credentials) h
        (.set (tokenPrefix ++ token) (.payload ⟨str user.pk, some g, t + cfg.ttl⟩)
          (some (cfg.ttl * 2)))
  | look {token user at_ fresh} :
      May cfg i (.consume (some token) user at_ fresh) [] (.get (tokenPrefix ++ token))
  | consumeGet {token user at_ fresh h} :
      May cfg i (.consume (some token) user at_ fresh) h (.get (generationPrefix ++ str user.pk))
  | consumeAdd {token user at_ fresh h data g}
      (hlook : Did i h (.get (tokenPrefix ++ token)) (some (.payload data)))
      (hid : data.userId = str user.pk) (hnew : Ungenerated user.pk h) (hdrew : Drew i h g) :
      May cfg i (.consume (some token) user at_ fresh) h
        (.add (generationPrefix ++ str user.pk) (.text g) none)
  | mark {token user at_ fresh h data} (hwindow : cfg.window = true)
      (hread : Did i h (.get (tokenPrefix ++ token)) (some (.payload data)))
      (hchecked : Checked i h data user at_) :
      May cfg i (.consume (some token) user at_ fresh) h
        (.add (usedPrefix ++ token) .flag (some (cfg.ttl * 2)))
  | claim {token user at_ fresh h data} (hwindow : cfg.window = false)
      (hlook : Did i h (.get (tokenPrefix ++ token)) (some (.payload data))) :
      May cfg i (.consume (some token) user at_ fresh) h
        (.add (consumedPrefix ++ token) .flag (some (cfg.ttl * 2)))
  | pop {token user at_ fresh h data} (hwindow : cfg.window = false)
      (hlook : Did i h (.get (tokenPrefix ++ token)) (some (.payload data)))
      (hearly : Unchecked token h) :
      May cfg i (.consume (some token) user at_ fresh) h (.delete (tokenPrefix ++ token))
  | getdel {token user at_ fresh h data} (hwindow : cfg.window = false)
      (hlook : Did i h (.get (tokenPrefix ++ token)) (some (.payload data)))
      (hearly : Unchecked token h) :
      May cfg i (.consume (some token) user at_ fresh) h (.getdel (tokenPrefix ++ token))
  | rotate {c user h g} (hc : c.rotates = some user)
      (hwritten : ∀ user encoded, c = .changePassword user encoded →
        Did i h (.writePassword user.pk encoded) ()) (hdrew : Drew i h g)
      (hfirst : ∀ e ∈ h, e.op.isSet = false) :
      May cfg i c h (.set (generationPrefix ++ str user.pk) (.text g) none)
  | legacyGet {c user h} (hc : c.rotates = some user) :
      May cfg i c h (.get (legacyUserIndexPrefix ++ str user.pk))
  | legacyDelete {c user h value token} (hc : c.rotates = some user)
      (hread : Did i h (.get (legacyUserIndexPrefix ++ str user.pk)) (some value)) :
      May cfg i c h (.delete (tokenPrefix ++ token))
  | legacyDrop {c user h} (hc : c.rotates = some user) :
      May cfg i c h (.delete (legacyUserIndexPrefix ++ str user.pk))
  | writePassword {user encoded h} :
      May cfg i (.changePassword user encoded) h (.writePassword user.pk encoded)
  | commit {user encoded h} :
      May cfg i (.changePassword user encoded) h (.commit user.pk encoded)

/-- What a call has done when it returns. -/
def Call.Post (cfg : Settings) (i : Nat) : (c : Call) → Trace → Except Exn c.Ans → Prop
  | .issue user _ _ _, h, .ok (some token) =>
    ∃ g t, Did i h (.set (tokenPrefix ++ token) (.payload ⟨str user.pk, some g, t + cfg.ttl⟩)
      (some (cfg.ttl * 2))) ()
  | .consume token user at_ fresh, h, .ok true =>
    ∃ t ∈ token, ∃ data, Checked i h data user at_ ∧
      (cfg.window = true → Did i h (.get (tokenPrefix ++ t)) (some (.payload data)) ∧
        ∃ first, (fresh = true → first = true) ∧
          Did i h (.add (usedPrefix ++ t) .flag (some (cfg.ttl * 2))) first) ∧
      (cfg.window = false → Did i h (.getdel (tokenPrefix ++ t)) (some (.payload data)) ∨
        Did i h (.get (tokenPrefix ++ t)) (some (.payload data)) ∧
          Did i h (.delete (tokenPrefix ++ t)) true)
  | .invalidateAllForUser user, h, .ok () =>
    ∃ g, Did i h (.set (generationPrefix ++ str user.pk) (.text g) none) ()
  | .changePassword user _, h, .ok () =>
    ∃ g, Did i h (.set (generationPrefix ++ str user.pk) (.text g) none) ()
  | _, _, _ => True

section Obeys

variable {cfg : Settings} {c : Call} {α : Type} {post : Trace → Except Exn α → Prop}

structure Then (i : Nat) (o : Op) (r : o.Res) (h h' : Trace) : Prop where
  did : Did i h' o r
  subset : h ⊆ h'
  later : o.isSet = false → Later h h'
  mem : ∀ e ∈ h', e.op = o ∨ e ∈ h

theorem Then.cons (o : Op) (r : o.Res) (w : Store) : Then i o r h (⟨i, o, r, w⟩ :: h) where
  did := ⟨w, List.mem_cons_self ..⟩
  subset := List.subset_cons_self _ _
  later ho := (Later.refl h).cons (e := ⟨i, o, r, w⟩) ho
  mem _ he := (List.mem_cons.mp he).imp_left (congrArg Event.op)

theorem Then.ungenerated {o : Op} {r : o.Res} (ht : Then i o r h h') {pk : Nat}
    (ho : ∀ value timeout, o ≠ .add (generationPrefix ++ str pk) value timeout)
    (hnew : Ungenerated pk h) : Ungenerated pk h' := by
  intro e he
  rcases ht.mem e he with rfl | he
  · exact ho
  · exact hnew e he

theorem obeys_perform (o : Op) {f : o.Res → M α} (hmay : May cfg i c h o)
    (hf : ∀ r h', Then i o r h h' → Obeys (act cfg) i (May cfg i c) post (f r) h') :
    Obeys (act cfg) i (May cfg i c) post (perform o >>= f) h :=
  Obeys.perform hmay fun w => hf _ _ (.cons o _ w)

theorem obeys_atOrNow {at_ : Option Time} {f : Time → M α}
    (hf : ∀ t h', Later h h' → (∀ e ∈ h', e.op = .now ∨ e ∈ h) → Timed i h' at_ t →
      Obeys (act cfg) i (May cfg i c) post (f t) h') :
    Obeys (act cfg) i (May cfg i c) post (atOrNow at_ >>= f) h := by
  cases at_ with
  | some t => exact hf t h (.refl h) (fun _ => .inr) (.inl rfl)
  | none =>
    refine obeys_perform .now .now fun t h' hnow => ?_
    exact hf t h' (hnow.later rfl) hnow.mem (.inr ⟨rfl, hnow.did⟩)

theorem obeys_generation {user : User} {f : String → M α} (hnew : Ungenerated user.pk h)
    (hget : ∀ h', Later h h' → May cfg i c h' (.get (generationPrefix ++ str user.pk)))
    (hdraw : ∀ h', Later h h' → May cfg i c h' (.tokenUrlsafe 16))
    (hadd : ∀ h' g, Later h h' → Ungenerated user.pk h' → Drew i h' g →
      May cfg i c h' (.add (generationPrefix ++ str user.pk) (.text g) none))
    (hf : ∀ g h', Later h h' → Generation i h' user.pk g →
      Obeys (act cfg) i (May cfg i c) post (f g) h') :
    Obeys (act cfg) i (May cfg i c) post (generation user >>= f) h := by
  refine obeys_perform (.get _) (hget h (.refl h)) fun found h₁ hget₁ => ?_
  have hl₁ := hget₁.later rfl
  cases found with
  | some value => exact hf _ h₁ hl₁ (.read hget₁.did rfl)
  | none =>
    refine obeys_perform (.tokenUrlsafe 16) (hdraw h₁ hl₁) fun candidate h₂ hdraw₂ => ?_
    have hl₂ := hl₁.trans (hdraw₂.later rfl)
    have hdrew : Drew i h₂ candidate := ⟨16, hdraw₂.did⟩
    have hnew₂ : Ungenerated user.pk h₂ :=
      hdraw₂.ungenerated (by simp) (hget₁.ungenerated (by simp) hnew)
    refine obeys_perform (.add _ _ _) (hadd h₂ candidate hl₂ hnew₂ hdrew) fun added h₃ hadd₃ => ?_
    have hl₃ := hl₂.trans (hadd₃.later rfl)
    cases added with
    | true => exact hf _ h₃ hl₃ (.drawn hadd₃.did (hdrew.mono hadd₃.subset))
    | false =>
      refine obeys_perform (.get _) (hget h₃ hl₃) fun again h₄ hget₄ => ?_
      have hl₄ := hl₃.trans (hget₄.later rfl)
      simp only [Prog.bind]
      cases hagain : again.filter Value.truthy with
      | none =>
        refine obeys_perform (.tokenUrlsafe 16) (hdraw h₄ hl₄) fun value h₅ hdraw₅ => ?_
        have hl := (hget₄.later rfl).trans (hdraw₅.later rfl)
        exact hf _ h₅ (hl₃.trans hl) (.drawn (hadd₃.did.mono hl.subset) ⟨16, hdraw₅.did⟩)
      | some value =>
        obtain ⟨rfl, -⟩ := Option.filter_eq_some_iff.mp hagain
        exact hf _ h₄ hl₄ (.read hget₄.did rfl)

theorem obeys_stillValid {value : Value} {user : User} {at_ : Option Time} {f : Bool → M α}
    (hnew : Ungenerated user.pk h)
    (hget : ∀ h', Later h h' → May cfg i c h' (.get (generationPrefix ++ str user.pk)))
    (hdraw : ∀ h', Later h h' → May cfg i c h' (.tokenUrlsafe 16))
    (hadd : ∀ h' g, Later h h' → Ungenerated user.pk h' → Drew i h' g →
      May cfg i c h' (.add (generationPrefix ++ str user.pk) (.text g) none))
    (hraise : ∀ e, post h (.error e))
    (hf : ∀ b h', Later h h' →
      (b = true → ∃ data, value = .payload data ∧ Checked i h' data user at_) →
      Obeys (act cfg) i (May cfg i c) post (f b) h') :
    Obeys (act cfg) i (May cfg i c) post (stillValid value user at_ >>= f) h := by
  cases value with
  | text s => exact hraise _
  | flag => exact hraise _
  | tokens ts => exact hraise _
  | payload data =>
    have hl := Later.refl h
    change Obeys (act cfg) i (May cfg i c) post ((if data.userId ≠ str user.pk then pure false
      else do
        let now ← atOrNow at_
        if data.expires ≤ now then return false
        else return data.generation = some (← generation user)) >>= f) h
    by_cases hid : data.userId = str user.pk
    · rw [if_neg (not_not.mpr hid), bind_assoc]
      refine obeys_atOrNow fun t h₁ hl₁ hmem₁ ht => ?_
      have hnew₁ : Ungenerated user.pk h₁ := by
        intro e he
        rcases hmem₁ e he with ho | he
        · simp [ho]
        · exact hnew e he
      by_cases hexp : data.expires ≤ t
      · rw [if_pos hexp]
        exact hf false h₁ hl₁ (by simp)
      · rw [if_neg hexp, bind_assoc]
        refine obeys_generation hnew₁ (fun h' hl' => hget h' (hl₁.trans hl'))
          (fun h' hl' => hdraw h' (hl₁.trans hl')) (fun h' g hl' => hadd h' g (hl₁.trans hl'))
          fun g h₂ hl₂ hg => ?_
        refine hf _ h₂ (hl₁.trans hl₂) fun hgen => ⟨data, rfl, hid, ⟨t, ?_, not_le.mp hexp⟩, g, ?_, hg⟩
        · exact ht.mono hl₂.subset
        · simpa using hgen
    · rw [if_pos hid]
      exact hf false h hl (by simp)

end Obeys

section Bodies

variable (cfg : Settings) (i : Nat)

theorem issue_obeys (user : User) (verifier : String) (at_ : Option Time)
    (credentials : Credentials) :
    Obeys (act cfg) i (May cfg i (.issue user verifier at_ credentials))
      (Call.Post cfg i (.issue user verifier at_ credentials))
      (issue cfg user verifier at_ credentials) [] := by
  unfold issue
  cases user.isActive with
  | false => exact obeys_perform (.send _ _) .send fun _ _ _ => trivial
  | true =>
    refine obeys_perform (.verify _ _ _) .verify fun proof h₁ hverify => ?_
    cases proof with
    | false => exact obeys_perform (.send _ _) .send fun _ _ _ => trivial
    | true =>
      have hunset₁ := (hverify.later rfl).unset (by simp)
      refine obeys_atOrNow fun t h₂ hl₂ hmem₂ ht => ?_
      refine obeys_perform (.tokenUrlsafe 32) .issueDraw fun token h₃ hdraw => ?_
      have hl₃ := hl₂.trans (hdraw.later rfl)
      have hnew₁ : Ungenerated user.pk h₁ := hverify.ungenerated (by simp) (by simp [Ungenerated])
      have hnew₃ : Ungenerated user.pk h₃ := hdraw.ungenerated (by simp) fun e he => by
        rcases hmem₂ e he with ho | he
        · simp [ho]
        · exact hnew₁ e he
      refine obeys_generation hnew₃
        (fun h' hl' => .issueGet (hverify.did.mono (hl₃.trans hl').subset))
        (fun _ _ => .issueDraw) (fun h' g _ hnew hdrew => .issueAdd hnew hdrew)
        fun g h₄ hl₄ hg => ?_
      have hl := hl₃.trans hl₄
      refine obeys_perform (.set _ _ _) (.mint (hverify.did.mono hl.subset)
        (ht.mono ((hdraw.later rfl).trans hl₄).subset) ⟨32, hdraw.did.mono hl₄.subset⟩ hg
        (hl.unset hunset₁)) fun _ h₅ hset => ?_
      refine obeys_perform (.send _ _) .send fun _ h₆ hsend => ?_
      exact ⟨g, t, hset.did.mono hsend.subset⟩

theorem deleteTokens_obeys {c : Call} {user : User} (hc : c.rotates = some user) {value : Value}
    {α : Type} {post : Trace → Except Exn α → Prop} {f : M α} (tokens : List String) {h : Trace}
    (hread : Did i h (.get (legacyUserIndexPrefix ++ str user.pk)) (some value))
    (hf : ∀ h', Later h h' → Obeys (act cfg) i (May cfg i c) post f h') :
    Obeys (act cfg) i (May cfg i c) post (deleteTokens tokens >>= fun _ => f) h := by
  induction tokens generalizing h with
  | nil => exact hf h (.refl h)
  | cons token tokens ih =>
    refine obeys_perform (.delete _) (.legacyDelete hc hread) fun _ h' hdelete => ?_
    exact ih (hread.mono hdelete.subset) fun h'' hl => hf h'' ((hdelete.later rfl).trans hl)

theorem consumeInWindow_obeys {token : String} {user : User} {at_ : Option Time} {fresh : Bool}
    (hwindow : cfg.window = true) {data : Payload} {h : Trace}
    (hread : Did i h (.get (tokenPrefix ++ token)) (some (.payload data)))
    (hid : data.userId = str user.pk) (hnew : Ungenerated user.pk h) :
    Obeys (act cfg) i (May cfg i (.consume (some token) user at_ fresh))
      (Call.Post cfg i (.consume (some token) user at_ fresh))
      (consumeInWindow cfg token (.payload data) user at_ fresh) h := by
  unfold consumeInWindow
  refine obeys_stillValid hnew (fun _ _ => .consumeGet)
    (fun h' hl => .consumeDraw (hread.mono hl.subset))
    (fun h' g hl hnew hdrew => .consumeAdd (hread.mono hl.subset) hid hnew hdrew)
    (fun _ => trivial) fun valid h₁ hl₁ hvalid => ?_
  cases valid with
  | false => exact obeys_perform (.send _ _) .send fun _ _ _ => trivial
  | true =>
    obtain ⟨data', hdata, hchecked⟩ := hvalid rfl
    obtain rfl := Value.payload.inj hdata
    have hread₁ := hread.mono hl₁.subset
    refine obeys_perform (.add _ _ _) (.mark hwindow hread₁ hchecked) fun first h₂ hadd => ?_
    have hused {h' : Trace} (hsub : h₂ ⊆ h') (hfresh : fresh = true → first = true) :
        Call.Post cfg i (.consume (some token) user at_ fresh) h' (.ok true) := by
      refine ⟨token, rfl, data, hchecked.mono fun e he => hsub (hadd.subset he), fun _ => ?_, ?_⟩
      · exact ⟨hread₁.mono fun e he => hsub (hadd.subset he), first, hfresh, hadd.did.mono hsub⟩
      · simp [hwindow]
    cases fresh with
    | false =>
      exact obeys_perform (.send _ _) .send fun _ h₃ hsend => hused hsend.subset (by simp)
    | true =>
      cases first with
      | false => exact obeys_perform (.send _ _) .send fun _ _ _ => trivial
      | true =>
        exact obeys_perform (.send _ _) .send fun _ h₃ hsend => hused hsend.subset (by simp)

theorem consumeOnce_obeys {token : String} {user : User} {at_ : Option Time} {fresh : Bool}
    (hwindow : cfg.window = false) {data : Payload} {h : Trace}
    (hread : Did i h (.get (tokenPrefix ++ token)) (some (.payload data)))
    (hid : data.userId = str user.pk) (hearly : Unchecked token h)
    (hnew : Ungenerated user.pk h) :
    Obeys (act cfg) i (May cfg i (.consume (some token) user at_ fresh))
      (Call.Post cfg i (.consume (some token) user at_ fresh))
      (do
        match ← atomicPop cfg (tokenPrefix ++ token) (.payload data) token (cfg.ttl * 2) with
        | none =>
          send .failed user.pk
          return false
        | some value =>
          if !(← stillValid value user at_) then
            send .failed user.pk
            return false
          else
            send .consumed user.pk
            return true) h := by
  have hpopped {value : Value} {h' : Trace} (hbefore : h ⊆ h')
      (hnew : Ungenerated user.pk h') (hvalue : ∀ data, value = .payload data →
      Did i h' (.getdel (tokenPrefix ++ token)) (some (.payload data)) ∨
        Did i h' (.get (tokenPrefix ++ token)) (some (.payload data)) ∧
          Did i h' (.delete (tokenPrefix ++ token)) true) :
      Obeys (act cfg) i (May cfg i (.consume (some token) user at_ fresh))
        (Call.Post cfg i (.consume (some token) user at_ fresh)) (do
          if !(← stillValid value user at_) then
            send .failed user.pk
            return false
          else
            send .consumed user.pk
            return true) h' := by
    refine obeys_stillValid hnew (fun _ _ => .consumeGet)
      (fun h'' hl => .consumeDraw (hread.mono fun e he => hl.subset (hbefore he)))
      (fun h'' g hl hnew hdrew =>
        .consumeAdd (hread.mono fun e he => hl.subset (hbefore he)) hid hnew hdrew)
      (fun _ => trivial) fun valid h₁ hl₁ hvalid => ?_
    cases valid with
    | false => exact obeys_perform (.send _ _) .send fun _ _ _ => trivial
    | true =>
      obtain ⟨data, rfl, hchecked⟩ := hvalid rfl
      refine obeys_perform (.send _ _) .send fun _ h₂ hsend => ?_
      have hsub : h' ⊆ h₂ := fun e he => hsend.subset (hl₁.subset he)
      refine ⟨token, rfl, data, hchecked.mono hsend.subset, by simp [hwindow], fun _ => ?_⟩
      exact (hvalue data rfl).imp (·.mono hsub) fun ⟨hget, hdelete⟩ =>
        ⟨hget.mono hsub, hdelete.mono hsub⟩
  unfold atomicPop
  cases cfg.redis with
  | true =>
    refine obeys_perform (.getdel _) (.getdel hwindow hread hearly) fun popped h₁ hgetdel => ?_
    cases popped with
    | none => exact obeys_perform (.send _ _) .send fun _ _ _ => trivial
    | some value =>
      exact hpopped hgetdel.subset (hgetdel.ungenerated (by simp) hnew) fun data hdata =>
        .inl (hdata ▸ hgetdel.did)
  | false =>
    refine obeys_perform (.add _ _ _) (.claim hwindow hread) fun first h₁ hadd => ?_
    cases first with
    | false => exact obeys_perform (.send _ _) .send fun _ _ _ => trivial
    | true =>
      have hearly₁ : Unchecked token h₁ := by
        intro e he
        rcases hadd.mem e he with ho | he
        · simp [ho]
        · exact hearly e he
      refine obeys_perform (.delete _) (.pop hwindow
        (hread.mono hadd.subset) hearly₁) fun deleted h₂ hdelete => ?_
      have hbefore : h ⊆ h₂ := fun e he => hdelete.subset (hadd.subset he)
      cases deleted with
      | false => exact obeys_perform (.send _ _) .send fun _ _ _ => trivial
      | true =>
        have hclaim : ∀ value timeout, Op.add (consumedPrefix ++ token) .flag (some (cfg.ttl * 2)) ≠
            .add (generationPrefix ++ str user.pk) value timeout := fun value timeout heq =>
          generation_ne_consumed _ _ (Op.add.inj heq).1.symm
        refine hpopped hbefore (hdelete.ungenerated (by simp) (hadd.ungenerated hclaim hnew))
          fun data' hdata => .inr ⟨?_, hdelete.did⟩
        obtain rfl := Value.payload.inj hdata
        exact hread.mono hbefore

theorem consume_obeys (token : Option String) (user : User) (at_ : Option Time) (fresh : Bool) :
    Obeys (act cfg) i (May cfg i (.consume token user at_ fresh))
      (Call.Post cfg i (.consume token user at_ fresh)) (consume cfg token user at_ fresh) [] := by
  unfold consume
  cases htoken : token.filter (· ≠ "") with
  | none => exact trivial
  | some token' =>
    obtain ⟨rfl, -⟩ := Option.filter_eq_some_iff.mp htoken
    cases user.isActive with
    | false => exact obeys_perform (.send _ _) .send fun _ _ _ => trivial
    | true =>
      refine obeys_perform (.get _) .look fun found h₁ hget => ?_
      cases found with
      | none => exact obeys_perform (.send _ _) .send fun _ _ _ => trivial
      | some value =>
        cases value with
        | text s => exact trivial
        | flag => exact trivial
        | tokens ts => exact trivial
        | payload data =>
          change Obeys (act cfg) i _ _ (if data.userId ≠ str user.pk then _ else _) h₁
          by_cases hid : data.userId = str user.pk
          · rw [if_neg (not_not.mpr hid)]
            have hnew : Ungenerated user.pk h₁ :=
              hget.ungenerated (by simp) (by simp [Ungenerated])
            cases hwindow : cfg.window with
            | true => exact consumeInWindow_obeys cfg i hwindow hget.did hid hnew
            | false =>
              refine consumeOnce_obeys cfg i hwindow hget.did hid (fun e he => ?_) hnew
              obtain ho | he := hget.mem e he
              · rw [ho]
                exact ⟨by simp, fun key hkey => (Op.get.inj hkey).symm⟩
              · cases he
          · rw [if_pos hid]
            exact obeys_perform (.send _ _) .send fun _ _ _ => trivial

theorem invalidateAllForUser_obeys {c : Call} {user : User} (hc : c.rotates = some user)
    {α : Type} {post : Trace → Except Exn α → Prop} {f : M α} {h : Trace}
    (hwritten : ∀ user encoded, c = .changePassword user encoded →
      Did i h (.writePassword user.pk encoded) ())
    (hunset : ∀ e ∈ h, e.op.isSet = false) (hraise : ∀ h' e, post h' (.error e))
    (hf : ∀ h' g, h ⊆ h' → Did i h' (.set (generationPrefix ++ str user.pk) (.text g) none) () →
      Obeys (act cfg) i (May cfg i c) post f h') :
    Obeys (act cfg) i (May cfg i c) post (invalidateAllForUser user >>= fun _ => f) h := by
  refine obeys_perform (.tokenUrlsafe 16) (.rotateDraw hc) fun g h₁ hdraw => ?_
  have hl₁ := hdraw.later rfl
  have hwritten₁ : ∀ user encoded, c = .changePassword user encoded →
      Did i h₁ (.writePassword user.pk encoded) () := fun user encoded hcall =>
    (hwritten user encoded hcall).mono hdraw.subset
  refine obeys_perform (.set _ _ _) (.rotate hc hwritten₁ ⟨16, hdraw.did⟩ (hl₁.unset hunset))
    fun _ h₂ hset => ?_
  have hdrop {h' : Trace} (hl : Later h₂ h') : Obeys (act cfg) i (May cfg i c) post
      ((do
        let _ ← Cache.delete (legacyUserIndexPrefix ++ str user.pk)
        return : M Unit) >>= fun _ => f) h' := by
    refine obeys_perform (.delete _) (.legacyDrop hc) fun _ h₃ hdelete => ?_
    refine hf h₃ g (fun e he => ?_) (hset.did.mono fun e he => ?_)
    · exact hdelete.subset (hl.subset (hset.subset (hdraw.subset he)))
    · exact hdelete.subset (hl.subset he)
  refine obeys_perform (.get _) (.legacyGet hc) fun found h₃ hget => ?_
  have hl₃ := hget.later rfl
  change Obeys (act cfg) i (May cfg i c) post ((match found.filter Value.truthy with
    | none => _
    | some index => _) >>= fun _ => f) h₃
  cases hindex : found.filter Value.truthy with
  | none => exact hdrop hl₃
  | some index =>
    obtain ⟨rfl, -⟩ := Option.filter_eq_some_iff.mp hindex
    cases hiter : index.iter with
    | error e =>
      change Obeys (act cfg) i (May cfg i c) post ((liftExn index.iter >>= _) >>= fun _ => f) h₃
      rw [hiter]
      exact hraise h₃ e
    | ok tokens =>
      change Obeys (act cfg) i (May cfg i c) post ((liftExn index.iter >>= _) >>= fun _ => f) h₃
      rw [hiter]
      change Obeys (act cfg) i (May cfg i c) post ((deleteTokens tokens >>= fun _ => _) >>= _) h₃
      rw [bind_assoc]
      exact deleteTokens_obeys cfg i hc tokens hget.did fun h₄ hl₄ => hdrop (hl₃.trans hl₄)

theorem body_obeys (c : Call) :
    Obeys (act cfg) i (May cfg i c) (c.Post cfg i) (c.body cfg) [] := by
  cases c with
  | issue user verifier at_ credentials => exact issue_obeys cfg i user verifier at_ credentials
  | consume token user at_ fresh => exact consume_obeys cfg i token user at_ fresh
  | invalidateAllForUser user =>
    have hbody : (Call.invalidateAllForUser user).body cfg =
        invalidateAllForUser user >>= fun _ => pure () := bind_pure_unit.symm
    rw [hbody]
    refine invalidateAllForUser_obeys cfg i rfl (by simp) (by simp) (fun _ _ => trivial)
      fun h g _ hset => ?_
    exact ⟨g, hset⟩
  | changePassword user encoded =>
    refine obeys_perform (.writePassword _ _) .writePassword fun _ h₁ hwrite => ?_
    have hwritten : ∀ user' encoded', Call.changePassword user encoded =
        .changePassword user' encoded' → Did i h₁ (.writePassword user'.pk encoded') () := by
      rintro user' encoded' hcall
      obtain ⟨rfl, rfl⟩ := Call.changePassword.inj hcall
      exact hwrite.did
    refine invalidateAllForUser_obeys cfg i rfl hwritten ((hwrite.later rfl).unset (by simp))
      (fun _ _ => trivial) fun h₂ g _ hset => ?_
    exact ⟨.commit, fun w => ⟨g, hset.mono (List.subset_cons_self _ _)⟩⟩

end Bodies

end ScopedAccess.ReAuth
