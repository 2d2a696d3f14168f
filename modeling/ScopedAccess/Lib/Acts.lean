import ScopedAccess.Lib.Loop

namespace Lib

open Loop

abbrev Acts (σ ε α : Type) : Type := ExceptT ε (StateM σ) α

namespace Acts

variable {σ ε α β : Type}

def out (x : Acts σ ε α) (s : σ) : Except ε α × σ := x.run s

def read (f : σ → α) : Acts σ ε α := ExceptT.mk fun s => (.ok (f s), s)

/-- What the program ends with, as a value. -/
def attempt (x : Acts σ ε α) : Acts σ ε (Except ε α) :=
  ExceptT.mk fun s => (.ok (x.out s).1, (x.out s).2)

/-- `try: ... finally: ...` -/
def thenRestore (x : Acts σ ε α) (restore : σ → σ) : Acts σ ε α :=
  ExceptT.mk fun s => ((x.out s).1, restore (x.out s).2)

def both {m : Type → Type} [Monad m] (x y : m Bool) : m Bool := do
  if ← x then y else return false

def either {m : Type → Type} [Monad m] (x y : m Bool) : m Bool := do
  if ← x then return true else y

@[simp] theorem out_pure (a : α) (s : σ) : (pure a : Acts σ ε α).out s = (.ok a, s) := rfl

@[simp] theorem out_liftM (r : Except ε α) (s : σ) : (liftM r : Acts σ ε α).out s = (r, s) := rfl

@[simp] theorem out_read (f : σ → α) (s : σ) : (read f : Acts σ ε α).out s = (.ok (f s), s) := rfl

@[simp] theorem out_modify (f : σ → σ) (s : σ) :
    (modify f : Acts σ ε PUnit).out s = (.ok ⟨⟩, f s) := rfl

@[simp] theorem out_attempt (x : Acts σ ε α) (s : σ) :
    x.attempt.out s = (.ok (x.out s).1, (x.out s).2) := rfl

@[simp] theorem out_thenRestore (x : Acts σ ε α) (restore : σ → σ) (s : σ) :
    (x.thenRestore restore).out s = ((x.out s).1, restore (x.out s).2) := rfl

theorem out_bind (x : Acts σ ε α) (f : α → Acts σ ε β) (s : σ) :
    (x >>= f).out s = match x.out s with
      | (.ok a, s') => (f a).out s'
      | (.error e, s') => (.error e, s') := by
  change (ExceptT.bindCont f (x.run s).1) (x.run s).2 = _
  unfold out
  cases x.run s with
  | mk r s' => cases r <;> rfl

/-- From every state of the kind the program has this outcome, and leaves the kind. -/
def Gives (P : σ → Prop) (x : Acts σ ε α) (r : Except ε α) : Prop :=
  ∀ s, P s → (x.out s).1 = r ∧ P (x.out s).2

namespace Gives

variable {P P' : σ → Prop} {x : Acts σ ε α} {r : Except ε α}

theorem pure (a : α) : Gives P (Pure.pure a : Acts σ ε α) (.ok a) := fun _ h => ⟨rfl, h⟩

theorem liftM (r : Except ε α) : Gives P (MonadLiftT.monadLift r : Acts σ ε α) r :=
  fun _ h => ⟨rfl, h⟩

theorem bind (hx : Gives P x r) {f : α → Acts σ ε β} {g : α → Except ε β}
    (hf : ∀ a, r = .ok a → Gives P (f a) (g a)) : Gives P (x >>= f) (r >>= g) := by
  intro s hs
  obtain ⟨hr, hs'⟩ := hx s hs
  rw [out_bind]
  cases hout : x.out s with
  | mk r' s' =>
    rw [hout] at hr hs'
    obtain rfl : r' = r := hr
    cases r' with
    | error e => exact ⟨rfl, hs'⟩
    | ok a => exact hf a rfl s' hs'

theorem bind_ok {a : α} (hx : Gives P x (.ok a)) {f : α → Acts σ ε β} {r' : Except ε β}
    (hf : Gives P (f a) r') : Gives P (x >>= f) r' :=
  hx.bind (g := fun _ => r') fun _ h => Except.ok.inj h ▸ hf

theorem bind_keep (hx : Gives P x r) {f : α → Acts σ ε α}
    (hf : ∀ a, r = .ok a → Gives P (f a) (.ok a)) : Gives P (x >>= f) r := by
  have hkeep : r >>= Except.ok = r := by cases r <;> rfl
  exact hkeep ▸ hx.bind hf

theorem read {f : σ → α} {a : α} (hf : ∀ s, P s → f s = a) {g : α → Acts σ ε β} {r' : Except ε β}
    (hg : Gives P (g a) r') : Gives P (Acts.read f >>= g) r' := by
  intro s hs
  rw [out_bind, out_read, hf s hs]
  exact hg s hs

theorem inspect {f : σ → α} {g : α → Acts σ ε β} {r' : Except ε β}
    (hg : ∀ s, P s → Gives P (g (f s)) r') : Gives P (Acts.read f >>= g) r' := by
  intro s hs
  rw [out_bind, out_read]
  exact hg s hs s hs

theorem change {f : σ → σ} (hf : ∀ s, P s → P (f s)) :
    Gives P (modify f : Acts σ ε PUnit) (.ok ⟨⟩) := fun s hs => ⟨rfl, hf s hs⟩

theorem attempt (hx : Gives P x r) : Gives P x.attempt (.ok r) := by
  intro s hs
  obtain ⟨hr, hs'⟩ := hx s hs
  exact ⟨congrArg Except.ok hr, hs'⟩

theorem ite {c : Prop} [Decidable c] {y : Acts σ ε α} {r' : Except ε α}
    (hx : c → Gives P x r) (hy : ¬ c → Gives P y r') :
    Gives P (if c then x else y) (if c then r else r') := by
  split
  · exact hx ‹_›
  · exact hy ‹_›

theorem both {x y : Acts σ ε Bool} {r r' : Except ε Bool} (hx : Gives P x r) (hy : Gives P y r') :
    Gives P (Acts.both x y) (Acts.both r r') := by
  refine hx.bind fun b _ => ?_
  exact .ite (fun _ => hy) fun _ => .pure _

theorem either {x y : Acts σ ε Bool} {r r' : Except ε Bool} (hx : Gives P x r)
    (hy : Gives P y r') : Gives P (Acts.either x y) (Acts.either r r') := by
  refine hx.bind fun b _ => ?_
  exact .ite (fun _ => .pure _) fun _ => hy

theorem forM {as : List β} {f : β → Acts σ ε PUnit} {g : β → Except ε PUnit}
    (h : ∀ a ∈ as, Gives P (f a) (g a)) : Gives P (as.forM f) (as.forM g) := by
  induction as with
  | nil => exact .pure _
  | cons a as ih =>
    exact (h a List.mem_cons_self).bind fun _ _ => ih fun b hb => h b (List.mem_cons_of_mem _ hb)

theorem within {enter leave : σ → σ} (henter : ∀ s, P s → P' (enter s)) (hx : Gives P' x r)
    (hleave : ∀ s, P' s → P (leave s)) :
    Gives P (modify enter >>= fun _ => x.thenRestore leave) r := by
  intro s hs
  obtain ⟨hr, hs'⟩ := hx _ (henter s hs)
  rw [out_bind]
  exact ⟨hr, hleave _ hs'⟩

end Gives

end Acts

end Lib
