import ScopedAccess.LifecycleLaws
import ScopedAccess.Lib.Shared

namespace ScopedAccess

open Lib.Shared (Signature Prog)

variable {S : Signature} {W α β γ δ : Type}

/-- From a store and a world on, with nothing beside it, the program does what the operation
does. -/
def Follows (act : (o : S.Op) → W → S.Res o × W) (rc : Receivers) (good : W → World → Prop)
    (bad : W → Prop) (s : W) (w : World) (p : Prog S Abort α) (q : Op β) : Prop :=
  match q.run rc w with
  | .ok (_, w') => ∃ x s', p.run act s = (.ok x, s') ∧ good s' w'
  | .error e => ∃ s', p.run act s = (.error e, s') ∧ bad s'

variable {act : (o : S.Op) → W → S.Res o × W} {rc : Receivers} {good : W → World → Prop}
  {bad : W → Prop} {s s' : W} {w w' : World} {p : Prog S Abort α} {q : Op β}

theorem Follows.pure {x : α} {y : β} (h : good s w) :
    Follows act rc good bad s w (Pure.pure x) (Pure.pure y) :=
  ⟨x, s, rfl, h⟩

theorem Follows.abort {e : Abort} (hp : p.run act s = (.error e, s')) (hq : q.run rc w = .error e)
    (h : bad s') : Follows act rc good bad s w p q := by
  unfold Follows
  rw [hq]
  exact ⟨s', hp, h⟩

theorem Follows.raise (cls : ExnClass) (message : String) (h : bad s) :
    Follows act rc good bad s w (Prog.raise (.raised ⟨cls, message⟩) : Prog S Abort α)
      (Op.raise cls message : Op β) :=
  ⟨s, rfl, h⟩

theorem Follows.step {p₀ : Prog S Abort γ} {f : γ → Prog S Abort α} {x : γ}
    (hp : p₀.run act s = (.ok x, s')) (h : Follows act rc good bad s' w (f x) q) :
    Follows act rc good bad s w (p₀ >>= f) q := by
  unfold Follows at h ⊢
  rw [Prog.run_bind, hp]
  exact h

theorem Follows.skip {q₀ : Op γ} {g : γ → Op β} {y : γ} (hq : q₀.run rc w = .ok (y, w'))
    (h : Follows act rc good bad s w' p (g y)) : Follows act rc good bad s w p (q₀ >>= g) := by
  unfold Follows at h ⊢
  rw [Op.run_bind, hq]
  exact h

theorem Follows.read {p₀ : Prog S Abort γ} {q₀ : Op γ} {r : Py γ} {f : γ → Prog S Abort α}
    {g : γ → Op β} (hp : p₀.run act s = (r, s)) (hq : q₀.run rc w = r.map (·, w)) (hbad : bad s)
    (h : ∀ x, r = .ok x → Follows act rc good bad s w (f x) (g x)) :
    Follows act rc good bad s w (p₀ >>= f) (q₀ >>= g) := by
  cases r with
  | ok x =>
    have hx := h x rfl
    unfold Follows at hx ⊢
    rw [Prog.run_bind, Op.run_bind, hp, hq]
    exact hx
  | error e =>
    unfold Follows
    rw [Prog.run_bind, Op.run_bind, hp, hq]
    exact ⟨s, rfl, hbad⟩

theorem Follows.guard {b : Bool} {cls : ExnClass} {message : String} (hbad : bad s)
    (h : Follows act rc good bad s w p q) :
    Follows act rc good bad s w (if !b then Prog.raise (.raised ⟨cls, message⟩) else p)
      (if !b then Op.raise cls message else q) := by
  cases b with
  | true => exact h
  | false => exact .raise _ _ hbad

theorem Follows.congr {q' : Op γ}
    (hq : (q.run rc w).map Prod.snd = (q'.run rc w).map Prod.snd)
    (h : Follows act rc good bad s w p q') : Follows act rc good bad s w p q := by
  unfold Follows at h ⊢
  rcases hr : q.run rc w with e | ⟨y, v⟩ <;> rcases hr' : q'.run rc w with e' | ⟨y', v'⟩ <;>
    rw [hr, hr'] at hq <;> cases hq <;> rw [hr'] at h <;> exact h

theorem Op.ofRead_bind (p : Read γ) (f : γ → Read δ) :
    Op.ofRead (p >>= f) = Op.ofRead p >>= fun x => Op.ofRead (f x) := by
  change Op.ofRead (p.bind f) = (Op.ofRead p).bind _
  induction p with
  | pure x => rfl
  | abort e => rfl
  | world k ih | effective u at_ k ih | valid a k ih => simp only [Read.bind, Op.ofRead, Op.bind, ih]

theorem run_discard (q : Op β) (x : γ) :
    ((q >>= fun _ => (Pure.pure x : Op γ)).run rc w).map Prod.snd = (q.run rc w).map Prod.snd := by
  rw [Op.run_bind]
  cases q.run rc w <;> rfl

theorem run_write {rows : TableRows} {t : Tables} (ht : t.toTableRows = rows) :
    (Op.write rows).run rc w = .ok ((), w.save t) :=
  Op.run_write_ok.mpr ⟨t, ht, rfl⟩

theorem run_write_refused {rows : TableRows} (h : ¬ rows.Valid) (f : Unit → Op β) :
    (Op.write rows >>= f).run rc w = .error (.raised ⟨.integrityError, "constraint failed"⟩) := by
  rw [Op.run_bind, Op.write, TableRows.commit, dif_neg h]
  rfl

theorem run_write_congr {rows : TableRows} {f : Unit → Op β} {g : Unit → Op γ}
    (h : ∀ v, ((f ()).run rc v).map Prod.snd = ((g ()).run rc v).map Prod.snd) :
    ((Op.write rows >>= f).run rc w).map Prod.snd =
      ((Op.write rows >>= g).run rc w).map Prod.snd := by
  rw [Op.run_bind, Op.run_bind]
  cases (Op.write rows).run rc w with
  | error e => rfl
  | ok r => exact h r.2

theorem run_saved {q : Op β} {g : β → Op γ} (hg : ∀ x v, ((g x).run rc v).map Prod.snd = .ok v) :
    ((q >>= g).run rc w).map Prod.snd = (q.run rc w).map Prod.snd := by
  rw [Op.run_bind]
  cases q.run rc w with
  | error e => rfl
  | ok r => exact hg r.1 r.2

end ScopedAccess
