import Std.Data.String.ToNat
import Mathlib.Data.String.Basic

namespace ScopedAccess.ReAuth

def tokenPrefix : String := "scoped_access:reauth:"
def generationPrefix : String := "scoped_access:reauth:generation:"
def legacyUserIndexPrefix : String := "scoped_access:reauth:user:"
def usedPrefix : String := "scoped_access:reauth:used:"
def consumedPrefix : String := "scoped_access:reauth:consumed:"

/-- `f"{user.pk}"` -/
def str (pk : Nat) : String := Nat.repr pk

theorem str_injective : Function.Injective str := fun _ _ h => Nat.repr_injective h

def Urlsafe (token : String) : Prop := ':' ∉ token.toList

structure Family (keyPrefix : String) where
  name : String
  extends_eq : keyPrefix = tokenPrefix ++ name
  colon : ':' ∈ name.toList

def generationFamily : Family generationPrefix := ⟨"generation:", by decide, by decide⟩
def legacyFamily : Family legacyUserIndexPrefix := ⟨"user:", by decide, by decide⟩
def usedFamily : Family usedPrefix := ⟨"used:", by decide, by decide⟩
def consumedFamily : Family consumedPrefix := ⟨"consumed:", by decide, by decide⟩

variable {p q : String}

theorem key_inj {x y : String} : p ++ x = p ++ y ↔ x = y := String.append_right_inj p

theorem Family.key_eq (f : Family p) (x : String) : p ++ x = tokenPrefix ++ (f.name ++ x) :=
  calc p ++ x = tokenPrefix ++ f.name ++ x := congrArg (· ++ x) f.extends_eq
    _ = tokenPrefix ++ (f.name ++ x) := String.append_assoc

theorem Family.key_ne (f : Family p) {token : String} (h : Urlsafe token) (x : String) :
    tokenPrefix ++ token ≠ p ++ x := by
  rw [f.key_eq, Ne, key_inj]
  rintro rfl
  exact h (by simp [f.colon])

theorem Family.key_ne_self (f : Family p) (x : String) : tokenPrefix ++ x ≠ p ++ x := by
  rw [f.key_eq, Ne, key_inj]
  intro h
  have hlength := congrArg (fun s => s.toList.length) h
  have hname : f.name.toList ≠ [] := List.ne_nil_of_mem f.colon
  simp only [String.toList_append, List.length_append, Nat.right_eq_add,
    List.length_eq_zero_iff] at hlength
  exact hname hlength

theorem Family.disjoint (f : Family p) (g : Family q) (x y : String)
    (hfg : ¬ f.name.toList <+: g.name.toList) (hgf : ¬ g.name.toList <+: f.name.toList) :
    p ++ x ≠ q ++ y := by
  rw [f.key_eq, g.key_eq, Ne, key_inj]
  intro heq
  have hlists : f.name.toList ++ x.toList = g.name.toList ++ y.toList := by
    simpa using congrArg String.toList heq
  rcases List.prefix_or_prefix_of_prefix ⟨_, hlists⟩ (List.prefix_append _ _) with h | h
  · exact hfg h
  · exact hgf h

theorem generation_ne_used (x y : String) : generationPrefix ++ x ≠ usedPrefix ++ y :=
  generationFamily.disjoint usedFamily x y (by decide) (by decide)

theorem generation_ne_consumed (x y : String) : generationPrefix ++ x ≠ consumedPrefix ++ y :=
  generationFamily.disjoint consumedFamily x y (by decide) (by decide)

theorem generation_ne_legacy (x y : String) : generationPrefix ++ x ≠ legacyUserIndexPrefix ++ y :=
  generationFamily.disjoint legacyFamily x y (by decide) (by decide)

theorem consumed_ne_legacy (x y : String) : consumedPrefix ++ x ≠ legacyUserIndexPrefix ++ y :=
  consumedFamily.disjoint legacyFamily x y (by decide) (by decide)

theorem used_ne_legacy (x y : String) : usedPrefix ++ x ≠ legacyUserIndexPrefix ++ y :=
  usedFamily.disjoint legacyFamily x y (by decide) (by decide)

theorem consumed_ne_used (x y : String) : consumedPrefix ++ x ≠ usedPrefix ++ y :=
  consumedFamily.disjoint usedFamily x y (by decide) (by decide)

end ScopedAccess.ReAuth
