import ScopedAccess.Exceptions
import Mathlib.Data.String.Basic
import Mathlib.Algebra.Order.Field.Rat

namespace ScopedAccess

inductive Value
  | none
  | bool (b : Bool)
  | int (n : Int)
  | float (x : Rat) (text : String)
  | str (s : String)
  | list (xs : List Value)
  | tuple (xs : List Value)
  | set (xs : List Value)
  | dict (items : List (Value × Value))
  | callable (policy : Nat) (text : String)
  | other (typeName : String) (truthy hashable : Bool) (elements : Option (List Value))
    (text : String)

namespace Value

def truthy : Value → Bool
  | none => false
  | bool b => b
  | int n => n ≠ 0
  | float x _ => x ≠ 0
  | str s => s ≠ ""
  | list xs | tuple xs | set xs => !xs.isEmpty
  | dict items => !items.isEmpty
  | callable .. => true
  | other _ truthy _ _ _ => truthy

def typeName : Value → String
  | none => "NoneType"
  | bool _ => "bool"
  | int _ => "int"
  | float .. => "float"
  | str _ => "str"
  | list _ => "list"
  | tuple _ => "tuple"
  | set _ => "set"
  | dict _ => "dict"
  | callable .. => "function"
  | other typeName _ _ _ _ => typeName

def str? : Value → Option String
  | str s => some s
  | _ => Option.none

/-- `True == 1 == 1.0` -/
def number? : Value → Option Rat
  | bool b => some (if b then 1 else 0)
  | int n => some n
  | float x _ => some x
  | _ => Option.none

mutual

def unhashable : Value → Option String
  | list _ => some "list"
  | set _ => some "set"
  | dict _ => some "dict"
  | tuple xs => unhashableIn xs
  | other typeName _ hashable _ _ => if hashable then Option.none else some typeName
  | _ => Option.none

def unhashableIn : List Value → Option String
  | [] => Option.none
  | x :: xs => x.unhashable.or (unhashableIn xs)

end

mutual

/-- `v == v'`, of values that can be hashed. -/
def eq : Value → Value → Bool
  | none, none => true
  | str s, str s' => s = s'
  | tuple xs, tuple ys => eqAll xs ys
  | callable policy _, callable policy' _ => policy = policy'
  | other typeName _ _ _ text, other typeName' _ _ _ text' => typeName = typeName' && text = text'
  | v, v' => v.number?.any fun x => v'.number? = some x

def eqAll : List Value → List Value → Bool
  | [], [] => true
  | x :: xs, y :: ys => x.eq y && eqAll xs ys
  | _, _ => false

end

mutual

def lt : Value → Value → Py Bool
  | str s, str s' => .ok (s < s')
  | tuple xs, tuple ys => ltAll xs ys
  | v, u =>
    match v.number?, u.number? with
    | some x, some y => .ok (x < y)
    | _, _ => throwing .typeError
      s!"'<' not supported between instances of '{v.typeName}' and '{u.typeName}'"

def ltAll : List Value → List Value → Py Bool
  | [], ys => .ok (!ys.isEmpty)
  | _ :: _, [] => .ok false
  | x :: xs, y :: ys => if x.eq y then ltAll xs ys else x.lt y

end

mutual

def repr : Value → String
  | none => "None"
  | bool b => if b then "True" else "False"
  | int n => toString n
  | str s => "'" ++ s ++ "'"
  | list xs => "[" ++ ", ".intercalate (reprs xs) ++ "]"
  | tuple [x] => "(" ++ x.repr ++ ",)"
  | tuple xs => "(" ++ ", ".intercalate (reprs xs) ++ ")"
  | set [] => "set()"
  | set xs => "\x7b" ++ ", ".intercalate (reprs xs) ++ "\x7d"
  | dict items => "\x7b" ++ ", ".intercalate (reprItems items) ++ "\x7d"
  | float _ text | callable _ text | other _ _ _ _ text => text

def reprs : List Value → List String
  | [] => []
  | x :: xs => x.repr :: reprs xs

def reprItems : List (Value × Value) → List String
  | [] => []
  | (key, value) :: items => (key.repr ++ ": " ++ value.repr) :: reprItems items

end

def text : Value → String
  | str s => s
  | v => v.repr

/-- `iter(value)` -/
def elements : Value → Py (List Value)
  | list xs | tuple xs | set xs => .ok xs
  | str s => .ok (s.toList.map fun c => str (String.singleton c))
  | dict items => .ok (items.map Prod.fst)
  | other _ _ _ (some xs) _ => .ok xs
  | v => throwing .typeError s!"'{v.typeName}' object is not iterable"

@[simp] theorem eq_str {s s' : String} : (str s).eq (str s') = decide (s = s') := by
  simp [eq]

theorem str?_eq_some {v : Value} {s : String} : v.str? = some s ↔ v = str s := by
  cases v <;> simp [str?]

end Value

abbrev Dict := List (Value × Value)

namespace Dict

def get? (d : Dict) (key : String) : Option Value :=
  d.findSome? fun item => if item.1.str? = some key then some item.2 else none

def get (d : Dict) (key : String) : Value := (d.get? key).getD .none

def getOr (d : Dict) (key : String) (default : Value) : Value := (d.get? key).getD default

def insertSorted (item : Value × Value) : Dict → Py Dict
  | [] => .ok [item]
  | item' :: items => do
    if ← item.1.lt item'.1 then return item :: item' :: items
    else return item' :: (← insertSorted item items)

def sorted : Dict → Py Dict
  | [] => .ok []
  | item :: items => do insertSorted item (← sorted items)

end Dict

end ScopedAccess
