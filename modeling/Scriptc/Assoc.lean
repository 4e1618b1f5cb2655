/-!
# Scriptc: tables in order of insertion

A table from keys to values that remembers the order in which its keys were first written. Writing a
key that is present changes its value and leaves it in place; erasing it and writing it again moves
it to the end. The view is `get?`, pinned by `get?_put_self` and `get?_put_of_ne`.
-/

namespace Scriptc

/-- A table in order of insertion. -/
abbrev Assoc (κ : Type) (ν : Type) := List (κ × ν)

namespace Assoc

variable {κ ν : Type} [DecidableEq κ]

/-- The value of a key. -/
def get? : Assoc κ ν → κ → Option ν
  | [], _ => none
  | (k, v) :: t, x => if k = x then some v else get? t x

def contains (t : Assoc κ ν) (x : κ) : Bool := (t.get? x).isSome

/-- Writes a key: in place if it is present, at the end if it is new. -/
def put : Assoc κ ν → κ → ν → Assoc κ ν
  | [], x, w => [(x, w)]
  | (k, v) :: t, x, w => if k = x then (k, w) :: t else (k, v) :: put t x w

def erase (t : Assoc κ ν) (x : κ) : Assoc κ ν := t.filter fun e => e.1 ≠ x

def keys (t : Assoc κ ν) : List κ := t.map Prod.fst

def values (t : Assoc κ ν) : List ν := t.map Prod.snd

/-- Writes every entry of `more`, in its order. -/
def putAll (t more : Assoc κ ν) : Assoc κ ν := more.foldl (fun acc e => acc.put e.1 e.2) t

@[simp] theorem get?_put_self (t : Assoc κ ν) (x : κ) (w : ν) : (t.put x w).get? x = some w := by
  induction t with
  | nil => simp [put, get?]
  | cons e t ih =>
    by_cases h : e.1 = x <;> simp [put, get?, h, ih]

theorem get?_put_of_ne (t : Assoc κ ν) {x y : κ} (w : ν) (h : y ≠ x) :
    (t.put x w).get? y = t.get? y := by
  induction t with
  | nil => simp [put, get?, Ne.symm h]
  | cons e t ih =>
    by_cases hx : e.1 = x
    · simp [put, get?, hx, Ne.symm h]
    · rw [put, if_neg hx]
      by_cases hy : e.1 = y <;> simp [get?, hy, ih]

end Assoc

end Scriptc
