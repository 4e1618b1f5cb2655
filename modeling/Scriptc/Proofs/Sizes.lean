import Scriptc.Proofs.ExprWalk

/-!
# Scriptc: types that take room

The dimensions of an array are counted, so no type takes less than no room. `Ty.Fits` says so of a
type and of its elements, and `SymbolTable.Fits` of all types that are kept for names. A type that
is written in a program fits (`typeOf_fits`), and so does what an operator gives
(`Chain.step_fits`). That the types of all expressions do is shown where expressions are read.
-/

namespace Scriptc

open Build (Ends Gives ends_ofExcept_bind ends_pure)

/-! ## Types -/

/-- No dimension is negative. -/
@[grind =] def Ty.Fits : Ty → Prop
  | array e dims => e.Fits ∧ ∀ n ∈ dims, 0 ≤ n
  | _ => True

theorem foldl_mul_nonneg {dims : List Int} (h : ∀ n ∈ dims, 0 ≤ n) {a : Int} (ha : 0 ≤ a) :
    0 ≤ dims.foldl (· * ·) a := by
  induction dims generalizing a with
  | nil => exact ha
  | cons n dims ih =>
    rw [List.forall_mem_cons] at h
    exact ih h.2 (Int.mul_nonneg ha h.1)

variable {t : Ty}

theorem Ty.Fits.width_nonneg (h : t.Fits) : 0 ≤ t.width := by
  induction t with
  | array e dims ih =>
    rw [Ty.width]
    exact Int.mul_nonneg (ih h.1) (foldl_mul_nonneg h.2 (by decide))
  | integer | boolean | string | void | null | error => decide
  | named n => exact Int.le_refl 0

theorem Ty.Fits.size_nonneg (h : t.Fits) : 0 ≤ t.size := by
  have hwidth := h.width_nonneg
  unfold Ty.size
  grind

/-- An array of elements that have been counted. -/
theorem Ty.fits_array (h : t.Fits) (n : Nat) : (Ty.array t [n]).Fits :=
  ⟨h, fun m hm => by
    grind⟩

theorem Ty.fits_basic {n : String} (h : Ty.basic? n = some t) : t.Fits := by
  unfold Ty.basic? at h
  grind

theorem Ty.fits_ofReversed {cs : List Char} (h : Ty.ofReversed cs = .ok (some t)) : t.Fits := by
  fun_induction Ty.ofReversed cs generalizing t with
  | case1 rest ih =>
    cases hrest : Ty.ofReversed rest with
    | error f =>
      rw [hrest] at h
      cases h
    | ok e? =>
      rw [hrest] at h
      cases e? with
      | none => cases h
      | some e =>
        cases h
        exact fits_array (ih hrest) 0
  | case2 cs =>
    injection h with h
    exact fits_basic h

/-- No type of a name has a negative dimension. -/
def SymbolTable.Fits (T : SymbolTable) : Prop :=
  ∀ id s t, T.symbol? id = some s → s.type? = some t → t.Fits

namespace Compile

/-- Where the types of names fit, so does the type that is given, if there is one. -/
def Typed (T : SymbolTable) (type? : Option Ty) : Prop := T.Fits → ∀ t, type? = some t → t.Fits

variable {T : SymbolTable}

theorem Typed.of_fits {t : Ty} (h : t.Fits) : Typed T (some t) := by
  rintro - _ ⟨rfl⟩
  exact h

theorem Typed.none : Typed T none := fun _ _ ht => nomatch ht

theorem Typed.of_symbol {id : SymbolId} {s : Symbol} (hs : T.symbol? id = some s) :
    Typed T s.type? := fun hT t ht => hT id s t hs ht

theorem Typed.of_lookup {x : String} {s : Symbol} (hs : T.lookupSymbol? x = some s) :
    Typed T s.type? := by
  obtain ⟨id, -, hs⟩ := Option.bind_eq_some_iff.mp hs
  exact .of_symbol hs

/-- A type that is written is a basic one, a class, or an array of such. -/
theorem typeOf_fits {text : String} {b b' : Build} {t : Ty} (h : Ends (typeOf text) b (some t) b') :
    t.Fits := by
  unfold typeOf Ty.ofText at h
  grind [Ty.fits_ofReversed]

/-- There is a type, and it fits. -/
def Fit (type? : Option Ty) : Prop := ∃ t, type? = some t ∧ t.Fits

theorem Fit.typed {type? : Option Ty} (h : Fit type?) : Typed T type? := by
  obtain ⟨t, rfl, ht⟩ := h
  exact .of_fits ht

theorem not_fit_none : ¬ Fit none := by
  rintro ⟨_, ⟨⟩, _⟩

/-! ## Operators -/

theorem additive_fits (left right : Option Ty) (op : String) (line : Option Nat) :
    Gives Ty.Fits (Check.additive left right op line) := by
  unfold Check.additive
  grind

theorem arithmetic_fits (left right : Option Ty) (line : Option Nat) :
    Gives Ty.Fits (Check.arithmetic left right line) := by
  unfold Check.arithmetic
  grind

theorem logical_fits (left right : Option Ty) (line : Option Nat) :
    Gives Ty.Fits (Check.logical left right line) := by
  unfold Check.logical
  grind

theorem comparison_fits (left right : Option Ty) (op : String) (line : Option Nat) :
    Gives Ty.Fits (Check.comparison left right op line) := by
  unfold Check.comparison
  grind

theorem relational_fits (left right : Option Ty) (op : String) (line : Option Nat) :
    Gives Ty.Fits (Check.relational left right op line) := by
  unfold Check.relational
  grind

/-- The type of a chain behind an operator is one that the operator gives. -/
theorem Chain.step_fits (level : Level) (line : Nat) (c : Chain) (op : String) (at_ : Nat)
    (right? : Option Ty) :
    Gives (Fit ·.result?) (c.step level line op at_ right?) := by
  have hout : ∀ {t : Ty} {code : BuildM Operand} {left? : Option Ty}, t.Fits →
      Gives (fun c' : Chain => Fit c'.result?) (do
        let w ← if t == .error then pure c.value else code
        return ⟨left?, some t, w⟩) := fun ht =>
    .ite (.after fun _ => .pure ⟨_, rfl, ht⟩) (.after fun _ => .pure ⟨_, rfl, ht⟩)
  unfold Chain.step
  refine .after fun v => ?_
  cases level with
  | additive => exact .after fun _ => .bind (additive_fits _ _ _ _) fun t ht => hout ht
  | multiplicative => exact .bind (arithmetic_fits _ _ _) fun t ht => hout ht
  | equality => exact .bind (comparison_fits _ _ _ _) fun t ht => hout ht
  | relational => exact .bind (relational_fits _ _ _ _) fun t ht => hout ht
  | and | or => exact .bind (logical_fits _ _ _) fun t ht => hout ht

theorem literal_fits (l : Literal) : Gives Fit (literal l) := by
  unfold literal
  grind [Fit]

theorem unary_fits {line : Nat} {sign kind : String} {wanted : Ty} (hwanted : wanted.Fits)
    {operand? : Option Ty} {code : Operand → BuildM Operand} :
    Gives Fit (unary line sign kind wanted operand? code) := by
  unfold unary
  grind [Fit]

end Compile

end Scriptc
