import Scriptc.Proofs.Balance
import Scriptc.Proofs.Formed

/-!
# Scriptc: places in a frame

A frame is laid out if its entries are a word each, from offset zero on (`Frame.Laid`). Every frame
that is filled entry by entry is, so its entries have offsets of their own:
`Frame.entries_in_order`.

Names take their places in the current frame, and the current frame is the one made last. A call of
a function that has no frame yet makes one, which takes the place of the caller's:
`frame_slot_shared`.
-/

namespace Scriptc

open Build (Ends)

/-! ## Frames that are laid out -/

/-- An entry without its offset. -/
def FrameEntry.named (e : FrameEntry) : String × Option Ty := (e.name, e.type?)

namespace Frame

variable {f : Frame}

/-- The entries of a frame are a word each, one behind the other. -/
structure Laid (f : Frame) : Prop where
  size : f.size = 4 * (f.params ++ f.locals).length
  offset : ∀ i e, (f.params ++ f.locals)[i]? = some e → e.offset = 4 * i

theorem Laid.empty (function : String) : Laid { function := function } :=
  ⟨rfl, fun i e he => by simp at he⟩

theorem Laid.addParam (h : f.Laid) (hlocals : f.locals = []) (name : String) (type? : Option Ty) :
    (f.addParam name type?).Laid := by
  have hsize := h.size
  have hoffset := h.offset
  simp only [hlocals, List.append_nil] at hsize hoffset
  constructor
  · simp only [Frame.addParam, hlocals, List.append_nil, List.length_append, List.length_singleton]
    omega
  · intro i e he
    simp only [Frame.addParam, hlocals, List.append_nil] at he
    grind

theorem Laid.addParams (h : f.Laid) (hlocals : f.locals = []) (ps : List (String × Option Ty)) :
    (f.addParams ps).Laid := by
  induction ps generalizing f with
  | nil => exact h
  | cons p ps ih => exact ih (h.addParam hlocals p.1 p.2) hlocals

theorem Laid.addLocal (h : f.Laid) (name : String) (type? : Option Ty) :
    (f.addLocal name type?).Laid := by
  have hsize := h.size
  simp only [List.length_append] at hsize
  constructor
  · simp only [Frame.addLocal, List.length_append, List.length_singleton]
    omega
  · intro i e he
    simp only [Frame.addLocal, ← List.append_assoc] at he
    rcases Nat.lt_trichotomy i (f.params ++ f.locals).length with hi | rfl | hi
    · rw [List.getElem?_append_left hi] at he
      exact h.offset i e he
    · grind
    · grind

/-! ## Frames that are filled in order -/

def addLocals (f : Frame) (ls : List (String × Option Ty)) : Frame :=
  ls.foldl (fun f l => f.addLocal l.1 l.2) f

theorem Laid.addLocals (h : f.Laid) (ls : List (String × Option Ty)) : (f.addLocals ls).Laid := by
  induction ls generalizing f with
  | nil => exact h
  | cons l ls ih => exact ih (h.addLocal l.1 l.2)

theorem named_addParams (f : Frame) (ps : List (String × Option Ty)) :
    (f.addParams ps).params.map FrameEntry.named = f.params.map FrameEntry.named ++ ps ∧
      (f.addParams ps).locals = f.locals := by
  induction ps generalizing f with
  | nil => exact ⟨(List.append_nil _).symm, rfl⟩
  | cons p ps ih => simpa [addParams, addParam, FrameEntry.named] using ih (f.addParam p.1 p.2)

theorem named_addLocals (f : Frame) (ls : List (String × Option Ty)) :
    (f.addLocals ls).locals.map FrameEntry.named = f.locals.map FrameEntry.named ++ ls ∧
      (f.addLocals ls).params = f.params := by
  induction ls generalizing f with
  | nil => exact ⟨(List.append_nil _).symm, rfl⟩
  | cons l ls ih => simpa [Frame.addLocals, Frame.addLocal,
      FrameEntry.named] using ih (f.addLocal l.1 l.2)

/-- A name has the offset of the first entry of that name. -/
theorem Laid.offset?_eq (h : f.Laid) (x : String) :
    f.offset? x = ((f.params ++ f.locals).findIdx? (·.name == x)).map (4 * ·) := by
  rw [offset?, List.find?_eq_bind_findIdx?_getElem?]
  cases hi : (f.params ++ f.locals).findIdx? (·.name == x) with
  | none => rfl
  | some i =>
    obtain ⟨hlt, -⟩ := List.findIdx?_eq_some_iff_getElem.mp hi
    have he := List.getElem?_eq_getElem hlt
    simp [he, h.offset i _ he]

/-- **Entries are a word each, in the order in which they are added.** Of the parameters and then
local variables that are added to a new frame, the one at number `i` has the offset `4 * i`, so no
two have the same, and the size is that of all. A name has the offset of the first entry of that
name, and none exactly if there is no such entry. -/
theorem entries_in_order (function : String) (ps ls : List (String × Option Ty)) :
    let f := (addParams { function := function } ps).addLocals ls
    f.params.map FrameEntry.named = ps ∧ f.locals.map FrameEntry.named = ls ∧
    (∀ i e, (f.params ++ f.locals)[i]? = some e → e.offset = 4 * i) ∧
    (∀ (i j : Nat) (e e' : FrameEntry), (f.params ++ f.locals)[i]? = some e →
      (f.params ++ f.locals)[j]? = some e' →
      e.offset = e'.offset → i = j) ∧
    f.size = 4 * (ps.length + ls.length) ∧
    ∀ x, f.offset? x = ((ps ++ ls).findIdx? (·.1 == x)).map (4 * ·) ∧
      (f.offset? x = none ↔ ∀ p ∈ ps ++ ls, p.1 ≠ x) := by
  intro f
  have hlaid : f.Laid := ((Laid.empty function).addParams rfl ps).addLocals ls
  obtain ⟨hps, hnone⟩ := named_addParams { function := function } ps
  obtain ⟨hls, hparams⟩ := named_addLocals (addParams { function := function } ps) ls
  rw [hnone] at hls
  have hps : f.params.map FrameEntry.named = ps := (congrArg _ hparams).trans hps
  have hls : f.locals.map FrameEntry.named = ls := hls
  have hoffset : ∀ x, f.offset? x = ((ps ++ ls).findIdx? (·.1 == x)).map (4 * ·) := by
    intro x
    rw [hlaid.offset?_eq, ← hps, ← hls, ← List.map_append, List.findIdx?_map]
    rfl
  refine ⟨hps, hls, hlaid.offset, fun i j e e' he he' heq => ?_, ?_, fun x => ⟨hoffset x, ?_⟩⟩
  · rw [hlaid.offset i e he, hlaid.offset j e' he'] at heq
    omega
  · rw [hlaid.size, ← hps, ← hls, List.length_append, List.length_map, List.length_map]
  · rw [hoffset, Option.map_eq_none_iff, List.findIdx?_eq_none_iff]
    simp only [beq_eq_false_iff_ne]

end Frame

namespace Compile

variable {body : BuildM Unit}

/-! ## Frames of functions and methods -/

/-- Reading `step` writes the code of a function or a method, whose frame holds its parameters at
first. -/
inductive WritesRoutine (body : BuildM Unit) : Frame → BuildM Emit.RoutineCode → Prop where
  | function (name : String) (ps : List (String × Option Ty)) (result? : Option Ty) :
    WritesRoutine body (.addParams { function := name } ps) (Emit.function name ps result? body)
  | method (cls name : String) (ps : List (String × Option Ty)) (result? : Option Ty) :
    WritesRoutine body
      (.addParams (.addParam { function := Emit.methodKey cls name } Emit.thisParam none) ps)
      (Emit.method cls name ps result? body)

theorem WritesRoutine.laid {f₀ : Frame} {step : BuildM Emit.RoutineCode}
    (h : WritesRoutine body f₀ step) : f₀.Laid := by
  cases h with
  | function name ps result? => exact (Frame.Laid.empty name).addParams rfl ps
  | method cls name ps result? =>
    exact ((Frame.Laid.empty (Emit.methodKey cls name)).addParam rfl Emit.thisParam
      none).addParams rfl ps

/-- The implicit call of `toString` makes a frame that has the place of the function's: the first
local variable is put where the parameter is, and the second one behind the end of the function's
frame. -/
theorem frame_slot_shared : ∃ s b f,
    Source.ofText "function g(a: integer): integer \x7b let s: string = \"x\" + 1; let b: integer = 2; return a + b; \x7d" = .ok s ∧
    Ends (statements s.program) {} () b ∧ b.errors = #[] ∧ b.frames[0]? = some f ∧
    f.offset? "a" = some 0 ∧ f.size = 4 ∧
    b.quads.toList.take 2 = [{ op := .label, result := .text "FUNC_g" },
      { op := .enter, arg1 := .text "4" }] ∧
    [{ op := .add, arg1 := .string 0, arg2 := .temp 0, result := .temp 1 },
      { op := .copy, arg1 := .temp 1, result := .frame 0 },
      { op := .copy, arg1 := .text "2", result := .frame 4 },
      { op := .add, arg1 := .frame 0, arg2 := .frame 4, result := .temp 1 }] <:+:
        b.quads.toList := by
  simp only [exists_and_left]
  exact Source.of_read? (by decide +kernel)

end Compile

end Scriptc
