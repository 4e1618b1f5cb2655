import Scriptc.Proofs.PairedStmt

/-!
# Scriptc: a value at hand

A member is taken of an object only if there is a value at hand (`Operand.Given`). `Build.Valued`
says that there is one, and that temporaries and the labels of strings will be values too when they
come to hand. `Writes` is what every step that writes code does in such a state: it leaves one, and
touches neither reports nor names nor what is known about the place in the program
(`Build.SameView`).
-/

namespace Scriptc

open Build (Ends Keeps ends_bind ends_get_bind ends_modify ends_pure ends_throw)

/-- An operand that a member can be taken of. -/
def Operand.Given (o : Operand) : Prop := o.isPresent = true ∧ o ≠ .text "None"

namespace Operand

/-- The names of temporaries are never empty. -/
theorem given_temp (k : Nat) : (temp k).Given := ⟨rfl, nofun⟩

theorem given_frame (n : Nat) : (frame n).Given := ⟨rfl, nofun⟩

theorem given_cells (vs : List Operand) : (cells vs).Given := ⟨rfl, nofun⟩

variable {s : String}

/-- A text is a value unless it is empty or says that there is none. -/
theorem given_text (hempty : s ≠ "") (hnone : s ≠ "None") : (text s).Given :=
  ⟨decide_eq_true hempty, fun h => hnone (text.inj h)⟩

/-- So is what a text is read as. -/
theorem given_ofText (hempty : s ≠ "") (hnone : s ≠ "None") : (ofText s).Given := by
  have htext := text_ofText s
  cases ho : ofText s with
  | text t =>
    rw [ho] at htext
    obtain rfl : t = s := Option.some.inj htext
    exact given_text hempty hnone
  | none | int | decimal | cells =>
    rw [ho] at htext
    cases htext
  | _ => exact ⟨rfl, nofun⟩

/-- A text that begins with another character is neither empty nor the text for nothing. -/
theorem ne_none_of_head {c : Char} {cs : List Char} (h : s.toList = c :: cs) (hc : c ≠ 'N') :
    s ≠ "" ∧ s ≠ "None" := by
  constructor
  · rintro rfl
    cases h
  · rintro rfl
    exact hc (List.cons.inj h).1.symm

/-- An address is written in digits, whatever its sign. -/
theorem given_ofAddress (a : Int) : (ofAddress a).Given := by
  cases a with
  | ofNat n => exact ⟨rfl, nofun⟩
  | negSucc n =>
    have hhead : (Hex.wide (.negSucc n)).toList = '0' :: 'x' :: _ := String.toList_ofList
    obtain ⟨hempty, hnone⟩ := ne_none_of_head hhead (by decide)
    exact given_text hempty hnone

/-- The label of a string is one. -/
theorem given_string (k : Nat) : (ofText (string k).render).Given := by
  have hhead : (string k).render.toList = 's' :: 't' :: 'r' :: '_' :: (toString k).toList :=
    String.toList_append
  obtain ⟨hempty, hnone⟩ := ne_none_of_head hhead (by decide)
  exact given_ofText hempty hnone

/-- Even the place of a name that was not declared is a value. -/
theorem given_undefined (x : String) : (text ("UNDEFINED_" ++ x)).Given := by
  have hhead : ("UNDEFINED_" ++ x).toList = 'U' :: ("NDEFINED_".toList ++ x.toList) :=
    String.toList_append
  obtain ⟨hempty, hnone⟩ := ne_none_of_head hhead (by decide)
  exact given_text hempty hnone

end Operand

namespace Build

/-- There is a value at hand, and what can become one is one. -/
@[grind cases] structure Valued (b : Build) : Prop where
  value : b.value.Given
  lastTemp : b.lastTemp ≠ .text "None"
  reusable : ∀ o ∈ b.reusable, o.Given
  strings : Emit.StringsLabelled b

/-- Reports, names and the place in the program are the same. -/
structure SameView (b c : Build) : Prop where
  table : c.table = b.table
  errors : c.errors = b.errors
  warnings : c.warnings = b.warnings
  inFunction? : c.inFunction? = b.inFunction?
  inClass? : c.inClass? = b.inClass?
  loops : c.loops = b.loops
  unreachable : c.unreachable = b.unreachable

/-- All that is said of a state in which there is a value at hand. -/
def face (b : Build) :=
  (b.value, b.lastTemp, b.reusable, b.strings, b.table, b.errors, b.warnings, b.inFunction?,
    b.inClass?, b.loops,
    b.unreachable)

namespace SameView

variable {b c d : Build}

theorem refl (b : Build) : SameView b b := ⟨rfl, rfl, rfl, rfl, rfl, rfl, rfl⟩

/-- What two steps leave alone their sequence does. -/
theorem trans (h : SameView b c) (h' : SameView c d) : SameView b d :=
  ⟨h'.table.trans h.table, h'.errors.trans h.errors, h'.warnings.trans h.warnings,
    h'.inFunction?.trans h.inFunction?, h'.inClass?.trans h.inClass?, h'.loops.trans h.loops,
    h'.unreachable.trans h.unreachable⟩

/-- What says nothing changes nothing that is said. -/
theorem of_silent (h : Emit.Silent b c) : SameView b c :=
  { h with }

end SameView

end Build

/-- What a step that writes code does where there is a value at hand. -/
def Writes {α : Type} (ok : α → Prop) (m : BuildM α) : Prop :=
  ∀ ⦃b a c⦄, b.Valued → Ends m b a c → c.Valued ∧ b.SameView c ∧ ok a

namespace Writes

variable {α β : Type} {ok : α → Prop} {ok' : β → Prop} {m : BuildM α} {o : Operand}

/-- Whatever the step gives. -/
abbrev Anything {α : Type} : α → Prop := fun _ => True

/-! ## Sequences -/

theorem pure {a : α} (ha : ok a) : Writes ok (pure a : BuildM α) := by
  intro b a' c hb hend
  obtain ⟨rfl, rfl⟩ := ends_pure.mp hend
  exact ⟨hb, .refl _, ha⟩

theorem throw (e : Fault) :
    Writes ok (throw e : BuildM α) := fun _ _ _ _ hend => absurd hend ends_throw

/-- The second step may rely on what the first one gives. -/
theorem bind {f : α → BuildM β} (hm : Writes ok m) (hf : ∀ a, ok a → Writes ok' (f a)) :
    Writes ok' (m >>= f) := by
  intro b d c hb hend
  obtain ⟨a, b₁, hend₁, hend₂⟩ := ends_bind.mp hend
  obtain ⟨hb₁, hview₁, ha⟩ := hm hb hend₁
  obtain ⟨hc, hview₂, hd⟩ := hf a ha hb₁ hend₂
  exact ⟨hc, hview₁.trans hview₂, hd⟩

theorem seq {k : BuildM β} (hm : Writes ok m) (hk : Writes ok' k) : Writes ok' (m >>= fun _ => k) :=
  hm.bind fun _ _ => hk

/-- One of two steps, in front of others. -/
theorem either {c : Prop} [Decidable c] {m' : BuildM α} {f : α → BuildM β} (hm : Writes ok m)
    (hm' : Writes ok m') (hf : ∀ a, ok a → Writes ok' (f a)) :
    Writes ok' (if c then m >>= f else m' >>= f) := by
  split
  · exact hm.bind hf
  · exact hm'.bind hf

/-- A step that may be left out, in front of others. -/
theorem maybe {c : Prop} [Decidable c] {k : BuildM β} (hm : Writes Anything m) (hk : Writes ok' k) :
    Writes ok' (if c then m >>= fun _ => k else k) := by
  split
  · exact seq hm hk
  · exact hk

/-- A state that is looked at is one with a value at hand. -/
theorem look {f : Build → BuildM β} (hf : ∀ b, b.Valued → Writes ok' (f b)) :
    Writes ok' (get >>= f) := by
  intro b d c hb hend
  exact hf b hb hb (ends_get_bind.mp hend)

theorem read {f : Build → α} (hf : ∀ b, b.Valued → ok (f b)) : Writes ok (do return f (← get)) :=
  look fun b hb => pure (hf b hb)

/-- A step that keeps values, temporaries and labels, and what is seen from outside. -/
theorem modify {f : Build → Build} (h : ∀ b, (f b).face = b.face) :
    Writes Anything (modify f : BuildM PUnit) := by
  intro b u c hb hend
  obtain rfl := ends_modify.mp hend
  have hface := h b
  simp only [Build.face, Prod.mk.injEq] at hface
  obtain ⟨hvalue, htemp, hreusable, hstrings, htable, herrors, hwarnings, hfunction, hclass,
    hdepth, hdead⟩ := hface
  refine ⟨⟨hvalue ▸ hb.value, htemp ▸ hb.lastTemp, hreusable ▸ hb.reusable, fun s l hget => ?_⟩,
    ⟨htable, herrors, hwarnings, hfunction, hclass, hdepth, hdead⟩, trivial⟩
  rw [hstrings] at hget
  exact hb.strings s l hget

/-- A fault is no end, so nothing is asked of it. -/
theorem ofExcept (r : Except Fault α) : Writes Anything (Build.ofExcept r) := by
  cases r with
  | ok a => exact pure trivial
  | error e => exact throw e

/-- A step for each element, if each of them keeps a value at hand. -/
theorem forM {xs : List α} {f : α → BuildM PUnit} (hf : ∀ x ∈ xs, Writes Anything (f x)) :
    Writes Anything (xs.forM f) := by
  induction xs with
  | nil => exact pure trivial
  | cons x xs ih =>
    exact seq (hf x (.head _)) (ih fun y hy => hf y (.tail _ hy))

/-! ## Temporaries, labels and values -/

/-- A quadruple is written whatever its operands are. -/
theorem quad (q : Quad) : Writes Anything (Emit.quad q) :=
  modify fun _ => rfl

theorem mark (l : Operand) : Writes Anything (Emit.mark l) := quad _

theorem jump (l : Operand) : Writes Anything (Emit.jump l) := quad _

theorem say (line : String) : Writes Anything (Build.say line) :=
  modify fun _ => rfl

theorem setDirect (on : Bool) : Writes Anything (Emit.setDirect on) :=
  modify fun _ => rfl

theorem newLabel : Writes Anything Emit.newLabel := by
  intro b l c hb hend
  obtain ⟨-, rfl⟩ := Emit.ends_newLabel.mp hend
  exact ⟨{ hb with }, { Build.SameView.refl _ with }, trivial⟩

theorem endExpression : Writes Anything Emit.endExpression := by
  intro b u c hb hend
  obtain rfl := ends_modify.mp hend
  exact ⟨⟨hb.value, nofun, hb.reusable, hb.strings⟩, { Build.SameView.refl _ with }, trivial⟩

/-- A function begins without temporaries that could be used again. -/
theorem setFunction (name : String) : Writes Anything (Emit.setFunction name) := by
  intro b u c hb hend
  obtain rfl := ends_modify.mp hend
  exact ⟨⟨hb.value, nofun, nofun, hb.strings⟩, { Build.SameView.refl _ with }, trivial⟩

/-- What comes to hand is a value. -/
theorem setValue (ho : o.Given) : Writes Anything (Emit.setValue o) := by
  intro b u c hb hend
  obtain rfl := ends_modify.mp hend
  exact ⟨⟨ho, hb.lastTemp, hb.reusable, hb.strings⟩, { Build.SameView.refl _ with }, trivial⟩

theorem setLastTemp (ho : o.Given) : Writes Anything (Emit.setLastTemp o) := by
  intro b u c hb hend
  obtain rfl := ends_modify.mp hend
  exact ⟨⟨hb.value, ho.2, hb.reusable, hb.strings⟩, { Build.SameView.refl _ with }, trivial⟩

theorem use (o : Operand) : Writes Anything (Emit.use o) := by
  intro b u c hb hend
  refine ⟨?_, .of_silent (Emit.Silent.use o hend), trivial⟩
  obtain rfl := ends_modify.mp hend
  split
  · exact ⟨hb.value, hb.lastTemp, fun p hp => hb.reusable p (List.mem_of_mem_erase hp), hb.strings⟩
  · exact hb

/-- A temporary that is released is a value when it is taken again. -/
theorem release (ho : o.Given) : Writes Anything (Emit.release o) := by
  intro b u c hb hend
  refine ⟨?_, .of_silent (Emit.Silent.release o hend), trivial⟩
  obtain rfl := ends_modify.mp hend
  split
  · refine ⟨hb.value, hb.lastTemp, fun p hp => ?_, hb.strings⟩
    grind
  · exact hb

/-- A temporary that was released, or a new one. -/
theorem newTemp : Writes Operand.Given Emit.newTemp := by
  intro b t c hb hend
  have hview := Emit.Silent.newTemp hend
  obtain ⟨counts, rest, rfl, hrest, ht⟩ := Emit.newTemp_ends hend
  have hgiven : t.Given := by
    rcases ht with ht | ⟨k, rfl⟩
    · exact hb.reusable t ht
    · exact Operand.given_temp k
  exact ⟨⟨hb.value, hgiven.2, fun o ho => hb.reusable o (hrest ho), hb.strings⟩,
    .of_silent hview, hgiven⟩

theorem lastOrNew : Writes Operand.Given Emit.lastOrNew := by
  refine look fun b hb => ?_
  split
  · rename_i hlast
    exact pure ⟨(Bool.and_eq_true_iff.mp hlast).1, hb.lastTemp⟩
  · exact newTemp

/-- A value of its own is written down. -/
theorem load (q : Operand → Quad) : Writes Operand.Given (do
    let t ← Emit.newTemp
    Emit.quad (q t)
    Emit.setValue t
    return t) := newTemp.bind fun _ ht => seq (quad _) (seq (setValue ht) (pure ht))

/-- The result of an operator comes to hand. -/
theorem finish {t : Operand} (ht : t.Given) : Writes Operand.Given (Emit.finish t) :=
  seq (setValue ht) (seq (setLastTemp ht) (pure ht))

/-! ## Operators and constants -/

theorem arithmetic (l r : Operand) (op : String) : Writes Operand.Given (Emit.arithmetic l r op) :=
  seq (use l) (seq (use r)
    (seq (ofExcept _) (seq (ofExcept _) (newTemp.bind fun _ ht => seq (quad _) (finish ht)))))

theorem comparison (l r : Operand) (op : String) : Writes Operand.Given (Emit.comparison l r op) :=
  seq (use l) (seq (use r) (newTemp.bind fun _ ht =>
    seq (quad _) (seq (finish ht) (seq (ofExcept _) (seq (ofExcept _) (pure ht))))))

theorem unary (o : Operand) (op : String) : Writes Operand.Given (Emit.unary o op) :=
  seq (use o) (lastOrNew.bind fun _ ht => seq (quad _) (finish ht))

theorem logicalNot (o : Operand) : Writes Operand.Given (Emit.logicalNot o) :=
  seq (use o) (newTemp.bind fun _ ht => seq (quad _) (finish ht))

/-- The result is assigned on both ways. -/
theorem shortCircuit (test : Op) (constant : String) (l r : Operand) :
    Writes Operand.Given (Emit.shortCircuit test constant l r) :=
  newTemp.bind fun _ ht => newLabel.bind fun _ _ => newLabel.bind fun _ _ =>
    seq (quad _) (seq (quad _)
      (seq (jump _) (seq (mark _) (seq (quad _) (seq (mark _) (finish ht))))))

theorem logical (l r : Operand) (op : String) : Writes Operand.Given (Emit.logical l r op) := by
  refine seq (use l) (seq (use r) ?_)
  split
  · exact shortCircuit _ _ _ _
  · exact shortCircuit _ _ _ _
  · exact lastOrNew.bind fun _ ht => seq (quad _) (finish ht)

/-- A temporary that is stored is released. -/
theorem assign (target : Operand) {v : Operand} (hv : v.Given) :
    Writes Anything (Emit.assign target v) := by
  refine (ofExcept _).bind fun isTemp _ => seq (quad _) ?_
  split
  · exact seq (release hv) (pure trivial)
  · exact pure trivial

/-- A string has a label already or is given the next one. -/
theorem stringLabel (literal : String) :
    Writes (fun l => (Operand.ofText l).Given) (Emit.stringLabel literal) := by
  intro b l c hb hend
  have hview := Emit.Silent.stringLabel literal hend
  obtain ⟨⟨k, rfl⟩, hstrings⟩ := hb.strings.stringLabel hend
  have hvalues : c.value = b.value ∧ c.lastTemp = b.lastTemp ∧ c.reusable = b.reusable := by
    rcases Emit.stringLabel_ends hend with ⟨-, rfl⟩ | ⟨-, rfl⟩
    · exact ⟨rfl, rfl, rfl⟩
    · exact ⟨rfl, rfl, rfl⟩
  obtain ⟨hvalue, htemp, hreusable⟩ := hvalues
  exact ⟨⟨hvalue ▸ hb.value, htemp ▸ hb.lastTemp, hreusable ▸ hb.reusable,
    hstrings⟩, .of_silent hview,
    Operand.given_string k⟩

/-- A constant is never the empty text, so it is a value. -/
theorem constant {text : String} (htext : text ≠ "" ∧ text ≠ "None") :
    Writes Operand.Given (Emit.constant text) := by
  have hlabel : Writes Operand.Given (Operand.ofText <$> Emit.stringLabel text) := by
    rw [map_eq_pure_bind]
    exact (stringLabel text).bind fun _ hl => pure hl
  unfold Emit.constant
  refine either hlabel (pure (Operand.given_ofText htext.1 htext.2)) fun o ho => look fun b _ => ?_
  split
  · exact seq (setValue ho) (pure ho)
  · exact load _

theorem print (o : Operand) (type? : Option Ty) : Writes Anything (Emit.print o type?) := by
  unfold Emit.print
  dsimp only
  split
  · exact quad _
  · split
    · exact quad _
    · split
      · exact quad _
      · exact (ofExcept _).bind fun _ _ => quad _

/-! ## Arrays -/

theorem compute (op : Op) (x y : Operand) : Writes Operand.Given (Emit.compute op x y) :=
  newTemp.bind fun _ ht => seq (quad _) (pure ht)

theorem elementAddress (base index : Operand) (size : Int) :
    Writes Operand.Given (Emit.elementAddress base index size) :=
  (compute _ _ _).bind fun _ _ => compute _ _ _

/-- The element comes to hand, and its address does not. -/
theorem loadElement (base index : Operand) (size : Int) :
    Writes Operand.Given (Emit.loadElement base index size) :=
  (elementAddress _ _ _).bind fun _ _ => load _

theorem storeElement (base index v : Operand) (size : Int) :
    Writes Anything (Emit.storeElement base index v size) :=
  (elementAddress _ _ _).bind fun _ _ => seq (quad _) (pure trivial)

/-- One store for each element, at the offsets of the elements. -/
theorem storeAll (address : Operand) (i : Nat) (vs : List Operand) :
    Writes Anything (Emit.storeAll address i vs) := by
  induction vs generalizing i with
  | nil => exact pure trivial
  | cons v vs ih =>
    rw [Emit.storeAll]
    refine newTemp.bind fun _ _ =>
      seq (quad _) ((compute _ _ _).bind fun _ _ => (compute _ _ _).bind fun _ _ => ?_)
    exact seq (quad _) (ih (i + 1))

/-! ## Places -/

/-- A step that neither writes code nor touches values. -/
theorem silent (hm : Keeps Emit.Silent m)
    (hsame : ∀ b a c, Ends m b a c → c.value = b.value ∧ c.lastTemp = b.lastTemp ∧
      c.reusable = b.reusable ∧
      c.strings = b.strings ∧ ok a) : Writes ok m := by
  intro b a c hb hend
  obtain ⟨hvalue, htemp, hreusable, hstrings, ha⟩ := hsame b a c hend
  refine ⟨⟨hvalue ▸ hb.value, htemp ▸ hb.lastTemp, hreusable ▸ hb.reusable, fun s l hget => ?_⟩,
    .of_silent (hm hend), ha⟩
  rw [hstrings] at hget
  exact hb.strings s l hget

/-- Storage is none of what is looked at. -/
theorem allocate (alloc : Storage → Slot × Storage) :
    Writes Operand.Given (Emit.allocate alloc) := by
  refine silent (Emit.Silent.allocate alloc) fun b o c hend => ?_
  obtain ⟨a, -, rfl, rfl⟩ := Emit.allocate_ends hend
  exact ⟨rfl, rfl, rfl, rfl, Operand.given_ofAddress a⟩

theorem newFrame (function : String) : Writes Anything (Emit.newFrame function) := by
  refine silent (Emit.Silent.newFrame function) fun b id c hend => ?_
  grind

theorem modifyFrame (id : FrameId) (f : Frame → Frame) : Writes Anything (Emit.modifyFrame id f) :=
  modify fun _ => rfl

theorem frameAt (id : FrameId) : Writes Anything (Emit.frameAt id) := read fun _ _ => trivial

/-- A place in a frame, which may be made for the name. -/
theorem frameSlot (id : FrameId) (x : String) (type? : Option Ty) :
    Writes Operand.Given (Emit.frameSlot id x type?) := by
  refine silent (Emit.Silent.frameSlot id x type?) fun b o c hend => ?_
  rcases Emit.frameSlot_ends hend with ⟨n, -, rfl, rfl⟩ | ⟨-, function, slot, rfl, hc⟩
  · exact ⟨rfl, rfl, rfl, rfl, Operand.given_frame n⟩
  · rw [hc]
    exact ⟨rfl, rfl, rfl, rfl, Operand.given_frame _⟩

/-- A place is a value even for a name that was not declared. -/
theorem place (x : String) : Writes Operand.Given (Emit.place x) := by
  refine look fun b _ => ?_
  split
  · exact pure (Operand.given_undefined x)
  · split
    · refine (ofExcept _).bind fun size _ => ?_
      split
      · exact allocate _
      · exact allocate _
    · split
      · exact frameSlot _ _ _
      · exact (ofExcept _).bind fun size _ => allocate _

/-- The place of a parameter is in the frame of the function. -/
theorem variableValue (x : String) : Writes Operand.Given (Emit.variableValue x) := by
  have hoffset : Writes Anything (Emit.routineOffset? x) := by
    refine look fun b _ => ?_
    split
    · exact pure trivial
    · exact (frameAt _).bind fun _ _ => pure trivial
  refine hoffset.bind fun n? _ => ?_
  cases n? with
  | some n => exact seq (setValue (Operand.given_frame n)) (pure (Operand.given_frame n))
  | none => exact (place x).bind fun o ho => seq (setValue ho) (pure ho)

theorem placeValue (x : String) : Writes Operand.Given (Emit.placeValue x) :=
  (place x).bind fun _ _ => load _

theorem elementSize (x : String) : Writes Anything (Emit.elementSize x) := by
  refine (read fun _ _ => trivial : Writes Anything (Build.lookup? x)).bind fun s? _ => ?_
  split <;> exact pure trivial

theorem storeToArray (x : String) (i v : Operand) : Writes Anything (Emit.storeToArray x i v) :=
  (placeValue x).bind fun _ _ => (elementSize x).bind fun _ _ => storeElement _ _ _ _

/-- The first value of a variable, which may be the cells of an array. -/
theorem initialise (x : String) : Writes Anything (Compile.initialise x) := by
  refine (read fun _ hb => hb.value : Writes Operand.Given Compile.value).bind fun v hv => ?_
  split
  · exact (place x).bind fun _ _ => storeAll _ _ _
  · exact (place x).bind fun _ _ => seq (assign _ hv) (pure trivial)

/-! ## Calls and objects -/

theorem takeResult (n : Nat) : Writes Operand.Given (Emit.takeResult n) := by
  unfold Emit.takeResult
  exact maybe (quad _) (load _)

/-- The result of a call is a temporary, also if nothing is returned. -/
theorem call (f : String) (vs : List Operand) : Writes Operand.Given (Emit.call f vs) := by
  refine look fun b _ => maybe (newFrame f) ?_
  exact seq (forM fun _ _ => quad _) (seq (quad _) (takeResult _))

/-- An object goes to its method as the first argument. -/
theorem callMethod (o : Operand) (cls f : String) (vs : List Operand) :
    Writes Operand.Given (Emit.callMethod o cls f vs) := by
  refine look fun b _ => ?_
  dsimp only
  rw [← bind_assoc]
  refine maybe ((newFrame _).bind fun frame _ => modifyFrame frame _)
    (seq (say _) (seq (say _) (seq (say _) ?_)))
  exact seq (forM fun _ _ => quad _) (seq (quad _) (seq (quad _) (takeResult _)))

theorem returnValue (o : Operand) : Writes Anything (Emit.returnValue o) := by
  refine look fun b _ => ?_
  split
  · exact pure trivial
  · exact seq (quad _) (pure trivial)

/-- Outside of the code of a loop there is nowhere to go. -/
theorem leaveTo (target : Loop → Operand) : Writes Anything (Emit.leaveTo target) := by
  refine look fun b _ => ?_
  split
  · exact pure trivial
  · exact seq (jump _) (pure trivial)

/-- The address of a new object is in a temporary. -/
theorem newObject (cls : String) : Writes Operand.Given (Emit.newObject cls) := by
  intro b o c hb hend
  obtain ⟨layouts, storage, a, hload⟩ := Emit.newObject_ends hend
  have hroom : Build.Valued { b with layouts := layouts, storage := storage } :=
    { hb with }
  obtain ⟨hc, hview, ho⟩ := load _ hroom hload
  exact ⟨hc, { hview with }, ho⟩

theorem layout (id : SymbolId) : Writes Anything (Emit.layout id) := by
  intro b l? c hb hend
  have hc := (Compile.Placed.laysOut_layout id hend).eq
  rw [hc]
  exact ⟨{ hb with }, { Build.SameView.refl _ with }, trivial⟩

/-- No value or no layout is a fault, and otherwise nothing happens. -/
theorem requireMember (base : Operand) (cls member : String) :
    Writes Anything (Emit.requireMember base cls member) := by
  refine maybe (throw _) (look fun b _ => ?_)
  split
  · exact throw _
  · exact pure trivial

theorem memberAddress (base : Operand) (cls member : String) :
    Writes Operand.Given (Emit.memberAddress base cls member) := by
  refine maybe (throw _) (look fun b _ => ?_)
  split
  · exact throw _
  · split
    · exact throw _
    · exact newTemp.bind fun _ ht => seq (quad _) (pure ht)

theorem loadMember (base : Operand) (cls member : String) :
    Writes Operand.Given (Emit.loadMember base cls member) :=
  (requireMember _ _ _).bind fun _ _ => (memberAddress _ _ _).bind fun _ _ =>
    load _

theorem storeMember (base : Operand) (cls member : String) (v : Operand) :
    Writes Anything (Emit.storeMember base cls member v) :=
  (requireMember _ _ _).bind fun _ _ => (memberAddress _ _ _).bind fun _ _ =>
  seq (quad _) (pure trivial)

/-- The object of a method is in the first word of its frame. -/
theorem loadThis : Writes Operand.Given Emit.loadThis :=
  newTemp.bind fun t ht => seq (quad _) (seq (use t) (pure ht))

/-! ## Functions -/

theorem typeOf? (text? : Option String) : Writes Anything (Compile.typeOf? text?) := by
  cases text? with
  | none => exact pure trivial
  | some text =>
    rw [Compile.typeOf?, Compile.typeOf_eq]
    refine (ofExcept _).bind fun t? _ => ?_
    cases t? with
    | some t => exact pure trivial
    | none =>
      rw [Option.elim, Compile.class?_eq]
      exact (read fun _ _ => trivial : Writes Anything _).bind fun _ _ => pure trivial

/-- The types of the parameters are read again, and nothing is written. -/
theorem frameParams (ps : List Param) : Writes Anything (Compile.frameParams ps) := by
  unfold Compile.frameParams
  induction ps with
  | nil => exact pure trivial
  | cons p ps ih =>
    rw [List.mapM_cons]
    have hparam : Writes Anything
      (do return (p.name, some ((← Compile.typeOf? p.type?).getD .void))) :=
      (typeOf? p.type?).bind fun _ _ => pure trivial
    exact hparam.bind fun _ _ => ih.bind fun _ _ => pure trivial

end Writes

end Scriptc
