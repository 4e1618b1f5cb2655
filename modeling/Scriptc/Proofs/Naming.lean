import Mathlib.SetTheory.Cardinal.Arithmetic
import Scriptc.Proofs.Blind

/-!
# Scriptc: names do not go into the code

Tables, frames and storage keep variables under their names, storage also under the name of a
function joined to that of a variable (`Storage.localKey`). Still the code of a program does not
depend on these names: `Compile.program_rename` compares the reading of a program without classes
with that of the same program with other names for its variables. Both stop at the same fault or
complete, report errors on the same lines, and leave the same code, counters, strings and frames but
for the names in them.

The comparison is an instance of `Pairing`. Most of the code is written by steps that see no names
(`Blind`); what is left are the places of variables, for which frames and storage go along with the
renaming (`Frame.rename`, `Storage.Renamed`).
-/

namespace Scriptc

open Build (Ends isClean)
variable {r : Renaming}

/-! ## Frames -/

def FrameEntry.rename (r : Renaming) (e : FrameEntry) : FrameEntry :=
  { e with name := r.var e.name }

namespace Frame

def rename (r : Renaming) (f : Frame) : Frame :=
  { f with
    params := f.params.map (FrameEntry.rename r)
    locals := f.locals.map (FrameEntry.rename r) }

variable {r : Renaming}

/-- A renamed frame has the same offsets. -/
theorem offset?_rename (hr : Function.Injective r.var) (f : Frame) (x : String) :
    (f.rename r).offset? (r.var x) = f.offset? x := by
  unfold offset?
  have happend : (f.rename r).params ++ (f.rename r).locals = (f.params ++ f.locals).map
    (FrameEntry.rename r) :=
    List.map_append.symm
  rw [happend, List.find?_map, Option.map_map]
  have hname : ((fun e : FrameEntry => e.name == r.var x) ∘ FrameEntry.rename r) =
    fun e => e.name == x := by
    funext e
    show (r.var e.name == r.var x) = (e.name == x)
    grind
  rw [hname]
  rfl

theorem addLocal_rename (f : Frame) (x : String) (type? : Option Ty) :
    (f.rename r).addLocal (r.var x) type? = (f.addLocal x type?).rename r := by
  simp [addLocal, rename, FrameEntry.rename]

/-- By induction on the parameters. -/
theorem addParams_rename (f : Frame) (ps : List (String × Option Ty)) :
    (f.rename r).addParams (ps.map fun p => (r.var p.1, p.2)) = (f.addParams ps).rename r := by
  unfold addParams
  induction ps generalizing f with
  | nil => rfl
  | cons p ps ih =>
    rw [List.map_cons, List.foldl_cons, List.foldl_cons, ← ih]
    congr 1
    simp [addParam, rename, FrameEntry.rename]

end Frame

/-! ## Storage -/

namespace Storage

/-- The key of a local variable tells its function and its name. -/
theorem localKey_inj {f g x y : String} (hx : Plain x) (hy : Plain y)
    (h : localKey f x = localKey g y) :
    f = g ∧ x = y := by
  have hlist : (f ++ ":").toList ++ ':' :: x.toList = (g ++ ":").toList ++ ':' :: y.toList := by
    have happend := congrArg String.toList h
    simpa [localKey] using happend
  obtain ⟨hfg, hxy⟩ := split_inj hx hy hlist
  rw [String.toList_append, String.toList_append] at hfg
  exact ⟨String.toList_inj.mp (List.append_cancel_right hfg), String.toList_inj.mp hxy⟩

/-- The keys under which a variable is kept before and after it gets another name. -/
inductive SameKey (r : Renaming) : String → String → Prop where
  | global {x : String} (hx : Plain x) (hx' : Plain (r.var x)) : SameKey r x (r.var x)
  | inFunction (f : String) {x : String} (hx : Plain x) (hx' : Plain (r.var x)) :
    SameKey r (localKey f x) (localKey f (r.var x))

/-- Keys are the same before and after the names are changed. -/
theorem SameKey.eq_iff (hr : Function.Injective r.var) {k k' l l' : String} (hk : SameKey r k k')
    (hl : SameKey r l l') : k = l ↔ k' = l' := by
  cases hk with
  | global hx hx' =>
    cases hl with
    | global hy hy' => exact hr.eq_iff.symm
    | inFunction f hy hy' => exact iff_of_false (hx.ne_localKey f _) (hx'.ne_localKey f _)
  | inFunction f hx hx' =>
    cases hl with
    | global hy hy' =>
      exact iff_of_false (Ne.symm (hy.ne_localKey f _)) (Ne.symm (hy'.ne_localKey f _))
    | inFunction g hy hy' =>
      constructor
      · intro h
        obtain ⟨rfl, rfl⟩ := localKey_inj hx hy h
        rfl
      · intro h
        obtain ⟨rfl, hxy⟩ := localKey_inj hx' hy' h
        rw [hr hxy]

/-- Storage that differs only in the names of its variables. -/
structure Renamed (r : Renaming) (s s' : Storage) : Prop where
  nextGlobal : s'.nextGlobal = s.nextGlobal
  nextHeap : s'.nextHeap = s.nextHeap
  nextStack : s'.nextStack = s.nextStack
  slots : List.Forall₂ (fun e e' => SameKey r e.1 e'.1 ∧ e'.2 = e.2) s.slots s'.slots

namespace Renamed

variable {r : Renaming} {s s' : Storage} {k k' : String} (hr : Function.Injective r.var)
include hr

/-- What is kept for a name is kept for its new name. -/
theorem slot? (h : Renamed r s s') (hk : SameKey r k k') : s'.slot? k' = s.slot? k := by
  unfold Storage.slot?
  have hslots := h.slots
  generalize s.slots = t at hslots ⊢
  generalize s'.slots = t' at hslots ⊢
  induction hslots with
  | nil => rfl
  | @cons e e' t t' he _ ih =>
    show (if e'.1 = k' then some e'.2 else Assoc.get? t' k') = if e.1 = k then
      some e.2 else Assoc.get? t k
    rw [ih, he.2]
    simp only [(he.1.eq_iff hr hk)]

/-- A slot that is put under a key is put under the new one. -/
theorem put (h : Renamed r s s') (hk : SameKey r k k') (p : Slot) :
    List.Forall₂ (fun e e' => SameKey r e.1 e'.1 ∧ e'.2 = e.2) (s.slots.put k p)
      (s'.slots.put k' p) := by
  have hslots := h.slots
  generalize s.slots = t at hslots ⊢
  generalize s'.slots = t' at hslots ⊢
  induction hslots with
  | nil => exact .cons ⟨hk, rfl⟩ .nil
  | @cons e e' t t' he htail ih =>
    show List.Forall₂ _ (if e.1 = k then (e.1, p) :: t else (e.1, e.2) :: Assoc.put t k p)
      (if e'.1 = k' then (e'.1, p) :: t' else (e'.1, e'.2) :: Assoc.put t' k' p)
    by_cases hek : e.1 = k
    · rw [if_pos hek, if_pos ((he.1.eq_iff hr hk).mp hek)]
      exact .cons ⟨he.1, rfl⟩ htail
    · rw [if_neg hek, if_neg fun h => hek ((he.1.eq_iff hr hk).mpr h)]
      exact .cons he ih

/-- Both get the next address. -/
theorem allocGlobal (h : Renamed r s s') (hk : SameKey r k k') (size : Int) :
    (s'.allocGlobal k' size).1 = (s.allocGlobal k size).1 ∧
      Renamed r (s.allocGlobal k size).2 (s'.allocGlobal k' size).2 := by
  unfold Storage.allocGlobal
  rw [h.slot? hr hk, h.nextGlobal]
  cases s.slot? k with
  | some p => exact ⟨rfl, h⟩
  | none => exact ⟨rfl, rfl, h.nextHeap, h.nextStack, h.put hr hk _⟩

theorem allocArray (h : Renamed r s s') (hk : SameKey r k k') (count size : Int) :
    (s'.allocArray k' count size).1 = (s.allocArray k count size).1 ∧
      Renamed r (s.allocArray k count size).2 (s'.allocArray k' count size).2 := by
  unfold Storage.allocArray Storage.allocHeap
  rw [h.slot? hr hk, h.nextHeap]
  cases s.slot? k with
  | some p => exact ⟨rfl, h⟩
  | none => exact ⟨rfl, h.nextGlobal, rfl, h.nextStack, h.put hr hk _⟩

end Renamed

end Storage

/-! ## The comparison -/

/-- Reports on the same line. -/
def SameLine (m m' : String) : Prop :=
  ∃ line t t', m = "Error semántico. Línea " ++ Build.lineText line ++ ": " ++ t ∧
    m' = "Error semántico. Línea " ++ Build.lineText line ++ ": " ++ t'

/-- The code is the same, and frames and storage are but for names. -/
structure SameCode (r : Renaming) (b b' : Build) : Prop where
  code : b' = b'.veil.on b
  frames : b'.frames = b.frames.map (Frame.rename r)
  storage : Storage.Renamed r b.storage b'.storage

/-- What is not veiled is the same. -/
theorem SameCode.same {b b' : Build} {α : Type} (h : SameCode r b b') (f : Build → α)
    (hf : ∀ (v : Veil) c, f (v.on c) = f c) : f b' = f b :=
  (congrArg f h.code).trans (hf _ _)

/-- The reading of a program without classes against that of the program with other names. -/
def naming (r : Renaming) : Pairing where
  names := r
  lax := False
  classes := False
  fit x := Storage.Plain x ∧ Storage.Plain (r.var x)
  lit _ := True
  aside _ := True
  operand := Eq
  text _ _ := True
  reports es es' := List.Forall₂ SameLine es.toList es'.toList
  code := SameCode r

namespace Naming

open Pairing (Any)

variable {r : Renaming} {b b' : Build} {body body' : BuildM Unit} {c c' : BuildM Operand}
variable {α α' : Type} {m : BuildM α}

/-- What the framework asks of a renaming of variables. -/
theorem base (hr : Function.Injective r.var) : (naming r).Base where
  inj := hr
  ident := False.elim
  text_var _ _ := trivial
  text_member _ _ := trivial
  report line t t' _ h := by
    show List.Forall₂ SameLine (Array.toList (Array.push _ _)) (Array.toList (Array.push _ _))
    rw [Array.toList_push, Array.toList_push]
    exact List.rel_append h (.cons ⟨line, t, t', rfl, rfl⟩ .nil)
  apart {_ _ _ t' _ e' _ w' _ f' _ k' _ n' _ u'} h :=
    ⟨congrArg (fun c : Build => { c with
        table := t', errors := e', warnings := w', inFunction? := f', inClass? := k', loops :=
          n', unreachable := u' })
      h.code, h.frames, h.storage⟩

/-- Steps that look at no names come to the same. -/
theorem blind (hm : Blind m) : (naming r).Alike m := by
  intro b b' h
  have hrun := hm b b'.veil
  rw [← h.code.code] at hrun
  have hveil := hm.veil b
  unfold Build.From
  rw [hrun]
  generalize b.run m = run at hveil
  obtain ⟨res, c⟩ := run
  have hagree : (naming r).Agree c (b'.veil.on c) := by
    rw [show c = b.veil.on c from hveil]
    exact { h with code := { h.code with code := rfl } }
  cases res with
  | error e => exact .fault hagree
  | ok a => exact .done rfl hagree

theorem passes (hm : Blind m) : (naming r).Same m := (blind hm).mono fun _ _ _ => trivial

theorem isEmpty_eq (h : (naming r).Agree b b') : b'.errors.isEmpty = b.errors.isEmpty := by
  have hlength : b.errors.toList.length = b'.errors.toList.length :=
    List.Forall₂.length_eq h.reports
  show decide (b'.errors.size = 0) = decide (b.errors.size = 0)
  rw [← Array.length_toList, ← Array.length_toList, hlength]

/-- Both readings are free of reports, or neither is. -/
theorem bothWays {A : α → α' → Prop} {n : BuildM α} {m' n' : BuildM α'}
    (hm : (naming r).From A b b' m m') (hn : (naming r).From A b b' n n')
    (h : (naming r).Agree b b') :
    (naming r).From A b b' (do if ← isClean then m else n) (do if ← isClean then m' else n') := by
  refine Build.From.read_bind ?_
  rw [isEmpty_eq h]
  split
  · exact hm
  · exact hn

/-- Both readings have reports or neither has, so both write the step or neither does. -/
theorem guarded {A : α → α' → Prop} {m' : BuildM α'} (hm : (naming r).From A b b' m m')
    (h : (naming r).Agree b b') : (naming r).Guarded b b' m m' := by
  intro γ γ' G k k' hk
  exact bothWays (hm.bind fun _ _ _ _ _ _ _ hc => hk hc) (hk h) h

/-! ## Places of variables -/

theorem withStorage (h : (naming r).Agree b b') {s s' : Storage} (hs : Storage.Renamed r s s') :
    (naming r).Agree { b with storage := s } { b' with storage := s' } :=
  { h with code := ⟨congrArg (fun c : Build => { c with storage := s' }) h.code.code,
    h.code.frames, hs⟩ }

theorem withFrames (h : (naming r).Agree b b') (fs : Array Frame) :
    (naming r).Agree { b with frames := fs } { b' with frames := fs.map (Frame.rename r) } :=
  { h with code :=
      ⟨congrArg (fun c : Build => { c with frames := fs.map (Frame.rename r) }) h.code.code,
        rfl, h.code.storage⟩ }

theorem frame_eq (h : (naming r).Agree b b') (id : FrameId) :
    b'.frames.getD id default = (b.frames.getD id default).rename r := by
  rw [h.code.frames, Array.getD_eq_getD_getElem?, Array.getD_eq_getD_getElem?, Array.getElem?_map]
  cases b.frames[id]? <;> rfl

theorem absolute (slot : Slot) : (naming r).Alike (Emit.absolute slot) := by
  cases slot with
  | address a => exact .pure rfl
  | relative text => exact .throw _

/-- The same slot is allocated in both. -/
theorem allocate {alloc alloc' : Storage → Slot × Storage} (h : (naming r).Agree b b')
    (halloc : (alloc' b'.storage).1 = (alloc b.storage).1 ∧
      Storage.Renamed r (alloc b.storage).2 (alloc' b'.storage).2) :
    (naming r).From Eq b b' (Emit.allocate alloc) (Emit.allocate alloc') := by
  have hslot := absolute (alloc b.storage).1 (withStorage h halloc.2)
  refine (show (naming r).From Eq b b' (Emit.allocate alloc) (Emit.allocate alloc') ↔
    _ from ?_).mpr hslot
  show Build.Alike _ _ _ (Build.run _ (Emit.absolute (alloc b.storage).1))
    (Build.run _ (Emit.absolute (alloc' b'.storage).1)) ↔ _
  rw [halloc.1]
  rfl

theorem frameAt (id : FrameId) :
    (naming r).Twin (fun f f' => f' = f.rename r) (Emit.frameAt id) (Emit.frameAt id) :=
  .read fun _ _ h => frame_eq h id

/-- Frames belong to functions, which keep their names. -/
theorem newFrame (name : String) : (naming r).Alike (Emit.newFrame name) := by
  intro b b' h
  have hsize : b'.frames.size = b.frames.size := by rw [h.code.frames, Array.size_map]
  have hof : b'.frameOf = b.frameOf := h.code.same Build.frameOf fun _ _ => rfl
  have hpush : b'.frames.push { function := name } =
      (b.frames.push { function := name }).map (Frame.rename r) := by
    rw [h.code.frames, Array.map_push]
    rfl
  refine (Build.From.get_bind ?_ : (naming r).From Eq b b' (Emit.newFrame name)
    (Emit.newFrame name))
  rw [hsize, hof, hpush]
  refine .done rfl ?_
  exact { h with code := ⟨congrArg (fun c : Build => { c with
    frames := (b.frames.push { function := name }).map (Frame.rename r)
    frameOf := b.frameOf.put name b.frames.size
    frame? := some b.frames.size }) h.code.code, rfl, h.code.storage⟩ }

theorem modifyFrame (id : FrameId) {f f' : Frame → Frame}
    (hf : ∀ g, f' (g.rename r) = (f g).rename r) :
    (naming r).Twin Any (Emit.modifyFrame id f) (Emit.modifyFrame id f') := by
  refine .modify fun b b' h => ?_
  have hmap : b'.frames.modify id f' = (b.frames.modify id f).map (Frame.rename r) := by
    rw [h.code.frames, SymbolTable.modify_map fun g => (hf g).symm]
  rw [hmap]
  exact withFrames h _

section

variable (hr : Function.Injective r.var) {x : String}
include hr

/-- A place in a frame is made for both or for neither. -/
theorem frameSlot (hx : (naming r).fit x) (id : FrameId) (type? : Option Ty) :
    (naming r).Twin Eq (Emit.frameSlot id x type?) (Emit.frameSlot id (r.var x) type?) := by
  refine (frameAt id).bind ?_
  rintro f _ rfl
  rw [Frame.offset?_rename hr]
  cases f.offset? x with
  | some n => exact .pure rfl
  | none =>
    refine (modifyFrame id fun g => g.addLocal_rename x type?).seq ((frameAt id).bind ?_)
    rintro f _ rfl
    dsimp only
    rw [Frame.offset?_rename hr]
    refine Build.Twin.seq (.modify fun b b' h => ?_) (.pure rfl)
    have hput := h.code.storage.put hr (.inFunction f.function hx.1 hx.2)
      (Slot.inFrame ((f.offset? x).getD 0))
    exact withStorage h ⟨h.code.storage.nextGlobal, h.code.storage.nextHeap,
      h.code.storage.nextStack, hput⟩

/-- A variable keeps its place when it gets another name. -/
theorem place (hx : (naming r).fit x) (hdeclared : b.Declared x) (h : (naming r).Agree b b') :
    (naming r).From Eq b b' (Emit.place x) (Emit.place (r.var x)) := by
  obtain ⟨s, hs⟩ := Option.isSome_iff_exists.mp hdeclared
  have hs' : b'.table.lookupSymbol? (r.var x) = some (s.rename r) := by
    rw [show b'.table.lookupSymbol? (r.var x) = _ from h.lookupSymbol? (base hr) x, hs]
    rfl
  have htype : (s.rename r).type? = s.type? := s.type?_rename r
  have hscope : (s.rename r).scope = s.scope := rfl
  have hkey : Storage.SameKey r x (r.var x) := .global hx.1 hx.2
  have hglobal (size : Int) : (naming r).Twin Eq (Emit.allocate (·.allocGlobal x size))
      (Emit.allocate (·.allocGlobal (r.var x) size)) :=
        fun _ _ hc => allocate hc (hc.code.storage.allocGlobal hr hkey size)
  have harray (size : Int) :
    (naming r).Twin Eq (Emit.allocate (·.allocArray x Emit.arrayCapacity size))
      (Emit.allocate (·.allocArray (r.var x) Emit.arrayCapacity size)) :=
    fun _ _ hc => allocate hc (hc.code.storage.allocArray hr hkey _ size)
  unfold Emit.place
  refine .get_bind ?_
  rw [hs, hs']
  dsimp only
  rw [hscope, htype, h.code.same Build.frame? fun _ _ => rfl,
    h.code.same Build.function fun _ _ => rfl]
  split
  · refine (Build.Twin.ofExcept _ h).bind fun size size' c c' _ _ hsize hc => ?_
    subst hsize
    split
    · exact harray _ hc
    · exact hglobal _ hc
  · split
    · exact frameSlot hr hx _ _ h
    · refine (Build.Twin.ofExcept _ h).bind fun size size' c c' _ _ hsize hc => ?_
      subst hsize
      exact hglobal _ hc

/-- The offset of a parameter is that of its new name. -/
theorem routineOffset? (x : String) :
    (naming r).Twin Eq (Emit.routineOffset? x) (Emit.routineOffset? (r.var x)) := by
  intro b b' h
  unfold Emit.routineOffset?
  refine .get_bind ?_
  rw [h.code.same Build.routine? fun _ _ => rfl]
  cases b.routine? with
  | none => exact .pure rfl h
  | some c =>
    refine (Build.Twin.bind (frameAt c.frame) ?_ : (naming r).Twin Eq _ _) h
    rintro f _ rfl
    exact .pure (Frame.offset?_rename hr f x).symm

/-- A variable is found at the same place. -/
theorem variableValue (hx : (naming r).fit x) (hdeclared : b.Declared x)
    (h : (naming r).Agree b b') :
    (naming r).From Eq b b' (Emit.variableValue x) (Emit.variableValue (r.var x)) := by
  have hset (o : Operand) : (naming r).Alike (do Emit.setValue o; return o) :=
    (blind (.setValue o)).seq (.pure rfl)
  unfold Emit.variableValue
  refine (routineOffset? hr x h).bind ?_
  rintro n? _ c c' hend - rfl hc
  cases n? with
  | some n => exact hset _ hc
  | none =>
    have hquiet : Build.Keeps Compile.Quiet (Emit.routineOffset? x) :=
      Compile.Quiet.exprStable.keeps (S := []) (Compile.Quiet.exprStable.walk.routineOffset? x)
    have hstay : c.Declared x := hdeclared.after (Compile.still hquiet) hend
    refine (place hr hx hstay hc).bind ?_
    rintro o _ d d' - - rfl hd
    exact hset o hd

theorem placeValue (hx : (naming r).fit x) (hdeclared : b.Declared x) (h : (naming r).Agree b b') :
    (naming r).From Eq b b' (Emit.placeValue x) (Emit.placeValue (r.var x)) := by
  refine (place hr hx hdeclared h).bind ?_
  rintro a _ c c' - - rfl hc
  refine blind ?_ hc
  exact Blind.newTemp.bind fun t => (Blind.quad _).bind fun _ =>
    (Blind.setValue t).bind fun _ => .pure t

/-- The size of the elements is that of the type, which stays. -/
theorem elementSize (x : String) :
    (naming r).Twin Eq (Emit.elementSize x) (Emit.elementSize (r.var x)) := by
  intro b b' h
  unfold Emit.elementSize
  refine (base hr).lookup?_bind h ?_
  have htype (s? : Option Symbol) :
    (s?.map (Symbol.rename r)).bind Symbol.type? = s?.bind Symbol.type? := by
    cases s? with
    | none => rfl
    | some s => exact s.type?_rename r
  rw [show ((b.table.lookupSymbol? x).map (Symbol.rename (naming r).names)).bind
    Symbol.type? = _ from htype _]
  split <;> exact .pure rfl h

theorem storeToArray (hx : (naming r).fit x) (hdeclared : b.Declared x) (h : (naming r).Agree b b')
    (i v : Operand) :
    (naming r).From Eq b b' (Emit.storeToArray x i v) (Emit.storeToArray (r.var x) i v) := by
  refine (placeValue hr hx hdeclared h).bind ?_
  rintro a _ c c' - - rfl hc
  refine (elementSize hr x hc).bind ?_
  rintro size _ d d' - - rfl hd
  exact blind (.storeElement a i v size) hd

theorem store (hx : (naming r).fit x) (hdeclared : b.Declared x) (h : (naming r).Agree b b')
    (v : Operand) :
    (naming r).From Eq b b' (Emit.place x >>= (Emit.assign · v))
    (Emit.place (r.var x) >>= (Emit.assign · v)) := by
  refine (place hr hx hdeclared h).bind ?_
  rintro a _ c c' - - rfl hc
  exact blind (.assign a v) hc

theorem initialise (hx : (naming r).fit x) (hdeclared : b.Declared x) (h : (naming r).Agree b b') :
    (naming r).From Any b b' (Compile.initialise x) (Compile.initialise (r.var x)) := by
  unfold Compile.initialise
  refine Build.From.read_bind ?_
  rw [h.code.same Build.value fun _ _ => rfl]
  split
  · refine (place hr hx hdeclared h).bind ?_
    rintro a _ c c' - - rfl hc
    exact passes (.storeAll a 0 _) hc
  · refine (place hr hx hdeclared h).bind ?_
    rintro a _ c c' - - rfl hc
    exact ((blind (.assign a _)).seq (.pure trivial)) hc

end

/-! ## Calls and constructs -/

/-- Functions are called by names that stay. -/
theorem call (f : String) (vs : List Operand) : (naming r).Alike (Emit.call f vs) := by
  intro b b' h
  unfold Emit.call
  refine .get_bind ?_
  rw [h.code.same Build.frameOf fun _ _ => rfl]
  refine Build.Twin.maybe (newFrame f) (blind ?_) h
  exact Blind.bind (.forM fun _ => .quad _) fun _ => Blind.bind (.quad _) fun _ => .takeResult _

theorem callForValue (f : String) (vs : List Operand) :
    (naming r).Alike (Emit.call f vs >>= Emit.setValue) := by
  refine (call f vs).bind_eq fun o => ?_
  exact blind (.setValue o)

/-- The loop at hand is the same in both. -/
theorem withLoop (l : Loop) (hbody : (naming r).Twin Any body body') :
    (naming r).Twin Any (Emit.withLoop l body) (Emit.withLoop l body') := by
  have hset (l? : Option Loop) :
    (naming r).Same (modify fun b => { b with loop? := l? } : BuildM PUnit) :=
    passes (.modify fun _ _ => rfl)
  intro b b' h
  unfold Emit.withLoop
  refine .get_bind ?_
  rw [h.code.same Build.loop? fun _ _ => rfl]
  exact ((hset _).seq (hbody.seq (hset _))) h

/-- Labels are counted alike, so they are the same. -/
theorem ifElse (o : Operand) {yes yes' no no' : BuildM Unit} (hyes : (naming r).Twin Any yes yes')
    (hno : (naming r).Twin Any no no') :
    (naming r).Twin Any (Emit.ifElse o yes no) (Emit.ifElse o yes' no') := by
  unfold Emit.ifElse
  refine (blind .newLabel).bind_eq fun l => ?_
  refine (blind .newLabel).bind_eq fun m => ?_
  refine (blind .newLabel).bind_eq fun n => ?_
  refine (blind (.quad _)).seq ((blind (.jump m)).seq ((blind (.mark l)).seq (hyes.seq ?_)))
  exact (blind (.jump n)).seq
    ((blind (.mark m)).seq (hno.seq ((blind (.mark n)).seq (.pure trivial))))

theorem exitUnless {A : Operand → Operand → Prop} (hA : ∀ o o', A o o' → o' = o)
    (hc : (naming r).Twin A c c') (done : Operand) :
    (naming r).Twin Any (Emit.exitUnless c done) (Emit.exitUnless c' done) := by
  refine hc.bind fun o o' ho => ?_
  rw [hA o o' ho]
  split
  · exact passes (.quad _)
  · exact .pure trivial

theorem whileLoop (hc : (naming r).Twin Eq c c') (hbody : (naming r).Twin Any body body') :
    (naming r).Twin Any (Emit.whileLoop c body) (Emit.whileLoop c' body') := by
  unfold Emit.whileLoop
  refine (blind .newLabel).bind_eq fun start => ?_
  refine (blind .newLabel).bind_eq fun done => ?_
  refine Build.Twin.seq (withLoop _ ?_) (.pure trivial)
  refine (blind (.mark _)).seq ((exitUnless (fun _ _ h => h.symm) hc _).seq (hbody.seq ?_))
  exact (blind (.jump _)).seq (passes (.mark _))

theorem forLoop {init init' update update' : BuildM Unit}
    (hinit : (naming r).Twin Any init init') (hc : (naming r).Twin (naming r).OrNone c c')
    (hupdate : (naming r).Twin Any update update') (hbody : (naming r).Twin Any body body') :
    (naming r).Twin Any (Emit.forLoop init c update body)
    (Emit.forLoop init' c' update' body') := by
  unfold Emit.forLoop
  refine (blind .newLabel).bind_eq fun start => ?_
  refine (blind .newLabel).bind_eq fun again => ?_
  refine (blind .newLabel).bind_eq fun done => ?_
  have hsame : ∀ o o', (naming r).OrNone o o' → o' = o := by
    rintro o o' (h | ⟨rfl, rfl⟩)
    · exact h.symm
    · rfl
  refine Build.Twin.seq (withLoop _ ?_) (.pure trivial)
  refine hinit.seq ((blind (.mark _)).seq ((exitUnless hsame hc _).seq (hbody.seq ?_)))
  refine (blind (.mark _)).seq (hupdate.seq ?_)
  exact (blind (.jump _)).seq (passes (.mark _))

theorem switchCase (subject v done : Operand) (hbody : (naming r).Twin Any body body') :
    (naming r).Twin Any (Emit.switchCase subject v done body)
    (Emit.switchCase subject v done body') := by
  unfold Emit.switchCase
  refine (blind .newLabel).bind_eq fun here => ?_
  refine (blind .newLabel).bind_eq fun next => ?_
  refine (blind .newTemp).bind_eq fun t => ?_
  refine (blind (.quad _)).seq ((blind (.quad _)).seq ((blind (.mark _)).seq (hbody.seq ?_)))
  exact (blind (.jump _)).seq (passes (.mark _))

/-- The frame of a function is named by the function. -/
theorem routine (name : String) (frame : FrameId) (label : Operand) (result? : Option Ty)
    (hbody : (naming r).Twin Any body body') :
    (naming r).Twin Any (Emit.routine name frame label result? body)
    (Emit.routine name frame label result? body') := by
  have hset {f : Build → Build} (hf : ∀ c (v : Veil), f (v.on c) = v.on (f c)) :
      (naming r).Same (modify f : BuildM PUnit) := passes (.modify hf)
  unfold Emit.routine
  refine (blind (.mark label)).seq fun b b' h => ?_
  refine .get_bind ?_
  rw [h.code.same Build.quads fun _ _ => rfl]
  generalize b.quads.size = opening
  refine (Build.Twin.bind (frameAt frame) ?_ : (naming r).Twin Any _ _) h
  rintro f _ rfl
  refine (blind (.quad _)).seq fun c c' hc => ?_
  refine .get_bind ?_
  rw [hc.code.same Build.routine? fun _ _ => rfl]
  generalize c.routine? = outer
  refine (Build.Twin.seq (hset fun _ _ => rfl)
    (hbody.seq ((frameAt frame).bind ?_)) : (naming r).Twin Any _ _) hc
  rintro g _ rfl
  refine (hset fun _ _ => rfl).seq (passes ?_)
  have hleft : Blind
    (modify fun b => { b with routine? := outer, frame? := none, function := "global" } : BuildM
    PUnit) :=
    .modify fun _ _ => rfl
  grind

/-- The types of parameters are read again, under their new names. -/
theorem frameParams (hr : Function.Injective r.var) (ps : List Param) :
    (naming r).Twin (fun qs qs' => qs' = qs.map fun q => (r.var q.1, q.2)) (Compile.frameParams ps)
      (Compile.frameParams (ps.map (Param.rename r))) := by
  unfold Compile.frameParams
  induction ps with
  | nil => exact .pure rfl
  | cons p ps ih =>
    rw [List.map_cons, List.mapM_cons, List.mapM_cons]
    refine Build.Twin.bind (A := fun q q' => q' = (r.var q.1, q.2)) ?_ ?_
    · refine ((base hr).typeOf? p.type?).bind_eq fun t? => ?_
      exact .pure rfl
    · rintro q _ rfl
      refine ih.bind ?_
      rintro qs _ rfl
      exact .pure rfl

theorem function (name : String) (qs : List (String × Option Ty)) (result? : Option Ty)
    (hbody : (naming r).Twin Any body body') :
    (naming r).Twin Any (Emit.function name qs result? body)
      (Emit.function name (qs.map fun q => (r.var q.1, q.2)) result? body') := by
  unfold Emit.function
  refine (newFrame name).bind_eq fun frame => ?_
  exact (modifyFrame frame fun g => g.addParams_rename qs).seq (routine _ _ _ _ hbody)

/-! ## Cases -/

section

variable {cs : List Case} (hcs : ∀ e body, Case.mk e body ∈ cs → (naming r).Aside e ∧
  (naming r).Twin Any (Compile.statements body) (Compile.statements (Stmt.renameAll r body)))
include hcs

/-- Cases are compared with the values that they had. -/
theorem caseValues (hr : Function.Injective r.var) (t : Ty) :
    (naming r).Twin Eq (Compile.caseValues (some t) cs)
    (Compile.caseValues (some t) (Case.renameAll r cs)) := by
  unfold Compile.caseValues
  induction cs with
  | nil => exact .pure rfl
  | cons c cs ih =>
    obtain ⟨e, body⟩ := c
    rw [Case.renameAll, List.mapM_cons, List.mapM_cons]
    have hvalue : (naming r).Alike Compile.value :=
      .read fun _ _ h => (h.code.same Build.value fun _ _ => rfl).symm
    have hfirst : (naming r).Twin Eq (Compile.caseValue (some t) e)
      (Compile.caseValue (some t) (e.rename r)) := by
      unfold Compile.caseValue
      rw [Expr.line_rename]
      refine ((hcs e body (.head _)).1.twin).bind_eq fun u? => ?_
      split
      · refine (Pairing.Base.typeName u?).bind_eq fun u => ?_
        refine (Pairing.Base.typeName (some t)).bind_eq fun v => ?_
        exact ((base hr).error _ ((base hr).text_refl _)).seq hvalue
      · exact hvalue
    refine hfirst.bind_eq fun v => ?_
    refine (ih fun e body hmem => hcs e body (.tail _ hmem)).bind_eq fun vs => ?_
    exact .pure rfl

theorem caseCodes (values : List Operand) :
    List.Forall₂ (fun c c' => c'.1 = c.1 ∧ (naming r).Twin Any c.2 c'.2)
      (Compile.caseCodes values cs)
      (Compile.caseCodes values (Case.renameAll r cs)) := by
  induction cs generalizing values with
  | nil => exact .nil
  | cons c cs ih =>
    obtain ⟨e, body⟩ := c
    exact .cons ⟨rfl, (hcs e body (.head _)).2⟩
      (ih (fun e body hmem => hcs e body (.tail _ hmem)) values.tail)

omit hcs in
/-- The code of each case is written alike, by induction on the cases. -/
theorem switchCode (subject : Operand) {codes codes' : List (Operand × BuildM Unit)}
    {default? default?' : Option (BuildM Unit)}
    (hcodes : List.Forall₂ (fun c c' => c'.1 = c.1 ∧ (naming r).Twin Any c.2 c'.2) codes codes')
    (hdefault : Option.Rel ((naming r).Twin Any) default? default?') :
    (naming r).Twin Any (Emit.switchCode subject codes default?)
    (Emit.switchCode subject codes' default?') := by
  have hmark (l : Operand) : (naming r).Same (Emit.mark l) := passes (.mark l)
  unfold Emit.switchCode
  refine (blind .newLabel).bind_eq fun done => ?_
  refine Build.Twin.seq (Build.Twin.forM hcodes ?_) ?_
  · rintro ⟨v, body⟩ ⟨_, body'⟩ ⟨rfl, hbody⟩
    exact switchCase _ _ _ hbody
  · cases hdefault with
    | none => exact hmark done
    | some hbody =>
      refine (blind .newLabel).bind_eq fun other => ?_
      exact (hmark other).seq (hbody.seq (hmark done))

theorem switchBody (hr : Function.Injective r.var) {default? default?' : Option (BuildM Unit)}
    (t : Ty) (hdefault : Option.Rel ((naming r).Twin Any) default? default?') :
    (naming r).Twin Any (Compile.switchBody t cs default?)
    (Compile.switchBody t (Case.renameAll r cs) default?') := by
  intro b b' h
  refine bothWays ?_ ?_ h
  · refine Build.From.read_bind ?_
    rw [h.code.same Build.value fun _ _ => rfl]
    refine (Build.Twin.bind (caseValues hcs hr t) ?_ : (naming r).Twin Any _ _) h
    rintro vs _ rfl
    exact switchCode _ (caseCodes hcs vs) hdefault
  · refine Build.Twin.seq (Pairing.Aside.caseBodies hcs) ?_ h
    cases hdefault with
    | none => exact .pure trivial
    | some hbody => exact hbody

end

theorem operands_eq {vs vs' : List Operand} (h : List.Forall₂ (naming r).operand vs vs') :
    vs' = vs := by
  induction h with
  | nil => rfl
  | cons h _ ih => rw [ih, ← h]

/-- The code of a program goes with its names. -/
theorem steps (hr : Function.Injective r.var) : (naming r).Steps where
  toBase := base hr
  -- There are no objects in the programs that are compared, so `P.classes` is false.
  fits := False.elim
  keyword _ _ := trivial
  value h := (h.same Build.value fun _ _ => rfl).symm
  cells h := by
    rw [operands_eq h]
    rfl
  missing h := by rw [h]
  setValue h := by
    subst h
    exact passes (.setValue _)
  use h := by
    subst h
    exact passes (.use _)
  arithmetic hl hr op := by
    subst hl hr
    exact blind (.arithmetic _ _ op)
  comparison hl hr op := by
    subst hl hr
    exact blind (.comparison _ _ op)
  logical hl hr op := by
    subst hl hr
    exact blind (.logical _ _ op)
  logicalNot h := by
    subst h
    exact blind (.logicalNot _)
  unary h op := by
    subst h
    exact blind (.unary _ op)
  callToString h := by
    subst h
    exact call _ _
  constant _ := blind (.constant _)
  loadElement ha hi size := by
    subst ha hi
    exact blind (.loadElement _ _ size)
  variableValue := variableValue hr
  placeValue := placeValue hr
  loadThis := False.elim
  newObject := False.elim
  loadMember := False.elim
  store hx hdeclared h hv := by
    subst hv
    exact guarded (store hr hx hdeclared h _) h
  storeToArray hx hdeclared h hi hv := by
    subst hi hv
    exact guarded (storeToArray hr hx hdeclared h _ _) h
  call h f hvs := by
    rw [operands_eq hvs]
    exact guarded (callForValue f _ h) h
  callMethod := False.elim
  setDirect _ := passes (.modify fun _ _ => rfl)
  endExpression := passes (.modify fun _ _ => rfl)
  setFunction _ := passes (.modify fun _ _ => rfl)
  leaveFunction := .modify fun b b' h =>
    { h with
      inFunction? := rfl
      code := { h.code with
        code := congrArg (fun c : Build =>
        { c with inFunction? := none, frame? := none }) h.code.code } }
  layout := False.elim
  initialise hx hdeclared h := guarded (initialise hr hx hdeclared h) h
  storeMember := False.elim
  returnValue h ho := by
    obtain rfl | ⟨rfl, rfl⟩ := ho
    · exact guarded (blind (.returnValue _) h) h
    · exact guarded (blind (.returnValue _) h) h
  print h ho type? := by
    subst ho
    exact guarded (blind (.print _ type?) h) h
  leaveTo h target := guarded (blind (.leaveTo target) h) h
  -- A compound statement is written only without reports, which both readings have or lack.
  ifElse ho hyes hno b b' h := by
    subst ho
    exact bothWays ((ifElse _ hyes hno).discard h) ((hyes.seq hno) h) h
  whileLoop hc hbody b b' h :=
    bothWays ((whileLoop hc hbody).discard h) ((hc.discard.seq hbody) h) h
  forLoop hinit hc hu hbody b b' h := by
    have hupdate := Pairing.Aside.loopUpdate hu
    exact bothWays ((forLoop hinit hc hupdate hbody).discard h)
      ((hinit.seq (hc.discard.seq (hupdate.seq hbody))) h) h
  switch t hcs hdefault := switchBody hcs hr t hdefault
  function name result? _ hbody b b' h := by
    refine bothWays ?_ (hbody h) h
    refine (frameParams hr _ h).bind ?_
    rintro qs _ c c' - - rfl hc
    exact (function name qs result? hbody).discard hc
  method := False.elim

end Naming

/-! ## Programs -/

def Atom.isName : Atom → Bool
  | name _ _ => true
  | this _ | new _ _ _ _ => false

/-- The expression is not made of an object. -/
def Expr.objectless : Expr → Prop
  | .access (.mk a _) | .assign (.mk a _) _ => a.isName = true
  | _ => True

/-- There are no classes and no objects. -/
def Item.Classless : Item → Prop
  | value e | aside e => e.All Expr.objectless
  | classDecl _ => False
  | var _ | function _ | type _ => True

/-- Names that can be given to the variables of a program: different ones stay different, functions
keep theirs, and none holds the mark that joins the name of a function to that of a variable. -/
structure Renaming.Fits (r : Renaming) (p : Program) : Prop where
  inj : ∀ x ∈ p.names, ∀ y ∈ p.names, r.var x = r.var y → x = y
  function : ∀ f, Item.function f ∈ Stmt.itemsAll p → r.var f = f
  plain : ∀ x ∈ p.names, Storage.Plain x ∧ Storage.Plain (r.var x)

/-- A frame without the names of its variables. -/
def Frame.nameless (f : Frame) : Frame :=
  { f with
    params := f.params.map ({ · with name := "" })
    locals := f.locals.map ({ · with name := "" }) }

namespace Naming

theorem okAtom {a : Atom} (ha : a.isName = true) (h : ∀ x ∈ a.names, (naming r).fit x) :
    (naming r).okAtom a := by
  cases a with
  | name line x => exact h x (.head _)
  | new line cls args text => exact Bool.noConfusion ha
  | this line => exact Bool.noConfusion ha

section

variable {r : Renaming}

mutual

/-- Without objects, an expression is one that a renaming may change. -/
theorem okExpr :
    ∀ e : Expr, e.All Expr.objectless → (∀ x ∈ e.names, (naming r).fit x) → e.All (naming r).ok
  | .assign (.mk a ss) v, ⟨ha, hatom, hss, hv⟩, h => by
    rw [Expr.names, List.forall_mem_append, List.forall_mem_append] at h
    exact ⟨okAtom ha h.1, okIn a hatom h.1, okSuffixes ss hss h.2.1, okExpr v hv h.2.2⟩
  | .ternary c yes no, ⟨_, hc, hyes, hno⟩, h => by
    rw [Expr.names, List.forall_mem_append, List.forall_mem_append] at h
    exact ⟨trivial, okExpr c hc h.1, okExpr yes hyes h.2.1, okExpr no hno h.2.2⟩
  | .chain level first rest, ⟨_, hfirst, hrest⟩, h => by
    rw [Expr.names, List.forall_mem_append] at h
    exact ⟨trivial, okExpr first hfirst h.1, okRest rest hrest h.2⟩
  | .not line e, ⟨_, he⟩, h => ⟨trivial, okExpr e he h⟩
  | .negate line e, ⟨_, he⟩, h => ⟨trivial, okExpr e he h⟩
  | .group line e, ⟨_, he⟩, h => ⟨trivial, okExpr e he h⟩
  | .literal line l, _, _ => by cases l <;> exact trivial
  | .array line es, ⟨_, hes⟩, h => ⟨trivial, okAll es hes h⟩
  | .access (.mk a ss), ⟨ha, hatom, hss⟩, h => by
    rw [Expr.names, List.forall_mem_append] at h
    exact ⟨okAtom ha h.1, okIn a hatom h.1, okSuffixes ss hss h.2⟩

theorem okRest : ∀ rest : List (String × Expr), Expr.AllRest Expr.objectless rest →
    (∀ x ∈ Expr.namesRest rest, (naming r).fit x) → Expr.AllRest (naming r).ok rest
  | [], _, _ => trivial
  | (_, e) :: rest, ⟨he, hrest⟩, h => by
    rw [Expr.namesRest, List.forall_mem_append] at h
    exact ⟨okExpr e he h.1, okRest rest hrest h.2⟩

theorem okAll :
    ∀ es : List Expr, Expr.AllIn Expr.objectless es → (∀ x ∈ Expr.namesAll es, (naming r).fit x) →
    Expr.AllIn (naming r).ok es
  | [], _, _ => trivial
  | e :: es, ⟨he, hes⟩, h => by
    rw [Expr.namesAll, List.forall_mem_append] at h
    exact ⟨okExpr e he h.1, okAll es hes h.2⟩

theorem okIn :
    ∀ a : Atom, a.All Expr.objectless → (∀ x ∈ a.names, (naming r).fit x) → a.All (naming r).ok
  | .name _ _, _, _ => trivial
  | .this _, _, _ => trivial
  | .new _ _ args _, hargs, h => okAll args hargs h

theorem okSuffixes :
    ∀ ss : List Suffix, Suffix.AllIn Expr.objectless ss →
      (∀ x ∈ Suffix.namesAll ss, (naming r).fit x) →
    Suffix.AllIn (naming r).ok ss
  | [], _, _ => trivial
  | .call _ args :: rest, ⟨hargs, hrest⟩, h => by
    rw [Suffix.namesAll, List.forall_mem_append] at h
    exact ⟨okAll args hargs h.1, okSuffixes rest hrest h.2⟩
  | .index _ e :: rest, ⟨he, hrest⟩, h => by
    rw [Suffix.namesAll, List.forall_mem_append] at h
    exact ⟨okExpr e he h.1, okSuffixes rest hrest h.2⟩
  | .member _ _ :: rest, hrest, h => okSuffixes rest hrest h

end

end

/-- A renaming that keeps the names in a list apart is part of one that keeps all names apart. -/
theorem exists_injective {f : String → String} {names : List String}
    (h : ∀ x ∈ names, ∀ y ∈ names, f x = f y → x = y) :
    ∃ g : String → String, Function.Injective g ∧ ∀ x ∈ names, g x = f x := by
  let part : {x | x ∈ names} ↪ String :=
    ⟨fun x => f x.1, fun x y hxy => Subtype.ext (h x.1 x.2 y.1 y.2 hxy)⟩
  have hfew : Cardinal.mk {x | x ∈ names} < Cardinal.mk String :=
    (Cardinal.lt_aleph0_iff_set_finite.mpr (List.finite_toSet names)).trans_le
    (Cardinal.aleph0_le_mk String)
  obtain ⟨g, hg⟩ := Cardinal.extend_function_of_lt part hfew ⟨Equiv.refl String⟩
  exact ⟨g, g.injective, fun x hx => hg ⟨x, hx⟩⟩

/-- Nothing has been read yet. -/
theorem start (r : Renaming) : (naming r).Agree {} {} where
  sound := .start
  proper id s h := by cases h
  inside h := by cases h
  table := by simp [SymbolTable.rename, Scope.rename, Assoc.renameKeys]
  warnings := rfl
  inFunction? := rfl
  inClass? := rfl
  loops := rfl
  unreachable := rfl
  reports := .nil
  code := ⟨rfl, Array.map_empty.symm, rfl, rfl, rfl, .nil⟩

/-- Renamed frames differ in names alone. -/
theorem nameless_rename (r : Renaming) (f : Frame) : (f.rename r).nameless = f.nameless := by
  simp [Frame.rename, Frame.nameless, FrameEntry.rename]

end Naming

open Compile in
/-- The reading of a program without classes does not depend on the names of its variables. -/
theorem Compile.program_rename {p : Program} {r : Renaming}
    (hclassless : ∀ i ∈ Stmt.itemsAll p, i.Classless) (hr : r.Fits p) :
    ∃ b b' : Build, ∃ result, Build.run {} (program p) = (result, b) ∧
      Build.run {} (program (Stmt.renameAll r p)) = (result, b') ∧
      List.Forall₂ SameLine b.errors.toList b'.errors.toList ∧ b'.warnings = b.warnings ∧
      b'.quads = b.quads ∧ b'.tempCounts = b.tempCounts ∧ b'.labelCount = b.labelCount ∧
      b'.strings = b.strings ∧ b'.frameOf = b.frameOf ∧
      b'.frames.map Frame.nameless = b.frames.map Frame.nameless := by
  -- Off the names of the program, the renaming is made injective.
  obtain ⟨g, hg, hsame⟩ := Naming.exists_injective hr.inj
  let r' : Renaming := ⟨g, r.member⟩
  have hname {i : Item} (hi : i ∈ Stmt.itemsAll p) {x : String} (hx : x ∈ i.names) : x ∈ p.names :=
    List.mem_flatMap.mpr ⟨i, hi, hx⟩
  have hfit {x : String} (hx : x ∈ p.names) : (naming r').fit x := by
    refine ⟨(hr.plain x hx).1, ?_⟩
    show Storage.Plain (g x)
    rw [hsame x hx]
    exact (hr.plain x hx).2
  have hadmits : ∀ i ∈ Stmt.itemsAll p, (naming r').Admits i := by
    intro i hi
    cases i with
    | value e => exact Naming.okExpr e (hclassless _ hi) fun x hx => hfit (hname hi hx)
    | aside e => exact ⟨Naming.okExpr e (hclassless _ hi) fun x hx => hfit (hname hi hx), trivial⟩
    | var x => exact hfit (hname hi List.mem_cons_self)
    | function f => exact (hsame f (hname hi List.mem_cons_self)).trans (hr.function f hi)
    | type text => exact trivial
    | classDecl name => exact (hclassless _ hi).elim
  have hrun := (Naming.steps (r := r') hg).statements p hadmits (Naming.start r')
  -- On its names nothing has changed, so it is the renaming that was asked for.
  have hcongr : Stmt.renameAll r' p = Stmt.renameAll r p :=
    Stmt.renameAll_congr (show r'.member = r.member from rfl) p fun i hi x hx =>
      hsame x (hname hi hx)
  rw [show (naming r').names = r' from rfl, hcongr] at hrun
  have hframes {b b' : Build} (h : (naming r').Agree b b') :
      b'.frames.map Frame.nameless = b.frames.map Frame.nameless := by
    rw [h.code.frames, Array.map_map]
    exact congrArg (b.frames.map ·) (funext (Naming.nameless_rename r'))
  have hsame {b b' : Build} (h : (naming r').Agree b b') :=
    And.intro h.reports (And.intro h.warnings (And.intro (h.code.same Build.quads fun _ _ => rfl)
      (And.intro (h.code.same Build.tempCounts fun _ _ => rfl)
        (And.intro (h.code.same Build.labelCount fun _ _ => rfl)
        (And.intro (h.code.same Build.strings fun _ _ => rfl)
          (And.intro (h.code.same Build.frameOf fun _ _ => rfl)
          (hframes h)))))))
  unfold program
  unfold Build.From at hrun
  generalize Build.run {} (statements p) = run at hrun ⊢
  generalize Build.run {} (statements (Stmt.renameAll r p)) = run' at hrun ⊢
  cases hrun with
  | done _ h => exact ⟨_, _, _, rfl, rfl, hsame h⟩
  | fault h => exact ⟨_, _, _, rfl, rfl, hsame h⟩
  -- Neither reading may stop where the other goes on.
  | first hlax => exact hlax.elim
  | second hlax => exact hlax.elim

namespace Naming

/-- A function with a parameter and a variable, and a variable outside of it. -/
def sample : Program :=
  [.function ⟨1, "f", [⟨1, "n", some "integer"⟩], some "integer"⟩
    [.declare ⟨2, "k", some "integer",
        some (.chain .additive (.access (.mk (.name 2 "n") [])) [("+", .literal 2 (.plain "1"))])⟩,
      .returnValue 3 (some (.access (.mk (.name 3 "k") [])))],
    .declare ⟨5, "a", some "integer",
      some (.access (.mk (.name 5 "f") [.call 5 [.literal 5 (.plain "2")]]))⟩]

/-- Each variable of the sample gets the name of another one. -/
def moved : Renaming :=
  ⟨fun x => if x = "n" then "k" else if x = "k" then "a" else if x = "a" then "n" else x, id⟩

end Naming

/-- The variables of a function and of the main program take over each other's names. -/
theorem Compile.program_rename_sample : ∃ b b' : Build,
    Ends (program Naming.sample) {} () b ∧
      Ends (program (Stmt.renameAll Naming.moved Naming.sample)) {} () b' ∧
      b.errors = #[] ∧ b.quads.size = 11 ∧ b'.quads = b.quads ∧
      b'.frames.map Frame.nameless = b.frames.map Frame.nameless := by
  have hclassless : ∀ i ∈ Stmt.itemsAll Naming.sample, i.Classless := by
    simp [Naming.sample, Stmt.itemsAll, Stmt.items, VarDecl.items, Signature.items, Param.items,
      Item.Classless, Expr.All,
      Expr.AllRest, Expr.AllIn, Suffix.AllIn, Atom.All, Expr.objectless, Atom.isName]
  have hfunction : ∀ f, Item.function f ∈ Stmt.itemsAll Naming.sample → Naming.moved.var f = f := by
    simp [Naming.sample, Naming.moved, Stmt.itemsAll, Stmt.items, VarDecl.items,
      Signature.items, Param.items]
  obtain ⟨b, b', result, hrun, hrun', -, -, hquads, -, -, -, -, hframes⟩ :=
    program_rename hclassless ⟨by decide +kernel, hfunction, by decide +kernel⟩
  obtain ⟨c, hc, herrors, hsize⟩ : ∃ c, Ends (program Naming.sample) {} () c ∧ c.errors = #[] ∧
    c.quads.size = 11 := by
    decide +kernel
  obtain ⟨rfl, rfl⟩ := Prod.mk.inj (hrun.symm.trans hc)
  exact ⟨b, b', hrun, hrun', herrors, hsize, hquads, hframes⟩

end Scriptc
