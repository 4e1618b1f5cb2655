import Scriptc.Proofs.Preservation
import Scriptc.Proofs.Reads

/-!
# Scriptc: the objects of a program

Room for an object is made when its `new` is read, and the code only loads the address. So the
quadruple that is run decides which object it is: two runs of one quadruple give the same object,
and two quadruples give objects that share no address.

`Making classes b b'` says that from one state to the other objects of these classes are made, in a
row of the heap and in a row of the code (`Object.Row`). It is carried over the calls of an
expression by `Making.siteWalk` and over the expressions of statements by `Making.readWalk`.
-/

namespace Scriptc

open Build (Ends Keeps ends_bind ends_pure)

/-! ## Rows of objects -/

/-- An object that code makes: the place of the quadruple that loads its address, its class, and the
room it takes. -/
structure Object where
  place : Nat
  cls : String
  base : Int
  size : Int

namespace Object

/-- The address is one of the object. -/
def Covers (o : Object) (a : Int) : Prop := o.base ≤ a ∧ a < o.base + o.size

/-- No address is one of both objects. -/
def Apart (o o' : Object) : Prop := ∀ a, ¬ (o.Covers a ∧ o'.Covers a)

/-- The code loads the address of the object, and its size is that of its class. -/
structure In (b : Build) (o : Object) : Prop where
  loaded : ∃ t, b.quads[o.place]? = some { op := .copy, arg1 := .ofAddress o.base, result := t }
  sized : ∃ l, b.layouts.get? o.cls = some l ∧ l.size = o.size

/-- Objects behind each other, from one place of the code to another and from one address to
another. -/
inductive Row : Nat → Int → List Object → Nat → Int → Prop where
  | nil {m n : Nat} {lo hi : Int} (hcode : m ≤ n) (hheap : lo ≤ hi) : Row m lo [] n hi
  | cons {m n : Nat} {lo hi : Int} {o : Object} {os : List Object} (hcode : m ≤ o.place)
      (hheap : lo ≤ o.base)
      (hsize : 0 ≤ o.size) (h : Row (o.place + 1) (o.base + o.size) os n hi) :
        Row m lo (o :: os) n hi

namespace Row

variable {l m n : Nat} {lo mid hi : Int} {os os' : List Object}

theorem widen {n' : Nat} {lo' hi' : Int} (h : Row m lo os n hi) (hl : l ≤ m) (hlo : lo' ≤ lo)
    (hn : n ≤ n') (hhi : hi ≤ hi') : Row l lo' os n' hi' := by
  induction h generalizing l lo' with
  | nil hcode hheap => exact .nil (by omega) (by omega)
  | cons hcode hheap hsize _ ih =>
    exact .cons (by omega) (by omega) hsize (ih (Nat.le_refl _) (Int.le_refl _) hn hhi)

theorem le (h : Row m lo os n hi) : m ≤ n ∧ lo ≤ hi := by
  induction h with
  | nil hcode hheap => exact ⟨hcode, hheap⟩
  | cons => omega

theorem append (h : Row l lo os m mid) (h' : Row m mid os' n hi) : Row l lo (os ++ os') n hi := by
  induction h with
  | nil hcode hheap => exact h'.widen hcode hheap (Nat.le_refl _) (Int.le_refl _)
  | cons hcode hheap hsize _ ih => exact .cons hcode hheap hsize (ih h')

theorem within (h : Row m lo os n hi) {o : Object} (ho : o ∈ os) :
    m ≤ o.place ∧ o.place < n ∧ lo ≤ o.base ∧ 0 ≤ o.size ∧ o.base + o.size ≤ hi := by
  induction h with
  | nil => cases ho
  | cons hcode hheap hsize hrest ih =>
    have hle := hrest.le
    grind

theorem pairwise (h : Row m lo os n hi) :
    os.Pairwise fun o o' => o.place < o'.place ∧ o.base + o.size ≤ o'.base := by
  induction h with
  | nil => exact .nil
  | cons _ _ _ hrest ih =>
    refine List.pairwise_cons.mpr ⟨fun o' ho' => ?_, ih⟩
    have := hrest.within ho'
    omega

variable {i j : Nat} {o o' : Object}

theorem front (h : Row m lo os n hi) (ho : os[i]? = some o) (ho' : os[j]? = some o') (hij : i < j) :
    o.place < o'.place ∧ o.base + o.size ≤ o'.base := by
  obtain ⟨hi, rfl⟩ := List.getElem?_eq_some_iff.mp ho
  obtain ⟨hj, rfl⟩ := List.getElem?_eq_some_iff.mp ho'
  exact List.pairwise_iff_getElem.mp h.pairwise i j hi hj hij

/-- Each object of a row has a quadruple of its own. -/
theorem place_eq_iff (h : Row m lo os n hi) (ho : os[i]? = some o) (ho' : os[j]? = some o') :
    o.place = o'.place ↔ i = j := by
  rcases Nat.lt_trichotomy i j with hlt | rfl | hgt
  · have := h.front ho ho' hlt
    omega
  · simp [Option.some.inj (ho.symm.trans ho')]
  · have := h.front ho' ho hgt
    omega

/-- Objects of a row are apart, and an object is apart from itself only if it takes no room. -/
theorem apart_iff (h : Row m lo os n hi) (ho : os[i]? = some o) (ho' : os[j]? = some o') :
    o.Apart o' ↔ i ≠ j ∨ o.size = 0 := by
  unfold Apart Covers
  rcases Nat.lt_trichotomy i j with hlt | rfl | hgt
  · have := h.front ho ho' hlt
    exact ⟨fun _ => .inl (by omega), fun _ a => by omega⟩
  · obtain rfl := Option.some.inj (ho.symm.trans ho')
    have hsize := (h.within (List.mem_of_getElem? ho)).2.2.2.1
    refine ⟨fun hapart => .inr ?_, fun _ a => by omega⟩
    have := hapart o.base
    omega
  · have := h.front ho' ho hgt
    exact ⟨fun _ => .inl (by omega), fun _ a => by omega⟩

end Row

end Object

/-! ## Objects that a reading makes -/

/-- The class of the object that a call makes. -/
def Site.cls? : Site → Option String
  | .new cls _ => some cls
  | .call _ _ => none

/-- The classes of the objects that an expression makes, in the order in which it is read. -/
def Expr.classes (e : Expr) : List String := e.sites.filterMap Site.cls?

namespace Compile

/-- Names, places and code stay, and objects of the classes are made behind those there are, if no
type takes less than no room. -/
structure Making (classes : List String) (b b' : Build) : Prop where
  placed : Placed b b'
  quads : b.quads.toList <+: b'.quads.toList
  objects : b'.TypesFit → b.LayoutsFit → ∃ os : List Object, os.map Object.cls = classes ∧
    (∀ o ∈ os, o.In b') ∧
    Object.Row b.quads.size b.storage.nextHeap os b'.quads.size b'.storage.nextHeap

namespace Making

variable {classes classes' : List String} {b c d : Build} {α : Type} {m : BuildM α}

/-- No object is made. -/
theorem of_placed (placed : Placed b c) (quads : b.quads.toList <+: c.quads.toList) :
    Making [] b c where
  placed := placed
  quads := quads
  objects hfit hb := ⟨[], rfl, nofun, .nil (by simpa using quads.length_le) (placed.heap hfit hb).2⟩

/-- An object stays where it is. -/
theorem in_of_prefix {o : Object} (ho : o.In b) (placed : Placed b c)
    (quads : b.quads.toList <+: c.quads.toList) :
    o.In c := by
  obtain ⟨t, ht⟩ := ho.loaded
  obtain ⟨l, hl, hsize⟩ := ho.sized
  refine ⟨⟨t, ?_⟩, l, placed.layouts _ l hl, hsize⟩
  obtain ⟨rest, hrest⟩ := quads
  rw [← Array.getElem?_toList] at ht ⊢
  rw [← hrest, List.getElem?_append_left (List.getElem?_eq_some_iff.mp ht).1]
  exact ht

theorem append (h : Making classes b c) (h' : Making classes' c d) :
    Making (classes ++ classes') b d where
  placed := h.placed.trans h'.placed
  quads := h.quads.trans h'.quads
  objects hfit hb := by
    -- That types fit is known of the last state, and was so in the states before it.
    have hfit' : c.TypesFit := h'.placed.typesFit hfit
    obtain ⟨os, rfl, hin, hrow⟩ := h.objects hfit' hb
    obtain ⟨os', rfl, hin', hrow'⟩ := h'.objects hfit (h.placed.heap hfit' hb).1
    refine ⟨os ++ os', List.map_append, fun o ho => ?_, hrow.append hrow'⟩
    rcases List.mem_append.mp ho with ho | ho
    · exact in_of_prefix (hin o ho) h'.placed h'.quads
    · exact hin' o ho

/-! ### Expressions -/

/-- An object is made behind those there are. -/
theorem newObject (cls : String) : Keeps (Making [cls]) (Emit.newObject cls) := by
  intro b o c hend
  obtain ⟨-, hstorage, hlayouts, hquads⟩ := Emit.newObject_storage hend
  refine ⟨Placed.newObject cls hend, ?_, fun _ hb => ?_⟩
  · rw [hquads]
    exact prefix_push _ _
  · have hsize := Placed.layoutSize_nonneg hb cls
    refine ⟨[⟨b.quads.size, cls, Storage.align b.storage.nextHeap,
      ((b.layouts.get? cls).getD {}).size⟩], rfl, ?_,
      .cons (Nat.le_refl _) (Storage.le_align _) hsize (.nil ?_ ?_)⟩
    · refine List.forall_mem_singleton.mpr ⟨⟨o, ?_⟩, ?_⟩
      · rw [hquads]
        exact Array.getElem?_push_size
      · -- A class without a layout has just got an empty one.
        refine ⟨(b.layouts.get? cls).getD {}, ?_, rfl⟩
        rw [hlayouts]
        cases hl : b.layouts.get? cls with
        | none =>
          rw [if_neg (by simp [Assoc.contains, hl]), Assoc.get?_put_self]
          rfl
        | some l =>
          rw [if_pos (by simp [Assoc.contains, hl]), hl]
          rfl
    · rw [hquads, Array.size_push]
    · rw [hstorage]
      exact Int.le_refl _

/-- The objects of the calls are made, if there is no error in the end. -/
def Sites (sites : List Site) (b b' : Build) : Prop :=
  b.errors.size ≤ b'.errors.size ∧ (b'.errors = #[] → Making (sites.filterMap Site.cls?) b b')

theorem Sites.of_quiet {sites : List Site} (hsites : sites.filterMap Site.cls? = [])
    (h : Quiet b c ∧ Placed b c) :
    Accounts Sites sites b c := by
  refine ⟨h.1.table, h.1.errors_size, fun _ => ?_⟩
  rw [hsites]
  exact of_placed h.2 h.1.quads

theorem Sites.append {sites sites' : List Site} (h : Sites sites b c) (h' : Sites sites' c d) :
    Sites (sites ++ sites') b d := by
  refine ⟨Nat.le_trans h.1 h'.1, fun hclean => ?_⟩
  rw [List.filterMap_append]
  exact (h.2 (clean_of_le h'.1 hclean)).append (h'.2 hclean)

theorem quietStable : ExprStable (fun _ => True) fun b b' => Quiet b b' ∧ Placed b b' :=
  Quiet.exprStable.imp Placed.exprStable (fun b => ⟨.refl b, .refl b⟩)
    (fun _ _ _ h h' => ⟨h.1.trans h'.1, h.2.trans h'.2⟩) fun _ _ => And.intro

/-- An object is made, and its constructor runs. -/
theorem construct (cls : String) (ctor? : Option Function) (args : List Operand) :
    Keeps (Accounts Sites [.new cls args.length]) (Compile.construct cls ctor? args) := by
  intro b t c hend
  unfold Compile.construct at hend
  obtain ⟨object, b₁, hobject, hend⟩ := ends_bind.mp hend
  have hrest : Quiet b₁ c ∧ Placed b₁ c := by
    rw [Build.isClean, Build.ends_read_bind] at hend
    split at hend
    · simp only [ends_bind, ends_pure] at hend
      obtain ⟨_, b₂, hcall, _, b₃, hset, -, rfl⟩ := hend
      have hmethod := quietStable.keeps (S := object :: args)
        (quietStable.walk.callMethod (.head _) _ _ fun _ ha => List.mem_cons_of_mem _ ha) hcall
      exact quietStable.trans _ _ _ hmethod (quietStable.setValue object hset)
    · obtain ⟨_, b₂, hset, hend⟩ := ends_bind.mp hend
      obtain ⟨-, rfl⟩ := ends_pure.mp hend
      exact quietStable.setValue object hset
  have hquiet := (Quiet.exprStable.newObject cls hobject).trans hrest.1
  refine ⟨hquiet.table, hquiet.errors_size, fun _ => ?_⟩
  exact (newObject cls hobject).append (of_placed hrest.2 hrest.1.quads)

/-- Every object is that of the call that makes it. -/
theorem siteWalk (T : SymbolTable) : SiteWalk T Sites where
  errors h := h.1
  unclean hle hne := ⟨hle, fun hclean => absurd hclean hne⟩
  append := Sites.append
  code := (quietStable.mono
    (fun b => ⟨rfl, Nat.le_refl _, fun _ => of_placed (.refl b) List.prefix_rfl⟩)
    (fun _ _ _ h h' => ⟨h'.1.trans h.1, h.2.append h'.2⟩) fun _ _ h =>
    Sites.of_quiet rfl h).toCodeStable
  callToString v := (quietStable.keeps (S := [v]) (quietStable.walk.call _ (by simp))).mono
    fun _ _ h => Sites.of_quiet rfl h
  function {_ _ _ args} _ _ _ :=
    (quietStable.keeps (S := args) (quietStable.walk.call _ fun _ ha => ha)).mono
    fun _ _ h => Sites.of_quiet rfl h
  method {_ _ _ _ _ this args} _ _ _ _ :=
    (quietStable.keeps (S := this :: args) (quietStable.walk.callMethod
    (.head _) _ _ fun _ ha => List.mem_cons_of_mem _ ha)).mono fun _ _ h => Sites.of_quiet rfl h
  construct _ _ _ := construct _ _ _

/-! ### Statements -/

/-- The objects of the expressions that are read are made. -/
def Reads (rs : List Read) : Build → Build → Prop := Making (rs.flatMap (·.expr.classes))

/-- The body of a function makes the objects; the size of the frame is written into the code in
front of it. -/
theorem routine {name : String} {frame : FrameId} {label : Operand} {result? : Option Ty}
    {body : BuildM Unit} {r : Emit.RoutineCode}
    (hend : Ends (Emit.routine name frame label result? body) b r d) :
    ∃ c c', Ends body c () c' ∧ c.errors = b.errors ∧ d.errors = c'.errors ∧
      ∀ classes, Making classes c c' → Making classes b d := by
  obtain ⟨ending, c', hin, rfl, -⟩ := Emit.routine_ends hend
  refine ⟨_, c', hin, rfl, rfl, fun classes h => ?_⟩
  refine ⟨h.placed.around (.same rfl rfl rfl) (.same rfl rfl rfl),
    Kept.prefix_routine h.quads _, fun hfit hb => ?_⟩
  obtain ⟨os, hclasses, hin, hrow⟩ := h.objects hfit hb
  refine ⟨os, hclasses, fun o ho => ⟨?_, (hin o ho).sized⟩,
    hrow.widen ?_ (Int.le_refl _) ?_ (Int.le_refl _)⟩
  · -- An object of the body is behind the opening, which alone is written again.
    obtain ⟨t, ht⟩ := (hin o ho).loaded
    obtain ⟨hbehind, hbefore, -⟩ := hrow.within ho
    grind
  · rw [Array.size_push, Array.size_push]
    omega
  · grind

theorem readWalk : ReadWalk Reads where
  append h h' := by
    unfold Reads
    rw [List.flatMap_append]
    exact h.append h'
  unread hm _ _ _ hend :=
    of_placed (hm (Placed.stable.toFlowStable.restrict fun _ h => h.elim) hend) (hm.kept hend).quads
  same htable hstorage hlayouts hquads _ _ :=
    of_placed (.same htable hstorage hlayouts) (hquads ▸ List.prefix_rfl)
  quad q _ := of_placed (.same rfl rfl rfl) (prefix_push _ _)
  enter kind := of_placed (.enter kind) List.prefix_rfl
  exit := of_placed .exit List.prefix_rfl
  retype hs hbody hfixes := of_placed (.retype hs hbody hfixes) List.prefix_rfl
  expr he hend hclean := by
    have hsites := ((siteWalk _).expr _ he rfl hend).2.1.2 hclean
    unfold Reads
    rwa [List.flatMap_singleton]
  routine hend := by
    obtain ⟨c, c', hin, hbefore, hafter, haround⟩ := routine hend
    exact ⟨c, c', hin, hbefore, hafter, fun rs => haround _⟩

end Making

/-! ## Objects of a program -/

/-- The code of a program without errors makes one object for each `new` that is read, one behind
the other. -/
theorem program_objects {p : Program} {b : Build} (hp : ∀ u ∈ Stmt.usesAll p, u.Formed)
    (h : Ends (program p) {} () b) (hclean : b.errors = #[]) :
    ∃ rs ∈ Stmt.readsAll p, ∃ os : List Object, os.map Object.cls = rs.flatMap (·.expr.classes) ∧
      (∀ o ∈ os, o.In b) ∧ Object.Row 0 Storage.heapStart os b.quads.size b.storage.nextHeap := by
  obtain ⟨rs, hrs, hmaking⟩ := (Making.readWalk.statements p hp h).2 hclean
  have hfit : b.TypesFit := fun id s t hs ht => (program_fits hp h id s t hs ht).size_nonneg
  obtain ⟨os, hclasses, hin, hrow⟩ := hmaking.objects hfit nofun
  exact ⟨rs, hrs, os, hclasses, hin, hrow⟩

/-- **One object for each `new`.** The code of a program that is accepted makes one object for each
`new` that is read, and each has a quadruple of its own that loads its address. So two executions
yield objects that are apart unless they are of one `new` whose objects take room: then the object
is the same. -/
theorem one_object_per_new {text : String} {s : Source} {b : Build}
    (hs : Source.ofText text = .ok s) (h : Ends (program s.program) {} () b)
    (hclean : b.errors = #[]) :
    ∃ rs ∈ Stmt.readsAll s.program, ∃ os : List Object,
      os.map Object.cls = rs.flatMap (·.expr.classes) ∧
      (∀ o ∈ os, o.In b ∧ Storage.heapStart ≤ o.base ∧ o.base + o.size ≤ b.storage.nextHeap) ∧
      ∀ (i j : Nat) (o o' : Object), os[i]? = some o → os[j]? = some o' →
        (o.place = o'.place ↔ i = j) ∧ (o.Apart o' ↔ i ≠ j ∨ o.size = 0) := by
  obtain ⟨rs, hrs, os, hclasses, hin, hrow⟩ := program_objects (Source.formed hs) h hclean
  refine ⟨rs, hrs, os, hclasses, fun o ho => ?_, fun i j o o' hi hj => ?_⟩
  · obtain ⟨-, -, hlo, -, hhi⟩ := hrow.within ho
    exact ⟨hin o ho, hlo, hhi⟩
  · exact ⟨hrow.place_eq_iff hi hj, hrow.apart_iff hi hj⟩

/-- An object that is handed to a constructor is made twice, since arguments are read twice. -/
theorem one_object_per_new_argument : ∃ s b,
    Source.ofText ("class P \x7b let v: integer; \x7d " ++
      "class Q \x7b function constructor(p: P) \x7b \x7d \x7d new Q(new P());") = .ok s ∧
    Ends (program s.program) {} () b ∧ b.errors = #[] ∧ b.storage.nextHeap = 32776 ∧
    ∃ rs ∈ Stmt.readsAll s.program, ∃ os : List Object,
      os.map Object.cls = rs.flatMap (·.expr.classes) ∧
      (∀ o ∈ os, o.In b ∧ Storage.heapStart ≤ o.base ∧ o.base + o.size ≤ b.storage.nextHeap) ∧
      ∀ (i j : Nat) (o o' : Object), os[i]? = some o → os[j]? = some o' →
        (o.place = o'.place ↔ i = j) ∧ (o.Apart o' ↔ i ≠ j ∨ o.size = 0) := by
  refine Source.exists_of_read? program (P := fun _ b => b.errors = #[] ∧
    b.storage.nextHeap = 32776)
    (by decide +kernel) fun s b hs hb htest => ?_
  exact ⟨htest.1, htest.2, one_object_per_new hs hb htest.1⟩

/-- An object that is made in a loop is the same in every round: the machine comes to its quadruple
after five steps and again nine steps later. -/
theorem same_object_in_loop : ∃ s b,
    Source.ofText ("class P \x7b let v: integer; \x7d let i: integer = 0; " ++
      "while (i < 2) \x7b let p: P = new P(); i = i + 1; \x7d") = .ok s ∧
    Ends (program s.program) {} () b ∧ b.errors = #[] ∧
    ∃ o : Object, o.In b ∧ ¬ o.Apart o ∧
      (∃ c, Machine.Steps wholeNumbers b.quads 5 {} c ∧ c.pc = o.place) ∧
      ∃ c, Machine.Steps wholeNumbers b.quads 14 {} c ∧ c.pc = o.place := by
  refine Source.exists_of_read? program (P := fun _ b => b.errors = #[] ∧
    (b.layouts.get? "P").map Layout.size = some 4 ∧
    b.quads[5]? = some ({ op := .copy, arg1 := .ofAddress 32768, result := .temp 2 } : Quad) ∧
    (Machine.after? wholeNumbers b.quads 5 {}).map Machine.Config.pc = some 5 ∧
    (Machine.after? wholeNumbers b.quads 14 {}).map Machine.Config.pc = some 5) (by decide +kernel)
    fun s b hs hb htest => ?_
  obtain ⟨hclean, hlayout, hquad, hfirst, hagain⟩ := htest
  obtain ⟨l, hl, hsize⟩ := Option.map_eq_some_iff.mp hlayout
  obtain ⟨c, hc, hpc⟩ := Option.map_eq_some_iff.mp hfirst
  obtain ⟨d, hd, hpc'⟩ := Option.map_eq_some_iff.mp hagain
  refine ⟨hclean, ⟨5, "P", 32768, 4⟩, ⟨⟨.temp 2, hquad⟩, l, hl, hsize⟩, ?_,
    ⟨c, Machine.Steps.iff_after?.mpr hc, hpc⟩, d, Machine.Steps.iff_after?.mpr hd, hpc'⟩
  exact fun hapart => hapart 32768 (by unfold Object.Covers; decide)

end Compile

end Scriptc
