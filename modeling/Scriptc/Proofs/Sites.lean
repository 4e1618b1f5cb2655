import Scriptc.Proofs.Balance
import Scriptc.Proofs.Shapes
import Scriptc.Proofs.Sizes

/-!
# Scriptc: calls in expressions

`Expr.sites` are the calls that stand in an expression, in the order in which they are read. The
arguments of `new` are read twice and are listed twice; of a target with an index only the first
index is read.

What reading does may be told by the calls: `SiteWalk T L` asks of a relation `L sites` between
states, where the names are those of the table `T`, that it holds of each call and of what stands
between calls. Then it holds of every expression with its calls (`SiteWalk.expr`). That an
expression has a type that fits is shown on the way.
-/

namespace Scriptc

open Build (Ends Gives Keeps Yields ends_bind ends_get_bind ends_pure ends_read)

/-! ## Calls in an expression -/

/-- What a call names: a function, or a method of some object. -/
inductive Callee where
  | function (name : String)
  | method (name : String)

/-- A call that stands in a program, with the number of its arguments. -/
inductive Site where
  | call (callee : Callee) (args : Nat)
  | new (cls : String) (args : Nat)

/-- What is called if arguments follow on an atom. -/
def Atom.callee? : Atom → Option Callee
  | .name _ id => some (.function id)
  | .this _ | .new _ _ _ _ => none

mutual

/-- The calls in an expression, in the order in which they are read. -/
def Expr.sites : Expr → List Site
  | .assign (.mk a ss) v =>
    (if ss.isEmpty then []
      else if ss.any Compile.isIndex then Suffix.indexSites ss
      else a.sites ++ Suffix.sitesFrom a.callee? ss) ++ v.sites
  | .ternary c yes no => c.sites ++ (yes.sites ++ no.sites)
  | .chain _ first rest => first.sites ++ Expr.sitesRest rest
  | .not _ e | .negate _ e | .group _ e => e.sites
  | .literal _ _ => []
  | .array _ es => Expr.sitesAll es
  | .access (.mk a ss) => a.sites ++ Suffix.sitesFrom a.callee? ss

def Expr.sitesRest : List (String × Expr) → List Site
  | [] => []
  | (_, e) :: rest => e.sites ++ Expr.sitesRest rest

def Expr.sitesAll : List Expr → List Site
  | [] => []
  | e :: es => e.sites ++ Expr.sitesAll es

/-- The arguments of `new` are read twice. -/
def Atom.sites : Atom → List Site
  | .new _ cls args _ => Expr.sitesAll args ++ (Expr.sitesAll args ++ [.new cls args.length])
  | .name _ _ | .this _ => []

/-- The calls in suffixes behind what may be called. -/
def Suffix.sitesFrom (callee? : Option Callee) : List Suffix → List Site
  | [] => []
  | .call _ args :: rest =>
    Expr.sitesAll args ++ (callee?.toList.map (.call · args.length) ++ Suffix.sitesFrom none rest)
  | .index _ e :: rest => e.sites ++ Suffix.sitesFrom none rest
  | .member _ id :: rest => Suffix.sitesFrom (some (.method id)) rest

/-- The calls in the first index. -/
def Suffix.indexSites : List Suffix → List Site
  | [] => []
  | .index _ e :: _ => e.sites
  | .call _ _ :: rest | .member _ _ :: rest => Suffix.indexSites rest

end

/-- A class of the table has a constructor of its own. -/
def SymbolTable.constructor? (T : SymbolTable) (c : Class) : Option Function :=
  ((c.methods.get? Compile.constructorName).bind T.symbol?).bind Symbol.asFunction?

namespace Compile

variable {line : Nat} {code : BuildM Operand} {id : String} {t? : Option Target} {T : SymbolTable}
  {text : String}

/-! ## Reading calls -/

/-- The function that waits for its arguments is the one that is named, or the method. -/
def Pending.Known (T : SymbolTable) (callee? : Option Callee) : Pending → Prop
  | .nothing => True
  | .function n f =>
    ∃ id s, callee? = some (.function id) ∧ T.lookupSymbol? id = some s ∧ s.name = n ∧
    s.body = .function f
  | .method _ _ cls m f => ∃ id s, callee? = some (.method m) ∧ T.member? cls m = some id ∧
    T.symbol? id = some s ∧ s.body = .function f

/-- What an access has come to is known by the table, and of a type that fits. -/
structure Target.Known (T : SymbolTable) (callee? : Option Callee) (t : Target) : Prop where
  pending : t.pending.Known T callee?
  typed : Typed T t.type?

theorem Target.known_of_type {callee? : Option Callee} {type? : Option Ty}
    (h : Typed T type?) : Target.Known T callee? { type? := type? } := ⟨trivial, h⟩

theorem Target.known_failed {callee? : Option Callee} : failed.Known T callee? :=
  known_of_type (.of_fits trivial)

theorem Symbol.typed_function {s : Symbol} {f : Function} (hf : s.body = .function f)
    (h : Typed T s.type?) : Typed T f.result? := by
  rwa [Symbol.type?, hf] at h

/-- The constructor takes that many arguments; where there is none, no arguments are given. -/
def Admits (ctor? : Option Function) (k : Nat) : Prop :=
  (∀ f, ctor? = some f → f.params.length = k) ∧ (ctor? = none → k = 0)

/-- The names are as before, and what is told of the calls holds. -/
def Accounts (L : List Site → Build → Build → Prop) (sites : List Site) (b b' : Build) : Prop :=
  b'.table = b.table ∧ L sites b b'

/-- What `L` tells of calls holds of each call that is made by the names of `T`, and of no calls
where there are none. Nothing is told of states with errors. -/
structure SiteWalk (T : SymbolTable) (L : List Site → Build → Build → Prop) : Prop where
  errors : ∀ {sites b b'}, L sites b b' → b.errors.size ≤ b'.errors.size
  unclean : ∀ {sites b b'}, b.errors.size ≤ b'.errors.size → b'.errors ≠ #[] → L sites b b'
  append : ∀ {sites sites' b c d}, L sites b c → L sites' c d → L (sites ++ sites') b d
  code : CodeStable (Accounts L [])
  callToString : ∀ v, Keeps (Accounts L []) (Emit.callToString v)
  function : ∀ {id s f} {args : List Operand}, T.lookupSymbol? id = some s → s.body = .function f →
    args.length = f.params.length →
      Keeps (Accounts L [.call (.function id) args.length]) (Emit.call s.name args)
  method : ∀ {cls name id s f} {this : Operand} {args : List Operand},
    T.member? cls name = some id →
    T.symbol? id = some s → s.body = .function f → args.length = f.params.length →
    Keeps (Accounts L [.call (.method name) args.length]) (Emit.callMethod this cls name args)
  construct : ∀ {cls s c} {args : List Operand}, T.lookupSymbol? cls = some s →
    s.asClass? = some c →
    Admits (T.constructor? c) args.length →
    Keeps (Accounts L [.new cls args.length]) (Compile.construct cls (T.constructor? c) args)

/-- By the names of `T`, the step makes the calls that are listed and gives a value with the
property. -/
def Makes {α : Type} (L : List Site → Build → Build → Prop) (T : SymbolTable) (ss : List Site)
    (P : α → Prop) (m : BuildM α) : Prop :=
  ∀ ⦃b a b'⦄, b.table = T → Ends m b a b' → b'.table = T ∧ L ss b b' ∧ P a

/-- Of the step no more is asked than that it leaves the names alone and takes no report back. -/
def Settles {α : Type} (T : SymbolTable) (P : α → Prop) (m : BuildM α) : Prop :=
  ∀ ⦃b a b'⦄, b.table = T → Ends m b a b' → b'.table = T ∧ b.errors.size ≤ b'.errors.size ∧ P a

variable {α β : Type} {T : SymbolTable} {L : List Site → Build → Build → Prop} {ss us : List Site}
  {P : α → Prop} {Q : β → Prop} {m : BuildM α} {f : α → BuildM β} {b b' : Build}
variable {t : Target} {cls : String}

theorem errors_lt {line : Option Nat} {u : Unit} (h : Ends (Build.error line text) b u b') :
    b.errors.size < b'.errors.size := by
  obtain rfl := Build.ends_modify.mp h
  simp

theorem errors_ne_of_lt (h : b.errors.size < b'.errors.size) : b'.errors ≠ #[] := by
  grind

/-- The step gives nothing only behind a report. -/
def ReportsNone (m : BuildM (Option α)) : Prop :=
  ∀ ⦃b b'⦄, Ends m b none b' → b.errors.size < b'.errors.size

/-! ### Names and members -/

theorem report_ends {line : Option Nat} {a x : α} (h : Ends (do
    Build.error line text
    return a) b x b') : x = a ∧ b.errors.size < b'.errors.size := by
  obtain ⟨_, b₁, herror, h⟩ := ends_bind.mp h
  obtain ⟨rfl, rfl⟩ := ends_pure.mp h
  exact ⟨rfl, errors_lt herror⟩

/-- A reported step is no step of a reading without reports. -/
theorem not_reported {line : Option Nat} {a x : α} {P : Prop} (h : Ends (do
    Build.error line text
    return a) b x b') (hclean : b'.errors = #[]) : P :=
  absurd hclean (errors_ne_of_lt (report_ends h).2)

/-- The value that a piece of code gives becomes the value at hand. -/
theorem setValueOf_ends {a x : α} (h : Ends (do
    Emit.setValue (← code)
    return a) b x b') : x = a := by
  simp only [ends_bind] at h
  obtain ⟨o, b₁, -, _, b₂, -, h⟩ := h
  exact (ends_pure.mp h).1

theorem name_ends (h : Ends (name line id) b t? b') :
    (t? = none ∧ b.errors.size < b'.errors.size) ∨
      ∃ t, t? = some t ∧ t.Known b.table (some (.function id)) := by
  unfold name at h
  rw [Build.ends_lookup?_bind] at h
  split at h
  · exact .inl (report_ends h)
  · rename_i s hs
    split at h
    · rename_i v hv
      have htyped : Typed b.table v.type? := by
        have htype := Typed.of_lookup hs
        rwa [Symbol.type?, hv] at htype
      split at h
      · exact .inr ⟨_, setValueOf_ends h, Target.known_of_type htyped⟩
      · exact .inr ⟨_, setValueOf_ends h, Target.known_of_type htyped⟩
    · rename_i f hf
      exact .inr ⟨_, (ends_pure.mp h).1, ⟨id, s, rfl, hs, rfl, hf⟩, .none⟩
    · exact .inl (report_ends h)
    · exact .inl (report_ends h)

theorem this_ends (h : Ends (this line) b t? b') :
    (t? = none ∧ b.errors.size < b'.errors.size) ∨ ∃ t, t? = some t ∧ t.Known b.table none := by
  unfold this at h
  rw [ends_get_bind] at h
  split at h
  · exact .inl (report_ends h)
  · exact .inr ⟨_, setValueOf_ends h, Target.known_of_type (.of_fits trivial)⟩

theorem class?_ends {name : String} {s? : Option Symbol} (h : Ends (class? name) b s? b') :
    (∀ s, s? = some s → b.table.lookupSymbol? name = some s) ∧ b' = b := by
  unfold class? at h
  grind

/-- A choice between two steps, with what follows on either. -/
theorem ends_ite_bind {c : Prop} [Decidable c] {n : BuildM α} {y : β} :
    Ends (if c then m >>= f else n >>= f) b y b' ↔
      ∃ a b₁, Ends (if c then m else n) b a b₁ ∧ Ends (f a) b₁ y b' := by
  split
  · exact ends_bind
  · exact ends_bind

/-- A method that a member names is one of the class, and an attribute has its type. -/
theorem member_known {isThis : Bool} {t' : Target}
    (h : Ends (member line isThis t id) b t' b') : t'.Known b.table (some (.method id)) := by
  unfold member at h
  obtain ⟨object, b₁, hobject, h⟩ := ends_ite_bind.mp h
  -- Fetching the object leaves the names alone.
  have htable : b₁.table = b.table := by
    split at hobject
    · exact (Quiet.exprStable.keeps (S := []) (Quiet.exprStable.codeWalk.loadThis _) hobject).table
    · rw [(ends_read.mp hobject).2]
  rw [← htable]
  dsimp only at h
  split at h
  · exact (report_ends h).1 ▸ Target.known_failed
  rcases t with ⟨_ | ty, pending⟩
  · rw [pure_bind] at h
    exact (report_ends h).1 ▸ Target.known_failed
  dsimp only at h
  obtain ⟨cls?, b₂, hcls, hfound⟩ := ends_bind.mp h
  rw [(class?_ends hcls).2] at hfound
  split at hfound
  · exact (report_ends hfound).1 ▸ Target.known_failed
  · rename_i cls
    rw [ends_get_bind] at hfound
    split at hfound
    · rename_i n sc v hs
      obtain ⟨mid, hmid, hs⟩ := Option.bind_eq_some_iff.mp hs
      obtain ⟨_, b₃, -, hpure⟩ := ends_bind.mp hfound
      exact (ends_pure.mp hpure).1 ▸ Target.known_of_type (Typed.of_symbol hs)
    · rename_i n sc f hs
      obtain ⟨mid, hmid, hs⟩ := Option.bind_eq_some_iff.mp hs
      rw [(ends_pure.mp hfound).1]
      exact ⟨⟨mid, _, rfl, hmid, hs, rfl⟩, .none⟩
    · exact (report_ends hfound).1 ▸ Target.known_failed

/-! ### New objects -/

theorem checkNew_reports {ctor? : Option Function} {types : List (Option Ty)}
    (hfits : ¬ Admits ctor? types.length) {u : Unit}
    (h : Ends (checkNew line cls ctor? types) b u b') :
    b'.table = b.table ∧ b.errors.size < b'.errors.size := by
  obtain ⟨text, herror⟩ : ∃ text, Ends (Build.error (some line) text) b u b' := by
    unfold checkNew at h
    unfold Admits at hfits
    grind
  exact ⟨(Quiet.error _ _ herror).table, errors_lt herror⟩

theorem construct_known {ctor? : Option Function} {operands : List Operand} :
    Gives (fun t => t.Known T none) (construct cls ctor? operands) := by
  unfold construct
  grind [Target.known_of_type, Typed.of_fits]

/-- A method that is not called at once is given up; any other access goes on as it is. -/
theorem settle_ends {t' : Target} (h : Ends (settle t) b t' b') : t' = t ∨ t' = failed := by
  unfold settle at h
  split at h
  · exact .inr (report_ends h).1
  · exact .inl (ends_pure.mp h).1

theorem conclude_typed (ht : Typed T t.type?) : Gives (Typed T) (conclude line t) := by
  intro b type? b' h
  unfold conclude at h
  obtain ⟨t', b₁, hsettle, h⟩ := ends_bind.mp h
  have htyped : Typed T t'.type? := by
    rcases settle_ends hsettle with rfl | rfl
    · exact ht
    · exact .of_fits trivial
  split at h
  · exact (report_ends h).1 ▸ .of_fits trivial
  · exact (ends_pure.mp h).1 ▸ htyped
  · exact (ends_pure.mp h).1 ▸ .of_fits trivial

/-- An element of an array is of the type of its elements. -/
theorem element_known {at_ : Nat} {e : Ty} (he : Typed T (some e)) {base : Operand}
    {index? : Option Ty} :
    Gives (fun t => t.Known T none) (element at_ e base index?) := by
  unfold element
  grind [Target.known_of_type]

theorem Typed.of_stored {type? value? : Option Ty} (h : Typed T value?)
    (ht : type? = some .error ∨ type? = value?) :
    Typed T type? := by
  rcases ht with rfl | rfl
  · exact .of_fits trivial
  · exact h

theorem storeName_typed {v : Variable} {value? : Option Ty} (h : Typed T value?) :
    Gives (Typed T) (storeName line id v value?) :=
  fun _ _ _ hend => h.of_stored (storeName_gives hend).2

theorem storeIndexed_typed {e : Ty} {index : Operand} {value? : Option Ty}
    (h : Typed T value?) : Gives (Typed T) (storeIndexed line id e index value?) :=
  fun _ _ _ hend => h.of_stored (storeIndexed_gives hend).2

/-! ### Reports -/

theorem assignable?_reports (line : Nat) (id : String) : ReportsNone (assignable? line id) := by
  intro b b' h
  unfold assignable? at h
  rw [Build.ends_lookup?_bind] at h
  split at h
  · exact (report_ends h).2
  · split at h
    · split at h
      · exact (report_ends h).2
      · cases (ends_pure.mp h).1
    · exact absurd h Build.ends_throw

theorem arrayNamed_reports (line : Nat) (id : String) : ReportsNone (arrayNamed line id) := by
  intro b b' h
  unfold arrayNamed at h
  rw [Build.ends_lookup?_bind] at h
  split at h
  · exact (report_ends h).2
  · split at h
    · cases (ends_pure.mp h).1
    · exact (report_ends h).2

theorem indexOperand?_reports (line : Nat) (index? : Option Ty) :
    ReportsNone (indexOperand? line index?) := by
  intro b b' h
  unfold indexOperand? at h
  obtain ⟨found?, b₁, hwrong, h⟩ := ends_bind.mp h
  have hle := (Quiet.exprStable.remarks (.wrong? ..) hwrong).errors_size
  split at h
  · exact Nat.lt_of_le_of_lt hle (report_ends h).2
  · obtain ⟨_, b₂, -, h⟩ := ends_bind.mp h
    cases (ends_pure.mp h).1

/-- Where the class is known, the arguments of `new` are read, checked and read again. -/
theorem new_ends {args : List Expr} (h : Ends (atom (.new line cls args text)) b t? b') :
    (t? = none ∧ b'.table = b.table ∧ b.errors.size < b'.errors.size) ∨
    ∃ s c t p q b₁ b₂ b₃, b.table.lookupSymbol? cls = some s ∧ s.asClass? = some c ∧ t? = some t ∧
      Ends (arguments args) b p b₁ ∧
        Ends (checkNew line cls (b.table.constructor? c) p.1) b₁ () b₂ ∧
      Ends (arguments args) b₂ q b₃ ∧
        Ends (construct cls (b.table.constructor? c) q.2) b₃ t b' := by
  rw [atom] at h
  obtain ⟨s?, b₀, hs, hclass⟩ := ends_bind.mp h
  obtain ⟨hlookup, hsame⟩ := class?_ends hs
  rw [hsame] at hclass
  split at hclass
  · obtain ⟨hnone, hlt⟩ := report_ends hclass
    obtain ⟨_, b₁, herror, hpure⟩ := ends_bind.mp hclass
    rw [(ends_pure.mp hpure).2]
    exact .inl ⟨hnone, (Quiet.error _ _ herror).table, errors_lt herror⟩
  · rename_i c hc
    obtain ⟨s, rfl, hc⟩ := Option.bind_eq_some_iff.mp hc
    rw [constructor?, bind_assoc, ends_get_bind, pure_bind] at hclass
    simp only [ends_bind, ends_pure] at hclass
    obtain ⟨p, b₁, hp, _, b₂, hcheck, q, b₃, hq, t, b₄, ht, rfl, rfl⟩ := hclass
    exact .inr ⟨s, c, t, p, q, b₁, b₂, b₃, hlookup s rfl, hc, rfl, hp, hcheck, hq, ht⟩

theorem atom_reports (a : Atom) : ReportsNone (atom a) := by
  intro b b' h
  cases a with
  | name line id =>
    rw [atom] at h
    simpa using name_ends h
  | this line =>
    rw [atom] at h
    simpa using this_ends h
  | new line cls args text => exact (by simpa using new_ends h : _ ∧ _).2

/-! ## The walk -/

/-- The value of the step has a property of its own. -/
theorem Makes.giving {P' : α → Prop} (hm : Makes L T ss P m)
    (hgiven : ∀ {b a b'}, b.table = T → Ends m b a b' → P' a) : Makes L T ss P' m := by
  intro b a b' hb hend
  obtain ⟨hb', htold, -⟩ := hm hb hend
  exact ⟨hb', htold, hgiven hb hend⟩

theorem Makes.mono {P' : α → Prop} (hm : Makes L T ss P m) (himp : ∀ a, P a → P' a) :
    Makes L T ss P' m := by
  intro b a b' hb hend
  obtain ⟨hb', htold, ha⟩ := hm hb hend
  exact ⟨hb', htold, himp a ha⟩

namespace SiteWalk

variable (h : SiteWalk T L) {S : List Operand}
include h

/-- A step that the walk over expressions carries makes no calls of its own. -/
theorem carried {out : α → List Operand} (hm : Yields (Since (Accounts L [])) S out m) :
    Makes L T [] (fun _ => True) m := fun _ _ _ hb hend =>
  have htold := h.code.keeps hm hend
  ⟨htold.1.trans hb, htold.2, trivial⟩

theorem pure {a : α} (ha : P a) : Makes L T [] P (Pure.pure a) := by
  intro b c b' hb hend
  obtain ⟨rfl, rfl⟩ := ends_pure.mp hend
  exact ⟨hb, (h.code.refl _).2, ha⟩

/-- One step behind the other makes the calls of both. -/
theorem bind (hm : Makes L T ss P m) (hf : ∀ a, P a → Makes L T us Q (f a)) :
    Makes L T (ss ++ us) Q (m >>= f) := by
  intro b a b' hb hend
  obtain ⟨x, b₁, hx, hend⟩ := ends_bind.mp hend
  obtain ⟨hb₁, htold₁, hpx⟩ := hm hb hx
  obtain ⟨hb', htold₂, ha⟩ := hf x hpx hb₁ hend
  exact ⟨hb', h.append htold₁ htold₂, ha⟩

theorem bind_pure {g : α → β} (hm : Makes L T ss P m) (hg : ∀ a, P a → Q (g a)) :
    Makes L T ss Q (m >>= fun a => Pure.pure (g a)) := by
  have hwhole := h.bind hm fun a ha => h.pure (hg a ha)
  rwa [List.append_nil] at hwhole

/-- A step without calls in front, and one behind. -/
theorem quiet_bind (hm : Makes L T [] P m) (hf : ∀ a, P a → Makes L T ss Q (f a)) :
    Makes L T ss Q (m >>= f) :=
  h.bind hm hf

theorem carried_bind {out : α → List Operand} (hm : Yields (Since (Accounts L [])) S out m)
    (hf : ∀ a, Makes L T ss Q (f a)) : Makes L T ss Q (m >>= f) :=
  h.quiet_bind (h.carried hm) fun a _ => hf a

theorem bind_carried {out : β → List Operand} (hm : Makes L T ss P m)
    (hf : ∀ a, P a → Yields (Since (Accounts L [])) S out (f a))
    (hgiven : ∀ a, P a → Gives Q (f a)) :
    Makes L T ss Q (m >>= f) := by
  have hwhole := h.bind (Q := Q) hm fun a ha =>
    (h.carried (hf a ha)).giving fun _ hend => hgiven a ha hend
  rwa [List.append_nil] at hwhole

/-- Behind a step that reports nothing is asked of the code. -/
theorem reported
    (hm : ∀ ⦃b a b'⦄, Ends m b a b' → b'.table = b.table ∧ b.errors.size < b'.errors.size)
    (hf : ∀ a, Settles T Q (f a)) : Makes L T ss Q (m >>= f) := by
  intro b y b' hb hend
  obtain ⟨a, b₁, ha, hend⟩ := ends_bind.mp hend
  obtain ⟨htable, hlt⟩ := hm ha
  obtain ⟨hb', herrors, hy⟩ := hf a (htable.trans hb) hend
  have hmore := Nat.lt_of_lt_of_le hlt herrors
  exact ⟨hb', h.unclean (Nat.le_of_lt hmore) (errors_ne_of_lt hmore), hy⟩

theorem report (hm : Settles T P m) (line : Option Nat) (text : String) :
    Makes L T ss P (Build.error line text >>= fun _ => m) :=
  h.reported (fun _ _ _ hend => ⟨(Quiet.error line text hend).table, errors_lt hend⟩) fun _ => hm

theorem settles (hm : Makes L T ss P m) : Settles T P m := by
  intro b a b' hb hend
  obtain ⟨hb', htold, ha⟩ := hm hb hend
  exact ⟨hb', h.errors htold, ha⟩

theorem report_pure {a : α} (ha : P a) (line : Option Nat) (text : String) :
    Makes L T ss P (Build.error line text >>= fun _ => Pure.pure a) :=
  h.report (h.settles (h.pure ha)) line text

/-- A step that goes on only if there is no report. -/
theorem choose {m : BuildM (Option α)} {P : Option α → Prop} {g : Option α → BuildM β} {x : β}
    (hm : Makes L T ss P m) (hreports : ReportsNone m) (hnone : g none = Pure.pure x) (hx : Q x)
    (hsome : ∀ a, P (some a) → Makes L T us Q (g (some a))) : Makes L T (ss ++ us) Q (m >>= g) := by
  intro b y b' hb hend
  obtain ⟨a?, b₁, ha, hend⟩ := ends_bind.mp hend
  obtain ⟨hb₁, htold₁, hp⟩ := hm hb ha
  cases a? with
  | none =>
    rw [hnone] at hend
    obtain ⟨rfl, rfl⟩ := ends_pure.mp hend
    have hlt := hreports ha
    exact ⟨hb₁, h.unclean (Nat.le_of_lt hlt) (errors_ne_of_lt hlt), hx⟩
  | some a =>
    obtain ⟨hb', htold₂, hy⟩ := hsome a hp hb₁ hend
    exact ⟨hb', h.append htold₁ htold₂, hy⟩

theorem choose_carried {m : BuildM (Option α)} {out : Option α → List Operand}
    (hm : Yields (Since (Accounts L [])) S out m) {g : Option α → BuildM β} {x : β}
    (hreports : ReportsNone m) (hnone : g none = Pure.pure x) (hx : Q x)
    (hsome : ∀ a, Makes L T ss Q (g (some a))) :
    Makes L T ss Q (m >>= g) :=
  h.choose (h.carried hm) hreports hnone hx fun a _ => hsome a

/-! ### Calls -/

/-- A call is written while there is no report. -/
theorem answer {x : Target} (hx : x.Known T none) (hcode : Keeps (Accounts L ss) code) :
    Makes L T ss (fun t => t.Known T none) (do
      if ← Build.isClean then Emit.setValue (← code)
      return x) := by
  intro b t b' hb hend
  rw [Build.isClean, Build.ends_read_bind] at hend
  split at hend
  · simp only [ends_bind, ends_pure] at hend
    obtain ⟨o, b₁, ho, _, b₂, hset, rfl, rfl⟩ := hend
    obtain ⟨htable, htold⟩ := hcode ho
    obtain ⟨htable', htold'⟩ := h.code.setValue _ hset
    have hwhole := h.append htold htold'
    grind
  · rename_i hclean
    obtain ⟨rfl, rfl⟩ := ends_pure.mp hend
    refine ⟨hb, h.unclean (Nat.le_refl _) fun hnone => ?_, hx⟩
    rw [hnone] at hclean
    exact absurd rfl hclean

/-- Behind a report there is no call. -/
theorem answer_reported {x : Target} (hx : x.Known T none) (line : Option Nat)
    (text : String) : Makes L T ss (fun t => t.Known T none) (do
      Build.error line text
      if ← Build.isClean then Emit.setValue (← code)
      return x) := by
  intro b t b' hb hend
  obtain ⟨_, b₁, herror, hend⟩ := ends_bind.mp hend
  have hlt := errors_lt herror
  have hne := errors_ne_of_lt hlt
  rw [Build.isClean, Build.ends_read_bind] at hend
  split at hend
  · grind
  · obtain ⟨rfl, rfl⟩ := ends_pure.mp hend
    exact ⟨(Quiet.error line text herror).table.trans hb, h.unclean (Nat.le_of_lt hlt) hne, hx⟩

/-- A call of a function that is known, or of a method. -/
theorem apply (line : Nat) {t : Target} {callee? : Option Callee} (ht : t.Known T callee?)
    {types : List (Option Ty)} {operands : List Operand} {k : Nat} (htypes : types.length = k)
    (hoperands : operands.length = k) :
    Makes L T (callee?.toList.map (.call · k)) (fun t => t.Known T none)
      (Compile.apply line t types operands) := by
  unfold Compile.apply
  subst htypes
  split
  · rename_i n f hpending
    obtain ⟨id, s, rfl, hs, rfl, hf⟩ : ∃ id s, callee? = some (.function id) ∧
      T.lookupSymbol? id = some s ∧
        s.name = n ∧ s.body = .function f := by
      simpa only [Pending.Known, hpending] using ht.pending
    have hresult : Target.Known T none { type? := f.result? } :=
      Target.known_of_type (Symbol.typed_function hf (.of_lookup hs))
    dsimp only
    split
    · exact h.answer_reported hresult _ _
    · rename_i hparams
      refine h.carried_bind (h.code.codeWalk.argumentTypes (S := []) _ _ _ _ _) fun _ =>
        h.answer hresult ?_
      rw [← hoperands]
      exact h.function hs hf (hoperands.trans (not_not.mp hparams))
  · rename_i at_ this cls n f hpending
    obtain ⟨id, s, rfl, hid, hs, hf⟩ : ∃ id s, callee? = some (.method n) ∧
      T.member? cls n = some id ∧
        T.symbol? id = some s ∧ s.body = .function f := by
      simpa only [Pending.Known, hpending] using ht.pending
    have hresult : Target.Known T none { type? := f.result? } :=
      Target.known_of_type (Symbol.typed_function hf (.of_symbol hs))
    dsimp only
    split
    · exact h.answer_reported hresult _ _
    · rename_i hparams
      refine h.answer hresult ?_
      rw [← hoperands]
      exact h.method hid hs hf (hoperands.trans (not_not.mp hparams))
  · exact h.report_pure Target.known_failed _ _

/-! ### Assignments -/

theorem assignTo {a : Atom} {suffixes : List Suffix}
    {readIndex readTarget readValue : BuildM (Option Ty)} {index target value : List Site}
    (hindex : Makes L T index (fun _ => True) readIndex)
    (htarget : Makes L T target (fun _ => True) readTarget)
    (hvalue : Makes L T value (Typed T) readValue) :
    Makes L T ((if suffixes.isEmpty then [] else if suffixes.any isIndex then
      index else target) ++ value)
      (Typed T) (Compile.assignTo a suffixes readIndex readTarget readValue) := by
  have hwalk : CodeWalk (Since (Accounts L [])) := h.code.codeWalk
  have herror : Typed T (some .error) := .of_fits trivial
  unfold Compile.assignTo
  split
  · refine h.choose_carried (hwalk.assignable? (S := []) _ _)
      (assignable?_reports _ _) rfl herror ?_
    exact fun x => h.bind_carried hvalue (fun t _ => hwalk.storeName (S := []) _ _ _ t)
      fun t ht => storeName_typed ht
  split
  · refine h.choose_carried (hwalk.arrayNamed (S := []) _ _) (arrayNamed_reports _ _) rfl herror ?_
    refine fun e => h.bind hindex fun t _ => ?_
    refine h.choose_carried (hwalk.indexOperand? (S := []) _ _)
      (indexOperand?_reports _ _) rfl herror ?_
    exact fun i => h.bind_carried hvalue
      (fun t _ => hwalk.storeIndexed _ _ _ (List.mem_singleton_self i) t) fun t ht =>
        storeIndexed_typed ht
  · exact h.bind htarget fun _ _ => hvalue

/-! ### Expressions -/

theorem converts : Converts (Since (Accounts L [])) := fun _ v _ => h.code.yields (h.callToString v)

theorem applies {op : String} (hop : (Op.ofText op).isPlain = true) :
    Applies (Since (Accounts L [])) op :=
  fun _ _ _ _ _ _ _ => h.code.yields (h.code.quad _ hop)

/-- Suffixes are followed behind an atom that is right. -/
theorem follow {start : BuildM (Option Target)} {rest : Target → BuildM (Option Ty)}
    {callee? : Option Callee}
    (hstart : Makes L T ss (fun t? => ∀ t, t? = some t → t.Known T callee?) start)
    (hreports : ReportsNone start)
    (hrest : ∀ t, t.Known T callee? → Makes L T us (Typed T) (rest t)) :
    Makes L T (ss ++ us) (Typed T) (Compile.follow start rest) := by
  unfold Compile.follow
  exact h.choose hstart hreports rfl (.of_fits trivial) fun t ht => hrest t (ht t rfl)

/-- The arguments of `new` are read, checked and read again, and the constructor runs. -/
theorem new {cls text : String} {args : List Expr} {sites : List Site}
    (hargs : Makes L T sites (fun p => p.1.length = args.length ∧ p.2.length = args.length)
      (Compile.arguments args)) :
    Makes L T (sites ++ (sites ++ [.new cls args.length])) (fun t? => ∀ t,
      t? = some t → t.Known T none)
      (Compile.atom (.new line cls args text)) := by
  rintro b t? b' rfl hend
  rcases new_ends hend with ⟨rfl, htable, hlt⟩ | ⟨s, c, t, p, q, b₁, b₂, b₃, hs, hc, rfl,
    hp, hcheck, hq, ht⟩
  · refine ⟨htable, h.unclean (Nat.le_of_lt hlt) (errors_ne_of_lt hlt), fun t ht => ?_⟩
    cases ht
  obtain ⟨hb₁, htold₁, hlength, -⟩ := hargs rfl hp
  obtain ⟨hb₂, htold₂, -⟩ := h.carried (h.code.codeWalk.checkNew (S := []) _ _ _ _) hb₁ hcheck
  obtain ⟨hb₃, htold₃, -, hlength'⟩ := hargs hb₂ hq
  have hknown : ∀ t', some t = some t' → t'.Known b.table none := fun t' ht' => by
    cases ht'
    exact construct_known ht
  by_cases hadmits : Admits (b.table.constructor? c) args.length
  · rw [← hlength'] at hadmits ⊢
    obtain ⟨htable, htold₄⟩ := h.construct hs hc hadmits ht
    have hchecked := h.append htold₂ htold₃
    exact ⟨htable.trans hb₃, h.append htold₁ (h.append hchecked htold₄), hknown⟩
  · -- The number of arguments is wrong, which is reported.
    rw [← hlength] at hadmits
    have hquiet := Quiet.exprStable.keeps
      (Quiet.exprStable.walk.construct cls (b.table.constructor? c)
      fun _ ho => ho) ht
    have hmore : b.errors.size < b'.errors.size :=
      Nat.lt_of_le_of_lt (h.errors htold₁) (Nat.lt_of_lt_of_le (checkNew_reports hadmits hcheck).2
        (Nat.le_trans (h.errors htold₃) hquiet.errors_size))
    exact ⟨hquiet.table.trans hb₃, h.unclean (Nat.le_of_lt hmore) (errors_ne_of_lt hmore), hknown⟩

mutual

/-- Reading an expression makes the calls that stand in it, and gives a type that fits. -/
theorem expr : ∀ e : Expr, e.All Expr.Formed → Makes L T e.sites (Typed T) (Compile.expr e)
  | .assign (.mk a suffixes) v, ⟨_, ha, hsuffixes, hv⟩ => by
    unfold Compile.expr Expr.sites
    exact h.assignTo (firstIndex suffixes hsuffixes)
      ((h.follow (atom a ha) (atom_reports a) fun t ht =>
        suffixesFrom _ _ ht suffixes hsuffixes).mono
        fun _ _ => trivial) (expr v hv)
  | .ternary c yes no, ⟨_, hc, hyes, hno⟩ => by
    rw [Compile.expr, Expr.sites]
    exact h.bind (expr c hc) fun _ _ => h.bind (expr yes hyes) fun _ _ => expr no hno
  | .chain level first rest, ⟨hformed, hfirst, hrest⟩ => by
    rw [Compile.expr, Expr.sites]
    refine h.bind (expr first hfirst) fun t ht => ?_
    have hstart : Makes L T [] (fun c : Chain => Typed T c.result?) (Chain.start level t) :=
      (h.carried (h.code.codeWalk.chainStart (S := []) level t)).giving fun _ hend => by
        rw [start_gives hend]
        exact ht
    exact h.quiet_bind hstart fun c hc =>
      chain level _ c hc rest (fun p hp => level.isPlain p.1 (hformed p hp)) hrest
  | .not line e, ⟨_, he⟩ => by
    rw [Compile.expr, Expr.sites]
    have hwanted : Ty.boolean.Fits := trivial
    exact h.bind_carried (expr e he) (fun t _ => h.code.codeWalk.unary (S := []) _ _ _ _ t
      fun _ _ ho => h.code.codeWalk.logicalNot ho) fun _ _ _ _ _ hend =>
        (unary_fits hwanted hend).typed
  | .negate line e, ⟨_, he⟩ => by
    rw [Compile.expr, Expr.sites]
    have hwanted : Ty.integer.Fits := trivial
    exact h.bind_carried (expr e he) (fun t _ => h.code.codeWalk.unary (S := []) _ _ _ _ t
      fun _ _ ho => h.code.codeWalk.unaryCode ho (by decide)) fun _ _ _ _ _ hend =>
        (unary_fits hwanted hend).typed
  | .literal _ l, _ => by
    rw [Compile.expr, Expr.sites]
    exact (h.carried (h.code.codeWalk.literalValue (S := []) fun _ _ _ _ _ hb => hb)).giving
      fun _ hend => (literal_fits l hend).typed
  | .array _ [], _ => by
    rw [Compile.expr, Expr.sites]
    have hnull : Ty.null.Fits := trivial
    exact h.pure (.of_fits (Ty.fits_array hnull 0))
  | .array line (e :: es), ⟨_, he, hes⟩ => by
    rw [Compile.expr, Expr.sites]
    refine h.bind (expr e he) fun t ht => ?_
    exact h.carried_bind (h.code.codeWalk.valueAtHand (S := [])) fun v =>
      elements line ht [v] es hes
  | .group _ e, ⟨_, he⟩ => by
    rw [Compile.expr, Expr.sites]
    exact expr e he
  | .access (.mk a suffixes), ⟨_, ha, hsuffixes⟩ => by
    unfold Compile.expr Expr.sites
    exact h.follow (atom a ha) (atom_reports a) fun t ht => suffixesFrom _ _ ht suffixes hsuffixes

theorem chain (level : Level) (line : Nat) (c : Chain) (hc : Typed T c.result?) :
    ∀ rest : List (String × Expr), (∀ p ∈ rest, (Op.ofText p.1).isPlain = true) →
      Expr.AllRest Expr.Formed rest →
        Makes L T (Expr.sitesRest rest) (Typed T) (Compile.chain level line c rest)
  | [], _, _ => by
    rw [Compile.chain, Expr.sitesRest]
    exact h.pure hc
  | (op, e) :: rest, hops, ⟨he, hrest⟩ => by
    rw [Compile.chain, Expr.sitesRest]
    refine h.bind (expr e he) fun t _ => ?_
    have hstep : Makes L T [] (fun c' : Chain => Typed T c'.result?)
      (c.step level line op e.line t) :=
      (h.carried (h.code.codeWalk.chainStep h.converts level line (List.mem_singleton_self c.value)
        (h.applies (hops _ (.head _))) e.line t)).giving fun _ hend =>
          (Chain.step_fits _ _ _ _ _ _ hend).typed
    exact h.quiet_bind hstep fun c' hc' =>
      chain level line c' hc' rest (fun p hp => hops p (.tail _ hp)) hrest

theorem elements (line : Nat) {first? : Option Ty} (hfirst : Typed T first?)
    (cells : List Operand) :
    ∀ es : List Expr, Expr.AllIn Expr.Formed es →
      Makes L T (Expr.sitesAll es) (Typed T) (Compile.elements line first? cells es)
  | [], _ => by
    unfold Compile.elements
    rw [Expr.sitesAll]
    refine h.carried_bind (h.code.codeWalk.setValue _ _ (List.mem_singleton_self _)) fun _ => ?_
    cases first? with
    | some t =>
      refine h.pure fun hT t' ht' => ?_
      cases ht'
      exact Ty.fits_array (hfirst hT t rfl) _
    | none => exact fun _ _ _ _ hend => absurd hend Build.ends_throw
  | e :: es, ⟨he, hes⟩ => by
    rw [Compile.elements, Expr.sitesAll]
    refine h.bind (expr e he) fun t _ => ?_
    refine h.carried_bind (h.code.codeWalk.valueAtHand (S := [])) fun v => ?_
    split
    · refine h.carried_bind (Build.Carries.ofExcept (S := []) _) fun _ => ?_
      exact h.carried_bind (Build.Carries.ofExcept (S := []) _) fun _ => h.report_pure .none _ _
    · exact elements line hfirst (cells ++ [v]) es hes

theorem arguments : ∀ es : List Expr, Expr.AllIn Expr.Formed es → Makes L T (Expr.sitesAll es)
    (fun p => p.1.length = es.length ∧ p.2.length = es.length) (Compile.arguments es)
  | [], _ => by
    rw [Compile.arguments, Expr.sitesAll]
    exact h.pure ⟨rfl, rfl⟩
  | e :: es, ⟨he, hes⟩ => by
    rw [Compile.arguments, Expr.sitesAll]
    refine h.bind (expr e he) fun t _ => ?_
    refine h.carried_bind (h.code.codeWalk.valueAtHand (S := [])) fun v => ?_
    refine h.bind_pure (arguments es hes) fun p hp => ?_
    exact ⟨congrArg (· + 1) hp.1, congrArg (· + 1) hp.2⟩

theorem atom : ∀ a : Atom, a.All Expr.Formed →
    Makes L T a.sites (fun t? => ∀ t, t? = some t → t.Known T a.callee?) (Compile.atom a)
  | .name line id, _ => by
    rw [Compile.atom, Atom.sites]
    refine (h.carried (h.code.codeWalk.name (S := []) line id)).giving fun hb hend => ?_
    rintro t rfl
    rcases name_ends hend with ⟨ht, -⟩ | ⟨t', ht, hknown⟩
    · cases ht
    · cases ht
      exact hb ▸ hknown
  | .this line, _ => by
    rw [Compile.atom, Atom.sites]
    refine (h.carried (h.code.codeWalk.this (S := []) line)).giving fun hb hend => ?_
    rintro t rfl
    rcases this_ends hend with ⟨ht, -⟩ | ⟨t', ht, hknown⟩
    · cases ht
    · cases ht
      exact hb ▸ hknown
  | .new line cls args text, hargs => by
    rw [Atom.sites]
    exact h.new (arguments args hargs)

theorem suffixesFrom (line : Nat) (isThis : Bool) {t : Target} {callee? : Option Callee}
    (ht : t.Known T callee?) : ∀ ss : List Suffix, Suffix.AllIn Expr.Formed ss →
      Makes L T (Suffix.sitesFrom callee? ss) (Typed T) (Compile.suffixes line isThis t ss)
  | [], _ => by
    -- An access that ends makes no call.
    rw [Compile.suffixes, Suffix.sitesFrom]
    exact (h.carried (h.code.codeWalk.conclude line fun _ ho => ho)).giving
      fun _ hend => conclude_typed ht.typed hend
  | .call at_ args :: rest, ⟨hargs, hrest⟩ => by
    rw [Compile.suffixes, Suffix.sitesFrom]
    refine h.bind (arguments args hargs) fun p hp => ?_
    exact h.bind (h.apply at_ ht hp.1 hp.2) fun t' ht' => suffixesFrom line isThis ht' rest hrest
  | .index at_ e :: rest, ⟨he, hrest⟩ => by
    rw [Compile.suffixes, Suffix.sitesFrom]
    have hsettle : Makes L T [] (fun t' => Typed T t'.type?) (settle t) :=
      (h.carried (h.code.codeWalk.settle fun _ ho => ho)).giving fun _ hend => by
        rcases settle_ends hend with rfl | rfl
        · exact ht.typed
        · exact .of_fits trivial
    refine h.quiet_bind hsettle fun t' ht' => ?_
    split
    -- Only an array has elements.
    · rename_i el dims hel
      have htyped : Typed T (some el) := fun hT t ht => by
        cases ht
        exact (ht' hT _ hel).1
      refine h.carried_bind (h.code.codeWalk.valueAtHand (S := [])) fun base => ?_
      refine h.bind (expr e he) fun index? _ => ?_
      have helement : Makes L T [] (fun t => t.Known T none) (element e.line el base index?) :=
        (h.carried (h.code.codeWalk.element e.line el (List.mem_singleton_self base) index?)).giving
          fun _ hend => element_known htyped hend
      exact h.quiet_bind helement fun t'' ht'' => suffixesFrom line isThis ht'' rest hrest
    -- Anything else is reported, and its calls are not accounted for.
    · have hfailed : failed.Known T none := Target.known_failed
      exact h.report (h.settles (suffixesFrom line isThis hfailed rest hrest)) _ _
  | .member at_ id :: rest, hrest => by
    rw [Compile.suffixes, Suffix.sitesFrom]
    refine h.carried_bind (h.code.codeWalk.settle fun _ ho => ho) fun t' => ?_
    have hmember : Makes L T [] (fun t => t.Known T (some (.method id)))
      (member at_ isThis t' id) :=
      (h.carried (h.code.codeWalk.member (S := []) at_ isThis t' id)).giving
        fun hb hend => hb ▸ member_known hend
    exact h.quiet_bind hmember fun t'' ht'' => suffixesFrom line isThis ht'' rest hrest

theorem firstIndex : ∀ ss : List Suffix, Suffix.AllIn Expr.Formed ss →
    Makes L T (Suffix.indexSites ss) (fun _ => True) (Compile.firstIndex ss)
  | [], _ => by
    rw [Compile.firstIndex, Suffix.indexSites]
    exact h.pure trivial
  | .index _ e :: _, ⟨he, _⟩ => by
    rw [Compile.firstIndex, Suffix.indexSites]
    exact (expr e he).mono fun _ _ => trivial
  | .call _ _ :: rest, ⟨_, hrest⟩ => by
    rw [Compile.firstIndex, Suffix.indexSites]
    exact firstIndex rest hrest
  | .member _ _ :: rest, hrest => by
    rw [Compile.firstIndex, Suffix.indexSites]
    exact firstIndex rest hrest

end

end SiteWalk

end Compile

end Scriptc
