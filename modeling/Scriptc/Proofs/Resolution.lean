import Scriptc.Proofs.Calls
import Scriptc.Proofs.Sites

/-!
# Scriptc: calls and what they resolve to

`HasCalls T sites code` says that the code has for each of the calls that are listed one call, of as
many words as the function has parameters to which the call resolves in the table `T`, and no other
quadruples of calls but those that turn a number into a string. That is so of the code of every
expression (`expr_makes`).
-/

namespace Scriptc

/-- By the table a call that stands in a program is made by that call. It has one argument for each
parameter of the function that it resolves to, behind the object if that is a method or a
constructor. -/
inductive Site.Resolves (T : SymbolTable) : Site → Call → Prop where
  | function {name : String} {s : Symbol} {f : Function} {args : List Operand} {t : Operand}
      (hs : T.lookupSymbol? name = some s) (hf : s.body = .function f)
        (hargs : args.length = f.params.length) :
      Resolves T (.call (.function name) args.length) (.function s.name args t)
  | method {cls name : String} {id : SymbolId} {s : Symbol} {f : Function} {this : Operand}
      {args : List Operand} {t : Operand} (hid : T.member? cls name = some id)
        (hs : T.symbol? id = some s)
      (hf : s.body = .function f) (hargs : args.length = f.params.length) :
      Resolves T (.call (.method name) args.length) (.method this cls name args t)
  | constructor {cls : String} {s : Symbol} {c : Class} {f : Function} {this : Operand}
      {args : List Operand}
      {t : Operand} (hs : T.lookupSymbol? cls = some s) (hc : s.asClass? = some c)
      (hf : T.constructor? c = some f) (hargs : args.length = f.params.length) :
      Resolves T (.new cls args.length) (.method this cls Compile.constructorName args t)

/-- Code has one call for each that is listed, in their order. Objects of a class without a
constructor take none. Besides there are quadruples of the flow, and calls that turn a number into a
string. -/
inductive HasCalls (T : SymbolTable) : List Site → List Quad → Prop where
  | nil : HasCalls T [] []
  | quad {q : Quad} {ss : List Site} {code : List Quad} (hq : q.inFlow = true)
      (h : HasCalls T ss code) :
      HasCalls T ss (q :: code)
  | text {v t : Operand} {ss : List Site} {code : List Quad} (h : HasCalls T ss code) :
      HasCalls T ss ((Call.function "toString" [v] t).code ++ code)
  | call {s : Site} {c : Call} {ss : List Site} {code : List Quad} (hc : s.Resolves T c)
      (h : HasCalls T ss code) : HasCalls T (s :: ss) (c.code ++ code)
  | bare {cls : String} {s : Symbol} {c : Class} {ss : List Site} {code : List Quad}
      (hs : T.lookupSymbol? cls = some s) (hc : s.asClass? = some c)
        (hnone : T.constructor? c = none)
      (h : HasCalls T ss code) : HasCalls T (.new cls 0 :: ss) code

namespace HasCalls

variable {T : SymbolTable} {ss us : List Site} {c d : List Quad}

theorem append (hc : HasCalls T ss c) (hd : HasCalls T us d) : HasCalls T (ss ++ us) (c ++ d) := by
  induction hc with
  | nil => exact hd
  | quad hq _ ih => exact .quad hq ih
  | text _ ih =>
    rw [List.append_assoc]
    exact .text ih
  | call hc _ ih =>
    rw [List.append_assoc]
    exact .call hc ih
  | bare hs hc hnone _ ih => exact .bare hs hc hnone ih

theorem codeShape : Compile.CodeShape (HasCalls T []) where
  nil := .nil
  append hc hd := hc.append hd
  quad _ hq := .quad hq .nil

end HasCalls

namespace Compile

open Build (Keeps ends_pure ends_bind)

variable {T : SymbolTable} {b b' : Build}

/-- The code that is written has the calls that are listed. -/
def Calling (T : SymbolTable) (sites : List Site) : Build → Build → Prop := Lays (HasCalls T sites)

namespace Calling

theorem codeStable : CodeStable (Accounts (Calling T) []) :=
  have h : CodeStable (Calling T []) := Lays.codeStable HasCalls.codeShape
  .of_silent (fun b => ⟨rfl, h.refl b⟩)
    (fun _ _ _ h₁ h₂ => ⟨h₂.1.trans h₁.1, h.trans _ _ _ h₁.2 h₂.2⟩)
    (fun _ _ hs => ⟨hs.table, Lays.of_silent HasCalls.codeShape hs⟩)
    (fun line text _ _ _ hend => ⟨(Quiet.error line text hend).table, h.error line text hend⟩)
    (fun q hq _ _ _ hend => ⟨(Quiet.quad q hend).table, h.quad q hq hend⟩)
    fun _ _ _ _ htest _ _ _ hend =>
      ⟨(Quiet.exprStable.shortCircuit _ _ _ _ htest hend).table, h.shortCircuit _ _ _ _ htest hend⟩

/-- Code that is one call. -/
theorem call {s : Site} {c : Call} (hc : s.Resolves T c) (h : Emit.Extends b b' c.code) :
    Accounts (Calling T) [s] b b' := by
  refine ⟨h.table, h.errors ▸ Nat.le_refl _, fun _ => ⟨c.code, h.quads, ?_⟩⟩
  have hcode : HasCalls T [s] (c.code ++ []) := .call hc .nil
  rwa [List.append_nil] at hcode

/-- A number is turned into a string by a call that stands in no program. -/
theorem callToString (v : Operand) : Keeps (Accounts (Calling T) []) (Emit.callToString v) := by
  intro b o b' h
  have hcode := Emit.Extends.call h
  refine ⟨hcode.table, hcode.errors ▸ Nat.le_refl _, fun _ => ⟨_, hcode.quads, ?_⟩⟩
  have hcall : HasCalls T [] ((Call.function "toString" [v] o).code ++ []) := .text .nil
  rwa [List.append_nil] at hcall

/-- An object is made, and its constructor runs. -/
theorem construct {cls : String} {s : Symbol} {c : Class} (hs : T.lookupSymbol? cls = some s)
    (hc : s.asClass? = some c) {args : List Operand}
    (hfits : Admits (T.constructor? c) args.length) :
    Keeps (Accounts (Calling T) [.new cls args.length])
      (Compile.construct cls (T.constructor? c) args) := by
  intro b t b' hend
  unfold Compile.construct at hend
  obtain ⟨object, b₁, hobject, hend⟩ := ends_bind.mp hend
  obtain ⟨htable, hlays⟩ := codeStable.newObject_of_silent
    (fun _ _ hs => ⟨hs.table, Lays.of_silent (HasCalls.codeShape (T := T)) hs⟩) cls hobject
  have hrest : Accounts (Calling T) [.new cls args.length] b₁ b' := by
    rw [Build.isClean, Build.ends_read_bind] at hend
    cases hctor : T.constructor? c with
    -- A class without a constructor is given no arguments, and nothing is called.
    | none =>
      rw [hfits.2 hctor]
      rw [hctor] at hend
      obtain ⟨_, b₂, hset, hend⟩ := ends_bind.mp hend
      obtain ⟨rfl, rfl⟩ := ends_pure.mp hend
      have hsilent := Emit.Silent.setValue object hset
      refine ⟨hsilent.table, hsilent.errors ▸ Nat.le_refl _, fun _ => ⟨[], ?_, ?_⟩⟩
      · rw [hsilent.quads, List.append_nil]
      · exact .bare hs hc hctor .nil
    | some f =>
      rw [hctor] at hend
      dsimp only at hend
      split at hend
      -- The call is written, since there are no reports.
      · simp only [ends_bind, ends_pure] at hend
        obtain ⟨o, b₂, hcall, _, b₃, hset, rfl, rfl⟩ := hend
        have hwhole := (Emit.Extends.callMethod hcall).trans_silent (Emit.Silent.setValue _ hset)
        exact call (.constructor hs hc hctor (hfits.1 f hctor).symm) hwhole
      · rename_i hclean
        obtain ⟨_, b₂, hset, hend⟩ := ends_bind.mp hend
        obtain ⟨rfl, rfl⟩ := ends_pure.mp hend
        have hsilent := Emit.Silent.setValue object hset
        -- There are reports, so nothing is claimed.
        refine ⟨hsilent.table, hsilent.errors ▸ Nat.le_refl _, fun hnone => ?_⟩
        grind
  exact ⟨hrest.1.trans htable, hlays.append hrest.2 fun _ _ hc hd => hc.append hd⟩

/-- Every call is the one that stands there. -/
theorem siteWalk (T : SymbolTable) : SiteWalk T (Calling T) where
  errors h := h.errors
  unclean hle hne := ⟨hle, fun hclean => absurd hclean hne⟩
  append h h' := h.append h' fun _ _ hc hd => hc.append hd
  code := codeStable
  callToString := callToString
  function hs hf hargs _ _ _ hend := call (.function hs hf hargs) (Emit.Extends.call hend)
  method hid hs hf hargs _ _ _ hend := call (.method hid hs hf hargs) (Emit.Extends.callMethod hend)
  construct hs hc hfits := construct hs hc hfits

end Calling

/-- The code of an expression has one call for each that stands in it. -/
theorem expr_makes (e : Expr) (he : e.All Expr.Formed) :
    Makes (Calling T) T e.sites (Typed T) (expr e) :=
  (Calling.siteWalk T).expr e he

end Compile

end Scriptc
