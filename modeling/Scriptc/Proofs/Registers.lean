import Mathlib.Data.List.Nodup
import Scriptc.Mips.Allocator

/-!
# Scriptc: names and their registers

What the allocator keeps in four tables fits together (`Allocator.Sound`): no two names share a
register, the registers in use are those of the names, the free ones are all temporaries that are
not in use (and maybe some that are), and every spilled name has a word of its own. Each request
keeps that, so it holds after any number of them: `allocator_sound`.
-/

namespace Scriptc

namespace Assoc

variable {κ ν : Type} [DecidableEq κ]

@[grind =] theorem get?_put (t : Assoc κ ν) (x y : κ) (w : ν) :
    (t.put x w).get? y = if y = x then some w else t.get? y := by
  split
  · subst y
    exact get?_put_self t x w
  · exact get?_put_of_ne t w ‹_›

@[grind =] theorem get?_erase (t : Assoc κ ν) (x y : κ) :
    (t.erase x).get? y = if y = x then none else t.get? y := by
  induction t with
  | nil => simp [erase, get?]
  | cons e t ih =>
    obtain ⟨k, v⟩ := e
    unfold erase at ih ⊢
    rw [List.filter_cons]
    by_cases hk : k = x <;> by_cases hy : k = y <;> simp_all [get?]

end Assoc

namespace Mips.Allocator

/-- The registers that can be given to names. -/
def pool : List Reg := Reg.temporaries ++ Reg.savedAll ++ Reg.arguments

structure Sound (a : Allocator) : Prop where
  inj : ∀ {x y r}, a.map.get? x = some r → a.map.get? y = some r → x = y
  pool : ∀ {x r}, a.map.get? x = some r → r ∈ pool
  used : ∀ r, r ∈ a.used ↔ ∃ x, a.map.get? x = some r
  usedOnce : a.used.Nodup
  freeOnce : a.free.Nodup
  freeTemporary : ∀ r ∈ a.free, r ∈ Reg.temporaries
  freeAll : ∀ r ∈ Reg.temporaries, r ∉ a.used → r ∈ a.free
  word : ∀ {x k}, a.spilled.get? x = some k → 4 ∣ k ∧ k < a.spillOffset
  wordInj : ∀ {x y k}, a.spilled.get? x = some k → a.spilled.get? y = some k → x = y
  nextWord : 4 ∣ a.spillOffset

/-- The name had a register and has it no more. -/
def Lost (a a' : Allocator) (x : String) : Prop :=
  ∃ r, a.map.get? x = some r ∧ a'.map.get? x ≠ some r

variable {a : Allocator} {x y : String} {r : Reg}

theorem mem_order (p : Pool) : r ∈ p.order ↔ r ∈ pool := by
  cases p <;> simp [Pool.order, Pool.regs, pool] <;> tauto

@[grind =] theorem get?_release :
    (a.release x).map.get? y = if y = x then none else a.map.get? y := by
  unfold release
  grind

@[grind =] theorem get?_give :
    (a.give x r).map.get? y = if y = x then some r else a.map.get? y := Assoc.get?_put a.map x y r

namespace Sound

theorem empty : Sound {} where
  inj h := by cases h
  pool h := by cases h
  used r := ⟨nofun, fun ⟨_, h⟩ => nomatch h⟩
  usedOnce := List.nodup_nil
  freeOnce := by decide
  freeTemporary _ hr := hr
  freeAll _ hr _ := hr
  word h := by cases h
  wordInj h := by cases h
  nextWord := Nat.dvd_zero 4

theorem release (h : a.Sound) (x : String) : (a.release x).Sound := by
  cases hx : a.map.get? x with
  | none => simpa only [Allocator.release, hx] using h
  | some r =>
    -- A register of the pool is named like a temporary only if it is one.
    have htemp : r.isTemporary = true ↔ r ∈ Reg.temporaries := by
      have : ∀ r ∈ Allocator.pool, r.isTemporary = true ↔ r ∈ Reg.temporaries := by decide
      exact this r (h.pool hx)
    obtain ⟨inj, pool, used, usedOnce, freeOnce, freeTemporary, freeAll, word,
      wordInj, nextWord⟩ := h
    have hused (s : Reg) : s ∈ a.used.erase r ↔ s ≠ r ∧ s ∈ a.used := usedOnce.mem_erase_iff
    have hmap (y : String) : (a.release x).map.get? y = if y = x then none else
      a.map.get? y := get?_release
    simp only [Allocator.release, hx] at hmap ⊢
    refine ⟨?inj, ?pool, ?used, usedOnce.erase r, ?freeOnce, ?freeTemporary, ?freeAll,
      word, wordInj, nextWord⟩
    case freeOnce => grind [List.nodup_append]
    all_goals grind

theorem give (h : a.Sound) (hx : a.map.get? x = none) (hr : r ∈ Allocator.pool)
    (hnew : r ∉ a.used) :
    (a.give x r).Sound := by
  obtain ⟨inj, pool, used, usedOnce, freeOnce, freeTemporary, freeAll, word, wordInj, nextWord⟩ := h
  have hself : (a.give x r).map.get? x = some r := get?_give.trans (if_pos rfl)
  refine ⟨?inj, ?pool, fun s => ⟨?used, ?_⟩, usedOnce.insert, freeOnce, freeTemporary, ?freeAll,
    word, wordInj, nextWord⟩
  case used =>
    intro hs
    rcases List.mem_insert_iff.mp hs with rfl | hs
    · exact ⟨x, hself⟩
    · obtain ⟨y, hy⟩ := (used s).mp hs
      exact ⟨y, by grind⟩
  all_goals grind [Allocator.give]

/-- A register that is in use may be on the list of the free ones or not. -/
theorem eraseFree (h : a.Sound) (hr : r ∈ a.used) : Sound { a with free := a.free.erase r } :=
  { h with
    freeOnce := h.freeOnce.erase r
    freeTemporary := fun s hs => h.freeTemporary s (List.mem_of_mem_erase hs)
    freeAll := fun s hs hnot =>
      (List.mem_erase_of_ne fun heq => hnot (by rw [heq]; exact hr)).mpr (h.freeAll s hs hnot) }

theorem noteSpill (h : a.Sound) (x : String) :
    Sound { a with spilled := a.spilled.put x a.spillOffset, spillOffset := a.spillOffset + 4 } :=
      by
  obtain ⟨_, _, _, _, _, _, _, word, wordInj, nextWord⟩ := id h
  refine { h with word := ?word, wordInj := ?wordInj, nextWord := ?nextWord }
  all_goals grind

end Sound

/-! ## Requests -/

/-- What a request for the register of a name comes to. -/
structure Serves (a : Allocator) (x : String) (r : Reg) (a' : Allocator) : Prop where
  sound : a'.Sound
  has : a'.map.get? x = some r
  lost : ∀ {y}, Lost a a' y → y ≠ x ∧ ∀ s ∈ pool, s ∈ a.used
  lostOne : ∀ {y z}, Lost a a' y → Lost a a' z → y = z

theorem Serves.kept {a' : Allocator} (h : a'.Sound) (hx : a'.map.get? x = some r)
    (hkeep : ∀ {y s}, a.map.get? y = some s → a'.map.get? y = some s) : Serves a x r a' :=
  ⟨h, hx, fun ⟨_, hs, hnot⟩ => absurd (hkeep hs) hnot, fun ⟨_, hs, hnot⟩ => absurd (hkeep hs) hnot⟩

theorem Sound.spill (h : a.Sound) (hx : a.map.get? x = none)
    (hfull : ∀ s ∈ Allocator.pool, s ∈ a.used) :
    Serves a x (a.spill x).1 (a.spill x).2 := by
  obtain ⟨_, hsome⟩ := (h.used _).mp (hfull (.t 0) (by decide))
  unfold Allocator.spill
  split
  · rename_i hmap
    rw [hmap] at hsome
    cases hsome
  · rename_i victim r rest hmap
    have hvictim : a.map.get? victim = some r := by rw [hmap, Assoc.get?, if_pos rfl]
    have hsound := (h.noteSpill victim).release victim
    generalize hb : ({ a with
      spilled := a.spilled.put victim a.spillOffset, spillOffset := a.spillOffset + 4 } :
        Allocator) = b at hsound
    have hbmap : b.map = a.map := by rw [← hb]
    have hnew : r ∉ (b.release victim).used := by
      rw [hsound.used]
      grind [h.inj]
    have hlost {y} (hy : Lost a ((b.release victim).give x r) y) : y = victim := by
      grind [Lost]
    refine ⟨hsound.give ?_ (h.pool hvictim) hnew, ?_, ?_, ?_⟩ <;> grind

theorem Sound.regOf (h : a.Sound) (x : String) (p : Pool) :
    Serves a x (a.regOf x p).1 (a.regOf x p).2 := by
  unfold Allocator.regOf
  split
  · exact .kept h ‹_› id
  rename_i hx
  split
  · rename_i r hr
    have hpool : r ∈ Allocator.pool := (mem_order p).mp (List.mem_of_find?_eq_some hr)
    have hnew : r ∉ a.used := by simpa using List.find?_some hr
    refine .kept ((h.give hx hpool hnew).eraseFree (List.mem_insert_self ..))
      (get?_give.trans (if_pos rfl)) ?_
    grind
  · rename_i hr
    refine h.spill hx fun s hs => ?_
    have := List.find?_eq_none.mp hr s ((mem_order p).mpr hs)
    simpa using this

theorem find?_unused {rs ss : List Reg} (hr : r ∈ rs) (hnot : r ∉ ss) :
    ∃ s, rs.find? (!ss.contains ·) = some s ∧ s ∈ rs ∧ s ∉ ss := by
  obtain ⟨s, hs⟩ : ∃ s, rs.find? (!ss.contains ·) = some s :=
    Option.isSome_iff_exists.mp (List.find?_isSome.mpr ⟨r, hr, by simpa using hnot⟩)
  exact ⟨s, hs, List.mem_of_find?_eq_some hs, by simpa using List.find?_some hs⟩

/-- A register for the moment belongs to no name as long as some temporary does not. -/
theorem Sound.scratch (h : a.Sound) (hfree : ∃ r ∈ Reg.temporaries, ∀ x, a.map.get? x ≠ some r)
    (x : String) :
    a.map.get? x ≠ some a.scratch := by
  obtain ⟨r, hr, hno⟩ := hfree
  have hunused : r ∉ a.used := fun hin => ((h.used r).mp hin).elim hno
  obtain ⟨s, hfind, -, hs⟩ := find?_unused (List.mem_append_right a.free hr) hunused
  rw [Allocator.scratch, hfind, Option.getD_some]
  exact fun hx => hs ((h.used s).mpr ⟨x, hx⟩)

inductive Request where
  | reg (name : Operand) (use : String)
  | scratch
  | release (name : String)
  | reset

/-- The allocator after a request; one that fails leaves it as it was. -/
def serve (a : Allocator) : Request → Allocator
  | .reg o use => ((a.regFor o (.ofUse use)).toOption.map Prod.snd).getD a
  | .scratch => a
  | .release x => a.release x
  | .reset => {}

/-- A name is an operand that is no number; a list of cells cannot be one. -/
def IsName (o : Operand) : Prop := isNumber o = false ∧ o ≠ .none ∧ ∀ vs, o ≠ .cells vs

theorem regFor_name {o : Operand} (ho : IsName o) (p : Pool) :
    a.regFor o p = .ok (a.regOf o.render p) := by
  obtain ⟨hnumber, hnone, hcells⟩ := ho
  unfold regFor
  rw [hnumber, if_neg Bool.false_ne_true]
  split
  · exact absurd rfl hnone
  · exact absurd rfl (hcells _)
  · rfl

theorem Sound.serve (h : a.Sound) (q : Request) : (a.serve q).Sound := by
  cases q with
  | reg o use =>
    show (((a.regFor o (.ofUse use)).toOption.map Prod.snd).getD a).Sound
    unfold Allocator.regFor
    split
    · exact h
    · split
      · exact h
      · exact h
      · exact (h.regOf _ _).sound
  | scratch => exact h
  | release x => exact h.release x
  | reset => exact .empty

/-- **The tables of the allocator fit together** after any requests. A name is given the register
that the table has for it then; at most one other name loses its register, and only if all registers
are taken. A register for the moment belongs to no name unless all temporaries do. -/
theorem allocator_sound (requests : List Request) :
    ∃ a : Allocator, requests.foldl serve {} = a ∧ a.Sound ∧
    (∀ o p, IsName o → ∃ r a', a.regFor o p = .ok (r, a') ∧ Serves a o.render r a') ∧
    ((∃ r ∈ Reg.temporaries, ∀ x, a.map.get? x ≠ some r) → ∀ x, a.map.get? x ≠ some a.scratch) := by
  have hsound : (requests.foldl serve {}).Sound :=
    List.foldlRecOn requests serve Sound.empty fun _ h q _ => h.serve q
  exact ⟨_, rfl, hsound, fun o p ho => ⟨_, _, regFor_name ho p, hsound.regOf _ p⟩, hsound.scratch⟩

end Mips.Allocator

end Scriptc
