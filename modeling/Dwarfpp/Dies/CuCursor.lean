/-
# The cursor over the compile units

libdwarf goes through the headers of the compile units in one direction and starts again after
the last.  A root keeps in fields of its own where it stands: `advance_cu_context`,
`clear_cu_context` and `set_cu_context` of `src/root.cpp`, with all they see of a header.

Where each unit's DIE lies 11 bytes behind its header, as in 32-bit DWARF before version 5,
the fields agree with libdwarf in every state that calls lead to (`Reachable.inStep`), and
`set_cu_context` finds every unit and no other.  In any other file it fails an assertion in a
new root (`setsRight_iff`).
-/

import Dwarfpp.Lib.Returns
import Dwarfpp.Dies.Root

namespace Dwarfpp
namespace Dies

open Lib

/-- The bytes of a unit's header: its length, with the escape of 64-bit DWARF, its version, the
offset of its abbreviations, its address size and, from version 5 on, its type. -/
def CompileUnit.headerSize (u : CompileUnit) : ℕ :=
  u.extensionSize + u.offsetSize + 2 + u.offsetSize + 1 + if 5 ≤ u.versionStamp then 1 else 0

/-- 32-bit or 64-bit DWARF. -/
def CompileUnit.HasFormat (u : CompileUnit) : Prop :=
  u.offsetSize = 4 ∧ u.extensionSize = 0 ∨ u.offsetSize = 8 ∧ u.extensionSize = 4

/-- Units one behind the other, from an offset on: each has a header, its DIE, and what its header
says of its length. -/
def IsUnitList : ℕ → List CompileUnit → Prop
  | _, [] => True
  | start, u :: us => u.HasFormat ∧ u.die = start + u.headerSize ∧ u.die < u.nextCuHeader ∧
      u.nextCuHeader = start + u.extensionSize + u.offsetSize + u.cuHeaderLength ∧
      IsUnitList u.nextCuHeader us

/-- A state that calls lead to from a new root. -/
inductive Reachable (lib : Libdwarf) : Root → Prop
  | make (attrs : ℕ → AttributeMap) (complete : Bool) :
    Reachable lib (.make (some lib) attrs complete)
  | advance {r r' : Root} {b : Bool} (hr : Reachable lib r)
      (h : advanceCuContext r = .ok (b, r')) : Reachable lib r'
  | clear {r r' : Root} {b : Bool} (hr : Reachable lib r)
      (h : clearCuContext r = .ok (b, r')) : Reachable lib r'
  | set {r r' : Root} {b : Bool} (off : ℕ) (hr : Reachable lib r)
      (h : setCuContext off r = .ok (b, r')) : Reachable lib r'

/-- The call returns, and tells whether there is a unit's DIE at the offset; if there is, the fields
describe that unit. -/
def SetsRight (lib : Libdwarf) (r : Root) (off : ℕ) : Prop :=
  ∃ b r', setCuContext off r = .ok (b, r') ∧ (b = true ↔ ∃ u ∈ lib.cuHeaders, u.die = off) ∧
    (b = true → r'.currentCuOffset = off ∧
      ∃ u ∈ lib.cuHeaders, u.die = off ∧ r'.lastSeen = LastSeen.ofUnit u)

/-- The fields agree with libdwarf: at no unit, with all to come, or at one of the file. -/
structure InStep (lib : Libdwarf) (r : Root) : Prop where
  dbg : r.dbg = some lib
  upcoming : IsUnitList (r.lastSeen.nextCuHeader.getD 0) r.upcomingCus
  place : (r.currentCuOffset = 0 ∧ r.upcomingCus = lib.cuHeaders ∧ r.lastSeen = LastSeen.unset) ∨
    ∃ pre cu, lib.cuHeaders = pre ++ cu :: r.upcomingCus ∧ r.cuContext = some cu ∧
      r.currentCuOffset = cu.die ∧ r.firstCuOffset = some 11 ∧ r.lastSeen = LastSeen.ofUnit cu

theorem require_of {p : Prop} [Decidable p] {r : Root} (h : p) : require p r = .ok ((), r) :=
  if_pos h

theorem require_of_not {p : Prop} [Decidable p] {r : Root} (h : ¬p) :
    require p r = .error .assertFailed := if_neg h

section Units

variable {lib : Libdwarf} {us : List CompileUnit} {u cu : CompileUnit} {start : ℕ} {r r' : Root}
  {off : ℕ}

theorem CompileUnit.HasFormat.le_headerSize (h : u.HasFormat) : 11 ≤ u.headerSize := by
  rcases h with ⟨hoff, hext⟩ | ⟨hoff, hext⟩ <;> rw [CompileUnit.headerSize, hoff, hext] <;> omega

theorem IsUnitList.le_die (h : IsUnitList start us) (hu : u ∈ us) : start + 11 ≤ u.die := by
  induction us generalizing start with
  | nil => exact absurd hu List.not_mem_nil
  | cons v us ih =>
    obtain ⟨hformat, hdie, hnext, -, hus⟩ := h
    have hsize := hformat.le_headerSize
    rcases List.mem_cons.1 hu with rfl | hu
    · omega
    · have hle := ih hus hu
      omega

theorem InStep.mem_of_upcoming (h : InStep lib r) (hu : u ∈ r.upcomingCus) : u ∈ lib.cuHeaders := by
  rcases h.place with ⟨-, hall, -⟩ | ⟨pre, cu, hsplit, -⟩
  · rwa [← hall]
  · rw [hsplit]
    exact List.mem_append_right _ (List.mem_cons_of_mem _ hu)

/-- Where there is a context, the fields describe a unit. -/
theorem InStep.unit (h : InStep lib r) (hne : r.currentCuOffset ≠ 0) :
    ∃ u ∈ lib.cuHeaders, u.die = r.currentCuOffset ∧ r.lastSeen = LastSeen.ofUnit u := by
  rcases h.place with ⟨hzero, -⟩ | ⟨pre, cu, hsplit, -, hcurrent, -, hseen⟩
  · exact absurd hzero hne
  · refine ⟨cu, ?_, hcurrent.symm, hseen⟩
    rw [hsplit]
    exact List.mem_append_right _ List.mem_cons_self

/-- Where there is none, all units are to come. -/
theorem InStep.upcoming_eq (hl : IsUnitList 0 lib.cuHeaders) (h : InStep lib r)
    (hzero : r.currentCuOffset = 0) :
    r.upcomingCus = lib.cuHeaders ∧ r.lastSeen = LastSeen.unset := by
  rcases h.place with ⟨-, hall, hseen⟩ | ⟨pre, cu, hsplit, -, hcurrent, -⟩
  · exact ⟨hall, hseen⟩
  · have hle : 0 + 11 ≤ cu.die :=
      hl.le_die (by rw [hsplit]; exact List.mem_append_right _ List.mem_cons_self)
    omega

theorem inStep_make (hl : IsUnitList 0 lib.cuHeaders) (attrs : ℕ → AttributeMap) (complete : Bool) :
    InStep lib (.make (some lib) attrs complete) :=
  ⟨rfl, hl, .inl ⟨rfl, rfl, rfl⟩⟩

/-- **After the last unit** all are to come again. -/
theorem InStep.advance_nil (hl : IsUnitList 0 lib.cuHeaders) (h : InStep lib r)
    (hup : r.upcomingCus = []) :
    ∃ r', advanceCuContext r = .ok (false, r') ∧ InStep lib r' ∧ r'.currentCuOffset = 0 := by
  refine ⟨{ r with
    upcomingCus := lib.cuHeaders, cuContext := none, currentCuOffset := 0
    lastSeen := LastSeen.unset }, ?_, ⟨h.dbg, hl, .inl ⟨rfl, rfl, rfl⟩⟩, rfl⟩
  rw [advanceCuContext, stateT_get_bind, h.dbg, hup]
  rfl

/-- **A unit with a header of 11 bytes** passes the checks. -/
theorem InStep.advance_cons (hl : IsUnitList 0 lib.cuHeaders) (h : InStep lib r)
    (hup : r.upcomingCus = u :: us) (hsize : u.headerSize = 11) :
    ∃ r', advanceCuContext r = .ok (true, r') ∧ InStep lib r' ∧ r'.upcomingCus = us ∧
      r'.cuContext = some u ∧ r'.currentCuOffset = u.die ∧
      (r.currentCuOffset = 0 → u.die = 11) := by
  have hunits := h.upcoming
  rw [hup] at hunits
  obtain ⟨-, hdie, -, -, hus⟩ := hunits
  have hchecks : (r.currentCuOffset = 0 → 0 < u.die ∧ u.die < 32) ∧
      (if r.currentCuOffset = 0 then some u.die else r.firstCuOffset) = some 11 ∧
      cuOffsetIsSane (if r.currentCuOffset = 0 then some u.die else r.firstCuOffset)
        r.lastSeen.nextCuHeader u.die = true ∧ (r.currentCuOffset = 0 → u.die = 11) := by
    by_cases hzero : r.currentCuOffset = 0
    · obtain ⟨-, hseen⟩ := h.upcoming_eq hl hzero
      have h11 : u.die = 11 := by rw [hdie, hseen, hsize]; rfl
      rw [if_pos hzero, hseen, h11]
      exact ⟨fun _ => by omega, rfl, rfl, fun _ => rfl⟩
    · rcases h.place with ⟨hz, -⟩ | ⟨pre, cu, -, -, -, hfirst, hseen⟩
      · exact absurd hz hzero
      · have hnext : u.die = cu.nextCuHeader + 11 := by rw [hdie, hseen, hsize]; rfl
        rw [if_neg hzero, hfirst, hseen]
        refine ⟨fun hz => absurd hz hzero, rfl, ?_, fun hz => absurd hz hzero⟩
        exact decide_eq_true (.inr hnext)
  obtain ⟨hsmall, hfirst, hsane, h11⟩ := hchecks
  refine ⟨{ r with
    upcomingCus := us, cuContext := some u, currentCuOffset := u.die
    firstCuOffset := if r.currentCuOffset = 0 then some u.die else r.firstCuOffset
    lastSeen := LastSeen.ofUnit u
    parentOf := Function.update r.parentOf u.die (some 0) }, ?_,
    ⟨h.dbg, hus, .inr ?_⟩, rfl, rfl, rfl, h11⟩
  · rw [advanceCuContext, stateT_get_bind, h.dbg, hup]
    dsimp only
    rw [stateT_bind_of_ok (require_of hsmall), stateT_bind_of_ok (require_of hsane)]
    rfl
  · rcases h.place with ⟨-, hall, -⟩ | ⟨pre, cu, hsplit, -⟩
    · exact ⟨[], u, by rw [← hall, hup]; rfl, rfl, rfl, hfirst, rfl⟩
    · exact ⟨pre ++ [cu], u, by rw [hsplit, hup, List.append_assoc]; rfl, rfl, rfl, hfirst, rfl⟩

end Units

section Calls

variable {lib : Libdwarf} {pre rest us : List CompileUnit} {u : CompileUnit} {r : Root} {off n : ℕ}
  {b : Bool}

theorem InStep.toLast (hl : IsUnitList 0 lib.cuHeaders)
    (h11 : ∀ u ∈ lib.cuHeaders, u.headerSize = 11) (h : InStep lib r)
    (hup : r.upcomingCus = us) (hn : us.length < n) :
    ∃ r', advanceToLast n r = .ok ((), r') ∧ InStep lib r' ∧ r'.currentCuOffset = 0 := by
  induction us generalizing r n with
  | nil =>
    obtain ⟨n, rfl⟩ := Nat.exists_eq_succ_of_ne_zero (by omega : n ≠ 0)
    obtain ⟨r', hadvance, hr', hzero⟩ := h.advance_nil hl hup
    refine ⟨r', ?_, hr', hzero⟩
    rw [advanceToLast, stateT_bind_of_ok hadvance]
    rfl
  | cons u us ih =>
    obtain ⟨n, rfl⟩ := Nat.exists_eq_succ_of_ne_zero (by omega : n ≠ 0)
    have hmem := h.mem_of_upcoming (u := u) (by rw [hup]; exact List.mem_cons_self)
    obtain ⟨r', hadvance, hr', hup', -⟩ := h.advance_cons hl hup (h11 u hmem)
    obtain ⟨r'', hlast, hr''⟩ := ih hr' hup' (Nat.lt_of_succ_lt_succ hn)
    refine ⟨r'', ?_, hr''⟩
    rw [advanceToLast, stateT_bind_of_ok hadvance]
    exact hlast

/-- **`clear_cu_context`** leaves all units to come. -/
theorem InStep.clear (hl : IsUnitList 0 lib.cuHeaders)
    (h11 : ∀ u ∈ lib.cuHeaders, u.headerSize = 11) (h : InStep lib r) :
    ∃ r', clearCuContext r = .ok (true, r') ∧ InStep lib r' ∧ r'.currentCuOffset = 0 := by
  rw [clearCuContext, stateT_get_bind]
  by_cases hzero : r.currentCuOffset = 0
  · rw [if_pos hzero]
    exact ⟨r, rfl, h, hzero⟩
  · obtain ⟨r', hlast, hr'⟩ := h.toLast hl h11 rfl (Nat.lt_succ_self _)
    refine ⟨r', ?_, hr'⟩
    rw [if_neg hzero, stateT_bind_of_ok hlast]
    rfl

/-- One turn of the loop, at a unit that passes the checks. -/
theorem InStep.advanceTo_cons (hl : IsUnitList 0 lib.cuHeaders) (h : InStep lib r)
    (hup : r.upcomingCus = u :: us) (hsize : u.headerSize = 11)
    (hb : b = true → r.currentCuOffset = 0) (off n : ℕ) :
    ∃ r', InStep lib r' ∧ r'.upcomingCus = us ∧ r'.cuContext = some u ∧
      r'.currentCuOffset = u.die ∧ advanceCuContextTo off (n + 1) b r =
        if u.die ≠ off then advanceCuContextTo off n false r' else .ok (true, r') := by
  obtain ⟨r', hadvance, hr', hup', hcontext, hcurrent, hfirst⟩ := h.advance_cons hl hup hsize
  refine ⟨r', hr', hup', hcontext, hcurrent, ?_⟩
  have hpos : u.die ≠ 0 := by
    have hle := hl.le_die (h.mem_of_upcoming (u := u) (by rw [hup]; exact List.mem_cons_self))
    omega
  have hassert : true = true ∧ b = true → r'.currentCuOffset = 11 := by
    intro hctx
    rw [hcurrent, hfirst (hb hctx.2)]
  rw [advanceCuContextTo, stateT_bind_of_ok hadvance, stateT_get_bind,
    stateT_bind_of_ok (require_of hassert), hcurrent]
  by_cases hoff : u.die = off
  · rw [if_neg (fun hgo => hgo.2.1 hoff), if_neg (not_not_intro hoff)]
    rfl
  · rw [if_pos ⟨hpos, hoff, rfl⟩, if_pos hoff]

/-- **The loop goes to the first unit at the offset.** -/
theorem InStep.advanceTo_mem (hl : IsUnitList 0 lib.cuHeaders)
    (h11 : ∀ u ∈ lib.cuHeaders, u.headerSize = 11) (h : InStep lib r)
    (hup : r.upcomingCus = pre ++ u :: rest) (hpre : ∀ v ∈ pre, v.die ≠ u.die)
    (hb : b = true → r.currentCuOffset = 0) (hn : pre.length < n) :
    ∃ r', advanceCuContextTo u.die n b r = .ok (true, r') ∧ InStep lib r' ∧ r'.cuContext = some u ∧
      r'.currentCuOffset = u.die := by
  induction pre generalizing r n b with
  | nil =>
    obtain ⟨n, rfl⟩ := Nat.exists_eq_succ_of_ne_zero (by omega : n ≠ 0)
    have hmem := h.mem_of_upcoming (u := u) (by rw [hup]; exact List.mem_cons_self)
    obtain ⟨r', hr', -, hcontext, hcurrent, hrun⟩ := h.advanceTo_cons hl hup (h11 u hmem) hb
      u.die n
    rw [if_neg (not_not_intro rfl)] at hrun
    exact ⟨r', hrun, hr', hcontext, hcurrent⟩
  | cons v pre ih =>
    obtain ⟨n, rfl⟩ := Nat.exists_eq_succ_of_ne_zero (by omega : n ≠ 0)
    rw [List.forall_mem_cons] at hpre
    have hmem := h.mem_of_upcoming (u := v) (by rw [hup]; exact List.mem_cons_self)
    obtain ⟨r', hr', hup', -, -, hrun⟩ := h.advanceTo_cons hl hup (h11 v hmem) hb u.die n
    rw [if_pos hpre.1] at hrun
    rw [hrun]
    exact ih hr' hup' hpre.2 nofun (Nat.lt_of_succ_lt_succ hn)

/-- **Where no unit to come is at the offset**, the loop goes to the end. -/
theorem InStep.advanceTo_not_mem (hl : IsUnitList 0 lib.cuHeaders)
    (h11 : ∀ u ∈ lib.cuHeaders, u.headerSize = 11) (h : InStep lib r)
    (hup : r.upcomingCus = us) (hus : ∀ v ∈ us, v.die ≠ off)
    (hb : b = true → r.currentCuOffset = 0) (hn : us.length < n) :
    ∃ r', advanceCuContextTo off n b r = .ok (false, r') ∧ InStep lib r' ∧
      r'.currentCuOffset = 0 := by
  induction us generalizing r n b with
  | nil =>
    obtain ⟨n, rfl⟩ := Nat.exists_eq_succ_of_ne_zero (by omega : n ≠ 0)
    obtain ⟨r', hadvance, hr', hzero⟩ := h.advance_nil hl hup
    refine ⟨r', ?_, hr', hzero⟩
    rw [advanceCuContextTo, stateT_bind_of_ok hadvance, stateT_get_bind,
      stateT_bind_of_ok (require_of (by rintro ⟨⟨⟩, -⟩)), if_neg (by rintro ⟨-, -, ⟨⟩⟩)]
    rfl
  | cons v us ih =>
    obtain ⟨n, rfl⟩ := Nat.exists_eq_succ_of_ne_zero (by omega : n ≠ 0)
    rw [List.forall_mem_cons] at hus
    have hmem := h.mem_of_upcoming (u := v) (by rw [hup]; exact List.mem_cons_self)
    obtain ⟨r', hr', hup', -, -, hrun⟩ := h.advanceTo_cons hl hup (h11 v hmem) hb off n
    rw [if_pos hus.1] at hrun
    rw [hrun]
    exact ih hr' hup' hus.2 nofun (Nat.lt_of_succ_lt_succ hn)

theorem exists_first_unit {p : CompileUnit → Prop} (h : ∃ u ∈ us, p u) :
    ∃ pre u rest, us = pre ++ u :: rest ∧ p u ∧ ∀ v ∈ pre, ¬p v := by
  induction us with
  | nil =>
    obtain ⟨u, hu, -⟩ := h
    exact absurd hu List.not_mem_nil
  | cons v us ih =>
    by_cases hv : p v
    · exact ⟨[], v, us, rfl, hv, fun _ hmem => absurd hmem List.not_mem_nil⟩
    · obtain ⟨u, hu, hpu⟩ := h
      have htail : u ∈ us := (List.mem_cons.1 hu).resolve_left fun heq => hv (heq ▸ hpu)
      obtain ⟨pre, w, rest, rfl, hw, hpre⟩ := ih ⟨u, htail, hpu⟩
      exact ⟨v :: pre, w, rest, rfl, hw, List.forall_mem_cons.2 ⟨hv, hpre⟩⟩

/-- **`set_subsequent_cu_context`** finds the unit at the offset if it is to come. -/
theorem InStep.setSubsequent (hl : IsUnitList 0 lib.cuHeaders)
    (h11 : ∀ u ∈ lib.cuHeaders, u.headerSize = 11) (h : InStep lib r) (off : ℕ) :
    ∃ b r', setSubsequentCuContext off r = .ok (b, r') ∧ InStep lib r' ∧
      (b = true → r'.currentCuOffset = off) ∧
      (b = false → r'.currentCuOffset = 0 ∧ ∀ v ∈ r.upcomingCus, v.die ≠ off) := by
  rw [setSubsequentCuContext, stateT_get_bind]
  by_cases hcurrent : r.currentCuOffset = off
  · rw [if_pos hcurrent]
    exact ⟨true, r, rfl, h, fun _ => hcurrent, by simp⟩
  rw [if_neg hcurrent]
  have hb : decide (r.currentCuOffset = 0) = true → r.currentCuOffset = 0 := of_decide_eq_true
  by_cases hmem : ∃ u ∈ r.upcomingCus, u.die = off
  · obtain ⟨pre, u, rest, hup, rfl, hpre⟩ := exists_first_unit hmem
    have hn : pre.length < r.upcomingCus.length + 1 := by
      rw [hup, List.length_append]
      omega
    obtain ⟨r', hrun, hr', hcontext, hat⟩ := h.advanceTo_mem hl h11 hup hpre hb hn
    refine ⟨true, r', ?_, hr', fun _ => hat, by simp⟩
    rw [stateT_bind_of_ok hrun, stateT_get_bind,
      stateT_bind_of_ok (require_of fun _ => by rw [hcontext]; rfl)]
    rfl
  · have hno : ∀ v ∈ r.upcomingCus, v.die ≠ off := fun v hv heq => hmem ⟨v, hv, heq⟩
    obtain ⟨r', hrun, hr', hzero⟩ := h.advanceTo_not_mem hl h11 rfl hno hb (Nat.lt_succ_self _)
    refine ⟨false, r', ?_, hr', by simp, fun _ => ⟨hzero, hno⟩⟩
    rw [stateT_bind_of_ok hrun, stateT_get_bind, stateT_bind_of_ok (require_of (by simp))]
    rfl

/-- **`set_cu_context`** finds every unit and no other. -/
theorem InStep.set (hl : IsUnitList 0 lib.cuHeaders)
    (h11 : ∀ u ∈ lib.cuHeaders, u.headerSize = 11) (h : InStep lib r) (off : ℕ) :
    ∃ b r', setCuContext off r = .ok (b, r') ∧ InStep lib r' ∧
      (b = true → r'.currentCuOffset = off) ∧ (b = false → ∀ v ∈ lib.cuHeaders, v.die ≠ off) := by
  obtain ⟨b, r₁, hrun, hr₁, hfound, -⟩ := h.setSubsequent hl h11 off
  rw [setCuContext, stateT_bind_of_ok hrun]
  cases b with
  | true => exact ⟨true, r₁, rfl, hr₁, hfound, by simp⟩
  | false =>
    obtain ⟨r₂, hclear, hr₂, hzero⟩ := hr₁.clear hl h11
    obtain ⟨b', r₃, hrun₃, hr₃, hfound₃, hnot₃⟩ := hr₂.setSubsequent hl h11 off
    refine ⟨b', r₃, ?_, hr₃, hfound₃, fun hb => ?_⟩
    · rw [if_neg (by decide), stateT_bind_of_ok hclear]
      exact hrun₃
    · rw [← (hr₂.upcoming_eq hl hzero).1]
      exact (hnot₃ hb).2

/-- **In every state that calls lead to** the fields agree with libdwarf. -/
theorem Reachable.inStep (hl : IsUnitList 0 lib.cuHeaders)
    (h11 : ∀ u ∈ lib.cuHeaders, u.headerSize = 11) (h : Reachable lib r) : InStep lib r := by
  induction h with
  | make => exact inStep_make hl _ _
  | @advance r r' b _ hrun ih =>
    cases hup : r.upcomingCus with
    | nil =>
      obtain ⟨r₁, hrun₁, hr₁, -⟩ := ih.advance_nil hl hup
      obtain ⟨-, rfl⟩ := Prod.mk.inj (Except.ok.inj (hrun.symm.trans hrun₁))
      exact hr₁
    | cons u us =>
      have hmem := ih.mem_of_upcoming (u := u) (by rw [hup]; exact List.mem_cons_self)
      obtain ⟨r₁, hrun₁, hr₁, -⟩ := ih.advance_cons hl hup (h11 u hmem)
      obtain ⟨-, rfl⟩ := Prod.mk.inj (Except.ok.inj (hrun.symm.trans hrun₁))
      exact hr₁
  | clear _ hrun ih =>
    obtain ⟨r₁, hrun₁, hr₁, -⟩ := ih.clear hl h11
    obtain ⟨-, rfl⟩ := Prod.mk.inj (Except.ok.inj (hrun.symm.trans hrun₁))
    exact hr₁
  | set off _ hrun ih =>
    obtain ⟨b₁, r₁, hrun₁, hr₁, -⟩ := ih.set hl h11 off
    obtain ⟨-, rfl⟩ := Prod.mk.inj (Except.ok.inj (hrun.symm.trans hrun₁))
    exact hr₁

/-- At the start, a unit with another header fails the assertion that its DIE is at 11. -/
theorem InStep.advanceTo_start (hl : IsUnitList 0 lib.cuHeaders) (h : InStep lib r)
    (hup : r.upcomingCus = u :: us) (hsize : u.headerSize ≠ 11) (hzero : r.currentCuOffset = 0) :
    advanceCuContextTo off (n + 1) true r = .error .assertFailed := by
  obtain ⟨-, hseen⟩ := h.upcoming_eq hl hzero
  have hdie : u.die ≠ 11 := by
    have hunits := h.upcoming
    rw [hup, hseen] at hunits
    have hdie : u.die = 0 + u.headerSize := hunits.2.1
    omega
  have hsane : cuOffsetIsSane (if r.currentCuOffset = 0 then some u.die else r.firstCuOffset)
      r.lastSeen.nextCuHeader u.die = true := by
    rw [hseen]
    rfl
  by_cases hsmall : r.currentCuOffset = 0 → 0 < u.die ∧ u.die < 32
  · obtain ⟨r', hadvance, hcurrent⟩ : ∃ r', advanceCuContext r = .ok (true, r') ∧
        r'.currentCuOffset = u.die := by
      rw [advanceCuContext, stateT_get_bind, h.dbg, hup]
      dsimp only
      rw [stateT_bind_of_ok (require_of hsmall), stateT_bind_of_ok (require_of hsane)]
      exact ⟨_, rfl, rfl⟩
    have hnot : ¬(true = true ∧ true = true → r'.currentCuOffset = 11) := by
      rw [hcurrent]
      exact fun h11 => hdie (h11 ⟨rfl, rfl⟩)
    rw [advanceCuContextTo, stateT_bind_of_ok hadvance, stateT_get_bind,
      stateT_bind_of_error (require_of_not hnot)]
  · have hadvance : advanceCuContext r = .error .assertFailed := by
      rw [advanceCuContext, stateT_get_bind, h.dbg, hup]
      exact stateT_bind_of_error (require_of_not hsmall)
    rw [advanceCuContextTo, stateT_bind_of_error hadvance]

/-- Behind another unit, a unit with another header fails the check of its offset. -/
theorem InStep.advance_wide (h : InStep lib r) (hup : r.upcomingCus = u :: us)
    (hsize : u.headerSize ≠ 11) (hne : r.currentCuOffset ≠ 0) :
    advanceCuContext r = .error .assertFailed := by
  rcases h.place with ⟨hzero, -⟩ | ⟨pre, cu, -, -, -, hfirst, hseen⟩
  · exact absurd hzero hne
  have hunits := h.upcoming
  rw [hup, hseen] at hunits
  obtain ⟨hformat, hdie, -⟩ := hunits
  have hle := hformat.le_headerSize
  have hdie : u.die = cu.nextCuHeader + u.headerSize := hdie
  have hinsane : ¬cuOffsetIsSane (if r.currentCuOffset = 0 then some u.die else r.firstCuOffset)
      r.lastSeen.nextCuHeader u.die = true := by
    rw [if_neg hne, hfirst, hseen]
    intro hsane
    have hsane : u.die = 11 ∨ u.die = cu.nextCuHeader + 11 := of_decide_eq_true hsane
    omega
  rw [advanceCuContext, stateT_get_bind, h.dbg, hup]
  dsimp only
  rw [stateT_bind_of_ok (require_of fun hzero => absurd hzero hne),
    stateT_bind_of_error (require_of_not hinsane)]

/-- **The loop fails at the first unit with another header**, unless it stops before. -/
theorem InStep.advanceTo_wide (hl : IsUnitList 0 lib.cuHeaders) (h : InStep lib r)
    (hup : r.upcomingCus = pre ++ u :: rest) (hpre : ∀ v ∈ pre, v.headerSize = 11)
    (hoff : ∀ v ∈ lib.cuHeaders, v.die ≠ off) (hsize : u.headerSize ≠ 11)
    (hb : b = decide (r.currentCuOffset = 0)) (hn : pre.length < n) :
    advanceCuContextTo off n b r = .error .assertFailed := by
  induction pre generalizing r n b with
  | nil =>
    obtain ⟨n, rfl⟩ := Nat.exists_eq_succ_of_ne_zero (by omega : n ≠ 0)
    by_cases hzero : r.currentCuOffset = 0
    · rw [hb, decide_eq_true hzero]
      exact h.advanceTo_start hl hup hsize hzero
    · rw [advanceCuContextTo, stateT_bind_of_error (h.advance_wide hup hsize hzero)]
  | cons v pre ih =>
    obtain ⟨n, rfl⟩ := Nat.exists_eq_succ_of_ne_zero (by omega : n ≠ 0)
    rw [List.forall_mem_cons] at hpre
    have hmem := h.mem_of_upcoming (u := v) (by rw [hup]; exact List.mem_cons_self)
    have hzero : b = true → r.currentCuOffset = 0 := fun htrue =>
      of_decide_eq_true (hb.symm.trans htrue)
    obtain ⟨r', hr', hup', -, hcurrent, hrun⟩ := h.advanceTo_cons hl hup hpre.1 hzero off n
    have hpos : r'.currentCuOffset ≠ 0 := by
      have hle := hl.le_die hmem
      omega
    rw [hrun, if_pos (hoff v hmem)]
    exact ih hr' hup' hpre.2 (decide_eq_false hpos).symm (Nat.lt_of_succ_lt_succ hn)

/-- **`set_cu_context` is right in every state that calls lead to** just if every unit has a header
of 11 bytes. -/
theorem setsRight_iff (hl : IsUnitList 0 lib.cuHeaders) :
    (∀ r, Reachable lib r → ∀ off ≠ 0, SetsRight lib r off) ↔
      ∀ u ∈ lib.cuHeaders, u.headerSize = 11 := by
  constructor
  · intro hall
    by_contra hwide
    obtain ⟨pre, u, rest, hsplit, hsize, hpre⟩ : ∃ pre u rest,
        lib.cuHeaders = pre ++ u :: rest ∧ u.headerSize ≠ 11 ∧ ∀ v ∈ pre, ¬v.headerSize ≠ 11 :=
      exists_first_unit (by simpa only [not_forall, exists_prop] using hwide)
    -- No DIE lies within the first header.
    have hoff : ∀ v ∈ lib.cuHeaders, v.die ≠ 1 := by
      intro v hv
      have hle := hl.le_die hv
      omega
    have hn : pre.length < lib.cuHeaders.length + 1 := by
      rw [hsplit, List.length_append]
      omega
    let r₀ := Root.make (some lib) (fun _ => OrderedMap.empty) false
    have hloop : advanceCuContextTo 1 (lib.cuHeaders.length + 1) true r₀ = .error .assertFailed :=
      (inStep_make hl _ _).advanceTo_wide hl hsplit (fun v hv => not_not.1 (hpre v hv)) hoff hsize
        rfl hn
    have hsubsequent : setSubsequentCuContext 1 r₀ = .error .assertFailed := by
      rw [setSubsequentCuContext, stateT_get_bind,
        if_neg (show r₀.currentCuOffset ≠ 1 from Nat.zero_ne_one)]
      exact stateT_bind_of_error hloop
    have hfail : setCuContext 1 r₀ = .error .assertFailed := stateT_bind_of_error hsubsequent
    obtain ⟨b, r', hrun, -⟩ := hall r₀ (.make _ _) 1 (by decide)
    rw [hfail] at hrun
    cases hrun
  · intro h11 r hr off hoff
    have hinStep := hr.inStep hl h11
    obtain ⟨b, r', hrun, hr', hfound, hnot⟩ := hinStep.set hl h11 off
    have hunit : b = true → r'.currentCuOffset = off ∧
        ∃ u ∈ lib.cuHeaders, u.die = off ∧ r'.lastSeen = LastSeen.ofUnit u := by
      intro hb
      have hcurrent := hfound hb
      obtain ⟨u, hu, hdie, hseen⟩ := hr'.unit (by rwa [hcurrent])
      exact ⟨hcurrent, u, hu, hdie.trans hcurrent, hseen⟩
    refine ⟨b, r', hrun, ⟨fun hb => ?_, fun hex => ?_⟩, hunit⟩
    · obtain ⟨-, u, hu, hdie, -⟩ := hunit hb
      exact ⟨u, hu, hdie⟩
    · obtain ⟨u, hu, hdie⟩ := hex
      cases b with
      | true => rfl
      | false => exact absurd hdie (hnot rfl u hu)

end Calls

section Examples

/-- A file of units without children. -/
def unitsOnly (l : List CompileUnit) : Libdwarf where
  child _ := none
  siblingof _ := none
  offdie off := l.any fun u => u.die = off
  tag _ := dwTagCompileUnit
  cuDieoffset off := off
  cuHeaders := l

/-- Two units of 32-bit DWARF. -/
def twoUnits : Libdwarf :=
  unitsOnly [⟨96, 4, 0, 8, 4, 0, 100, 11⟩, ⟨46, 4, 50, 8, 4, 0, 150, 111⟩]

theorem setsRight_twoUnits :
    SetsRight twoUnits (.make (some twoUnits) (fun _ => OrderedMap.empty) false) 111 :=
  (setsRight_iff (by simp [twoUnits, unitsOnly, IsUnitList, CompileUnit.HasFormat,
    CompileUnit.headerSize])).2 (by decide) _ (.make _ _) 111 (by decide)

/-- A unit of 64-bit DWARF. -/
def wideUnit : Libdwarf := unitsOnly [.version4 8 23 100]

/-- Its context cannot be set. -/
theorem not_setsRight_wideUnit :
    ¬∀ lib, IsUnitList 0 lib.cuHeaders → ∀ r, Reachable lib r → ∀ off ≠ 0, SetsRight lib r off := by
  intro hall
  have hl : IsUnitList 0 wideUnit.cuHeaders := by
    simp [wideUnit, unitsOnly, CompileUnit.version4, IsUnitList, CompileUnit.HasFormat,
      CompileUnit.headerSize]
  let r₀ := Root.make (some wideUnit) (fun _ => OrderedMap.empty) false
  have hfail : setCuContext 23 r₀ = .error .assertFailed := rfl
  obtain ⟨b, r', hrun, -⟩ := hall wideUnit hl r₀ (.make _ _) 23 (by decide)
  rw [hfail] at hrun
  cases hrun

end Examples

end Dies
end Dwarfpp
