/-
# Addresses of stack and member locations

`calculate_addr_on_stack` and `calculate_addr_in_object` of `src/dies.cpp`.  Both pass
addresses on that are relative to different bases.  The first rewrites a location list,
whose intervals are relative to the compile unit, with the rows of FDEs, whose addresses
are those of the file.  The second leaves the address out of "it needs to be CU-relative"
and looks up minus the base of the unit.

So what they return depends on where the unit is linked, except where the rewriting
makes no difference at the address, and where minus the base is checked and looked up
alike (`calculateAddr_shift`).
-/

import Mathlib
import Dwarfpp.Frame.RewriteAlike

namespace Dwarfpp
namespace Dies

open Lib Dwarfpp.Expr Dwarfpp.Frame

/-- A `with_dynamic_location_die`: the `DW_AT_low_pc` of its compile unit and the location
attributes it has. -/
structure WithDynamicLocationDie where
  cuLowPc : Option (BitVec 64)
  location : Option (List LocExpr)
  dataMemberLocation : Option (List LocExpr)

namespace WithDynamicLocationDie

variable (d : WithDynamicLocationDie)

/-- `dieset_relative_cu_base_ip`. -/
def cuBase : BitVec 64 := d.cuLowPc.getD 0

/-- An attribute that is asserted to be there. -/
def getLoclist : Option (List LocExpr) → Except Fault (List LocExpr)
  | some l => .ok l
  | none => .error .assertFailed

/-- `calculate_addr_on_stack`. -/
def calculateAddrOnStack (table : FdeTable) (dijkstra : RegisterGraph → ℤ → ℤ → Option ℤ)
    (fuel : ℕ) (frameBaseAddr dieSetRelativeIp : BitVec 64) (regs : Option (ℤ → BitVec 64)) :
    Except Fault (BitVec 64) := do
  let loclist ← getLoclist d.location
  if dieSetRelativeIp < d.cuBase then throw .noEntry
  else
    assert (loclist ≠ [])
    let rewritten ← rewriteLoclistInTermsOfCfa table dijkstra fuel loclist
    let evaluator ← loclistEvaluator ⟨regs, some frameBaseAddr⟩ rewritten
      (dieSetRelativeIp - d.cuBase) []
    evaluator.tos

/-- The address that `calculate_addr_in_object` looks up. -/
def inObjectVaddr (dieSetRelativeIp : BitVec 64) : BitVec 64 :=
  if dieSetRelativeIp = 0 then 0 else -d.cuBase

/-- `calculate_addr_in_object`. -/
def calculateAddrInObject (objectBaseAddr dieSetRelativeIp : BitVec 64)
    (regs : Option (ℤ → BitVec 64)) : Except Fault (BitVec 64) := do
  let loclist ← getLoclist d.dataMemberLocation
  let evaluator ← loclistEvaluator ⟨regs, some objectBaseAddr⟩ loclist
    (d.inObjectVaddr dieSetRelativeIp) [0]
  evaluator.tos

/-- The unit linked further on by `δ`.  Location lists are relative to it. -/
def shift (δ : BitVec 64) : WithDynamicLocationDie := { d with cuLowPc := d.cuLowPc.map (· + δ) }

end WithDynamicLocationDie

/-- Two addresses are checked and looked up alike in a list. -/
def LookedUpAlike (l : List LocExpr) (vaddr vaddr' : BitVec 64) : Prop :=
  (SaneVaddr vaddr ↔ SaneVaddr vaddr') ∧
    (SaneVaddr vaddr → selectLocExpr vaddr 0 l = selectLocExpr vaddr' 0 l)

instance (l : List LocExpr) (vaddr vaddr' : BitVec 64) : Decidable (LookedUpAlike l vaddr vaddr') :=
  inferInstanceAs (Decidable (_ ∧ _))

section Shift

variable {table : FdeTable} {dijkstra : RegisterGraph → ℤ → ℤ → Option ℤ} {fuel : ℕ}
  {ctx : EvalContext} {l l' : List LocExpr} {vaddr vaddr' δ low ip : BitVec 64}
  {initialStack : List (BitVec 64)} {d : WithDynamicLocationDie}

@[simp] theorem WithDynamicLocationDie.shift_location : (d.shift δ).location = d.location := rfl

@[simp] theorem WithDynamicLocationDie.shift_dataMemberLocation :
    (d.shift δ).dataMemberLocation = d.dataMemberLocation := rfl

theorem cuBase_shift (δ : BitVec 64) (hlow : d.cuLowPc = some low) :
    d.cuBase = low ∧ (d.shift δ).cuBase = low + δ := by
  rw [WithDynamicLocationDie.cuBase, WithDynamicLocationDie.cuBase, WithDynamicLocationDie.shift,
    hlow]
  exact ⟨rfl, rfl⟩

/-- **Where the addresses do not depend on the place of the unit.**  On the stack: no entry of the
list uses a register, or the rules that win at the address are the same.  In an object: minus the
base of the unit is checked and looked up alike. -/
theorem calculateAddr_shift
    (hpaths : ∀ g, ShortestPaths g table.fs.cfaColumn (dijkstra g table.fs.cfaColumn))
    (hlow : d.cuLowPc = some low) (hip : low ≤ ip) (hfits : ip.toNat + δ.toNat < 2 ^ 64)
    (base : BitVec 64) (regs : Option (ℤ → BitVec 64)) :
    (∀ l, d.location = some l → ((∀ e ∈ l, ¬UsesBreg e) ∨
        RewrittenAlike table (table.shift δ) dijkstra fuel l (ip - low)) →
      (d.shift δ).calculateAddrOnStack (table.shift δ) dijkstra fuel base (ip + δ) regs =
        d.calculateAddrOnStack table dijkstra fuel base ip regs) ∧
    (∀ l, d.dataMemberLocation = some l →
        LookedUpAlike l (d.inObjectVaddr ip) ((d.shift δ).inObjectVaddr (ip + δ)) →
      (d.shift δ).calculateAddrInObject base (ip + δ) regs =
        d.calculateAddrInObject base ip regs) := by
  obtain ⟨hbase, hbase'⟩ := cuBase_shift δ hlow
  constructor
  · intro l hl hcond
    have hbefore : ip + δ < low + δ ↔ ip < low := by
      rw [BitVec.le_def] at hip
      rw [BitVec.lt_def, BitVec.lt_def, BitVec.toNat_add, BitVec.toNat_add]
      omega
    have hsub : ip + δ - (low + δ) = ip - low := add_sub_add_right_eq_sub ip low δ
    rw [WithDynamicLocationDie.calculateAddrOnStack, WithDynamicLocationDie.calculateAddrOnStack,
      WithDynamicLocationDie.shift_location, hl, hbase, hbase', hsub]
    simp only [hbefore]
    rw [WithDynamicLocationDie.getLoclist, ok_bind, ok_bind]
    split_ifs with hless
    · rfl
    · rcases hcond with hno | halike
      · rw [rewriteLoclist_of_not_usesBreg hno, rewriteLoclist_of_not_usesBreg hno]
      · obtain ⟨l₁, l₂, h₁, h₂, hselected⟩ := halike.selected (table.shift_fs δ) hpaths
        rw [h₁, h₂, ok_bind, ok_bind, loclistEvaluator_congr .rfl fun _ => hselected]
  · rintro l hl ⟨hcheck, hselect⟩
    rw [WithDynamicLocationDie.calculateAddrInObject, WithDynamicLocationDie.calculateAddrInObject,
      WithDynamicLocationDie.shift_dataMemberLocation, hl, WithDynamicLocationDie.getLoclist,
      ok_bind, ok_bind]
    rw [loclistEvaluator_congr hcheck fun hsane => congrArg _ (hselect hsane)]

end Shift

/-! ### Variables and a member -/

/-- A local variable below the frame base, and a member 8 bytes into its object, in a unit that is
linked at `0x1000`. -/
def frameVariable : WithDynamicLocationDie where
  cuLowPc := some 0x1000
  location := some [{ instrs := [DwOp.fbreg.instr (-16)], lopc := 0, hipc := 0x1000 }]
  dataMemberLocation :=
    some [{ instrs := [(DwOp.plusUconst).instr 8], lopc := 0, hipc := BitVec.allOnes 64 }]

/-- The word that the stack pointer points to at the end of the function. -/
def lastStackTop : LocExpr := { stackTop with lopc := 0x1008 }

/-- A variable there, in a unit that is linked at zero. -/
def registerVariable : WithDynamicLocationDie where
  cuLowPc := some 0
  location := some [lastStackTop]
  dataMemberLocation := none

/-- The rules of the last row of the function. -/
def lastRules : List (ℤ × RegisterDef) :=
  [(16, (default : RegisterDef).savedAtOffsetFromCfaW (-8)),
    (1436, (default : RegisterDef).registerPlusOffsetW (7, 8))]

theorem visitedRows_lastStackTop :
    visitedRows exampleTable 7 lastStackTop = .ok [⟨0x1005, 0x1011, lastRules⟩] ∧
      visitedRows (exampleTable.shift 2) 7 lastStackTop = .ok [⟨0x1007, 0x1013, lastRules⟩] :=
  ⟨toOption_eq_some.1 (by decide +kernel), toOption_eq_some.1 (by decide +kernel)⟩

/-- That row wins, also where the function is two bytes further on. -/
theorem rewrittenAlike_lastStackTop :
    RewrittenAlike exampleTable (exampleTable.shift 2) RegisterGraph.predecessor 7 [lastStackTop]
      0x1009 := by
  obtain ⟨hrows, hrows'⟩ := visitedRows_lastStackTop
  have hreturns : ∀ table : FdeTable, (rewriteLoclistInTermsOfCfa table RegisterGraph.predecessor 7
      [lastStackTop]).toOption.isSome = true →
        ∃ l, rewriteLoclistInTermsOfCfa table RegisterGraph.predecessor 7 [lastStackTop] = .ok l := by
    intro table h
    obtain ⟨l, hl⟩ := Option.isSome_iff_exists.1 h
    exact ⟨l, toOption_eq_some.1 hl⟩
  have hplain : ∀ (table : FdeTable) (row : RowSegment),
      visitedRows table 7 lastStackTop = .ok [row] → row.lower ≠ 0xffffffff →
        Plain table 7 [lastStackTop] := by
    intro table row hrow hlower e he
    obtain rfl := List.mem_singleton.1 he
    refine ⟨by decide, fun rows _ hrows r hr => ?_⟩
    obtain rfl := Except.ok.inj (hrow.symm.trans hrows)
    rwa [List.mem_singleton.1 hr]
  exact
    { returns := hreturns _ (by decide +kernel)
      returns' := hreturns _ (by decide +kernel)
      nonempty := by decide
      disjoint := List.pairwise_singleton _ _
      plain := hplain _ _ hrows (by decide)
      plain' := hplain _ _ hrows' (by decide)
      below := by decide
      winner := by
        intro e he _ _ rows rows' h h' values
        obtain rfl := List.mem_singleton.1 he
        obtain rfl := Except.ok.inj (hrows.symm.trans h)
        obtain rfl := Except.ok.inj (hrows'.symm.trans h')
        simp only [wins_singleton, and_assoc, exists_eq_left]
        exact and_congr (by decide) (and_congr (by decide) Iff.rfl) }

/-- The variables stay where they are, and the member's address fails the check in both places. -/
theorem frameVariable_shift :
    (frameVariable.shift 0x100).calculateAddrOnStack (exampleTable.shift 0x100)
        RegisterGraph.predecessor 7 0x7fff0000 (0x1004 + 0x100) none =
      frameVariable.calculateAddrOnStack exampleTable RegisterGraph.predecessor 7 0x7fff0000 0x1004
        none ∧
    (frameVariable.shift 0x100).calculateAddrInObject 0x7fff0000 (0x1004 + 0x100) none =
      frameVariable.calculateAddrInObject 0x7fff0000 0x1004 none ∧
    (registerVariable.shift 2).calculateAddrOnStack (exampleTable.shift 2)
        RegisterGraph.predecessor 7 0x7fff0000 (0x1009 + 2) none =
      registerVariable.calculateAddrOnStack exampleTable RegisterGraph.predecessor 7 0x7fff0000
        0x1009 none := by
  obtain ⟨hstack, hobject⟩ := @calculateAddr_shift exampleTable RegisterGraph.predecessor 7
    0x100 0x1000 0x1004 frameVariable (fun g => shortestPaths_predecessor g _) rfl (by decide)
    (by decide) 0x7fff0000 none
  obtain ⟨hregister, -⟩ := @calculateAddr_shift exampleTable RegisterGraph.predecessor 7 2 0 0x1009
    registerVariable (fun g => shortestPaths_predecessor g _) rfl (by decide) (by decide) 0x7fff0000
    none
  exact ⟨hstack _ rfl (.inl (by decide)), hobject _ rfl (by decide),
    hregister _ rfl (.inr rewrittenAlike_lastStackTop)⟩

/-- The addresses that a DIE has on the stack and in objects do not depend on where its unit is
linked. -/
def IndependentOfBase (table : FdeTable) (dijkstra : RegisterGraph → ℤ → ℤ → Option ℤ) (fuel : ℕ)
    (d : WithDynamicLocationDie) : Prop :=
  ∀ δ low ip : BitVec 64, d.cuLowPc = some low → low ≤ ip → ip.toNat + δ.toNat < 2 ^ 64 →
    (∀ fde ∈ table.fdes, fde.lowPc.toNat + fde.funcLength.toNat + δ.toNat < 2 ^ 64) →
      ∀ base regs,
        (d.shift δ).calculateAddrOnStack (table.shift δ) dijkstra fuel base (ip + δ) regs =
            d.calculateAddrOnStack table dijkstra fuel base ip regs ∧
          (d.shift δ).calculateAddrInObject base (ip + δ) regs =
            d.calculateAddrInObject base ip regs

/-- What the stack pointer points to, in a unit that is linked at zero. -/
def stackVariable : WithDynamicLocationDie where
  cuLowPc := some 0
  location := some [stackTop]
  dataMemberLocation := none

/-- The member, in that unit. -/
def zeroBasedMember : WithDynamicLocationDie := { frameVariable with cuLowPc := some 0 }

/-- **Linked `0x100` further on, neither is found.** -/
theorem not_independentOfBase :
    ¬IndependentOfBase exampleTable RegisterGraph.predecessor 7 stackVariable ∧
      ¬IndependentOfBase exampleTable RegisterGraph.predecessor 7 zeroBasedMember := by
  have hfdes : ∀ fde ∈ exampleTable.fdes,
      fde.lowPc.toNat + fde.funcLength.toNat + (0x100 : BitVec 64).toNat < 2 ^ 64 := by
    intro fde hfde
    obtain rfl := List.mem_singleton.1 hfde
    decide
  constructor
  · intro h
    obtain ⟨hstack, -⟩ := h 0x100 0 0x1000 rfl (by decide) (by decide) hfdes 0x7fff0000 none
    have hhere : stackVariable.calculateAddrOnStack exampleTable RegisterGraph.predecessor 7
        0x7fff0000 0x1000 none = .ok 0x7ffefff8 := by
      decide +kernel
    have hthere : (stackVariable.shift 0x100).calculateAddrOnStack (exampleTable.shift 0x100)
        RegisterGraph.predecessor 7 0x7fff0000 (0x1000 + 0x100) none = .error .noEntry := by
      decide +kernel
    exact nomatch hthere.symm.trans (hstack.trans hhere)
  · intro h
    obtain ⟨-, hobject⟩ := h 0x100 0 0x1000 rfl (by decide) (by decide) hfdes 0x7fff0000 none
    have hhere : zeroBasedMember.calculateAddrInObject 0x7fff0000 0x1000 none = .ok 8 := by
      decide +kernel
    have hthere : (zeroBasedMember.shift 0x100).calculateAddrInObject 0x7fff0000 (0x1000 + 0x100)
        none = .error .assertFailed := by
      decide +kernel
    exact nomatch hthere.symm.trans (hobject.trans hhere)

end Dies
end Dwarfpp
