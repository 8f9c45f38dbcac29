/-
# Names of DIEs

The name of a DIE, and the name that it shows outside of its unit (`global_name_here`).  A
root remembers the visible names of the DIEs below its units in a multimap; a DIE in
memory enters itself there when it gets its name (`update_cache_on_insert` of
`src/abstract.cpp`).
-/

import Dwarfpp.Dies.DepthFirst

namespace Dwarfpp
namespace Dies

open Lib
open Lib.Preorder hiding firstChild nextSibling

/-- `DW_AT_visibility`. -/
def dwAtVisibility : ℕ := 0x17

/-- `DW_VIS_local`. -/
def dwVisLocal : ℕ := 1

/-- `name_here()`. -/
def nameOf (attrs : ℕ → AttributeMap) (off : ℕ) : Option String :=
  match (attrs off).find dwAtName with
  | some (.string s) => some s
  | _ => none

/-- `global_name_here()`.  The visibility must be a constant. -/
def globalNameHere (off : ℕ) : RootM (Option String) := do
  let r ← get
  match nameOf r.tables.attrs off with
  | none => return none
  | some name =>
    match (r.tables.attrs off).find dwAtVisibility with
    | none => return some name
    | some (.other visibility) => return if visibility = dwVisLocal then none else some name
    | some _ => throw .assertFailed

/-- The tables are no part of what the root knows of its tree. -/
theorem Consistent.withTables {t : List Node} {r : Root} (h : Consistent t r) (tables : Tables) :
    Consistent t { r with tables := tables } where
  __ := h
  context := h.context

/-- `pos`, unless it is told that the depth is 0. -/
theorem pos_eq_ite {r : Root} {off : ℕ} {optDepth parentOff : Option ℕ} (hdepth : optDepth ≠ some 0)
    (referencer : Option (ℕ ×ₗ ℕ)) :
    pos off optDepth parentOff referencer r =
      (if (r.liveDies off).isSome = true then return ⟨off, none, true⟩
      else if (r.dbg.any fun lib => lib.offdie off) = true then do
        let base ← ofDie off optDepth
        modify fun r => { r with parentOf := r.posParent off optDepth parentOff }
        recordReference referencer off
        return base
      else throw .noEntry : RootM Iterator) r := by
  change (if optDepth = some 0 then (_ : RootM Iterator)
    else if (r.liveDies off).isSome = true then return ⟨off, none, true⟩ else _) r = _
  rw [if_neg hdepth]

/-- Entering a DIE among the visible ones. -/
def Root.enterVisible (r : Root) (name : String) (off : ℕ) : Root :=
  { r with tables := { r.tables with
    visibleNamedGrandchildrenCache := r.tables.visibleNamedGrandchildrenCache ++ [(name, off)] } }

/-- Entering a DIE under a name, if there is one. -/
def enterUnder (name : Option String) (off : ℕ) : RootM Unit :=
  match name with
  | none => return ()
  | some name => modify fun r => r.enterVisible name off

section Model

variable (fuel : ℕ)

/-- `update_cache_on_insert`. -/
def updateCacheOnInsert (off attr : ℕ) : RootM Unit :=
  if attr = dwAtName then do
    let found ← pos off none none none
    let found ← withDepth fuel found
    if found.depth = some 2 then
      let name ← globalNameHere off
      enterUnder name off
    else return ()
  else return ()

/-- `attribute_map::insert` of a DIE in memory.  An attribute that is there is left. -/
def insertAttribute (off attr : ℕ) (value : AttributeValue ℕ ℕ) : RootM Unit := do
  let r ← get
  require (r.isInMemory off = true)
  if ((r.tables.attrs off).find attr).isSome then return ()
  else
    set { r with tables := { r.tables with
      attrs := Function.update r.tables.attrs off ((r.tables.attrs off).insert attr value) } }
    updateCacheOnInsert fuel off attr

end Model

end Dies
end Dwarfpp
