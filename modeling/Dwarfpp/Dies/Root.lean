/-
# The root of a DIE tree

`root_die` of `src/root.cpp` and `include/dwarfpp/root-inl.hpp`.  The DIEs of a file
are libdwarf's to tell; a root adds DIEs of its own, which it holds in memory.
It remembers the edges of the tree it has seen in `parent_of`, `first_child_of` and
`next_sibling_of`, and knows a DIE that is live, one with a payload, by its offset.

An iterator is the offset it is at, the depth if it has been told, and whether
it has the payload or a handle of libdwarf's.  The root position is offset 0,
where no DIE lies; the end position is `none`.  Depths are 16-bit numbers.
-/

import Mathlib
import Dwarfpp.Basic
import Dwarfpp.Dies.Attributes

namespace Dwarfpp
namespace Dies

open Lib

/-- A compile unit: what `dwarf_next_cu_header_b` tells of it, and the offset of its DIE. -/
structure CompileUnit where
  cuHeaderLength : ℕ
  versionStamp : ℕ
  abbrevOffset : ℕ
  addressSize : ℕ
  offsetSize : ℕ
  extensionSize : ℕ
  nextCuHeader : ℕ
  die : ℕ
  deriving DecidableEq, Repr

/-- A unit of version 4 whose DIE is at `die`, up to the next header at `next`. -/
def CompileUnit.version4 (offsetSize die next : ℕ) : CompileUnit where
  cuHeaderLength := 2 + offsetSize + 1 + (next - die)
  versionStamp := 4
  abbrevOffset := 0
  addressSize := 8
  offsetSize := offsetSize
  extensionSize := if offsetSize = 8 then 4 else 0
  nextCuHeader := next
  die := die

/-- The fields `last_seen_*`. -/
structure LastSeen where
  cuHeaderLength : Option ℕ
  versionStamp : Option ℕ
  abbrevOffset : Option ℕ
  addressSize : Option ℕ
  offsetSize : Option ℕ
  extensionSize : Option ℕ
  nextCuHeader : Option ℕ
  deriving DecidableEq, Repr

namespace LastSeen

/-- None of them is set. -/
def unset : LastSeen := ⟨none, none, none, none, none, none, none⟩

/-- They describe the unit. -/
def ofUnit (cu : CompileUnit) : LastSeen where
  cuHeaderLength := some cu.cuHeaderLength
  versionStamp := some cu.versionStamp
  abbrevOffset := some cu.abbrevOffset
  addressSize := some cu.addressSize
  offsetSize := some cu.offsetSize
  extensionSize := some cu.extensionSize
  nextCuHeader := some cu.nextCuHeader

end LastSeen

/-- What libdwarf answers about the DIEs of a file: `dwarf_child`, `dwarf_siblingof`, whether
`dwarf_offdie` succeeds, `dwarf_tag`, `dwarf_CU_dieoffset_given_die`, and the headers. -/
structure Libdwarf where
  child : ℕ → Option ℕ
  siblingof : ℕ → Option ℕ
  offdie : ℕ → Bool
  tag : ℕ → ℕ
  cuDieoffset : ℕ → ℕ
  cuHeaders : List CompileUnit

/-- A live DIE: the payload of one of the file's, or an `in_memory_abstract_die`. -/
inductive LiveDie
  | ofFile
  | inMemory (cuOffset tag : ℕ)
  deriving DecidableEq, Repr

/-- The attributes of a DIE.  A constant is `other`. -/
abbrev AttributeMap := OrderedMap ℕ (AttributeValue ℕ ℕ)

/-- What a root holds besides the shape of the tree. -/
structure Tables where
  attrs : ℕ → AttributeMap
  refersTo : OrderedMap (ℕ ×ₗ ℕ) ℕ
  referredFrom : List (ℕ × (ℕ ×ₗ ℕ))
  refersToCacheIsComplete : Bool
  visibleNamedGrandchildrenCache : List (String × ℕ)
  visibleNamedGrandchildrenIsComplete : Bool

/-- A `root_die`.  Of libdwarf, `upcomingCus` is what it has still to tell of, and `cuContext` the
unit it stands at. -/
structure Root where
  dbg : Option Libdwarf
  upcomingCus : List CompileUnit
  cuContext : Option CompileUnit
  currentCuOffset : ℕ
  firstCuOffset : Option ℕ
  lastSeen : LastSeen
  liveDies : ℕ → Option LiveDie
  parentOf : ℕ → Option ℕ
  firstChildOf : ℕ → Option ℕ
  nextSiblingOf : ℕ → Option ℕ
  tables : Tables

/-- An iterator that is not at the end. -/
structure Iterator where
  offset : ℕ
  depth : Option ℕ
  payload : Bool
  deriving DecidableEq, Repr

/-- Computations of a root. -/
abbrev RootM := StateT Root (Except Fault)

/-- `assert(p)`. -/
def require (p : Prop) [Decidable p] : RootM Unit := fun r =>
  if p then .ok ((), r) else .error .assertFailed

/-- `DW_TAG_compile_unit`. -/
def dwTagCompileUnit : ℕ := 0x11

/-- The conversion to `unsigned short`. -/
def toUShort (n : ℕ) : ℕ := n % 2 ^ 16

/-- `begin()`. -/
def Root.begin : Iterator := ⟨0, some 0, false⟩

/-- Whether the DIE is an `in_memory_abstract_die`. -/
def Root.isInMemory (r : Root) (off : ℕ) : Bool :=
  match r.liveDies off with
  | some (.inMemory _ _) => true
  | _ => false

/-- `tag_here()`. -/
def Root.tagHere (r : Root) (off : ℕ) : ℕ :=
  if off = 0 then 0
  else
    match r.liveDies off, r.dbg with
    | some (.inMemory _ tag), _ => tag
    | _, some lib => lib.tag off
    | _, none => 0

/-- A root as it is made.  The constructor that opens no file leaves
`refers_to_cache_is_complete` unset, hence `complete`. -/
def Root.make (dbg : Option Libdwarf) (attrs : ℕ → AttributeMap) (complete : Bool) : Root where
  dbg := dbg
  upcomingCus := (dbg.map Libdwarf.cuHeaders).getD []
  cuContext := none
  currentCuOffset := 0
  firstCuOffset := none
  lastSeen := LastSeen.unset
  liveDies := fun _ => none
  parentOf := fun _ => none
  firstChildOf := fun _ => none
  nextSiblingOf := fun _ => none
  tables :=
    { attrs := attrs, refersTo := OrderedMap.empty, referredFrom := []
      refersToCacheIsComplete := complete
      visibleNamedGrandchildrenCache := [], visibleNamedGrandchildrenIsComplete := false }

section CuContext

/-- What `advance_cu_context` checks of the offset of a CU's DIE against what it saw before. -/
def cuOffsetIsSane (firstCuOffset prevNextCuHeader : Option ℕ) (die : ℕ) : Bool :=
  match prevNextCuHeader, firstCuOffset with
  | none, _ => true
  | some _, none => false
  | some next, some first => die = first ∨ die = next + first

/-- `advance_cu_context`. -/
def advanceCuContext : RootM Bool := do
  let r ← get
  match r.dbg, r.upcomingCus with
  | none, _ => return false
  | some lib, [] =>
    set { r with
      upcomingCus := lib.cuHeaders, cuContext := none, currentCuOffset := 0
      lastSeen := LastSeen.unset }
    return false
  | some _, cu :: cus =>
    let firstCuOffset := if r.currentCuOffset = 0 then some cu.die else r.firstCuOffset
    require (r.currentCuOffset = 0 → 0 < cu.die ∧ cu.die < 32)
    require (cuOffsetIsSane firstCuOffset r.lastSeen.nextCuHeader cu.die = true)
    set { r with
      upcomingCus := cus, cuContext := some cu, currentCuOffset := cu.die
      firstCuOffset := firstCuOffset, lastSeen := LastSeen.ofUnit cu
      parentOf := Function.update r.parentOf cu.die (some 0) }
    return true

/-- `while (advance_cu_context());` -/
def advanceToLast : ℕ → RootM Unit
  | 0 => throw .outOfSteps
  | n + 1 => do
    if ← advanceCuContext then advanceToLast n
    else return ()

/-- `clear_cu_context`. -/
def clearCuContext : RootM Bool := do
  let r ← get
  if r.currentCuOffset = 0 then return true
  else
    advanceToLast (r.upcomingCus.length + 1)
    return true

/-- The loop of `set_subsequent_cu_context`. -/
def advanceCuContextTo (off : ℕ) : ℕ → Bool → RootM Bool
  | 0, _ => throw .outOfSteps
  | n + 1, haveNoContext => do
    let ret ← advanceCuContext
    let r ← get
    require (ret = true ∧ haveNoContext = true → r.currentCuOffset = 11)
    if r.currentCuOffset ≠ 0 ∧ r.currentCuOffset ≠ off ∧ ret = true then
      advanceCuContextTo off n false
    else return ret

/-- `set_subsequent_cu_context`. -/
def setSubsequentCuContext (off : ℕ) : RootM Bool := do
  let r ← get
  if r.currentCuOffset = off then return true
  else
    let ret ← advanceCuContextTo off (r.upcomingCus.length + 1) (r.currentCuOffset = 0)
    let r ← get
    -- the "sanity check" asks libdwarf for the DIE of its unit
    require (ret = true → r.cuContext.map CompileUnit.die = some off)
    return ret

/-- `set_cu_context`. -/
def setCuContext (off : ℕ) : RootM Bool := do
  if ← setSubsequentCuContext off then return true
  else
    let _ ← clearCuContext
    setSubsequentCuContext off

end CuContext

section Moves

/-- The constructor of an iterator from the DIE at `off`.  It has the payload where the DIE is live,
and a CU is made live. -/
def ofDie (off : ℕ) (depth : Option ℕ) : RootM Iterator := do
  let r ← get
  if (r.liveDies off).isSome then return ⟨off, depth, true⟩
  else if r.tagHere off = dwTagCompileUnit then
    let ret ← setCuContext off
    require (ret = true)
    modify fun r => { r with liveDies := Function.update r.liveDies off (some .ofFile) }
    return ⟨off, depth, true⟩
  else return ⟨off, depth, false⟩

/-- The target of a cached edge, if it is live. -/
def Root.liveTarget (r : Root) (edges : ℕ → Option ℕ) (off : ℕ) : Option ℕ :=
  (edges off).filter fun target => (r.liveDies target).isSome

/-- The first CU of the file. -/
def firstCu : RootM (Option ℕ) := do
  let _ ← clearCuContext
  if ← advanceCuContext then
    modify fun r => { r with firstChildOf := Function.update r.firstChildOf 0 (some r.currentCuOffset) }
    let r ← get
    return r.cuContext.map CompileUnit.die
  else return none

/-- The handle of the first child, if libdwarf has one. -/
def childHandle (off : ℕ) : RootM (Option ℕ) := do
  let r ← get
  if off = 0 then firstCu
  else if r.isInMemory off then return none
  else return r.dbg.bind fun lib => lib.child off

/-- `first_child`. -/
def firstChild (it : Iterator) : RootM (Option Iterator) := do
  let r ← get
  let depth := it.depth.map fun d => toUShort (d + 1)
  match r.liveTarget r.firstChildOf it.offset with
  | some child => return some (← ofDie child depth)
  | none =>
    match ← childHandle it.offset with
    | none => return none
    | some child =>
      let newIt ← ofDie child depth
      modify fun r => { r with
        parentOf := Function.update r.parentOf child (some it.offset)
        firstChildOf := Function.update r.firstChildOf it.offset (some child) }
      return some newIt

/-- The CU after the one at `off` in the file. -/
def nextCu (off : ℕ) : RootM (Option ℕ) := do
  if ← setCuContext off then
    if ← advanceCuContext then
      modify fun r =>
        { r with nextSiblingOf := Function.update r.nextSiblingOf off (some r.currentCuOffset) }
      let r ← get
      return r.cuContext.map CompileUnit.die
    else return none
  else return none

/-- The handle of the next sibling, if libdwarf has one. -/
def siblingHandle (off : ℕ) : RootM (Option ℕ) := do
  let r ← get
  if r.tagHere off = dwTagCompileUnit then nextCu off
  else if r.isInMemory off then return none
  else return r.dbg.bind fun lib => lib.siblingof off

variable (withDepth : Iterator → RootM Iterator)

/-- `next_sibling`.  `withDepth` is how the depth of an iterator is found out. -/
def nextSibling (it : Iterator) : RootM (Option Iterator) := do
  let r ← get
  if it.offset = 0 then return none
  else
    match r.liveTarget r.nextSiblingOf it.offset, r.parentOf it.offset with
    | some sibling, _ =>
      let it ← withDepth it
      return some (← ofDie sibling it.depth)
    | none, none => throw .assertFailed
    | none, some commonParent =>
      match ← siblingHandle it.offset with
      | none => return none
      | some sibling =>
        let it ← withDepth it
        let newIt ← ofDie sibling it.depth
        modify fun r => { r with parentOf := Function.update r.parentOf sibling (some commonParent) }
        let r' ← get
        require (r.nextSiblingOf it.offset = none ∨ r'.nextSiblingOf it.offset = some sibling)
        modify fun r =>
          { r with nextSiblingOf := Function.update r.nextSiblingOf it.offset (some sibling) }
        return some newIt

/-- `move_to_next_sibling`; `none` where it does not move. -/
def moveToNextSibling (it : Iterator) : RootM (Option Iterator) := do
  let it ← withDepth it
  match ← nextSibling withDepth it with
  | some sibling =>
    require (sibling.depth = it.depth)
    return some sibling
  | none => return none

end Moves

section BreadthFirst

/-- The depth of an iterator of the breadth-first search, which begins at the root and so is told
all depths. -/
def knownDepth (it : Iterator) : RootM Iterator :=
  match it.depth with
  | some _ => return it
  | none => throw .assertFailed

/-- Taking the position from the queue. -/
def popFront : List Iterator → Option Iterator × List Iterator
  | [] => (none, [])
  | it :: queue => (some it, queue)

/-- `iterator_bf::increment_skipping_subtree`: the new position and the new queue. -/
def bfIncrementSkippingSubtree (it : Iterator) (queue : List Iterator) :
    RootM (Option Iterator × List Iterator) := do
  match ← moveToNextSibling knownDepth it with
  | some sibling => return (some sibling, queue)
  | none => return popFront queue

/-- `iterator_bf::increment`. -/
def bfIncrement (it : Iterator) (queue : List Iterator) :
    RootM (Option Iterator × List Iterator) := do
  let child ← firstChild it
  bfIncrementSkippingSubtree it (queue ++ child.toList)

/-- Where `find_downwards` goes on: the increment that it tries, on a copy, tells whether the target
is in the subtree passed over. -/
def searchStep (off : ℕ) (it : Iterator) (queue : List Iterator) :
    RootM (Option Iterator × List Iterator) := do
  let next ← bfIncrement it queue
  match next.1.filter fun n => n.depth = it.depth with
  | some nextPos =>
    require (it.offset < nextPos.offset)
    if off < nextPos.offset ∧ it.offset < off then bfIncrement it []
    else bfIncrementSkippingSubtree it queue
  | none => bfIncrement it queue

/-- The loop of `find_downwards`. -/
def search (off : ℕ) : ℕ → Option Iterator × List Iterator → RootM (Option Iterator)
  | 0, _ => throw .outOfSteps
  | _ + 1, (none, _) => return none
  | fuel + 1, (some it, queue) => do
    if it.offset = off then return some it
    else
      let next ← searchStep off it queue
      search off fuel next

/-- `find_downwards`, in at most `fuel` steps. -/
def findDownwards (fuel off : ℕ) : RootM (Option Iterator) :=
  search off fuel (some Root.begin, [])

end BreadthFirst

section Find

/-- Following parents from `cur` as far as they are cached: where that ends, and the number of steps
to there. -/
def climb (parentOf : ℕ → Option ℕ) : ℕ → ℕ → ℕ → Except Fault (ℕ × ℕ)
  | 0, _, _ => .error .outOfSteps
  | fuel + 1, cur, height =>
    if cur = 0 then .ok (cur, height)
    else
      match parentOf cur with
      | none => .ok (cur, height)
      | some parent => climb parentOf fuel parent (height + 1)

/-- The entries made for a reference from a DIE's attribute. -/
def recordReference (referencer : Option (ℕ ×ₗ ℕ)) (target : ℕ) : RootM Unit :=
  match referencer with
  | none => return ()
  | some key => modify fun r => { r with tables := { r.tables with
      refersTo := r.tables.refersTo.insert key target
      referredFrom := r.tables.referredFrom ++ [(target, key)] } }

/-- What `pos` writes into the parent cache. -/
def Root.posParent (r : Root) (off : ℕ) (optDepth parentOff : Option ℕ) : ℕ → Option ℕ :=
  if optDepth = some 1 then Function.update r.parentOf off (some 0)
  else if optDepth = some 2 then
    Function.update r.parentOf off (r.dbg.map fun lib => lib.cuDieoffset off)
  else if parentOff.isSome then Function.update r.parentOf off parentOff
  else r.parentOf

/-- `pos`. -/
def pos (off : ℕ) (optDepth parentOff : Option ℕ) (referencer : Option (ℕ ×ₗ ℕ)) :
    RootM Iterator := do
  let r ← get
  if optDepth = some 0 then
    require (off = 0)
    require (referencer = none)
    return Root.begin
  else if (r.liveDies off).isSome then return ⟨off, none, true⟩
  else if r.dbg.any fun lib => lib.offdie off then
    let base ← ofDie off optDepth
    modify fun r => { r with parentOf := r.posParent off optDepth parentOff }
    recordReference referencer off
    return base
  else throw .noEntry

/-- `find_upwards`, in at most `fuel` steps.  `payload` says whether it is given the DIE's. -/
def findUpwards (fuel off : ℕ) (payload : Bool) : RootM (Option Iterator) := do
  let r ← get
  let (cur, height) ← climb r.parentOf fuel off 0
  if cur = 0 then
    if payload then return some ⟨off, some (toUShort height), true⟩
    else
      -- The subscript makes an entry where there is none, as for the root.
      let parent := (r.parentOf off).getD 0
      modify fun r => { r with parentOf := Function.update r.parentOf off (some parent) }
      return some (← pos off (some (toUShort height)) (some parent) none)
  else return none

/-- `find`, where the searches take at most `fuel` steps. -/
def find (fuel off : ℕ) (referencer : Option (ℕ ×ₗ ℕ)) (payload : Bool) :
    RootM (Option Iterator) := do
  match ← findUpwards fuel off payload with
  | some foundUp =>
    recordReference referencer foundUp.offset
    return some foundUp
  | none =>
    match ← findDownwards fuel off with
    | some found =>
      recordReference referencer found.offset
      return some found
    | none => return none

/-- `depth()`: the iterator, which remembers its depth once found out. -/
def withDepth (fuel : ℕ) (it : Iterator) : RootM Iterator :=
  match it.depth with
  | some _ => return it
  | none => do
    match ← find fuel it.offset none it.payload with
    | some foundSelf =>
      require (foundSelf.depth.isSome = true)
      require (foundSelf.offset = it.offset)
      return { it with depth := foundSelf.depth }
    | none => throw .assertFailed

end Find

end Dies
end Dwarfpp
