/-
# New DIEs in memory

`make_new` of `src/root.cpp` and `src/abstract.cpp`.  A new DIE gets the offset behind the
highest below its parent, where there is a gap (`fresh_offset_under`), or behind
all others if it is a CU (`fresh_cu_offset`).  It becomes the last child: the root
enters the edge to it from its parent, or from the sibling before it.
-/

import Dwarfpp.Dies.NewChild

namespace Dwarfpp
namespace Dies

open Lib
open Lib.Preorder hiding firstChild nextSibling

section Model

variable (fuel : ℕ)

/-- From a child of the root position on to the first that is a CU. -/
def skipToUnit : ℕ → Option Iterator → RootM (Option Iterator)
  | 0, _ => throw .outOfSteps
  | _ + 1, none => return none
  | n + 1, some it => do
    let r ← get
    if r.tagHere it.offset = dwTagCompileUnit then return some it
    else
      let next ← moveToNextSibling (withDepth fuel) it
      skipToUnit n next

/-- The increment of the root's `children()`. -/
def nextUnit (it : Iterator) : RootM (Option Iterator) := do
  let next ← moveToNextSibling (withDepth fuel) it
  skipToUnit fuel fuel next

/-- `srk31::count`, where `next` is the increment. -/
def countFrom (next : Iterator → RootM (Option Iterator)) : ℕ → Option Iterator → RootM ℕ
  | 0, _ => throw .outOfSteps
  | _ + 1, none => return 0
  | n + 1, some it => do
    let rest ← next it
    let count ← countFrom next n rest
    return count + 1

/-- Incrementing so many times. -/
def advanceBy (next : Iterator → RootM (Option Iterator)) : ℕ → Iterator → RootM Iterator
  | 0, it => return it
  | n + 1, it => do
    match ← next it with
    | some it' => advanceBy next n it'
    | none => throw .undefinedBehaviour

/-- `while (++children.first != children.second) last_sib = children.first;` -/
def lastSibling : ℕ → Iterator → RootM Iterator
  | 0, _ => throw .outOfSteps
  | n + 1, it => do
    match ← moveToNextSibling (withDepth fuel) it with
    | some next => lastSibling n next
    | none => return it

/-- `for (; i != END; ++i) off = i.offset_here();` -/
def lastOffset : ℕ → ℕ → Option Iterator → RootM ℕ
  | 0, _, _ => throw .outOfSteps
  | _ + 1, off, none => return off
  | n + 1, _, some it => do
    let next ← dfIncrement fuel it
    lastOffset n it.offset next

/-- The rest of `fresh_cu_offset`, once the first CU is there. -/
def freshOffsetBehind (first : Iterator) : RootM ℕ := do
  let nCus ← countFrom (nextUnit fuel) fuel (some first)
  let lastCu ← advanceBy (nextUnit fuel) (nCus - 1) first
  let i ← pos lastCu.offset (some 1) none none
  let off ← lastOffset fuel fuel 0 (some i)
  require (off ≠ 0)
  let r ← get
  require (r.nextSiblingOf lastCu.offset = none)
  modify fun r => { r with
    nextSiblingOf := Function.update r.nextSiblingOf lastCu.offset (some (off + 1))
    parentOf := Function.update r.parentOf (off + 1) (some 0) }
  return off + 1

/-- `fresh_cu_offset`. -/
def freshCuOffset : RootM ℕ := do
  let child ← firstChild Root.begin
  match ← skipToUnit fuel fuel child with
  | some first => freshOffsetBehind fuel first
  | none =>
    modify fun r => { r with
      firstChildOf := Function.update r.firstChildOf 0 (some 1)
      parentOf := Function.update r.parentOf 1 (some 0) }
    return 1

/-- `highest_offset_iter_in_subtree`, and `last_children_seen`. -/
def highestOffsetIter : ℕ → Iterator → (ℕ → Option ℕ) → RootM (Iterator × (ℕ → Option ℕ))
  | 0, _, _ => throw .outOfSteps
  | n + 1, it, seen => do
    let children ← firstChild it
    let count ← countFrom (moveToNextSibling (withDepth fuel)) fuel children
    match children with
    | none => return (it, seen)
    | some first =>
      require (count ≠ 0)
      let lastSib ← lastSibling fuel fuel first
      highestOffsetIter n lastSib (Function.update seen it.offset (some lastSib.offset))

/-- The edge to the offset issued: a first child's, or a next sibling's. -/
def enterEdge (pos highest : Iterator) (seen : ℕ → Option ℕ) (offsetToIssue : ℕ) : RootM Unit := do
  if highest.offset = pos.offset then
    modify fun r =>
      { r with firstChildOf := Function.update r.firstChildOf pos.offset (some offsetToIssue) }
  else
    match seen pos.offset with
    | none => throw .assertFailed
    | some lastSib =>
      let r ← get
      require (r.nextSiblingOf lastSib = none)
      set { r with nextSiblingOf := Function.update r.nextSiblingOf lastSib (some offsetToIssue) }

/-- `fresh_offset_under`. -/
def freshOffsetUnder (pos : Iterator) : RootM ℕ := do
  let _ ← firstChild pos
  let (highest, seen) ← highestOffsetIter fuel fuel pos fun _ => none
  let next ← dfIncrement fuel highest
  -- There must be more room than up to the next subtree.
  require (∀ n ∈ next, 1 < n.offset - highest.offset)
  enterEdge pos highest seen (highest.offset + 1)
  modify fun r =>
    { r with parentOf := Function.update r.parentOf (highest.offset + 1) (some pos.offset) }
  return highest.offset + 1

/-- `enclosing_cu_offset_here()`. -/
def Root.enclosingCuOffset (r : Root) (off : ℕ) : ℕ :=
  match r.liveDies off, r.dbg with
  | some (.inMemory cuOffset _), _ => cuOffset
  | _, some lib => lib.cuDieoffset off
  | _, none => 0

/-- `spec_here()`, which has one answer.  A DIE in memory asks its CU, which must have its payload. -/
def specHere (it : Iterator) : RootM Unit := do
  let r ← get
  if r.tagHere it.offset = dwTagCompileUnit then require (it.payload = true)
  else if r.isInMemory it.offset then
    let cu ← pos (r.enclosingCuOffset it.offset) (some 1) none none
    require (cu.payload = true)
  else return ()

/-- `make_new` asks the CU of the parent for its spec. -/
def enclosingSpec (parent : Iterator) : RootM Unit := do
  if parent.offset = 0 then return ()
  else
    let r ← get
    let cu ← pos (r.enclosingCuOffset parent.offset) (some 1) (some 0) none
    specHere cu

/-- The constructor of the DIE asks its parent, unless that is the root position. -/
def parentSpec (parent : Iterator) : RootM Unit :=
  if parent.depth = some 0 then return () else specHere parent

/-- The offset of the DIE to be. -/
def freshOffset (parent : Iterator) : RootM ℕ :=
  if parent.offset = 0 then freshCuOffset fuel else freshOffsetUnder fuel parent

/-- Entering the DIE among the live ones.  A CU is in itself. -/
def Root.enterInMemory (r : Root) (parent : Iterator) (tag off : ℕ) : Root :=
  let cuOffset := if parent.offset = 0 then off else r.enclosingCuOffset parent.offset
  { r with
    liveDies := Function.update r.liveDies off ((r.liveDies off).or (some (.inMemory cuOffset tag)))
    tables := { r.tables with attrs := Function.update r.tables.attrs off OrderedMap.empty } }

/-- The constructor of an `in_memory_abstract_die`.  It asks for the depth and the spec of the parent
once more behind the offset; they are known by then. -/
def construct (parent : Iterator) (tag : ℕ) : RootM ℕ := do
  let parent ← withDepth fuel parent
  parentSpec parent
  let off ← freshOffset fuel parent
  modify fun r => r.enterInMemory parent tag off
  return off

/-- `parent_of.insert` and the search for the new DIE. -/
def findNew (parent : Iterator) (off : ℕ) : RootM Iterator := do
  modify fun r => { r with
    parentOf := Function.update r.parentOf off ((r.parentOf off).or (some parent.offset)) }
  match ← find fuel off none false with
  | some found => return found
  | none => throw .assertFailed

/-- `make_new`.  The factory has a case for the tags that `hasCase` tells, and for others gives a
null pointer, which is dereferenced. -/
def makeNew (hasCase : ℕ → Bool) (parent : Iterator) (tag : ℕ) : RootM Iterator := do
  enclosingSpec parent
  if hasCase tag then
    let off ← construct fuel parent tag
    findNew fuel parent off
  else throw .undefinedBehaviour

end Model

end Dies
end Dwarfpp
