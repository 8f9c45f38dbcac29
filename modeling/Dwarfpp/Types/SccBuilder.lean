/-
# The strong components of the type graph

`type_die::get_scc` of `src/dies.cpp`: a depth-first search from a type with the two
side stacks of the path-based algorithm assigns the types it reaches to components.
Then each component gets the edges both of whose ends are in it, and a word that sums
them up by the abstract names of their ends, and is kept with its types.

The order of `ι` is that of the DIEs' offsets, in which a map keyed by iterators has its
entries, with `void` as the last.  The assertions on `live_dies`, and the entries made
in `sticky_dies`, concern the lifetime of DIEs in memory and are left out.
-/

import Mathlib
import Dwarfpp.Lib.OrderedMap
import Dwarfpp.Types.EdgeIterator
import Dwarfpp.Types.SummaryCode

namespace Dwarfpp
namespace Types

open Lib

variable {ι : Type}

/-! ### The search -/

/-- `type_edges_df_scc_builder_iterator`.  The stacks have their back first. -/
structure SccBuilder (ι : Type) [LinearOrder ι] extends EdgeIterator ι where
  seenButNotAssigned : List (Option ι)
  perhapsSameScc : List (Option ι)
  seenCount : ℕ
  preorderNumbers : OrderedMap (WithTop ι) ℕ
  componentCount : ℕ
  componentNumbers : OrderedMap (WithTop ι) ℕ
  componentMembers : List (ℕ × Option ι)

/-- What a map is keyed by: `void` comes after every DIE. -/
def offsetKey : Option ι → WithTop ι
  | none => ⊤
  | some t => t

/-- `insert()` of a map, which leaves an entry that is there. -/
def insertNew {κ α : Type} [LinearOrder κ] (m : OrderedMap κ α) (k : κ) (a : α) :
    OrderedMap κ α :=
  match m.find k with
  | some _ => m
  | none => m.insert k a

namespace SccBuilder

variable [LinearOrder ι] (g : TypeGraph ι) (cached : ι → Bool)

/-- The iterator on a start type. -/
def start (t : ι) : SccBuilder ι where
  toEdgeIterator := .start t
  seenButNotAssigned := []
  perhapsSameScc := []
  seenCount := 0
  preorderNumbers := .empty
  componentCount := 0
  componentNumbers := .empty
  componentMembers := []

/-- The end position. -/
def hitEnd (b : SccBuilder ι) : SccBuilder ι := { b with base := none, reason := none }

/-- A white type gets its number, and is grey from now on. -/
def number (b : SccBuilder ι) : SccBuilder ι :=
  { b with
    preorderNumbers := insertNew b.preorderNumbers (offsetKey b.base) b.seenCount
    seenCount := b.seenCount + 1
    seenButNotAssigned := b.base :: b.seenButNotAssigned
    perhapsSameScc := b.base :: b.perhapsSameScc
    stack := (b.base, b.reason) :: b.stack }

/-- Pops what has a greater number. -/
def popGreater (numbers : OrderedMap (WithTop ι) ℕ) (n : ℕ) :
    List (Option ι) → Except Fault (List (Option ι))
  | [] => .error .undefinedBehaviour
  | p :: ps =>
    if n < (numbers.find (offsetKey p)).getD 0 then popGreater numbers n ps else .ok (p :: ps)

/-- An edge to a type that is grey or black. -/
def contract (b : SccBuilder ι) (target : Option ι) : Except Fault (SccBuilder ι) :=
  match b.componentNumbers.find (offsetKey target) with
  | some _ => .ok b
  | none =>
    match b.preorderNumbers.find (offsetKey target) with
    | none => .error .assertFailed
    | some n => do
      let perhapsSameScc ← popGreater b.preorderNumbers n b.perhapsSameScc
      return { b with perhapsSameScc := perhapsSameScc }

/-- Pops the types of a new component, down to `base`. -/
def popComponent (base : Option ι) (c : ℕ) :
    List (Option ι) → SccBuilder ι → Except Fault (SccBuilder ι)
  | [], _ => .error .undefinedBehaviour
  | popped :: seen, b =>
    let b := { b with
      seenButNotAssigned := seen
      componentNumbers := insertNew b.componentNumbers (offsetKey popped) c
      componentMembers := b.componentMembers ++ [(c, popped)] }
    if popped = base then .ok b else popComponent base c seen b

/-- The type is black, and a component is made of it and what is above it if it is on top. -/
def blacken (b : SccBuilder ι) : Except Fault (SccBuilder ι) :=
  match b.perhapsSameScc with
  | [] => .error .undefinedBehaviour
  | top :: rest => do
    let b ←
      if top = b.base then do
        let b' ← popComponent b.base b.componentCount b.seenButNotAssigned
          { b with componentCount := b.componentCount + 1 }
        pure { b' with perhapsSameScc := rest }
      else pure b
    return { b with black := b.base :: b.black }

/-- The loop over the outgoing edges of a grey type.  It moves to the first white target, or the
type is black in the end. -/
def followEdges : List (OutgoingEdge ι) → SccBuilder ι → Except Fault (SccBuilder ι × Bool)
  | [], b => do
    let b ← blacken b
    return (b, false)
  | e :: es, b =>
    if e.target.any cached then followEdges es b
    else
      match colourOf b.stack b.black e.target with
      | .white => .ok ({ b with base := e.target, reason := some e.reason }, true)
      | _ => do
        let b ← contract b e.target
        followEdges es b

/-- `increment()`. -/
def increment : ℕ → SccBuilder ι → Except Fault (SccBuilder ι)
  | 0, _ => .error .outOfSteps
  | fuel + 1, b =>
    let colour := colourOf b.stack b.black b.base
    if b.atEnd ∨ (b.stack = [] ∧ colour ≠ .white) then .ok b.hitEnd
    else
      match colour with
      | .grey => .error .assertFailed
      | .black =>
        match b.stack with
        | [] => .error .undefinedBehaviour
        | top :: rest => do
          let next ← nextOutgoingEdgeTarget g top.2
          match rest with
          | [] => do
            assert (next = none)
            return { b with stack := [] }.hitEnd
          | below :: _ => do
            let (b, moved) ← followEdges cached (edgesFrom g next)
              { b with base := below.1, reason := below.2, stack := rest }
            if moved then return b else increment fuel b
      | .white => do
        let b := b.number
        assert (colourOf b.stack b.black b.base = .grey)
        let edges ← outgoingEdges g b.base
        let (b, moved) ← followEdges cached edges b
        if moved then return b else increment fuel b

/-- The loop over the iterator. -/
def run : ℕ → SccBuilder ι → Except Fault (SccBuilder ι)
  | 0, _ => .error .outOfSteps
  | fuel + 1, b =>
    if b.atEnd then .ok b
    else do
      let b ← increment g cached fuel b
      run fuel b

end SccBuilder

/-! ### The components -/

/-- `type_edge`. -/
structure TypeEdge (ι : Type) where
  source : Option ι
  label : Reason ι
  target : Option ι
  deriving DecidableEq

/-- `type_scc_t`, a set of edges. -/
structure TypeScc (ι : Type) where
  edges : List (TypeEdge ι)
  edgesSummary : SummaryWord
  deriving DecidableEq

/-- `edges_sorted`, with the target's name first. -/
abbrev EdgesSorted := OrderedMap (String ×ₗ String) Unit

/-- The names of a member's edges are shifted into the word. -/
def shiftInEdges (word : SummaryWord) (edges : List (String ×ₗ String)) : SummaryWord :=
  edges.foldl (fun word e => shiftInString (shiftInString word (ofLex e).1) (ofLex e).2) word

/-- `opt_cached_scc` of each type, `some none` being a null pointer. -/
abbrev SccCache (ι : Type) := ι → Option (Option (TypeScc ι))

section Assemble

variable [LinearOrder ι] (g : TypeGraph ι) (fuel : ℕ)

/-- One outgoing edge of a type of the component `c`. -/
def addEdge (numbers : OrderedMap (WithTop ι) ℕ) (c : ℕ) (acc : List (TypeEdge ι) × EdgesSorted)
    (e : OutgoingEdge ι) : Except Fault (List (TypeEdge ι) × EdgesSorted) :=
  if numbers.find (offsetKey e.target) = some c then do
    let source ← sourceVertexFor g (some e.reason)
    let targetName ← abstractName g fuel e.target
    let sourceName ← abstractName g fuel source
    return (acc.1.insert ⟨source, e.reason, e.target⟩,
      acc.2.insert (toLex (targetName, sourceName)) ())
  else .ok acc

/-- One type of a component. -/
def addMember (numbers : OrderedMap (WithTop ι) ℕ) (sccs : ℕ → TypeScc ι)
    (member : WithTop ι × ℕ) : Except Fault (ℕ → TypeScc ι) := do
  let edges ← outgoingEdges g member.1
  let scc := sccs member.2
  let (sccEdges, edgesSorted) ←
    edges.foldlM (addEdge g fuel numbers member.2) (scc.edges, .empty)
  return Function.update sccs member.2
    ⟨sccEdges, shiftInEdges scc.edgesSummary (edgesSorted.entries.map (·.1))⟩

/-- A component is installed in one of its types. -/
def installIn (scc : TypeScc ι) (cache : SccCache ι) : Option ι → Except Fault (SccCache ι)
  | none => if scc.edges = [] then .ok cache else .error .assertFailed
  | some t =>
    if scc.edges = [] then .ok (Function.update cache t (some none))
    else do
      assert (cache t = none)
      return Function.update cache t (some (some scc))

/-- The components are installed one after the other. -/
def installAll (members : List (ℕ × Option ι)) (sccs : ℕ → TypeScc ι) (cache : SccCache ι)
    (i : ℕ) : Except Fault (SccCache ι) :=
  ((members.filter fun m => m.1 = i).map (·.2)).foldlM (installIn (sccs i)) cache

/-- `get_scc()`. -/
def getScc (t : ι) : StateT (SccCache ι) (Except Fault) (Option (TypeScc ι)) := fun cache =>
  match cache t with
  | some scc => .ok (scc, cache)
  | none =>
    if (g t).declaration = some true then .ok (none, cache)
    else do
      let white ← SccBuilder.run g (fun u => (cache u).isSome) fuel (.start t)
      let sccs ← white.componentNumbers.entries.foldlM (addMember g fuel white.componentNumbers)
        fun _ => ⟨[], some 0⟩
      let cache ← (List.range white.componentCount).foldlM
        (installAll white.componentMembers sccs) cache
      return ((cache t).join, cache)

end Assemble

end Types
end Dwarfpp
