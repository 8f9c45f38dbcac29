/-
# Going through the tree breadth-first

The breadth-first iterator of `include/dwarfpp/iter.hpp` queues the first child of each DIE it
leaves and goes to its next sibling, or else to what has been queued longest.  Where the root
knows its tree, an iteration from the root position meets every DIE once, level by level and
each level in pre-order; one depth-first meets them in pre-order (`traversals_reach`).
-/

import Dwarfpp.Dies.DepthFirst
import Dwarfpp.Lib.LevelOrder

namespace Dwarfpp
namespace Dies

open Lib
open Lib.Preorder hiding firstChild nextSibling

/-- The offsets and depths that `for (; i != end(); ++i)` goes through with an `iterator_bf`. -/
def bfTraverse : ℕ → Option Iterator × List Iterator → RootM (List (ℕ × Option ℕ))
  | 0, _ => throw .outOfSteps
  | _ + 1, (none, _) => return []
  | n + 1, (some it, queue) => do
    let next ← bfIncrement it queue
    return (it.offset, it.depth) :: (← bfTraverse n next)

/-- What is visited of a DIE. -/
def Node.visited (x : Node) : ℕ × Option ℕ := (x.offset, some x.depth)

variable {t : List Node} {r : Root} {fuel : ℕ}

/-- **A breadth-first iteration visits what its frontier gives.** -/
theorem bfTraverse_from (h : Consistent t r) {f : List (List Node)}
    (hf : Frontier Node.depth Node.offset t f) {res : Option Iterator × List Iterator}
    (hat : FrontAt res f) (hknown : ParentsKnown r f) (hfuel : weight Node.depth f < fuel) :
    Reaches t (bfTraverse fuel res) r fun vs _ =>
      vs = (visits Node.depth fuel f).map Node.visited := by
  induction fuel generalizing r f res with
  | zero => exact absurd hfuel (Nat.not_lt_zero _)
  | succ fuel ih =>
    obtain ⟨pos, queue⟩ := res
    cases f with
    | nil =>
      obtain rfl : pos = none := hat
      exact StateReturns.pure h rfl
    | cons s q =>
      obtain ⟨⟨it, hpos, hit⟩, hq⟩ := hat
      obtain rfl : pos = some it := hpos
      obtain ⟨x, l, rfl, hoff, hdepth⟩ := id hit
      have hx := (hf.place _ List.mem_cons_self).2
      have hsteps := h.wellFormed.steps.suffix hx
      have hweight := weight_advance (q := q) hsteps
      refine (bfIncrement_reaches h hx hit hq hknown).bind ?_
      rintro next r₁ hr₁ - ⟨hnext, hknown₁⟩
      have hf₁ := hf.advance h.wellFormed.sorted h.wellFormed.steps
      refine (ih hr₁ hf₁ hnext hknown₁ (by omega)).bind ?_
      rintro vs r₂ hr₂ - rfl
      refine StateReturns.pure hr₂ ?_
      rw [visits, List.map_cons, Node.visited, hoff, hdepth]

/-- **From the root position** it visits the tree in level order. -/
theorem bfTraverse_reaches (h : Consistent t r) (hfuel : t.length < fuel) :
    Reaches t (bfTraverse fuel (some Root.begin, [])) r fun vs _ =>
      ∃ xs, LevelOrder Node.depth t xs ∧ vs = xs.map Node.visited := by
  have hfamily := h.wellFormed.family_eq_self
  have hsteps := h.wellFormed.steps
  have hlevels := h.wellFormed.levels
  obtain ⟨l, rfl, -⟩ := h.wellFormed.rooted
  have hf : Frontier Node.depth Node.offset (rootNode :: l) [rootNode :: l] :=
    Frontier.singleton (List.cons_ne_nil _ _) List.suffix_rfl
  refine (bfTraverse_from h hf ⟨⟨_, rfl, rootNode, l, rfl, rfl, rfl⟩, .nil⟩ ?_ ?_).mono ?_
  · intro s hs x hx h0
    rw [List.mem_singleton.1 hs] at hx
    obtain rfl : rootNode = x := by simpa using hx
    exact absurd rfl h0
  · rw [weight_cons, hfamily]
    exact hfuel
  · rintro vs r' - - rfl
    rw [← hfamily] at hlevels hfuel
    have horder := visits_levelOrder hsteps hlevels hfuel
    rw [hfamily] at horder
    exact ⟨_, horder, rfl⟩

/-- **Both ways from the root position**: breadth-first in level order, with the depths, and
depth-first in pre-order. -/
theorem traversals_reach (h : Consistent t r) (hfuel : EnoughFuel t fuel) :
    (Reaches t (bfTraverse fuel (some Root.begin, [])) r fun vs _ =>
      ∃ xs, LevelOrder Node.depth t xs ∧ vs = xs.map Node.visited) ∧
    Reaches t (traverse fuel fuel (some Root.begin)) r fun offs _ => offs = t.map Node.offset :=
  ⟨bfTraverse_reaches h hfuel.1, traverse_reaches h hfuel⟩

section Examples

/-- The small file, both ways. -/
theorem traversals_smallRoot :
    (Reaches smallTree (bfTraverse 30 (some Root.begin, []))
      (Root.make (some (smallFile 11 20)) (fun _ => OrderedMap.empty) false) fun vs _ =>
        ∃ xs, LevelOrder Node.depth smallTree xs ∧ vs = xs.map Node.visited) ∧
    Reaches smallTree (traverse 30 30 (some Root.begin))
      (Root.make (some (smallFile 11 20)) (fun _ => OrderedMap.empty) false) fun offs _ =>
        offs = smallTree.map Node.offset :=
  traversals_reach consistent_smallRoot ⟨by decide, by decide⟩

/-- On a chain of DIEs, from the one at `11 + k` on nothing has been seen. -/
def OnChain (k : ℕ) (r : Root) : Prop :=
  r.dbg = some (chainFile 65546) ∧
    ∀ off, 11 + k ≤ off → r.liveDies off = none ∧ r.firstChildOf off = none

theorem childHandle_chain {k : ℕ} (hlast : 11 + k < 65546) (h : OnChain k r) :
    childHandle (11 + k) r = .ok (some (12 + k), r) := by
  have hmem : r.isInMemory (11 + k) = false := by
    rw [Root.isInMemory, (h.2 _ (Nat.le_refl _)).1]
  have hchild : (chainFile 65546).child (11 + k) = some (12 + k) := by
    rw [show 12 + k = 11 + k + 1 by omega]
    exact if_pos ⟨by omega, hlast⟩
  have hhandle : childHandle (11 + k) r = .ok (r.dbg.bind fun lib => lib.child (11 + k), r) := by
    change (if 11 + k = 0 then firstCu else if r.isInMemory (11 + k) = true then pure none
      else pure (r.dbg.bind fun lib => lib.child (11 + k)) : RootM (Option ℕ)) r = _
    rw [if_neg (by omega), hmem]
    rfl
  rw [hhandle, h.1, Option.bind_some, hchild]

theorem ofDie_chain {k : ℕ} (h : OnChain k r) (depth : Option ℕ) :
    ofDie (12 + k) depth r = .ok (⟨12 + k, depth, false⟩, r) := by
  have hlive : r.liveDies (12 + k) = none := (h.2 _ (by omega)).1
  have htag : r.tagHere (12 + k) = 0x24 := by
    rw [Root.tagHere, if_neg (by omega), hlive, h.1]
    exact if_neg (by omega)
  change (if (r.liveDies (12 + k)).isSome = true then pure ⟨12 + k, depth, true⟩
    else if r.tagHere (12 + k) = dwTagCompileUnit then _
    else pure ⟨12 + k, depth, false⟩ : RootM Iterator) r = _
  rw [hlive, htag]
  rfl

theorem OnChain.enter {k : ℕ} (h : OnChain k r) (parentOf : ℕ → Option ℕ) :
    OnChain (k + 1) { r with
      parentOf := parentOf
      firstChildOf := Function.update r.firstChildOf (11 + k) (some (12 + k)) } := by
  refine ⟨h.1, fun off hoff => ⟨(h.2 off (by omega)).1, ?_⟩⟩
  exact (Function.update_of_ne (by omega) _ _).trans (h.2 off (by omega)).2

theorem firstChild_chain {k : ℕ} (hlast : 11 + k < 65546) (h : OnChain k r) :
    ∃ r', firstChild ⟨11 + k, some (k + 1), false⟩ r =
        .ok (some ⟨12 + k, some (toUShort (k + 2)), false⟩, r') ∧ OnChain (k + 1) r' := by
  have hedge : r.liveTarget r.firstChildOf (11 + k) = none := by
    rw [Root.liveTarget, (h.2 _ (Nat.le_refl _)).2]
    rfl
  refine ⟨_, ?_, h.enter (Function.update r.parentOf (12 + k) (some (11 + k)))⟩
  unfold firstChild
  simp only [bind, StateT.bind, get, getThe, MonadStateOf.get, StateT.get, Except.bind, pure,
    Except.pure, hedge, childHandle_chain hlast h, Option.map_some, ofDie_chain h, modify, modifyGet,
    MonadStateOf.modifyGet, StateT.modifyGet, StateT.pure]

theorem moveToFirstChild_eq {it : Iterator} {d : ℕ} (hd : it.depth = some d) {c : Iterator}
    {r' : Root} (h : firstChild it r = .ok (some c, r')) :
    moveToFirstChild fuel it r =
      if c.depth = some (d + 1) then .ok (some c, r') else .error .assertFailed := by
  unfold moveToFirstChild
  rw [leavesKnown_withDepth it (by rw [hd]; rfl), pure_bind, hd]
  simp only [bind, StateT.bind, Except.bind, h, require, Option.map_some]
  split_ifs <;> rfl

theorem dfIncrement_eq {it : Iterator} {d : ℕ} (hd : it.depth = some d) {c : Iterator} {r' : Root}
    (h : firstChild it r = .ok (some c, r')) (hdepth : c.depth = some (d + 1))
    (hlt : it.offset < c.offset) : dfIncrement fuel it r = .ok (some c, r') := by
  have hmove : moveToFirstChild fuel it r = .ok (some c, r') := by
    rw [moveToFirstChild_eq hd h, if_pos hdepth]
  unfold dfIncrement
  rw [leavesKnown_withDepth it (by rw [hd]; rfl), pure_bind]
  simp only [bind, StateT.bind, Except.bind, hmove, require, if_pos hlt]
  rfl

theorem dfIncrement_error {it : Iterator} {d : ℕ} (hd : it.depth = some d) {c : Iterator} {r' : Root}
    (h : firstChild it r = .ok (some c, r')) (hdepth : c.depth ≠ some (d + 1)) :
    dfIncrement fuel it r = .error .assertFailed := by
  have hmove : moveToFirstChild fuel it r = .error .assertFailed := by
    rw [moveToFirstChild_eq hd h, if_neg hdepth]
  unfold dfIncrement
  rw [leavesKnown_withDepth it (by rw [hd]; rfl), pure_bind]
  simp only [bind, StateT.bind, Except.bind, hmove]

theorem traverse_error {n : ℕ} {it : Iterator} {next : Option Iterator} {r' : Root} {e : Fault}
    (h : dfIncrement fuel it r = .ok (next, r')) (hrest : traverse fuel n next r' = .error e) :
    traverse fuel (n + 1) (some it) r = .error e := by
  change (dfIncrement fuel it r).bind _ = _
  rw [h]
  change (traverse fuel n next r').bind _ = _
  rw [hrest]
  rfl

/-- A depth-first iteration fails 65536 levels down. -/
theorem traverse_chain {k m n : ℕ} (hm : k + m + 2 = 2 ^ 16) (hn : m < n) (h : OnChain k r) :
    traverse fuel n (some ⟨11 + k, some (k + 1), false⟩) r = .error .assertFailed := by
  induction m generalizing k n r with
  | zero =>
    obtain ⟨n, rfl⟩ := Nat.exists_eq_succ_of_ne_zero (by omega : n ≠ 0)
    obtain ⟨r', hrun, -⟩ := firstChild_chain (by omega) h
    have hstep : dfIncrement fuel ⟨11 + k, some (k + 1), false⟩ r = .error .assertFailed := by
      refine dfIncrement_error (d := k + 1) rfl hrun ?_
      rw [toUShort, show k + 2 = 2 ^ 16 by omega]
      simp
    change (dfIncrement fuel _ r).bind _ = _
    rw [hstep]
    rfl
  | succ m ih =>
    obtain ⟨n, rfl⟩ := Nat.exists_eq_succ_of_ne_zero (by omega : n ≠ 0)
    obtain ⟨r', hrun, hon⟩ := firstChild_chain (by omega) h
    rw [toUShort, Nat.mod_eq_of_lt (by omega)] at hrun
    have hstep : dfIncrement fuel ⟨11 + k, some (k + 1), false⟩ r =
        .ok (some ⟨12 + k, some (k + 2), false⟩, r') := by
      refine dfIncrement_eq (d := k + 1) rfl hrun rfl ?_
      show 11 + k < 12 + k
      omega
    have hrest := ih (by omega) (Nat.lt_of_succ_lt_succ hn) hon
    rw [show 11 + (k + 1) = 12 + k by omega] at hrest
    exact traverse_error hstep hrest

/-- Two units without children, the first with a 32-bit header and the second with a 64-bit one. -/
def mixedFile : Libdwarf where
  child _ := none
  siblingof _ := none
  offdie off := off = 11 ∨ off = 123
  tag _ := dwTagCompileUnit
  cuDieoffset off := off
  cuHeaders := [.version4 4 11 100, .version4 8 123 200]

theorem traverse_chainRoot {n : ℕ} (hn : 65533 < n) :
    traverse fuel (n + 2) (some Root.begin)
      (Root.make (some (chainFile 65546)) (fun _ => OrderedMap.empty) false) =
        .error .assertFailed := by
  obtain ⟨r₁, r₂, hunit, hchild, hon⟩ : ∃ r₁ r₂,
      dfIncrement fuel Root.begin
          (Root.make (some (chainFile 65546)) (fun _ => OrderedMap.empty) false) =
        .ok (some ⟨11, some 1, true⟩, r₁) ∧
      dfIncrement fuel ⟨11, some 1, true⟩ r₁ = .ok (some ⟨12, some 2, false⟩, r₂) ∧
      OnChain 1 r₂ := by
    refine ⟨_, _, rfl, rfl, rfl, fun off hoff => ?_⟩
    have h11 : off ≠ 11 := by omega
    have h0 : off ≠ 0 := by omega
    exact ⟨Function.update_of_ne h11 _ _,
      (Function.update_of_ne h11 _ _).trans
        ((Function.update_of_ne h0 _ _).trans (Function.update_of_ne h0 _ _))⟩
  exact traverse_error hunit (traverse_error hchild (traverse_chain (m := 65533) (by decide) hn hon))

/-- Two units without children, both with a 64-bit header. -/
def wideFile : Libdwarf where
  child _ := none
  siblingof _ := none
  offdie off := off = 23 ∨ off = 123
  tag _ := dwTagCompileUnit
  cuDieoffset off := off
  cuHeaders := [.version4 8 23 100, .version4 8 123 200]

/-- In a new root of a file with headers of both sizes, an iteration fails at the second unit.  Where
all headers have the wider size, it fails once a later unit has been visited by its offset.  It
leaves out the units behind a partial unit, and fails at a live unit whose parent is not cached.
Depth-first it fails at a child that lies before its parent, and where a DIE is as many levels down
as a depth has values. -/
theorem traversals_mixedFile :
    (bfTraverse 100 (some Root.begin, [])
        (Root.make (some mixedFile) (fun _ => OrderedMap.empty) false) = .error .assertFailed ∧
      traverse 100 100 (some Root.begin)
        (Root.make (some mixedFile) (fun _ => OrderedMap.empty) false) = .error .assertFailed) ∧
    (∃ unit r second r',
      firstChild Root.begin (Root.make (some wideFile) (fun _ => OrderedMap.empty) false) =
        .ok (some unit, r) ∧
      pos 123 (some 1) none none r = .ok (second, r') ∧
      bfTraverse 100 (some Root.begin, []) r' = .error .assertFailed ∧
      traverse 100 100 (some Root.begin) r' = .error .assertFailed) ∧
    ((bfTraverse 100 (some Root.begin, [])
        (Root.make (some partialFile) (fun _ => OrderedMap.empty) false)).map Prod.fst =
          .ok [(0, some 0), (11, some 1), (111, some 1)] ∧
      (traverse 100 100 (some Root.begin)
        (Root.make (some partialFile) (fun _ => OrderedMap.empty) false)).map Prod.fst =
          .ok [0, 11, 111]) ∧
    (bfTraverse 100 (some Root.begin, []) parentlessRoot = .error .assertFailed ∧
      traverse 100 100 (some Root.begin) parentlessRoot = .error .assertFailed) ∧
    traverse 100 100 (some Root.begin)
      (Root.make (some (smallFile 11 5)) (fun _ => OrderedMap.empty) false) =
        .error .assertFailed ∧
    traverse 65548 65548 (some Root.begin)
      (Root.make (some (chainFile 65546)) (fun _ => OrderedMap.empty) false) =
        .error .assertFailed :=
  ⟨⟨rfl, rfl⟩, ⟨_, _, _, _, rfl, rfl, rfl, rfl⟩, ⟨rfl, rfl⟩, ⟨rfl, rfl⟩, rfl,
    traverse_chainRoot (by decide)⟩

end Examples

end Dies
end Dwarfpp
