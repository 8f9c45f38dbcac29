/-
# The DIEs above a DIE

`is_under` (`src/root.cpp`) and `nearest_enclosing` (`src/iter.cpp`) go from a DIE to its parents.
Where the root knows its tree, the one answers whether a DIE is another or below it, however its
caches are filled (`isUnder_reaches`).

`nearest_enclosing` moves by `move_to_parent`, which asserts that the parent is cached, and `parent`
caches every parent but that of a unit.  So it is from where the cached parents lead up that it finds
the nearest DIE of a tag, among the DIE and those above it (`nearestEnclosing_arrives`).
-/

import Dwarfpp.Dies.ParentCache
import Dwarfpp.Dies.Topology
import Dwarfpp.Lib.Descent

namespace Dwarfpp
namespace Dies

open Lib
open Lib.Preorder hiding firstChild nextSibling

section Model

variable (fuel : ℕ)

/-- `operator==`. -/
def Iterator.isSame (i j : Iterator) : Bool :=
  if i.depth.isSome ∧ j.depth.isSome ∧ i.depth ≠ j.depth then false else i.offset = j.offset

/-- `is_under`, through at most so many parents. -/
def isUnder : ℕ → Iterator → Iterator → RootM Bool
  | 0, _, _ => throw .outOfSteps
  | n + 1, i1, i2 => do
    if i1.isSame i2 then return true
    else
      let i2 ← withDepth fuel i2
      let i1 ← withDepth fuel i1
      if i1.depth.getD 0 ≤ i2.depth.getD 0 then return false
      else
        match ← parent fuel i1 with
        | some above => isUnder n above i2
        | none => throw .assertFailed

/-- The loop of `nearest_enclosing`. -/
def enclosingFrom (tag : ℕ) : ℕ → Iterator → RootM (Option Iterator)
  | 0, _ => throw .outOfSteps
  | n + 1, cur => do
    let r ← get
    if cur.offset = 0 then return none
    else if r.tagHere cur.offset = tag then return some cur
    else
      match ← moveToParent fuel cur with
      | none => return none
      | some above => enclosingFrom tag n above

/-- `nearest_enclosing`. -/
def nearestEnclosing (tag : ℕ) (it : Iterator) : RootM (Option Iterator) := do
  if tag = dwTagCompileUnit then
    let r ← get
    return some (← pos (r.enclosingCuOffset it.offset) (some 1) none none)
  else enclosingFrom fuel tag fuel it

end Model

variable {t : List Node} {r : Root} {fuel : ℕ} {x y : Node} {i j : Iterator}

section Under

theorem isSame_iff (h : WellFormed t) (hx : x ∈ t) (hy : y ∈ t) (hi : Standing x i)
    (hj : Standing y j) : i.isSame j = true ↔ x = y := by
  unfold Iterator.isSame
  rw [hi.1, hj.1]
  split_ifs with hd
  · refine iff_of_false (by decide) ?_
    rintro rfl
    obtain ⟨hsi, hsj, hne⟩ := hd
    rcases hi.2 with hdi | ⟨hdi, -⟩ <;> rcases hj.2 with hdj | ⟨hdj, -⟩ <;> simp_all
  · rw [decide_eq_true_iff]
    exact ⟨h.sorted.eq_of_key_eq hx hy, fun heq => heq ▸ rfl⟩

/-- **`is_under` tells whether a DIE is another or below it.** -/
theorem isUnder_reaches (h : Consistent t r) (hfuel : EnoughFuel t fuel) (hx : x ∈ t) (hy : y ∈ t)
    (hi : Standing x i) (hj : Standing y j) {n : ℕ} (hn : x.depth < n) :
    Reaches t (isUnder fuel n i j) r fun b _ =>
      b = true ↔ x = y ∨ Below Node.depth t y x := by
  induction n generalizing r x i j with
  | zero => exact absurd hn (Nat.not_lt_zero _)
  | succ n ih =>
    have hs := h.wellFormed.sorted
    have hsame := isSame_iff h.wellFormed hx hy hi hj
    rw [isUnder]
    split_ifs with heq
    · exact StateReturns.pure h (iff_of_true rfl (.inl (hsame.1 heq)))
    have hne : x ≠ y := fun hxy => heq (hsame.2 hxy)
    refine (withDepth_reaches h hy hj.1 hj.2 (hfuel.2 y hy) hfuel.1).bind ?_
    rintro j' r₁ hr₁ - ⟨hoffj, hdj, -⟩
    refine (withDepth_reaches hr₁ hx hi.1 hi.2 (hfuel.2 x hx) hfuel.1).bind ?_
    rintro i' r₂ hr₂ - ⟨hoffi, hdi, -⟩
    rw [hdi, hdj, Option.getD_some, Option.getD_some]
    split_ifs with hle
    · refine StateReturns.pure hr₂ (iff_of_false (by decide) ?_)
      rintro (hxy | hbelow)
      · exact hne hxy
      · have := hbelow.depth_lt
        omega
    · have h0 : x.offset ≠ 0 := fun h0 => by
        have := (h.wellFormed.depth_eq_zero_iff hx).2 h0
        omega
      obtain ⟨z, hz⟩ := h.exists_parent hx h0
      have hdz : x.depth = z.depth + 1 := by
        obtain ⟨-, -, -, -, hd, -⟩ := id hz
        exact hd
      refine (parent_reaches hr₂ hfuel hz ⟨hoffi, .inl hdi⟩).bind ?_
      rintro res r₃ hr₃ - ⟨⟨p, rfl, hp⟩, -⟩
      refine (ih hr₃ (isParent_mem hz).1 hp ⟨hoffj, .inl hdj⟩ (by omega)).mono ?_
      rintro b r₄ - - hb
      rw [hb, below_iff_parent hs hz, or_iff_right hne, eq_comm]

theorem isUnder_rooted (h : Settled t r) (hfuel : EnoughFuel t fuel) (hx : x ∈ t) (hy : y ∈ t)
    (hi : Standing x i) (hj : Standing y j) (hk : Known r x.offset) {n : ℕ} :
    StaysRooted (isUnder fuel n i j) r fun _ _ => True := by
  induction n generalizing r x i j with
  | zero => exact staysRooted_error rfl
  | succ n ih =>
    rw [isUnder]
    split_ifs
    · exact StateReturnsUnless.pure h.rooted trivial
    refine StaysRooted.bind_settled (withDepth_reaches h.consistent hy hj.1 hj.2 (hfuel.2 y hy)
      hfuel.1) (withDepth_rooted h (hj.1 ▸ hfuel.2 y hy)) ?_
    rintro j' r₁ hr₁ hmoved₁ ⟨hoffj, hdj, -⟩
    refine StaysRooted.bind_settled (withDepth_reaches hr₁.consistent hx hi.1 hi.2 (hfuel.2 x hx)
      hfuel.1) (withDepth_rooted hr₁ (hi.1 ▸ hfuel.2 x hx)) ?_
    rintro i' r₂ hr₂ hmoved₂ ⟨hoffi, hdi, -⟩
    rw [hdi, hdj, Option.getD_some, Option.getD_some]
    split_ifs with hle
    · exact StateReturnsUnless.pure hr₂.rooted trivial
    obtain ⟨z, hz⟩ := h.consistent.exists_parent hx fun h0 => by
      have := (h.consistent.wellFormed.depth_eq_zero_iff hx).2 h0
      omega
    have hstand : Standing x i' := ⟨hoffi, .inl hdi⟩
    have hk₂ := (hk.mono hmoved₁.kept).mono hmoved₂.kept
    refine StaysRooted.bind_settled (parent_reaches hr₂.consistent hfuel hz hstand)
      (parent_rooted hfuel hr₂ hz hstand hk₂) ?_
    rintro res r₃ hr₃ hmoved₃ ⟨⟨p, rfl, hp⟩, -⟩
    exact ih hr₃ (isParent_mem hz).1 hp ⟨hoffj, .inl hdj⟩
      ((hr₂.known_parent hz hk₂).mono hmoved₃.kept)

end Under

section Enclosing

variable {tag : ℕ}

/-- The DIE is `x` or above it. -/
def Encloses (t : List Node) (x y : Node) : Prop := x = y ∨ Below Node.depth t y x

/-- The nearest DIE with the tag, of `x` and those above it. -/
structure IsNearest (t : List Node) (tag : ℕ) (x y : Node) : Prop where
  encloses : Encloses t x y
  tag_eq : y.tag = tag
  nearest : ∀ z, Encloses t x z → z.offset ≠ 0 → z.tag = tag → Encloses t y z

/-- What the search for the tag is to find. -/
def FindsNearest (t : List Node) (tag : ℕ) (x : Node) (res : Option Iterator) : Prop :=
  match res with
  | none => ∀ y, Encloses t x y → y.offset ≠ 0 → y.tag ≠ tag
  | some it => ∃ y, IsNearest t tag x y ∧ y.offset ≠ 0 ∧ Standing y it

theorem encloses_iff (h : Sorted Node.offset t) {z : Node} (hz : IsParent Node.depth t z x) :
    Encloses t x y ↔ x = y ∨ Encloses t z y := by
  rw [Encloses, below_iff_parent h hz, Encloses, eq_comm (a := z)]

/-- What is above the parent and not the DIE itself is to be found. -/
theorem FindsNearest.of_parent (h : Sorted Node.offset t) {z : Node}
    (hz : IsParent Node.depth t z x) (hne : x.tag ≠ tag) {res : Option Iterator}
    (hres : FindsNearest t tag z res) : FindsNearest t tag x res := by
  cases res with
  | none =>
    intro y hy h0
    rcases (encloses_iff h hz).1 hy with rfl | hy
    · exact hne
    · exact hres y hy h0
  | some it =>
    obtain ⟨y, ⟨hy, htag, hnearest⟩, h0, hit⟩ := hres
    refine ⟨y, ⟨(encloses_iff h hz).2 (.inr hy), htag, fun w hw hw0 hwt => ?_⟩, h0, hit⟩
    rcases (encloses_iff h hz).1 hw with rfl | hw
    · exact absurd hwt hne
    · exact hnearest w hw hw0 hwt

theorem enclosingFrom_arrives (h : Settled t r) (hfuel : EnoughFuel t fuel) (hx : x ∈ t)
    (hi : Standing x i) (hk : Known r x.offset) {n : ℕ} (hn : x.depth < n) :
    Arrives t (enclosingFrom fuel tag n i) r fun res r' =>
      FindsNearest t tag x res ∧ ∀ it ∈ res, Known r' it.offset := by
  induction n generalizing r x i with
  | zero => exact absurd hn (Nat.not_lt_zero _)
  | succ n ih =>
    have hcons := h.consistent
    have hs := hcons.wellFormed.sorted
    rw [enclosingFrom]
    refine StateReturns.get_bind ?_
    rw [hi.1]
    split_ifs with h0 htag
    · -- Nothing is above the root position.
      refine StateReturns.pure h ⟨?_, by simp⟩
      rintro y (rfl | hy) hy0
      · exact absurd h0 hy0
      · have := hy.key_lt hs
        omega
    · rw [hcons.tagHere hx h0] at htag
      refine StateReturns.pure h ⟨⟨x, ⟨.inl rfl, htag, fun _ hz _ _ => hz⟩, h0, hi⟩, ?_⟩
      rintro it ⟨⟩
      rwa [hi.1]
    rw [hcons.tagHere hx h0] at htag
    obtain ⟨z, hz⟩ := hcons.exists_parent hx h0
    have hdz : x.depth = z.depth + 1 := by
      obtain ⟨-, -, -, -, hd, -⟩ := id hz
      exact hd
    refine (((moving_settled hfuel).parent h hz hk hi).returns id).bind ?_
    rintro res r₁ hr₁ hmoved ⟨p, rfl, hp⟩
    refine (ih hr₁ (isParent_mem hz).1 hp ((h.known_parent hz hk).mono hmoved.kept)
      (by omega)).mono ?_
    rintro res' r₂ - - ⟨hres, hknown⟩
    exact ⟨hres.of_parent hs hz htag, hknown⟩

/-- **`nearest_enclosing` finds the nearest DIE of a tag**, or there is none.  For the tag of units
there is another way. -/
theorem nearestEnclosing_arrives (h : Settled t r) (hfuel : EnoughFuel t fuel) (hx : x ∈ t)
    (hi : Standing x i) (hk : Known r x.offset) (htag : tag ≠ dwTagCompileUnit) :
    Arrives t (nearestEnclosing fuel tag i) r fun res r' =>
      FindsNearest t tag x res ∧ ∀ it ∈ res, Known r' it.offset := by
  have hdepth := (h.consistent.depth_le_offset hx).trans_lt (hfuel.2 x hx)
  rw [nearestEnclosing, if_neg htag]
  exact enclosingFrom_arrives h hfuel hx hi hk hdepth

end Enclosing

section Examples

theorem enoughFuel_smallTree : EnoughFuel smallTree 30 := ⟨by decide, by decide⟩

/-- The root of the small file, where the parents of both DIEs are cached. -/
def knownRoot : Root :=
  let r := smallRoot 11 20
  { r with
    parentOf := Function.update (Function.update r.parentOf 11 (some 0)) 20 (some 11) }

theorem settled_knownRoot : Settled smallTree knownRoot where
  consistent :=
    (consistent_smallRoot.enterParent (x := rootNode) (y := ⟨11, 1, dwTagCompileUnit, false⟩)
      ⟨[], [], _, rfl, rfl, by simp⟩).enterParent (x := ⟨11, 1, dwTagCompileUnit, false⟩)
        (y := ⟨20, 2, 0x24, false⟩) ⟨[rootNode], [], _, rfl, rfl, by simp⟩
  rooted := ((rooted_make _ _ _).enterParent 11 (.inl rfl)).enterParent 20 (.inr rfl)

end Examples

end Dies
end Dwarfpp
