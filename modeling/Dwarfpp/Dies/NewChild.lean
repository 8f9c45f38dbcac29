/-
# A tree with a DIE more

What a root must write for a new DIE in memory, the last child of a DIE `x`: that
it is live, its parent, and the edge that leads to it, from `x` if it has no
child yet and else from its last child (`Entered`).  Then the root knows the tree with
the new DIE in it (`Consistent.insert`).
-/

import Dwarfpp.Dies.DepthFirst
import Dwarfpp.Lib.PreorderInsert

namespace Dwarfpp
namespace Dies

open Lib
open Lib.Preorder hiding firstChild nextSibling

/-- The edge to a new DIE at `off` is entered, and no other. -/
def EdgeEntered (x : Node) (w : List Node) (off : ℕ) (r r' : Root) : Prop :=
  (w = [] ∧ r'.firstChildOf = Function.update r.firstChildOf x.offset (some off) ∧
      r'.nextSiblingOf = r.nextSiblingOf) ∨
    ∃ y, IsLastChild Node.depth x w y ∧ r'.firstChildOf = r.firstChildOf ∧
      r'.nextSiblingOf = Function.update r.nextSiblingOf y.offset (some off)

/-- The new DIE `n` is entered below `x`, behind `w`; its CU is at `cuOffset`. -/
structure Entered (x : Node) (w : List Node) (n : Node) (cuOffset : ℕ) (r r' : Root) : Prop where
  dbg : r'.dbg = r.dbg
  context : ContextIsSane r → ContextIsSane r'
  liveDies : r'.liveDies = Function.update r.liveDies n.offset (some (.inMemory cuOffset n.tag))
  parentOf : r'.parentOf = Function.update r.parentOf n.offset (some x.offset)
  edge : EdgeEntered x w n.offset r r'

/-- `n` may be put behind `w`, what is below `x`: its offset lies in the gap. -/
structure Fits (pre : List Node) (x : Node) (w : List Node) (n : Node) (rest : List Node) : Prop where
  insertion : Insertion Node.depth x w n rest
  above : ∀ y ∈ pre ++ x :: w, y.offset < n.offset
  below : ∀ y ∈ rest, n.offset < y.offset
  inMemory : n.inMemory = true
  unit : n.tag = dwTagCompileUnit ↔ n.depth = 1
  level : n.depth < 2 ^ 16

section Shape

variable {pre w rest : List Node} {x n : Node}

theorem Fits.sorted (h : Fits pre x w n rest) (hs : Sorted Node.offset (pre ++ x :: (w ++ rest))) :
    Sorted Node.offset (pre ++ x :: (w ++ n :: rest)) := by
  have hold : pre ++ x :: (w ++ rest) = (pre ++ x :: w) ++ rest := by simp
  have hnew : pre ++ x :: (w ++ n :: rest) = (pre ++ x :: w) ++ n :: rest := by simp
  rw [hold] at hs
  rw [hnew]
  obtain ⟨hpre, hrest, hboth⟩ := List.pairwise_append.1 hs
  refine List.pairwise_append.2 ⟨hpre, List.pairwise_cons.2 ⟨h.below, hrest⟩, ?_⟩
  intro y hy z hz
  rcases List.mem_cons.1 hz with rfl | hz
  · exact h.above y hy
  · exact hboth y hy z hz

theorem Fits.steps (h : Fits pre x w n rest) (hs : Steps Node.depth (pre ++ x :: (w ++ rest))) :
    Steps Node.depth (pre ++ x :: (w ++ n :: rest)) := by
  have hold : pre ++ x :: (w ++ rest) = (pre ++ x :: w) ++ rest := by simp
  have hnew : pre ++ x :: (w ++ n :: rest) = (pre ++ x :: w) ++ n :: rest := by simp
  rw [hold] at hs
  rw [hnew]
  obtain ⟨hpre, hrest, -⟩ := List.isChain_append.1 hs
  have hlevel := h.insertion.level
  refine List.isChain_append.2 ⟨hpre, ?_, ?_⟩
  · refine hrest.cons ?_
    intro y hy
    have := h.insertion.behind y hy
    omega
  · intro y hy z hz
    obtain rfl : n = z := by simpa using hz
    have hle : x.depth ≤ y.depth := by
      cases hw : w.getLast? with
      | none =>
        rw [List.getLast?_eq_none_iff] at hw
        rw [hw, List.getLast?_concat] at hy
        obtain rfl : x = y := by simpa using hy
        exact le_rfl
      | some z =>
        have hz : z = y := by
          rw [List.getLast?_append_of_ne_nil _ (List.cons_ne_nil x w)] at hy
          rw [List.getLast?_cons, hw] at hy
          simpa using hy
        subst hz
        exact (h.insertion.below z (List.mem_of_getLast? hw)).le
    omega

theorem mem_insert {y : Node} :
    y ∈ pre ++ x :: (w ++ n :: rest) ↔ y = n ∨ y ∈ pre ++ x :: (w ++ rest) := by
  simp only [List.mem_append, List.mem_cons]
  tauto

/-- Where a child in the new tree is not the new DIE, it is one in the old. -/
theorem Fits.firstChild_old (h : Fits pre x w n rest)
    (hs : Sorted Node.offset (pre ++ x :: (w ++ rest))) {y c : Node} {m' l' : List Node}
    (hy : y :: m' <:+ pre ++ x :: (w ++ n :: rest))
    (hc : Preorder.firstChild Node.depth (y :: m') = c :: l') :
    (c = n ∧ y = x ∧ w = []) ∨ ∃ m l, y :: m <:+ pre ++ x :: (w ++ rest) ∧
      Preorder.firstChild Node.depth (y :: m) = c :: l := by
  by_cases hyn : y = n
  · -- The new DIE has no child.
    have hnot := (h.sorted hs).suffix_unique hy
      (List.suffix_append_of_suffix (List.suffix_cons_iff.2 (.inr (List.suffix_append w (n :: rest)))))
      (by rw [hyn])
    rw [hnot, h.insertion.firstChild_new] at hc
    exact absurd hc.symm (List.cons_ne_nil _ _)
  · obtain ⟨m, hm⟩ := place_old hy hyn
    rcases h.insertion.firstChild_cases (h.sorted hs) hm hy with hhead | ⟨hyx, hw, -, hnew⟩
    · rw [hc] at hhead
      obtain ⟨l, hl⟩ := List.head?_eq_some_iff.1 hhead.symm
      exact .inr ⟨m, l, hm, hl⟩
    · rw [hnew] at hc
      exact .inl ⟨(List.cons.inj hc).1.symm, hyx, hw⟩

/-- The same of next siblings. -/
theorem Fits.nextSibling_old (h : Fits pre x w n rest)
    (hs : Sorted Node.offset (pre ++ x :: (w ++ rest))) {y c : Node} {m' l' : List Node}
    (hy : y :: m' <:+ pre ++ x :: (w ++ n :: rest))
    (hc : Preorder.nextSibling Node.depth (y :: m') = c :: l') :
    (c = n ∧ IsLastChild Node.depth x w y) ∨ ∃ m l, y :: m <:+ pre ++ x :: (w ++ rest) ∧
      Preorder.nextSibling Node.depth (y :: m) = c :: l := by
  by_cases hyn : y = n
  · have hnot := (h.sorted hs).suffix_unique hy
      (List.suffix_append_of_suffix (List.suffix_cons_iff.2 (.inr (List.suffix_append w (n :: rest)))))
      (by rw [hyn])
    rw [hnot, h.insertion.nextSibling_new] at hc
    exact absurd hc.symm (List.cons_ne_nil _ _)
  · obtain ⟨m, hm⟩ := place_old hy hyn
    rcases h.insertion.nextSibling_cases (h.sorted hs) hm hy with hhead | ⟨hlast, -, hnew⟩
    · rw [hc] at hhead
      obtain ⟨l, hl⟩ := List.head?_eq_some_iff.1 hhead.symm
      exact .inr ⟨m, l, hm, hl⟩
    · rw [hnew] at hc
      exact .inl ⟨(List.cons.inj hc).1.symm, hlast⟩

/-- **The tree with the new DIE is well formed.** -/
theorem Fits.wellFormed (h : Fits pre x w n rest) (hw : WellFormed (pre ++ x :: (w ++ rest))) :
    WellFormed (pre ++ x :: (w ++ n :: rest)) where
  rooted := by
    obtain ⟨l, hl, hpos⟩ := hw.rooted
    have hn : 0 < n.depth := by
      have := h.insertion.level
      omega
    cases pre with
    | nil =>
      obtain ⟨rfl, rfl⟩ := List.cons.inj hl
      refine ⟨_, rfl, fun y hy => ?_⟩
      rcases List.mem_append.1 hy with hy | hy
      · exact hpos y (List.mem_append_left _ hy)
      · rcases List.mem_cons.1 hy with rfl | hy
        · exact hn
        · exact hpos y (List.mem_append_right _ hy)
    | cons z pre =>
      obtain ⟨rfl, rfl⟩ := List.cons.inj hl
      refine ⟨_, rfl, fun y hy => ?_⟩
      rcases mem_insert.1 hy with rfl | hy
      · exact hn
      · exact hpos y hy
  steps := h.steps hw.steps
  sorted := h.sorted hw.sorted
  units y hy := by
    rcases mem_insert.1 hy with rfl | hy
    · exact h.unit
    · exact hw.units y hy
  levels y hy := by
    rcases mem_insert.1 hy with rfl | hy
    · exact h.level
    · exact hw.levels y hy
  memoryChild y m' c l' hy hc hm := by
    rcases h.firstChild_old hw.sorted hy hc with ⟨rfl, -, -⟩ | ⟨m, l, hm', hold⟩
    · exact h.inMemory
    · exact hw.memoryChild y m c l hm' hold hm
  memorySibling y m' c l' hy hc hm := by
    rcases h.nextSibling_old hw.sorted hy hc with ⟨rfl, -⟩ | ⟨m, l, hm', hold⟩
    · exact h.inMemory
    · exact hw.memorySibling y m c l hm' hold hm

end Shape

section File

variable {pre w rest : List Node} {x n : Node} {lib : Libdwarf} {r : Root}

theorem fileOffset_congr {s s' : List Node} (h : s'.head? = s.head?) :
    fileOffset s' = fileOffset s := by
  cases s with
  | nil =>
    rw [List.head?_nil, List.head?_eq_none_iff] at h
    rw [h]
  | cons y l =>
    obtain ⟨l', rfl⟩ := List.head?_eq_some_iff.1 h
    rfl

theorem Fits.fileOffset_new (h : Fits pre x w n rest) : fileOffset (n :: rest) = none := by
  rw [fileOffset, if_pos h.inMemory]

/-- The headers are those of the units of the new tree. -/
theorem Fits.unitChain (h : Fits pre x w n rest) (hs : Sorted Node.offset (pre ++ x :: (w ++ rest)))
    {s s' : List Node} {cus : List CompileUnit} (hcus : UnitChain s cus)
    (hrel : (s'.head? = s.head? ∧ s <:+ pre ++ x :: (w ++ rest) ∧
      s' <:+ pre ++ x :: (w ++ n :: rest)) ∨ (s = [] ∧ s' = n :: rest)) : UnitChain s' cus := by
  induction cus generalizing s s' with
  | nil =>
    rcases hrel with ⟨hhead, -, -⟩ | ⟨-, rfl⟩
    · exact (fileOffset_congr hhead).trans hcus
    · exact h.fileOffset_new
  | cons cu cus ih =>
    obtain ⟨hfirst, hrest, hnext⟩ := hcus
    obtain ⟨y, m, rfl, -, -⟩ := fileOffset_eq_some.1 hfirst
    rcases hrel with ⟨hhead, hold, hnew⟩ | ⟨hnil, -⟩
    · obtain ⟨m', rfl⟩ := List.head?_eq_some_iff.1 hhead
      refine ⟨(fileOffset_congr hhead).trans hfirst, ih hrest ?_, hnext⟩
      rcases h.insertion.nextSibling_cases (h.sorted hs) hold hnew with heq | ⟨-, hn, hn'⟩
      · exact .inl ⟨heq, ((nextSibling_suffix y m).trans (List.suffix_cons y m)).trans hold,
          ((nextSibling_suffix y m').trans (List.suffix_cons y m')).trans hnew⟩
      · exact .inr ⟨hn, hn'⟩
    · exact absurd hnil (List.cons_ne_nil _ _)

/-- **libdwarf answers for the new tree as for the old.** -/
theorem Fits.serves (h : Fits pre x w n rest) (hr : Consistent (pre ++ x :: (w ++ rest)) r)
    (hlib : Serves lib (pre ++ x :: (w ++ rest))) : Serves lib (pre ++ x :: (w ++ n :: rest)) := by
  have hw := hr.wellFormed
  have hsorted := h.sorted hw.sorted
  have hold : ∀ y ∈ pre ++ x :: (w ++ n :: rest), y.inMemory = false →
      y ∈ pre ++ x :: (w ++ rest) := by
    intro y hy hfile
    refine (mem_insert.1 hy).resolve_left ?_
    rintro rfl
    rw [h.inMemory] at hfile
    exact absurd hfile (by decide)
  have hplace : ∀ y m', y :: m' <:+ pre ++ x :: (w ++ n :: rest) → y.inMemory = false →
      ∃ m, y :: m <:+ pre ++ x :: (w ++ rest) :=
    fun y m' hy hfile => exists_suffix_of_mem (hold y (mem_of_suffix hy) hfile)
  exact {
    child := by
      intro y m' hy hfile h0
      obtain ⟨m, hm⟩ := hplace y m' hy hfile
      rw [hlib.child y m hm hfile h0]
      rcases h.insertion.firstChild_cases hsorted hm hy with hhead | ⟨-, -, hnil, hnew⟩
      · exact (fileOffset_congr hhead).symm
      · rw [hnil, hnew, h.fileOffset_new]
        rfl
    siblingof := by
      intro y m' hy hfile hd
      obtain ⟨m, hm⟩ := hplace y m' hy hfile
      rw [hlib.siblingof y m hm hfile hd]
      rcases h.insertion.nextSibling_cases hsorted hm hy with hhead | ⟨-, hnil, hnew⟩
      · exact (fileOffset_congr hhead).symm
      · rw [hnil, hnew, h.fileOffset_new]
        rfl
    offdie := by
      intro off
      rw [hlib.offdie off]
      constructor
      · rintro ⟨y, hy, hoff, hfile, h0⟩
        exact ⟨y, mem_insert.2 (.inr hy), hoff, hfile, h0⟩
      · rintro ⟨y, hy, hoff, hfile, h0⟩
        exact ⟨y, hold y hy hfile, hoff, hfile, h0⟩
    tag := fun y hy hfile h0 => hlib.tag y (hold y hy hfile) hfile h0
    cuDieoffset := by
      intro z y hp hfile hd
      have hy := hold y (isParent_mem hp).2 hfile
      have h0 : y.offset ≠ 0 := fun h0 => by
        have := (hw.depth_eq_zero_iff hy).2 h0
        omega
      obtain ⟨z', hz'⟩ := hr.exists_parent hy h0
      rw [hlib.cuDieoffset z' y hz' hfile hd, (isParent_insert hz' h.insertion).unique hsorted hp]
    unitOf := by
      intro y hy hfile h0
      obtain ⟨u, hu, hoff, hd⟩ := hlib.unitOf y (hold y hy hfile) hfile h0
      exact ⟨u, mem_insert.2 (.inr hu), hoff, hd⟩
    units := by
      obtain ⟨l, hl, -⟩ := hw.rooted
      obtain ⟨l', hl', -⟩ := (h.wellFormed hw).rooted
      have hunits := hlib.units
      have ho : rootNode :: l <:+ pre ++ x :: (w ++ rest) := by rw [hl]
      have hn : rootNode :: l' <:+ pre ++ x :: (w ++ n :: rest) := by rw [hl']
      rw [hl] at hunits
      rw [hl']
      refine h.unitChain hw.sorted hunits ?_
      rcases h.insertion.firstChild_cases hsorted ho hn with hhead | ⟨-, -, hnil, hnew⟩
      · exact .inl ⟨hhead, ((firstChild_suffix _ _).trans (List.suffix_cons _ _)).trans ho,
          ((firstChild_suffix _ _).trans (List.suffix_cons _ _)).trans hn⟩
      · exact .inr ⟨hnil, hnew⟩
    firstUnit := hlib.firstUnit
    allUnits := fun y hy hfile hd => hlib.allUnits y (hold y hy hfile) hfile hd }

end File

section Insert

variable {pre w rest : List Node} {x n : Node} {cuOffset : ℕ} {r r' : Root}

/-- What is entered for the new DIE is new: no edge was cached from or to its offset. -/
theorem Fits.offset_ne (h : Fits pre x w n rest) {y : Node} (hy : y ∈ pre ++ x :: (w ++ rest)) :
    y.offset ≠ n.offset := by
  have hall : pre ++ x :: (w ++ rest) = (pre ++ x :: w) ++ rest := by simp
  rw [hall] at hy
  rcases List.mem_append.1 hy with hy | hy
  · exact (h.above y hy).ne
  · exact (h.below y hy).ne'

theorem isSome_enterParent (he : Entered x w n cuOffset r r') {c : ℕ}
    (hc : (r.parentOf c).isSome = true) : (r'.parentOf c).isSome = true := by
  rw [he.parentOf]
  exact isSome_update hc

/-- An edge that the root knew leads where it led. -/
theorem Fits.firstChild_kept (h : Fits pre x w n rest)
    (hs : Sorted Node.offset (pre ++ x :: (w ++ rest))) {y c : Node} {m l : List Node}
    (hy : y :: m <:+ pre ++ x :: (w ++ rest))
    (hc : Preorder.firstChild Node.depth (y :: m) = c :: l) :
    ∃ m' l', y :: m' <:+ pre ++ x :: (w ++ n :: rest) ∧
      Preorder.firstChild Node.depth (y :: m') = c :: l' := by
  obtain ⟨m', hm'⟩ : ∃ m', y :: m' <:+ pre ++ x :: (w ++ n :: rest) := place_new hy
  rcases h.insertion.firstChild_cases (h.sorted hs) hy hm' with hhead | ⟨-, -, hnil, -⟩
  · rw [hc] at hhead
    obtain ⟨l', hl'⟩ := List.head?_eq_some_iff.1 hhead
    exact ⟨m', l', hm', hl'⟩
  · rw [hnil] at hc
    exact absurd hc.symm (List.cons_ne_nil _ _)

theorem Fits.nextSibling_kept (h : Fits pre x w n rest)
    (hs : Sorted Node.offset (pre ++ x :: (w ++ rest))) {y c : Node} {m l : List Node}
    (hy : y :: m <:+ pre ++ x :: (w ++ rest))
    (hc : Preorder.nextSibling Node.depth (y :: m) = c :: l) :
    ∃ m' l', y :: m' <:+ pre ++ x :: (w ++ n :: rest) ∧
      Preorder.nextSibling Node.depth (y :: m') = c :: l' := by
  obtain ⟨m', hm'⟩ : ∃ m', y :: m' <:+ pre ++ x :: (w ++ n :: rest) := place_new hy
  rcases h.insertion.nextSibling_cases (h.sorted hs) hy hm' with hhead | ⟨-, hnil, -⟩
  · rw [hc] at hhead
    obtain ⟨l', hl'⟩ := List.head?_eq_some_iff.1 hhead
    exact ⟨m', l', hm', hl'⟩
  · rw [hnil] at hc
    exact absurd hc.symm (List.cons_ne_nil _ _)

/-- The last child has its place in the new tree, with the new DIE behind its subtree. -/
theorem Fits.lastChild_place (h : Fits pre x w n rest) {y : Node}
    (hy : IsLastChild Node.depth x w y) :
    ∃ m', y :: m' <:+ pre ++ x :: (w ++ n :: rest) ∧
      Preorder.nextSibling Node.depth (y :: m') = n :: rest := by
  obtain ⟨a, ha, hd, hall⟩ := hy
  have hya : y :: a <:+ pre ++ x :: w :=
    ha.trans ((List.suffix_cons x w).trans (List.suffix_append pre _))
  refine ⟨a ++ n :: rest, suffix_new hya, nextSibling_eq_cons.2 ⟨?_, ?_⟩⟩
  · have hlevel := h.insertion.level
    rw [after, List.dropWhile_append_of_pos fun m hm => by simpa using hall m hm,
      List.dropWhile_cons_of_neg]
    simp only [decide_eq_true_eq]
    omega
  · rw [h.insertion.level, hd]

theorem Fits.children (h : Fits pre x w n rest) (hr : Consistent (pre ++ x :: (w ++ rest)) r)
    (he : Entered x w n cuOffset r r') (p c : ℕ) (hc : r'.firstChildOf p = some c) :
    (r'.parentOf c).isSome = true ∧ ∃ y m' z l', y :: m' <:+ pre ++ x :: (w ++ n :: rest) ∧
      Preorder.firstChild Node.depth (y :: m') = z :: l' ∧ y.offset = p ∧ z.offset = c := by
  obtain ⟨rfl, rfl, rfl⟩ | hc : (w = [] ∧ p = x.offset ∧ c = n.offset) ∨
      r.firstChildOf p = some c := by
    rcases he.edge with ⟨hw, hchild, -⟩ | ⟨-, -, hchild, -⟩
    · rw [hchild] at hc
      by_cases hp : p = x.offset
      · rw [hp, Function.update_self] at hc
        exact .inl ⟨hw, hp, (Option.some.inj hc).symm⟩
      · rw [Function.update_of_ne hp] at hc
        exact .inr hc
    · exact .inr (hchild ▸ hc)
  · refine ⟨?_, x, n :: rest, n, rest, List.suffix_append _ _,
      firstChild_eq_cons.2 ⟨rfl, h.insertion.level⟩, rfl, rfl⟩
    rw [he.parentOf, Function.update_self]
    rfl
  · obtain ⟨hknown, y, m, z, l, hy, hz, hyp, hzc⟩ := hr.children p c hc
    obtain ⟨m', l', hm', hl'⟩ := h.firstChild_kept hr.wellFormed.sorted hy hz
    exact ⟨isSome_enterParent he hknown, y, m', z, l', hm', hl', hyp, hzc⟩

theorem Fits.siblings (h : Fits pre x w n rest) (hr : Consistent (pre ++ x :: (w ++ rest)) r)
    (he : Entered x w n cuOffset r r') (p c : ℕ) (hc : r'.nextSiblingOf p = some c) :
    (r'.parentOf c).isSome = true ∧ ∃ y m' z l', y :: m' <:+ pre ++ x :: (w ++ n :: rest) ∧
      Preorder.nextSibling Node.depth (y :: m') = z :: l' ∧ y.offset = p ∧ z.offset = c := by
  obtain ⟨y, hlast, rfl, rfl⟩ | hc : (∃ y, IsLastChild Node.depth x w y ∧ p = y.offset ∧
      c = n.offset) ∨ r.nextSiblingOf p = some c := by
    rcases he.edge with ⟨-, -, hsibling⟩ | ⟨y, hlast, -, hsibling⟩
    · exact .inr (hsibling ▸ hc)
    · rw [hsibling] at hc
      by_cases hp : p = y.offset
      · rw [hp, Function.update_self] at hc
        exact .inl ⟨y, hlast, hp, (Option.some.inj hc).symm⟩
      · rw [Function.update_of_ne hp] at hc
        exact .inr hc
  · obtain ⟨m', hm', hnew⟩ := h.lastChild_place hlast
    refine ⟨?_, y, m', n, rest, hm', hnew, rfl, rfl⟩
    rw [he.parentOf, Function.update_self]
    rfl
  · obtain ⟨hknown, y, m, z, l, hy, hz, hyp, hzc⟩ := hr.siblings p c hc
    obtain ⟨m', l', hm', hl'⟩ := h.nextSibling_kept hr.wellFormed.sorted hy hz
    exact ⟨isSome_enterParent he hknown, y, m', z, l', hm', hl', hyp, hzc⟩

theorem Fits.childEdges (h : Fits pre x w n rest) (hr : Consistent (pre ++ x :: (w ++ rest)) r)
    (he : Entered x w n cuOffset r r') (y : Node) (m' : List Node) (c : Node) (l' : List Node)
    (hy : y :: m' <:+ pre ++ x :: (w ++ n :: rest))
    (hc : Preorder.firstChild Node.depth (y :: m') = c :: l') (hm : c.inMemory = true) :
    r'.firstChildOf y.offset = some c.offset := by
  have hs := hr.wellFormed.sorted
  rcases h.firstChild_old hs hy hc with ⟨rfl, rfl, hnil⟩ | ⟨m, l, hym, hold⟩
  · rcases he.edge with ⟨-, hchild, -⟩ | ⟨z, ⟨a, ha, -⟩, -⟩
    · rw [hchild, Function.update_self]
    · rw [hnil] at ha
      exact absurd (List.suffix_nil.1 ha) (List.cons_ne_nil _ _)
  · have hedge := hr.childEdges y m c l hym hold hm
    rcases he.edge with ⟨hnil, hchild, -⟩ | ⟨-, -, hchild, -⟩
    · rw [hchild, Function.update_of_ne, hedge]
      -- `x` had no child.
      intro heq
      have hplace := hs.suffix_unique hym (List.suffix_append _ _) heq
      rw [hplace, hnil, List.nil_append] at hold
      obtain ⟨rfl, hd⟩ := firstChild_eq_cons.1 hold
      have := h.insertion.behind c rfl
      omega
    · rw [hchild, hedge]

theorem Fits.siblingEdges (h : Fits pre x w n rest) (hr : Consistent (pre ++ x :: (w ++ rest)) r)
    (he : Entered x w n cuOffset r r') (y : Node) (m' : List Node) (c : Node) (l' : List Node)
    (hy : y :: m' <:+ pre ++ x :: (w ++ n :: rest))
    (hc : Preorder.nextSibling Node.depth (y :: m') = c :: l') (hm : c.inMemory = true) :
    r'.nextSiblingOf y.offset = some c.offset := by
  have hs := hr.wellFormed.sorted
  rcases h.nextSibling_old hs hy hc with ⟨rfl, hlast⟩ | ⟨m, l, hym, hold⟩
  · rcases he.edge with ⟨hnil, -⟩ | ⟨z, hz, -, hsibling⟩
    · obtain ⟨a, ha, -⟩ := hlast
      rw [hnil] at ha
      exact absurd (List.suffix_nil.1 ha) (List.cons_ne_nil _ _)
    · rw [hsibling, hlast.unique hz, Function.update_self]
  · have hedge := hr.siblingEdges y m c l hym hold hm
    rcases he.edge with ⟨-, -, hsibling⟩ | ⟨z, hz, -, hsibling⟩
    · rw [hsibling, hedge]
    · rw [hsibling, Function.update_of_ne, hedge]
      -- The last child had no sibling.
      intro heq
      obtain ⟨m'', hm'', hnew⟩ := h.lastChild_place hz
      have hyz : y = z := by
        have hzmem : z ∈ pre ++ x :: (w ++ n :: rest) := mem_of_suffix hm''
        exact (h.sorted hs).eq_of_key_eq (mem_of_suffix hy) hzmem heq
      subst hyz
      rw [(h.sorted hs).suffix_unique hy hm'' rfl, hnew] at hc
      obtain rfl := (List.cons.inj hc).1
      exact (h.sorted hs).new_not_mem (mem_of_suffix (nextSibling_suffix_of hym hold))

/-- **The root knows the tree with the new DIE.** -/
theorem Consistent.insert (hr : Consistent (pre ++ x :: (w ++ rest)) r) (h : Fits pre x w n rest)
    (he : Entered x w n cuOffset r r')
    (hu : ∃ u ∈ pre ++ x :: (w ++ n :: rest), u.offset = cuOffset ∧ u.depth = 1) :
    Consistent (pre ++ x :: (w ++ n :: rest)) r' where
  wellFormed := h.wellFormed hr.wellFormed
  serves lib hdbg := h.serves hr (hr.serves lib (he.dbg.symm.trans hdbg))
  noFile hdbg y hy h0 := by
    rcases mem_insert.1 hy with rfl | hy
    · exact h.inMemory
    · exact hr.noFile (he.dbg.symm.trans hdbg) y hy h0
  context := he.context hr.context
  memoryLive y hy hm := by
    rw [he.liveDies]
    rcases mem_insert.1 hy with rfl | hy
    · obtain ⟨u, hu, rfl, hd⟩ := hu
      exact ⟨u, hu, Function.update_self .., hd⟩
    · obtain ⟨u, hu, hlive, hd⟩ := hr.memoryLive y hy hm
      rw [Function.update_of_ne (h.offset_ne hy)]
      exact ⟨u, mem_insert.2 (.inr hu), hlive, hd⟩
  live off d hd := by
    rw [he.liveDies] at hd
    by_cases hoff : off = n.offset
    · refine ⟨n, mem_insert.2 (.inl rfl), hoff.symm, ?_, fun hfile => ?_⟩
      · have := h.above x (by simp)
        omega
      · rw [h.inMemory] at hfile
        exact absurd hfile (by decide)
    · rw [Function.update_of_ne hoff] at hd
      obtain ⟨y, hy, hyoff, h0, hfile⟩ := hr.live off d hd
      exact ⟨y, mem_insert.2 (.inr hy), hyoff, h0, hfile⟩
  parents c p hc hp := by
    rw [he.parentOf] at hp
    by_cases hcn : c = n.offset
    · subst hcn
      rw [Function.update_self] at hp
      obtain rfl := Option.some.inj hp
      exact ⟨x, n, h.insertion.isParent_new, rfl, rfl⟩
    · rw [Function.update_of_ne hcn] at hp
      obtain ⟨y, z, hyz, hyp, hzc⟩ := hr.parents c p hc hp
      exact ⟨y, z, isParent_insert hyz h.insertion, hyp, hzc⟩
  children := h.children hr he
  siblings := h.siblings hr he
  childEdges := h.childEdges hr he
  siblingEdges := h.siblingEdges hr he

end Insert

end Dies
end Dwarfpp
