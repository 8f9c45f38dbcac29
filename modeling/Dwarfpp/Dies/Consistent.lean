/-
# What a root knows of its tree

The tree a root stands for, in pre-order, and the invariant that ties the root to
it (`Consistent`): libdwarf answers for the DIEs of the file, and the caches hold
edges of the tree, among them every edge to a DIE in memory, which libdwarf
cannot tell.  A cached edge is to a DIE whose parent is cached too.

Every operation that moves about the tree keeps the invariant and forgets no
parent (`Moved`).
-/

import Dwarfpp.Dies.Root
import Dwarfpp.Lib.BreadthFirst
import Dwarfpp.Lib.Returns

namespace Dwarfpp
namespace Dies

open Lib
open Lib.Preorder hiding firstChild nextSibling

/-- A DIE of the tree. -/
structure Node where
  offset : ℕ
  depth : ℕ
  tag : ℕ
  inMemory : Bool
  deriving DecidableEq, Repr

/-- The root position. -/
def rootNode : Node := ⟨0, 0, 0, false⟩

/-- The first DIE of a list, if it is one of the file's. -/
def fileOffset : List Node → Option ℕ
  | [] => none
  | x :: _ => if x.inMemory then none else some x.offset

/-- A tree as a root may hold: the offsets increase in pre-order, the top-level DIEs are the compile
units, depths are 16-bit numbers, and what comes below or beside a DIE in memory is in memory. -/
structure WellFormed (t : List Node) : Prop where
  rooted : ∃ l, t = rootNode :: l ∧ ∀ x ∈ l, 0 < x.depth
  steps : Steps Node.depth t
  sorted : Sorted Node.offset t
  units : ∀ x ∈ t, x.tag = dwTagCompileUnit ↔ x.depth = 1
  levels : ∀ x ∈ t, x.depth < 2 ^ 16
  memoryChild : ∀ x l y l', x :: l <:+ t → Preorder.firstChild Node.depth (x :: l) = y :: l' →
    x.inMemory = true → y.inMemory = true
  memorySibling : ∀ x l y l', x :: l <:+ t → Preorder.nextSibling Node.depth (x :: l) = y :: l' →
    x.inMemory = true → y.inMemory = true

/-- The headers are those of the units of the file from the first of `s` on.  A unit's DIE lies 11
bytes behind its header, as in 32-bit DWARF. -/
def UnitChain : List Node → List CompileUnit → Prop
  | s, [] => fileOffset s = none
  | s, cu :: cus => fileOffset s = some cu.die ∧ UnitChain (Preorder.nextSibling Node.depth s) cus ∧
      ∀ cu' ∈ cus.head?, cu'.die = cu.nextCuHeader + 11

/-- libdwarf answers for the DIEs of the file. -/
structure Serves (lib : Libdwarf) (t : List Node) : Prop where
  child : ∀ x l, x :: l <:+ t → x.inMemory = false → x.offset ≠ 0 →
    lib.child x.offset = fileOffset (Preorder.firstChild Node.depth (x :: l))
  siblingof : ∀ x l, x :: l <:+ t → x.inMemory = false → 1 < x.depth →
    lib.siblingof x.offset = fileOffset (Preorder.nextSibling Node.depth (x :: l))
  offdie : ∀ off, lib.offdie off = true ↔
    ∃ x ∈ t, x.offset = off ∧ x.inMemory = false ∧ off ≠ 0
  tag : ∀ x ∈ t, x.inMemory = false → x.offset ≠ 0 → lib.tag x.offset = x.tag
  cuDieoffset : ∀ x y, IsParent Node.depth t x y → y.inMemory = false → y.depth = 2 →
    lib.cuDieoffset y.offset = x.offset
  unitOf : ∀ x ∈ t, x.inMemory = false → x.offset ≠ 0 →
    ∃ u ∈ t, u.offset = lib.cuDieoffset x.offset ∧ u.depth = 1
  units : UnitChain (Preorder.firstChild Node.depth t) lib.cuHeaders
  firstUnit : ∀ cu ∈ lib.cuHeaders.head?, cu.die = 11
  allUnits : ∀ x ∈ t, x.inMemory = false → x.depth = 1 → ∃ cu ∈ lib.cuHeaders, cu.die = x.offset

/-- Where a root stands among the headers: at none, with all to come, or at one of them. -/
def ContextIsSane (r : Root) : Prop :=
  match r.dbg with
  | none => r.currentCuOffset = 0
  | some lib =>
    (r.currentCuOffset = 0 ∧ r.upcomingCus = lib.cuHeaders ∧ r.lastSeen = LastSeen.unset) ∨
      ∃ pre cu, lib.cuHeaders = pre ++ cu :: r.upcomingCus ∧ r.cuContext = some cu ∧
        r.currentCuOffset = cu.die ∧ r.firstCuOffset = some 11 ∧
        r.lastSeen = LastSeen.ofUnit cu

/-- **The root knows the tree `t`.** -/
structure Consistent (t : List Node) (r : Root) : Prop where
  wellFormed : WellFormed t
  serves : ∀ lib, r.dbg = some lib → Serves lib t
  noFile : r.dbg = none → ∀ x ∈ t, x.offset ≠ 0 → x.inMemory = true
  context : ContextIsSane r
  memoryLive : ∀ x ∈ t, x.inMemory = true →
    ∃ u ∈ t, r.liveDies x.offset = some (.inMemory u.offset x.tag) ∧ u.depth = 1
  live : ∀ off d, r.liveDies off = some d →
    ∃ x ∈ t, x.offset = off ∧ off ≠ 0 ∧ (x.inMemory = false → d = .ofFile)
  parents : ∀ c p, c ≠ 0 → r.parentOf c = some p →
    ∃ x y, IsParent Node.depth t x y ∧ x.offset = p ∧ y.offset = c
  children : ∀ p c, r.firstChildOf p = some c → (r.parentOf c).isSome = true ∧
    ∃ x l y l', x :: l <:+ t ∧ Preorder.firstChild Node.depth (x :: l) = y :: l' ∧ x.offset = p ∧
      y.offset = c
  siblings : ∀ a b, r.nextSiblingOf a = some b → (r.parentOf b).isSome = true ∧
    ∃ x l y l', x :: l <:+ t ∧ Preorder.nextSibling Node.depth (x :: l) = y :: l' ∧ x.offset = a ∧
      y.offset = b
  childEdges : ∀ x l y l', x :: l <:+ t → Preorder.firstChild Node.depth (x :: l) = y :: l' →
    y.inMemory = true → r.firstChildOf x.offset = some y.offset
  siblingEdges : ∀ x l y l', x :: l <:+ t → Preorder.nextSibling Node.depth (x :: l) = y :: l' →
    y.inMemory = true → r.nextSiblingOf x.offset = some y.offset

/-- A new root knows the DIEs of its file. -/
theorem consistent_make {t : List Node} {dbg : Option Libdwarf} (hw : WellFormed t)
    (hserves : ∀ lib, dbg = some lib → Serves lib t)
    (hfile : ∀ x ∈ t, x.inMemory = false) (hempty : dbg = none → t = [rootNode])
    (attrs : ℕ → AttributeMap) (complete : Bool) : Consistent t (Root.make dbg attrs complete) where
  wellFormed := hw
  serves := hserves
  noFile hnone x hx h0 := by
    rw [hempty hnone, List.mem_singleton] at hx
    rw [hx] at h0
    exact absurd rfl h0
  context := by
    cases dbg with
    | none => rfl
    | some lib => exact .inl ⟨rfl, rfl, rfl⟩
  memoryLive x hx hm := by
    rw [hfile x hx] at hm
    exact absurd hm (by decide)
  live off d hd := absurd hd (by simp [Root.make])
  parents c p _ hp := absurd hp (by simp [Root.make])
  children p c hc := absurd hc (by simp [Root.make])
  siblings a b hb := absurd hb (by simp [Root.make])
  childEdges x l y l' hx hy hm := by
    have hmem : y ∈ t := (((firstChild_suffix x l).trans (List.suffix_cons x l)).trans hx).subset
      (by rw [hy]; exact List.mem_cons_self)
    rw [hfile y hmem] at hm
    exact absurd hm (by decide)
  siblingEdges x l y l' hx hy hm := by
    have hmem : y ∈ t := (((nextSibling_suffix x l).trans (List.suffix_cons x l)).trans hx).subset
      (by rw [hy]; exact List.mem_cons_self)
    rw [hfile y hmem] at hm
    exact absurd hm (by decide)

/-- What moving about the tree leaves as it is, or adds to. -/
structure Moved (r r' : Root) : Prop where
  dbg : r'.dbg = r.dbg
  tables : r'.tables = r.tables
  parents : ∀ c, (r.parentOf c).isSome = true → (r'.parentOf c).isSome = true
  siblings : ∀ c, (r.nextSiblingOf c).isSome = true → (r'.nextSiblingOf c).isSome = true
  live : ∀ off, (r.liveDies off).isSome = true → (r'.liveDies off).isSome = true

instance : Std.Refl Moved := ⟨fun _ => ⟨rfl, rfl, fun _ h => h, fun _ h => h, fun _ h => h⟩⟩

instance : IsTrans Root Moved :=
  ⟨fun _ _ _ h h' => ⟨h'.dbg.trans h.dbg, h'.tables.trans h.tables,
    fun c hc => h'.parents c (h.parents c hc), fun c hc => h'.siblings c (h.siblings c hc),
    fun off hoff => h'.live off (h.live off hoff)⟩⟩

/-- From `r`, which knows `t`, the computation returns and ends in a root that knows `t`. -/
abbrev Reaches (t : List Node) {α : Type} (x : RootM α) (r : Root) (post : α → Root → Prop) : Prop :=
  StateReturns (Consistent t) Moved x r post

/-- The same, unless `c` holds and it fails. -/
abbrev ReachesUnless (t : List Node) (c : Prop) {α : Type} (x : RootM α) (r : Root)
    (post : α → Root → Prop) : Prop :=
  StateReturnsUnless (Consistent t) Moved c x r post

section Tree

variable {t : List Node}

theorem fileOffset_eq_some {s : List Node} {off : ℕ} :
    fileOffset s = some off ↔ ∃ x l, s = x :: l ∧ x.inMemory = false ∧ x.offset = off := by
  cases s with
  | nil => simp [fileOffset]
  | cons x l => cases hx : x.inMemory <;> simp [fileOffset, hx]

theorem fileOffset_eq_none {s : List Node} :
    fileOffset s = none ↔ ∀ x l, s = x :: l → x.inMemory = true := by
  cases s with
  | nil => simp [fileOffset]
  | cons x l => cases hx : x.inMemory <;> simp [fileOffset, hx]

theorem WellFormed.depth_pos (h : WellFormed t) {x : Node} (hx : x ∈ t) :
    x = rootNode ∨ 0 < x.depth := by
  obtain ⟨l, rfl, hl⟩ := h.rooted
  exact (List.mem_cons.1 hx).imp id (hl x)

theorem WellFormed.root_mem (h : WellFormed t) : rootNode ∈ t := by
  obtain ⟨l, rfl, -⟩ := h.rooted
  exact List.mem_cons_self

theorem WellFormed.eq_root_iff (h : WellFormed t) {x : Node} (hx : x ∈ t) :
    x.offset = 0 ↔ x = rootNode := by
  constructor
  · intro h0
    exact h.sorted.eq_of_key_eq hx h.root_mem h0
  · rintro rfl
    rfl

theorem WellFormed.depth_eq_zero_iff (h : WellFormed t) {x : Node} (hx : x ∈ t) :
    x.depth = 0 ↔ x.offset = 0 := by
  rw [h.eq_root_iff hx]
  constructor
  · intro h0
    rcases h.depth_pos hx with hr | hpos
    · exact hr
    · omega
  · rintro rfl
    rfl

/-- The top-level DIEs are the children of the root position. -/
theorem WellFormed.isParent_root (h : WellFormed t) {x : Node} (hx : x ∈ t) (hd : x.depth = 1) :
    IsParent Node.depth t rootNode x := by
  obtain ⟨l, rfl, hl⟩ := h.rooted
  rcases List.mem_cons.1 hx with rfl | hx
  · exact absurd hd (by decide)
  · obtain ⟨mid, r, rfl⟩ := List.append_of_mem hx
    exact ⟨[], mid, r, rfl, hd, fun m hm => hl m (List.mem_append_left _ hm)⟩

theorem WellFormed.toUShort_depth (h : WellFormed t) {x : Node} (hx : x ∈ t) :
    toUShort x.depth = x.depth := Nat.mod_eq_of_lt (h.levels x hx)

theorem mem_of_suffix {x : Node} {l : List Node} (h : x :: l <:+ t) : x ∈ t :=
  h.subset List.mem_cons_self

theorem exists_suffix_of_mem {x : Node} (h : x ∈ t) : ∃ l, x :: l <:+ t := by
  obtain ⟨l, r, rfl⟩ := List.append_of_mem h
  exact ⟨r, List.suffix_append _ _⟩

theorem isParent_mem {x y : Node} (h : IsParent Node.depth t x y) : x ∈ t ∧ y ∈ t := by
  obtain ⟨l, mid, r, rfl, -, -⟩ := h
  exact ⟨by simp, by simp⟩

theorem nextSibling_suffix_of {x y : Node} {l l' : List Node} (hx : x :: l <:+ t)
    (h : Preorder.nextSibling Node.depth (x :: l) = y :: l') : y :: l' <:+ t := by
  rw [← h]
  exact ((nextSibling_suffix x l).trans (List.suffix_cons x l)).trans hx

theorem firstChild_suffix_of {x y : Node} {l l' : List Node} (hx : x :: l <:+ t)
    (h : Preorder.firstChild Node.depth (x :: l) = y :: l') : y :: l' <:+ t := by
  rw [← h]
  exact ((firstChild_suffix x l).trans (List.suffix_cons x l)).trans hx

/-- A node and its next sibling have the same parents. -/
theorem isParent_of_nextSibling (h : Sorted Node.offset t) {p x y : Node} {l l' : List Node}
    (hx : x :: l <:+ t) (hp : IsParent Node.depth t p x)
    (hy : Preorder.nextSibling Node.depth (x :: l) = y :: l') : IsParent Node.depth t p y := by
  obtain ⟨l₀, mid, r, rfl, hd, hmid⟩ := hp
  have hr : x :: l = x :: r := by
    refine h.suffix_unique hx ⟨l₀ ++ p :: mid, ?_⟩ rfl
    rw [List.append_assoc, List.cons_append]
  obtain ⟨-, rfl⟩ := List.cons.inj hr
  exact isParent_nextSibling hd hmid hy

/-- The units that libdwarf has headers of are the file's. -/
theorem UnitChain.mem {s : List Node} {cus : List CompileUnit} (h : UnitChain s cus)
    (hs : s = [] ∨ s <:+ t) (hd : ∀ x ∈ s.head?, x.depth = 1) {cu : CompileUnit} (hcu : cu ∈ cus) :
    ∃ x ∈ t, x.offset = cu.die ∧ x.inMemory = false ∧ x.depth = 1 := by
  induction cus generalizing s with
  | nil => exact absurd hcu (by simp)
  | cons c cus ih =>
    obtain ⟨hfirst, hrest, -⟩ := h
    obtain ⟨x, l, rfl, hfile, hoff⟩ := fileOffset_eq_some.1 hfirst
    have hx : x :: l <:+ t := hs.resolve_left (List.cons_ne_nil _ _)
    have hdx : x.depth = 1 := hd x rfl
    rcases List.mem_cons.1 hcu with rfl | hcu
    · exact ⟨x, mem_of_suffix hx, hoff, hfile, hdx⟩
    · refine ih hrest ?_ ?_ hcu
      · cases hn : Preorder.nextSibling Node.depth (x :: l) with
        | nil => exact .inl rfl
        | cons y l' => exact .inr (nextSibling_suffix_of hx hn)
      · intro y hy
        cases hn : Preorder.nextSibling Node.depth (x :: l) with
        | nil =>
          rw [hn] at hy
          exact absurd hy (by simp)
        | cons z l' =>
          rw [hn] at hy
          obtain rfl : z = y := by simpa using hy
          rw [(nextSibling_eq_cons.1 hn).2, hdx]

/-- The unit behind one of the file's is the one of the next header. -/
theorem UnitChain.next (hsorted : Sorted Node.offset t) {s : List Node} {pre rest : List CompileUnit}
    {cu : CompileUnit} (h : UnitChain s (pre ++ cu :: rest)) (hs : s = [] ∨ s <:+ t) {x : Node}
    {l : List Node} (hx : x :: l <:+ t) (hoff : x.offset = cu.die) :
    UnitChain (Preorder.nextSibling Node.depth (x :: l)) rest ∧
      ∀ cu' ∈ rest.head?, cu'.die = cu.nextCuHeader + 11 := by
  induction pre generalizing s with
  | nil =>
    obtain ⟨hfirst, hrest, hnext⟩ := h
    obtain ⟨y, l', rfl, -, hoff'⟩ := fileOffset_eq_some.1 hfirst
    rw [← hsorted.suffix_unique (hs.resolve_left (List.cons_ne_nil _ _)) hx (hoff'.trans hoff.symm)]
    exact ⟨hrest, hnext⟩
  | cons c pre ih =>
    obtain ⟨hfirst, hrest, -⟩ := h
    obtain ⟨y, l', rfl, -, -⟩ := fileOffset_eq_some.1 hfirst
    refine ih hrest ?_
    cases hn : Preorder.nextSibling Node.depth (y :: l') with
    | nil => exact .inl rfl
    | cons z m => exact .inr (nextSibling_suffix_of (hs.resolve_left (List.cons_ne_nil _ _)) hn)

end Tree

end Dies
end Dwarfpp
