/-
# The local of a frame that has an address

`subprogram_die::spans_addr_in_frame_locals_or_args` of `src/dies.cpp` goes breadth-first
through the DIEs below a subprogram, to find the local or argument that has an address.
Its iterator casts what it is at to a `with_dynamic_location_die&`, which throws at
every other DIE, a lexical block too.  And the loop asks for the depth of an iterator
that may have come to the end, which fails an assertion.

So nothing is never the answer where the subprogram has a child, and the right local is found
just if no DIE of another kind comes before one that has the address
(`findsLocal_iff`).
-/

import Dwarfpp.Dies.DynamicLocation
import Dwarfpp.Dies.StaticLocation
import Dwarfpp.Dies.Topology
import Dwarfpp.Lib.Descent
import Dwarfpp.Lib.LevelOrder

namespace Dwarfpp
namespace Dies

open Lib Dwarfpp.Expr Dwarfpp.Frame
open Lib.Preorder hiding firstChild nextSibling

/-- `DW_TAG_formal_parameter`. -/
def dwTagFormalParameter : ℕ := 0x05

/-- `DW_TAG_lexical_block`. -/
def dwTagLexicalBlock : ℕ := 0x0b

/-- `DW_TAG_member`. -/
def dwTagMember : ℕ := 0x0d

/-- `DW_TAG_inheritance`. -/
def dwTagInheritance : ℕ := 0x1c

/-- The class for the tag has an object-based location. -/
def HasObjectBasedLocation (tag : ℕ) : Prop := tag = dwTagMember ∨ tag = dwTagInheritance

/-- The class for the tag is a `with_dynamic_location_die`. -/
def IsWithDynamicLocation (tag : ℕ) : Prop :=
  tag = dwTagFormalParameter ∨ tag = dwTagVariable ∨ HasObjectBasedLocation tag

instance (tag : ℕ) : Decidable (HasObjectBasedLocation tag) := inferInstanceAs (Decidable (_ ∨ _))

instance (tag : ℕ) : Decidable (IsWithDynamicLocation tag) := inferInstanceAs (Decidable (_ ∨ _))

/-- What is read of a DIE with a dynamic location: if it has a `DW_AT_type`, what
`calculate_byte_size` of the type answers. -/
structure LocatedDie extends WithDynamicLocationDie where
  byteSize : Option (Option (BitVec 64))

/-- What is read besides the tree: the `DW_AT_frame_base` of the subprogram, the `DW_AT_low_pc` of
CUs, the DIEs with dynamic locations, and what the rewriting of their locations goes by. -/
structure FrameInfo where
  frameBase : Option (List LocExpr)
  lowPc : ℕ → Option (BitVec 64)
  dies : ℕ → LocatedDie
  table : FdeTable
  dijkstra : RegisterGraph → ℤ → ℤ → Option ℤ
  steps : ℕ

/-- What is asked for: the address, and where the program is. -/
structure FrameQuery where
  absoluteAddr : BitVec 64
  dieSetRelativeIp : BitVec 64
  regs : Option (ℤ → BitVec 64)

namespace LocatedDie

variable (d : LocatedDie) (info : FrameInfo) (q : FrameQuery)

/-- The offset of the address in what lies at `baseAddr`. -/
def offsetFrom (baseAddr : BitVec 64) : Except Fault (Option (BitVec 64)) :=
  match d.byteSize with
  | none => throw .assertFailed
  | some none => throw .undefinedBehaviour
  | some (some size) =>
    if baseAddr ≤ q.absoluteAddr ∧ q.absoluteAddr < baseAddr + size then
      return some (q.absoluteAddr - baseAddr)
    else return none

/-- `spans_stack_addr`. -/
def spansStackAddr (frameBaseAddr : BitVec 64) : Except Fault (Option (BitVec 64)) :=
  if d.location = none then return none
  else do
    let baseAddr ← d.calculateAddrOnStack info.table info.dijkstra info.steps frameBaseAddr
      q.dieSetRelativeIp q.regs
    d.offsetFrom q baseAddr

/-- `spans_addr_in_object`. -/
def spansAddrInObject (objectBaseAddr : BitVec 64) : Except Fault (Option (BitVec 64)) := do
  let baseAddr ← d.calculateAddrInObject objectBaseAddr q.dieSetRelativeIp q.regs
  d.offsetFrom q baseAddr

/-- `spans_addr` of a DIE with the tag. -/
def spansAddr (tag : ℕ) (instantiatingInstanceAddr : BitVec 64) :
    Except Fault (Option (BitVec 64)) :=
  if HasObjectBasedLocation tag then d.spansAddrInObject q instantiatingInstanceAddr
  else d.spansStackAddr info q instantiatingInstanceAddr

end LocatedDie

/-- How the search ends: with an offset in what an iterator is at, with nothing, or with the
`std::bad_cast` of the iterator. -/
inductive FrameAnswer
  | found (offset : BitVec 64) (it : Iterator)
  | nothing
  | badCast

section Model

variable (fuel : ℕ) (info : FrameInfo) (q : FrameQuery)

/-- The address that the frame base evaluates to, relative to the CU. -/
def frameBaseAddr (frameBase : List LocExpr) (lowPc : BitVec 64) : Except Fault (BitVec 64) := do
  assert (lowPc ≤ q.dieSetRelativeIp)
  let evaluator ← loclistEvaluator ⟨q.regs, none⟩ frameBase (q.dieSetRelativeIp - lowPc) []
  evaluator.tos

/-- The loop.  Its increment is that of `iterator_bf`: the one that `frame_subobject_iterator` declares
is no override.  A payload that is made by dereferencing goes with the iterator, and no move asks
whether the DIE that it is from is live. -/
def searchFrame (frameBaseAddr : BitVec 64) (initialDepth : ℕ) :
    ℕ → Option Iterator × List Iterator → RootM FrameAnswer
  | 0, _ => throw .outOfSteps
  | _ + 1, (none, _) => throw .assertFailed
  | n + 1, (some it, queue) => do
    let it ← withDepth fuel it
    if it.depth.any (initialDepth ≤ ·) then
      let r ← get
      let tag := r.tagHere it.offset
      if IsWithDynamicLocation tag then
        match ← StateT.lift ((info.dies it.offset).spansAddr info q tag frameBaseAddr) with
        | some offset => return .found offset it
        | none =>
          let next ← bfIncrement it queue
          searchFrame frameBaseAddr initialDepth n next
      else return .badCast
    else return .nothing

/-- What is done from the first child on, if there is one. -/
def searchFromChild (frameBaseAddr : BitVec 64) : Option Iterator → RootM FrameAnswer
  | none => return .nothing
  | some child => do
    let startIter ← withDepth fuel child
    searchFrame fuel info q frameBaseAddr (startIter.depth.getD 0) fuel (some startIter, [])

/-- `spans_addr_in_frame_locals_or_args` of the subprogram at `off`. -/
def spansAddrInFrameLocalsOrArgs (off : ℕ) : RootM FrameAnswer := do
  let frameBase ← StateT.lift (WithDynamicLocationDie.getLoclist info.frameBase)
  let r ← get
  let enclosingCu ← pos (r.enclosingCuOffset off) (some 1) none none
  match info.lowPc enclosingCu.offset with
  | none => throw .undefinedBehaviour
  | some lowPc =>
    let frameBaseAddr ← StateT.lift (frameBaseAddr q frameBase lowPc)
    let child ← firstChild ⟨off, none, true⟩
    searchFromChild fuel info q frameBaseAddr child

end Model

section Spec

variable (t : List Node) (x : Node) (info : FrameInfo) (q : FrameQuery) (base : BitVec 64)

/-- What `spans_addr` of a DIE answers. -/
def FrameInfo.spans (z : Node) : Except Fault (Option (BitVec 64)) :=
  (info.dies z.offset).spansAddr info q z.tag base

/-- The DIE has a dynamic location and lies below `x`, behind such DIEs and lexical blocks only. -/
def Considered (z : Node) : Prop :=
  IsWithDynamicLocation z.tag ∧
    ReachedThrough Node.depth t
      (fun y => IsWithDynamicLocation y.tag ∨ y.tag = dwTagLexicalBlock) x z

/-- The right answer: the first of the DIEs considered that has the address, with the offset, or
nothing where none has it. -/
def RightAnswer : FrameAnswer → Prop
  | .found offset it => ∃ z, Considered t x z ∧ it.offset = z.offset ∧
      info.spans q base z = .ok (some offset) ∧
        ∀ y, Considered t x y → Before Node.depth Node.offset y z → info.spans q base y = .ok none
  | .nothing => ∀ z, Considered t x z → info.spans q base z = .ok none
  | .badCast => False

/-- The search below `x` returns, with the right answer. -/
def FindsLocal (fuel : ℕ) (r : Root) : Prop :=
  ∃ ans r', spansAddrInFrameLocalsOrArgs fuel info q x.offset r = .ok (ans, r') ∧
    RightAnswer t x info q base ans

/-- The search ends at the DIE. -/
def stops (z : Node) : Bool :=
  if IsWithDynamicLocation z.tag then
    match info.spans q base z with
    | .ok none => false
    | _ => true
  else true

/-- How a search ends that ends at a DIE, or at none. -/
def EndsAt (run : Except Fault (FrameAnswer × Root)) : Option Node → Prop
  | none => run = .error .assertFailed
  | some z =>
    if IsWithDynamicLocation z.tag then
      match info.spans q base z with
      | .ok (some offset) => ∃ it r', run = .ok (.found offset it, r') ∧ it.offset = z.offset
      | .ok none => False
      | .error e => run = .error e
    else ∃ r', run = .ok (.badCast, r')

end Spec

variable {t : List Node} {r : Root} {x : Node} {l : List Node} {fuel n : ℕ} {info : FrameInfo}
  {q : FrameQuery} {base : BitVec 64}

section Search

theorem stops_eq_false {z : Node} : stops info q base z = false ↔
    IsWithDynamicLocation z.tag ∧ info.spans q base z = .ok none := by
  unfold stops
  split_ifs with htag
  · split <;> simp_all
  · simp [htag]

/-- A round of the loop at a DIE that is not above the first. -/
theorem searchFrame_succ {it : Iterator} {d e : ℕ} (hd : it.depth = some e) (hle : d ≤ e)
    (queue : List Iterator) :
    searchFrame fuel info q base d (n + 1) (some it, queue) r =
      if IsWithDynamicLocation (r.tagHere it.offset) then
        match (info.dies it.offset).spansAddr info q (r.tagHere it.offset) base with
        | .error fault => .error fault
        | .ok (some offset) => .ok (.found offset it, r)
        | .ok none => (bfIncrement it queue >>= searchFrame fuel info q base d n) r
      else .ok (.badCast, r) := by
  rw [searchFrame, leavesKnown_withDepth it (by rw [hd]; rfl), pure_bind,
    if_pos (by rw [hd]; exact decide_eq_true hle)]
  change (if IsWithDynamicLocation (r.tagHere it.offset) then _ else _ : RootM FrameAnswer) r = _
  split_ifs
  · cases hspans : (info.dies it.offset).spansAddr info q (r.tagHere it.offset) base with
    | error fault => rfl
    | ok offset => cases offset <;> rfl
  · rfl

/-- **The search ends at the first DIE that its frontier visits and that it stops at.** -/
theorem searchFrame_endsAt (h : Consistent t r) {f : List (List Node)}
    (hf : Frontier Node.depth Node.offset t f) {res : Option Iterator × List Iterator}
    (hat : FrontAt res f) (hknown : ParentsKnown r f) (hn : weight Node.depth f < n) {d : ℕ}
    (hbelow : ∀ z, Covers Node.depth f z → d ≤ z.depth ∧ z.offset ≠ 0) :
    EndsAt info q base (searchFrame fuel info q base d n res r)
      ((visits Node.depth n f).find? (stops info q base)) := by
  induction n generalizing r f res with
  | zero => exact absurd hn (Nat.not_lt_zero _)
  | succ n ih =>
    obtain ⟨pos, queue⟩ := res
    cases f with
    | nil =>
      obtain rfl : pos = none := hat
      exact rfl
    | cons s q₀ =>
      obtain ⟨⟨it, hpos, hit⟩, hq⟩ := hat
      obtain rfl : pos = some it := hpos
      obtain ⟨x, l, rfl, hoff, hdepth⟩ := id hit
      have hx := (hf.place _ List.mem_cons_self).2
      have hsteps := h.wellFormed.steps.suffix hx
      have hweight := weight_advance (q := q₀) hsteps
      obtain ⟨hle, h0⟩ := hbelow x ⟨x :: l, List.mem_cons_self, List.mem_cons_self⟩
      rw [searchFrame_succ hdepth hle, hoff, h.tagHere (mem_of_suffix hx) h0, visits,
        List.find?_cons]
      by_cases htag : IsWithDynamicLocation x.tag
      · rw [if_pos htag]
        cases hspans : info.spans q base x with
        | error fault =>
          have hstop : stops info q base x = true := by simp [stops, htag, hspans]
          rw [FrameInfo.spans] at hspans
          rw [hstop, hspans, EndsAt, if_pos htag, FrameInfo.spans, hspans]
        | ok offset =>
          cases offset with
          | some offset =>
            have hstop : stops info q base x = true := by simp [stops, htag, hspans]
            rw [FrameInfo.spans] at hspans
            rw [hstop, hspans, EndsAt, if_pos htag, FrameInfo.spans, hspans]
            exact ⟨it, r, rfl, hoff⟩
          | none =>
            rw [stops_eq_false.2 ⟨htag, hspans⟩]
            rw [FrameInfo.spans] at hspans
            rw [hspans]
            obtain ⟨next, r₁, hrun, hr₁, -, hnext, hknown₁⟩ :=
              bfIncrement_reaches h hx hit hq hknown
            have hf₁ := hf.advance h.wellFormed.sorted h.wellFormed.steps
            have hnextRun : (bfIncrement it queue >>= searchFrame fuel info q base d n) r =
                searchFrame fuel info q base d n next r₁ := by
              change (bfIncrement it queue r).bind _ = _
              rw [hrun]
              rfl
            dsimp only
            rw [hnextRun]
            exact ih hr₁ hf₁ hnext hknown₁ (by omega) fun z hz => hbelow z (covers_of_advance hsteps hz)
      · have hstop : stops info q base x = true := by simp [stops, htag]
        rw [if_neg htag, hstop, EndsAt, if_neg htag]
        exact ⟨r, rfl⟩

end Search

section Start

theorem Consistent.exists_parent_below (h : Consistent t r) (hx : x :: l <:+ t) :
    ∀ z ∈ subtree Node.depth (x :: l), z ≠ x → ∃ y, IsParent Node.depth t y z := by
  intro z hz hne
  have hmem := (prefix_family _).subset (subtree_subset_family hz)
  have hle := (h.wellFormed.sorted.suffix hx).key_le hmem
  refine h.exists_parent (hx.subset hmem) fun h0 => hne ?_
  exact h.wellFormed.sorted.eq_of_key_eq (hx.subset hmem) (mem_of_suffix hx) (by omega)

/-- What is below a DIE is the family of its first child. -/
theorem Consistent.mem_family_firstChild (h : Consistent t r) (hx : x :: l <:+ t) {z : Node} :
    z ∈ family Node.depth (Preorder.firstChild Node.depth (x :: l)) ↔ Below Node.depth t x z := by
  rw [below_iff h.wellFormed.sorted hx (h.exists_parent_below hx),
    subtree_eq (h.wellFormed.steps.suffix hx), List.mem_cons]
  constructor
  · intro hz
    have hl : z ∈ l := (firstChild_suffix x l).subset ((prefix_family _).subset hz)
    have hlt := List.rel_of_pairwise_cons (h.wellFormed.sorted.suffix hx) hl
    refine ⟨.inr hz, ?_⟩
    rintro rfl
    omega
  · exact fun hz => hz.1.resolve_left hz.2

variable {frameBase : List LocExpr} {lowPc : BitVec 64}

/-- **What is done before the loop.**  Without a child nothing is the answer. -/
theorem spansAddr_endsAt (h : Consistent t r) (hfuel : EnoughFuel t fuel) (hx : x :: l <:+ t)
    (h0 : x.offset ≠ 0) (hbase : info.frameBase = some frameBase)
    (hlow : info.lowPc (r.enclosingCuOffset x.offset) = some lowPc)
    (hframe : frameBaseAddr q frameBase lowPc = .ok base) :
    match Preorder.firstChild Node.depth (x :: l) with
    | [] => ∃ r', spansAddrInFrameLocalsOrArgs fuel info q x.offset r = .ok (.nothing, r')
    | y :: l' => EndsAt info q base (spansAddrInFrameLocalsOrArgs fuel info q x.offset r)
        ((visits Node.depth fuel [y :: l']).find? (stops info q base)) := by
  obtain ⟨u, hu, hcu, hdu⟩ := h.enclosingCu (mem_of_suffix hx) h0
  rw [hcu] at hlow
  obtain ⟨cu, r₁, hpos, hr₁, -, hcuoff, -⟩ := posUnit_reaches h hu hdu (.inl rfl)
  obtain ⟨res, r₂, hfirst, hr₂, -, hat, hknown⟩ :=
    firstChild_locatable hr₁ hx (show Iterator.offset ⟨x.offset, none, true⟩ = x.offset from rfl)
  have hrun : spansAddrInFrameLocalsOrArgs fuel info q x.offset r =
      searchFromChild fuel info q base res r₂ := by
    unfold spansAddrInFrameLocalsOrArgs
    rw [hbase]
    change (pos (r.enclosingCuOffset x.offset) (some 1) none none r).bind _ = _
    rw [hcu, hpos]
    change (match info.lowPc cu.offset with | none => _ | some lowPc => _ : RootM FrameAnswer) r₁ = _
    rw [hcuoff, hlow]
    change ((StateT.lift (frameBaseAddr q frameBase lowPc) : RootM (BitVec 64)) r₁).bind _ = _
    rw [hframe]
    change (firstChild ⟨x.offset, none, true⟩ r₁).bind _ = _
    rw [hfirst]
    rfl
  rw [hrun]
  cases hy : Preorder.firstChild Node.depth (x :: l) with
  | nil =>
    rw [hy] at hat
    obtain rfl : res = none := hat
    exact ⟨r₂, rfl⟩
  | cons y l' =>
    rw [hy] at hat hknown
    obtain ⟨child, rfl, hoff, hdepth, hloc⟩ := hat
    have hys := firstChild_suffix_of hx hy
    have hmem := mem_of_suffix hys
    obtain ⟨it, r₃, hwith, hr₃, hmoved, hitoff, hitdepth, -⟩ :=
      withDepth_of_locatable hr₂ hmem hoff (.inr ⟨hdepth, hloc⟩) (hfuel.2 y hmem) hfuel.1
    change EndsAt info q base ((withDepth fuel child r₂).bind _) _
    rw [hwith]
    change EndsAt info q base
      (searchFrame fuel info q base (it.depth.getD 0) fuel (some it, []) r₃) _
    rw [hitdepth]
    refine searchFrame_endsAt hr₃ (Frontier.singleton (List.cons_ne_nil _ _) hys)
      ⟨⟨it, rfl, y, l', rfl, hitoff, hitdepth⟩, .nil⟩ ?_ ?_ ?_
    · intro s hs z hz _
      rw [List.mem_singleton.1 hs] at hz
      exact hmoved.parents _ (hknown z hz)
    · rw [weight_cons, weight, List.map_nil, List.sum_nil, Nat.add_zero]
      exact ((prefix_family _).length_le.trans hys.length_le).trans_lt hfuel.1
    · rintro z ⟨s, hs, hz⟩
      rw [List.mem_singleton.1 hs] at hz
      rw [← hy] at hz
      have hlt := ((h.mem_family_firstChild hx).1 hz).key_lt h.wellFormed.sorted
      rw [hy] at hz
      exact ⟨le_depth_of_mem_family hz, Nat.ne_of_gt (Nat.zero_lt_of_lt hlt)⟩

/-- Without a `DW_AT_low_pc` of the CU the behaviour is undefined. -/
theorem spansAddr_without_lowPc (h : Consistent t r) (hx : x ∈ t) (h0 : x.offset ≠ 0)
    (hbase : info.frameBase = some frameBase)
    (hlow : info.lowPc (r.enclosingCuOffset x.offset) = none) :
    spansAddrInFrameLocalsOrArgs fuel info q x.offset r = .error .undefinedBehaviour := by
  obtain ⟨u, hu, hcu, hdu⟩ := h.enclosingCu hx h0
  rw [hcu] at hlow
  obtain ⟨cu, r₁, hpos, -, -, hcuoff, -⟩ := posUnit_reaches h hu hdu (.inl rfl)
  unfold spansAddrInFrameLocalsOrArgs
  rw [hbase]
  change (pos (r.enclosingCuOffset x.offset) (some 1) none none r).bind _ = _
  rw [hcu, hpos]
  change (match info.lowPc cu.offset with | none => _ | some lowPc => _ : RootM FrameAnswer) r₁ = _
  rw [hcuoff, hlow]
  rfl

/-- Of two DIEs of a tree one comes first in level order. -/
theorem before_or_before (h : Consistent t r) {y z : Node} (hy : y ∈ t) (hz : z ∈ t) (hne : y ≠ z) :
    Before Node.depth Node.offset y z ∨ Before Node.depth Node.offset z y := by
  have hoff : y.offset ≠ z.offset := fun heq =>
    hne (h.wellFormed.sorted.eq_of_key_eq hy hz heq)
  unfold Before
  omega

/-- A DIE that the search stops at is one that it considers, if it has a dynamic location. -/
theorem considered_of_first (h : Consistent t r) (hx : x :: l <:+ t) {z : Node}
    (hz : Below Node.depth t x z) (htag : IsWithDynamicLocation z.tag)
    (hbefore : ∀ y, Below Node.depth t x y → Before Node.depth Node.offset y z →
      IsWithDynamicLocation y.tag) : Considered t x z := by
  have hiff := fun y => below_iff (z := y) h.wellFormed.sorted hx (h.exists_parent_below hx)
  refine ⟨htag, ?_⟩
  refine reachedThrough_of_shallower h.wellFormed.sorted hx (h.exists_parent_below hx)
    ((hiff z).1 hz).1 ((hiff z).1 hz).2 fun y hy hne hlt => .inl ?_
  exact hbefore y ((hiff y).2 ⟨hy, hne⟩) (.inl hlt)

/-- **Below a subprogram with a child** the search is right just if it stops at a DIE that has the
address. -/
theorem findsLocal_iff_of_child (h : Consistent t r) (hfuel : EnoughFuel t fuel) (hx : x :: l <:+ t)
    {y : Node} {l' : List Node} (hy : Preorder.firstChild Node.depth (x :: l) = y :: l')
    (hdefined : ∀ z, Considered t x z → ∃ answer, info.spans q base z = .ok answer)
    (hend : EndsAt info q base (spansAddrInFrameLocalsOrArgs fuel info q x.offset r)
      ((visits Node.depth fuel [y :: l']).find? (stops info q base))) :
    FindsLocal t x info q base fuel r ↔ ∃ z offset, Below Node.depth t x z ∧
      IsWithDynamicLocation z.tag ∧ info.spans q base z = .ok (some offset) ∧
      ∀ w, Below Node.depth t x w → Before Node.depth Node.offset w z →
        IsWithDynamicLocation w.tag := by
  have hys := firstChild_suffix_of hx hy
  have hfamily : ∀ {z}, z ∈ family Node.depth (y :: l') ↔ Below Node.depth t x z := by
    intro z
    rw [← hy]
    exact h.mem_family_firstChild hx
  have hmem : ∀ {z}, Below Node.depth t x z → z ∈ t := fun hz =>
    hys.subset ((prefix_family _).subset (hfamily.2 hz))
  have horder : LevelOrder Node.depth (family Node.depth (y :: l'))
      (visits Node.depth fuel [y :: l']) :=
    visits_levelOrder (h.wellFormed.steps.suffix hys)
      (fun z hz => h.wellFormed.levels z (hmem (hfamily.1 hz)))
      (((prefix_family _).length_le.trans hys.length_le).trans_lt hfuel.1)
  have hsorted : Sorted Node.offset (family Node.depth (y :: l')) :=
    List.Pairwise.sublist (prefix_family _).sublist (h.wellFormed.sorted.suffix hys)
  constructor
  · rintro ⟨ans, r', hrun, hright⟩
    cases hfind : (visits Node.depth fuel [y :: l']).find? (stops info q base) with
    | none =>
      rw [hfind] at hend
      exact nomatch hrun.symm.trans hend
    | some z =>
      obtain ⟨hz, -, hbefore⟩ := (horder.find?_eq_some_iff hsorted).1 hfind
      rw [hfind, EndsAt] at hend
      by_cases htag : IsWithDynamicLocation z.tag
      · rw [if_pos htag] at hend
        cases hspans : info.spans q base z with
        | error e =>
          rw [hspans] at hend
          exact nomatch hrun.symm.trans hend
        | ok offset =>
          rw [hspans] at hend
          cases offset with
          | none => exact hend.elim
          | some offset =>
            refine ⟨z, offset, hfamily.1 hz, htag, hspans, fun w hw hwz => ?_⟩
            exact (stops_eq_false.1 (hbefore w (hfamily.2 hw) hwz)).1
      · rw [if_neg htag] at hend
        obtain ⟨r₁, hcast⟩ := hend
        obtain ⟨rfl, -⟩ := Prod.mk.inj (Except.ok.inj (hrun.symm.trans hcast))
        exact hright.elim
  · rintro ⟨z, offset, hz, htag, hspans, hbefore⟩
    have hstop : stops info q base z = true := by simp [stops, htag, hspans]
    obtain ⟨w, hfind⟩ := Option.isSome_iff_exists.1
      (List.find?_isSome.2 ⟨z, horder.perm.symm.subset (hfamily.2 hz), hstop⟩ :
        ((visits Node.depth fuel [y :: l']).find? (stops info q base)).isSome = true)
    obtain ⟨hw, hwstop, hwbefore⟩ := (horder.find?_eq_some_iff hsorted).1 hfind
    have hwbelow := hfamily.1 hw
    have hnot : ¬Before Node.depth Node.offset z w := fun hzw => by
      have hgo := hwbefore z (hfamily.2 hz) hzw
      rw [hstop] at hgo
      exact nomatch hgo
    -- The search stops at `z` or before it, so at a DIE with a dynamic location.
    have hwtag : IsWithDynamicLocation w.tag := by
      by_cases heq : w = z
      · rwa [heq]
      · exact hbefore w hwbelow ((before_or_before h (hmem hwbelow) (hmem hz) heq).resolve_right hnot)
    have hconsidered : Considered t x w := considered_of_first h hx hwbelow hwtag fun v hv hvw =>
      (stops_eq_false.1 (hwbefore v (hfamily.2 hv) hvw)).1
    obtain ⟨answer, hanswer⟩ := hdefined w hconsidered
    rw [hfind, EndsAt, if_pos hwtag, hanswer] at hend
    cases answer with
    | none => exact hend.elim
    | some found =>
      obtain ⟨it, r', hrun, hoff⟩ := hend
      refine ⟨_, r', hrun, w, hconsidered, hoff, hanswer, fun v hv hvw => ?_⟩
      exact (stops_eq_false.1 (hwbefore v (hfamily.2 hv.2.isBelow) hvw)).2

end Start

section Examples

/-- The answers about a file with a unit at 11, a subprogram at 20 and its only local at 30. -/
def frameFile : Libdwarf where
  child off := if off = 11 then some 20 else if off = 20 then some 30 else none
  siblingof _ := none
  offdie off := off = 11 ∨ off = 20 ∨ off = 30
  tag off := if off = 11 then dwTagCompileUnit else if off = 20 then dwTagSubprogram else dwTagVariable
  cuDieoffset _ := 11
  cuHeaders := [.version4 4 11 100]

/-- The subprogram. -/
def frameSubprogram : Node := ⟨20, 2, dwTagSubprogram, false⟩

/-- Its local. -/
def frameLocal : Node := ⟨30, 3, dwTagVariable, false⟩

/-- The tree of the file. -/
def frameTree : List Node :=
  [rootNode, ⟨11, 1, dwTagCompileUnit, false⟩, frameSubprogram, frameLocal]

/-- A new root for the file. -/
def frameRoot : Root := Root.make (some frameFile) (fun _ => OrderedMap.empty) false

theorem suffix_frameTree {x : Node} {l : List Node} (h : x :: l <:+ frameTree) :
    x :: l = frameTree ∨
      x :: l = [⟨11, 1, dwTagCompileUnit, false⟩, frameSubprogram, frameLocal] ∨
      x :: l = [frameSubprogram, frameLocal] ∨ x :: l = [frameLocal] := by
  unfold frameTree at h ⊢
  simpa [List.suffix_cons_iff] using h

theorem wellFormed_frameTree : WellFormed frameTree where
  rooted := ⟨_, rfl, by decide⟩
  steps := by simp [frameTree, rootNode, frameSubprogram, frameLocal, Steps]
  sorted := by simp [frameTree, rootNode, frameSubprogram, frameLocal, Sorted]
  units := by decide
  levels := by decide
  memoryChild x l y l' hx _ hm := by
    have hfile : ∀ z ∈ frameTree, z.inMemory = false := by decide
    cases hm.symm.trans (hfile x (mem_of_suffix hx))
  memorySibling x l y l' hx _ hm := by
    have hfile : ∀ z ∈ frameTree, z.inMemory = false := by decide
    cases hm.symm.trans (hfile x (mem_of_suffix hx))

theorem serves_frameFile : Serves frameFile frameTree where
  child x l hx _ h0 := by
    rcases suffix_frameTree hx with h | h | h | h <;> obtain ⟨rfl, rfl⟩ := List.cons.inj h
    · exact absurd rfl h0
    · rfl
    · rfl
    · rfl
  siblingof x l hx _ hd := by
    rcases suffix_frameTree hx with h | h | h | h <;> obtain ⟨rfl, rfl⟩ := List.cons.inj h
    · exact absurd hd (by decide)
    · exact absurd hd (by decide)
    · rfl
    · rfl
  offdie off := by
    simp only [frameFile, frameTree, rootNode, frameSubprogram, frameLocal, decide_eq_true_eq,
      List.mem_cons, List.not_mem_nil, or_false, exists_eq_or_imp, exists_eq_left, true_and]
    omega
  tag := by decide
  cuDieoffset x y hpar _ hd := by
    have hx : x.depth = 1 := by
      obtain ⟨-, -, -, -, hxd, -⟩ := hpar
      omega
    have hall : ∀ z ∈ frameTree, z.depth = 1 → z.offset = 11 := by decide
    exact (hall x (isParent_mem hpar).1 hx).symm
  unitOf x _ _ _ := ⟨⟨11, 1, dwTagCompileUnit, false⟩, by decide, rfl, rfl⟩
  units := ⟨rfl, rfl, by simp⟩
  firstUnit := by simp [frameFile, CompileUnit.version4]
  allUnits := by decide

theorem consistent_frameRoot : Consistent frameTree frameRoot :=
  consistent_make wellFormed_frameTree (by rintro lib ⟨⟩; exact serves_frameFile) (by decide)
    (by simp) _ _

/-- What is read of the file: the local lies 16 bytes below a fixed frame base if it has a location. -/
def frameInfo (located : Bool) : FrameInfo where
  frameBase := some [⟨[DwOp.constu.instr 0x7fff0000], 0, 0⟩]
  lowPc _ := some 0x1000
  dies _ :=
    { frameVariable with
      location := if located then frameVariable.location else none, byteSize := some (some 8) }
  table := exampleTable
  dijkstra := RegisterGraph.predecessor
  steps := 7

/-- An address in the local. -/
def frameQuery : FrameQuery := ⟨0x7ffefff4, 0x1004, none⟩

theorem eq_frameLocal_of_below {z : Node} (hz : Below Node.depth frameTree frameSubprogram z) :
    z = frameLocal := by
  have hlt := hz.key_lt wellFormed_frameTree.sorted
  have hmem : z ∈ frameTree := by
    cases hz with
    | child hz => exact (isParent_mem hz).2
    | step _ _ hz => exact (isParent_mem hz).2
  have hall : ∀ z ∈ frameTree, frameSubprogram.offset < z.offset → z = frameLocal := by decide
  exact hall z hmem hlt

/-- For every subprogram with a frame base the search is right, wherever that and the locations to be
considered can be evaluated. -/
def AlwaysFindsLocal : Prop :=
  ∀ (t : List Node) (r : Root) (fuel : ℕ) (x : Node) (info : FrameInfo) (q : FrameQuery)
    (base : BitVec 64) (frameBase : List LocExpr), Consistent t r → EnoughFuel t fuel → x ∈ t →
      x.tag = dwTagSubprogram → x.offset ≠ 0 → info.frameBase = some frameBase →
      frameBaseAddr q frameBase ((info.lowPc (r.enclosingCuOffset x.offset)).getD 0) = .ok base →
      (∀ z, Considered t x z → ∃ answer, info.spans q base z = .ok answer) →
        FindsLocal t x info q base fuel r

end Examples

end Dies
end Dwarfpp
