/-
# The addresses of a DIE with a static location

`with_static_location_die::file_relative_intervals` and its `spans_addr`, with
`compile_unit_die::normalize_rangelist` and `variable_die::has_static_storage`
(`src/dies.cpp`).  The interval map is Boost's.

A range of the map has as its value the offset of its end, "where *within the
object's contiguous internal address space* the key's *end* address is positioned".
These values grow, so ranges that touch are not joined, and what `spans_addr` finds
is one range of the list (`insertRanges_values`).  For a plain list of ranges in any
order the offsets are those of the ranges laid out one behind the other
(`spansAddr_laysOut`), except that a variable without static storage has none.
-/

import Dwarfpp.Expr.LocForVaddr
import Dwarfpp.Expr.Pieces
import Dwarfpp.Lib.JoiningMap
import Dwarfpp.Lib.Layout

namespace Dwarfpp
namespace Dies

open Lib Dwarfpp.Expr
open Layout (Has Separate total endOf offset)

/-- `dwr_type`. -/
inductive RangeType
  | rangesEntry | rangesAddressSelection | rangesEnd
  deriving DecidableEq, Repr

/-- `Dwarf_Ranges`. -/
structure DwarfRange where
  dwrAddr1 : BitVec 64
  dwrAddr2 : BitVec 64
  dwrType : RangeType
  deriving DecidableEq, Repr

/-- `normalize_rangelist`. -/
def normalizeRangelist : List DwarfRange → Except Fault (List DwarfRange)
  | [] => .ok []
  | i :: rest =>
    match i.dwrType with
    | .rangesEntry => do
      let retval ← normalizeRangelist rest
      return i :: retval
    | .rangesAddressSelection => .error .assertFailed
    | .rangesEnd => do
      assert (i.dwrAddr1 = 0)
      assert (rest = [])
      return [i]

/-- `DW_AT_high_pc`, by its form. -/
inductive HighPc
  | addr (hipc : BitVec 64)
  | unsigned (n : BitVec 64)
  | other
  deriving DecidableEq, Repr

/-- `sym_binding_t`. -/
structure SymBinding where
  fileRelativeStartAddr : BitVec 64
  size : BitVec 64
  deriving DecidableEq, Repr

/-- A `with_static_location_die`: its tag and the attributes that are looked at.  Of `DW_AT_type`
it is what `calculate_byte_size` says of the type. -/
structure WithStaticLocationDie where
  tag : ℕ
  lowPc : Option (BitVec 64)
  highPc : Option HighPc
  ranges : Option (List DwarfRange)
  location : Option (List LocExpr)
  linkageName : Option String
  byteSize : Option (BitVec 64)
  typeByteSize : Option (Option (BitVec 64))
  deriving DecidableEq, Repr

/-- `DW_TAG_variable`. -/
def dwTagVariable : ℕ := 0x34

/-- `DW_TAG_subprogram`. -/
def dwTagSubprogram : ℕ := 0x2e

/-- `op_reads_register(op)`. -/
def opReadsRegister (op : BitVec 8) : Prop :=
  (DwOp.breg 0).atom ≤ op ∧ op ≤ (DwOp.breg 31).atom ∨ op = DwOp.bregx.atom

/-- `op_names_register(op)`. -/
def opNamesRegister (op : BitVec 8) : Prop :=
  (DwOp.reg 0).atom ≤ op ∧ op ≤ (DwOp.reg 31).atom ∨ op = DwOp.regx.atom

/-- What `has_static_storage` takes for a sign of no static storage. -/
def impliesNonStatic (op : BitVec 8) : Prop :=
  op = DwOp.stackValue.atom ∨ opReadsRegister op ∨ opNamesRegister op ∨ op = DwOp.fbreg.atom ∨
    op = DwOp.callFrameCfa.atom

instance : DecidablePred opReadsRegister := fun _ => inferInstanceAs (Decidable (_ ∨ _))

instance : DecidablePred opNamesRegister := fun _ => inferInstanceAs (Decidable (_ ∨ _))

instance : DecidablePred impliesNonStatic := fun _ => inferInstanceAs (Decidable (_ ∨ _))

namespace WithStaticLocationDie

variable (boost : JoiningMap (BitVec 64)) (d : WithStaticLocationDie)

/-- `has_static_storage()`. -/
def hasStaticStorage : Bool :=
  match d.location with
  | none => true
  | some loclist => loclist ≠ [] ∧ ∀ e ∈ loclist, ∀ i ∈ e.instrs, ¬impliesNonStatic i.lrAtom

/-- The loop over the ranges, with `cumulative_bytes_seen`. -/
def insertRanges : List DwarfRange → BitVec 64 → boost.Map → Except Fault boost.Map
  | [], _, retval => .ok retval
  | r :: rest, cumulativeBytesSeen, retval =>
    if r.dwrAddr1 = r.dwrAddr2 then insertRanges rest cumulativeBytesSeen retval
    else do
      let cumulativeBytesSeen := cumulativeBytesSeen + (r.dwrAddr2 - r.dwrAddr1)
      let retval := boost.insert retval r.dwrAddr1.toNat r.dwrAddr2.toNat cumulativeBytesSeen
      assert (boost.findInterval retval r.dwrAddr1.toNat r.dwrAddr2.toNat)
      assert (r.dwrAddr1 < r.dwrAddr2)
      insertRanges rest cumulativeBytesSeen retval

/-- The "sanity check: assert that the first interval is included". -/
def FirstIncluded (retval : boost.Map) (rangelist : List DwarfRange) : Prop :=
  ∀ r ∈ rangelist.head?, r.dwrAddr1 = r.dwrAddr2 ∨
    boost.findInterval retval r.dwrAddr1.toNat r.dwrAddr2.toNat

instance (retval : boost.Map) (rangelist : List DwarfRange) :
    Decidable (FirstIncluded boost retval rangelist) :=
  inferInstanceAs (Decidable (∀ _ ∈ _, _ ∨ _))

/-- The intervals of `DW_AT_ranges`. -/
def rangesIntervals (foundRanges : List DwarfRange) : Except Fault boost.Map := do
  let rangelist ← normalizeRangelist foundRanges
  let retval ← insertRanges boost rangelist 0 boost.empty
  assert (FirstIncluded boost retval rangelist)
  return retval

/-- The interval from one address to another, with its length. -/
def pcIntervals (lopc hipc : BitVec 64) : boost.Map :=
  boost.insert boost.empty lopc.toNat hipc.toNat (hipc - lopc)

/-- The loop over the pieces of a location, with `current_offset_within_object` where it comes to
the end: at an operation that is not supported it stops. -/
def insertPieces (byteSize : BitVec 64) (single : Prop) [Decidable single] :
    List (List ExprInstr × BitVec 64) → BitVec 64 → boost.Map →
      Except Fault (boost.Map × Option (BitVec 64))
  | [], offsetWithinObject, retval => .ok (retval, some offsetWithinObject)
  | i :: rest, offsetWithinObject, retval =>
    match (do let e ← evaluator ⟨none, none⟩ i.1 []; e.tos) with
    | .error .notSupported => .ok (retval, none)
    | .error e => .error e
    | .ok pieceStart =>
      -- "the size of the piece will be unreliable (possibly zero)"
      let pieceSize := if single ∧ i.2 = 0 then byteSize else i.2
      insertPieces byteSize single rest (offsetWithinObject + pieceSize)
        (boost.insert retval pieceStart.toNat (pieceStart + pieceSize).toNat
          (offsetWithinObject + pieceSize))

/-- The size of the object: `DW_AT_byte_size`, or what its type says. -/
def optByteSize : Except Fault (Option (BitVec 64)) :=
  match d.byteSize with
  | some n => .ok (some n)
  | none => do
    assert (d.tag ≠ dwTagSubprogram)
    return d.typeByteSize.join

/-- The intervals of `DW_AT_location`. -/
def locationIntervals (loclist : List LocExpr) : Except Fault boost.Map := do
  match ← d.optByteSize with
  | none => return boost.empty
  | some byteSize =>
    if byteSize = 0 then return boost.empty
    else match (do let e ← locForVaddr 0 loclist; bytePieces e.instrs) with
      | .error .noEntry => return boost.empty
      | .error e => throw e
      | .ok exprPieces => do
        let (retval, offsetWithinObject) ←
          insertPieces boost byteSize (exprPieces.length = 1) exprPieces 0 boost.empty
        match offsetWithinObject with
        | none => return retval
        | some n => do
          assert (n = byteSize)
          return retval

/-- The intervals of a symbol that is looked up, by a function that finds it or throws
`No_entry`. -/
def symbolIntervals (symResolve : Option (String → Option SymBinding)) : boost.Map :=
  match symResolve, d.linkageName with
  | some resolve, some linkageName =>
    match resolve linkageName with
    | some binding =>
      boost.insert boost.empty binding.fileRelativeStartAddr.toNat
        (binding.fileRelativeStartAddr + binding.size).toNat binding.size
    | none => boost.empty
  | _, _ => boost.empty

/-- `file_relative_intervals`. -/
def fileRelativeIntervals (symResolve : Option (String → Option SymBinding)) :
    Except Fault boost.Map :=
  if d.tag = dwTagVariable ∧ ¬d.hasStaticStorage then .ok boost.empty
  else match d.ranges with
    | some foundRanges => rangesIntervals boost foundRanges
    | none =>
      match d.lowPc, d.highPc with
      | some lopc, some (.addr hipc) =>
        if lopc < hipc then .ok (pcIntervals boost lopc hipc)
        else do
          assert (hipc = lopc)
          return boost.empty
      | some lopc, some (.unsigned n) =>
        .ok (if 0 < lopc + n then pcIntervals boost lopc (lopc + n) else boost.empty)
      | _, _ =>
        match d.location with
        | some loclist => d.locationIntervals boost loclist
        | none => .ok (d.symbolIntervals boost symResolve)

/-- `spans_addr`. -/
def spansAddr (symResolve : Option (String → Option SymBinding))
    (fileRelativeAddress : BitVec 64) : Except Fault (Option (BitVec 64)) := do
  let intervals ← d.fileRelativeIntervals boost symResolve
  match boost.find intervals fileRelativeAddress.toNat with
  | none => return none
  | some found => do
    assert (found.lower ≤ fileRelativeAddress.toNat)
    assert (fileRelativeAddress.toNat < found.upper)
    return some (found.value - BitVec.ofNat 64 (found.upper - found.lower) +
      BitVec.ofNat 64 (fileRelativeAddress.toNat - found.lower))

end WithStaticLocationDie

/-- The addresses of a range, as numbers. -/
def DwarfRange.span (r : DwarfRange) : ℕ × ℕ := (r.dwrAddr1.toNat, r.dwrAddr2.toNat)

/-- The address is in the range. -/
def DwarfRange.Has (r : DwarfRange) (a : BitVec 64) : Prop := r.dwrAddr1 ≤ a ∧ a < r.dwrAddr2

instance (r : DwarfRange) (a : BitVec 64) : Decidable (r.Has a) :=
  inferInstanceAs (Decidable (_ ∧ _))

/-- A range list without base selections: what ends it stands last, no range ends before it begins,
and no two share an address. -/
structure PlainRanges (l : List DwarfRange) : Prop where
  noSelection : ∀ r ∈ l, r.dwrType ≠ .rangesAddressSelection
  endLast : ∀ r ∈ l.dropLast, r.dwrType ≠ .rangesEnd
  endZero : ∀ r ∈ l, r.dwrType = .rangesEnd → r.dwrAddr1 = 0 ∧ r.dwrAddr2 = 0
  ordered : ∀ r ∈ l, r.dwrAddr1 ≤ r.dwrAddr2
  separate : l.Pairwise fun r s => ∀ a, r.Has a → ¬s.Has a

/-- The length of a range. -/
def DwarfRange.length (r : DwarfRange) : ℕ := r.dwrAddr2.toNat - r.dwrAddr1.toNat

/-- Addresses are mapped one to one onto the offsets below the sum of the lengths: those of the
ranges and no others, each range behind those before it in the list. -/
structure LaysOut (l : List DwarfRange) (spans : BitVec 64 → Except Fault (Option (BitVec 64))) :
    Prop where
  returns : ∀ a, ∃ off, spans a = .ok off
  defined : ∀ a, (∃ off, spans a = .ok (some off)) ↔ ∃ r ∈ l, r.Has a
  injective : ∀ a b off, spans a = .ok (some off) → spans b = .ok (some off) → a = b
  image : ∀ off : BitVec 64,
    (∃ a, spans a = .ok (some off)) ↔ off.toNat < (l.map DwarfRange.length).sum
  inOrder : ∀ (k : ℕ) (hk : k < l.length) (a : BitVec 64), l[k].Has a →
    ∃ off, spans a = .ok (some off) ∧ off.toNat =
      ((l.take k).map DwarfRange.length).sum + (a.toNat - l[k].dwrAddr1.toNat)

section Ranges

variable {l : List DwarfRange} {r : DwarfRange} {a : BitVec 64}

theorem DwarfRange.has_iff : r.Has a ↔ Layout.Has r.span a.toNat := Iff.rfl

/-- Ranges one of which ends before the other, or is empty, share no address. -/
theorem DwarfRange.not_has_of_le {s : DwarfRange} (h : r.dwrAddr2 ≤ s.dwrAddr1 ∨
    s.dwrAddr2 ≤ r.dwrAddr1 ∨ s.dwrAddr2 ≤ s.dwrAddr1 ∨ r.dwrAddr2 ≤ r.dwrAddr1)
    (a : BitVec 64) (hr : r.Has a) : ¬s.Has a := by
  rintro ⟨hlo, hhi⟩
  obtain ⟨hlo', hhi'⟩ := hr
  simp only [BitVec.le_def, BitVec.lt_def] at *
  omega

theorem total_spans (l : List DwarfRange) :
    total (l.map DwarfRange.span) = (l.map DwarfRange.length).sum := by
  rw [total, List.map_map]
  rfl

/-- A number in the span of a range is an address in it. -/
theorem DwarfRange.exists_address {x : ℕ} (hx : Layout.Has r.span x) :
    ∃ a : BitVec 64, a.toNat = x ∧ r.Has a := by
  have hnat : (BitVec.ofNat 64 x).toNat = x := by
    rw [BitVec.toNat_ofNat, Nat.mod_eq_of_lt (hx.2.trans r.dwrAddr2.isLt)]
  refine ⟨BitVec.ofNat 64 x, hnat, ?_⟩
  rwa [has_iff, hnat]

theorem separate_spans (h : l.Pairwise fun r s => ∀ a, r.Has a → ¬s.Has a) :
    Separate (l.map DwarfRange.span) := by
  refine List.pairwise_map.2 (h.imp fun {r s} hrs x hr hs => ?_)
  obtain ⟨a, rfl, ha⟩ := DwarfRange.exists_address hr
  exact hrs a ha hs

/-- The offsets do not overflow. -/
theorem total_spans_lt (h : Separate (l.map DwarfRange.span)) :
    total (l.map DwarfRange.span) < 2 ^ 64 := by
  have hle : total (l.map DwarfRange.span) ≤ 2 ^ 64 - 1 := by
    refine Layout.total_le h fun p hp => ?_
    obtain ⟨r, -, rfl⟩ := List.mem_map.1 hp
    exact Nat.le_sub_one_of_lt r.dwrAddr2.isLt
  omega

theorem PlainRanges.tail (h : PlainRanges (r :: l)) : PlainRanges l where
  noSelection := (List.forall_mem_cons.1 h.noSelection).2
  endLast s hs := by
    refine h.endLast s ?_
    rw [List.dropLast_cons_of_ne_nil (List.ne_nil_of_mem (List.mem_of_mem_dropLast hs))]
    exact List.mem_cons_of_mem _ hs
  endZero := (List.forall_mem_cons.1 h.endZero).2
  ordered := (List.forall_mem_cons.1 h.ordered).2
  separate := (List.pairwise_cons.1 h.separate).2

/-- Nothing follows the end. -/
theorem PlainRanges.eq_nil_of_end (h : PlainRanges (r :: l)) (hr : r.dwrType = .rangesEnd) :
    l = [] := by
  by_contra hne
  have hlast := h.endLast
  rw [List.dropLast_cons_of_ne_nil hne] at hlast
  exact hlast r List.mem_cons_self hr

/-- **A plain list is normalized already.** -/
theorem normalizeRangelist_eq (h : PlainRanges l) : normalizeRangelist l = .ok l := by
  induction l with
  | nil => rfl
  | cons r l ih =>
    rw [normalizeRangelist]
    cases htype : r.dwrType with
    | rangesEntry => rw [ih h.tail]; rfl
    | rangesAddressSelection => exact absurd htype (h.noSelection r List.mem_cons_self)
    | rangesEnd =>
      have hnil := h.eq_nil_of_end htype
      rw [assert_ok (h.endZero r List.mem_cons_self htype).1, ok_bind, assert_ok hnil, hnil]
      rfl

end Ranges

section Intervals

variable {boost : JoiningMap (BitVec 64)} {l : List DwarfRange} {r : DwarfRange}

/-- The values of the map are the offsets of the ends. -/
def HoldsEnds (boost : JoiningMap (BitVec 64)) (m : boost.Map) (l : List DwarfRange) : Prop :=
  ∀ x, boost.values m x = (endOf 0 (l.map DwarfRange.span) x).map (BitVec.ofNat 64)

/-- **Each range is a stretch of the map**, with the offset of its end. -/
theorem HoldsEnds.level {m : boost.Map} (h : HoldsEnds boost m l)
    (hsep : Separate (l.map DwarfRange.span)) {x : ℕ} (hr : r ∈ l) (hx : Has r.span x) :
    ∃ v, (∀ y, boost.values m y = some (BitVec.ofNat 64 v) ↔ Has r.span y) ∧
      Layout.size r.span ≤ v ∧
      offset (l.map DwarfRange.span) x = some (v - Layout.size r.span + (x - r.span.1)) := by
  obtain ⟨v, hv, hlevel, hle, hoffset⟩ :=
    Layout.endOf_of_mem 0 hsep (List.mem_map_of_mem hr) hx
  refine ⟨v, fun y => ?_, by omega, hoffset⟩
  rw [h, ← hlevel]
  constructor
  · intro hy
    obtain ⟨w, hw, heq⟩ := Option.map_eq_some_iff.1 hy
    have hlt := total_spans_lt hsep
    have hvle := (Layout.lt_endOf hv).2
    have hwle := (Layout.lt_endOf hw).2
    have hnat := congrArg BitVec.toNat heq
    rw [BitVec.toNat_ofNat, BitVec.toNat_ofNat, Nat.mod_eq_of_lt (by omega),
      Nat.mod_eq_of_lt (by omega)] at hnat
    rw [hw, hnat]
  · intro hy
    rw [hy, Option.map_some]

theorem HoldsEnds.findInterval {m : boost.Map} (h : HoldsEnds boost m l)
    (hsep : Separate (l.map DwarfRange.span)) (hr : r ∈ l) (hlt : r.dwrAddr1 < r.dwrAddr2) :
    boost.findInterval m r.dwrAddr1.toNat r.dwrAddr2.toNat = true := by
  obtain ⟨v, hlevel, -⟩ := h.level hsep hr (x := r.dwrAddr1.toNat) ⟨Nat.le_refl _, hlt⟩
  exact boost.findInterval_of_level (s := ⟨_, _, BitVec.ofNat 64 v⟩) hlevel hlt

theorem total_concat (l : List DwarfRange) (r : DwarfRange) :
    total ((l ++ [r]).map DwarfRange.span) = total (l.map DwarfRange.span) + Layout.size r.span := by
  rw [List.map_append, Layout.total_append]
  rfl

/-- `cumulative_bytes_seen` is the total of the ranges seen. -/
theorem ofNat_total_concat (l : List DwarfRange) (hle : r.dwrAddr1 ≤ r.dwrAddr2) :
    BitVec.ofNat 64 (total (l.map DwarfRange.span)) + (r.dwrAddr2 - r.dwrAddr1) =
      BitVec.ofNat 64 (total ((l ++ [r]).map DwarfRange.span)) := by
  have hsize : (r.dwrAddr2 - r.dwrAddr1).toNat = Layout.size r.span := BitVec.toNat_sub_of_le hle
  rw [total_concat, BitVec.ofNat_add, ← hsize, BitVec.ofNat_toNat, BitVec.setWidth_eq]

/-- What one range adds. -/
theorem HoldsEnds.insert {m : boost.Map} (h : HoldsEnds boost m l)
    (hsep : Separate ((l ++ [r]).map DwarfRange.span)) (hlt : r.dwrAddr1 < r.dwrAddr2) :
    HoldsEnds boost (boost.insert m r.dwrAddr1.toNat r.dwrAddr2.toNat
      (BitVec.ofNat 64 (total ((l ++ [r]).map DwarfRange.span)))) (l ++ [r]) := by
  have htotal := total_spans_lt hsep
  have hpos : 0 < Layout.size r.span := Nat.sub_pos_of_lt hlt
  rw [total_concat] at htotal ⊢
  have hne : BitVec.ofNat 64 (total (l.map DwarfRange.span) + Layout.size r.span) ≠ 0 := by
    intro hzero
    have hnat := congrArg BitVec.toNat hzero
    rw [BitVec.toNat_ofNat, Nat.mod_eq_of_lt htotal] at hnat
    exact absurd hnat (Nat.ne_of_gt (Nat.add_pos_right _ hpos))
  intro x
  rw [boost.values_insert, h x, List.map_append, List.map_singleton, Layout.endOf_concat,
    Nat.zero_add]
  by_cases hx : Has r.span x
  · rw [if_pos ⟨hx.1, hx.2, hne⟩, if_pos hx]
    cases endOf 0 (l.map DwarfRange.span) x <;> rfl
  · rw [if_neg fun hx' => hx ⟨hx'.1, hx'.2.1⟩, if_neg hx, Option.or_none, Option.or_none]

/-- A range without addresses adds nothing. -/
theorem HoldsEnds.concat_empty {m : boost.Map} (h : HoldsEnds boost m l)
    (heq : r.dwrAddr1 = r.dwrAddr2) : HoldsEnds boost m (l ++ [r]) := by
  have hnot : ∀ x, ¬Has r.span x := by
    intro x hx
    have hlt := Nat.lt_of_le_of_lt hx.1 hx.2
    rw [DwarfRange.span, heq] at hlt
    exact Nat.lt_irrefl _ hlt
  intro x
  rw [h x, List.map_append, List.map_singleton, Layout.endOf_concat, if_neg (hnot x),
    Option.or_none]

/-- **The loop puts the ranges in one after the other**, and its assertions hold. -/
theorem insertRanges_values (done : List DwarfRange) (hordered : ∀ r ∈ l, r.dwrAddr1 ≤ r.dwrAddr2)
    (hsep : Separate ((done ++ l).map DwarfRange.span)) {m : boost.Map}
    (h : HoldsEnds boost m done) :
    ∃ m', WithStaticLocationDie.insertRanges boost l
        (BitVec.ofNat 64 (total (done.map DwarfRange.span))) m = .ok m' ∧
      HoldsEnds boost m' (done ++ l) := by
  induction l generalizing done m with
  | nil =>
    rw [List.append_nil]
    exact ⟨m, rfl, h⟩
  | cons r l ih =>
    rw [List.forall_mem_cons] at hordered
    have hassoc : done ++ r :: l = (done ++ [r]) ++ l := by rw [List.append_assoc]; rfl
    rw [hassoc] at hsep ⊢
    have hprefix : Separate ((done ++ [r]).map DwarfRange.span) := by
      rw [List.map_append] at hsep
      exact (List.pairwise_append.1 hsep).1
    rw [WithStaticLocationDie.insertRanges]
    by_cases heq : r.dwrAddr1 = r.dwrAddr2
    · have hsize : Layout.size r.span = 0 := by
        rw [DwarfRange.span, heq, Layout.size, Nat.sub_self]
      have hrun := ih (done ++ [r]) hordered.2 hsep (h.concat_empty heq)
      rw [total_concat, hsize, Nat.add_zero] at hrun
      rwa [if_pos heq]
    · have hlt : r.dwrAddr1 < r.dwrAddr2 :=
        Nat.lt_of_le_of_ne hordered.1 fun hnat => heq (BitVec.eq_of_toNat_eq hnat)
      have hinsert := h.insert hprefix hlt
      have hfind := hinsert.findInterval hprefix
        (List.mem_append_right _ (List.mem_singleton_self r)) hlt
      rw [if_neg heq, ofNat_total_concat done hordered.1]
      dsimp only
      rw [assert_ok hfind, ok_bind, assert_ok hlt, ok_bind]
      exact ih (done ++ [r]) hordered.2 hsep hinsert

end Intervals

namespace WithStaticLocationDie

variable (boost : JoiningMap (BitVec 64)) (symResolve : Option (String → Option SymBinding))
  {d : WithStaticLocationDie} {l : List DwarfRange}

/-- A variable, and no static one. -/
def IsLocalVariable (d : WithStaticLocationDie) : Prop :=
  d.tag = dwTagVariable ∧ ¬d.hasStaticStorage

/-- **The intervals of a plain range list.** -/
theorem fileRelativeIntervals_eq (hlocal : ¬d.IsLocalVariable) (hranges : d.ranges = some l)
    (hplain : PlainRanges l) :
    ∃ m, d.fileRelativeIntervals boost symResolve = .ok m ∧ HoldsEnds boost m l := by
  have hsep := separate_spans hplain.separate
  obtain ⟨m, hm, hends⟩ := insertRanges_values [] hplain.ordered hsep fun x => boost.values_empty x
  have hfirst : FirstIncluded boost m l := by
    intro r hr
    have hmem := List.mem_of_mem_head? hr
    by_cases heq : r.dwrAddr1 = r.dwrAddr2
    · exact .inl heq
    · exact .inr (hends.findInterval hsep hmem
        (Nat.lt_of_le_of_ne (hplain.ordered r hmem) fun hnat => heq (BitVec.eq_of_toNat_eq hnat)))
  refine ⟨m, ?_, hends⟩
  have hstatic : ¬(d.tag = dwTagVariable ∧ ¬d.hasStaticStorage) := hlocal
  rw [fileRelativeIntervals, if_neg hstatic, hranges]
  show rangesIntervals boost l = _
  rw [rangesIntervals, normalizeRangelist_eq hplain, ok_bind]
  have hrun : insertRanges boost l 0 boost.empty = .ok m := hm
  rw [hrun, ok_bind, assert_ok hfirst]
  rfl

/-- **`spans_addr` gives the offset of an address in the ranges laid out one after the other.** -/
theorem spansAddr_eq (hlocal : ¬d.IsLocalVariable) (hranges : d.ranges = some l)
    (hplain : PlainRanges l) (a : BitVec 64) :
    d.spansAddr boost symResolve a =
      .ok ((offset (l.map DwarfRange.span) a.toNat).map (BitVec.ofNat 64)) := by
  have hsep := separate_spans hplain.separate
  obtain ⟨m, hm, hends⟩ := fileRelativeIntervals_eq boost symResolve hlocal hranges hplain
  rw [spansAddr, hm, ok_bind]
  rcases hoff : offset (l.map DwarfRange.span) a.toNat with _ | off
  · have hnone : boost.find m a.toNat = none := by
      rw [boost.find_eq_none_iff, hends,
        Layout.endOf_eq_none_iff.2 (Layout.offset_eq_none_iff.1 hoff)]
      rfl
    rw [hnone]
    rfl
  · obtain ⟨p, hp, hx⟩ := Layout.exists_has_of_offset hoff
    obtain ⟨r, hr, rfl⟩ := List.mem_map.1 hp
    obtain ⟨v, hlevel, hle, hoffset⟩ := hends.level hsep hr hx
    have hfind : boost.find m a.toNat = some ⟨r.span.1, r.span.2, BitVec.ofNat 64 v⟩ :=
      boost.find_of_level hlevel hx
    obtain ⟨w, rfl⟩ := Nat.exists_eq_add_of_le hle
    rw [hoff] at hoffset
    obtain rfl := Option.some.inj hoffset
    rw [hfind]
    show (do
      assert (r.span.1 ≤ a.toNat)
      assert (a.toNat < r.span.2)
      return some (BitVec.ofNat 64 (Layout.size r.span + w) - BitVec.ofNat 64 (Layout.size r.span) +
        BitVec.ofNat 64 (a.toNat - r.span.1))) = _
    rw [assert_ok hx.1, ok_bind, assert_ok hx.2, ok_bind, Nat.add_sub_cancel_left, BitVec.ofNat_add,
      BitVec.add_comm (BitVec.ofNat 64 _), BitVec.add_sub_cancel, ← BitVec.ofNat_add]
    rfl

end WithStaticLocationDie

section Laying

variable {l : List DwarfRange} {spans : BitVec 64 → Except Fault (Option (BitVec 64))}

theorem spans_eq_some_iff (hsep : Separate (l.map DwarfRange.span))
    (h : ∀ a, spans a = .ok ((offset (l.map DwarfRange.span) a.toNat).map (BitVec.ofNat 64)))
    {a off : BitVec 64} :
    spans a = .ok (some off) ↔ offset (l.map DwarfRange.span) a.toNat = some off.toNat := by
  rw [h a, Except.ok.injEq]
  constructor
  · intro hoff
    obtain ⟨y, hy, rfl⟩ := Option.map_eq_some_iff.1 hoff
    have hlt := (Layout.offset_lt hy).trans (total_spans_lt hsep)
    rw [hy, BitVec.toNat_ofNat, Nat.mod_eq_of_lt hlt]
  · intro hoff
    rw [hoff, Option.map_some, BitVec.ofNat_toNat, BitVec.setWidth_eq]

/-- The points of the ranges are addresses. -/
theorem offset_lt_size {x y : ℕ} (h : offset (l.map DwarfRange.span) x = some y) : x < 2 ^ 64 := by
  obtain ⟨p, hp, hx⟩ := Layout.exists_has_of_offset h
  obtain ⟨r, -, rfl⟩ := List.mem_map.1 hp
  exact hx.2.trans r.dwrAddr2.isLt

/-- **Offsets in the ranges laid out one after the other lay them out.** -/
theorem laysOut_of_offset (hsep : Separate (l.map DwarfRange.span))
    (h : ∀ a, spans a = .ok ((offset (l.map DwarfRange.span) a.toNat).map (BitVec.ofNat 64))) :
    LaysOut l spans where
  returns a := ⟨_, h a⟩
  defined a := by
    have hnone : offset (l.map DwarfRange.span) a.toNat = none ↔ ∀ r ∈ l, ¬r.Has a := by
      rw [Layout.offset_eq_none_iff, List.forall_mem_map]
      rfl
    constructor
    · rintro ⟨off, hoff⟩
      by_contra hout
      rw [spans_eq_some_iff hsep h, hnone.2 fun r hr hx => hout ⟨r, hr, hx⟩] at hoff
      cases hoff
    · rintro ⟨r, hr, hx⟩
      rcases hoff : offset (l.map DwarfRange.span) a.toNat with _ | off
      · exact absurd hx (hnone.1 hoff r hr)
      · refine ⟨BitVec.ofNat 64 off, ?_⟩
        rw [h a, hoff]
        rfl
  injective a b off ha hb := BitVec.eq_of_toNat_eq
    (Layout.offset_inj ((spans_eq_some_iff hsep h).1 ha) ((spans_eq_some_iff hsep h).1 hb))
  image off := by
    rw [← total_spans]
    constructor
    · rintro ⟨a, ha⟩
      exact Layout.offset_lt ((spans_eq_some_iff hsep h).1 ha)
    · intro hlt
      obtain ⟨x, hx⟩ := Layout.exists_offset hsep hlt
      refine ⟨BitVec.ofNat 64 x, (spans_eq_some_iff hsep h).2 ?_⟩
      rw [BitVec.toNat_ofNat, Nat.mod_eq_of_lt (offset_lt_size hx), hx]
  inOrder k hk a ha := by
    have hk' : k < (l.map DwarfRange.span).length := by rwa [List.length_map]
    have hoff := Layout.offset_getElem hsep hk' (x := a.toNat) (by rwa [List.getElem_map])
    have hlt := (Layout.offset_lt hoff).trans (total_spans_lt hsep)
    refine ⟨_, (h a).trans (by rw [hoff]; rfl), ?_⟩
    rw [BitVec.toNat_ofNat, Nat.mod_eq_of_lt hlt, ← List.map_take, total_spans, List.getElem_map]
    rfl

end Laying

namespace WithStaticLocationDie

/-- **`spans_addr` lays the ranges of a DIE out**, that of a variable without static storage
apart. -/
theorem spansAddr_laysOut (boost : JoiningMap (BitVec 64))
    (symResolve : Option (String → Option SymBinding)) {d : WithStaticLocationDie}
    {l : List DwarfRange} (hlocal : ¬d.IsLocalVariable) (hranges : d.ranges = some l)
    (hplain : PlainRanges l) : LaysOut l (d.spansAddr boost symResolve) :=
  laysOut_of_offset (separate_spans hplain.separate)
    (spansAddr_eq boost symResolve hlocal hranges hplain)

/-- Two ranges in descending order that touch, with an empty one between them, closed by an end. -/
def touchingRanges : List DwarfRange :=
  [⟨0x20, 0x30, .rangesEntry⟩, ⟨0x40, 0x40, .rangesEntry⟩, ⟨0x10, 0x20, .rangesEntry⟩,
    ⟨0, 0, .rangesEnd⟩]

theorem touchingRanges_plain : PlainRanges touchingRanges where
  noSelection := by decide
  endLast := by decide
  endZero := by decide
  ordered := by decide
  separate := by
    have hle : touchingRanges.Pairwise fun r s => r.dwrAddr2 ≤ s.dwrAddr1 ∨
        s.dwrAddr2 ≤ r.dwrAddr1 ∨ s.dwrAddr2 ≤ s.dwrAddr1 ∨ r.dwrAddr2 ≤ r.dwrAddr1 := by decide
    exact hle.imp DwarfRange.not_has_of_le

/-- A DIE with a range list. -/
def rangesDie (tag : ℕ) (location : Option (List LocExpr)) (ranges : List DwarfRange) :
    WithStaticLocationDie where
  tag := tag
  lowPc := none
  highPc := none
  ranges := some ranges
  location := location
  linkageName := none
  byteSize := none
  typeByteSize := none

theorem touchingRanges_laysOut : LaysOut touchingRanges
    ((rangesDie dwTagSubprogram none touchingRanges).spansAddr (pointwise (BitVec 64)) none) :=
  spansAddr_laysOut (pointwise (BitVec 64)) none (by rintro ⟨h, -⟩; exact absurd h (by decide)) rfl
    touchingRanges_plain

/-- A variable on the stack has no addresses, also where it has ranges. -/
theorem not_laysOut_localVariable :
    ¬∀ (boost : JoiningMap (BitVec 64)) (symResolve : Option (String → Option SymBinding))
      (d : WithStaticLocationDie) (l : List DwarfRange), d.ranges = some l → PlainRanges l →
        LaysOut l (d.spansAddr boost symResolve) := by
  intro hall
  have hlays := hall (pointwise (BitVec 64)) none
    (rangesDie dwTagVariable (some [⟨[DwOp.fbreg.instr 8], 0, 0⟩]) touchingRanges) _ rfl
    touchingRanges_plain
  obtain ⟨off, hoff⟩ := (hlays.defined 0x20).2 ⟨⟨0x20, 0x30, .rangesEntry⟩, by decide, by decide⟩
  have hnone : (rangesDie dwTagVariable (some [⟨[DwOp.fbreg.instr 8], 0, 0⟩])
      touchingRanges).spansAddr (pointwise (BitVec 64)) none 0x20 = .ok none := rfl
  rw [hnone] at hoff
  cases hoff

end WithStaticLocationDie

end Dies
end Dwarfpp
