/-
# Looking up an address in a range list

`rangelist::find_addr` (`src/attr.cpp`), which is to give the offset of an address
in the ranges and the index of the range that has it.  The loop goes on when it has
found the range: it counts all entries, and adds up the ranges that precede the
address wherever they are in the list.

So the index is never that of the range, and what is right is that nothing is found
where there is nothing (`findsRight_iff`).  The offset is that of `spans_addr` at
every address just if the ranges are listed in ascending order
(`findAddr_agrees_iff`).
-/

import Dwarfpp.Dies.StaticLocation

namespace Dwarfpp
namespace Dies

open Lib
open Layout (rank part offset)

/-- The loop of `find_addr`, with whether `found` was set. -/
def findAddrLoop (dieSetRelativeAddress : BitVec 64) :
    List DwarfRange → BitVec 64 → ℕ → Bool → Except Fault (BitVec 64 × ℕ × Bool)
  | [], offset, distMoved, found => .ok (offset, distMoved, found)
  | i :: rest, offset, distMoved, found =>
    match i.dwrType with
    | .rangesEntry =>
      if i.dwrAddr1 ≤ dieSetRelativeAddress ∧ dieSetRelativeAddress < i.dwrAddr2 then
        findAddrLoop dieSetRelativeAddress rest (offset + (dieSetRelativeAddress - i.dwrAddr1))
          (distMoved + 1) true
      else if i.dwrAddr2 ≤ dieSetRelativeAddress then
        findAddrLoop dieSetRelativeAddress rest (offset + (i.dwrAddr2 - i.dwrAddr1))
          (distMoved + 1) found
      else findAddrLoop dieSetRelativeAddress rest offset (distMoved + 1) found
    | .rangesAddressSelection => .error .assertFailed
    | .rangesEnd => do
      assert (i.dwrAddr1 = 0)
      assert (rest = [])
      findAddrLoop dieSetRelativeAddress rest offset (distMoved + 1) found

/-- `find_addr(dieset_relative_address)`. -/
def findAddr (l : List DwarfRange) (dieSetRelativeAddress : BitVec 64) :
    Except Fault (Option (BitVec 64 × ℕ)) := do
  let (offset, distMoved, found) ← findAddrLoop dieSetRelativeAddress l 0 0 false
  return if found then some (offset, distMoved) else none

/-- The right answer for an address: nothing where no range has it, and otherwise its offset in the
ranges as they are listed with the index of the range.  And `spans_addr` gives the same offset for
a DIE with these ranges, unless it has no static storage. -/
structure FindsRight (boost : JoiningMap (BitVec 64))
    (symResolve : Option (String → Option SymBinding)) (l : List DwarfRange) (a : BitVec 64) :
    Prop where
  nothing : findAddr l a = .ok none ↔ ∀ r ∈ l, ¬r.Has a
  place : ∀ (k : ℕ) (hk : k < l.length), l[k].Has a →
    ∃ off, findAddr l a = .ok (some (off, k)) ∧ off.toNat =
      ((l.take k).map DwarfRange.length).sum + (a.toNat - l[k].dwrAddr1.toNat)
  agrees : ∀ (d : WithStaticLocationDie) off k, ¬d.IsLocalVariable → d.ranges = some l →
    findAddr l a = .ok (some (off, k)) → d.spansAddr boost symResolve a = .ok (some off)

section Scan

variable {l : List DwarfRange} {r : DwarfRange} {a : BitVec 64}

theorem ofNat_rank_cons (r : DwarfRange) (l : List DwarfRange) (a : BitVec 64) :
    BitVec.ofNat 64 (rank ((r :: l).map DwarfRange.span) a.toNat) =
      BitVec.ofNat 64 (part r.span a.toNat) +
        BitVec.ofNat 64 (rank (l.map DwarfRange.span) a.toNat) := by
  rw [List.map_cons, Layout.rank_cons, BitVec.ofNat_add]

/-- What an entry adds is how much of its range is below the address. -/
theorem ofNat_part (hle : r.dwrAddr1 ≤ r.dwrAddr2) : BitVec.ofNat 64 (part r.span a.toNat) =
    if r.Has a then a - r.dwrAddr1 else if r.dwrAddr2 ≤ a then r.dwrAddr2 - r.dwrAddr1 else 0 := by
  split_ifs with hhas hbelow
  · rw [Layout.part_of_has (DwarfRange.has_iff.1 hhas), DwarfRange.span,
      ← BitVec.toNat_sub_of_le hhas.1, BitVec.ofNat_toNat, BitVec.setWidth_eq]
  · rw [Layout.part_of_le hbelow, Layout.size, DwarfRange.span, ← BitVec.toNat_sub_of_le hle,
      BitVec.ofNat_toNat, BitVec.setWidth_eq]
  · have hlt : a.toNat < r.span.1 := by
      by_contra hge
      refine hhas ⟨Nat.le_of_not_lt hge, ?_⟩
      exact Nat.lt_of_not_le hbelow
    rw [Layout.part_of_lt hlt]
    rfl

/-- **The loop goes to the end.**  It adds up what is below the address and counts all entries. -/
theorem findAddrLoop_eq (h : PlainRanges l) (offset : BitVec 64) (distMoved : ℕ) (found : Bool) :
    findAddrLoop a l offset distMoved found =
      .ok (offset + BitVec.ofNat 64 (rank (l.map DwarfRange.span) a.toNat), distMoved + l.length,
        found || l.any (·.Has a)) := by
  induction l generalizing offset distMoved found with
  | nil => simp [findAddrLoop]
  | cons r l ih =>
    have hpart := @ofNat_part r a (h.ordered r List.mem_cons_self)
    rw [ofNat_rank_cons, hpart, List.length_cons, List.any_cons, Nat.add_comm l.length,
      ← Nat.add_assoc, ← BitVec.add_assoc, ← Bool.or_assoc, findAddrLoop]
    cases htype : r.dwrType with
    | rangesEntry =>
      show (if r.Has a then _ else _) = _
      split_ifs with hhas hbelow
      · rw [ih h.tail]
        simp [hhas]
      · rw [ih h.tail]
        simp [hhas]
      · rw [ih h.tail]
        simp [hhas]
    | rangesAddressSelection => exact absurd htype (h.noSelection r List.mem_cons_self)
    | rangesEnd =>
      obtain ⟨hlo, hhi⟩ := h.endZero r List.mem_cons_self htype
      have hnot : ¬r.Has a := by
        rintro ⟨-, hlt⟩
        rw [hhi] at hlt
        exact Nat.not_lt_zero _ hlt
      have hbelow : r.dwrAddr2 ≤ a := by
        rw [hhi]
        exact Nat.zero_le _
      show (do
        assert (r.dwrAddr1 = 0)
        assert (l = [])
        findAddrLoop a l offset (distMoved + 1) found) = _
      rw [assert_ok hlo, ok_bind, assert_ok (h.eq_nil_of_end htype), ok_bind, ih h.tail,
        if_neg hnot, if_pos hbelow, hlo, hhi]
      simp [hnot]

/-- **So where a range has the address the index is the number of entries.** -/
theorem findAddr_eq (h : PlainRanges l) (a : BitVec 64) : findAddr l a =
    .ok (if ∃ r ∈ l, r.Has a then
      some (BitVec.ofNat 64 (rank (l.map DwarfRange.span) a.toNat), l.length) else none) := by
  rw [findAddr, findAddrLoop_eq h, ok_bind]
  simp only [Nat.zero_add, Bool.false_or, List.any_eq_true, decide_eq_true_eq]
  have hzero : 0 + BitVec.ofNat 64 (rank (l.map DwarfRange.span) a.toNat) =
      BitVec.ofNat 64 (rank (l.map DwarfRange.span) a.toNat) := BitVec.zero_add _
  rw [hzero]
  rfl

theorem findAddr_eq_none_iff (h : PlainRanges l) : findAddr l a = .ok none ↔ ∀ r ∈ l, ¬r.Has a := by
  rw [findAddr_eq h, Except.ok.injEq]
  split_ifs with hhas
  · obtain ⟨r, hr, hx⟩ := hhas
    exact iff_of_false (fun hnone => nomatch hnone) fun hall => hall r hr hx
  · exact iff_of_true rfl fun r hr hx => hhas ⟨r, hr, hx⟩

theorem findAddr_of_has (h : PlainRanges l) (hhas : ∃ r ∈ l, r.Has a) : findAddr l a =
    .ok (some (BitVec.ofNat 64 (rank (l.map DwarfRange.span) a.toNat), l.length)) := by
  rw [findAddr_eq h, if_pos hhas]

/-- **What `find_addr` gives is right just where it gives nothing.** -/
theorem findsRight_iff (boost : JoiningMap (BitVec 64))
    (symResolve : Option (String → Option SymBinding)) (h : PlainRanges l) (a : BitVec 64) :
    FindsRight boost symResolve l a ↔ ∀ r ∈ l, ¬r.Has a := by
  constructor
  · intro hright r hr hx
    obtain ⟨k, hk, rfl⟩ := List.mem_iff_getElem.1 hr
    obtain ⟨off, hfound, -⟩ := hright.place k hk hx
    rw [findAddr_of_has h ⟨_, hr, hx⟩] at hfound
    have hindex := (Prod.mk.inj (Option.some.inj (Except.ok.inj hfound))).2
    exact absurd hindex (Nat.ne_of_gt hk)
  · intro hnone
    have hfound := (findAddr_eq_none_iff h).2 hnone
    refine ⟨iff_of_true hfound hnone, fun k hk hx => ?_, fun d off k _ _ hsome => ?_⟩
    · exact absurd hx (hnone _ (List.getElem_mem hk))
    · rw [hfound] at hsome
      cases hsome

/-- Below the lowest of them no range has an address. -/
theorem touchingRanges_findsRight :
    PlainRanges WithStaticLocationDie.touchingRanges ∧
      (FindsRight (pointwise (BitVec 64)) none WithStaticLocationDie.touchingRanges 0xf ↔
        ∀ r ∈ WithStaticLocationDie.touchingRanges, ¬r.Has 0xf) :=
  ⟨WithStaticLocationDie.touchingRanges_plain,
    findsRight_iff _ _ WithStaticLocationDie.touchingRanges_plain 0xf⟩

/-- In a list of one range its first address is at offset 0 of entry 0, and not of entry 1. -/
theorem not_findsRight_oneRange :
    ¬∀ (boost : JoiningMap (BitVec 64)) (symResolve : Option (String → Option SymBinding))
      (l : List DwarfRange) (a : BitVec 64), PlainRanges l → FindsRight boost symResolve l a := by
  intro hall
  have hplain : PlainRanges [⟨0x10, 0x20, .rangesEntry⟩] :=
    ⟨by decide, by decide, by decide, by decide, List.pairwise_singleton _ _⟩
  obtain ⟨off, hfound, -⟩ := (hall (pointwise (BitVec 64)) none _ 0x10 hplain).place 0
    Nat.zero_lt_one (by decide)
  have hone : findAddr [⟨0x10, 0x20, .rangesEntry⟩] 0x10 = .ok (some (0, 1)) := rfl
  rw [hone] at hfound
  cases hfound

/-- The addresses of each range are below those of the ranges behind it. -/
def AscendingRanges (l : List DwarfRange) : Prop :=
  l.Pairwise fun r s => ∀ a b, r.Has a → s.Has b → a < b

theorem ascendingRanges_iff :
    AscendingRanges l ↔ Layout.Ascending (l.map DwarfRange.span) := by
  rw [AscendingRanges, Layout.Ascending, List.pairwise_map]
  refine List.Pairwise.iff fun r s => ⟨fun h x y hx hy => ?_, fun h a b ha hb => ?_⟩
  · obtain ⟨a, rfl, ha⟩ := DwarfRange.exists_address hx
    obtain ⟨b, rfl, hb⟩ := DwarfRange.exists_address hy
    exact h a b ha hb
  · exact h a.toNat b.toNat ha hb

/-- **The offset is that of `spans_addr` at every address just if the ranges ascend.** -/
theorem findAddr_agrees_iff (boost : JoiningMap (BitVec 64))
    (symResolve : Option (String → Option SymBinding)) {d : WithStaticLocationDie}
    (hlocal : ¬d.IsLocalVariable) (hranges : d.ranges = some l) (h : PlainRanges l) :
    (∀ a off k, findAddr l a = .ok (some (off, k)) →
      d.spansAddr boost symResolve a = .ok (some off)) ↔ AscendingRanges l := by
  have hsep := separate_spans h.separate
  have hspans := d.spansAddr_eq boost symResolve hlocal hranges h
  have hlt := total_spans_lt hsep
  rw [ascendingRanges_iff, ← Layout.offset_eq_rank_iff hsep]
  constructor
  · intro hagree x y hxy
    obtain ⟨p, hp, hx⟩ := Layout.exists_has_of_offset hxy
    obtain ⟨r, hr, rfl⟩ := List.mem_map.1 hp
    obtain ⟨a, rfl, ha⟩ := DwarfRange.exists_address hx
    have hoff := hagree a _ _ (findAddr_of_has h ⟨r, hr, ha⟩)
    rw [spans_eq_some_iff hsep hspans, hxy] at hoff
    have hrank := (Layout.rank_le_total (l.map DwarfRange.span) a.toNat).trans_lt hlt
    rw [Option.some.inj hoff, BitVec.toNat_ofNat, Nat.mod_eq_of_lt hrank]
  · intro hrank a off k hfound
    have hhas : ∃ r ∈ l, r.Has a := by
      by_contra hnone
      rw [(findAddr_eq_none_iff h).2 fun r hr hx => hnone ⟨r, hr, hx⟩] at hfound
      cases hfound
    rw [findAddr_of_has h hhas] at hfound
    obtain ⟨rfl, -⟩ := Prod.mk.inj (Option.some.inj (Except.ok.inj hfound))
    rcases hoff : offset (l.map DwarfRange.span) a.toNat with _ | y
    · obtain ⟨r, hr, hx⟩ := hhas
      exact absurd hx (Layout.offset_eq_none_iff.1 hoff _ (List.mem_map_of_mem hr))
    · rw [hspans, hoff, hrank _ _ hoff]
      rfl

/-- For ranges that do not ascend they differ somewhere. -/
theorem touchingRanges_agrees :
    (∀ a off k, findAddr WithStaticLocationDie.touchingRanges a = .ok (some (off, k)) →
      (WithStaticLocationDie.rangesDie dwTagSubprogram none
        WithStaticLocationDie.touchingRanges).spansAddr (pointwise (BitVec 64)) none a =
          .ok (some off)) ↔ AscendingRanges WithStaticLocationDie.touchingRanges :=
  findAddr_agrees_iff _ _ (by rintro ⟨h, -⟩; exact absurd h (by decide)) rfl
    WithStaticLocationDie.touchingRanges_plain

end Scan

end Dies
end Dwarfpp
