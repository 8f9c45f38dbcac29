/-
# The addresses of a range list

What DWARF means by the list of `DW_AT_ranges`: its entries are relative to the base that was
selected last, and before any selection to the low address of the unit.
`compile_unit_die::normalize_rangelist` of `src/dies.cpp` leaves the entries as they are and
fails on a selection.  So its result, and the intervals that
`file_relative_intervals` makes of it, are right just for lists without selections in a
unit whose low address is 0 (`normalizedRight_iff`).
-/

import Dwarfpp.Dies.StaticLocation

namespace Dwarfpp
namespace Dies

open Lib
open Layout (Has Separate)

/-- The ranges that a list denotes where `base` is selected, those without addresses left out. -/
def denoted : ℕ → List DwarfRange → List (ℕ × ℕ)
  | _, [] => []
  | base, r :: rest =>
    match r.dwrType with
    | .rangesEntry =>
      if r.dwrAddr1 < r.dwrAddr2 then
        (base + r.dwrAddr1.toNat, base + r.dwrAddr2.toNat) :: denoted base rest
      else denoted base rest
    | .rangesAddressSelection => denoted r.dwrAddr2.toNat rest
    | .rangesEnd => []

/-- A list of `DW_AT_ranges`: it ends with its end, no entry ends before it begins, and no two of the
ranges that it denotes share an address. -/
structure IsRangeList (base : ℕ) (l : List DwarfRange) : Prop where
  endLast : ∀ r ∈ l.dropLast, r.dwrType ≠ .rangesEnd
  endZero : ∀ r ∈ l, r.dwrType = .rangesEnd → r.dwrAddr1 = 0 ∧ r.dwrAddr2 = 0
  ordered : ∀ r ∈ l, r.dwrType = .rangesEntry → r.dwrAddr1 ≤ r.dwrAddr2
  separate : Separate (denoted base l)

/-- The low address of a unit, which is 0 if it has none. -/
def lowAddress (lowPc : Option (BitVec 64)) : ℕ := (lowPc.getD 0).toNat

/-- The list is normalized without its selections to the ranges that it denotes in a unit, in their
order, and the intervals of the DIE that has it are those. -/
def NormalizedRight (boost : JoiningMap (BitVec 64))
    (symResolve : Option (String → Option SymBinding)) (lowPc : Option (BitVec 64))
    (d : WithStaticLocationDie) (l : List DwarfRange) : Prop :=
  (∃ l', normalizeRangelist l = .ok l' ∧ (∀ r ∈ l', r.dwrType ≠ .rangesAddressSelection) ∧
    denoted 0 l' = denoted (lowAddress lowPc) l) ∧
  ∃ m, d.fileRelativeIntervals boost symResolve = .ok m ∧
    ∀ x, (boost.find m x).isSome = true ↔ ∃ p ∈ denoted (lowAddress lowPc) l, Has p x

/-- No entry has an address. -/
def DenotesNothing (l : List DwarfRange) : Prop :=
  ∀ r ∈ l, r.dwrType = .rangesEntry → r.dwrAddr2 ≤ r.dwrAddr1

theorem mem_dropLast_cons {α : Type} {a b : α} {l : List α} (h : a ∈ l.dropLast) :
    a ∈ (b :: l).dropLast := by
  rw [List.dropLast_cons_of_ne_nil (List.ne_nil_of_mem (List.mem_of_mem_dropLast h))]
  exact List.mem_cons_of_mem _ h

section Lists

variable {base : ℕ} {r : DwarfRange} {l l' : List DwarfRange}

/-- **A list is normalized to itself or not at all.** -/
theorem eq_of_normalizeRangelist (h : normalizeRangelist l = .ok l') :
    l' = l ∧ ∀ r ∈ l, r.dwrType ≠ .rangesAddressSelection := by
  induction l generalizing l' with
  | nil => exact ⟨(Except.ok.inj h).symm, fun r hr => absurd hr List.not_mem_nil⟩
  | cons r l ih =>
    rw [normalizeRangelist] at h
    cases htype : r.dwrType with
    | rangesEntry =>
      rw [htype] at h
      obtain ⟨retval, hrest, hret⟩ := bind_eq_ok.1 h
      obtain ⟨rfl, hno⟩ := ih hrest
      refine ⟨(Except.ok.inj hret).symm, List.forall_mem_cons.2 ⟨?_, hno⟩⟩
      rw [htype]
      rintro ⟨⟩
    | rangesAddressSelection =>
      rw [htype] at h
      cases h
    | rangesEnd =>
      rw [htype] at h
      obtain ⟨u, -, hend⟩ := bind_eq_ok.1 h
      obtain ⟨v, hnil, hret⟩ := bind_eq_ok.1 hend
      obtain rfl := assert_eq_ok.1 hnil
      refine ⟨(Except.ok.inj hret).symm,
        List.forall_mem_cons.2 ⟨?_, fun r hr => absurd hr List.not_mem_nil⟩⟩
      rw [htype]
      rintro ⟨⟩

/-- **Without selections** all ranges are relative to one base. -/
theorem denoted_eq_map (hno : ∀ r ∈ l, r.dwrType ≠ .rangesAddressSelection) :
    denoted base l = (denoted 0 l).map fun p => (base + p.1, base + p.2) := by
  induction l with
  | nil => rfl
  | cons r l ih =>
    rw [List.forall_mem_cons] at hno
    have hrest := ih hno.2
    rw [denoted, denoted]
    cases htype : r.dwrType with
    | rangesEntry =>
      dsimp only
      split_ifs
      · rw [hrest, List.map_cons, Nat.zero_add, Nat.zero_add]
      · exact hrest
    | rangesAddressSelection => exact absurd htype hno.1
    | rangesEnd => rfl

/-- **Without selections** what is denoted at base 0 is the spans of the entries. -/
theorem denoted_zero_eq (hno : ∀ r ∈ l, r.dwrType ≠ .rangesAddressSelection)
    (hlast : ∀ r ∈ l.dropLast, r.dwrType ≠ .rangesEnd)
    (hzero : ∀ r ∈ l, r.dwrType = .rangesEnd → r.dwrAddr1 = 0 ∧ r.dwrAddr2 = 0) :
    denoted 0 l = (l.filter fun r => r.dwrAddr1 < r.dwrAddr2).map DwarfRange.span := by
  induction l with
  | nil => rfl
  | cons r l ih =>
    rw [List.forall_mem_cons] at hno hzero
    have hrest := ih hno.2 (fun s hs => hlast s (mem_dropLast_cons hs)) hzero.2
    rw [denoted, List.filter_cons]
    cases htype : r.dwrType with
    | rangesEntry =>
      dsimp only
      by_cases hlt : r.dwrAddr1 < r.dwrAddr2
      · rw [if_pos hlt, if_pos (decide_eq_true hlt), List.map_cons, hrest, Nat.zero_add,
          Nat.zero_add]
        rfl
      · rw [if_neg hlt, if_neg (by rwa [decide_eq_true_eq]), hrest]
    | rangesAddressSelection => exact absurd htype hno.1
    | rangesEnd =>
      obtain rfl : l = [] := by
        by_contra hne
        rw [List.dropLast_cons_of_ne_nil hne] at hlast
        exact hlast r List.mem_cons_self htype
      obtain ⟨hlo, hhi⟩ := hzero.1 htype
      rw [hlo, hhi]
      rfl

end Lists

section Normalized

variable {base : ℕ} {r : DwarfRange} {l : List DwarfRange} {p : ℕ × ℕ}

theorem DwarfRange.Has.lt {a : BitVec 64} (h : r.Has a) : r.dwrAddr1 < r.dwrAddr2 :=
  Nat.lt_of_le_of_lt h.1 h.2

/-- A range that is denoted has addresses. -/
theorem fst_lt_snd_of_mem_denoted (hp : p ∈ denoted base l) : p.1 < p.2 := by
  induction l generalizing base with
  | nil => exact absurd hp List.not_mem_nil
  | cons r l ih =>
    rw [denoted] at hp
    cases htype : r.dwrType with
    | rangesEntry =>
      rw [htype] at hp
      dsimp only at hp
      split_ifs at hp with hlt
      · rcases List.mem_cons.1 hp with rfl | hp
        · exact Nat.add_lt_add_left hlt base
        · exact ih hp
      · exact ih hp
    | rangesAddressSelection =>
      rw [htype] at hp
      exact ih hp
    | rangesEnd =>
      rw [htype] at hp
      exact absurd hp List.not_mem_nil

theorem IsRangeList.denoted_zero_eq (h : IsRangeList base l)
    (hno : ∀ r ∈ l, r.dwrType ≠ .rangesAddressSelection) :
    denoted 0 l = (l.filter fun r => r.dwrAddr1 < r.dwrAddr2).map DwarfRange.span :=
  Dies.denoted_zero_eq hno h.endLast h.endZero

/-- **A range list without selections is plain.** -/
theorem IsRangeList.plain (h : IsRangeList base l)
    (hno : ∀ r ∈ l, r.dwrType ≠ .rangesAddressSelection) : PlainRanges l where
  noSelection := hno
  endLast := h.endLast
  endZero := h.endZero
  ordered r hr := by
    cases htype : r.dwrType with
    | rangesEntry => exact h.ordered r hr htype
    | rangesAddressSelection => exact absurd htype (hno r hr)
    | rangesEnd =>
      obtain ⟨hlo, hhi⟩ := h.endZero r hr htype
      rw [hlo, hhi]
      exact BitVec.le_refl _
  separate := by
    have hsep := h.separate
    rw [denoted_eq_map hno, h.denoted_zero_eq hno, List.map_map, Separate, List.pairwise_map,
      List.pairwise_filter] at hsep
    refine hsep.imp fun {r s} hrs a hr hs => ?_
    have hdisjoint := hrs (decide_eq_true hr.lt) (decide_eq_true hs.lt) (base + a.toNat)
    exact hdisjoint ⟨Nat.add_le_add_left hr.1 base, Nat.add_lt_add_left hr.2 base⟩
      ⟨Nat.add_le_add_left hs.1 base, Nat.add_lt_add_left hs.2 base⟩

/-- **A range list without selections denotes nothing** just if no entry has an address. -/
theorem IsRangeList.denoted_eq_nil_iff (h : IsRangeList base l)
    (hno : ∀ r ∈ l, r.dwrType ≠ .rangesAddressSelection) :
    denoted base l = [] ↔ DenotesNothing l := by
  rw [denoted_eq_map hno, h.denoted_zero_eq hno, List.map_eq_nil_iff, List.map_eq_nil_iff,
    List.filter_eq_nil_iff]
  constructor
  · intro hall r hr _
    have hle := hall r hr
    rw [decide_eq_true_eq] at hle
    exact BitVec.not_lt.1 hle
  · intro hall r hr hlt
    have hlt := of_decide_eq_true hlt
    cases htype : r.dwrType with
    | rangesEntry => exact absurd hlt (BitVec.not_lt.2 (hall r hr htype))
    | rangesAddressSelection => exact absurd htype (hno r hr)
    | rangesEnd =>
      obtain ⟨hlo, hhi⟩ := h.endZero r hr htype
      rw [hlo, hhi] at hlt
      exact absurd hlt (by decide)

/-- What is in a span is in one that is denoted. -/
theorem IsRangeList.exists_has_span_iff (h : IsRangeList base l)
    (hno : ∀ r ∈ l, r.dwrType ≠ .rangesAddressSelection) {x : ℕ} :
    (∃ q ∈ l.map DwarfRange.span, Has q x) ↔ ∃ q ∈ denoted 0 l, Has q x := by
  rw [h.denoted_zero_eq hno]
  constructor
  · rintro ⟨q, hq, hx⟩
    obtain ⟨r, hr, rfl⟩ := List.mem_map.1 hq
    have hlt : r.dwrAddr1 < r.dwrAddr2 := Nat.lt_of_le_of_lt hx.1 hx.2
    exact ⟨_, List.mem_map_of_mem (List.mem_filter.2 ⟨hr, decide_eq_true hlt⟩), hx⟩
  · rintro ⟨q, hq, hx⟩
    obtain ⟨r, hr, rfl⟩ := List.mem_map.1 hq
    exact ⟨_, List.mem_map_of_mem (List.mem_filter.1 hr).1, hx⟩

end Normalized

namespace WithStaticLocationDie

variable {boost : JoiningMap (BitVec 64)} {symResolve : Option (String → Option SymBinding)}
  {lowPc : Option (BitVec 64)} {d : WithStaticLocationDie} {l : List DwarfRange}

/-- The intervals of a plain list cover its spans. -/
theorem isSome_find_iff {m : boost.Map} (h : HoldsEnds boost m l) (x : ℕ) :
    (boost.find m x).isSome = true ↔ ∃ q ∈ l.map DwarfRange.span, Has q x := by
  rw [Option.isSome_iff_ne_none, ne_eq, boost.find_eq_none_iff, h, Option.map_eq_none_iff,
    Layout.endOf_eq_none_iff]
  simp only [not_forall, not_not, exists_prop]

/-- A local variable has no intervals. -/
theorem fileRelativeIntervals_eq_empty (hlocal : d.IsLocalVariable) :
    d.fileRelativeIntervals boost symResolve = .ok boost.empty := by
  have hstatic : d.tag = dwTagVariable ∧ ¬d.hasStaticStorage := hlocal
  rw [fileRelativeIntervals, if_pos hstatic]

/-- So it is right for one only where nothing is denoted. -/
theorem denoted_eq_nil_of_isLocalVariable (hlocal : d.IsLocalVariable)
    (h : NormalizedRight boost symResolve lowPc d l) : denoted (lowAddress lowPc) l = [] := by
  obtain ⟨-, m, hm, hcovers⟩ := h
  rw [fileRelativeIntervals_eq_empty hlocal] at hm
  obtain rfl := Except.ok.inj hm
  refine List.eq_nil_iff_forall_not_mem.2 fun p hp => ?_
  have hsome := (hcovers p.1).2 ⟨p, hp, Nat.le_refl _, fst_lt_snd_of_mem_denoted hp⟩
  rw [(boost.find_eq_none_iff _ _).2 (boost.values_empty _)] at hsome
  exact Bool.noConfusion hsome

/-- **A range list is normalized right** just if it has no selections, and either denotes nothing or
stands in a unit whose low address is 0, at a DIE that is no local variable. -/
theorem normalizedRight_iff (boost : JoiningMap (BitVec 64))
    (symResolve : Option (String → Option SymBinding)) (lowPc : Option (BitVec 64))
    (hranges : d.ranges = some l) (hl : IsRangeList (lowAddress lowPc) l) :
    NormalizedRight boost symResolve lowPc d l ↔
      (∀ r ∈ l, r.dwrType ≠ .rangesAddressSelection) ∧
        (DenotesNothing l ∨ lowAddress lowPc = 0 ∧ ¬d.IsLocalVariable) := by
  constructor
  · intro h
    obtain ⟨⟨l', hnormalize, -, hdenoted⟩, -⟩ := id h
    obtain ⟨rfl, hno⟩ := eq_of_normalizeRangelist hnormalize
    refine ⟨hno, ?_⟩
    rw [← hl.denoted_eq_nil_iff hno]
    refine or_iff_not_imp_left.2 fun hne => ⟨?_, fun hlocal => ?_⟩
    · have hmap : denoted (lowAddress lowPc) l' =
          (denoted 0 l').map fun p => (lowAddress lowPc + p.1, lowAddress lowPc + p.2) :=
        denoted_eq_map hno
      rw [hmap] at hdenoted hne
      cases hps : denoted 0 l' with
      | nil => exact absurd (by rw [hps]; rfl) hne
      | cons p ps =>
        rw [hps, List.map_cons] at hdenoted
        have hfst := congrArg Prod.fst (List.cons.inj hdenoted).1
        omega
    · exact hne (denoted_eq_nil_of_isLocalVariable hlocal h)
  · rintro ⟨hno, hwhere⟩
    have hsame : denoted 0 l = denoted (lowAddress lowPc) l := by
      rcases hwhere with hnothing | ⟨hlow, -⟩
      · have hnil := (hl.denoted_eq_nil_iff hno).2 hnothing
        rw [hnil]
        rw [denoted_eq_map hno] at hnil
        exact List.map_eq_nil_iff.1 hnil
      · rw [hlow]
    have hplain := hl.plain hno
    refine ⟨⟨l, normalizeRangelist_eq hplain, hno, hsame⟩, ?_⟩
    by_cases hlocal : d.IsLocalVariable
    · have hnil := (hl.denoted_eq_nil_iff hno).2 (hwhere.resolve_right fun h => h.2 hlocal)
      refine ⟨boost.empty, fileRelativeIntervals_eq_empty hlocal, fun x => ?_⟩
      rw [hnil, (boost.find_eq_none_iff _ _).2 (boost.values_empty x)]
      simp
    · obtain ⟨m, hm, hends⟩ := fileRelativeIntervals_eq boost symResolve hlocal hranges hplain
      refine ⟨m, hm, fun x => ?_⟩
      rw [isSome_find_iff hends, hl.exists_has_span_iff hno, hsame]

/-- One entry, 16 addresses long. -/
def oneRange : List DwarfRange := [⟨0x10, 0x20, .rangesEntry⟩, ⟨0, 0, .rangesEnd⟩]

theorem oneRange_isRangeList (base : ℕ) : IsRangeList base oneRange where
  endLast := by decide
  endZero := by decide
  ordered := by decide
  separate := List.pairwise_singleton _ _

theorem oneRange_normalizedRight : NormalizedRight (pointwise (BitVec 64)) none none
    (rangesDie dwTagSubprogram none oneRange) oneRange :=
  (normalizedRight_iff (pointwise (BitVec 64)) none none rfl (oneRange_isRangeList _)).2
    ⟨by decide, .inr ⟨rfl, fun h => absurd h.1 (by decide)⟩⟩

/-- In a unit at `0x1000` the entry denotes addresses from `0x1010` on, and is left as it is. -/
theorem not_normalizedRight_lowPc :
    ¬∀ (boost : JoiningMap (BitVec 64)) (symResolve : Option (String → Option SymBinding))
      (lowPc : Option (BitVec 64)) (d : WithStaticLocationDie) (l : List DwarfRange),
      d.ranges = some l → IsRangeList (lowAddress lowPc) l → ¬d.IsLocalVariable →
        NormalizedRight boost symResolve lowPc d l := by
  intro hall
  obtain ⟨⟨l', hnormalize, -, hdenoted⟩, -⟩ := hall (pointwise (BitVec 64)) none (some 0x1000)
    (rangesDie dwTagSubprogram none oneRange) oneRange rfl (oneRange_isRangeList _)
    fun h => absurd h.1 (by decide)
  have heq : normalizeRangelist oneRange = .ok oneRange := rfl
  rw [heq] at hnormalize
  obtain rfl := Except.ok.inj hnormalize
  exact absurd hdenoted (by decide)

end WithStaticLocationDie

end Dies
end Dwarfpp
