/-
# Intervals laid out one behind the other

Intervals in any order that share no point, laid out from zero in the order of the
list: `offset` is the place of a point.  It is defined on the points of the
intervals, injective, and takes every value below the total (`exists_offset`).

`rank` is how many points of the intervals are below a point.  It is the place of
every point just if the intervals are listed in ascending order
(`offset_eq_rank_iff`).

`endOf` is the place of the end of a point's interval.  As a map of the points it
is constant on the intervals and nowhere else the same (`endOf_level`), so its
pieces are the intervals again.
-/

import Mathlib

namespace Dwarfpp
namespace Lib
namespace Layout

/-- A point of a right-open interval. -/
def Has (p : ℕ × ℕ) (x : ℕ) : Prop := p.1 ≤ x ∧ x < p.2

instance (p : ℕ × ℕ) (x : ℕ) : Decidable (Has p x) := inferInstanceAs (Decidable (_ ∧ _))

def size (p : ℕ × ℕ) : ℕ := p.2 - p.1

/-- The sizes of all intervals together. -/
def total (ps : List (ℕ × ℕ)) : ℕ := (ps.map size).sum

/-- No two intervals share a point. -/
def Separate (ps : List (ℕ × ℕ)) : Prop := ps.Pairwise fun p q => ∀ x, Has p x → ¬Has q x

/-- The place of a point. -/
def offset : List (ℕ × ℕ) → ℕ → Option ℕ
  | [], _ => none
  | p :: ps, x => if Has p x then some (x - p.1) else (offset ps x).map (size p + ·)

/-- The place of the end of the interval of a point, where the first begins at `start`. -/
def endOf : ℕ → List (ℕ × ℕ) → ℕ → Option ℕ
  | _, [], _ => none
  | start, p :: ps, x => if Has p x then some (start + size p) else endOf (start + size p) ps x

variable {p : ℕ × ℕ} {ps : List (ℕ × ℕ)} {x y z b start v : ℕ}

@[simp] theorem total_nil : total [] = 0 := rfl

@[simp] theorem total_cons : total (p :: ps) = size p + total ps := List.sum_cons

@[simp] theorem total_append (ps qs : List (ℕ × ℕ)) : total (ps ++ qs) = total ps + total qs := by
  rw [total, List.map_append, List.sum_append]
  rfl

theorem total_take_le (ps : List (ℕ × ℕ)) {i j : ℕ} (h : i ≤ j) :
    total (ps.take i) ≤ total (ps.take j) := by
  have hsplit := List.take_append_drop i (ps.take j)
  rw [List.take_take, Nat.min_eq_left h] at hsplit
  rw [← hsplit, total_append]
  exact Nat.le_add_right _ _

theorem Has.lt (h : Has p x) : x - p.1 < size p := by
  have := h.1
  have := h.2
  rw [size]
  omega

theorem Separate.tail (h : Separate (p :: ps)) : Separate ps := (List.pairwise_cons.1 h).2

theorem Separate.not_has (h : Separate (p :: ps)) (hx : Has p x) : ∀ q ∈ ps, ¬Has q x :=
  fun q hq => (List.pairwise_cons.1 h).1 q hq x hx

/-- Intervals of which two share a point are the same one. -/
theorem Separate.eq_of_has {q : ℕ × ℕ} (h : Separate ps) (hp : p ∈ ps) (hq : q ∈ ps)
    (hpx : Has p x) (hqx : Has q x) : p = q := by
  induction ps with
  | nil => exact absurd hp List.not_mem_nil
  | cons r ps ih =>
    rcases List.mem_cons.1 hp with rfl | hp'
    · rcases List.mem_cons.1 hq with rfl | hq'
      · rfl
      · exact absurd hqx (h.not_has hpx q hq')
    · rcases List.mem_cons.1 hq with rfl | hq'
      · exact absurd hpx (h.not_has hqx p hp')
      · exact ih h.tail hp' hq'

/-! ### The place of a point -/

/-- **The points that have a place are those of the intervals.** -/
theorem offset_eq_none_iff : offset ps x = none ↔ ∀ p ∈ ps, ¬Has p x := by
  induction ps with
  | nil => simp [offset]
  | cons p ps ih =>
    rw [offset, List.forall_mem_cons, ← ih]
    split_ifs with h
    · simp [h]
    · simp [h]

theorem exists_has_of_offset (h : offset ps x = some y) : ∃ p ∈ ps, Has p x := by
  by_contra hnone
  rw [offset_eq_none_iff.2 fun p hp hx => hnone ⟨p, hp, hx⟩] at h
  cases h

theorem offset_lt (h : offset ps x = some y) : y < total ps := by
  induction ps generalizing y with
  | nil => cases h
  | cons p ps ih =>
    rw [offset] at h
    rw [total_cons]
    split_ifs at h with hp
    · obtain rfl := Option.some.inj h
      exact Nat.lt_add_right _ hp.lt
    · obtain ⟨y', hy', rfl⟩ := Option.map_eq_some_iff.1 h
      exact Nat.add_lt_add_left (ih hy') _

/-- **No two points have the same place.** -/
theorem offset_inj (h : offset ps x = some z) (h' : offset ps y = some z) : x = y := by
  induction ps generalizing z with
  | nil => cases h
  | cons p ps ih =>
    rw [offset] at h h'
    split_ifs at h h' with hx hy hy
    · have := Option.some.inj (h.trans h'.symm)
      have := hx.1
      have := hy.1
      omega
    -- a point of the first interval comes before those behind it
    · obtain ⟨z', -, rfl⟩ := Option.map_eq_some_iff.1 h'
      have := Option.some.inj h
      have := hx.lt
      omega
    · obtain ⟨z', -, rfl⟩ := Option.map_eq_some_iff.1 h
      have := Option.some.inj h'
      have := hy.lt
      omega
    · obtain ⟨z₁, hz₁, rfl⟩ := Option.map_eq_some_iff.1 h
      obtain ⟨z₂, hz₂, heq⟩ := Option.map_eq_some_iff.1 h'
      obtain rfl := Nat.add_left_cancel heq
      exact ih hz₁ hz₂

/-- **And every place below the total is that of a point.** -/
theorem exists_offset (hsep : Separate ps) (hy : y < total ps) : ∃ x, offset ps x = some y := by
  induction ps generalizing y with
  | nil => exact absurd hy (Nat.not_lt_zero _)
  | cons p ps ih =>
    rw [total_cons] at hy
    rcases Nat.lt_or_ge y (size p) with hlt | hge
    · rw [size] at hlt
      refine ⟨p.1 + y, ?_⟩
      rw [offset, if_pos ⟨Nat.le_add_right _ _, by omega⟩, Nat.add_sub_cancel_left]
    · obtain ⟨x, hx⟩ := ih hsep.tail (show y - size p < total ps by omega)
      refine ⟨x, ?_⟩
      have hnot : ¬Has p x := by
        intro hp
        rw [offset_eq_none_iff.2 (hsep.not_has hp)] at hx
        cases hx
      rw [offset, if_neg hnot, hx, Option.map_some, Nat.add_sub_cancel' hge]

/-- The places in an interval follow the sizes of those before it. -/
theorem offset_getElem (hsep : Separate ps) {k : ℕ} (hk : k < ps.length) (hx : Has ps[k] x) :
    offset ps x = some (total (ps.take k) + (x - ps[k].1)) := by
  induction ps generalizing k with
  | nil => exact absurd hk (Nat.not_lt_zero _)
  | cons p ps ih =>
    cases k with
    | zero =>
      have hp : Has p x := hx
      rw [offset, if_pos hp]
      exact congrArg some (Nat.zero_add _).symm
    | succ k =>
      rw [List.getElem_cons_succ] at hx
      have hnot : ¬Has p x := fun hp => hsep.not_has hp _ (List.getElem_mem _) hx
      rw [offset, if_neg hnot, ih hsep.tail (Nat.lt_of_succ_lt_succ hk) hx, Option.map_some,
        List.take_succ_cons, total_cons, List.getElem_cons_succ, Nat.add_assoc]

/-- Intervals below a bound have no more points together. -/
theorem total_le (hsep : Separate ps) (hb : ∀ p ∈ ps, p.2 ≤ b) : total ps ≤ b := by
  have hsub : Finset.range (total ps) ⊆
      (Finset.range b).image fun x => (offset ps x).getD 0 := by
    intro y hy
    obtain ⟨x, hx⟩ := exists_offset hsep (Finset.mem_range.1 hy)
    obtain ⟨p, hp, hhas⟩ := exists_has_of_offset hx
    have hlt : x < b := hhas.2.trans_le (hb p hp)
    exact Finset.mem_image.2 ⟨x, Finset.mem_range.2 hlt, by rw [hx]; rfl⟩
  have hcard := (Finset.card_le_card hsub).trans Finset.card_image_le
  rwa [Finset.card_range, Finset.card_range] at hcard

/-! ### The points below a point -/

/-- How much of an interval is below a point. -/
def part (p : ℕ × ℕ) (x : ℕ) : ℕ := min (x - p.1) (size p)

/-- How many points of the intervals are below a point. -/
def rank (ps : List (ℕ × ℕ)) (x : ℕ) : ℕ := (ps.map (part · x)).sum

/-- The points of each interval are below those of the intervals behind it. -/
def Ascending (ps : List (ℕ × ℕ)) : Prop :=
  ps.Pairwise fun p q => ∀ x y, Has p x → Has q y → x < y

@[simp] theorem rank_nil : rank [] x = 0 := rfl

@[simp] theorem rank_cons : rank (p :: ps) x = part p x + rank ps x := List.sum_cons

theorem part_of_has (h : Has p x) : part p x = x - p.1 := Nat.min_eq_left (Nat.le_of_lt h.lt)

theorem part_of_le (h : p.2 ≤ x) : part p x = size p := by
  rw [part, size]
  omega

theorem part_of_lt (h : x < p.1) : part p x = 0 := by
  rw [part]
  omega

/-- Where all points of an interval are above one, nothing of it is below. -/
theorem part_eq_zero (h : ∀ y, Has p y → x < y) : part p x = 0 := by
  rcases Nat.lt_or_ge x p.1 with hlt | hge
  · exact part_of_lt hlt
  · have hempty : size p = 0 := by
      by_contra hne
      rw [size] at hne
      have := h p.1 ⟨Nat.le_refl _, by omega⟩
      omega
    rw [part, hempty, Nat.min_zero]

/-- Where they are below it, all of it is. -/
theorem part_eq_size (h : ∀ y, Has p y → y < x) : part p x = size p := by
  rcases Nat.eq_zero_or_pos (size p) with hzero | hpos
  · rw [part, hzero, Nat.min_zero]
  · rw [size] at hpos
    have := h (p.2 - 1) ⟨by omega, by omega⟩
    exact part_of_le (by omega)

theorem rank_le_rank (ps : List (ℕ × ℕ)) (h : x ≤ y) : rank ps x ≤ rank ps y := by
  induction ps with
  | nil => exact Nat.le_refl 0
  | cons p ps ih =>
    have hpart : part p x ≤ part p y := by
      rw [part, part]
      omega
    rw [rank_cons, rank_cons]
    exact Nat.add_le_add hpart ih

theorem rank_le_total (ps : List (ℕ × ℕ)) (x : ℕ) : rank ps x ≤ total ps := by
  induction ps with
  | nil => exact Nat.le_refl 0
  | cons p ps ih =>
    rw [rank_cons, total_cons]
    exact Nat.add_le_add (Nat.min_le_right _ _) ih

theorem rank_eq_zero (h : ∀ p ∈ ps, ∀ y, Has p y → x < y) : rank ps x = 0 := by
  induction ps with
  | nil => rfl
  | cons p ps ih =>
    rw [List.forall_mem_cons] at h
    rw [rank_cons, part_eq_zero h.1, ih h.2]

/-- In ascending order a point's place is how many are below it. -/
theorem Ascending.rank_eq (h : Ascending ps) (hx : offset ps x = some y) : rank ps x = y := by
  induction ps generalizing y with
  | nil => cases hx
  | cons p ps ih =>
    obtain ⟨hp, hps⟩ := List.pairwise_cons.1 h
    rw [offset] at hx
    rw [rank_cons]
    split_ifs at hx with hhas
    · obtain rfl := Option.some.inj hx
      rw [part_of_has hhas, rank_eq_zero fun q hq z hz => hp q hq x z hhas hz, Nat.add_zero]
    · obtain ⟨y', hy', rfl⟩ := Option.map_eq_some_iff.1 hx
      obtain ⟨q, hq, hqx⟩ := exists_has_of_offset hy'
      rw [part_eq_size fun z hz => hp q hq z x hz hqx, ih hps hy']

/-- **So it is at every point, just if the order is ascending.** -/
theorem offset_eq_rank_iff (hsep : Separate ps) :
    (∀ x y, offset ps x = some y → rank ps x = y) ↔ Ascending ps := by
  constructor
  · intro hrank
    refine List.pairwise_iff_getElem.2 fun i j hi hj hij x y hx hy => ?_
    have hoffx := offset_getElem hsep hi hx
    have hoffy := offset_getElem hsep hj hy
    -- the later interval begins behind the end of the earlier one
    have hplace : total (ps.take i) + size ps[i] ≤ total (ps.take j) := by
      have hle := total_take_le ps (Nat.succ_le_of_lt hij)
      rwa [List.take_succ_eq_append_getElem hi, total_append] at hle
    by_contra hle
    have hmono := rank_le_rank ps (Nat.le_of_not_lt hle)
    rw [hrank x _ hoffx, hrank y _ hoffy] at hmono
    have := hx.lt
    omega
  · exact fun hasc x y hx => hasc.rank_eq hx

/-! ### The place of an end -/

theorem endOf_append (ps qs : List (ℕ × ℕ)) :
    endOf start (ps ++ qs) x = (endOf start ps x).or (endOf (start + total ps) qs x) := by
  induction ps generalizing start with
  | nil => rfl
  | cons p ps ih =>
    rw [List.cons_append, endOf, endOf, total_cons, ← Nat.add_assoc]
    split_ifs
    · rfl
    · exact ih

/-- An interval at the end of the list ends at the total. -/
theorem endOf_concat (ps : List (ℕ × ℕ)) (p : ℕ × ℕ) :
    endOf start (ps ++ [p]) x =
      (endOf start ps x).or (if Has p x then some (start + total ps + size p) else none) := by
  rw [endOf_append]
  rfl

theorem endOf_eq_none_iff : endOf start ps x = none ↔ ∀ p ∈ ps, ¬Has p x := by
  induction ps generalizing start with
  | nil => simp [endOf]
  | cons p ps ih =>
    rw [endOf, List.forall_mem_cons, ← @ih (start + size p)]
    split_ifs with h
    · simp [h]
    · simp [h]

/-- An end lies behind its interval, which is not empty. -/
theorem lt_endOf (h : endOf start ps x = some v) : start < v ∧ v ≤ start + total ps := by
  induction ps generalizing start with
  | nil => cases h
  | cons p ps ih =>
    rw [endOf] at h
    rw [total_cons]
    split_ifs at h with hp
    · obtain rfl := Option.some.inj h
      have := hp.lt
      omega
    · have := ih h
      omega

/-- **An end is the end of one interval only**, and the place of a point in it is as far before
it as the point is before the end of the interval. -/
theorem endOf_level (hsep : Separate ps) (h : endOf start ps x = some v) :
    ∃ p ∈ ps, (∀ y, endOf start ps y = some v ↔ Has p y) ∧ Has p x ∧ start + size p ≤ v ∧
      offset ps x = some (v - start - size p + (x - p.1)) := by
  induction ps generalizing start with
  | nil => cases h
  | cons p ps ih =>
    rw [endOf] at h
    split_ifs at h with hp
    · obtain rfl := Option.some.inj h
      refine ⟨p, List.mem_cons_self, fun y => ?_, hp, Nat.le_refl _, ?_⟩
      · rw [endOf]
        split_ifs with hy
        · exact iff_of_true rfl hy
        · exact iff_of_false (fun hend => absurd (lt_endOf hend).1 (Nat.lt_irrefl _)) hy
      · rw [offset, if_pos hp]
        congr 1
        omega
    · obtain ⟨q, hq, hlevel, hx, hle, hoffset⟩ := ih hsep.tail h
      refine ⟨q, List.mem_cons_of_mem _ hq, fun y => ?_, hx, by omega, ?_⟩
      · rw [endOf, ← hlevel]
        split_ifs with hy
        -- the first interval ends before
        · refine iff_of_false (fun hend => ?_) fun hend => ?_
          · have := Option.some.inj hend
            have := (lt_endOf h).1
            omega
          · rw [endOf_eq_none_iff.2 (hsep.not_has hy)] at hend
            cases hend
        · exact Iff.rfl
      · rw [offset, if_neg hp, hoffset, Option.map_some]
        congr 1
        omega

/-- So it is with every interval of the list. -/
theorem endOf_of_mem (start : ℕ) (hsep : Separate ps) (hp : p ∈ ps) (hx : Has p x) :
    ∃ v, endOf start ps x = some v ∧ (∀ y, endOf start ps y = some v ↔ Has p y) ∧
      start + size p ≤ v ∧ offset ps x = some (v - start - size p + (x - p.1)) := by
  rcases hend : endOf start ps x with _ | v
  · exact absurd hx (endOf_eq_none_iff.1 hend p hp)
  · obtain ⟨q, hq, hlevel, hqx, hle, hoffset⟩ := endOf_level hsep hend
    obtain rfl := hsep.eq_of_has hp hq hx hqx
    exact ⟨v, rfl, hlevel, hle, hoffset⟩

end Layout
end Lib
end Dwarfpp
