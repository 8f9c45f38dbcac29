/-
# Interval maps that join

A map from numbers that is kept as stretches: touching intervals with one value are
one stretch.  So the stretch of a point is the largest interval around it on which
the value is the same (`IsStretchAt`), however it came to be.

`JoiningMap` is what such a map documents of inserting and finding.  Inserting
leaves what is there and does not store a zero.  `pointwise` is a map that does so.
-/

import Mathlib

namespace Dwarfpp
namespace Lib

/-- A right-open interval with a value. -/
structure Stretch (α : Type) where
  lower : ℕ
  upper : ℕ
  value : α
  deriving DecidableEq, Repr

/-- The largest interval around `x` on which `f` has one value. -/
structure IsStretchAt {α : Type} (f : ℕ → Option α) (x : ℕ) (s : Stretch α) : Prop where
  lower_le : s.lower ≤ x
  lt_upper : x < s.upper
  const : ∀ y, s.lower ≤ y → y < s.upper → f y = some s.value
  before : ∀ y, y + 1 = s.lower → f y ≠ some s.value
  behind : f s.upper ≠ some s.value

/-- An interval map that joins, as its users see it. -/
structure JoiningMap (α : Type) [Zero α] [DecidableEq α] where
  Map : Type
  values : Map → ℕ → Option α
  empty : Map
  insert : Map → ℕ → ℕ → α → Map
  find : Map → ℕ → Option (Stretch α)
  findInterval : Map → ℕ → ℕ → Bool
  values_empty : ∀ x, values empty x = none
  values_insert : ∀ m lower upper v x, values (insert m lower upper v) x =
    (values m x).or (if lower ≤ x ∧ x < upper ∧ v ≠ 0 then some v else none)
  find_eq_none_iff : ∀ m x, find m x = none ↔ values m x = none
  find_eq_some_iff : ∀ m x s, find m x = some s ↔ IsStretchAt (values m) x s
  findInterval_of_stretch : ∀ m lower upper s, lower < upper → IsStretchAt (values m) lower s →
    upper ≤ s.upper → findInterval m lower upper = true

section Stretches

variable {α : Type} {f : ℕ → Option α} {x : ℕ}

/-- **A value that is had in one interval only makes a stretch of it.** -/
theorem isStretchAt_of_level {s : Stretch α}
    (h : ∀ y, f y = some s.value ↔ s.lower ≤ y ∧ y < s.upper) (hx : s.lower ≤ x ∧ x < s.upper) :
    IsStretchAt f x s where
  lower_le := hx.1
  lt_upper := hx.2
  const y hl hu := (h y).2 ⟨hl, hu⟩
  before y hy hv := by
    have := ((h y).1 hv).1
    omega
  behind hv := Nat.lt_irrefl _ ((h _).1 hv).2

namespace IsStretchAt

variable {s t : Stretch α}

theorem values_eq (h : IsStretchAt f x s) : f x = some s.value :=
  h.const x h.lower_le h.lt_upper

/-- A stretch that began before another of the point would go over its beginning. -/
theorem lower_le_lower (hs : IsStretchAt f x s) (ht : IsStretchAt f x t)
    (hv : s.value = t.value) : s.lower ≤ t.lower := by
  rcases Nat.lt_or_ge t.lower s.lower with hlt | hge
  · obtain ⟨k, hk⟩ := Nat.exists_eq_succ_of_ne_zero (Nat.ne_zero_of_lt hlt)
    have := hs.lower_le
    have := ht.lt_upper
    exact absurd (hv ▸ ht.const k (by omega) (by omega)) (hs.before k hk.symm)
  · exact hge

/-- And over its end. -/
theorem upper_le_upper (hs : IsStretchAt f x s) (ht : IsStretchAt f x t)
    (hv : s.value = t.value) : s.upper ≤ t.upper := by
  rcases Nat.lt_or_ge t.upper s.upper with hlt | hge
  · have := hs.lower_le
    have := ht.lt_upper
    exact absurd (hv ▸ hs.const t.upper (by omega) hlt) ht.behind
  · exact hge

/-- **A point has one stretch.** -/
theorem unique (hs : IsStretchAt f x s) (ht : IsStretchAt f x t) : s = t := by
  have hv : s.value = t.value := Option.some.inj (hs.values_eq.symm.trans ht.values_eq)
  have hlower := Nat.le_antisymm (hs.lower_le_lower ht hv) (ht.lower_le_lower hs hv.symm)
  have hupper := Nat.le_antisymm (hs.upper_le_upper ht hv) (ht.upper_le_upper hs hv.symm)
  cases s
  cases t
  simp only at hv hlower hupper
  rw [hv, hlower, hupper]

end IsStretchAt

end Stretches

namespace JoiningMap

variable {α : Type} [Zero α] [DecidableEq α] (boost : JoiningMap α)

/-- **A point whose value is had in one interval only is found there.** -/
theorem find_of_level {m : boost.Map} {x : ℕ} {s : Stretch α}
    (h : ∀ y, boost.values m y = some s.value ↔ s.lower ≤ y ∧ y < s.upper)
    (hx : s.lower ≤ x ∧ x < s.upper) : boost.find m x = some s :=
  (boost.find_eq_some_iff m x s).2 (isStretchAt_of_level h hx)

theorem findInterval_of_level {m : boost.Map} {s : Stretch α}
    (h : ∀ y, boost.values m y = some s.value ↔ s.lower ≤ y ∧ y < s.upper)
    (hlt : s.lower < s.upper) : boost.findInterval m s.lower s.upper = true :=
  boost.findInterval_of_stretch m s.lower s.upper s hlt
    (isStretchAt_of_level h ⟨Nat.le_refl _, hlt⟩) (Nat.le_refl _)

end JoiningMap

/-! ### A map kept point by point -/

/-- Values at finitely many points. -/
structure PointMap (α : Type) where
  values : ℕ → Option α
  bound : ℕ
  none_of_le : ∀ x, bound ≤ x → values x = none

namespace PointMap

variable {α : Type} [DecidableEq α] (f : ℕ → Option α) (v : α)

/-- Where the run of a value that ends before `x` starts. -/
def start : ℕ → ℕ
  | 0 => 0
  | x + 1 => if f x = some v then start x else x + 1

/-- Where the run of a value that starts at `x` ends, within some steps. -/
def stop : ℕ → ℕ → ℕ
  | 0, x => x
  | n + 1, x => if f x = some v then stop n (x + 1) else x

/-- The stretch of a point. -/
def find (m : PointMap α) (x : ℕ) : Option (Stretch α) :=
  (m.values x).map fun v => ⟨start m.values v x, stop m.values v m.bound x, v⟩

/-- Inserting leaves what is there. -/
def insert [Zero α] (m : PointMap α) (lower upper : ℕ) (v : α) : PointMap α where
  values x := (m.values x).or (if lower ≤ x ∧ x < upper ∧ v ≠ 0 then some v else none)
  bound := max m.bound upper
  none_of_le x hx := by
    rw [m.none_of_le x (by omega), if_neg (by omega)]
    rfl

variable {f v} {x y n : ℕ}

theorem start_le : start f v x ≤ x := by
  induction x with
  | zero => exact Nat.le_refl 0
  | succ x ih =>
    rw [start]
    split_ifs
    · exact Nat.le_succ_of_le ih
    · exact Nat.le_refl _

theorem eq_of_start_le (h : start f v x ≤ y) (hy : y < x) : f y = some v := by
  induction x with
  | zero => omega
  | succ x ih =>
    rw [start] at h
    split_ifs at h with hx
    · rcases Nat.lt_or_eq_of_le (Nat.le_of_lt_succ hy) with hlt | rfl
      · exact ih h hlt
      · exact hx
    · omega

theorem ne_before_start (h : y + 1 = start f v x) : f y ≠ some v := by
  induction x with
  | zero => cases h
  | succ x ih =>
    rw [start] at h
    split_ifs at h with hx
    · exact ih h
    · rwa [Nat.succ.inj h]

theorem le_stop : x ≤ stop f v n x := by
  induction n generalizing x with
  | zero => exact Nat.le_refl x
  | succ n ih =>
    rw [stop]
    split_ifs
    · exact Nat.le_of_succ_le ih
    · exact Nat.le_refl x

theorem eq_of_lt_stop (h : x ≤ y) (hy : y < stop f v n x) : f y = some v := by
  induction n generalizing x with
  | zero =>
    rw [stop] at hy
    omega
  | succ n ih =>
    rw [stop] at hy
    split_ifs at hy with hx
    · rcases Nat.lt_or_eq_of_le h with hlt | rfl
      · exact ih hlt hy
      · exact hx
    · omega

/-- With enough steps the run ends. -/
theorem ne_at_stop (h : ∀ y, x + n ≤ y → f y ≠ some v) : f (stop f v n x) ≠ some v := by
  induction n generalizing x with
  | zero => exact h x (Nat.le_refl x)
  | succ n ih =>
    rw [stop]
    split_ifs with hx
    · exact ih fun y hy => h y (by omega)
    · exact hx

theorem isStretchAt (m : PointMap α) {v : α} (hx : m.values x = some v) :
    IsStretchAt m.values x ⟨start m.values v x, stop m.values v m.bound x, v⟩ where
  lower_le := start_le
  lt_upper := by
    have hne : m.values (stop m.values v m.bound x) ≠ some v := by
      refine ne_at_stop fun y hy hv => ?_
      rw [m.none_of_le y (by omega)] at hv
      cases hv
    have hle : x ≤ stop m.values v m.bound x := le_stop
    rcases Nat.lt_or_eq_of_le hle with hlt | heq
    · exact hlt
    · rw [← heq] at hne
      exact absurd hx hne
  const y hl hu := by
    rcases Nat.lt_or_ge y x with hlt | hge
    · exact eq_of_start_le hl hlt
    · exact eq_of_lt_stop hge hu
  before _ := ne_before_start
  behind := by
    refine ne_at_stop fun y hy hv => ?_
    rw [m.none_of_le y (by omega)] at hv
    cases hv

theorem empty_none (α : Type) : ∀ x, 0 ≤ x → (none : Option α) = none := fun _ _ => rfl

end PointMap

open PointMap in
/-- A map kept point by point is one that joins. -/
def pointwise (α : Type) [Zero α] [DecidableEq α] : JoiningMap α where
  Map := PointMap α
  values := PointMap.values
  empty := ⟨fun _ => none, 0, PointMap.empty_none α⟩
  insert := PointMap.insert
  find := PointMap.find
  findInterval m lower upper := (List.range' lower (upper - lower)).any fun x =>
    (m.values x).isSome
  values_empty _ := rfl
  values_insert _ _ _ _ _ := rfl
  find_eq_none_iff _ _ := Option.map_eq_none_iff
  find_eq_some_iff m x s := by
    constructor
    · intro h
      obtain ⟨v, hv, rfl⟩ := Option.map_eq_some_iff.1 h
      exact m.isStretchAt hv
    · intro h
      rw [PointMap.find, h.values_eq, Option.map_some, (m.isStretchAt h.values_eq).unique h]
  findInterval_of_stretch m lower upper s hlt hs hle := by
    refine List.any_eq_true.2 ⟨lower, List.mem_range'_1.2 (by omega), ?_⟩
    rw [hs.values_eq]
    rfl

end Lib
end Dwarfpp
