/-
# Interval maps that aggregate on overlap

An interval map holds right-open intervals, each with a collection of values.
Adding an interval joins its values to those already there wherever they
overlap; an empty interval and an empty collection leave no trace.  The map is
kept as the list of the segments added, and `find` collects the values of the
segments that cover a point.

When segments are added in order, the map that joins touching segments with
equal values is `joined`.  It leaves no two touching segments related by `r`
exactly when every two segments added one after the other that touch and are
related by `r` compare equal (`minimal_joined_iff`).
-/

import Mathlib

namespace Dwarfpp
namespace Lib

variable {ι α : Type} [LinearOrder ι]

/-- A right-open interval with its values. -/
structure Segment (ι α : Type) where
  lower : ι
  upper : ι
  values : List α
  deriving DecidableEq

abbrev IntervalMap (ι α : Type) := List (Segment ι α)

namespace IntervalMap

/-- The values of one segment at a point. -/
def valuesAt (s : Segment ι α) (x : ι) : List α :=
  if s.lower ≤ x ∧ x < s.upper then s.values else []

/-- The values at a point: empty where the map has no segment. -/
def find (m : IntervalMap ι α) (x : ι) : List α := m.flatMap fun s => valuesAt s x

/-- `m += (right_open(lower, upper), values)`. -/
def add (m : IntervalMap ι α) (lower upper : ι) (values : List α) : IntervalMap ι α :=
  if lower < upper ∧ values ≠ [] then m ++ [⟨lower, upper, values⟩] else m

@[simp] theorem find_nil (x : ι) : find ([] : IntervalMap ι α) x = [] := rfl

/-- **Adding a segment changes the map inside it, where its values are joined.** -/
theorem find_add (m : IntervalMap ι α) (lower upper : ι) (values : List α) (x : ι) :
    (m.add lower upper values).find x =
      m.find x ++ if lower ≤ x ∧ x < upper then values else [] := by
  unfold add
  split_ifs with h1 h2 h2
  · simp [find, valuesAt, h2]
  · simp [find, valuesAt, h2]
  · have hempty : values = [] := by
      by_contra hne
      exact h1 ⟨h2.1.trans_lt h2.2, hne⟩
    rw [hempty, List.append_nil]
  · rw [List.append_nil]

/-- No segment reaches beyond `b`. -/
def EndsBy (m : IntervalMap ι α) (b : ι) : Prop := ∀ s ∈ m, s.upper ≤ b

theorem EndsBy.find {m : IntervalMap ι α} {b x : ι} (h : m.EndsBy b) (hx : b ≤ x) :
    m.find x = [] := by
  rw [IntervalMap.find, List.flatMap_eq_nil_iff]
  intro s hs
  rw [valuesAt, if_neg]
  rintro ⟨-, hlt⟩
  exact absurd (hlt.trans_le (h s hs)) (not_lt.2 hx)

theorem EndsBy.add {m : IntervalMap ι α} {b lower upper : ι} {values : List α} (h : m.EndsBy b)
    (hb : b ≤ upper) : (m.add lower upper values).EndsBy upper := by
  unfold IntervalMap.add
  split_ifs with hne
  · intro s hs
    rcases List.mem_append.1 hs with hs | hs
    · exact (h s hs).trans hb
    · rw [List.mem_singleton.1 hs]
  · intro s hs
    exact (h s hs).trans hb

/-! ### Joining -/

/-- The segments are not empty and lie in order. -/
structure Ordered (m : IntervalMap ι α) : Prop where
  nonempty : ∀ s ∈ m, s.lower < s.upper
  order : m.Pairwise fun s t => s.upper ≤ t.lower

theorem mem_add {m : IntervalMap ι α} {lower upper : ι} {values : List α} {s : Segment ι α}
    (h : s ∈ m.add lower upper values) : s ∈ m ∨ s.values = values ∧ values ≠ [] := by
  unfold IntervalMap.add at h
  split_ifs at h with hne
  · rcases List.mem_append.1 h with h | h
    · exact .inl h
    · rw [List.mem_singleton.1 h]
      exact .inr ⟨rfl, hne.2⟩
  · exact .inl h

theorem Ordered.add {m : IntervalMap ι α} {lower upper : ι} {values : List α} (h : m.Ordered)
    (hends : m.EndsBy lower) : (m.add lower upper values).Ordered := by
  unfold IntervalMap.add
  split_ifs with hne
  · refine ⟨fun s hs => ?_, List.pairwise_append.2 ⟨h.order, by simp, fun s hs t ht => ?_⟩⟩
    · rcases List.mem_append.1 hs with hs | hs
      · exact h.nonempty s hs
      · rw [List.mem_singleton.1 hs]
        exact hne.1
    · rw [List.mem_singleton.1 ht]
      exact hends s hs
  · exact h

/-- The rest of the map, joined onto the segment before it: a touching segment whose values
compare equal extends it and leaves its own values. -/
def joinOnto [DecidableEq ι] (eqv : List α → List α → Bool) :
    Segment ι α → IntervalMap ι α → IntervalMap ι α
  | s, [] => [s]
  | s, t :: m =>
    if s.upper = t.lower ∧ eqv s.values t.values then
      joinOnto eqv ⟨s.lower, t.upper, t.values⟩ m
    else s :: joinOnto eqv t m

/-- The map with its touching segments joined where their values compare equal. -/
def joined [DecidableEq ι] (eqv : List α → List α → Bool) : IntervalMap ι α → IntervalMap ι α
  | [] => []
  | s :: m => joinOnto eqv s m

/-- No two touching segments have related values. -/
def Minimal (r : List α → List α → Prop) (m : IntervalMap ι α) : Prop :=
  ∀ s ∈ m, ∀ t ∈ m, s.upper = t.lower → ¬r s.values t.values

/-- Touching segments lie one after the other. -/
theorem Ordered.minimal_iff {r : List α → List α → Prop} {m : IntervalMap ι α} (h : m.Ordered) :
    Minimal r m ↔ m.IsChain fun s t => s.upper = t.lower → ¬r s.values t.values := by
  induction m with
  | nil => exact ⟨fun _ => .nil, fun _ s hs => absurd hs List.not_mem_nil⟩
  | cons s m ih =>
    obtain ⟨hs, horder⟩ := List.pairwise_cons.1 h.order
    have hm : Ordered m := ⟨fun t ht => h.nonempty t (List.mem_cons_of_mem s ht), horder⟩
    have hself := h.nonempty s List.mem_cons_self
    rw [List.isChain_cons, ← ih hm]
    constructor
    · intro hmin
      refine ⟨fun t ht => ?_, fun t ht u hu => ?_⟩
      · exact hmin s List.mem_cons_self t (List.mem_cons_of_mem s (List.mem_of_mem_head? ht))
      · exact hmin t (List.mem_cons_of_mem s ht) u (List.mem_cons_of_mem s hu)
    · rintro ⟨hhead, hmin⟩ t ht u hu htouch
      rcases List.mem_cons.1 ht with rfl | htm <;> rcases List.mem_cons.1 hu with rfl | hum
      · exact absurd htouch hself.ne'
      · -- a segment between them would have to be empty
        cases m with
        | nil => exact absurd hum List.not_mem_nil
        | cons v m =>
          rcases List.mem_cons.1 hum with rfl | huv
          · exact hhead u rfl htouch
          · have hv := hm.nonempty v List.mem_cons_self
            have hvu := (List.pairwise_cons.1 hm.order).1 u huv
            have htv := hs v List.mem_cons_self
            rw [htouch] at htv
            exact absurd (hv.trans_le hvu) (not_lt.2 htv)
      · have hlt := hm.nonempty t htm
        rw [htouch] at hlt
        exact absurd (hlt.trans hself) (not_lt.2 (hs t htm))
      · exact hmin t htm u hum htouch

section Joined

variable {eqv : List α → List α → Bool} {r : List α → List α → Prop}

/-- The first segment of the joined rest starts where the rest did, with related values. -/
theorem head_joinOnto (hrefl : ∀ v, r v v) (htrans : ∀ u v w, r u v → r v w → r u w)
    (heqv : ∀ u v, eqv u v → r u v) (s : Segment ι α) (m : IntervalMap ι α) :
    ∃ t, (joinOnto eqv s m).head? = some t ∧ t.lower = s.lower ∧ r s.values t.values := by
  induction m generalizing s with
  | nil => exact ⟨s, rfl, rfl, hrefl _⟩
  | cons t m ih =>
    rw [joinOnto]
    split_ifs with h
    · obtain ⟨u, hu, hlower, hr⟩ := ih ⟨s.lower, t.upper, t.values⟩
      exact ⟨u, hu, hlower, htrans _ _ _ (heqv _ _ h.2) hr⟩
    · exact ⟨s, rfl, rfl, hrefl _⟩

theorem mem_joinOnto {s t : Segment ι α} {m : IntervalMap ι α} {lower : ι}
    (hlower : ∀ u ∈ s :: m, lower ≤ u.lower) (ht : t ∈ joinOnto eqv s m) : lower ≤ t.lower := by
  induction m generalizing s with
  | nil => exact hlower t ht
  | cons u m ih =>
    rw [joinOnto] at ht
    split_ifs at ht with h
    · refine ih (fun v hv => ?_) ht
      rcases List.mem_cons.1 hv with rfl | hv
      · exact hlower s List.mem_cons_self
      · exact hlower v (by simp [hv])
    · rcases List.mem_cons.1 ht with rfl | ht
      · exact hlower t List.mem_cons_self
      · exact ih (fun v hv => hlower v (List.mem_cons_of_mem s hv)) ht

theorem Ordered.joinOnto {s : Segment ι α} {m : IntervalMap ι α} (h : Ordered (s :: m)) :
    Ordered (joinOnto eqv s m) := by
  induction m generalizing s with
  | nil => exact h
  | cons t m ih =>
    obtain ⟨hs, horder⟩ := List.pairwise_cons.1 h.order
    obtain ⟨ht, hrest⟩ := List.pairwise_cons.1 horder
    have htail : Ordered (t :: m) := ⟨fun u hu => h.nonempty u (List.mem_cons_of_mem s hu), horder⟩
    rw [IntervalMap.joinOnto]
    split_ifs with hjoin
    · refine ih ⟨fun u hu => ?_, List.pairwise_cons.2 ⟨ht, hrest⟩⟩
      rcases List.mem_cons.1 hu with rfl | hu
      · have hlt := h.nonempty s List.mem_cons_self
        rw [hjoin.1] at hlt
        exact hlt.trans (htail.nonempty t List.mem_cons_self)
      · exact htail.nonempty u (List.mem_cons_of_mem t hu)
    · have hj := ih htail
      refine ⟨fun u hu => ?_, List.pairwise_cons.2 ⟨fun u hu => ?_, hj.order⟩⟩
      · rcases List.mem_cons.1 hu with rfl | hu
        · exact h.nonempty u List.mem_cons_self
        · exact hj.nonempty u hu
      · exact mem_joinOnto hs hu

/-- **Joining leaves exactly the repetitions that do not compare equal.** -/
theorem minimal_joined_iff (hrefl : ∀ v, r v v) (hsymm : ∀ u v, r u v → r v u)
    (htrans : ∀ u v w, r u v → r v w → r u w) (heqv : ∀ u v, eqv u v → r u v)
    {m : IntervalMap ι α} (h : m.Ordered) :
    Minimal r (joined eqv m) ↔
      m.IsChain fun s t => s.upper = t.lower → r s.values t.values → eqv s.values t.values := by
  cases m with
  | nil => exact ⟨fun _ => .nil, fun _ s hs => absurd hs List.not_mem_nil⟩
  | cons s m =>
    rw [joined, h.joinOnto.minimal_iff]
    clear h
    induction m generalizing s with
    | nil => exact ⟨fun _ => .singleton s, fun _ => .singleton s⟩
    | cons t m ih =>
      rw [joinOnto, List.isChain_cons_cons]
      split_ifs with hjoin
      · rw [ih, and_iff_right fun _ _ => hjoin.2]
        rw [List.isChain_cons, List.isChain_cons]
      · obtain ⟨u, hu, hlower, hr⟩ := head_joinOnto hrefl htrans heqv t m
        rw [List.isChain_cons, ih, hu]
        refine and_congr_left fun _ => ⟨fun hne htouch hst => ?_, fun hst v hv htouch hrv => ?_⟩
        · exact absurd (htrans _ _ _ hst hr) (hne u rfl (htouch.trans hlower.symm))
        · obtain rfl := Option.some.inj hv
          rw [hlower] at htouch
          exact hjoin ⟨htouch, hst htouch (htrans _ _ _ hrv (hsymm _ _ hr))⟩

/-- Adding a segment at the end repeats the last one or keeps the joined map minimal. -/
theorem minimal_joined_add_iff (hrefl : ∀ v, r v v) (hsymm : ∀ u v, r u v → r v u)
    (htrans : ∀ u v w, r u v → r v w → r u w) (heqv : ∀ u v, eqv u v → r u v)
    {m : IntervalMap ι α} {lower upper : ι} {values : List α} (h : m.Ordered)
    (hends : m.EndsBy lower) :
    Minimal r (joined eqv (m.add lower upper values)) ↔
      Minimal r (joined eqv m) ∧ (lower < upper → values ≠ [] →
        ∀ s, m.getLast? = some s → s.upper = lower → r s.values values → eqv s.values values) := by
  rw [minimal_joined_iff hrefl hsymm htrans heqv (h.add hends),
    minimal_joined_iff hrefl hsymm htrans heqv h]
  unfold IntervalMap.add
  split_ifs with hne
  · rw [List.isChain_append]
    constructor
    · rintro ⟨hm, -, hlast⟩
      exact ⟨hm, fun _ _ s hs => hlast s hs _ rfl⟩
    · rintro ⟨hm, hlast⟩
      refine ⟨hm, .singleton _, fun s hs t ht => ?_⟩
      obtain rfl := Option.some.inj ht
      exact hlast hne.1 hne.2 s hs
  · exact ⟨fun hm => ⟨hm, fun hlt hv => absurd ⟨hlt, hv⟩ hne⟩, fun hm => hm.1⟩

end Joined

end IntervalMap

end Lib
end Dwarfpp
