/-
# The order of a breadth-first search

A breadth-first search whose frontier is a queue of families (`Dwarfpp.Lib.BreadthFirst`) queues
first children only, and goes through siblings from each of them.  All the same it visits the
nodes level by level, and each level in pre-order (`visits_eq`).

The frontier is always some families of one level followed by families of the next.  What
is still to be visited on a level is in the families behind first, whose first children
were queued earlier, and then in those in front (`level_step`).
-/

import Mathlib
import Dwarfpp.Lib.BreadthFirst

namespace Dwarfpp
namespace Lib
namespace Preorder

variable {α : Type} (depth : α → ℕ)

/-- What a search visits in at most `fuel` steps. -/
def visits : ℕ → List (List α) → List α
  | 0, _ => []
  | _ + 1, [] => []
  | fuel + 1, s :: q =>
    match s with
    | [] => visits fuel q
    | x :: l => x :: visits fuel (advance depth (x :: l) q)

/-- The nodes of a tree each once, level after level, and each level in pre-order. -/
structure LevelOrder (t xs : List α) : Prop where
  perm : xs.Perm t
  ascending : xs.Pairwise fun x y => depth x ≤ depth y
  levels : ∀ d, (xs.filter fun x => depth x = d) = t.filter fun x => depth x = d

/-- The nodes of one level in the families of a frontier. -/
def level (f : List (List α)) (e : ℕ) : List α :=
  f.flatMap fun s => (family depth s).filter fun x => depth x = e

/-- The place is at a node of depth `d`. -/
def HeadAt (d : ℕ) (s : List α) : Prop := ∃ x l, s = x :: l ∧ depth x = d ∧ Steps depth s

variable {depth}

section Levels

variable {t xs : List α} {x : α} {l : List α} {now later : List (List α)} {d e n : ℕ}

theorem level_append (f g : List (List α)) :
    level depth (f ++ g) e = level depth f e ++ level depth g e :=
  List.flatMap_append

theorem level_cons (s : List α) (f : List (List α)) :
    level depth (s :: f) e = ((family depth s).filter fun x => depth x = e) ++ level depth f e :=
  List.flatMap_cons

theorem level_places (s : List α) :
    level depth (places s) e = (family depth s).filter fun x => depth x = e := by
  cases s with
  | nil => rfl
  | cons x l => rw [places_cons, level_cons, level, List.flatMap_nil, List.append_nil]

/-- A family has no node above its first. -/
theorem le_depth_of_mem_family {y : α} (hy : y ∈ family depth (x :: l)) : depth x ≤ depth y := by
  rcases List.mem_cons.1 hy with rfl | hy
  · exact Nat.le_refl _
  · simpa using List.mem_takeWhile_imp hy

theorem level_eq_nil {f : List (List α)} (h : ∀ s ∈ f, HeadAt depth d s) (he : e < d) :
    level depth f e = [] := by
  refine List.flatMap_eq_nil_iff.2 fun s hs => ?_
  obtain ⟨x, l, rfl, rfl, -⟩ := h s hs
  refine List.filter_eq_nil_iff.2 fun y hy => ?_
  have hle := le_depth_of_mem_family hy
  rw [decide_eq_true_eq]
  omega

theorem HeadAt.firstChild (hs : Steps depth (x :: l)) {s : List α}
    (h : s ∈ places (firstChild depth (x :: l))) : HeadAt depth (depth x + 1) s := by
  obtain ⟨rfl, hne⟩ := mem_places.1 h
  obtain ⟨y, m, hy⟩ := List.exists_cons_of_ne_nil hne
  refine ⟨y, m, hy, (firstChild_eq_cons.1 hy).2, ?_⟩
  exact hs.suffix ((firstChild_suffix x l).trans (List.suffix_cons x l))

theorem HeadAt.nextSibling (hs : Steps depth (x :: l)) {s : List α}
    (h : s ∈ places (nextSibling depth (x :: l))) : HeadAt depth (depth x) s := by
  obtain ⟨rfl, hne⟩ := mem_places.1 h
  obtain ⟨y, m, hy⟩ := List.exists_cons_of_ne_nil hne
  refine ⟨y, m, hy, (nextSibling_eq_cons.1 hy).2, ?_⟩
  exact hs.suffix ((nextSibling_suffix x l).trans (List.suffix_cons x l))

/-- **What a step visits** is the first node of its level, and nothing of the others. -/
theorem level_step (hs : Steps depth (x :: l)) (hlater : ∀ s ∈ later, HeadAt depth (depth x + 1) s) :
    level depth (later ++ (x :: l) :: now) e =
      (if depth x = e then [x] else []) ++
        level depth ((later ++ places (firstChild depth (x :: l))) ++
          (places (nextSibling depth (x :: l)) ++ now)) e := by
  have hfamily : family depth (x :: l) = x :: (family depth (firstChild depth (x :: l)) ++
      family depth (nextSibling depth (x :: l))) := by
    rw [family_eq, subtree_eq hs, List.cons_append]
  have hnode : [x].filter (fun y => decide (depth y = e)) = if depth x = e then [x] else [] := by
    by_cases he : depth x = e
    · rw [if_pos he, List.filter_cons_of_pos (by simpa using he), List.filter_nil]
    · rw [if_neg he, List.filter_cons_of_neg (by simpa using he), List.filter_nil]
  rw [level_append, level_cons, hfamily, ← List.singleton_append, List.filter_append,
    List.filter_append, hnode, level_append, level_append, level_append, level_places, level_places]
  by_cases he : depth x = e
  · rw [level_eq_nil hlater (by omega)]
    simp only [List.nil_append, List.append_assoc]
  · rw [if_neg he]
    simp only [List.nil_append, List.append_assoc]

/-- A step brings nothing into the frontier. -/
theorem covers_of_advance {q : List (List α)} {y : α} (hs : Steps depth (x :: l))
    (h : Covers depth (advance depth (x :: l) q) y) : Covers depth ((x :: l) :: q) y := by
  rw [advance, covers_append, covers_append, covers_places, covers_places] at h
  rw [covers_cons, family_eq, subtree_eq hs, List.mem_append, List.mem_cons]
  tauto

/-- A list of levels of which one begins with `x`. -/
theorem flatMap_range_cons {f g : ℕ → List α} (hd : d < n) (hbelow : ∀ e < d, f e = [])
    (hat : f d = x :: g d) (hother : ∀ e, e ≠ d → f e = g e) :
    (List.range n).flatMap f = x :: (List.range n).flatMap g := by
  induction n with
  | zero => exact absurd hd (Nat.not_lt_zero d)
  | succ n ih =>
    rw [List.range_succ, List.flatMap_append, List.flatMap_append, List.flatMap_singleton,
      List.flatMap_singleton]
    rcases Nat.lt_succ_iff_lt_or_eq.1 hd with hlt | rfl
    · rw [ih hlt, hother n (Nat.ne_of_gt hlt), List.cons_append]
    · have hf : (List.range d).flatMap f = [] :=
        List.flatMap_eq_nil_iff.2 fun e he => hbelow e (List.mem_range.1 he)
      have hg : (List.range d).flatMap g = [] := by
        refine List.flatMap_eq_nil_iff.2 fun e he => ?_
        have hlt := List.mem_range.1 he
        rw [← hother e (Nat.ne_of_lt hlt), hbelow e hlt]
      rw [hf, hg, List.nil_append, List.nil_append, hat]

/-- **A breadth-first search visits level after level.** -/
theorem visits_levels {fuel : ℕ} (hnow : ∀ s ∈ now, HeadAt depth d s)
    (hlater : ∀ s ∈ later, HeadAt depth (d + 1) s) (hempty : now = [] → later = [])
    (hdepth : ∀ s ∈ now ++ later, ∀ y ∈ family depth s, depth y < n)
    (hfuel : weight depth (now ++ later) < fuel) :
    visits depth fuel (now ++ later) =
      (List.range n).flatMap (level depth (later ++ now)) := by
  induction fuel generalizing d now later with
  | zero => exact absurd hfuel (Nat.not_lt_zero _)
  | succ fuel ih =>
    cases now with
    | nil =>
      rw [hempty rfl]
      exact (List.flatMap_eq_nil_iff.2 fun e _ => rfl).symm
    | cons s now =>
      obtain ⟨x, l, rfl, rfl, hs⟩ := hnow s List.mem_cons_self
      have hstep : visits depth (fuel + 1) ((x :: l) :: now ++ later) =
          x :: visits depth fuel ((places (nextSibling depth (x :: l)) ++ now) ++
            (later ++ places (firstChild depth (x :: l)))) := by
        rw [List.cons_append, visits, advance]
        simp only [List.append_assoc]
      have hweight := weight_advance (q := now ++ later) hs
      rw [List.cons_append] at hfuel
      rw [hstep]
      have hrest : visits depth fuel ((places (nextSibling depth (x :: l)) ++ now) ++
            (later ++ places (firstChild depth (x :: l)))) =
          (List.range n).flatMap (level depth ((later ++ places (firstChild depth (x :: l))) ++
            (places (nextSibling depth (x :: l)) ++ now))) := by
        have hnow' : ∀ s ∈ places (nextSibling depth (x :: l)) ++ now, HeadAt depth (depth x) s :=
          fun s hmem => (List.mem_append.1 hmem).elim (.nextSibling hs)
            fun h => hnow s (List.mem_cons_of_mem _ h)
        have hlater' : ∀ s ∈ later ++ places (firstChild depth (x :: l)),
            HeadAt depth (depth x + 1) s :=
          fun s hmem => (List.mem_append.1 hmem).elim (hlater s) (.firstChild hs)
        have hdepth' : ∀ s ∈ (places (nextSibling depth (x :: l)) ++ now) ++
            (later ++ places (firstChild depth (x :: l))), ∀ y ∈ family depth s, depth y < n := by
          intro s hmem y hy
          have hcovers : Covers depth (advance depth (x :: l) (now ++ later)) y := by
            rw [advance, ← List.append_assoc, ← List.append_assoc]
            rw [← List.append_assoc] at hmem
            exact ⟨s, hmem, hy⟩
          obtain ⟨s', hs', hy'⟩ := covers_of_advance hs hcovers
          exact hdepth s' hs' y hy'
        have hfuel' : weight depth ((places (nextSibling depth (x :: l)) ++ now) ++
            (later ++ places (firstChild depth (x :: l)))) < fuel := by
          rw [advance, ← List.append_assoc, ← List.append_assoc, List.append_assoc _ later] at hweight
          omega
        cases hnil : places (nextSibling depth (x :: l)) ++ now with
        | cons s' now' =>
          rw [← hnil]
          exact ih hnow' hlater' (fun h => by rw [hnil] at h; cases h) hdepth' hfuel'
        | nil =>
          -- The level is done, and the next one is in front.
          rw [hnil, List.nil_append] at hdepth' hfuel'
          have hnext : visits depth fuel ((later ++ places (firstChild depth (x :: l))) ++ []) =
              (List.range n).flatMap
                (level depth ([] ++ (later ++ places (firstChild depth (x :: l))))) :=
            ih hlater' (fun s hmem => absurd hmem List.not_mem_nil) (fun _ => rfl)
              (by rwa [List.append_nil]) (by rwa [List.append_nil])
          rw [List.append_nil, List.nil_append] at hnext
          rwa [List.nil_append, List.append_nil]
      rw [hrest]
      refine (flatMap_range_cons (d := depth x) ?_ ?_ ?_ ?_).symm
      · exact hdepth _ List.mem_cons_self x List.mem_cons_self
      · intro e he
        rw [level_append, level_eq_nil hlater (by omega), level_eq_nil hnow he, List.append_nil]
      · rw [level_step hs hlater, if_pos rfl, List.singleton_append]
      · intro e he
        rw [level_step hs hlater, if_neg (Ne.symm he), List.nil_append]

/-- The levels are all of the nodes. -/
theorem flatMap_levels_perm (h : ∀ x ∈ t, depth x < n) :
    ((List.range n).flatMap fun e => t.filter fun x => depth x = e).Perm t := by
  induction n generalizing t with
  | zero =>
    rw [List.eq_nil_iff_forall_not_mem.2 fun x hx => Nat.not_lt_zero _ (h x hx)]
    exact .nil
  | succ n ih =>
    have hrest : ((List.range n).flatMap fun e =>
        (t.filter fun x => ¬depth x = n).filter fun x => depth x = e).Perm
          (t.filter fun x => ¬depth x = n) := by
      refine ih fun x hx => ?_
      obtain ⟨hx, hne⟩ := List.mem_filter.1 hx
      have hlt := h x hx
      rw [decide_eq_true_eq] at hne
      omega
    have hsame : ((List.range n).flatMap fun e =>
        (t.filter fun x => ¬depth x = n).filter fun x => depth x = e) =
          (List.range n).flatMap fun e => t.filter fun x => depth x = e := by
      refine List.flatMap_congr fun e he => ?_
      rw [List.filter_filter]
      refine List.filter_congr fun x _ => ?_
      have hlt := List.mem_range.1 he
      rw [Bool.eq_iff_iff]
      simp only [Bool.and_eq_true, decide_eq_true_eq]
      omega
    rw [List.range_succ, List.flatMap_append, List.flatMap_singleton, ← hsame]
    refine (hrest.append_right _).trans (List.perm_append_comm.trans ?_)
    simpa only [decide_not] using List.filter_append_perm (fun x => decide (depth x = n)) t

/-- One of the levels. -/
theorem filter_flatMap_levels (t : List α) (n d : ℕ) :
    (((List.range n).flatMap fun e => t.filter fun x => depth x = e).filter fun x => depth x = d) =
      if d < n then t.filter fun x => depth x = d else [] := by
  induction n with
  | zero => rfl
  | succ n ih =>
    have hlast : ((t.filter fun x => depth x = n).filter fun x => depth x = d) =
        if d = n then t.filter fun x => depth x = d else [] := by
      rw [List.filter_filter]
      split_ifs with hd
      · refine List.filter_congr fun x _ => ?_
        rw [hd, Bool.and_self]
      · refine List.filter_eq_nil_iff.2 fun x _ heq => ?_
        simp only [Bool.and_eq_true, decide_eq_true_eq] at heq
        omega
    rw [List.range_succ, List.flatMap_append, List.flatMap_singleton, List.filter_append, ih, hlast]
    rcases Nat.lt_trichotomy d n with hlt | rfl | hgt
    · rw [if_pos hlt, if_neg (by omega), if_pos (by omega), List.append_nil]
    · rw [if_neg (by omega), if_pos rfl, if_pos (by omega), List.nil_append]
    · rw [if_neg (by omega), if_neg (by omega), if_neg (by omega), List.nil_append]

/-- **Level after level, each in pre-order.** -/
theorem levelOrder_flatMap (h : ∀ x ∈ t, depth x < n) :
    LevelOrder depth t ((List.range n).flatMap fun e => t.filter fun x => depth x = e) where
  perm := flatMap_levels_perm h
  ascending := by
    rw [List.pairwise_flatMap]
    constructor
    · intro e _
      refine List.Pairwise.imp_of_mem (R := fun _ _ => True) (fun {x y} hx hy _ => ?_)
        (List.pairwise_of_forall fun _ _ => trivial)
      have hx := (List.mem_filter.1 hx).2
      have hy := (List.mem_filter.1 hy).2
      rw [decide_eq_true_eq] at hx hy
      omega
    · refine List.pairwise_lt_range.imp fun {e e'} hlt x hx y hy => ?_
      have hx := (List.mem_filter.1 hx).2
      have hy := (List.mem_filter.1 hy).2
      rw [decide_eq_true_eq] at hx hy
      omega
  levels d := by
    rw [filter_flatMap_levels]
    by_cases hd : d < n
    · rw [if_pos hd]
    · rw [if_neg hd, eq_comm, List.filter_eq_nil_iff]
      intro x hx heq
      exact hd (of_decide_eq_true heq ▸ h x hx)

/-- **A breadth-first search visits a family in level order.** -/
theorem visits_levelOrder {fuel : ℕ} (hs : Steps depth (x :: l))
    (hdepth : ∀ y ∈ family depth (x :: l), depth y < n)
    (hfuel : (family depth (x :: l)).length < fuel) :
    LevelOrder depth (family depth (x :: l)) (visits depth fuel [x :: l]) := by
  have hrun : visits depth fuel ([x :: l] ++ []) =
      (List.range n).flatMap (level depth ([] ++ [x :: l])) := by
    refine visits_levels (d := depth x) ?_ ?_ (fun _ => rfl) ?_ ?_
    · intro s hmem
      rw [List.mem_singleton.1 hmem]
      exact ⟨x, l, rfl, rfl, hs⟩
    · exact fun s hmem => absurd hmem List.not_mem_nil
    · intro s hmem y hy
      rw [List.append_nil, List.mem_singleton] at hmem
      rw [hmem] at hy
      exact hdepth y hy
    · rwa [List.append_nil, weight_cons, weight]
  have hlevel : level depth [x :: l] =
      fun e => (family depth (x :: l)).filter fun y => depth y = e := by
    funext e
    rw [level_cons, level, List.flatMap_nil, List.append_nil]
  rw [List.append_nil, List.nil_append, hlevel] at hrun
  rw [hrun]
  exact levelOrder_flatMap hdepth

/-- One node comes before another in level order. -/
def Before (depth key : α → ℕ) (x y : α) : Prop :=
  depth x < depth y ∨ depth x = depth y ∧ key x < key y

/-- **In level order each node comes before those behind it.** -/
theorem LevelOrder.pairwise {key : α → ℕ} (h : LevelOrder depth t xs) (hsorted : Sorted key t) :
    xs.Pairwise (Before depth key) := by
  refine List.pairwise_iff_forall_sublist.2 fun {x y} hxy => ?_
  have hle : depth x ≤ depth y := List.pairwise_iff_forall_sublist.1 h.ascending hxy
  rcases Nat.lt_or_eq_of_le hle with hlt | heq
  · exact .inl hlt
  · -- Nodes of one level are in the order of the tree.
    have hsub : [x, y].Sublist t := by
      have hfilter := hxy.filter fun z => decide (depth z = depth y)
      rw [h.levels (depth y)] at hfilter
      simp only [List.filter_cons, heq, decide_true, if_true, List.filter_nil] at hfilter
      exact hfilter.trans List.filter_sublist
    exact .inr ⟨heq, List.pairwise_iff_forall_sublist.1 hsorted hsub⟩

/-- What is found first in level order is what nothing found comes before. -/
theorem LevelOrder.find?_eq_some_iff {key : α → ℕ} (h : LevelOrder depth t xs)
    (hsorted : Sorted key t) {p : α → Bool} :
    xs.find? p = some x ↔ x ∈ t ∧ p x = true ∧ ∀ y ∈ t, Before depth key y x → p y = false := by
  have hpairs := h.pairwise hsorted
  constructor
  · intro hfind
    obtain ⟨hx, as, bs, rfl, has⟩ := List.find?_eq_some_iff_append.1 hfind
    refine ⟨h.perm.subset (by simp), hx, fun y hy hbefore => ?_⟩
    rcases List.mem_append.1 (h.perm.symm.subset hy) with hmem | hmem
    · simpa using has y hmem
    · rcases List.mem_cons.1 hmem with rfl | hmem
      · rcases hbefore with hlt | ⟨-, hlt⟩ <;> omega
      · have hafter := List.rel_of_pairwise_cons (List.pairwise_append.1 hpairs).2.1 hmem
        rcases hbefore with h₁ | ⟨h₁, h₂⟩ <;> rcases hafter with h₃ | ⟨h₃, h₄⟩ <;> omega
  · rintro ⟨hx, hp, hbefore⟩
    obtain ⟨as, bs, rfl⟩ := List.append_of_mem (h.perm.symm.subset hx)
    refine List.find?_eq_some_iff_append.2 ⟨hp, as, bs, rfl, fun y hy => ?_⟩
    have hlt := (List.pairwise_append.1 hpairs).2.2 y hy x List.mem_cons_self
    rw [hbefore y (h.perm.subset (List.mem_append_left _ hy)) hlt]
    rfl

end Levels

end Preorder
end Lib
end Dwarfpp
