/-
# Searching a graph

A search from a vertex of a graph that is given as the list of its edges: while an edge
leads from a vertex that is reached to one that is not, it is followed.  This reaches
just the vertices there are paths to (`has_search_iff`), and each of them from one that
was reached before it (`Grown.lookup`).
-/

import Mathlib

namespace Dwarfpp
namespace Lib

variable {α : Type} [DecidableEq α]

/-- The vertices that a search has reached, the last first, each with the one it came from. -/
abbrev Reached (α : Type) := List (α × α)

namespace Reached

/-- A vertex is the start of the search or is reached. -/
def Has (start : α) (found : Reached α) (v : α) : Prop := v = start ∨ ∃ x ∈ found, x.1 = v

instance (start : α) (found : Reached α) (v : α) : Decidable (found.Has start v) :=
  inferInstanceAs (Decidable (_ ∨ _))

/-- An edge leads to a vertex that is not reached. -/
def Leaves (start : α) (found : Reached α) (e : α × α) : Prop :=
  found.Has start e.1 ∧ ¬found.Has start e.2

instance (start : α) (found : Reached α) (e : α × α) : Decidable (found.Leaves start e) :=
  inferInstanceAs (Decidable (_ ∧ _))

/-- Follows edges to new vertices while there are some. -/
def search (edges : List (α × α)) (start : α) : ℕ → Reached α → Reached α
  | 0, found => found
  | fuel + 1, found =>
    match edges.find? fun e => found.Leaves start e with
    | none => found
    | some e => search edges start fuel ((e.2, e.1) :: found)

/-- How many were reached up to a vertex. -/
def depth (found : Reached α) (v : α) : ℕ := (found.dropWhile fun x => x.1 ≠ v).length

/-- Each vertex that is reached comes from one that was reached before. -/
inductive Grown (edges : List (α × α)) (start : α) : Reached α → Prop
  | nil : Grown edges start []
  | cons {found e} : Grown edges start found → e ∈ edges → found.Leaves start e →
    Grown edges start ((e.2, e.1) :: found)

section

variable {edges : List (α × α)} {start v : α} {found : Reached α} {e : α × α} {fuel : ℕ}

omit [DecidableEq α] in
theorem has_cons_iff {u : α} : Has start ((u, e.1) :: found) v ↔ found.Has start v ∨ u = v := by
  simp only [Has, List.exists_mem_cons_iff]
  rw [or_assoc, or_comm (a := u = v)]

theorem Leaves.of_find (h : edges.find? (fun e => found.Leaves start e) = some e) :
    e ∈ edges ∧ found.Leaves start e :=
  ⟨List.mem_of_find?_eq_some h, by simpa using List.find?_some h⟩

theorem search_grown (h : Grown edges start found) :
    Grown edges start (search edges start fuel found) := by
  induction fuel generalizing found with
  | zero => exact h
  | succ fuel ih =>
    rw [search]
    cases hfind : edges.find? (fun e => found.Leaves start e) with
    | none => exact h
    | some e =>
      obtain ⟨he, hleaves⟩ := Leaves.of_find hfind
      exact ih (.cons h he hleaves)

/-- With a step for each edge that leads to a new vertex, no edge leads to one in the end. -/
theorem search_closed (h : edges.countP (fun e => ¬found.Has start e.2) ≤ fuel) :
    ∀ e ∈ edges, ¬(search edges start fuel found).Leaves start e := by
  induction fuel generalizing found with
  | zero =>
    intro e he hleaves
    exact List.countP_eq_zero.1 (Nat.le_zero.1 h) e he (decide_eq_true hleaves.2)
  | succ fuel ih =>
    rw [search]
    cases hfind : edges.find? (fun e => found.Leaves start e) with
    | none => exact fun e he hleaves => List.find?_eq_none.1 hfind e he (decide_eq_true hleaves)
    | some e =>
      obtain ⟨he, hleaves⟩ := Leaves.of_find hfind
      -- the edge that is followed does not count any more
      obtain ⟨before, after, rfl⟩ := List.append_of_mem he
      have hmono : ∀ l : List (α × α),
          l.countP (fun e' => ¬Has start ((e.2, e.1) :: found) e'.2) ≤
            l.countP (fun e' => ¬found.Has start e'.2) := by
        refine fun l => List.countP_mono_left fun e' _ hnot => decide_eq_true fun hhas => ?_
        exact of_decide_eq_true hnot (has_cons_iff.2 (.inl hhas))
      have hbefore := hmono before
      have hafter := hmono after
      rw [List.countP_append, List.countP_cons_of_pos (by simpa using hleaves.2)] at h
      refine ih ?_
      rw [List.countP_append, List.countP_cons_of_neg (by simp [has_cons_iff])]
      omega

/-- **A vertex that is reached has a predecessor that was reached before.** -/
theorem Grown.lookup (h : Grown edges start found) (hhas : found.Has start v) (hne : v ≠ start) :
    ∃ u, found.lookup v = some u ∧ (u, v) ∈ edges ∧ found.Has start u ∧
      found.depth u < found.depth v := by
  induction h with
  | nil => exact absurd hhas (by simp [Has, hne])
  | @cons found e hgrown he hleaves ih =>
    have hskip : ∀ u, found.Has start u → depth ((e.2, e.1) :: found) u = found.depth u := by
      intro u hu
      have hu' : e.2 ≠ u := fun heq => hleaves.2 (heq ▸ hu)
      rw [depth, List.dropWhile_cons_of_pos (by simpa using hu')]
      rfl
    by_cases hv : e.2 = v
    · subst hv
      refine ⟨e.1, List.lookup_cons_self, he, has_cons_iff.2 (.inl hleaves.1), ?_⟩
      rw [hskip _ hleaves.1, depth, depth, List.dropWhile_cons_of_neg (by simp), List.length_cons]
      exact Nat.lt_succ_of_le (List.dropWhile_sublist _).length_le
    · obtain ⟨u, hu, hedge, hhas', hdepth⟩ := ih ((has_cons_iff.1 hhas).resolve_right hv)
      refine ⟨u, ?_, hedge, has_cons_iff.2 (.inl hhas'), ?_⟩
      · rw [List.lookup_cons, beq_false_of_ne (Ne.symm hv)]
        exact hu
      · rwa [hskip _ hhas', hskip _ ((has_cons_iff.1 hhas).resolve_right hv)]

/-- **A search reaches just what there is a path to.** -/
theorem has_search_iff : (search edges start edges.length []).Has start v ↔
    Relation.ReflTransGen (fun u v => (u, v) ∈ edges) start v := by
  constructor
  · intro hhas
    have hgrown : Grown edges start (search edges start edges.length []) := search_grown .nil
    induction hd : (search edges start edges.length []).depth v using Nat.strongRecOn
      generalizing v with
    | _ d ih =>
      by_cases hv : v = start
      · exact hv ▸ .refl
      · obtain ⟨u, -, hedge, hhas', hdepth⟩ := hgrown.lookup hhas hv
        exact (ih _ (hd ▸ hdepth) hhas' rfl).tail hedge
  · intro hpath
    induction hpath with
    | refl => exact .inl rfl
    | @tail u w _ hedge ih =>
      by_contra hnot
      exact search_closed List.countP_le_length (u, w) hedge ⟨ih, hnot⟩

theorem lookup_eq_none (h : ¬found.Has start v) : found.lookup v = none := by
  rw [List.lookup_eq_none_iff]
  intro x hx
  simpa using fun heq => h (.inr ⟨x, hx, heq.symm⟩)

end

end Reached

end Lib
end Dwarfpp
