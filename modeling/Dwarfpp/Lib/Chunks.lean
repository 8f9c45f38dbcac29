/-
# Lists cut at their markers

A list is cut behind every element that meets `p`: `Chunk p` is a run of elements
that do not, closed by one that does.  Every list is a sequence of chunks and a
tail without markers (`exists_chunks`).
-/

import Mathlib

namespace Dwarfpp
namespace Lib

/-- Behind the first part of what is left of a list is the second. -/
theorem drop_of_drop_eq_append {α : Type} {l a b : List α} {n : ℕ} (h : l.drop n = a ++ b) :
    l.drop (n + a.length) = b := by
  rw [← List.drop_drop, h, List.drop_left]

/-- Elements that are no markers, and the marker that ends them. -/
structure Chunk {α : Type} (p : α → Prop) where
  body : List α
  last : α
  plain : ∀ a ∈ body, ¬p a
  ends : p last

namespace Chunk

variable {α : Type} {p : α → Prop}

/-- The elements of a chunk, its marker included. -/
def list (s : Chunk p) : List α := s.body ++ [s.last]

/-- The list that chunks make up. -/
def join (cs : List (Chunk p)) : List α := cs.flatMap list

@[simp] theorem join_nil : join ([] : List (Chunk p)) = [] := rfl

@[simp] theorem join_cons (s : Chunk p) (cs : List (Chunk p)) :
    join (s :: cs) = s.list ++ join cs := List.flatMap_cons

@[simp] theorem length_list (s : Chunk p) : s.list.length = s.body.length + 1 := by
  simp [list]

@[simp] theorem list_ne_nil (s : Chunk p) : s.list ≠ [] := List.concat_ne_nil _ _

theorem last_mem_join {cs : List (Chunk p)} {s : Chunk p} (h : s ∈ cs) :
    s.last ∈ join cs :=
  List.mem_flatMap.2 ⟨s, h, List.mem_append_right _ (List.mem_singleton_self _)⟩

/-- **Every list is a sequence of chunks and a tail without markers.** -/
theorem exists_chunks (p : α → Prop) (l : List α) :
    ∃ cs : List (Chunk p), ∃ tail : List α, (∀ a ∈ tail, ¬p a) ∧ l = join cs ++ tail := by
  induction l with
  | nil => exact ⟨[], [], fun a ha => absurd ha List.not_mem_nil, rfl⟩
  | cons a l ih =>
    obtain ⟨cs, tail, htail, rfl⟩ := ih
    by_cases ha : p a
    · refine ⟨⟨[], a, fun b hb => absurd hb List.not_mem_nil, ha⟩ :: cs, tail, htail, ?_⟩
      rw [join_cons, list]
      rfl
    -- an element that is no marker joins the chunk before which it stands
    · cases cs with
      | nil => exact ⟨[], a :: tail, List.forall_mem_cons.2 ⟨ha, htail⟩, rfl⟩
      | cons s cs =>
        refine ⟨⟨a :: s.body, s.last, List.forall_mem_cons.2 ⟨ha, s.plain⟩, s.ends⟩ :: cs,
          tail, htail, ?_⟩
        rw [join_cons, join_cons, list, list]
        rfl

/-- The markers of a list are the ends of its chunks. -/
theorem filter_join [DecidablePred p] (cs : List (Chunk p)) {tail : List α}
    (htail : ∀ a ∈ tail, ¬p a) :
    (join cs ++ tail).filter (p ·) = cs.map (·.last) := by
  have hplain : ∀ l : List α, (∀ a ∈ l, ¬p a) → l.filter (p ·) = [] := fun l hl =>
    List.filter_eq_nil_iff.2 fun a ha => by simpa using hl a ha
  rw [List.filter_append, hplain tail htail, List.append_nil]
  induction cs with
  | nil => rfl
  | cons s cs ih =>
    rw [join_cons, List.filter_append, ih, list, List.filter_append, hplain s.body s.plain]
    simp [s.ends]

end Chunk

end Lib
end Dwarfpp
