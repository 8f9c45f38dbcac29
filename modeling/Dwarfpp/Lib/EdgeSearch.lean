/-
# A depth-first search that visits edges

A search at an edge enters the node the edge leads to, unless it has been there,
and puts the edges out of it before the edges still to come; then it goes to the
first of these.  `Searched` is the invariant: what has been visited and what is
still to come are together the edges out of the nodes entered.  So on a finite
graph the search ends, and has visited every edge it can reach exactly once
(`exists_edges`).
-/

import Mathlib

namespace Dwarfpp
namespace Lib
namespace EdgeSearch

variable {ν ε : Type}

/-- The node that the current edge leads to, the nodes entered and the edges to come. -/
structure State (ν ε : Type) where
  node : ν
  entered : List ν
  pending : List ε

section Search

variable [DecidableEq ν] (out : ν → List ε) (target : ε → ν)

/-- The current node is entered. -/
def enter (s : State ν ε) : State ν ε :=
  if s.node ∈ s.entered then s
  else { s with entered := s.node :: s.entered, pending := out s.node ++ s.pending }

/-- The next edge, with the search at it. -/
def next (s : State ν ε) : Option (ε × State ν ε) :=
  match (enter out s).pending with
  | [] => none
  | e :: pending => some (e, ⟨target e, (enter out s).entered, pending⟩)

/-- The edges visited from here on, if the search ends within `n` steps. -/
def edges : ℕ → State ν ε → Option (List ε)
  | 0, _ => none
  | n + 1, s =>
    match next out target s with
    | none => some []
    | some (e, s') => (edges n s').map (e :: ·)

end Search

/-- One node leads to another. -/
def Reach (out : ν → List ε) (target : ε → ν) : ν → ν → Prop :=
  Relation.ReflTransGen fun u v => ∃ e ∈ out u, target e = v

section Invariant

variable {out : ν → List ε} {target : ε → ν} {start : ν} {visited : List ε} {s : State ν ε}

variable (out target start) in
/-- What holds of a search that has visited `visited`. -/
structure Searched (visited : List ε) (s : State ν ε) : Prop where
  perm : (visited ++ s.pending).Perm (s.entered.flatMap out)
  nodup : s.entered.Nodup
  visited : ∀ e ∈ visited, target e ∈ s.entered ∨ target e = s.node
  reach : ∀ v ∈ s.entered, Reach out target start v
  node : Reach out target start s.node
  start : start ∈ s.entered ∨ s.node = start

theorem searched_start : Searched out target start [] ⟨start, [], []⟩ where
  perm := List.Perm.refl _
  nodup := .nil
  visited _ he := absurd he List.not_mem_nil
  reach _ hv := absurd hv List.not_mem_nil
  node := .refl
  start := .inr rfl

variable [DecidableEq ν]

theorem mem_enter {v : ν} : v ∈ (enter out s).entered ↔ v ∈ s.entered ∨ v = s.node := by
  unfold enter
  split_ifs with h
  · constructor
    · exact .inl
    · rintro (hv | rfl)
      · exact hv
      · exact h
  · rw [List.mem_cons, or_comm]

theorem Searched.enter (h : Searched out target start visited s) :
    Searched out target start visited (enter out s) := by
  unfold EdgeSearch.enter
  split_ifs with hnode
  · exact h
  · refine ⟨?_, List.nodup_cons.2 ⟨hnode, h.nodup⟩, fun e he => ?_, fun v hv => ?_, h.node, ?_⟩
    · have hfront : (visited ++ (out s.node ++ s.pending)).Perm
          (out s.node ++ (visited ++ s.pending)) := by
        rw [← List.append_assoc, ← List.append_assoc]
        exact List.perm_append_comm.append_right _
      exact hfront.trans (h.perm.append_left _)
    · exact (h.visited e he).imp (List.mem_cons_of_mem _) id
    · rcases List.mem_cons.1 hv with rfl | hv
      · exact h.node
      · exact h.reach v hv
    · rcases h.start with hs | hs
      · exact .inl (List.mem_cons_of_mem _ hs)
      · exact .inr hs

/-- The current node has been entered after `enter`. -/
theorem Searched.closed (h : Searched out target start visited s) :
    ∀ e ∈ visited, target e ∈ (EdgeSearch.enter out s).entered := fun e he =>
  mem_enter.2 (h.visited e he)

/-- **One step visits one more edge.** -/
theorem Searched.next {e : ε} {s' : State ν ε} (h : Searched out target start visited s)
    (hnext : next out target s = some (e, s')) :
    Searched out target start (visited ++ [e]) s' := by
  have hen := h.enter
  unfold EdgeSearch.next at hnext
  split at hnext
  · cases hnext
  next e' pending hpending =>
    obtain ⟨rfl, rfl⟩ := Prod.mk.inj (Option.some.inj hnext)
    have hperm := hen.perm
    rw [hpending] at hperm
    refine ⟨by simpa using hperm, hen.nodup, fun x hx => ?_, hen.reach, ?_, ?_⟩
    · rcases List.mem_append.1 hx with hx | hx
      · exact .inl (h.closed x hx)
      · exact .inr (congrArg target (List.mem_singleton.1 hx))
    · obtain ⟨v, hv, hev⟩ := List.mem_flatMap.1 (hperm.subset (by simp : e' ∈ _))
      exact (hen.reach v hv).tail ⟨e', hev, rfl⟩
    · exact .inl (mem_enter.2 (h.start.imp id Eq.symm))

/-- **When no edge is left, those visited are all that can be reached.** -/
theorem Searched.done (h : Searched out target start visited s)
    (hnext : EdgeSearch.next out target s = none) :
    visited.Perm ((EdgeSearch.enter out s).entered.flatMap out) ∧
      ∀ v, v ∈ (EdgeSearch.enter out s).entered ↔ Reach out target start v := by
  have hen := h.enter
  have hpending : (EdgeSearch.enter out s).pending = [] := by
    unfold EdgeSearch.next at hnext
    split at hnext
    next hnil => exact hnil
    · cases hnext
  have hperm := hen.perm
  rw [hpending, List.append_nil] at hperm
  refine ⟨hperm, fun v => ⟨hen.reach v, fun hv => ?_⟩⟩
  induction hv with
  | refl => exact mem_enter.2 (h.start.imp id Eq.symm)
  | tail _ hstep ih =>
    obtain ⟨e, he, rfl⟩ := hstep
    exact h.closed e (hperm.symm.subset (List.mem_flatMap.2 ⟨_, ih, he⟩))

/-- A search that has not ended within `n` steps has visited `n` more edges. -/
theorem Searched.run (n : ℕ) (h : Searched out target start visited s) :
    (∃ visited' s', edges out target n s = none ∧ Searched out target start visited' s' ∧
        visited'.length = visited.length + n) ∨
      ∃ more s', edges out target n s = some more ∧
        Searched out target start (visited ++ more) s' ∧
        EdgeSearch.next out target s' = none := by
  induction n generalizing visited s with
  | zero => exact .inl ⟨visited, s, rfl, h, rfl⟩
  | succ n ih =>
    rw [edges]
    cases hnext : EdgeSearch.next out target s with
    | none => exact .inr ⟨[], s, rfl, by rwa [List.append_nil], hnext⟩
    | some r =>
      obtain ⟨e, s'⟩ := r
      obtain ⟨visited', s'', hnone, hs, hlen⟩ | ⟨more, s'', hsome, hs, hend⟩ := ih (h.next hnext)
      · refine .inl ⟨visited', s'', by simp only [hnone, Option.map_none], hs, ?_⟩
        rw [hlen, List.length_append, List.length_singleton]
        omega
      · refine .inr ⟨e :: more, s'', by simp only [hsome, Option.map_some], ?_, hend⟩
        rwa [List.append_assoc, List.singleton_append] at hs

/-- No search visits more edges than the graph has. -/
theorem Searched.length_le [Fintype ν] (h : Searched out target start visited s) :
    visited.length ≤ ∑ v, (out v).length := by
  have hlen := h.perm.length_eq
  rw [List.length_append, List.length_flatMap, ← List.sum_toFinset _ h.nodup] at hlen
  have hle : ∑ v ∈ s.entered.toFinset, (out v).length ≤ ∑ v, (out v).length :=
    Finset.sum_le_sum_of_subset (Finset.subset_univ _)
  omega

/-- **On a finite graph the search ends and visits each edge it can reach once.** -/
theorem exists_edges [Finite ν] (hnodup : ∀ v, (out v).Nodup)
    (hsource : ∀ u v e, e ∈ out u → e ∈ out v → u = v) (start : ν) :
    ∃ n visited, edges out target n ⟨start, [], []⟩ = some visited ∧ visited.Nodup ∧
      ∀ e, e ∈ visited ↔ ∃ v, Reach out target start v ∧ e ∈ out v := by
  have := Fintype.ofFinite ν
  have hstart : Searched out target start [] ⟨start, [], []⟩ := searched_start
  obtain ⟨visited', s', -, hs, hlen⟩ | ⟨visited, s', hsome, hs, hend⟩ :=
    hstart.run (∑ v, (out v).length + 1)
  · have hle := hs.length_le
    rw [hlen, List.length_nil] at hle
    omega
  · obtain ⟨hperm, hreach⟩ := hs.done hend
    rw [List.nil_append] at hperm
    refine ⟨_, visited, hsome, hperm.nodup_iff.2 ?_, fun e => ?_⟩
    · refine List.nodup_flatMap.2 ⟨fun v _ => hnodup v, ?_⟩
      refine hs.enter.nodup.imp fun {u v} hne e hu hv => hne (hsource u v e hu hv)
    · rw [hperm.mem_iff, List.mem_flatMap]
      exact exists_congr fun v => by rw [hreach]

end Invariant

end EdgeSearch
end Lib
end Dwarfpp
