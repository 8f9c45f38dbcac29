/-
# The register graph of a row

`register_graph` of `src/frame.cpp`, which `rewrite_loclist_in_terms_of_cfa` builds
from the rules of a row that are a register and an offset, and the walk back from a
register to the CFA along the predecessors that `boost::dijkstra_shortest_paths` has
found.  That search is a parameter; `ShortestPaths` is what is known of its result, and
a plain search for paths leaves that too (`shortestPaths_predecessor`).  The walk ends,
if it ends, at the CFA just if there is a path (`findPath_isSome_iff`).

The multimap of the source keeps the edges of a register in the order of insertion,
and the indices its vertices are given only serve the search: a graph is the list of
its edges here, and a vertex is its register.
-/

import Dwarfpp.Frame.RowMap
import Dwarfpp.Lib.GraphSearch

namespace Dwarfpp
namespace Frame

open Lib

/-- `register_edge`. -/
structure RegisterEdge where
  fromReg : ℤ
  toReg : ℤ
  difference : ℤ
  deriving DecidableEq, Repr

/-- `register_graph`. -/
abbrev RegisterGraph := List RegisterEdge

/-- The sum of two signed numbers of a width, undefined if it overflows. -/
def addSigned (w : ℕ) (a b : ℤ) : Except Fault ℤ :=
  if -2 ^ (w - 1) ≤ a + b ∧ a + b < 2 ^ (w - 1) then .ok (a + b) else .error .undefinedBehaviour

/-- The edge set: two edges for each rule. -/
def registerGraph : List (ℤ × RegisterDef) → Except Fault RegisterGraph
  | [] => .ok []
  | (target, d) :: entries =>
    if d.k = .register then
      let (source, difference) := d.value.mRegisterPlusOffset
      -- the difference is negated as an `int`
      if difference = -2 ^ 31 then .error .undefinedBehaviour
      else do
        let rest ← registerGraph entries
        return ⟨source, target, difference⟩ :: ⟨target, source, -difference⟩ :: rest
    else registerGraph entries

/-- A register that has an index in `vertex_to_index`. -/
def RegisterGraph.IsVertex (g : RegisterGraph) (v : ℤ) : Prop :=
  ∃ e ∈ g, e.fromReg = v ∨ e.toReg = v

instance (g : RegisterGraph) (v : ℤ) : Decidable (g.IsVertex v) :=
  inferInstanceAs (Decidable (∃ e ∈ g, e.fromReg = v ∨ e.toReg = v))

/-- There is an edge from one register to another. -/
def RegisterGraph.Edge (g : RegisterGraph) (u v : ℤ) : Prop :=
  ∃ e ∈ g, e.fromReg = u ∧ e.toReg = v

instance (g : RegisterGraph) (u v : ℤ) : Decidable (g.Edge u v) :=
  inferInstanceAs (Decidable (∃ e ∈ g, e.fromReg = u ∧ e.toReg = v))

/-- A register has a path to the CFA. -/
def RegisterGraph.HasPath (g : RegisterGraph) (cfa v : ℤ) : Prop :=
  g.IsVertex v ∧ g.IsVertex cfa ∧ Relation.ReflTransGen g.Edge cfa v

/-- The walk from the vertex at `pos` to the CFA, and `sum_of_differences` where it gets there. -/
def findPath (g : RegisterGraph) (cfa : ℤ) (predecessor : ℤ → Option ℤ) :
    ℕ → ℤ → ℤ → Except Fault (Option ℤ)
  | 0, _, _ => .error .outOfSteps
  | fuel + 1, pos, sum =>
    if ¬g.IsVertex pos then .ok none
    else if pos = cfa then .ok (some sum)
    else
      match predecessor pos with
      | none => .ok none
      | some u =>
        if ¬g.IsVertex u then .ok none
        else
          match g.find? fun e => e.fromReg = u ∧ e.toReg = pos with
          | none => .error .assertFailed
          | some e => do
            let sum ← addSigned 32 sum e.difference
            findPath g cfa predecessor fuel u sum

/-- What a search for shortest paths leaves in its predecessor map: a vertex that is reached has
one that is nearer to the start, by an edge, and one that is not is its own. -/
structure ShortestPaths (g : RegisterGraph) (start : ℤ) (predecessor : ℤ → Option ℤ) : Prop where
  reached : ∃ distance : ℤ → ℕ, ∀ v, Relation.ReflTransGen g.Edge start v → v ≠ start →
    ∃ u, predecessor v = some u ∧ g.Edge u v ∧ Relation.ReflTransGen g.Edge start u ∧
      distance u < distance v
  unreached : ∀ v, g.IsVertex v → ¬Relation.ReflTransGen g.Edge start v → predecessor v = some v

section Walk

variable {g : RegisterGraph} {cfa pos sum : ℤ} {predecessor : ℤ → Option ℤ} {fuel : ℕ}

theorem RegisterGraph.Edge.isVertex {u v : ℤ} (h : g.Edge u v) : g.IsVertex u ∧ g.IsVertex v := by
  obtain ⟨e, he, hu, hv⟩ := h
  exact ⟨⟨e, he, .inl hu⟩, e, he, .inr hv⟩

/-- **A walk that ends has found the CFA just if there is a path.** -/
theorem findPath_isSome_iff (hpaths : ShortestPaths g cfa predecessor) (hcfa : g.IsVertex cfa)
    {o : Option ℤ} (h : findPath g cfa predecessor fuel pos sum = .ok o) :
    o.isSome ↔ g.HasPath cfa pos := by
  induction fuel generalizing pos sum o with
  | zero => exact nomatch h
  | succ fuel ih =>
    rw [findPath] at h
    split_ifs at h with hv hpos
    · obtain rfl := Except.ok.inj h
      exact iff_of_true rfl ⟨hv, hcfa, hpos ▸ .refl⟩
    · obtain ⟨distance, hreached⟩ := hpaths.reached
      by_cases hreach : Relation.ReflTransGen g.Edge cfa pos
      · obtain ⟨u, hu, hedge, hreach', -⟩ := hreached pos hreach hpos
        simp only [hu] at h
        rw [if_neg (not_not.2 hedge.isVertex.1)] at h
        cases hfind : g.find? fun e => e.fromReg = u ∧ e.toReg = pos with
        | none =>
          rw [hfind] at h
          exact nomatch h
        | some e =>
          simp only [hfind] at h
          obtain ⟨sum', -, h⟩ := bind_eq_ok.1 h
          rw [ih h]
          exact iff_of_true ⟨hedge.isVertex.1, hcfa, hreach'⟩ ⟨hv, hcfa, hreach⟩
      · -- the vertex is its own predecessor, and the walk goes round
        simp only [hpaths.unreached pos hv hreach] at h
        rw [if_neg (not_not.2 hv)] at h
        cases hfind : g.find? fun e => e.fromReg = pos ∧ e.toReg = pos with
        | none =>
          rw [hfind] at h
          exact nomatch h
        | some e =>
          simp only [hfind] at h
          obtain ⟨sum', -, h⟩ := bind_eq_ok.1 h
          exact ih h
    · obtain rfl := Except.ok.inj h
      exact iff_of_false nofun fun hpath => hv hpath.1

end Walk

/-! ### A search for paths -/

/-- The predecessor map of a search from a vertex.  What it does not reach is its own. -/
def RegisterGraph.predecessor (g : RegisterGraph) (start v : ℤ) : Option ℤ :=
  let edges := g.map fun e => (e.fromReg, e.toReg)
  some (((Reached.search edges start edges.length []).lookup v).getD v)

theorem shortestPaths_predecessor (g : RegisterGraph) (start : ℤ) :
    ShortestPaths g start (g.predecessor start) := by
  set edges := g.map fun e => (e.fromReg, e.toReg) with hedges
  set found := Reached.search edges start edges.length [] with hfound
  have hedge : g.Edge = fun u v => (u, v) ∈ edges := by
    funext u v
    simp [RegisterGraph.Edge, hedges]
  have hgrown : Reached.Grown edges start found := Reached.search_grown .nil
  refine ⟨⟨found.depth, fun v hv hne => ?_⟩, fun v _ hv => ?_⟩
  · rw [hedge, ← Reached.has_search_iff] at hv
    obtain ⟨u, hu, hmem, hhas, hdepth⟩ := hgrown.lookup hv hne
    refine ⟨u, ?_, hedge ▸ hmem, ?_, hdepth⟩
    · rw [RegisterGraph.predecessor, ← hedges, ← hfound, hu]
      rfl
    · rw [hedge]
      exact Reached.has_search_iff.1 hhas
  · rw [hedge, ← Reached.has_search_iff] at hv
    rw [RegisterGraph.predecessor, ← hedges, ← hfound, Reached.lookup_eq_none hv]
    rfl

end Frame
end Dwarfpp
