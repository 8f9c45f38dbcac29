/-
# Strong components from one path

The path-based algorithm for strong components.  A depth-first search keeps the
vertices that are in no component yet in blocks, the last one first; an edge back
into a block merges the blocks above it into that one, and a block becomes a
component when its first vertex is left.

`Inv` says what each step keeps: a block's vertices reach each other, and what is
to come leads from no block into one below it but over edges not looked at yet.
In the end the components are the classes of mutual reachability
(`Inv.mem_component_iff`).
-/

import Mathlib

namespace Dwarfpp
namespace Lib

open Relation

variable {ν : Type}

/-- The vertices on the path, each with the successors it has not looked at; the blocks of vertices
without a component; and the components.  All have the last one first. -/
structure PathSearch (ν : Type) where
  path : List (ν × List ν)
  blocks : List (List ν)
  components : List (List ν)

namespace PathSearch

section Definitions

variable (s : PathSearch ν)

/-- The vertices on the path. -/
def grey : List ν := s.path.map Prod.fst

/-- The vertices that the search has come to. -/
def Visited (v : ν) : Prop := v ∈ s.blocks.flatten ∨ v ∈ s.components.flatten

/-- A vertex on the path has an edge it has not looked at. -/
def Pending (u w : ν) : Prop := ∃ ws, (u, ws) ∈ s.path ∧ w ∈ ws

/-- The search comes to a vertex. -/
def visit (v : ν) (successors : List ν) : PathSearch ν :=
  { s with path := (v, successors) :: s.path, blocks := [v] :: s.blocks }

/-- The same vertices, in a row. -/
def vertices : List ν := s.blocks.flatten ++ s.components.flatten

variable [DecidableEq ν]

/-- The blocks above that of a vertex become one with it. -/
def mergeTo (w : ν) : List (List ν) → List (List ν)
  | [] => []
  | b :: bs =>
    if w ∈ b then b :: bs
    else
      match mergeTo w bs with
      | [] => [b]
      | c :: cs => (b ++ c) :: cs

/-- The search leaves a vertex, and the block it is the first vertex of. -/
def leave (u : ν) : PathSearch ν :=
  match s.blocks with
  | [] => { s with path := s.path.tail }
  | b :: bs =>
    if b.getLast? = some u then ⟨s.path.tail, bs, b :: s.components⟩
    else { s with path := s.path.tail }

end Definitions

section Merge

variable [DecidableEq ν]

/-- **What merging makes** of the blocks down to that of `w`. -/
theorem mergeTo_spec {w : ν} {bs : List (List ν)} (h : w ∈ bs.flatten) :
    ∃ above b below, bs = above ++ b :: below ∧ w ∈ b ∧ w ∉ above.flatten ∧
      mergeTo w bs = (above.flatten ++ b) :: below := by
  induction bs with
  | nil => exact absurd h List.not_mem_nil
  | cons c cs ih =>
    rw [mergeTo]
    split_ifs with hw
    · exact ⟨[], c, cs, rfl, hw, List.not_mem_nil, rfl⟩
    · rw [List.flatten_cons, List.mem_append, or_iff_right hw] at h
      obtain ⟨above, b, below, rfl, hb, habove, hmerge⟩ := ih h
      refine ⟨c :: above, b, below, rfl, hb, ?_, ?_⟩
      · rw [List.flatten_cons, List.mem_append, not_or]
        exact ⟨hw, habove⟩
      · rw [hmerge, List.flatten_cons, List.append_assoc]

theorem flatten_mergeTo {w : ν} {bs : List (List ν)} (h : w ∈ bs.flatten) :
    (mergeTo w bs).flatten = bs.flatten := by
  obtain ⟨above, b, below, rfl, -, -, hmerge⟩ := mergeTo_spec h
  rw [hmerge]
  simp

end Merge

section Invariant

variable (E : ν → ν → Prop)

/-- Edges lead from a component into itself or into those found before. -/
def Downward : List (List ν) → Prop
  | [] => True
  | c :: cs => (∀ x ∈ c, ∀ w, E x w → w ∈ c ∨ w ∈ cs.flatten) ∧ Downward cs

/-- **The invariant** of a search from `start`. -/
structure Inv (start : ν) (s : PathSearch ν) : Prop where
  nodup : (s.blocks.flatten ++ s.components.flatten).Nodup
  grey : s.grey.Sublist s.blocks.flatten
  root : ∀ b ∈ s.blocks, ∃ r, b.getLast? = some r ∧ r ∈ s.grey
  pending : ∀ u w, s.Pending u w → E u w
  edges : ∀ u w, s.Visited u → E u w → s.Visited w ∨ s.Pending u w
  begun : s.Visited start
  reach : ∀ v, s.Visited v → ReflTransGen E start v
  chain : s.grey.Pairwise fun a b => ReflTransGen E b a
  block : ∀ b ∈ s.blocks, ∀ x ∈ b, ∀ y ∈ b, ReflTransGen E x y
  upward : s.blocks.Pairwise fun above below =>
    ∀ x ∈ above, ∀ w ∈ below, E x w → s.Pending x w
  component : ∀ c ∈ s.components, c ≠ [] ∧ ∀ x ∈ c, ∀ y ∈ c, ReflTransGen E x y
  downward : Downward E s.components

end Invariant

section Steps

variable {E : ν → ν → Prop} {start u v w : ν} {ws : List ν} {rest : List (ν × List ν)}
  {s : PathSearch ν}

/-- A list that begins with none of the first elements begins later. -/
theorem sublist_of_not_mem {a : ν} {l xs ys : List ν} (h : (a :: l).Sublist (xs ++ ys))
    (ha : a ∉ xs) : (a :: l).Sublist ys := by
  induction xs with
  | nil => exact h
  | cons x xs ih =>
    rw [List.mem_cons, not_or] at ha
    rcases List.cons_sublist_cons'.1 h with h | ⟨rfl, -⟩
    · exact ih h ha.2
    · exact absurd rfl ha.1

theorem Inv.disjoint_blocks (h : Inv E start s) {b : List ν} {bs : List (List ν)}
    (hblocks : s.blocks = b :: bs) : List.Disjoint b bs.flatten := by
  have hnodup := (List.nodup_append.1 h.nodup).1
  rw [hblocks, List.flatten_cons] at hnodup
  exact (List.nodup_append'.1 hnodup).2.2

/-- **The last vertex on the path is in the top block.** -/
theorem Inv.top (h : Inv E start s) (hpath : s.path = (u, ws) :: rest) :
    ∃ b bs, s.blocks = b :: bs ∧ u ∈ b := by
  have hgrey : (u :: rest.map Prod.fst).Sublist s.blocks.flatten := by
    have := h.grey
    rwa [PathSearch.grey, hpath] at this
  cases hblocks : s.blocks with
  | nil =>
    rw [hblocks] at hgrey
    exact absurd (hgrey.subset List.mem_cons_self) List.not_mem_nil
  | cons b bs =>
    refine ⟨b, bs, rfl, ?_⟩
    by_contra hu
    rw [hblocks, List.flatten_cons] at hgrey
    obtain ⟨r, hr, hmem⟩ := h.root b (by rw [hblocks]; exact List.mem_cons_self)
    rw [PathSearch.grey, hpath] at hmem
    exact h.disjoint_blocks hblocks (List.mem_of_getLast? hr)
      ((sublist_of_not_mem hgrey hu).subset hmem)

/-- Where the last vertex on the path is the first one of the top block, no other one of that block
is on the path. -/
theorem Inv.rest_below (h : Inv E start s) (hpath : s.path = (u, ws) :: rest) {b : List ν}
    {bs : List (List ν)} (hblocks : s.blocks = b :: bs) (hroot : b.getLast? = some u) :
    (rest.map Prod.fst).Sublist bs.flatten := by
  have hgrey := h.grey
  have hnodup := (List.nodup_append.1 h.nodup).1
  obtain ⟨l, rfl⟩ := List.getLast?_eq_some_iff.1 hroot
  rw [PathSearch.grey, hpath, hblocks, List.flatten_cons, List.append_assoc] at hgrey
  rw [hblocks, List.flatten_cons, List.append_assoc] at hnodup
  have hu : u ∉ l := fun hu =>
    (List.nodup_append'.1 hnodup).2.2 hu (List.mem_append_left _ (List.mem_singleton_self u))
  exact List.cons_sublist_cons.1 (sublist_of_not_mem hgrey hu)

/-- The search at its start. -/
theorem inv_start {successors : List ν} (h : ∀ w, w ∈ successors ↔ E start w) :
    Inv E start (visit ⟨[], [], []⟩ start successors) where
  nodup := List.nodup_singleton start
  grey := List.Sublist.refl [start]
  root b hb := by
    obtain rfl := List.mem_singleton.1 hb
    exact ⟨start, rfl, List.mem_singleton_self start⟩
  pending := by
    rintro u w ⟨ws, hmem, hw⟩
    obtain ⟨rfl, rfl⟩ := Prod.mk.inj (List.mem_singleton.1 hmem)
    exact (h w).1 hw
  edges u w hu huw := by
    rcases hu with hu | hu
    · obtain rfl := List.mem_singleton.1 hu
      exact .inr ⟨successors, List.mem_singleton_self _, (h w).2 huw⟩
    · exact absurd hu List.not_mem_nil
  begun := .inl (List.mem_singleton_self start)
  reach v hv := by
    rcases hv with hv | hv
    · obtain rfl := List.mem_singleton.1 hv
      exact .refl
    · exact absurd hv List.not_mem_nil
  chain := List.pairwise_singleton _ _
  block b hb x hx y hy := by
    obtain rfl := List.mem_singleton.1 hb
    rw [List.mem_singleton.1 hx, List.mem_singleton.1 hy]
  upward := List.pairwise_singleton _ _
  component c hc := absurd hc List.not_mem_nil
  downward := trivial

/-- What the last vertex on the path has looked at is pending no more. -/
theorem pending_cons_iff (hpath : s.path = (u, v :: ws) :: rest) {t : PathSearch ν}
    (hpath' : t.path = (u, ws) :: rest) {x w : ν} (h : s.Pending x w) :
    t.Pending x w ∨ (x = u ∧ w = v) := by
  obtain ⟨ws', hmem, hw⟩ := h
  rw [hpath] at hmem
  rcases List.mem_cons.1 hmem with heq | hmem
  · obtain ⟨rfl, rfl⟩ := Prod.mk.inj heq
    rcases List.mem_cons.1 hw with rfl | hw
    · exact .inr ⟨rfl, rfl⟩
    · exact .inl ⟨ws, by rw [hpath']; exact List.mem_cons_self, hw⟩
  · exact .inl ⟨ws', by rw [hpath']; exact List.mem_cons_of_mem _ hmem, hw⟩

theorem pending_of_cons (hpath : s.path = (u, v :: ws) :: rest) {t : PathSearch ν}
    (hpath' : t.path = (u, ws) :: rest) {x w : ν} (h : t.Pending x w) : s.Pending x w := by
  obtain ⟨ws', hmem, hw⟩ := h
  rw [hpath'] at hmem
  rcases List.mem_cons.1 hmem with heq | hmem
  · obtain ⟨rfl, rfl⟩ := Prod.mk.inj heq
    exact ⟨v :: ws', by rw [hpath]; exact List.mem_cons_self, List.mem_cons_of_mem _ hw⟩
  · exact ⟨ws', by rw [hpath]; exact List.mem_cons_of_mem _ hmem, hw⟩

/-- All of the path leads to the vertex on top. -/
theorem Inv.reach_top (h : Inv E start s) (hpath : s.path = (u, ws) :: rest) {x : ν}
    (hx : x ∈ s.grey) : ReflTransGen E x u := by
  have hchain := h.chain
  rw [PathSearch.grey, hpath] at hx hchain
  rcases List.mem_cons.1 hx with rfl | hx
  · exact .refl
  · exact (List.pairwise_cons.1 hchain).1 x hx

/-- **An edge to a vertex that has a component** is passed over. -/
theorem Inv.skip (h : Inv E start s) (hpath : s.path = (u, v :: ws) :: rest)
    (hv : v ∈ s.components.flatten) : Inv E start { s with path := (u, ws) :: rest } := by
  have hgrey : PathSearch.grey { s with path := (u, ws) :: rest } = s.grey := by
    rw [PathSearch.grey, PathSearch.grey, hpath]
    rfl
  have hpending : ∀ x w, s.Pending x w →
      PathSearch.Pending { s with path := (u, ws) :: rest } x w ∨ (x = u ∧ w = v) :=
    fun x w => pending_cons_iff hpath rfl
  refine { h with grey := ?_, root := ?_, pending := ?_, edges := ?_, chain := ?_, upward := ?_ }
  · exact hgrey ▸ h.grey
  · exact hgrey ▸ h.root
  · exact fun x w hxw => h.pending x w (pending_of_cons hpath rfl hxw)
  · intro x w hx hxw
    rcases h.edges x w hx hxw with hw | hw
    · exact .inl hw
    · rcases hpending x w hw with hw | ⟨-, rfl⟩
      · exact .inr hw
      · exact .inl (.inr hv)
  · exact hgrey ▸ h.chain
  · refine h.upward.imp_of_mem fun {above below} _ hbelow hup x hx w hw hxw => ?_
    rcases hpending x w (hup x hx w hw hxw) with hw' | ⟨-, rfl⟩
    · exact hw'
    · have hblock : w ∈ s.blocks.flatten := List.mem_flatten.2 ⟨below, hbelow, hw⟩
      exact absurd hv ((List.nodup_append'.1 h.nodup).2.2 hblock)

/-- **An edge to a vertex that the search has not come to.** -/
theorem Inv.visit (h : Inv E start s) (hpath : s.path = (u, v :: ws) :: rest) (hv : ¬s.Visited v)
    {successors : List ν} (hsuccessors : ∀ w, w ∈ successors ↔ E v w) :
    Inv E start (visit { s with path := (u, ws) :: rest } v successors) := by
  have huv : E u v := h.pending u v ⟨_, by rw [hpath]; exact List.mem_cons_self, List.mem_cons_self⟩
  have hvisited : ∀ x, (PathSearch.visit { s with path := (u, ws) :: rest } v successors).Visited x ↔
      x = v ∨ s.Visited x := by
    intro x
    simp [Visited, PathSearch.visit, or_assoc]
  have hgrey : (PathSearch.visit { s with path := (u, ws) :: rest } v successors).grey =
      v :: s.grey := by
    simp [PathSearch.grey, PathSearch.visit, hpath]
  have hu : u ∈ s.grey := by
    rw [PathSearch.grey, hpath]
    exact List.mem_cons_self
  have hpending : ∀ x w, s.Pending x w →
      (PathSearch.visit { s with path := (u, ws) :: rest } v successors).Pending x w ∨ w = v := by
    intro x w hxw
    rcases pending_cons_iff (t := { s with path := (u, ws) :: rest }) hpath rfl hxw with hxw | hxw
    · obtain ⟨ws', hmem, hw⟩ := hxw
      exact .inl ⟨ws', List.mem_cons_of_mem _ hmem, hw⟩
    · exact .inr hxw.2
  have hnot : v ∉ s.blocks.flatten ++ s.components.flatten := mt List.mem_append.1 hv
  constructor
  case nodup => exact List.nodup_cons.2 ⟨hnot, h.nodup⟩
  case grey =>
    rw [hgrey]
    exact h.grey.cons_cons v
  case root =>
    rw [hgrey]
    intro b hb
    rcases List.mem_cons.1 hb with rfl | hb
    · exact ⟨v, rfl, List.mem_cons_self⟩
    · obtain ⟨r, hr, hmem⟩ := h.root b hb
      exact ⟨r, hr, List.mem_cons_of_mem _ hmem⟩
  case pending =>
    rintro x w ⟨ws', hmem, hw⟩
    rcases List.mem_cons.1 hmem with heq | hmem
    · obtain ⟨rfl, rfl⟩ := Prod.mk.inj heq
      exact (hsuccessors w).1 hw
    · exact h.pending x w
        (pending_of_cons (t := { s with path := (u, ws) :: rest }) hpath rfl ⟨ws', hmem, hw⟩)
  case edges =>
    intro x w hx hxw
    rcases (hvisited x).1 hx with rfl | hx
    · exact .inr ⟨successors, List.mem_cons_self, (hsuccessors w).2 hxw⟩
    · rcases h.edges x w hx hxw with hw | hw
      · exact .inl ((hvisited w).2 (.inr hw))
      · rcases hpending x w hw with hw | rfl
        · exact .inr hw
        · exact .inl ((hvisited w).2 (.inl rfl))
  case begun => exact (hvisited start).2 (.inr h.begun)
  case reach =>
    intro x hx
    rcases (hvisited x).1 hx with rfl | hx
    · exact (h.reach u (.inl (h.grey.subset hu))).tail huv
    · exact h.reach x hx
  case chain =>
    rw [hgrey]
    exact List.pairwise_cons.2 ⟨fun a ha => (h.reach_top hpath ha).tail huv, h.chain⟩
  case block =>
    intro b hb x hx y hy
    rcases List.mem_cons.1 hb with rfl | hb
    · rw [List.mem_singleton.1 hx, List.mem_singleton.1 hy]
    · exact h.block b hb x hx y hy
  case upward =>
    refine List.pairwise_cons.2 ⟨fun b _ x hx w _ hxw => ?_, ?_⟩
    · obtain rfl := List.mem_singleton.1 hx
      exact ⟨successors, List.mem_cons_self, (hsuccessors w).2 hxw⟩
    · refine h.upward.imp_of_mem fun {above below} _ hbelow hup x hx w hw hxw => ?_
      rcases hpending x w (hup x hx w hw hxw) with hw' | rfl
      · exact hw'
      · exact absurd (.inl (List.mem_flatten.2 ⟨below, hbelow, hw⟩)) hv
  case component => exact h.component
  case downward => exact h.downward

/-- Every vertex in a block leads to the vertex on top of the path. -/
theorem Inv.reach_top_of_mem (h : Inv E start s) (hpath : s.path = (u, ws) :: rest) {x : ν}
    (hx : x ∈ s.blocks.flatten) : ReflTransGen E x u := by
  obtain ⟨b, hb, hxb⟩ := List.mem_flatten.1 hx
  obtain ⟨r, hr, hgrey⟩ := h.root b hb
  exact (h.block b hb x hxb r (List.mem_of_getLast? hr)).trans (h.reach_top hpath hgrey)

/-- Every vertex in a block leads to those in the blocks above. -/
theorem Inv.reach_above (h : Inv E start s) {above below : List (List ν)} {b : List ν}
    (hblocks : s.blocks = above ++ b :: below) {x y : ν} (hx : x ∈ b) (hy : y ∈ above.flatten) :
    ReflTransGen E x y := by
  have hb : b ∈ s.blocks := by
    rw [hblocks]
    exact List.mem_append_right _ List.mem_cons_self
  obtain ⟨c, hc, hyc⟩ := List.mem_flatten.1 hy
  have hcmem : c ∈ s.blocks := by
    rw [hblocks]
    exact List.mem_append_left _ hc
  obtain ⟨r, hr, hgrey⟩ := h.root b hb
  obtain ⟨r', hr', hgrey'⟩ := h.root c hcmem
  have hrb := List.mem_of_getLast? hr
  have hrc := List.mem_of_getLast? hr'
  -- The first vertex of the upper block was put on the path after that of the lower one.
  have hchain : ReflTransGen E r r' := by
    have hsub := h.grey
    have hnodup := (List.nodup_append.1 h.nodup).1
    rw [hblocks, List.flatten_append] at hsub hnodup
    have hdisjoint := (List.nodup_append'.1 hnodup).2.2
    have hrbelow : r ∈ (b :: below).flatten := List.mem_flatten.2 ⟨b, List.mem_cons_self, hrb⟩
    have hrabove : r' ∈ above.flatten := List.mem_flatten.2 ⟨c, hc, hrc⟩
    obtain ⟨late, early, heq, hlate, hearly⟩ := List.sublist_append_iff.1 hsub
    have hchain := h.chain
    rw [heq] at hgrey hgrey' hchain
    refine (List.pairwise_append.1 hchain).2.2 r' ?_ r ?_
    · exact (List.mem_append.1 hgrey').resolve_right fun hmem =>
        hdisjoint hrabove (hearly.subset hmem)
    · exact (List.mem_append.1 hgrey).resolve_left fun hmem =>
        hdisjoint (hlate.subset hmem) hrbelow
  exact ((h.block b hb x hx r hrb).trans hchain).trans (h.block c hcmem r' hrc y hyc)

/-- **An edge back into a block** makes one block of it and of those above it. -/
theorem Inv.merge [DecidableEq ν] (h : Inv E start s) (hpath : s.path = (u, v :: ws) :: rest)
    (hv : v ∈ s.blocks.flatten) :
    Inv E start { s with path := (u, ws) :: rest, blocks := mergeTo v s.blocks } := by
  have huv : E u v := h.pending u v ⟨_, by rw [hpath]; exact List.mem_cons_self, List.mem_cons_self⟩
  have hflatten := flatten_mergeTo hv
  obtain ⟨above, b, below, hblocks, hb, -, hmerge⟩ := mergeTo_spec hv
  have hgrey : PathSearch.grey { s with
      path := (u, ws) :: rest, blocks := mergeTo v s.blocks } = s.grey := by
    rw [PathSearch.grey, PathSearch.grey, hpath]
    rfl
  have hvisited : ∀ x, PathSearch.Visited { s with
      path := (u, ws) :: rest, blocks := mergeTo v s.blocks } x ↔ s.Visited x := by
    intro x
    rw [Visited, Visited, hflatten]
  have hpending : ∀ x w, s.Pending x w → PathSearch.Pending { s with
      path := (u, ws) :: rest, blocks := mergeTo v s.blocks } x w ∨ (x = u ∧ w = v) :=
    fun x w => pending_cons_iff hpath rfl
  have hbmem : b ∈ s.blocks := by
    rw [hblocks]
    exact List.mem_append_right _ List.mem_cons_self
  have hold : ∀ c ∈ below, c ∈ s.blocks := by
    intro c hc
    rw [hblocks]
    exact List.mem_append_right _ (List.mem_cons_of_mem _ hc)
  have hmerged : ∀ x ∈ above.flatten ++ b, x ∈ s.blocks.flatten := by
    intro x hx
    rw [← hflatten, hmerge, List.flatten_cons]
    exact List.mem_append_left _ hx
  have hbelow : ∀ c ∈ below, v ∉ c := by
    intro c hc hvc
    have hnodup := (List.nodup_append.1 h.nodup).1
    rw [hblocks, List.flatten_append, List.flatten_cons] at hnodup
    exact (List.nodup_append'.1 (List.nodup_append'.1 hnodup).2.1).2.2 hb
      (List.mem_flatten.2 ⟨c, hc, hvc⟩)
  have hupward := h.upward
  rw [hblocks, List.pairwise_append, List.pairwise_cons] at hupward
  obtain ⟨-, ⟨hupb, hupbelow⟩, hupabove⟩ := hupward
  constructor
  case nodup =>
    show ((mergeTo v s.blocks).flatten ++ s.components.flatten).Nodup
    rw [hflatten]
    exact h.nodup
  case grey =>
    rw [hgrey]
    show s.grey.Sublist (mergeTo v s.blocks).flatten
    rw [hflatten]
    exact h.grey
  case root =>
    rw [hgrey]
    show ∀ c ∈ mergeTo v s.blocks, _
    rw [hmerge]
    intro c hc
    rcases List.mem_cons.1 hc with rfl | hc
    · obtain ⟨r, hr, hmem⟩ := h.root b hbmem
      exact ⟨r, by rw [List.getLast?_append, hr]; rfl, hmem⟩
    · exact h.root c (hold c hc)
  case pending => exact fun x w hxw => h.pending x w (pending_of_cons hpath rfl hxw)
  case edges =>
    intro x w hx hxw
    rcases h.edges x w ((hvisited x).1 hx) hxw with hw | hw
    · exact .inl ((hvisited w).2 hw)
    · rcases hpending x w hw with hw | ⟨-, rfl⟩
      · exact .inr hw
      · exact .inl ((hvisited w).2 (.inl hv))
  case begun => exact (hvisited start).2 h.begun
  case reach => exact fun x hx => h.reach x ((hvisited x).1 hx)
  case chain =>
    rw [hgrey]
    exact h.chain
  case block =>
    show ∀ c ∈ mergeTo v s.blocks, _
    rw [hmerge]
    intro c hc x hx y hy
    rcases List.mem_cons.1 hc with rfl | hc
    · -- Around the path: to its top, over the edge, and up again.
      have hvy : ReflTransGen E v y := by
        rcases List.mem_append.1 hy with hy | hy
        · exact h.reach_above hblocks hb hy
        · exact h.block b hbmem v hb y hy
      exact ((h.reach_top_of_mem hpath (hmerged x hx)).tail huv).trans hvy
    · exact h.block c (hold c hc) x hx y hy
  case upward =>
    show (mergeTo v s.blocks).Pairwise _
    rw [hmerge, List.pairwise_cons]
    refine ⟨fun c hc x hx w hw hxw => ?_, hupbelow.imp_of_mem fun {d c} _ hc hup x hx w hw hxw => ?_⟩
    · have hpend : s.Pending x w := by
        rcases List.mem_append.1 hx with hx | hx
        · obtain ⟨a, ha, hxa⟩ := List.mem_flatten.1 hx
          exact hupabove a ha c (List.mem_cons_of_mem _ hc) x hxa w hw hxw
        · exact hupb c hc x hx w hw hxw
      exact (hpending x w hpend).resolve_right fun heq => hbelow c hc (heq.2 ▸ hw)
    · exact (hpending x w (hup x hx w hw hxw)).resolve_right fun heq => hbelow c hc (heq.2 ▸ hw)
  case component => exact h.component
  case downward => exact h.downward

/-- What leaving a vertex does to the top block. -/
theorem leave_eq [DecidableEq ν] (hpath : s.path = (u, ws) :: rest) {b : List ν}
    {bs : List (List ν)} (hblocks : s.blocks = b :: bs) :
    s.leave u =
      if b.getLast? = some u then ⟨rest, bs, b :: s.components⟩ else { s with path := rest } := by
  obtain ⟨path, blocks, components⟩ := s
  obtain rfl : path = (u, ws) :: rest := hpath
  obtain rfl : blocks = b :: bs := hblocks
  rfl

theorem visited_iff {x : ν} : s.Visited x ↔ x ∈ s.vertices := List.mem_append.symm

/-- Leaving a vertex visits none. -/
theorem Inv.vertices_leave [DecidableEq ν] (h : Inv E start s) (hpath : s.path = (u, ws) :: rest) :
    (s.leave u).vertices.Perm s.vertices := by
  obtain ⟨b, bs, hblocks, -⟩ := h.top hpath
  rw [leave_eq hpath hblocks]
  split_ifs
  · rw [vertices, vertices, hblocks, List.flatten_cons, List.flatten_cons, ← List.append_assoc]
    exact List.perm_append_comm.append_right _
  · exact List.Perm.refl _

/-- The path is no longer than there are vertices. -/
theorem Inv.length_path_le [Fintype ν] (h : Inv E start s) : s.path.length ≤ Fintype.card ν := by
  have hnodup : s.grey.Nodup := h.grey.nodup (List.nodup_append.1 h.nodup).1
  have hle := hnodup.length_le_card
  rwa [PathSearch.grey, List.length_map] at hle

theorem Inv.length_vertices_le [Fintype ν] (h : Inv E start s) :
    s.vertices.length ≤ Fintype.card ν := h.nodup.length_le_card

/-- **The last vertex on the path is left** when it has looked at all its successors. -/
theorem Inv.leave [DecidableEq ν] (h : Inv E start s) (hpath : s.path = (u, []) :: rest) :
    Inv E start (s.leave u) := by
  obtain ⟨b, bs, hblocks, hub⟩ := h.top hpath
  have hdisjoint := h.disjoint_blocks hblocks
  have hgrey : s.grey = u :: rest.map Prod.fst := by
    rw [PathSearch.grey, hpath]
    rfl
  have hrest : ∀ x w, s.Pending x w → ∃ ws, (x, ws) ∈ rest ∧ w ∈ ws := by
    rintro x w ⟨ws, hmem, hw⟩
    rw [hpath] at hmem
    rcases List.mem_cons.1 hmem with heq | hmem
    · obtain ⟨-, rfl⟩ := Prod.mk.inj heq
      exact absurd hw List.not_mem_nil
    · exact ⟨ws, hmem, hw⟩
  have hof : ∀ x w, (∃ ws, (x, ws) ∈ rest ∧ w ∈ ws) → s.Pending x w := by
    rintro x w ⟨ws, hmem, hw⟩
    exact ⟨ws, by rw [hpath]; exact List.mem_cons_of_mem _ hmem, hw⟩
  have hchain := h.chain
  have hupward := h.upward
  rw [hgrey, List.pairwise_cons] at hchain
  rw [hblocks, List.pairwise_cons] at hupward
  rw [leave_eq hpath hblocks]
  split_ifs with hroot
  · have hbelow := h.rest_below hpath hblocks hroot
    -- No vertex of the top block has an edge left to look at.
    have hnone : ∀ x ∈ b, ∀ w, ¬s.Pending x w := by
      intro x hx w hxw
      obtain ⟨ws, hmem, -⟩ := hrest x w hxw
      exact hdisjoint hx (hbelow.subset (List.mem_map_of_mem hmem))
    have hvisited : ∀ x, PathSearch.Visited ⟨rest, bs, b :: s.components⟩ x ↔ s.Visited x := by
      intro x
      rw [Visited, Visited, hblocks, List.flatten_cons, List.flatten_cons, List.mem_append,
        List.mem_append]
      tauto
    constructor
    case nodup =>
      have hperm : (bs.flatten ++ (b ++ s.components.flatten)).Perm
          (s.blocks.flatten ++ s.components.flatten) := by
        rw [hblocks, List.flatten_cons, ← List.append_assoc]
        exact List.perm_append_comm.append_right _
      exact hperm.nodup_iff.2 h.nodup
    case grey => exact hbelow
    case root =>
      intro c hc
      obtain ⟨r, hr, hmem⟩ := h.root c (by rw [hblocks]; exact List.mem_cons_of_mem _ hc)
      rw [hgrey] at hmem
      refine ⟨r, hr, (List.mem_cons.1 hmem).resolve_left ?_⟩
      rintro rfl
      exact hdisjoint hub (List.mem_flatten.2 ⟨c, hc, List.mem_of_getLast? hr⟩)
    case pending => exact fun x w hxw => h.pending x w (hof x w hxw)
    case edges =>
      intro x w hx hxw
      exact (h.edges x w ((hvisited x).1 hx) hxw).imp (hvisited w).2 (hrest x w)
    case begun => exact (hvisited start).2 h.begun
    case reach => exact fun x hx => h.reach x ((hvisited x).1 hx)
    case chain => exact hchain.2
    case block =>
      exact fun c hc => h.block c (by rw [hblocks]; exact List.mem_cons_of_mem _ hc)
    case upward =>
      exact hupward.2.imp fun hup x hx w hw hxw => hrest x w (hup x hx w hw hxw)
    case component =>
      intro c hc
      rcases List.mem_cons.1 hc with rfl | hc
      · exact ⟨List.ne_nil_of_mem hub, h.block c (by rw [hblocks]; exact List.mem_cons_self)⟩
      · exact h.component c hc
    case downward =>
      refine ⟨fun x hx w hxw => ?_, h.downward⟩
      have hxvisited : s.Visited x := by
        refine .inl ?_
        rw [hblocks]
        exact List.mem_append_left _ hx
      rcases h.edges x w hxvisited hxw with hw | hw
      · rcases hw with hw | hw
        · rw [hblocks] at hw
          rcases List.mem_append.1 hw with hw | hw
          · exact .inl hw
          · obtain ⟨c, hc, hwc⟩ := List.mem_flatten.1 hw
            exact absurd (hupward.1 c hc x hx w hwc hxw) (hnone x hx w)
        · exact .inr hw
      · exact absurd hw (hnone x hx w)
  · constructor
    case nodup => exact h.nodup
    case grey =>
      have := h.grey
      rw [hgrey] at this
      exact (List.sublist_cons_self _ _).trans this
    case root =>
      intro c hc
      obtain ⟨r, hr, hmem⟩ := h.root c hc
      rw [hgrey] at hmem
      refine ⟨r, hr, (List.mem_cons.1 hmem).resolve_left ?_⟩
      rintro rfl
      change c ∈ s.blocks at hc
      rw [hblocks] at hc
      rcases List.mem_cons.1 hc with rfl | hc
      · exact hroot hr
      · exact hdisjoint hub (List.mem_flatten.2 ⟨c, hc, List.mem_of_getLast? hr⟩)
    case pending => exact fun x w hxw => h.pending x w (hof x w hxw)
    case edges => exact fun x w hx hxw => (h.edges x w hx hxw).imp id (hrest x w)
    case begun => exact h.begun
    case reach => exact h.reach
    case chain => exact hchain.2
    case block => exact h.block
    case upward => exact h.upward.imp fun hup x hx w hw hxw => hrest x w (hup x hx w hw hxw)
    case component => exact h.component
    case downward => exact h.downward

end Steps

section Components

variable {E : ν → ν → Prop} {start x y : ν} {s : PathSearch ν}

/-- What components lead to is in components, and back only within one. -/
theorem Downward.mem_of_reach {cs : List (List ν)} (h : Downward E cs) (hx : x ∈ cs.flatten)
    (hxy : ReflTransGen E x y) : y ∈ cs.flatten := by
  induction hxy with
  | refl => exact hx
  | @tail y z _ hyz ih =>
    clear hx
    induction cs with
    | nil => exact absurd ih List.not_mem_nil
    | cons c cs ihcs =>
      rw [List.flatten_cons, List.mem_append] at ih ⊢
      rcases ih with hy | hy
      · exact h.1 y hy z hyz
      · exact .inr (ihcs h.2 hy)

theorem Downward.mem_of_mutual {cs : List (List ν)} (h : Downward E cs) (hnodup : cs.flatten.Nodup)
    {c : List ν} (hc : c ∈ cs) (hx : x ∈ c) (hxy : ReflTransGen E x y) (hyx : ReflTransGen E y x) :
    y ∈ c := by
  induction cs with
  | nil => exact absurd hc List.not_mem_nil
  | cons d cs ih =>
    rw [List.flatten_cons] at hnodup
    obtain ⟨-, hnodupcs, hdisjoint⟩ := List.nodup_append'.1 hnodup
    rcases List.mem_cons.1 hc with rfl | hc
    · have hy : y ∈ (c :: cs).flatten :=
        h.mem_of_reach (List.mem_flatten.2 ⟨c, List.mem_cons_self, hx⟩) hxy
      refine (List.mem_append.1 hy).resolve_right fun hy => ?_
      exact hdisjoint hx (h.2.mem_of_reach hy hyx)
    · exact ih h.2 hnodupcs hc

/-- **In the end** nothing is left in blocks. -/
theorem Inv.blocks_eq_nil (h : Inv E start s) (hpath : s.path = []) : s.blocks = [] := by
  refine List.eq_nil_iff_forall_not_mem.2 fun b hb => ?_
  obtain ⟨r, -, hr⟩ := h.root b hb
  rw [PathSearch.grey, hpath] at hr
  exact absurd hr List.not_mem_nil

/-- **In the end the search has come to what the start reaches.** -/
theorem Inv.mem_components_iff (h : Inv E start s) (hpath : s.path = []) :
    x ∈ s.components.flatten ↔ ReflTransGen E start x := by
  have hvisited : ∀ v, s.Visited v ↔ v ∈ s.components.flatten := by
    intro v
    rw [Visited, h.blocks_eq_nil hpath]
    simp
  constructor
  · exact fun hx => h.reach x ((hvisited x).2 hx)
  · exact fun hx => h.downward.mem_of_reach ((hvisited start).1 h.begun) hx

/-- **The components are the classes of mutual reachability.** -/
theorem Inv.mem_component_iff (h : Inv E start s) {c : List ν} (hc : c ∈ s.components)
    (hx : x ∈ c) : y ∈ c ↔ ReflTransGen E x y ∧ ReflTransGen E y x := by
  constructor
  · exact fun hy => ⟨(h.component c hc).2 x hx y hy, (h.component c hc).2 y hy x hx⟩
  · rintro ⟨hxy, hyx⟩
    exact h.downward.mem_of_mutual (List.nodup_append.1 h.nodup).2.1 hc hx hxy hyx

end Components

end PathSearch

end Lib
end Dwarfpp
