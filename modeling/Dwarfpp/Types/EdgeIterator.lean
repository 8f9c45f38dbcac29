/-
# The depth-first edge iterator

`type_iterator_df_edges` of `src/dies.cpp`.  Its position is an edge: the type
the edge leads to and the reason.  It keeps the stack of grey types, each with
the reason it was entered by, and the set of black ones; the edges still to come
are not stored but found again from the reasons on the stack.

`pending` is the list of these edges.  With it the iterator takes the steps of
`Lib.EdgeSearch` (`At.increment`), so it visits every edge that can be reached
from its start exactly once, and ends, if each type it enters has its first edge
found, and otherwise it fails an assertion (`edges_visited_once_iff`).
-/

import Mathlib
import Dwarfpp.Lib.EdgeSearch
import Dwarfpp.Types.Edges

namespace Dwarfpp
namespace Types

open Lib

variable {ι : Type}

/-- `type_iterator_df_base`: the position `base()` with its `reason()`, the grey types of
`m_stack` with the last one first, and `black_offsets`. -/
structure EdgeIterator (ι : Type) where
  base : Option ι
  reason : Option (Reason ι)
  stack : List (Option ι × Option (Reason ι))
  black : List (Option ι)

/-- `colour`. -/
inductive Colour
  | white | grey | black
  deriving DecidableEq

/-- `source_vertex_for()`. -/
def sourceVertexFor (g : TypeGraph ι) : Option (Reason ι) → Except Fault (Option ι)
  | none => .ok none
  | some (.dataMember t _) => do
    assert ((g t).tag.cls = .withDataMembers)
    return some t
  | some (.formalParameter t _) => do
    assert ((g t).tag.cls = .typeDescribingSubprogram)
    return some t
  | some (.type t) =>
    match (g t).tag.cls with
    | .typeDescribingSubprogram | .typeChain | .typedef | .ptrToMember | .array | .subrange
    | .enumeration => .ok (some t)
    | _ => .error .assertFailed

section Iterator

variable [DecidableEq ι] (g : TypeGraph ι)

/-- `colour_of()`. -/
def colourOf (stack : List (Option ι × Option (Reason ι))) (black : List (Option ι))
    (t : Option ι) : Colour :=
  if t ∈ black then .black else if t ∈ stack.map Prod.fst then .grey else .white

namespace EdgeIterator

/-- The iterator on a start type. -/
def start (t : ι) : EdgeIterator ι := ⟨some t, none, [], []⟩

/-- `!operator bool()`. -/
def atEnd (it : EdgeIterator ι) : Bool := it.base.isNone && it.reason.isNone

/-- The `while` loop of `increment_to_unseen_edge`, from a position with the given reason. -/
def sideways (black : List (Option ι)) :
    Option (Reason ι) → List (Option ι × Option (Reason ι)) → Except Fault (EdgeIterator ι)
  | _, [] => .ok ⟨none, none, [], black⟩
  | reason, top :: rest => do
    match ← nextOutgoingEdgeTarget g reason with
    | some e =>
      let source ← sourceVertexFor g reason
      assert (colourOf (top :: rest) black source = .grey)
      assert (source = top.1)
      return ⟨e.target, some e.reason, top :: rest, black⟩
    | none =>
      let predecessor ← sourceVertexFor g reason
      sideways (predecessor :: black) top.2 rest

/-- `increment_to_unseen_edge()`. -/
def increment (it : EdgeIterator ι) : Except Fault (EdgeIterator ι) :=
  match colourOf it.stack it.black it.base with
  | .white => do
    assert (colourOf ((it.base, it.reason) :: it.stack) it.black it.base = .grey)
    match ← firstOutgoingEdgeTarget g it.base with
    | some e => return ⟨e.target, some e.reason, (it.base, it.reason) :: it.stack, it.black⟩
    | none => sideways g (it.base :: it.black) it.reason it.stack
  | _ => sideways g it.black it.reason it.stack

/-- The positions from here on, if the end is reached within `n` steps. -/
def positions : ℕ → EdgeIterator ι → Except Fault (List (Option ι × Option (Reason ι)))
  | 0, _ => .error .outOfSteps
  | n + 1, it =>
    if it.atEnd then .ok []
    else do
      let it' ← increment g it
      let rest ← positions n it'
      return (it.base, it.reason) :: rest

end EdgeIterator

end Iterator

/-! ### The edges to come -/

section Edges

variable (g : TypeGraph ι)

/-- The edges out of a type, as `first_outgoing_edge_target` and
`predecessor_node_next_outgoing_edge_target` give them one after the other. -/
def edgesOf (t : Option ι) : List (OutgoingEdge ι) :=
  match outgoingEdges g t with
  | .ok es => es
  | .error _ => []

/-- The edges that follow the current one and those the types on the stack were entered by. -/
def pending : Option (Reason ι) → List (Option ι × Option (Reason ι)) → List (OutgoingEdge ι)
  | some r, top :: rest => laterEdges g r ++ pending top.2 rest
  | _, _ => []

/-- The form of an edge's reason, for a type of the class it is an edge of. -/
inductive ReasonOf (u : ι) : Reason ι → Prop
  | dataMember (k : ℕ) (h : (g u).tag.cls = .withDataMembers) : ReasonOf u (.dataMember u k)
  | formalParameter (k : ℕ) (h : (g u).tag.cls = .typeDescribingSubprogram) :
    ReasonOf u (.formalParameter u k)
  | type (h : (g u).tag.cls ∈ [TypeClass.typeDescribingSubprogram, .typeChain, .typedef,
      .ptrToMember, .array, .subrange, .enumeration]) : ReasonOf u (.type u)

/-- The current reason is that of an edge out of the last grey type, and so on down. -/
inductive Linked : Option (Reason ι) → List (Option ι × Option (Reason ι)) → Prop
  | start : Linked none []
  | edge {r : Reason ι} {u : ι} {reason : Option (Reason ι)} {rest}
    (h : ReasonOf g u r) (hrest : Linked reason rest) : Linked (some r) ((some u, reason) :: rest)

end Edges

section Facts

variable {g : TypeGraph ι} {t : Option ι} {e : OutgoingEdge ι}

/-- The edges of a type, from its first one on. -/
theorem edgesOf_eq {first : Option (OutgoingEdge ι)}
    (h : firstOutgoingEdgeTarget g t = .ok first) : edgesOf g t = edgesFrom g first := by
  unfold edgesOf outgoingEdges
  rw [h]
  rfl

theorem reasonOf_laterEdges {u : ι} {r : Reason ι} (h : ReasonOf g u r) (he : e ∈ laterEdges g r) :
    ReasonOf g u e.reason := by
  cases h with
  | dataMember k hcls =>
    obtain ⟨i, -, hi⟩ := List.mem_filterMap.1 he
    obtain ⟨c, -, rfl⟩ := Option.map_eq_some_iff.1 hi
    exact .dataMember i hcls
  | formalParameter k hcls =>
    obtain ⟨i, -, hi⟩ := List.mem_filterMap.1 he
    obtain ⟨c, -, rfl⟩ := Option.map_eq_some_iff.1 hi
    exact .formalParameter i hcls
  | type hcls =>
    rw [laterEdges] at he
    split_ifs at he with htds
    · obtain ⟨i, -, hi⟩ := List.mem_filterMap.1 he
      obtain ⟨c, -, rfl⟩ := Option.map_eq_some_iff.1 hi
      exact .formalParameter i htds
    · exact absurd he List.not_mem_nil

theorem reasonOf_first {u : ι} (h : firstOutgoingEdgeTarget g (some u) = .ok (some e)) :
    ReasonOf g u e.reason := by
  rw [firstOutgoingEdgeTarget] at h
  cases hcls : (g u).tag.cls <;> simp only [hcls] at h
  case typeChain | typedef | ptrToMember | array | typeDescribingSubprogram =>
    obtain rfl := Option.some.inj (Except.ok.inj h)
    exact .type (by simp [hcls])
  case withDataMembers =>
    obtain ⟨c, -, rfl⟩ := Option.map_eq_some_iff.1 (Except.ok.inj h)
    exact .dataMember 0 hcls
  case subrange | enumeration =>
    cases hfind : (g u).findType with
    | some v =>
      rw [hfind] at h
      obtain rfl := Option.some.inj (Except.ok.inj h)
      exact .type (by simp [hcls])
    | none =>
      rw [hfind] at h
      obtain ⟨v, -, h⟩ := bind_eq_ok.1 h
      obtain rfl := Option.some.inj (Except.ok.inj h)
      exact .type (by simp [hcls])
  case base | unspecified => cases Except.ok.inj h
  case string => cases h

/-- **The reasons of the edges out of a type.** -/
theorem reasonOf_mem_edgesOf (h : e ∈ edgesOf g t) : ∃ u, t = some u ∧ ReasonOf g u e.reason := by
  cases t with
  | none => exact absurd h List.not_mem_nil
  | some u =>
    refine ⟨u, rfl, ?_⟩
    unfold edgesOf outgoingEdges at h
    cases hfirst : firstOutgoingEdgeTarget g (some u) with
    | error f =>
      rw [hfirst] at h
      exact absurd h List.not_mem_nil
    | ok first =>
      rw [hfirst] at h
      cases first with
      | none => exact absurd h List.not_mem_nil
      | some e' =>
        rcases List.mem_cons.1 h with rfl | h
        · exact reasonOf_first hfirst
        · exact reasonOf_laterEdges (reasonOf_first hfirst) h

/-- The source of such a reason is found, and so is the next edge. -/
theorem ReasonOf.answers {u : ι} {r : Reason ι} (h : ReasonOf g u r) :
    sourceVertexFor g (some r) = .ok (some u) ∧
      ∃ o, nextOutgoingEdgeTarget g (some r) = .ok o ∧ laterEdges g r = edgesFrom g o := by
  have hnext : ∃ o, nextOutgoingEdgeTarget g (some r) = .ok o := by
    cases h with
    | dataMember k => exact ⟨_, rfl⟩
    | formalParameter k => exact ⟨_, rfl⟩
    | type hcls =>
      unfold nextOutgoingEdgeTarget
      cases hc : (g u).tag.cls <;> simp_all
  refine ⟨?_, hnext.imp fun o ho => ⟨ho, laterEdges_eq ho⟩⟩
  cases h with
  | dataMember k hcls =>
    rw [sourceVertexFor, assert_ok hcls]
    rfl
  | formalParameter k hcls =>
    rw [sourceVertexFor, assert_ok hcls]
    rfl
  | type hcls =>
    unfold sourceVertexFor
    cases hc : (g u).tag.cls <;> simp_all

/-- The later edges of a reason have other reasons, each once. -/
theorem nodup_laterEdges (r : Reason ι) :
    (laterEdges g r).Nodup ∧ ∀ e ∈ laterEdges g r, e.reason ≠ r := by
  have hmember : ∀ {u k n}, ((List.range' k n).filterMap (dataMemberEdge g u)).Nodup := by
    intro u k n
    refine (List.nodup_range' 1).filterMap fun i j e hi hj => ?_
    obtain ⟨c, -, rfl⟩ := Option.map_eq_some_iff.1 hi
    obtain ⟨c', -, heq⟩ := Option.map_eq_some_iff.1 hj
    exact ((Reason.dataMember.inj (OutgoingEdge.mk.inj heq).2).2).symm
  have hparameter : ∀ {u k n}, ((List.range' k n).filterMap (formalParameterEdge g u)).Nodup := by
    intro u k n
    refine (List.nodup_range' 1).filterMap fun i j e hi hj => ?_
    obtain ⟨c, -, rfl⟩ := Option.map_eq_some_iff.1 hi
    obtain ⟨c', -, heq⟩ := Option.map_eq_some_iff.1 hj
    exact ((Reason.formalParameter.inj (OutgoingEdge.mk.inj heq).2).2).symm
  cases r with
  | dataMember u k =>
    refine ⟨hmember, fun e he hr => ?_⟩
    obtain ⟨i, hi, he⟩ := List.mem_filterMap.1 he
    obtain ⟨c, -, rfl⟩ := Option.map_eq_some_iff.1 he
    have hle := (List.mem_range'_1.1 hi).1
    have heq := (Reason.dataMember.inj hr).2
    omega
  | formalParameter u k =>
    refine ⟨hparameter, fun e he hr => ?_⟩
    obtain ⟨i, hi, he⟩ := List.mem_filterMap.1 he
    obtain ⟨c, -, rfl⟩ := Option.map_eq_some_iff.1 he
    have hle := (List.mem_range'_1.1 hi).1
    have heq := (Reason.formalParameter.inj hr).2
    omega
  | type u =>
    rw [laterEdges]
    split_ifs with hcls
    · refine ⟨hparameter, fun e he hr => ?_⟩
      obtain ⟨i, -, he⟩ := List.mem_filterMap.1 he
      obtain ⟨c, -, rfl⟩ := Option.map_eq_some_iff.1 he
      cases hr
    · exact ⟨.nil, fun e he => absurd he List.not_mem_nil⟩

theorem nodup_edgesOf (g : TypeGraph ι) (t : Option ι) : (edgesOf g t).Nodup := by
  unfold edgesOf outgoingEdges
  cases firstOutgoingEdgeTarget g t with
  | error f => exact .nil
  | ok first =>
    cases first with
    | none => exact .nil
    | some e =>
      obtain ⟨hnodup, hne⟩ := nodup_laterEdges (g := g) e.reason
      exact List.nodup_cons.2 ⟨fun he => hne e he rfl, hnodup⟩

theorem edgesOf_source {u v : Option ι} (hu : e ∈ edgesOf g u) (hv : e ∈ edgesOf g v) :
    u = v := by
  obtain ⟨u', rfl, hu'⟩ := reasonOf_mem_edgesOf hu
  obtain ⟨v', rfl, hv'⟩ := reasonOf_mem_edgesOf hv
  exact Except.ok.inj (hu'.answers.1.symm.trans hv'.answers.1)

end Facts

/-! ### The steps of the iterator -/

section Steps

variable [DecidableEq ι] {g : TypeGraph ι}

/-- The types on the stack are distinct, and grey. -/
structure Grey (stack : List (Option ι × Option (Reason ι))) (black : List (Option ι)) : Prop where
  nodup : (stack.map Prod.fst).Nodup
  not_black : ∀ v ∈ stack.map Prod.fst, v ∉ black

omit [DecidableEq ι] in
theorem Grey.tail {top : Option ι × Option (Reason ι)} {rest black}
    (h : Grey (top :: rest) black) : Grey rest (top.1 :: black) := by
  obtain ⟨htop, hrest⟩ := List.nodup_cons.1 h.nodup
  refine ⟨hrest, fun v hv hblack => ?_⟩
  rcases List.mem_cons.1 hblack with rfl | hblack
  · exact htop hv
  · exact h.not_black v (List.mem_cons_of_mem _ hv) hblack

theorem colourOf_top {top : Option ι × Option (Reason ι)} {rest black}
    (h : Grey (top :: rest) black) : colourOf (top :: rest) black top.1 = .grey := by
  have hmem : top.1 ∈ (top :: rest).map Prod.fst := List.mem_cons_self
  rw [colourOf, if_neg (h.not_black _ hmem), if_pos hmem]

/-- The loop ends when no edge is to come. -/
theorem sideways_end {reason : Option (Reason ι)} {stack} (hlinked : Linked g reason stack)
    (hpending : pending g reason stack = []) (black : List (Option ι)) :
    ∃ black', EdgeIterator.sideways g black reason stack = .ok ⟨none, none, [], black'⟩ := by
  induction hlinked generalizing black with
  | start => exact ⟨black, rfl⟩
  | @edge r u reason rest hr _ ih =>
    obtain ⟨hsource, o, hnext, hlater⟩ := hr.answers
    rw [pending, hlater, List.append_eq_nil_iff] at hpending
    cases o with
    | some e => exact absurd hpending.1 (List.cons_ne_nil _ _)
    | none =>
      obtain ⟨black', h⟩ := ih hpending.2 (some u :: black)
      refine ⟨black', ?_⟩
      rw [EdgeIterator.sideways, hnext, ok_bind]
      simp only [hsource, ok_bind]
      exact h

/-- Otherwise it goes to the first of them. -/
theorem sideways_next {reason : Option (Reason ι)} {stack} (hlinked : Linked g reason stack)
    {e : OutgoingEdge ι} {rest : List (OutgoingEdge ι)}
    (hpending : pending g reason stack = e :: rest) {black : List (Option ι)}
    (hgrey : Grey stack black) :
    ∃ stack' black', EdgeIterator.sideways g black reason stack =
        .ok ⟨e.target, some e.reason, stack', black'⟩ ∧
      pending g (some e.reason) stack' = rest ∧ Linked g (some e.reason) stack' ∧
      Grey stack' black' ∧
      ∀ v, v ∈ black' ∨ v ∈ stack'.map Prod.fst ↔ v ∈ black ∨ v ∈ stack.map Prod.fst := by
  induction hlinked generalizing black with
  | start => cases hpending
  | @edge r u reason stack hr hrest ih =>
    obtain ⟨hsource, o, hnext, hlater⟩ := hr.answers
    rw [pending, hlater] at hpending
    cases o with
    | some e' =>
      obtain ⟨rfl, htail⟩ := List.cons.inj hpending
      have hr' : ReasonOf g u e'.reason := reasonOf_laterEdges hr (by rw [hlater]; exact .head _)
      refine ⟨(some u, reason) :: stack, black, ?_, htail, .edge hr' hrest, hgrey, fun v => Iff.rfl⟩
      rw [EdgeIterator.sideways, hnext, ok_bind]
      simp only [hsource, ok_bind]
      rw [assert_ok (colourOf_top hgrey), assert_ok trivial]
      rfl
    | none =>
      obtain ⟨stack', black', h, hp, hl, hg, hmem⟩ := ih hpending hgrey.tail
      refine ⟨stack', black', ?_, hp, hl, hg, fun v => (hmem v).trans ?_⟩
      · rw [EdgeIterator.sideways, hnext, ok_bind]
        simp only [hsource, ok_bind]
        exact h
      · simp only [List.mem_cons, List.map_cons]
        tauto

variable (g) in
/-- The iterator is at an edge of the search. -/
structure At (it : EdgeIterator ι) (s : EdgeSearch.State (Option ι) (OutgoingEdge ι)) : Prop where
  node : s.node = it.base
  entered : ∀ v, v ∈ s.entered ↔ v ∈ it.black ∨ v ∈ it.stack.map Prod.fst
  pending : s.pending = pending g it.reason it.stack
  linked : Linked g it.reason it.stack
  grey : Grey it.stack it.black

/-- Where the next edge, or the end, is: what a step of the search leads to. -/
def Leads (g : TypeGraph ι) (step : Except Fault (EdgeIterator ι)) (entered : List (Option ι)) :
    List (OutgoingEdge ι) → Prop
  | [] => ∃ black, step = .ok ⟨none, none, [], black⟩
  | e :: rest => ∃ it', step = .ok it' ∧ it'.base = e.target ∧ it'.reason = some e.reason ∧
      At g it' ⟨e.target, entered, rest⟩

theorem sideways_leads {reason : Option (Reason ι)} {stack} {black entered : List (Option ι)}
    (hlinked : Linked g reason stack) (hgrey : Grey stack black)
    (hentered : ∀ v, v ∈ entered ↔ v ∈ black ∨ v ∈ stack.map Prod.fst) :
    Leads g (EdgeIterator.sideways g black reason stack) entered (pending g reason stack) := by
  cases hpending : pending g reason stack with
  | nil => exact sideways_end hlinked hpending black
  | cons e rest =>
    obtain ⟨stack', black', hstep, hrest, hlinked', hgrey', hmem⟩ :=
      sideways_next hlinked hpending hgrey
    exact ⟨_, hstep, rfl, rfl,
      { node := rfl
        entered := fun v => (hentered v).trans (hmem v).symm
        pending := hrest.symm
        linked := hlinked'
        grey := hgrey' }⟩

theorem colourOf_eq_white {stack : List (Option ι × Option (Reason ι))} {black : List (Option ι)}
    {t : Option ι} : colourOf stack black t = .white ↔ ¬(t ∈ black ∨ t ∈ stack.map Prod.fst) := by
  unfold colourOf
  split_ifs <;> simp_all

/-- **One increment is one step of the search**, where the first edge is found. -/
theorem At.increment {it : EdgeIterator ι} {s : EdgeSearch.State (Option ι) (OutgoingEdge ι)}
    (h : At g it s) {first : Option (OutgoingEdge ι)}
    (hfirst : firstOutgoingEdgeTarget g it.base = .ok first) :
    Leads g (it.increment g) (EdgeSearch.enter (edgesOf g) s).entered
      (EdgeSearch.enter (edgesOf g) s).pending := by
  obtain ⟨hnode, hentered, hpending, hlinked, hgrey⟩ := h
  by_cases hwhite : colourOf it.stack it.black it.base = .white
  · have hnew := colourOf_eq_white.1 hwhite
    have henter : EdgeSearch.enter (edgesOf g) s = { s with
        entered := it.base :: s.entered
        pending := edgesFrom g first ++ Types.pending g it.reason it.stack } := by
      rw [EdgeSearch.enter, if_neg (by rw [hnode, hentered]; exact hnew), hnode, hpending,
        edgesOf_eq hfirst]
    have hpushed : Grey ((it.base, it.reason) :: it.stack) it.black :=
      ⟨List.nodup_cons.2 ⟨fun hmem => hnew (.inr hmem), hgrey.nodup⟩, fun v hv => by
        rcases List.mem_cons.1 hv with rfl | hv
        · exact fun hb => hnew (.inl hb)
        · exact hgrey.not_black v hv⟩
    rw [henter, EdgeIterator.increment, hwhite]
    simp only [assert_ok (colourOf_top hpushed), ok_bind, hfirst]
    cases first with
    | none =>
      refine sideways_leads hlinked hpushed.tail fun v => ?_
      rw [List.mem_cons, List.mem_cons, hentered, or_assoc]
    | some e =>
      refine ⟨_, rfl, rfl, rfl, ⟨rfl, fun v => ?_, rfl, ?_, hpushed⟩⟩
      · rw [List.mem_cons, hentered, List.map_cons, List.mem_cons]
        tauto
      · cases hbase : it.base with
        | none =>
          rw [hbase] at hfirst
          cases hfirst
        | some u => exact .edge (reasonOf_first (hbase ▸ hfirst)) hlinked
  · have hold : s.node ∈ s.entered := by
      rw [hnode, hentered]
      exact not_not.1 fun hnot => hwhite (colourOf_eq_white.2 hnot)
    have hstep : it.increment g = EdgeIterator.sideways g it.black it.reason it.stack := by
      unfold EdgeIterator.increment
      split
      next hc => exact absurd hc hwhite
      · rfl
    rw [hstep, EdgeSearch.enter, if_pos hold, hpending]
    exact sideways_leads hlinked hgrey hentered

/-- Every type that can be reached has its first edge found. -/
def FirstEdgesFound (g : TypeGraph ι) (t : Option ι) : Prop :=
  ∀ v, EdgeSearch.Reach (edgesOf g) OutgoingEdge.target t v → HasFirstEdge g v

/-- The positions from an edge of the search on are its edges. -/
theorem At.positions {t : Option ι} (hfound : FirstEdgesFound g t) {n : ℕ}
    {it : EdgeIterator ι} {s : EdgeSearch.State (Option ι) (OutgoingEdge ι)} (h : At g it s)
    {visited : List (OutgoingEdge ι)}
    (hs : EdgeSearch.Searched (edgesOf g) OutgoingEdge.target t visited s)
    (hnot : it.atEnd = false) {more : List (OutgoingEdge ι)}
    (hedges : EdgeSearch.edges (edgesOf g) OutgoingEdge.target n s = some more) :
    it.positions g (n + 1) =
      .ok ((it.base, it.reason) :: more.map fun e => (e.target, some e.reason)) := by
  induction n generalizing it s visited more with
  | zero => cases hedges
  | succ n ih =>
    obtain ⟨first, hfirst⟩ := hasFirstEdge_iff.1 (hfound _ hs.node)
    rw [h.node] at hfirst
    have hleads := h.increment hfirst
    rw [EdgeIterator.positions, hnot]
    simp only [Bool.false_eq_true, if_false]
    rw [EdgeSearch.edges] at hedges
    cases hpending : (EdgeSearch.enter (edgesOf g) s).pending with
    | nil =>
      rw [EdgeSearch.next, hpending] at hedges
      obtain rfl := Option.some.inj hedges
      rw [hpending] at hleads
      obtain ⟨black, hstep⟩ := hleads
      rw [hstep]
      rfl
    | cons e rest =>
      rw [hpending] at hleads
      obtain ⟨it', hstep, hbase, hreason, hat⟩ := hleads
      have hnext : EdgeSearch.next (edgesOf g) OutgoingEdge.target s =
          some (e, ⟨e.target, (EdgeSearch.enter (edgesOf g) s).entered, rest⟩) := by
        rw [EdgeSearch.next, hpending]
      rw [hnext] at hedges
      obtain ⟨more', hmore, rfl⟩ := Option.map_eq_some_iff.1 hedges
      have hgoes : it'.atEnd = false := by
        rw [EdgeIterator.atEnd, hreason]
        exact Bool.and_false _
      rw [hstep, ok_bind, ih hat (hs.next hnext) hgoes hmore, ok_bind, hbase, hreason]
      rfl

/-- An increment that succeeds has found the first edge of the type it was at. -/
theorem At.hasFirstEdge {it it' : EdgeIterator ι}
    {s : EdgeSearch.State (Option ι) (OutgoingEdge ι)} (h : At g it s)
    (hentered : ∀ v ∈ s.entered, HasFirstEdge g v) (hstep : it.increment g = .ok it') :
    HasFirstEdge g it.base := by
  by_cases hwhite : colourOf it.stack it.black it.base = .white
  · rw [EdgeIterator.increment, hwhite] at hstep
    obtain ⟨-, -, hstep⟩ := bind_eq_ok.1 hstep
    obtain ⟨first, hfirst, -⟩ := bind_eq_ok.1 hstep
    exact hasFirstEdge_iff.2 ⟨first, hfirst⟩
  · refine hentered _ ((h.entered _).2 (not_not.1 fun hnot => ?_))
    exact hwhite (colourOf_eq_white.2 hnot)

/-- **A run that ends has found the first edge of every type that can be reached.** -/
theorem At.firstEdgesFound {t : Option ι} {n : ℕ} {it : EdgeIterator ι}
    {s : EdgeSearch.State (Option ι) (OutgoingEdge ι)} (h : At g it s)
    {visited : List (OutgoingEdge ι)}
    (hs : EdgeSearch.Searched (edgesOf g) OutgoingEdge.target t visited s)
    (hnot : it.atEnd = false) (hentered : ∀ v ∈ s.entered, HasFirstEdge g v)
    {l : List (Option ι × Option (Reason ι))} (hrun : it.positions g n = .ok l) :
    FirstEdgesFound g t := by
  induction n generalizing it s visited l with
  | zero => cases hrun
  | succ n ih =>
    rw [EdgeIterator.positions, hnot] at hrun
    obtain ⟨it₁, hstep, hrun⟩ := bind_eq_ok.1 hrun
    obtain ⟨l', hrun, -⟩ := bind_eq_ok.1 hrun
    have hbase := h.hasFirstEdge hentered hstep
    obtain ⟨first, hfirst⟩ := hasFirstEdge_iff.1 hbase
    have hleads := h.increment hfirst
    have hnow : ∀ v ∈ (EdgeSearch.enter (edgesOf g) s).entered, HasFirstEdge g v := by
      intro v hv
      rcases EdgeSearch.mem_enter.1 hv with hv | rfl
      · exact hentered v hv
      · rw [h.node]
        exact hbase
    cases hpending : (EdgeSearch.enter (edgesOf g) s).pending with
    | nil =>
      have hend : EdgeSearch.next (edgesOf g) OutgoingEdge.target s = none := by
        rw [EdgeSearch.next, hpending]
      exact fun v hv => hnow v (((hs.done hend).2 v).2 hv)
    | cons e rest =>
      rw [hpending] at hleads
      obtain ⟨it', hstep', -, hreason, hat⟩ := hleads
      obtain rfl := Except.ok.inj (hstep.symm.trans hstep')
      have hnext : EdgeSearch.next (edgesOf g) OutgoingEdge.target s =
          some (e, ⟨e.target, (EdgeSearch.enter (edgesOf g) s).entered, rest⟩) := by
        rw [EdgeSearch.next, hpending]
      have hgoes : it₁.atEnd = false := by
        rw [EdgeIterator.atEnd, hreason]
        exact Bool.and_false _
      exact ih hat (hs.next hnext) hgoes hnow hrun

omit [DecidableEq ι] in
/-- The search begins with the iterator. -/
theorem at_start (t : ι) : At g (EdgeIterator.start t) ⟨some t, [], []⟩ where
  node := rfl
  entered v := by simp [EdgeIterator.start]
  pending := rfl
  linked := .start
  grey := ⟨.nil, fun v hv => absurd hv List.not_mem_nil⟩

/-- **The edge iterator visits the start and then every edge that can be reached once, and ends,
exactly if every type that can be reached has its first edge found.** -/
theorem edges_visited_once_iff [Finite ι] (t : ι) :
    (∃ (n : ℕ) (visited : List (OutgoingEdge ι)),
      (EdgeIterator.start t).positions g n =
        .ok ((some t, none) :: visited.map fun e => (e.target, some e.reason)) ∧
      visited.Nodup ∧
      ∀ e, e ∈ visited ↔
        ∃ v, EdgeSearch.Reach (edgesOf g) OutgoingEdge.target (some t) v ∧ e ∈ edgesOf g v) ↔
      FirstEdgesFound g (some t) := by
  have hnot : (EdgeIterator.start t).atEnd = false := rfl
  constructor
  · rintro ⟨n, visited, hrun, -⟩
    exact (at_start t).firstEdgesFound EdgeSearch.searched_start hnot
      (fun v hv => absurd hv List.not_mem_nil) hrun
  · intro hfound
    have hsource : ∀ u v e, e ∈ edgesOf g u → e ∈ edgesOf g v → u = v :=
      fun u v e => edgesOf_source
    obtain ⟨n, visited, hedges, hnodup, hmem⟩ :=
      EdgeSearch.exists_edges (nodup_edgesOf g) hsource (some t)
    exact ⟨n + 1, visited, (at_start t).positions hfound EdgeSearch.searched_start hnot hedges,
      hnodup, hmem⟩

/-- A list's node, with links to the next node and to its data. -/
def listNode (t : Fin 3) : TypeDie (Fin 3) :=
  if t = 0 then
    { (default : TypeDie (Fin 3)) with
      tag := .structureType
      dataMembers := [⟨false, some 1, some 1, none, none⟩, ⟨false, some 2, some 2, none, none⟩] }
  else
    { (default : TypeDie (Fin 3)) with
      tag := .pointerType
      findType := if t = 1 then some 0 else none }

/-- From the node the iterator visits its four edges. -/
theorem listNode_edges_visited :
    ∃ (n : ℕ) (visited : List (OutgoingEdge (Fin 3))),
      (EdgeIterator.start 0).positions listNode n =
        .ok ((some 0, none) :: visited.map fun e => (e.target, some e.reason)) ∧
      visited.Nodup ∧
      ∀ e, e ∈ visited ↔ ∃ v,
        EdgeSearch.Reach (edgesOf listNode) OutgoingEdge.target (some 0) v ∧
          e ∈ edgesOf listNode v :=
  (edges_visited_once_iff 0).2 fun v _ =>
    match v with
    | none | some 0 | some 1 | some 2 => trivial

/-- An array of strings. -/
def stringArray (t : Fin 2) : TypeDie (Fin 2) :=
  { (default : TypeDie (Fin 2)) with
    tag := if t = 0 then .arrayType else .stringType
    findType := if t = 0 then some 1 else none }

/-- **The iterator fails an assertion when it goes on from a string type.** -/
theorem stringArray_not_visited :
    ¬∃ (n : ℕ) (visited : List (OutgoingEdge (Fin 2))),
      (EdgeIterator.start 0).positions stringArray n =
        .ok ((some 0, none) :: visited.map fun e => (e.target, some e.reason)) ∧
      visited.Nodup ∧
      ∀ e, e ∈ visited ↔ ∃ v,
        EdgeSearch.Reach (edgesOf stringArray) OutgoingEdge.target (some 0) v ∧
          e ∈ edgesOf stringArray v := by
  rintro ⟨n, visited, hrun, -⟩
  match n, hrun with
  | 0, h => exact nomatch h
  | 1, h => exact nomatch h
  | n + 2, h => exact nomatch h

end Steps

end Types
end Dwarfpp
