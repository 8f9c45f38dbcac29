/-
# The search for strong components

The depth-first search of `get_scc` (`Types/SccBuilder.lean`) takes the steps of
`Lib.PathSearch`: `seen_but_not_assigned` is the blocks in a row,
`perhaps_same_scc` has the first type of each, and the numbers say which block a
type is in.  An edge to a type with an answer from an earlier call is not followed.
-/

import Dwarfpp.Lib.PathSearch
import Dwarfpp.Types.SccBuilder

namespace Dwarfpp
namespace Types

open Lib

variable {ι : Type}

theorem offsetKey_injective : Function.Injective (offsetKey : Option ι → WithTop ι) := by
  rintro (_ | a) (_ | b) h
  · rfl
  · exact absurd h (WithTop.coe_ne_top).symm
  · exact absurd h WithTop.coe_ne_top
  · rw [WithTop.coe_injective h]

section Edges

variable (g : TypeGraph ι) (cached : ι → Bool)

/-- Where edges lead that are not cut off. -/
def freshTargets (es : List (OutgoingEdge ι)) : List (Option ι) :=
  (es.filter fun e => !e.target.any cached).map (·.target)

/-- An edge of the search. -/
def FreshEdge (u v : Option ι) : Prop := v ∈ freshTargets cached (edgesOf g u)

/-- The path of the search that a stack stands for, given the reason of the current position. -/
inductive OnPath : Option (Reason ι) → List (Option ι × Option (Reason ι)) →
    List (Option ι × List (Option ι)) → Prop
  | start : OnPath none [] []
  | edge {r : Reason ι} {u : ι} {reason : Option (Reason ι)} {stack path}
    (h : ReasonOf g u r) (hrest : OnPath reason stack path) :
    OnPath (some r) ((some u, reason) :: stack)
      ((some u, freshTargets cached (laterEdges g r)) :: path)

end Edges

section Tables

variable [LinearOrder ι]

/-- A type's number. -/
def numberOf (numbers : OrderedMap (WithTop ι) ℕ) (v : Option ι) : ℕ :=
  (numbers.find (offsetKey v)).getD 0

theorem find_insertNew {m : OrderedMap (WithTop ι) ℕ} {v w : Option ι} {n : ℕ}
    (h : m.find (offsetKey v) = none) :
    (insertNew m (offsetKey v) n).find (offsetKey w) =
      if w = v then some n else m.find (offsetKey w) := by
  have hinsert : insertNew m (offsetKey v) n = m.insert (offsetKey v) n := by
    rw [insertNew, h]
  rw [hinsert, OrderedMap.find_insert]
  exact if_congr offsetKey_injective.eq_iff rfl rfl

/-- What is found after a component's types are inserted. -/
theorem find_foldl_insertNew {c : ℕ} {vs : List (Option ι)} {m : OrderedMap (WithTop ι) ℕ}
    (h : ∀ v ∈ vs, m.find (offsetKey v) = none) (hnodup : vs.Nodup) (w : Option ι) :
    (vs.foldl (fun m v => insertNew m (offsetKey v) c) m).find (offsetKey w) =
      if w ∈ vs then some c else m.find (offsetKey w) := by
  induction vs generalizing m with
  | nil => rfl
  | cons v vs ih =>
    obtain ⟨hv, hnodup⟩ := List.nodup_cons.1 hnodup
    have hfind : ∀ w, (insertNew m (offsetKey v) c).find (offsetKey w) =
        if w = v then some c else m.find (offsetKey w) := fun w =>
      find_insertNew (h v List.mem_cons_self)
    have hrest : ∀ x ∈ vs, (insertNew m (offsetKey v) c).find (offsetKey x) = none := by
      intro x hx
      rw [hfind, if_neg (show x ≠ v from fun hxv => hv (hxv ▸ hx))]
      exact h x (List.mem_cons_of_mem _ hx)
    rw [List.foldl_cons, ih hrest hnodup, hfind]
    by_cases hw : w ∈ vs <;> by_cases hwv : w = v <;> simp [hw, hwv]

theorem popGreater_cons {numbers : OrderedMap (WithTop ι) ℕ} {n : ℕ} {p : Option ι}
    {ps : List (Option ι)} :
    SccBuilder.popGreater numbers n (p :: ps) =
      if n < numberOf numbers p then SccBuilder.popGreater numbers n ps else .ok (p :: ps) := rfl

/-- **Popping what has a greater number** merges blocks. -/
theorem popGreater_roots {numbers : OrderedMap (WithTop ι) ℕ} {blocks : List (List (Option ι))}
    (hdecreasing : blocks.flatten.Pairwise fun x y => numberOf numbers y < numberOf numbers x)
    (hblocks : ∀ b ∈ blocks, b ≠ []) {v : Option ι} (hv : v ∈ blocks.flatten) :
    SccBuilder.popGreater numbers (numberOf numbers v) (blocks.filterMap List.getLast?) =
      .ok ((PathSearch.mergeTo v blocks).filterMap List.getLast?) := by
  induction blocks with
  | nil => exact absurd hv List.not_mem_nil
  | cons b bs ih =>
    rw [List.flatten_cons, List.pairwise_append] at hdecreasing
    obtain ⟨hb, hbs, hcross⟩ := hdecreasing
    obtain ⟨l, r, rfl⟩ : ∃ l r, b = l ++ [r] := by
      obtain ⟨l, r, h⟩ := List.eq_nil_or_concat b |>.resolve_left (hblocks b List.mem_cons_self)
      exact ⟨l, r, by simpa using h⟩
    have hlast : (l ++ [r]).getLast? = some r := by simp
    rw [List.filterMap_cons_some hlast, popGreater_cons, PathSearch.mergeTo]
    by_cases hvb : v ∈ l ++ [r]
    · have hle : ¬numberOf numbers v < numberOf numbers r := by
        rcases List.mem_append.1 hvb with hvl | hvr
        · exact not_lt.2 ((List.pairwise_append.1 hb).2.2 v hvl r (List.mem_singleton_self r)).le
        · rw [List.mem_singleton.1 hvr]
          exact lt_irrefl _
      rw [if_pos hvb, if_neg hle, List.filterMap_cons_some hlast]
    · have hvbs : v ∈ bs.flatten := by
        rw [List.flatten_cons, List.mem_append] at hv
        exact hv.resolve_left hvb
      have hlt : numberOf numbers v < numberOf numbers r :=
        hcross r (List.mem_append_right _ (List.mem_singleton_self r)) v hvbs
      obtain ⟨above, b', below, -, hb', -, hmerge⟩ := PathSearch.mergeTo_spec hvbs
      rw [if_neg hvb, if_pos hlt, ih hbs (fun c hc => hblocks c (List.mem_cons_of_mem _ hc)) hvbs,
        hmerge]
      have hne : above.flatten ++ b' ≠ [] := List.ne_nil_of_mem (List.mem_append_right _ hb')
      obtain ⟨r', hr'⟩ : ∃ r', (above.flatten ++ b').getLast? = some r' :=
        ⟨_, List.getLast?_eq_some_getLast hne⟩
      have hr'' : (l ++ [r] ++ (above.flatten ++ b')).getLast? = some r' := by
        rw [List.getLast?_append, hr']
        rfl
      rw [List.filterMap_cons_some hr', List.filterMap_cons_some hr'']

/-- **Popping a component**: the top block down to its first type. -/
theorem popComponent_block {base : Option ι} {c : ℕ} {block rest : List (Option ι)}
    {b : SccBuilder ι} (hroot : block.getLast? = some base) (hnodup : block.Nodup) :
    SccBuilder.popComponent base c (block ++ rest) b = .ok { b with
      seenButNotAssigned := rest
      componentNumbers :=
        block.foldl (fun m v => insertNew m (offsetKey v) c) b.componentNumbers
      componentMembers := b.componentMembers ++ block.map (c, ·) } := by
  induction block generalizing b with
  | nil => exact nomatch hroot
  | cons v block ih =>
    rw [List.cons_append, SccBuilder.popComponent]
    cases block with
    | nil =>
      obtain rfl : v = base := by simpa using hroot
      rw [if_pos rfl]
      rfl
    | cons w block =>
      have hne : v ≠ base := by
        rintro rfl
        refine (List.nodup_cons.1 hnodup).1 (List.mem_of_getLast? ?_)
        rwa [List.getLast?_cons_cons] at hroot
      rw [List.getLast?_cons_cons] at hroot
      rw [if_neg hne, ih hroot (List.nodup_cons.1 hnodup).2]
      simp [List.append_assoc]

/-- A type that is not the first of a block is black. -/
theorem blacken_inner {b : SccBuilder ι} {top : Option ι} {roots : List (Option ι)}
    (hroots : b.perhapsSameScc = top :: roots) (htop : top ≠ b.base) :
    b.blacken = .ok { b with black := b.base :: b.black } := by
  rw [SccBuilder.blacken]
  split
  · next heq => exact nomatch hroots.symm.trans heq
  · next top' rest' heq =>
    obtain ⟨rfl, rfl⟩ := List.cons.inj (hroots.symm.trans heq)
    rw [if_neg htop]
    rfl

/-- The first type of the top block takes the block along. -/
theorem blacken_root {b : SccBuilder ι} {block rest roots : List (Option ι)}
    (hroots : b.perhapsSameScc = b.base :: roots) (hseen : b.seenButNotAssigned = block ++ rest)
    (hroot : block.getLast? = some b.base) (hnodup : block.Nodup) :
    b.blacken = .ok { b with
      black := b.base :: b.black
      seenButNotAssigned := rest
      perhapsSameScc := roots
      componentCount := b.componentCount + 1
      componentNumbers :=
        block.foldl (fun m v => insertNew m (offsetKey v) b.componentCount) b.componentNumbers
      componentMembers := b.componentMembers ++ block.map (b.componentCount, ·) } := by
  rw [SccBuilder.blacken]
  split
  · next heq => exact nomatch hroots.symm.trans heq
  · next top rest' heq =>
    obtain ⟨rfl, rfl⟩ := List.cons.inj (hroots.symm.trans heq)
    rw [if_pos rfl, hseen, popComponent_block hroot hnodup]
    rfl

/-- A type's component, when they are counted from the first one on. -/
def componentOf : List (List (Option ι)) → Option ι → Option ℕ
  | [], _ => none
  | c :: cs, v => if v ∈ c then some cs.length else componentOf cs v

/-- The components' types, each with the component's number. -/
def memberEntries : List (List (Option ι)) → List (ℕ × Option ι)
  | [] => []
  | c :: cs => memberEntries cs ++ c.map (cs.length, ·)

theorem componentOf_eq_none_iff {cs : List (List (Option ι))} {v : Option ι} :
    componentOf cs v = none ↔ v ∉ cs.flatten := by
  induction cs with
  | nil => simp [componentOf]
  | cons c cs ih =>
    rw [componentOf, List.flatten_cons, List.mem_append, not_or, ← ih]
    split_ifs with h <;> simp [h]

end Tables

section Matches

variable [LinearOrder ι]

/-- The tables are those of a search. -/
structure Matches (b : SccBuilder ι) (s : PathSearch (Option ι)) : Prop where
  seen : b.seenButNotAssigned = s.blocks.flatten
  roots : b.perhapsSameScc = s.blocks.filterMap List.getLast?
  numbered : ∀ v, b.preorderNumbers.find (offsetKey v) = none ↔ ¬s.Visited v
  bounded : ∀ v n, b.preorderNumbers.find (offsetKey v) = some n → n < b.seenCount
  decreasing : s.blocks.flatten.Pairwise fun x y =>
    numberOf b.preorderNumbers y < numberOf b.preorderNumbers x
  count : b.componentCount = s.components.length
  numbers : ∀ v, b.componentNumbers.find (offsetKey v) = componentOf s.components v
  members : b.componentMembers = memberEntries s.components
  black : ∀ v, v ∈ b.black ↔ s.Visited v ∧ v ∉ s.grey

variable {b : SccBuilder ι} {s : PathSearch (Option ι)}

/-- The position and the stack are in no table. -/
theorem Matches.move (h : Matches b s) (base : Option ι) (reason : Option (Reason ι))
    (stack : List (Option ι × Option (Reason ι))) :
    Matches { b with base := base, reason := reason, stack := stack } s where
  seen := h.seen
  roots := h.roots
  numbered := h.numbered
  bounded := h.bounded
  decreasing := h.decreasing
  count := h.count
  numbers := h.numbers
  members := h.members
  black := h.black

/-- Nor are the edges still to look at. -/
theorem Matches.look (h : Matches b s) {path : List (Option ι × List (Option ι))}
    (hpath : path.map Prod.fst = s.grey) : Matches b { s with path := path } where
  seen := h.seen
  roots := h.roots
  numbered := h.numbered
  bounded := h.bounded
  decreasing := h.decreasing
  count := h.count
  numbers := h.numbers
  members := h.members
  black v := by
    rw [h.black v, ← hpath]
    rfl

theorem matches_start (t : ι) : Matches (SccBuilder.start t) ⟨[], [], []⟩ where
  seen := rfl
  roots := rfl
  numbered v := by simp [SccBuilder.start, PathSearch.Visited]
  bounded v n h := by simp [SccBuilder.start] at h
  decreasing := .nil
  count := rfl
  numbers v := rfl
  members := rfl
  black v := by simp [SccBuilder.start, EdgeIterator.start, PathSearch.Visited]

/-- **A new type gets a greater number** than all others, and a block of its own. -/
theorem Matches.number (h : Matches b s) (hnew : ¬s.Visited b.base)
    (successors : List (Option ι)) : Matches b.number (s.visit b.base successors) := by
  have hfind : ∀ v, b.number.preorderNumbers.find (offsetKey v) =
      if v = b.base then some b.seenCount else b.preorderNumbers.find (offsetKey v) := fun v =>
    find_insertNew ((h.numbered b.base).2 hnew)
  have hvisited : ∀ v, (s.visit b.base successors).Visited v ↔ v = b.base ∨ s.Visited v := by
    intro v
    simp [PathSearch.Visited, PathSearch.visit, or_assoc]
  have hnumber : ∀ v, s.Visited v →
      numberOf b.number.preorderNumbers v = numberOf b.preorderNumbers v := by
    intro v hv
    have hne : v ≠ b.base := fun heq => hnew (heq ▸ hv)
    rw [numberOf, hfind, if_neg hne]
    rfl
  have hless : ∀ v, s.Visited v → numberOf b.preorderNumbers v < b.seenCount := by
    intro v hv
    obtain ⟨n, hn⟩ := Option.ne_none_iff_exists'.1 (mt (h.numbered v).1 (not_not.2 hv))
    rw [numberOf, hn]
    exact h.bounded v n hn
  constructor
  case seen => exact congrArg (b.base :: ·) h.seen
  case roots => exact congrArg (b.base :: ·) h.roots
  case numbered =>
    intro v
    rw [hfind, hvisited, not_or, ← h.numbered v]
    split_ifs with hv <;> simp [hv]
  case bounded =>
    intro v n hn
    rw [hfind] at hn
    show n < b.seenCount + 1
    split_ifs at hn with hv
    · obtain rfl := Option.some.inj hn
      exact Nat.lt_succ_self _
    · exact (h.bounded v n hn).trans (Nat.lt_succ_self _)
  case decreasing =>
    refine List.pairwise_cons.2 ⟨fun v hv => ?_, h.decreasing.imp_of_mem fun {x y} hx hy hlt => ?_⟩
    · have hbase : numberOf b.number.preorderNumbers b.base = b.seenCount := by
        rw [numberOf, hfind, if_pos rfl]
        rfl
      rw [hbase, hnumber v (.inl hv)]
      exact hless v (.inl hv)
    · rwa [hnumber x (.inl hx), hnumber y (.inl hy)]
  case count => exact h.count
  case numbers => exact h.numbers
  case members => exact h.members
  case black =>
    intro v
    show v ∈ b.black ↔ _ ∧ v ∉ b.base :: s.grey
    rw [h.black v, hvisited, List.mem_cons, not_or]
    constructor
    · rintro ⟨hv, hgrey⟩
      exact ⟨.inr hv, fun heq => hnew (heq ▸ hv), hgrey⟩
    · rintro ⟨hv, hne, hgrey⟩
      exact ⟨hv.resolve_left hne, hgrey⟩

/-- **An edge back** to a type without a component merges blocks. -/
theorem Matches.contract (h : Matches b s) (hblocks : ∀ c ∈ s.blocks, c ≠ []) {v : Option ι}
    (hv : v ∈ s.blocks.flatten) (hnot : v ∉ s.components.flatten) :
    ∃ roots, b.contract v = .ok { b with perhapsSameScc := roots } ∧
      Matches { b with perhapsSameScc := roots }
        { s with blocks := PathSearch.mergeTo v s.blocks } := by
  obtain ⟨n, hn⟩ := Option.ne_none_iff_exists'.1 (mt (h.numbered v).1 (not_not.2 (.inl hv)))
  have hnumber : numberOf b.preorderNumbers v = n := by
    rw [numberOf, hn]
    rfl
  have hpop := popGreater_roots h.decreasing hblocks hv
  have hflatten := PathSearch.flatten_mergeTo hv
  refine ⟨_, ?_, { h with seen := ?_, roots := rfl, numbered := ?_, decreasing := ?_, black := ?_ }⟩
  · rw [SccBuilder.contract, h.numbers v, componentOf_eq_none_iff.2 hnot]
    dsimp only
    rw [hn]
    dsimp only
    rw [h.roots, ← hnumber, hpop]
    rfl
  · exact h.seen.trans hflatten.symm
  · intro v
    rw [h.numbered v, PathSearch.Visited, PathSearch.Visited, hflatten]
  · show (PathSearch.mergeTo v s.blocks).flatten.Pairwise _
    rw [hflatten]
    exact h.decreasing
  · intro v
    rw [h.black v, PathSearch.Visited, PathSearch.Visited, hflatten]
    rfl

/-- An edge to a type with a component changes nothing. -/
theorem Matches.contract_done (h : Matches b s) {v : Option ι} (hv : v ∈ s.components.flatten) :
    b.contract v = .ok b := by
  obtain ⟨c, hc⟩ := Option.ne_none_iff_exists'.1 (mt componentOf_eq_none_iff.1 (not_not.2 hv))
  rw [SccBuilder.contract, h.numbers v, hc]

variable {E : Option ι → Option ι → Prop} {start : Option ι}
  {rest : List (Option ι × List (Option ι))}

/-- **A type is left**, with its component if it is the first of a block. -/
theorem Matches.blacken (h : Matches b s) (hinv : PathSearch.Inv E start s)
    (hpath : s.path = (b.base, []) :: rest) :
    ∃ b', b.blacken = .ok b' ∧ Matches b' (s.leave b.base) ∧ b'.base = b.base ∧
      b'.reason = b.reason ∧ b'.stack = b.stack ∧ b.base ∈ b'.black := by
  obtain ⟨block, bs, hblocks, hmem⟩ := hinv.top hpath
  obtain ⟨r, hr, -⟩ := hinv.root block (by rw [hblocks]; exact List.mem_cons_self)
  have hroots : b.perhapsSameScc = r :: bs.filterMap List.getLast? := by
    rw [h.roots, hblocks, List.filterMap_cons_some hr]
  have hseen : b.seenButNotAssigned = block ++ bs.flatten := by rw [h.seen, hblocks]; rfl
  have hgrey : s.grey = b.base :: rest.map Prod.fst := by
    rw [PathSearch.grey, hpath]
    rfl
  have hnodup := hinv.nodup
  rw [hblocks, List.flatten_cons, List.append_assoc] at hnodup
  have hbase : b.base ∉ rest.map Prod.fst := by
    have hgreynodup : s.grey.Nodup := hinv.grey.nodup (List.nodup_append.1 hinv.nodup).1
    rw [hgrey] at hgreynodup
    exact (List.nodup_cons.1 hgreynodup).1
  -- What is black afterwards has been come to and is not on the path any more.
  have hblack : ∀ {s' : PathSearch (Option ι)}, (∀ v, s'.Visited v ↔ s.Visited v) →
      s'.grey = rest.map Prod.fst →
      ∀ v, v ∈ b.base :: b.black ↔ s'.Visited v ∧ v ∉ s'.grey := by
    intro s' hvisited hgrey' v
    rw [List.mem_cons, h.black v, hvisited v, hgrey', hgrey, List.mem_cons, not_or]
    constructor
    · rintro (rfl | ⟨hv, -, hrest⟩)
      · exact ⟨.inl (by rw [hblocks]; exact List.mem_append_left _ hmem), hbase⟩
      · exact ⟨hv, hrest⟩
    · rintro ⟨hv, hrest⟩
      by_cases heq : v = b.base
      · exact .inl heq
      · exact .inr ⟨hv, heq, hrest⟩
  rw [PathSearch.leave_eq hpath hblocks, hr]
  by_cases hroot : r = b.base
  · subst hroot
    have hpop := blacken_root hroots hseen hr (List.nodup_append.1 hnodup).1
    have hnone : ∀ v ∈ block, b.componentNumbers.find (offsetKey v) = none := by
      intro v hv
      rw [h.numbers v, componentOf_eq_none_iff]
      exact fun hc => (List.nodup_append'.1 hnodup).2.2 hv (List.mem_append_right _ hc)
    have hvisited : ∀ v, PathSearch.Visited ⟨rest, bs, block :: s.components⟩ v ↔ s.Visited v := by
      intro v
      rw [PathSearch.Visited, PathSearch.Visited, hblocks, List.flatten_cons, List.flatten_cons,
        List.mem_append, List.mem_append]
      tauto
    rw [if_pos rfl]
    refine ⟨_, hpop, ?_, rfl, rfl, rfl, List.mem_cons_self⟩
    constructor
    case seen => rfl
    case roots => rfl
    case numbered =>
      intro v
      rw [hvisited v]
      exact h.numbered v
    case bounded => exact h.bounded
    case decreasing =>
      have hdecreasing := h.decreasing
      rw [hblocks, List.flatten_cons, List.pairwise_append] at hdecreasing
      exact hdecreasing.2.1
    case count => exact congrArg (· + 1) h.count
    case numbers =>
      intro v
      rw [componentOf, ← h.count]
      refine (find_foldl_insertNew hnone (List.nodup_append.1 hnodup).1 v).trans ?_
      rw [h.numbers v]
    case members =>
      rw [memberEntries, ← h.members, ← h.count]
    case black => exact hblack hvisited rfl
  · have hne : ¬some r = some b.base := fun heq => hroot (Option.some.inj heq)
    rw [if_neg hne]
    refine ⟨_, blacken_inner hroots hroot, ?_, rfl, rfl, rfl, List.mem_cons_self⟩
    exact { h with black := hblack (fun v => Iff.rfl) rfl }

end Matches

section Walk

variable {g : TypeGraph ι} {cached : ι → Bool} {start : Option ι}

theorem OnPath.grey {reason : Option (Reason ι)} {stack path} (h : OnPath g cached reason stack path) :
    stack.map Prod.fst = path.map Prod.fst := by
  induction h with
  | start => rfl
  | edge _ _ ih => rw [List.map_cons, List.map_cons, ih]

/-- The edges after one with a given reason are those from the next one on. -/
theorem ReasonOf.exists_next {u : ι} {r : Reason ι} (h : ReasonOf g u r) :
    ∃ o, nextOutgoingEdgeTarget g (some r) = .ok o ∧ laterEdges g r = edgesFrom g o ∧
      ∀ e, o = some e → ReasonOf g u e.reason := by
  obtain ⟨-, o, hnext, hlater⟩ := h.answers
  refine ⟨o, hnext, hlater, ?_⟩
  rintro e rfl
  exact reasonOf_laterEdges h (by rw [hlater]; exact List.mem_cons_self)

variable [LinearOrder ι]

variable (g cached start) in
/-- The search is at the edges of a type, from a certain one on. -/
structure Following (b : SccBuilder ι) (o : Option (OutgoingEdge ι))
    (s : PathSearch (Option ι)) : Prop where
  tables : Matches b s
  inv : PathSearch.Inv (FreshEdge g cached) start s
  goes : b.atEnd = false
  position : ∃ rest path, b.stack = (b.base, b.reason) :: rest ∧
    s.path = (b.base, freshTargets cached (edgesFrom g o)) :: path ∧ OnPath g cached b.reason rest path
  edge : ∀ e, o = some e → ∃ u, b.base = some u ∧ ReasonOf g u e.reason

variable (g cached start) in
/-- It is at a type it has not been at, which `s` has visited. -/
structure White (b : SccBuilder ι) (s : PathSearch (Option ι)) : Prop where
  inv : PathSearch.Inv (FreshEdge g cached) start s
  visited : s.Visited b.base
  white : colourOf b.stack b.black b.base = .white
  goes : b.atEnd = false
  short : b.stack.length + 1 = s.path.length
  enters : ∀ first, firstOutgoingEdgeTarget g b.base = .ok first →
    Following g cached start b.number first s

variable (g cached start) in
/-- It is at a type it has left, which `s` has taken off the path. -/
structure Black (b : SccBuilder ι) (s : PathSearch (Option ι)) : Prop where
  tables : Matches b s
  inv : PathSearch.Inv (FreshEdge g cached) start s
  black : b.base ∈ b.black
  goes : b.atEnd = false
  position : ∃ rest, b.stack = (b.base, b.reason) :: rest ∧ OnPath g cached b.reason rest s.path

variable {b : SccBuilder ι} {o : Option (OutgoingEdge ι)} {s : PathSearch (Option ι)}

/-- White are the types that the search has not come to. -/
theorem Following.colourOf_eq_white_iff (h : Following g cached start b o s) (v : Option ι) :
    colourOf b.stack b.black v = .white ↔ ¬s.Visited v := by
  obtain ⟨rest, path, hstack, hpath, hon⟩ := h.position
  have hgrey : b.stack.map Prod.fst = s.grey := by
    rw [PathSearch.grey, hstack, hpath, List.map_cons, List.map_cons, hon.grey]
  rw [colourOf_eq_white, hgrey, h.tables.black v, not_iff_not]
  constructor
  · rintro (⟨hv, -⟩ | hv)
    · exact hv
    · exact .inl (h.inv.grey.subset hv)
  · intro hv
    by_cases hmem : v ∈ s.grey
    · exact .inr hmem
    · exact .inl ⟨hv, hmem⟩

/-- An edge looked at, and what is looked at next. -/
theorem Following.split {e : OutgoingEdge ι} (h : Following g cached start b (some e) s) :
    ∃ u o' rest path, b.base = some u ∧ ReasonOf g u e.reason ∧
      edgesFrom g (some e) = e :: edgesFrom g o' ∧
      laterEdges g e.reason = edgesFrom g o' ∧
      (∀ e', o' = some e' → ∃ u, b.base = some u ∧ ReasonOf g u e'.reason) ∧
      b.stack = (b.base, b.reason) :: rest ∧ OnPath g cached b.reason rest path ∧
      s.path = (b.base, freshTargets cached (e :: edgesFrom g o')) :: path := by
  obtain ⟨u, hbase, hreason⟩ := h.edge e rfl
  obtain ⟨o', -, hlater, hof⟩ := hreason.exists_next
  obtain ⟨rest, path, hstack, hpath, hon⟩ := h.position
  have hedges : edgesFrom g (some e) = e :: edgesFrom g o' := by rw [edgesFrom, hlater]
  exact ⟨u, o', rest, path, hbase, hreason, hedges, hlater, fun e' he' => ⟨u, hbase, hof e' he'⟩,
    hstack, hon, hedges ▸ hpath⟩

/-- **The search comes to a type.** -/
theorem Following.enter {e : OutgoingEdge ι} (h : Following g cached start b (some e) s)
    (hfresh : e.target.any cached = false) (hnew : ¬s.Visited e.target) :
    ∃ s', White g cached start { b with base := e.target, reason := some e.reason } s' ∧
      s'.vertices = e.target :: s.vertices := by
  obtain ⟨u, o', rest, path, hbase, hreason, -, hlater, -, hstack, hon, hpath⟩ := h.split
  have hpath' : s.path = (b.base, e.target :: freshTargets cached (edgesFrom g o')) :: path := by
    rw [hpath, freshTargets, List.filter_cons_of_pos (by simp [hfresh]), List.map_cons]
    rfl
  have hgrey : ((b.base, freshTargets cached (edgesFrom g o')) :: path).map Prod.fst = s.grey := by
    rw [PathSearch.grey, hpath']
    rfl
  have hinv := h.inv.visit hpath' hnew
    (fun w => (Iff.rfl : w ∈ freshTargets cached (edgesOf g e.target) ↔ FreshEdge g cached e.target w))
  refine ⟨_, ⟨hinv, .inl List.mem_cons_self, (h.colourOf_eq_white_iff e.target).2 hnew,
    Bool.and_false _, ?_, fun first hfirst => ?_⟩, ?_⟩
  · have hlength := congrArg List.length hon.grey
    rw [List.length_map, List.length_map] at hlength
    simp [PathSearch.visit, hstack, hlength]
  · refine ⟨?_, hinv, ?_, ⟨b.stack, (b.base, freshTargets cached (edgesFrom g o')) :: path, rfl,
      ?_, ?_⟩, ?_⟩
    · exact ((h.tables.look hgrey).move e.target (some e.reason) b.stack).number hnew _
    · exact Bool.and_false _
    · rw [← edgesOf_eq hfirst]
      rfl
    · rw [hstack, hbase, ← hlater]
      exact .edge hreason hon
    · rintro e' rfl
      change firstOutgoingEdgeTarget g e.target = _ at hfirst
      cases htarget : e.target with
      | none => cases htarget ▸ hfirst
      | some v => exact ⟨v, rfl, reasonOf_first (htarget ▸ hfirst)⟩
  · rfl

/-- **An edge to a type with an answer** is not followed. -/
theorem Following.cut {e : OutgoingEdge ι} (h : Following g cached start b (some e) s)
    (hcached : e.target.any cached = true) :
    ∃ o', edgesFrom g (some e) = e :: edgesFrom g o' ∧ Following g cached start b o' s := by
  obtain ⟨u, o', rest, path, -, -, hedges, -, hedge, hstack, hon, hpath⟩ := h.split
  refine ⟨o', hedges, h.tables, h.inv, h.goes, ⟨rest, path, hstack, ?_, hon⟩, hedge⟩
  rw [hpath, freshTargets, freshTargets, List.filter_cons_of_neg (by simp [hcached])]

/-- **An edge back** to a type the search has come to. -/
theorem Following.back {e : OutgoingEdge ι} (h : Following g cached start b (some e) s)
    (hfresh : e.target.any cached = false) (hold : s.Visited e.target) :
    ∃ o' b' s', edgesFrom g (some e) = e :: edgesFrom g o' ∧ b.contract e.target = .ok b' ∧
      Following g cached start b' o' s' ∧ s'.vertices = s.vertices ∧ b'.stack = b.stack := by
  obtain ⟨u, o', rest, path, -, -, hedges, -, hedge, hstack, hon, hpath⟩ := h.split
  have hpath' : s.path = (b.base, e.target :: freshTargets cached (edgesFrom g o')) :: path := by
    rw [hpath, freshTargets, List.filter_cons_of_pos (by simp [hfresh]), List.map_cons]
    rfl
  have hgrey : ((b.base, freshTargets cached (edgesFrom g o')) :: path).map Prod.fst = s.grey := by
    rw [PathSearch.grey, hpath']
    rfl
  by_cases hdone : e.target ∈ s.components.flatten
  · exact ⟨o', b, _, hedges, h.tables.contract_done hdone, ⟨h.tables.look hgrey,
      h.inv.skip hpath' hdone, h.goes, ⟨rest, path, hstack, rfl, hon⟩, hedge⟩, rfl, rfl⟩
  · have hblock := hold.resolve_right hdone
    have hne : ∀ c ∈ s.blocks, c ≠ [] := by
      rintro c hc rfl
      obtain ⟨r, hr, -⟩ := h.inv.root [] hc
      cases hr
    obtain ⟨roots, hcontract, htables⟩ := (h.tables.look hgrey).contract hne hblock hdone
    refine ⟨o', _, _, hedges, hcontract, ⟨htables, h.inv.merge hpath' hblock, h.goes,
      ⟨rest, path, hstack, rfl, hon⟩, hedge⟩, ?_, rfl⟩
    rw [PathSearch.vertices, PathSearch.vertices, PathSearch.flatten_mergeTo hblock]

/-- **The loop over the edges**: the search comes to a type, or it leaves the one it is at. -/
theorem Following.follow (h : Following g cached start b o s) :
    (∃ b' s', SccBuilder.followEdges cached (edgesFrom g o) b = .ok (b', true) ∧
      White g cached start b' s' ∧ s'.vertices.Perm (b'.base :: s.vertices)) ∨
    ∃ b' s', SccBuilder.followEdges cached (edgesFrom g o) b = .ok (b', false) ∧
      Black g cached start b' s' ∧ s'.vertices.Perm s.vertices ∧ b'.stack = b.stack := by
  generalize hes : edgesFrom g o = es
  induction es generalizing o b s with
  | nil =>
    obtain ⟨rest, path, hstack, hpath, hon⟩ := h.position
    rw [hes] at hpath
    obtain ⟨b', hblacken, htables, hbase, hreason, hstack', hblack⟩ := h.tables.blacken h.inv hpath
    have hleave : (s.leave b.base).path = path := by
      obtain ⟨block, bs, hblocks, -⟩ := h.inv.top hpath
      rw [PathSearch.leave_eq hpath hblocks]
      split_ifs <;> rfl
    refine .inr ⟨b', _, ?_, ⟨htables, h.inv.leave hpath, hbase ▸ hblack, ?_, rest, ?_, ?_⟩,
      h.inv.vertices_leave hpath, hstack'⟩
    · rw [SccBuilder.followEdges, hblacken]
      rfl
    · rw [EdgeIterator.atEnd, hbase, hreason]
      exact h.goes
    · rw [hstack', hstack, hbase, hreason]
    · rw [hreason, hleave]
      exact hon
  | cons e es ih =>
    obtain rfl : o = some e := by
      cases o with
      | none => cases hes
      | some e' => rw [(List.cons.inj hes).1]
    rw [SccBuilder.followEdges]
    by_cases hcached : e.target.any cached = true
    · obtain ⟨o', hedges, h'⟩ := h.cut hcached
      rw [if_pos hcached]
      exact ih h' (List.cons.inj (hedges.symm.trans hes)).2
    · have hfresh := eq_false_of_ne_true hcached
      rw [if_neg hcached]
      by_cases hnew : s.Visited e.target
      · obtain ⟨o', b', s', hedges, hcontract, h', hvertices, hstack⟩ := h.back hfresh hnew
        have hcolour : colourOf b.stack b.black e.target ≠ .white :=
          fun hw => (h.colourOf_eq_white_iff e.target).1 hw hnew
        have hrest := ih h' (List.cons.inj (hedges.symm.trans hes)).2
        rw [hvertices, hstack] at hrest
        cases hc : colourOf b.stack b.black e.target with
        | white => exact absurd hc hcolour
        | grey | black =>
          dsimp only
          rw [hcontract]
          exact hrest
      · obtain ⟨s', hwhite, hvertices⟩ := h.enter hfresh hnew
        rw [(h.colourOf_eq_white_iff e.target).2 hnew]
        exact .inl ⟨_, s', rfl, hwhite, .of_eq hvertices⟩

variable (g cached start) in
/-- The search is over. -/
structure Done (b : SccBuilder ι) (s : PathSearch (Option ι)) : Prop where
  tables : Matches b s
  inv : PathSearch.Inv (FreshEdge g cached) start s
  path : s.path = []
  ends : b.atEnd = true

variable (g cached start) in
/-- What an increment leads to, when the search has come to `vertices`: another type, or the end. -/
def Comes (vertices : List (Option ι)) (b : SccBuilder ι) : Prop :=
  (∃ s, White g cached start b s ∧ s.vertices.Perm (b.base :: vertices)) ∨
    ∃ s, Done g cached start b s ∧ s.vertices.Perm vertices

theorem Comes.perm {vertices vertices' : List (Option ι)} (h : Comes g cached start vertices' b)
    (hperm : vertices'.Perm vertices) : Comes g cached start vertices b := by
  rcases h with ⟨s, hwhite, hvertices⟩ | ⟨s, hdone, hvertices⟩
  · exact .inl ⟨s, hwhite, hvertices.trans (hperm.cons _)⟩
  · exact .inr ⟨s, hdone, hvertices.trans hperm⟩

/-- **From a type it has left**, the search goes back along the path to one that has an edge to a
new type. -/
theorem Black.increment (h : Black g cached start b s) {fuel : ℕ} (hfuel : b.stack.length ≤ fuel) :
    ∃ b', SccBuilder.increment g cached fuel b = .ok b' ∧ Comes g cached start s.vertices b' := by
  induction fuel generalizing b s with
  | zero =>
    obtain ⟨rest, hstack, -⟩ := h.position
    rw [hstack] at hfuel
    exact absurd hfuel (Nat.not_succ_le_zero _)
  | succ fuel ih =>
    obtain ⟨rest, hstack, hon⟩ := h.position
    have hcolour : colourOf b.stack b.black b.base = .black := if_pos h.black
    have hnot : ¬(b.atEnd = true ∨ (b.stack = [] ∧ Colour.black ≠ .white)) := by
      simp [h.goes, hstack]
    rw [SccBuilder.increment]
    simp only [hcolour]
    rw [if_neg hnot]
    split
    · next heq => exact nomatch hstack.symm.trans heq
    · next top rest' heq =>
      obtain ⟨rfl, rfl⟩ := List.cons.inj (hstack.symm.trans heq)
      dsimp only
      generalize hreason : b.reason = reason at hon
      generalize hpath : s.path = path at hon
      cases hon with
      | start =>
        exact ⟨SccBuilder.hitEnd { b with stack := [] }, rfl,
          .inr ⟨s, ⟨h.tables.move _ _ _, h.inv, hpath, rfl⟩, .refl _⟩⟩
      | @edge r u reason stack path hr hrest =>
        obtain ⟨o, hnext, hlater, hof⟩ := hr.exists_next
        have hfollowing : Following g cached start
            { b with base := some u, reason := reason, stack := (some u, reason) :: stack } o s :=
          ⟨h.tables.move _ _ _, h.inv, rfl, ⟨stack, path, rfl, hlater ▸ hpath, hrest⟩,
            fun e he => ⟨u, rfl, hof e he⟩⟩
        rw [hnext]
        simp only [ok_bind]
        rcases hfollowing.follow with ⟨b', s', hfollow, hwhite, hvertices⟩ |
          ⟨b', s', hfollow, hblack, hvertices, hstack'⟩
        · rw [hfollow]
          exact ⟨b', rfl, .inl ⟨s', hwhite, hvertices⟩⟩
        · rw [hfollow]
          have hlength : b'.stack.length ≤ fuel := by
            rw [hstack']
            rw [hstack] at hfuel
            exact Nat.le_of_succ_le_succ hfuel
          obtain ⟨b'', hrun, hcomes⟩ := ih hblack hlength
          exact ⟨b'', hrun, hcomes.perm hvertices⟩

/-- A white type is grey when it is on the stack. -/
theorem White.colourOf_number (h : White g cached start b s) :
    colourOf b.number.stack b.number.black b.number.base = .grey := by
  have hblack : b.base ∉ b.black := fun hb => colourOf_eq_white.1 h.white (.inl hb)
  show (if b.base ∈ b.black then Colour.black else _) = _
  rw [if_neg hblack]
  exact if_pos List.mem_cons_self

/-- **From a new type**, the search goes along its edges. -/
theorem White.increment (h : White g cached start b s) (hfirst : HasFirstEdge g b.base) {fuel : ℕ}
    (hfuel : s.path.length < fuel) :
    ∃ b', SccBuilder.increment g cached fuel b = .ok b' ∧ Comes g cached start s.vertices b' := by
  obtain ⟨fuel, rfl⟩ := Nat.exists_eq_succ_of_ne_zero (Nat.ne_zero_of_lt hfuel)
  obtain ⟨first, hfirst⟩ := hasFirstEdge_iff.1 hfirst
  have hnot : ¬(b.atEnd = true ∨ (b.stack = [] ∧ Colour.white ≠ .white)) := by simp [h.goes]
  have hedges : outgoingEdges g b.number.base = .ok (edgesFrom g first) := by
    show outgoingEdges g b.base = _
    rw [outgoingEdges, hfirst]
    rfl
  rw [SccBuilder.increment]
  simp only [h.white]
  rw [if_neg hnot, assert_ok h.colourOf_number, ok_bind, hedges, ok_bind]
  rcases (h.enters first hfirst).follow with ⟨b', s', hfollow, hwhite, hvertices⟩ |
    ⟨b', s', hfollow, hblack, hvertices, hstack⟩
  · rw [hfollow]
    exact ⟨b', rfl, .inl ⟨s', hwhite, hvertices⟩⟩
  · rw [hfollow]
    have hlength : b'.stack.length ≤ fuel := by
      rw [hstack]
      show b.stack.length + 1 ≤ fuel
      have := h.short
      omega
    obtain ⟨b'', hrun, hcomes⟩ := hblack.increment hlength
    exact ⟨b'', hrun, hcomes.perm hvertices⟩

/-- An increment that succeeds has found the first edge of the type it was at. -/
theorem White.hasFirstEdge (h : White g cached start b s) {fuel : ℕ} {b' : SccBuilder ι}
    (hrun : SccBuilder.increment g cached fuel b = .ok b') : HasFirstEdge g b.base := by
  cases fuel with
  | zero => exact nomatch hrun
  | succ fuel =>
    have hnot : ¬(b.atEnd = true ∨ (b.stack = [] ∧ Colour.white ≠ .white)) := by simp [h.goes]
    rw [SccBuilder.increment] at hrun
    simp only [h.white] at hrun
    rw [if_neg hnot, assert_ok h.colourOf_number, ok_bind] at hrun
    obtain ⟨edges, hedges, -⟩ := bind_eq_ok.1 hrun
    obtain ⟨first, hfirst, -⟩ := bind_eq_ok.1 hedges
    exact hasFirstEdge_iff.2 ⟨first, hfirst⟩

/-- The search at its start. -/
theorem white_start (cached : ι → Bool) (t : ι) :
    White g cached (some t) (SccBuilder.start t)
    (PathSearch.visit ⟨[], [], []⟩ (some t) (freshTargets cached (edgesOf g (some t)))) := by
  have hinv : PathSearch.Inv (FreshEdge g cached) (some t)
      (PathSearch.visit ⟨[], [], []⟩ (some t) (freshTargets cached (edgesOf g (some t)))) :=
    PathSearch.inv_start fun w => Iff.rfl
  refine ⟨hinv, .inl List.mem_cons_self, rfl, rfl, rfl, fun first hfirst => ?_⟩
  have hnew : ¬PathSearch.Visited (⟨[], [], []⟩ : PathSearch (Option ι)) (some t) := by
    simp [PathSearch.Visited]
  refine ⟨(matches_start t).number hnew _, hinv, rfl, ⟨[], [], rfl, ?_, .start⟩, ?_⟩
  · rw [← edgesOf_eq hfirst]
    rfl
  · rintro e rfl
    exact ⟨t, rfl, reasonOf_first hfirst⟩

variable [Fintype ι]

/-- **A search ends**, if every type it comes to has its first edge found. -/
theorem White.run (h : White g cached start b s)
    (hfound : ∀ v, Relation.ReflTransGen (FreshEdge g cached) start v → HasFirstEdge g v) {fuel : ℕ}
    (hfuel : 2 * Fintype.card (Option ι) + 2 ≤ fuel + s.vertices.length) :
    ∃ b' s', SccBuilder.run g cached fuel b = .ok b' ∧ Done g cached start b' s' := by
  induction fuel generalizing b s with
  | zero =>
    have := h.inv.length_vertices_le
    omega
  | succ fuel ih =>
    have hcard := h.inv.length_vertices_le
    have hpath := h.inv.length_path_le
    obtain ⟨b', hstep, hcomes⟩ := h.increment (hfound _ (h.inv.reach _ h.visited))
      (show s.path.length < fuel by omega)
    rw [SccBuilder.run, h.goes]
    simp only [Bool.false_eq_true, if_false, hstep, ok_bind]
    rcases hcomes with ⟨s', hwhite, hvertices⟩ | ⟨s', hdone, -⟩
    · have hlength := hvertices.length_eq
      rw [List.length_cons] at hlength
      exact ih hwhite (by omega)
    · obtain ⟨k, rfl⟩ := Nat.exists_eq_succ_of_ne_zero (show fuel ≠ 0 by omega)
      refine ⟨b', s', ?_, hdone⟩
      rw [SccBuilder.run, if_pos hdone.ends]

omit [Fintype ι] in
/-- A search does not turn back from its end. -/
theorem Done.run (h : Done g cached start b s) {fuel : ℕ} {b' : SccBuilder ι}
    (hrun : SccBuilder.run g cached fuel b = .ok b') : b' = b := by
  cases fuel with
  | zero => exact nomatch hrun
  | succ fuel =>
    rw [SccBuilder.run, if_pos h.ends] at hrun
    exact (Except.ok.inj hrun).symm

/-- **A search that ended** has found the first edge of every type it came to. -/
theorem White.of_run (h : White g cached start b s)
    (hentered : ∀ v, s.Visited v → v = b.base ∨ HasFirstEdge g v) {fuel : ℕ}
    (hfuel : 2 * Fintype.card (Option ι) + 2 ≤ fuel + s.vertices.length) {b' : SccBuilder ι}
    (hrun : SccBuilder.run g cached fuel b = .ok b') :
    ∀ v, Relation.ReflTransGen (FreshEdge g cached) start v → HasFirstEdge g v := by
  induction fuel generalizing b s with
  | zero => exact nomatch hrun
  | succ fuel ih =>
    have hcard := h.inv.length_vertices_le
    have hpath := h.inv.length_path_le
    rw [SccBuilder.run, h.goes] at hrun
    obtain ⟨b₁, hstep, hrun⟩ := bind_eq_ok.1 hrun
    have hfirst := h.hasFirstEdge hstep
    have hall : ∀ v, s.Visited v → HasFirstEdge g v := by
      intro v hv
      rcases hentered v hv with rfl | hv
      · exact hfirst
      · exact hv
    obtain ⟨b₂, hstep', hcomes⟩ := h.increment hfirst (show s.path.length < fuel by omega)
    obtain rfl := Except.ok.inj (hstep.symm.trans hstep')
    rcases hcomes with ⟨s', hwhite, hvertices⟩ | ⟨s', hdone, hvertices⟩
    · have hlength := hvertices.length_eq
      rw [List.length_cons] at hlength
      refine ih hwhite (fun v hv => ?_) (by omega) hrun
      rw [PathSearch.visited_iff, hvertices.mem_iff, List.mem_cons, ← PathSearch.visited_iff] at hv
      exact hv.imp_right (hall v)
    · intro v hv
      refine hall v ?_
      rw [PathSearch.visited_iff, ← hvertices.mem_iff, ← PathSearch.visited_iff]
      exact .inr ((hdone.inv.mem_components_iff hdone.path).2 hv)

end Walk

end Types
end Dwarfpp
