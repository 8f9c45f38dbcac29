/-
# Visible names of grandchildren

`find_visible_grandchild_named` and `find_all_visible_grandchildren_named` of `src/root.cpp` look
for the DIEs below the units of a root that show a name (`resolve_all_visible_from_root` of
`include/dwarfpp/root-inl.hpp`).  They answer with those in the cache first, and go on to sweep
the grandchildren unless the cache is said to be complete.  The predicate of the sweep,
`is_visible_and_named`, enters each DIE it holds of in the cache, and at the last
grandchild says that the cache is complete.

The grandchildren are a concatenation of sequences of siblings: a position is the
iterator and the beginnings of the sequences still to come.
-/

import Dwarfpp.Dies.Names
import Dwarfpp.Dies.Topology

namespace Dwarfpp
namespace Dies

open Lib
open Lib.Preorder hiding firstChild nextSibling

/-- The iterators of libsrk31c++ that the grandchildren are visited with, and what the code relies on:
`concatenating_iterator` goes to the next sibling or to the sequence after, and knows when it
is past the last; `selective_iterator` goes to the first position that the predicate holds of, asking
it once about each. -/
structure Srk31 (fuel : ℕ) where
  increment : List Iterator → RootM (List Iterator)
  doneCompletePass : List Iterator → Bool
  select : (List Iterator → RootM Bool) → ℕ → List Iterator → RootM (List Iterator)
  increment_cons : ∀ it queue, increment (it :: queue) = do
    match ← moveToNextSibling (withDepth fuel) it with
    | some sibling => return sibling :: queue
    | none => return queue
  doneCompletePass_iff : ∀ s, doneCompletePass s = true ↔ s = []
  select_nil : ∀ pred n, select pred (n + 1) [] = return []
  select_cons : ∀ pred n it queue, select pred (n + 1) (it :: queue) = do
    if ← pred (it :: queue) then return it :: queue
    else
      let next ← increment (it :: queue)
      select pred n next

/-- An increment as it is described. -/
def nextInSequence (fuel : ℕ) : List Iterator → RootM (List Iterator)
  | [] => throw .undefinedBehaviour
  | it :: queue => do
    match ← moveToNextSibling (withDepth fuel) it with
    | some sibling => return sibling :: queue
    | none => return queue

/-- A selection as it is described. -/
def firstSelected (fuel : ℕ) (pred : List Iterator → RootM Bool) :
    ℕ → List Iterator → RootM (List Iterator)
  | 0, _ => throw .outOfSteps
  | _ + 1, [] => return []
  | n + 1, it :: queue => do
    if ← pred (it :: queue) then return it :: queue
    else
      let next ← nextInSequence fuel (it :: queue)
      firstSelected fuel pred n next

/-- Iterators as they are described. -/
def Srk31.described (fuel : ℕ) : Srk31 fuel where
  increment := nextInSequence fuel
  doneCompletePass := List.isEmpty
  select := firstSelected fuel
  increment_cons _ _ := rfl
  doneCompletePass_iff _ := List.isEmpty_iff
  select_nil _ _ := rfl
  select_cons _ _ _ _ := rfl

section Model

variable (fuel : ℕ)

/-- The beginnings of the sequences of siblings, from the unit `cu` on. -/
def grandchildrenFrom : ℕ → Option Iterator → RootM (List Iterator)
  | 0, _ => throw .outOfSteps
  | _ + 1, none => return []
  | n + 1, some cu => do
    let first ← firstChild cu
    let next ← nextUnit fuel cu
    let rest ← grandchildrenFrom n next
    return first.toList ++ rest

/-- `grandchildren()`. -/
def grandchildren : RootM (List Iterator) := do
  let child ← firstChild Root.begin
  let unit ← skipToUnit fuel fuel child
  grandchildrenFrom fuel fuel unit

variable (srk : Srk31 fuel)

/-- What `is_visible_and_named` does about the last grandchild. -/
def markIfDone (next : List Iterator) : RootM Unit :=
  if srk.doneCompletePass next then
    modify fun r => { r with tables := { r.tables with
      visibleNamedGrandchildrenIsComplete := true } }
  else return ()

/-- `is_visible_and_named`. -/
def isVisibleAndNamed : List Iterator → RootM Bool
  | [] => throw .undefinedBehaviour
  | it :: queue => do
    let name ← globalNameHere it.offset
    enterUnder name it.offset
    let next ← srk.increment (it :: queue)
    markIfDone fuel srk next
    return name.isSome

/-- `max != 0 && results.size() >= max`. -/
def enough (max : ℕ) (results : List Iterator) : Bool := max ≠ 0 ∧ max ≤ results.length

/-- The results from the cache. -/
def resolveCached (max : ℕ) : List ℕ → List Iterator → RootM (List Iterator)
  | [], results => return results
  | off :: offs, results => do
    let it ← pos off (some 2) none none
    if enough max (results ++ [it]) then return results ++ [it]
    else resolveCached max offs (results ++ [it])

/-- The loop over `visible_named_grandchildren()`.  A DIE that was hit in the cache is skipped. -/
def resolveSwept (name : String) (hitInCache : List ℕ) (max : ℕ) :
    ℕ → List Iterator → List Iterator → RootM (List Iterator)
  | 0, _, _ => throw .outOfSteps
  | _ + 1, [], results => return results
  | n + 1, it :: queue, results => do
    let r ← get
    let found := nameOf r.tables.attrs it.offset = some name ∧ it.offset ∉ hitInCache
    let results := if found then results ++ [it] else results
    if found ∧ enough max results then return results
    else
      let next ← srk.increment (it :: queue)
      let next ← srk.select (isVisibleAndNamed fuel srk) fuel next
      resolveSwept name hitInCache max n next results

/-- The sweep, unless the cache is complete. -/
def resolveUncached (name : String) (hitInCache : List ℕ) (max : ℕ) (results : List Iterator) :
    RootM (List Iterator) := do
  let r ← get
  if r.tables.visibleNamedGrandchildrenIsComplete then return results
  else
    let start ← grandchildren fuel
    let start ← srk.select (isVisibleAndNamed fuel srk) fuel start
    resolveSwept fuel srk name hitInCache max fuel start results

/-- The DIEs that the cache has under a name. -/
def Tables.cached (tables : Tables) (name : String) : List ℕ :=
  (tables.visibleNamedGrandchildrenCache.filter fun e => e.1 = name).map Prod.snd

/-- `resolve_all_visible_from_root`, of a path with one name. -/
def resolveAllVisibleFromRoot (name : String) (max : ℕ) : RootM (List Iterator) := do
  let r ← get
  let results ← resolveCached max (r.tables.cached name) []
  if enough max results then return results
  else resolveUncached fuel srk name (r.tables.cached name) max results

/-- `find_visible_grandchild_named`. -/
def findVisibleGrandchildNamed (name : String) : RootM (Option Iterator) := do
  let found ← resolveAllVisibleFromRoot fuel srk name 1
  return found.head?

/-- `find_all_visible_grandchildren_named`. -/
def findAllVisibleGrandchildrenNamed (name : String) : RootM (List Iterator) :=
  resolveAllVisibleFromRoot fuel srk name 0

end Model

variable {t : List Node} {r : Root} {fuel : ℕ}

section Kept

/-- What a search leaves as it is, or adds to: all but the tables. -/
structure Kept (r r' : Root) : Prop where
  dbg : r'.dbg = r.dbg
  parents : ∀ c, (r.parentOf c).isSome = true → (r'.parentOf c).isSome = true

instance : Std.Refl Kept := ⟨fun _ => ⟨rfl, fun _ h => h⟩⟩

instance : IsTrans Root Kept :=
  ⟨fun _ _ _ h h' => ⟨h'.dbg.trans h.dbg, fun c hc => h'.parents c (h.parents c hc)⟩⟩

/-- From `r`, which knows `t`, the search returns and ends in a root that knows `t`. -/
abbrev Searches (t : List Node) {α : Type} (x : RootM α) (r : Root) (post : α → Root → Prop) : Prop :=
  StateReturns (Consistent t) Kept x r post

/-- Moving about the tree leaves the tables. -/
theorem searches_of_reaches {α : Type} {x : RootM α} {post : α → Root → Prop}
    (h : Reaches t x r post) :
    Searches t x r fun a r' => post a r' ∧ r'.tables = r.tables := by
  obtain ⟨a, r', hrun, hr', hmoved, hpost⟩ := h
  exact ⟨a, r', hrun, hr', ⟨hmoved.dbg, hmoved.parents⟩, hpost, hmoved.tables⟩

theorem ParentsKnown.kept {r' : Root} {f : List (List Node)} (h : ParentsKnown r f)
    (hkept : Kept r r') : ParentsKnown r' f :=
  fun s hs x hx h0 => hkept.parents _ (h s hs x hx h0)

end Kept

section Grandchildren

theorem skipToUnit_reaches (h : Consistent t r) {s : List Node} (hs : PlaceAt t 1 s)
    {res : Option Iterator} (hat : IsAt s res) {n : ℕ} (hn : 0 < n) :
    Reaches t (skipToUnit fuel n res) r fun res' r' => IsAt s res' ∧ r' = r := by
  obtain ⟨n, rfl⟩ := Nat.exists_eq_succ_of_ne_zero hn.ne'
  cases s with
  | nil =>
    obtain rfl : res = none := hat
    exact StateReturns.pure h ⟨rfl, rfl⟩
  | cons x l =>
    obtain ⟨it, rfl, hoff, hd⟩ := hat
    have hx := mem_of_suffix hs.1
    have hdx : x.depth = 1 := hs.2 x rfl
    have h0 : x.offset ≠ 0 := fun h0 => by
      have := (h.wellFormed.depth_eq_zero_iff hx).2 h0
      omega
    refine StateReturns.get_bind ?_
    rw [hoff, if_pos ((h.tagHere_eq_unit hx h0).2 hdx)]
    exact StateReturns.pure h ⟨⟨it, rfl, hoff, hd⟩, rfl⟩

/-- **The increment of the units** goes to the next unit. -/
theorem nextUnit_reaches (h : Consistent t r) {x : Node} {l : List Node} (hs : PlaceAt t 1 (x :: l))
    {it : Iterator} (hoff : it.offset = x.offset) (hd : it.depth = some x.depth)
    (hknown : (r.parentOf x.offset).isSome = true) (hfuel : 0 < fuel) :
    Reaches t (nextUnit fuel it) r fun res r' =>
      IsAt (Preorder.nextSibling Node.depth (x :: l)) res ∧
        ParentKnown r' (Preorder.nextSibling Node.depth (x :: l)) := by
  refine (moveToNextSibling_reaches h hs.1 leavesKnown_withDepth hoff hd fun _ => hknown).bind ?_
  rintro res r₁ hr₁ - ⟨hat, hk⟩
  refine (skipToUnit_reaches hr₁ hs.nextSibling hat hfuel).mono ?_
  rintro res' r₂ - - ⟨hat', rfl⟩
  exact ⟨hat', hk⟩

/-- The iterators are at the places of the frontier, whose parents are cached. -/
structure AtFrontier (t : List Node) (r : Root) (its : List Iterator) (f : List (List Node)) :
    Prop where
  placed : List.Forall₂ Placed its f
  places : ∀ s ∈ f, s ≠ [] ∧ s <:+ t
  known : ParentsKnown r f

theorem AtFrontier.kept {r' : Root} {its : List Iterator} {f : List (List Node)}
    (h : AtFrontier t r its f) (hkept : Kept r r') : AtFrontier t r' its f :=
  ⟨h.placed, h.places, h.known.kept hkept⟩

theorem atFrontier_places {s : List Node} {res : Option Iterator} (hat : IsAt s res)
    (hs : s <:+ t) (hknown : ParentKnown r s) :
    AtFrontier t r res.toList (Preorder.places s) := by
  refine ⟨forall₂_toList hat, fun s' hs' => ?_, parentsKnown_places hknown⟩
  obtain ⟨rfl, hne⟩ := mem_places.1 hs'
  exact ⟨hne, hs⟩

theorem AtFrontier.append {its its' : List Iterator} {f f' : List (List Node)}
    (h : AtFrontier t r its f) (h' : AtFrontier t r its' f') :
    AtFrontier t r (its ++ its') (f ++ f') :=
  ⟨List.rel_append (R := Placed) h.placed h'.placed,
    fun s hs => (List.mem_append.1 hs).elim (h.places s) (h'.places s), h.known.append h'.known⟩

/-- What is visited from a position on. -/
def visited (f : List (List Node)) : List Node := f.flatMap (siblings Node.depth)

theorem visited_places (s : List Node) :
    visited (Preorder.places s) = siblings Node.depth s := by
  cases s <;> simp [visited, Preorder.places, siblings]

/-- **The grandchildren**, from a unit on, are what is two levels down. -/
theorem grandchildrenFrom_reaches (h : Consistent t r) {s : List Node} (hs : PlaceAt t 1 s)
    {res : Option Iterator} (hat : IsAt s res) (hknown : ParentKnown r s) {n : ℕ}
    (hn : s.length < n) (hfuel : 0 < fuel) :
    Reaches t (grandchildrenFrom fuel n res) r fun its r' => ∃ f, AtFrontier t r' its f ∧
      visited f = (family Node.depth s).filter fun y => y.depth = 2 := by
  induction n generalizing r s res with
  | zero => omega
  | succ n ih =>
    cases s with
    | nil =>
      obtain rfl : res = none := hat
      exact StateReturns.pure h ⟨[], ⟨.nil, by simp, by simp [ParentsKnown]⟩, rfl⟩
    | cons x l =>
      obtain ⟨it, rfl, hoff, hd⟩ := hat
      have hdx : x.depth = 1 := hs.2 x rfl
      refine (firstChild_reaches h hs.1 hoff hd).bind ?_
      rintro child r₁ hr₁ hmoved₁ ⟨hchild, hkchild⟩
      refine (nextUnit_reaches hr₁ hs hoff hd (hmoved₁.parents _ (hknown x rfl)) hfuel).bind ?_
      rintro next r₂ hr₂ hmoved₂ ⟨hnext, hknext⟩
      have hlength : (Preorder.nextSibling Node.depth (x :: l)).length < n := by
        have hsuffix : Preorder.nextSibling Node.depth (x :: l) <:+ l := nextSibling_suffix x l
        have := hsuffix.length_le
        rw [List.length_cons] at hn
        omega
      refine (ih hr₂ hs.nextSibling hnext hknext hlength).bind ?_
      rintro its r₃ hr₃ hmoved₃ ⟨f, hf, hvisited⟩
      refine StateReturns.pure hr₃ ⟨_, (atFrontier_places hchild
        ((placeAt_firstChild hs.1).1) ((hkchild.mono hmoved₂).mono hmoved₃)).append hf, ?_⟩
      have hfilter := filter_family x l (h.wellFormed.steps.suffix hs.1)
      rw [hdx] at hfilter
      rw [hfilter, ← hvisited, ← visited_places]
      exact List.flatMap_append

theorem grandchildren_reaches (h : Consistent t r) (hfuel : EnoughFuel t fuel) :
    Reaches t (grandchildren fuel) r fun its r' => ∃ f, AtFrontier t r' its f ∧
      visited f = t.filter fun y => y.depth = 2 := by
  have hpos : 0 < fuel := (Nat.zero_le _).trans_lt hfuel.1
  obtain ⟨l, rfl, hl⟩ := h.wellFormed.rooted
  have hunits := placeAt_firstChild (t := rootNode :: l) (x := rootNode) (l := l) List.suffix_rfl
  refine (firstChild_reaches h List.suffix_rfl rfl rfl).bind ?_
  rintro child r₁ hr₁ - ⟨hat, hknown⟩
  refine (skipToUnit_reaches hr₁ hunits hat hpos).bind ?_
  rintro unit r₂ hr₂ - ⟨hat', rfl⟩
  have hlength := (hunits.1.length_le).trans_lt hfuel.1
  refine (grandchildrenFrom_reaches hr₂ hunits hat' hknown hlength hpos).mono ?_
  rintro its r₃ - - ⟨f, hf, hvisited⟩
  refine ⟨f, hf, hvisited.trans ?_⟩
  have hself := h.wellFormed.family_eq_self
  rw [family_eq, subtree_eq h.wellFormed.steps] at hself
  have hroot : Preorder.nextSibling Node.depth (rootNode :: l) = [] := by
    cases hy : Preorder.nextSibling Node.depth (rootNode :: l) with
    | nil => rfl
    | cons y l' =>
      have hpos' := hl y ((nextSibling_suffix rootNode l).subset (by rw [hy]; exact List.mem_cons_self))
      rw [(nextSibling_eq_cons.1 hy).2] at hpos'
      exact absurd hpos' (by decide)
  rw [hroot] at hself
  conv_rhs => rw [← hself]
  rw [List.filter_append, List.filter_cons_of_neg (by decide)]
  simp [family]

end Grandchildren

section Sweep

/-- The name under which a DIE is visible outside of its unit. -/
def visibleName (attrs : ℕ → AttributeMap) (off : ℕ) : Option String :=
  match nameOf attrs off with
  | none => none
  | some name =>
    if (attrs off).find dwAtVisibility = some (.other dwVisLocal) then none else some name

/-- The visibilities of the tree are constants. -/
def ConstantVisibility (t : List Node) (attrs : ℕ → AttributeMap) : Prop :=
  ∀ x ∈ t, ∀ v, (attrs x.offset).find dwAtVisibility = some v → ∃ n, v = .other n

theorem globalNameHere_eq {off : ℕ}
    (hconstant : ∀ v, (r.tables.attrs off).find dwAtVisibility = some v → ∃ n, v = .other n) :
    globalNameHere off r = .ok (visibleName r.tables.attrs off, r) := by
  rw [globalNameHere, stateT_get_bind, visibleName]
  cases nameOf r.tables.attrs off with
  | none => rfl
  | some name =>
    dsimp only
    cases hv : (r.tables.attrs off).find dwAtVisibility with
    | none => rfl
    | some v =>
      obtain ⟨n, rfl⟩ := hconstant v hv
      dsimp only
      by_cases hn : n = dwVisLocal
      · rw [if_pos hn, if_pos (by rw [hn])]
        rfl
      · rw [if_neg hn, if_neg (by simpa using hn)]
        rfl

theorem nameOf_of_visibleName {attrs : ℕ → AttributeMap} {off : ℕ} {name : String}
    (h : visibleName attrs off = some name) : nameOf attrs off = some name := by
  unfold visibleName at h
  cases hn : nameOf attrs off with
  | none =>
    rw [hn] at h
    exact absurd h (by simp)
  | some n =>
    rw [hn] at h
    dsimp only at h
    split_ifs at h
    rw [← h]

/-- The tables once the predicate has been asked about `offs`, where `rest` is still to come. -/
def Tables.tested (tables : Tables) (offs rest : List ℕ) : Tables :=
  { tables with
    visibleNamedGrandchildrenCache := tables.visibleNamedGrandchildrenCache ++
      offs.filterMap fun off => (visibleName tables.attrs off).map fun name => (name, off)
    visibleNamedGrandchildrenIsComplete :=
      tables.visibleNamedGrandchildrenIsComplete || !offs.isEmpty && rest.isEmpty }

theorem tested_nil (tables : Tables) (rest : List ℕ) : tables.tested [] rest = tables := by
  simp [Tables.tested]

theorem tested_singleton (tables : Tables) (off : ℕ) (rest : List ℕ) :
    tables.tested [off] rest = { tables with
      visibleNamedGrandchildrenCache := tables.visibleNamedGrandchildrenCache ++
        ((visibleName tables.attrs off).map fun name => (name, off)).toList
      visibleNamedGrandchildrenIsComplete :=
        tables.visibleNamedGrandchildrenIsComplete || rest.isEmpty } := by
  unfold Tables.tested
  cases hname : visibleName tables.attrs off <;> simp [hname]

theorem tested_append (tables : Tables) (us vs rest : List ℕ) :
    (tables.tested us (vs ++ rest)).tested vs rest = tables.tested (us ++ vs) rest := by
  unfold Tables.tested
  dsimp only
  congr 1
  · rw [List.filterMap_append, List.append_assoc]
  · cases vs with
    | nil => simp
    | cons v vs => cases us <;> simp

variable {srk : Srk31 fuel} {x : Node} {l : List Node} {q : List (List Node)} {it : Iterator}
  {queue : List Iterator}

/-- **The increment of the grandchildren** passes over the first. -/
theorem increment_reaches (srk : Srk31 fuel) (h : Consistent t r)
    (hat : AtFrontier t r (it :: queue) ((x :: l) :: q)) :
    Reaches t (srk.increment (it :: queue)) r fun its r' =>
      AtFrontier t r' its (skip Node.depth (x :: l) q) := by
  obtain ⟨hplaced, hplaces, hknown⟩ := hat
  obtain ⟨hit, hq⟩ := List.forall₂_cons.1 hplaced
  obtain ⟨x', l', heq, hoff, hd⟩ := hit
  obtain ⟨rfl, rfl⟩ := List.cons.inj heq
  have hx := (hplaces _ List.mem_cons_self).2
  have hrest : ∀ {r'}, Kept r r' → AtFrontier t r' queue q := fun hkept =>
    ⟨hq, fun s hs => hplaces s (List.mem_cons_of_mem _ hs), hknown.tail.kept hkept⟩
  rw [srk.increment_cons]
  refine (moveToNextSibling_reaches h hx leavesKnown_withDepth hoff hd
    (hknown _ List.mem_cons_self x rfl)).bind ?_
  rintro res r₁ hr₁ hmoved ⟨hres, hk⟩
  have hnext := atFrontier_places (t := t) hres
    (((nextSibling_suffix x l).trans (List.suffix_cons x l)).trans hx) hk
  have happend := hnext.append (hrest ⟨hmoved.dbg, hmoved.parents⟩)
  cases res with
  | none => exact StateReturns.pure hr₁ happend
  | some sibling => exact StateReturns.pure hr₁ happend

theorem visited_skip : visited ((x :: l) :: q) = x :: visited (skip Node.depth (x :: l) q) := by
  rw [visited, List.flatMap_cons, siblings_cons, skip, ← visited_places]
  exact congrArg (x :: ·) List.flatMap_append.symm

theorem AtFrontier.eq_nil_iff {its : List Iterator} {f : List (List Node)}
    (h : AtFrontier t r its f) : its = [] ↔ visited f = [] := by
  cases h.placed with
  | nil => simp [visited]
  | @cons it s its f hit hits =>
    obtain ⟨x, l, rfl, -⟩ := hit
    rw [visited_skip]
    simp

/-- The offsets of what is visited. -/
def visitedOffsets (f : List (List Node)) : List ℕ := (visited f).map Node.offset

theorem visitedOffsets_skip : visitedOffsets ((x :: l) :: q) =
    x.offset :: visitedOffsets (skip Node.depth (x :: l) q) := by
  rw [visitedOffsets, visited_skip]
  rfl

theorem AtFrontier.isEmpty {its : List Iterator} {f : List (List Node)}
    (h : AtFrontier t r its f) : srk.doneCompletePass its = (visitedOffsets f).isEmpty := by
  rw [Bool.eq_iff_iff, srk.doneCompletePass_iff, h.eq_nil_iff, visitedOffsets, List.isEmpty_iff,
    List.map_eq_nil_iff]

/-- **The predicate** enters the DIE if it holds of it, and marks the cache at the last. -/
theorem isVisibleAndNamed_searches (h : Consistent t r)
    (hconstant : ConstantVisibility t r.tables.attrs)
    (hat : AtFrontier t r (it :: queue) ((x :: l) :: q)) :
    Searches t (isVisibleAndNamed fuel srk (it :: queue)) r fun res r' =>
      res = (visibleName r.tables.attrs x.offset).isSome ∧
        r'.tables = r.tables.tested [x.offset] (visitedOffsets (skip Node.depth (x :: l) q)) := by
  obtain ⟨hit, -⟩ := List.forall₂_cons.1 hat.placed
  obtain ⟨x', l', heq, hoff, -⟩ := hit
  obtain ⟨rfl, rfl⟩ := List.cons.inj heq
  have hx := mem_of_suffix (hat.places _ List.mem_cons_self).2
  have hname : Searches t (globalNameHere it.offset) r fun res r' =>
      res = visibleName r.tables.attrs x.offset ∧ r' = r := by
    rw [hoff]
    exact ⟨_, r, globalNameHere_eq (hconstant x hx), h, Std.Refl.refl r, rfl, rfl⟩
  refine hname.bind ?_
  rintro name r₁ - - ⟨rfl, rfl⟩
  have henter : Searches t (enterUnder (visibleName r₁.tables.attrs x.offset) it.offset) r₁
      fun _ r' => r'.tables = { r₁.tables with
        visibleNamedGrandchildrenCache := r₁.tables.visibleNamedGrandchildrenCache ++
          ((visibleName r₁.tables.attrs x.offset).map fun name => (name, x.offset)).toList } := by
    rw [hoff]
    cases visibleName r₁.tables.attrs x.offset with
    | none => exact StateReturns.pure h (by simp)
    | some name =>
      exact StateReturns.modify (h.withTables (r₁.enterVisible name x.offset).tables)
        ⟨rfl, fun _ hc => hc⟩ rfl
  refine henter.bind ?_
  rintro - r₂ hr₂ hkept htables₂
  refine (searches_of_reaches (increment_reaches srk hr₂ (hat.kept hkept))).bind ?_
  rintro next r₃ hr₃ - ⟨hnext, htables₃⟩
  refine StateReturns.bind (p := fun _ r' => r'.tables =
    r₁.tables.tested [x.offset] (visitedOffsets (skip Node.depth (x :: l) q))) ?_ ?_
  · rw [markIfDone, hnext.isEmpty]
    rw [tested_singleton]
    cases (visitedOffsets (skip Node.depth (x :: l) q)).isEmpty with
    | true =>
      refine StateReturns.modify
        (hr₃.withTables { r₃.tables with visibleNamedGrandchildrenIsComplete := true })
        ⟨rfl, fun _ hc => hc⟩ ?_
      dsimp only
      rw [htables₃, htables₂, Bool.or_true]
    | false =>
      refine StateReturns.pure hr₃ ?_
      rw [htables₃, htables₂, Bool.or_false]
  · rintro - r₄ hr₄ - htables
    exact StateReturns.pure hr₄ ⟨rfl, htables⟩

/-- **The selection** passes over what shows no name, and stops at the first that does. -/
theorem select_searches (h : Consistent t r) (hconstant : ConstantVisibility t r.tables.attrs)
    {its : List Iterator} {f : List (List Node)} (hat : AtFrontier t r its f) {n : ℕ}
    (hn : (visitedOffsets f).length < n) :
    Searches t (srk.select (isVisibleAndNamed fuel srk) n its) r fun its' r' =>
      ∃ us f', AtFrontier t r' its' f' ∧ visitedOffsets f = us ++ visitedOffsets f' ∧
        (∀ u ∈ us, visibleName r.tables.attrs u = none) ∧
        ((f' = [] ∧ r'.tables = r.tables.tested us []) ∨
          ∃ g gs, visitedOffsets f' = g :: gs ∧ (visibleName r.tables.attrs g).isSome ∧
            r'.tables = r.tables.tested (us ++ [g]) gs) := by
  induction n generalizing r its f with
  | zero => omega
  | succ n ih =>
    cases hplaced : hat.placed with
    | nil =>
      rw [srk.select_nil]
      exact StateReturns.pure h ⟨[], [], hat, rfl, by simp, .inl ⟨rfl, (tested_nil _ _).symm⟩⟩
    | @cons it s queue q hit hq =>
      obtain ⟨x, l, rfl, -⟩ := id hit
      rw [visitedOffsets_skip] at hn ⊢
      rw [srk.select_cons]
      refine (isVisibleAndNamed_searches h hconstant hat).bind ?_
      rintro visible r₁ hr₁ hkept₁ ⟨rfl, htables₁⟩
      cases hvisible : (visibleName r.tables.attrs x.offset).isSome with
      | true =>
        refine StateReturns.pure hr₁ ⟨[], (x :: l) :: q, hat.kept hkept₁, ?_, by simp,
          .inr ⟨x.offset, _, visitedOffsets_skip, hvisible, htables₁⟩⟩
        rw [visitedOffsets_skip]
        rfl
      | false =>
        have hattrs₁ : r₁.tables.attrs = r.tables.attrs := by
          rw [htables₁]
          rfl
        refine (searches_of_reaches (increment_reaches srk hr₁ (hat.kept hkept₁))).bind ?_
        rintro next r₂ hr₂ - ⟨hnext, htables₂⟩
        rw [htables₁] at htables₂
        have hattrs₂ : r₂.tables.attrs = r.tables.attrs := by
          rw [htables₂]
          rfl
        refine (ih hr₂ (by rwa [hattrs₂]) hnext (Nat.lt_of_succ_lt_succ hn)).mono ?_
        rintro its' r₃ - - ⟨us, f', hat', hsplit, hnone, hend⟩
        rw [hattrs₂] at hnone hend
        refine ⟨x.offset :: us, f', hat', ?_, ?_, ?_⟩
        · rw [hsplit]
          rfl
        · intro u hu
          rcases List.mem_cons.1 hu with rfl | hu
          · exact Option.not_isSome_iff_eq_none.1 (by simp [hvisible])
          · exact hnone u hu
        · rw [htables₂, hsplit] at hend
          rcases hend with ⟨rfl, hend⟩ | ⟨g, gs, hg, hvis, hend⟩
          · refine .inl ⟨rfl, hend.trans ?_⟩
            exact tested_append _ [x.offset] us []
          · refine .inr ⟨g, gs, hg, hvis, hend.trans ?_⟩
            rw [hg, show us ++ g :: gs = (us ++ [g]) ++ gs by simp]
            exact tested_append _ [x.offset] (us ++ [g]) gs

/-- What the sweep asks the predicate about: all, or up to the first that `p` holds of. -/
def sweptUntil (p : ℕ → Bool) (one : Bool) : List ℕ → List ℕ
  | [] => []
  | g :: gs => if one && p g then [g] else g :: sweptUntil p one gs

theorem sweptUntil_append {p : ℕ → Bool} {one : Bool} {us : List ℕ} (hus : ∀ u ∈ us, p u = false)
    (gs : List ℕ) : sweptUntil p one (us ++ gs) = us ++ sweptUntil p one gs := by
  induction us with
  | nil => rfl
  | cons u us ih =>
    rw [List.cons_append, sweptUntil, hus u List.mem_cons_self, Bool.and_false,
      if_neg (by decide), ih fun v hv => hus v (List.mem_cons_of_mem u hv)]
    rfl

variable {name : String} {hits : List ℕ} {one : Bool}

/-- Whether the sweep answers with a DIE: it shows the name, and was not hit in the cache. -/
def answers (attrs : ℕ → AttributeMap) (name : String) (hits : List ℕ) (off : ℕ) : Bool :=
  visibleName attrs off = some name ∧ off ∉ hits

theorem answers_eq_false {attrs : ℕ → AttributeMap} {off : ℕ} (h : visibleName attrs off = none) :
    answers attrs name hits off = false := by
  simp [answers, h]

/-- Of what shows a name, that is the name it has. -/
theorem answers_iff {attrs : ℕ → AttributeMap} {off : ℕ} (h : (visibleName attrs off).isSome) :
    (nameOf attrs off = some name ∧ off ∉ hits) ↔ answers attrs name hits off = true := by
  obtain ⟨n, hn⟩ := Option.isSome_iff_exists.1 h
  rw [answers, decide_eq_true_iff, hn, nameOf_of_visibleName hn]

theorem enough_iff {max : ℕ} {results : List Iterator} :
    enough max results = true ↔ max ≠ 0 ∧ max ≤ results.length := by
  rw [enough, decide_eq_true_iff]

/-- **The sweep** answers with what shows the name, all or the first, and has asked about all up to
there. -/
theorem sweep_searches (srk : Srk31 fuel) (name : String) (hits : List ℕ)
    (h : Consistent t r) (hconstant : ConstantVisibility t r.tables.attrs)
    {its : List Iterator} {f : List (List Node)} (hat : AtFrontier t r its f)
    {results : List Iterator} (hone : one = true → results = []) {n : ℕ}
    (hn : (visitedOffsets f).length < n) (hfuel : (visitedOffsets f).length < fuel) :
    Searches t (srk.select (isVisibleAndNamed fuel srk) fuel its >>= fun start =>
        resolveSwept fuel srk name hits (if one then 1 else 0) n start results) r fun res r' =>
      ∃ rest,
        visitedOffsets f =
          sweptUntil (answers r.tables.attrs name hits) one (visitedOffsets f) ++ rest ∧
        res.map Iterator.offset = results.map Iterator.offset ++
          (sweptUntil (answers r.tables.attrs name hits) one (visitedOffsets f)).filter
            (answers r.tables.attrs name hits) ∧
        r'.tables = r.tables.tested
          (sweptUntil (answers r.tables.attrs name hits) one (visitedOffsets f)) rest := by
  induction n generalizing r its f results with
  | zero => omega
  | succ n ih =>
    refine (select_searches h hconstant hat hfuel).bind ?_
    rintro its' r₁ hr₁ - ⟨us, f', hat', hsplit, hnone, hend⟩
    have hskipped : ∀ u ∈ us, answers r.tables.attrs name hits u = false :=
      fun u hu => answers_eq_false (hnone u hu)
    have hfiltered : us.filter (answers r.tables.attrs name hits) = [] :=
      List.filter_eq_nil_iff.2 fun u hu => by simp [hskipped u hu]
    rw [hsplit, sweptUntil_append hskipped]
    rcases hend with ⟨rfl, htables₁⟩ | ⟨g, gs, hg, hvisible, htables₁⟩
    · -- Nothing is left that shows a name.
      obtain rfl := List.forall₂_nil_right_iff.1 hat'.placed
      refine StateReturns.pure hr₁ ⟨[], ?_, ?_, ?_⟩
      · simp [visitedOffsets, visited, sweptUntil]
      · simp [visitedOffsets, visited, sweptUntil, hfiltered]
      · simpa [visitedOffsets, visited, sweptUntil] using htables₁
    · have hattrs₁ : r₁.tables.attrs = r.tables.attrs := by
        rw [htables₁]
        rfl
      rw [hsplit, hg, List.length_append, List.length_cons] at hn hfuel
      rw [hg]
      cases hplaced : hat'.placed with
      | nil => exact absurd hg (by simp [visitedOffsets, visited])
      | @cons it s queue q hit hq =>
      obtain ⟨x, l, rfl, hoff, -⟩ := id hit
      rw [visitedOffsets_skip] at hg
      obtain ⟨rfl, rfl⟩ := List.cons.inj hg
      rw [resolveSwept]
      refine StateReturns.get_bind ?_
      rw [hattrs₁, hoff]
      dsimp only
      -- Where the loop goes on behind the DIE, it adds what it finds there.
      have hgo : ∀ results', (one && answers r.tables.attrs name hits x.offset) = false →
          (one = true → results' = []) →
          results'.map Iterator.offset = results.map Iterator.offset ++
            [x.offset].filter (answers r.tables.attrs name hits) →
          Searches t (srk.increment (it :: queue) >>= fun next =>
            srk.select (isVisibleAndNamed fuel srk) fuel next >>= fun start =>
              resolveSwept fuel srk name hits (if one then 1 else 0) n start results') r₁
            fun res r' => ∃ rest,
              us ++ x.offset :: visitedOffsets (skip Node.depth (x :: l) q) =
                us ++ sweptUntil (answers r.tables.attrs name hits) one
                  (x.offset :: visitedOffsets (skip Node.depth (x :: l) q)) ++ rest ∧
              res.map Iterator.offset = results.map Iterator.offset ++
                (us ++ sweptUntil (answers r.tables.attrs name hits) one
                  (x.offset :: visitedOffsets (skip Node.depth (x :: l) q))).filter
                    (answers r.tables.attrs name hits) ∧
              r'.tables = r.tables.tested (us ++ sweptUntil (answers r.tables.attrs name hits) one
                (x.offset :: visitedOffsets (skip Node.depth (x :: l) q))) rest := by
        intro results' hon hone' hresults
        refine (searches_of_reaches (increment_reaches srk hr₁ hat')).bind ?_
        rintro next r₂ hr₂ - ⟨hnext, htables₂⟩
        have hih := ih hr₂ (by rwa [htables₂, hattrs₁]) hnext hone' (by omega) (by omega)
        rw [htables₂, hattrs₁] at hih
        refine hih.mono ?_
        rintro res r₃ - - ⟨rest, hrest, hres, htables₃⟩
        rw [sweptUntil, hon, if_neg (by decide)]
        refine ⟨rest, ?_, ?_, ?_⟩
        · rw [List.append_assoc, List.cons_append, ← hrest]
        · rw [hres, hresults, List.filter_append, hfiltered, List.append_assoc]
          simp [List.filter_cons]
          split_ifs <;> rfl
        · rw [htables₃, htables₁]
          conv_lhs =>
            arg 1
            rw [hrest]
          rw [tested_append, List.append_assoc]
          rfl
      by_cases hfound : nameOf r.tables.attrs x.offset = some name ∧ x.offset ∉ hits
      · have hyes := (answers_iff hvisible).1 hfound
        simp only [if_pos hfound]
        cases one with
        | true =>
          obtain rfl := hone rfl
          rw [if_pos ⟨hfound, rfl⟩]
          refine StateReturns.pure hr₁ ⟨visitedOffsets (skip Node.depth (x :: l) q), ?_, ?_, ?_⟩
          · simp [sweptUntil, hyes]
          · simp [sweptUntil, hyes, hfiltered, hoff]
          · simpa [sweptUntil, hyes] using htables₁
        | false =>
          rw [if_neg fun h => absurd h.2 (by simp [enough])]
          refine hgo (results ++ [it]) rfl (by simp) ?_
          rw [List.map_append, List.filter_cons_of_pos hyes, List.map_singleton, hoff]
          rfl
      · have hno : answers r.tables.attrs name hits x.offset = false := by
          rw [← Bool.not_eq_true, ← answers_iff hvisible]
          exact hfound
        simp only [if_neg hfound]
        rw [if_neg fun h => hfound h.1]
        refine hgo results (by rw [hno, Bool.and_false]) hone ?_
        rw [List.filter_cons_of_neg (by simp [hno])]
        simp

end Sweep

section Resolve

variable {srk : Srk31 fuel} {name : String} {one : Bool}

/-- The offsets of the DIEs below the units. -/
def grandchildOffsets (t : List Node) : List ℕ := (t.filter fun y => y.depth = 2).map Node.offset

theorem mem_grandchildOffsets {off : ℕ} :
    off ∈ grandchildOffsets t ↔ ∃ x ∈ t, x.depth = 2 ∧ x.offset = off := by
  simp [grandchildOffsets, and_assoc]

/-- **The results from the cache**: all, or the first. -/
theorem resolveCached_reaches (h : Consistent t r) {offs : List ℕ}
    (hoffs : ∀ off ∈ offs, off ∈ grandchildOffsets t) {results : List Iterator}
    (hone : one = true → results = []) :
    Reaches t (resolveCached (if one then 1 else 0) offs results) r fun res _ =>
      res.map Iterator.offset =
        results.map Iterator.offset ++ if one then offs.take 1 else offs := by
  induction offs generalizing r results with
  | nil => exact StateReturns.pure h (by cases one <;> simp)
  | cons off offs ih =>
    obtain ⟨x, hx, hd, rfl⟩ := mem_grandchildOffsets.1 (hoffs off List.mem_cons_self)
    have h0 : x.offset ≠ 0 := fun h0 => by
      have := (h.wellFormed.depth_eq_zero_iff hx).2 h0
      omega
    refine StateReturns.bind (p := fun it _ => it.offset = x.offset) ?_ ?_
    · refine (pos_reaches h hx ?_ ?_ ?_ fun _ => h.exists_parent hx h0).mono
        fun _ _ _ _ hpost => hpost.1
      · rintro d ⟨⟩
        exact hd.symm
      · exact fun p hp => absurd hp (by simp)
      · exact fun hz => absurd hz h0
    rintro it r₁ hr₁ - hit
    cases one with
    | true =>
      obtain rfl := hone rfl
      exact StateReturns.pure hr₁ (by simp [hit])
    | false =>
      rw [if_neg (by simp [enough])]
      refine (ih hr₁ (fun o ho => hoffs o (List.mem_cons_of_mem _ ho)) (by simp)).mono ?_
      rintro res r₂ - - hres
      rw [hres, List.map_append, List.map_singleton, hit, List.append_assoc]
      rfl

/-- What the predicate is asked about in a search: nothing where the cache is complete or has the one
result that is asked for. -/
def Tables.asked (tables : Tables) (t : List Node) (name : String) (one : Bool) : List ℕ :=
  if tables.visibleNamedGrandchildrenIsComplete ∨ one ∧ tables.cached name ≠ [] then []
  else sweptUntil (answers tables.attrs name (tables.cached name)) one (grandchildOffsets t)

/-- **A search** answers with what is cached, and then with what it sweeps. -/
theorem resolveAllVisibleFromRoot_searches (h : Consistent t r) (hfuel : EnoughFuel t fuel)
    (hconstant : ConstantVisibility t r.tables.attrs)
    (hcached : ∀ off ∈ r.tables.cached name, off ∈ grandchildOffsets t) :
    Searches t (resolveAllVisibleFromRoot fuel srk name (if one then 1 else 0)) r fun res r' =>
      ∃ rest, r'.tables = r.tables.tested (r.tables.asked t name one) rest ∧
        (r.tables.asked t name one ≠ [] →
          grandchildOffsets t = r.tables.asked t name one ++ rest) ∧
        res.map Iterator.offset =
          (if one then (r.tables.cached name).take 1 else r.tables.cached name) ++
            (r.tables.asked t name one).filter
              (answers r.tables.attrs name (r.tables.cached name)) := by
  refine StateReturns.get_bind ?_
  refine (searches_of_reaches (resolveCached_reaches h hcached (fun _ => rfl))).bind ?_
  rintro results r₁ hr₁ - ⟨hresults, htables₁⟩
  rw [List.map_nil, List.nil_append] at hresults
  rw [← hresults]
  by_cases henough : enough (if one then 1 else 0) results = true
  · -- The one result is there.
    rw [if_pos henough]
    have hone : one = true := by
      cases one with
      | true => rfl
      | false => exact absurd henough (by simp [enough])
    have hne : r.tables.cached name ≠ [] := by
      rintro hnil
      rw [hnil, hone] at hresults
      rw [hone, List.map_eq_nil_iff.1 hresults] at henough
      exact absurd henough (by decide)
    have hasked : r.tables.asked t name one = [] := if_pos (.inr ⟨hone, hne⟩)
    rw [hasked]
    exact StateReturns.pure hr₁ ⟨[], by rw [htables₁, tested_nil], fun hn => absurd rfl hn, by simp⟩
  · rw [if_neg henough]
    refine StateReturns.get_bind ?_
    rw [htables₁]
    by_cases hcomplete : r.tables.visibleNamedGrandchildrenIsComplete = true
    · have hasked : r.tables.asked t name one = [] := if_pos (.inl hcomplete)
      rw [if_pos hcomplete, hasked]
      exact StateReturns.pure hr₁
        ⟨[], by rw [htables₁, tested_nil], fun hn => absurd rfl hn, by simp⟩
    · rw [if_neg hcomplete]
      have hempty : one = true → results = [] ∧ r.tables.cached name = [] := by
        rintro rfl
        have hnil : results = [] := by
          by_contra hne
          exact henough (enough_iff.2 ⟨by decide, List.length_pos_of_ne_nil hne⟩)
        rw [hnil] at hresults
        refine ⟨hnil, ?_⟩
        cases hc : r.tables.cached name with
        | nil => rfl
        | cons c cs =>
          rw [hc] at hresults
          exact absurd hresults (by simp)
      have hasked : r.tables.asked t name one = sweptUntil
          (answers r.tables.attrs name (r.tables.cached name)) one (grandchildOffsets t) := by
        refine if_neg ?_
        rintro (hc | ⟨hone, hne⟩)
        · exact hcomplete hc
        · exact hne (hempty hone).2
      refine (searches_of_reaches (grandchildren_reaches hr₁ hfuel)).bind ?_
      rintro start r₂ hr₂ - ⟨⟨f, hat, hvisited⟩, htables₂⟩
      have hoffsets : visitedOffsets f = grandchildOffsets t := congrArg (List.map Node.offset) hvisited
      have hlength : (visitedOffsets f).length < fuel := by
        rw [hoffsets, grandchildOffsets, List.length_map]
        exact (List.length_filter_le _ _).trans_lt hfuel.1
      rw [htables₁] at htables₂
      refine (sweep_searches srk name (r.tables.cached name) hr₂
        (by rwa [htables₂]) hat (fun hone => (hempty hone).1) hlength hlength).mono ?_
      rintro res r₃ - - ⟨rest, hrest, hres, htables₃⟩
      rw [htables₂, hoffsets] at hrest hres htables₃
      rw [hasked]
      exact ⟨rest, htables₃, fun _ => hrest, hres⟩

end Resolve

end Dies
end Dwarfpp
