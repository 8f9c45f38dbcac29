/-
# Resolving names below a DIE

`resolve_all` and `resolve` of `include/dwarfpp/root-inl.hpp`, as a root does them: `named_child`
(`src/iter.cpp`, `src/dies.cpp`) goes through the children one by one until one has the name, and a
DIE with its payload is searched for first.  All this fills the caches.  The answers are those of the
tree of names (`resolveAll_arrives`), whatever the caches were.
-/

import Dwarfpp.Dies.NamePath
import Dwarfpp.Dies.RootRuns
import Dwarfpp.Dies.StaticLocation
import Dwarfpp.Lib.Ancestors

namespace Dwarfpp
namespace Dies

open Lib
open Lib.Preorder hiding firstChild nextSibling

/-- `DW_TAG_class_type`. -/
def dwTagClassType : ℕ := 0x02
/-- `DW_TAG_enumeration_type`. -/
def dwTagEnumerationType : ℕ := 0x04
/-- `DW_TAG_structure_type`. -/
def dwTagStructureType : ℕ := 0x13
/-- `DW_TAG_union_type`. -/
def dwTagUnionType : ℕ := 0x17
/-- `DW_TAG_module`. -/
def dwTagModule : ℕ := 0x1e
/-- `DW_TAG_namespace`. -/
def dwTagNamespace : ℕ := 0x39

/-- Whether DIEs with the tag are `with_named_children_die`s. -/
def withNamedChildren (tag : ℕ) : Bool :=
  tag ∈ [dwTagClassType, dwTagEnumerationType, dwTagCompileUnit, dwTagStructureType,
    dwTagUnionType, dwTagModule, dwTagSubprogram, dwTagNamespace]

section Model

variable (fuel : ℕ)

/-- The loop of `find_named_child`. -/
def findNamedFrom (name : String) : ℕ → Option Iterator → RootM (Option Iterator)
  | 0, _ => throw .outOfSteps
  | _ + 1, none => return none
  | n + 1, some it => do
    let r ← get
    if nameOf r.tables.attrs it.offset = some name then return some it
    else
      let next ← moveToNextSibling (withDepth fuel) it
      findNamedFrom name n next

/-- `find_named_child`. -/
def findNamedChild (start : Iterator) (name : String) : RootM (Option Iterator) := do
  let child ← firstChild start
  findNamedFrom fuel name fuel child

/-- `named_child`.  The payload of a DIE with named children asks the root, once it has found the
DIE. -/
def namedChild (start : Iterator) (name : String) : RootM (Option Iterator) := do
  let r ← get
  if start.payload && withNamedChildren (r.tagHere start.offset) then
    match ← find fuel start.offset none false with
    | some startIter => findNamedChild fuel startIter name
    | none => throw .undefinedBehaviour
  else findNamedChild fuel start name

/-- `resolve_all`, which adds to `results`. -/
def resolveAll : Iterator → List String → List Iterator → ℕ → RootM (List Iterator)
  | start, [], results, _ => return results ++ [start]
  | start, name :: path, results, max =>
    if path = [] then do
      match ← namedChild fuel start name with
      -- whether or not that is enough, nothing is left to do
      | some c => return results ++ [c]
      | none => return results
    else do
      match ← namedChild fuel start name with
      | none => return results
      | some found => resolveAll found path results max

/-- `resolve`. -/
def resolve (start : Iterator) (path : List String) : RootM (Option Iterator) := do
  let results ← resolveAll fuel start path [] 1
  return results.head?

end Model

section Tree

variable {t : List Node} {x : Node}

/-- The names of a tree. -/
def namedTree (h : WellFormed t) (attrs : ℕ → AttributeMap) : NamedTree Node where
  childrenHere := children Node.depth t
  nameHere x := nameOf attrs x.offset
  nodup _ := nodup_children h.sorted
  parent_unique p q c hp hq := by
    have hmem : ∀ {x}, c ∈ children Node.depth t x → x ∈ t := by
      intro x hc
      by_contra hx
      rw [children_of_not_mem hx] at hc
      exact absurd hc List.not_mem_nil
    have hp' := (mem_children h.sorted h.steps (hmem hp)).1 hp
    exact hp'.unique h.sorted ((mem_children h.sorted h.steps (hmem hq)).1 hq)

end Tree

variable {t : List Node} {r r' : Root} {fuel : ℕ} {x : Node} {it : Iterator} {name : String}
  {path : List String} {s : List Node} {attrs : ℕ → AttributeMap}

section Found

/-- The iterator is at a DIE of the tree from which there is a way up, and its depth can be found
out. -/
structure FoundAt (t : List Node) (r : Root) (x : Node) (it : Iterator) : Prop where
  mem : x ∈ t
  offset : it.offset = x.offset
  depth : it.depth = some x.depth ∨ it.depth = none ∧ Locatable r it
  known : Known r x.offset

theorem HeldAt.found (h : HeldAt t r x it) : FoundAt t r x it :=
  ⟨h.mem, h.standing.1, h.standing.2.imp_right fun hd => ⟨hd.1, .inl hd.2⟩, h.known⟩

/-- The same of the first of a list of siblings, if there is one. -/
def FirstFound (t : List Node) (r : Root) (s : List Node) (res : Option Iterator) : Prop :=
  Option.Rel (FoundAt t r) s.head? res

variable (hfuel : EnoughFuel t fuel)

theorem FoundAt.firstChild (h : Settled t r) (hit : FoundAt t r x it) {l : List Node}
    (hx : x :: l <:+ t) :
    Arrives t (firstChild it) r fun res r' =>
      FirstFound t r' (Preorder.firstChild Node.depth (x :: l)) res := by
  refine (arrives (firstChild_locatable h.consistent hx hit.offset)
    (firstChild_rooted h.rooted (hit.offset ▸ hit.known))).mono ?_
  rintro res r' - - ⟨⟨hat, hknown⟩, -⟩
  cases hy : Preorder.firstChild Node.depth (x :: l) with
  | nil =>
    rw [hy] at hat
    obtain rfl : res = none := hat
    exact .none
  | cons y l' =>
    rw [hy] at hat hknown
    obtain ⟨i, rfl, hoff, hdepth, hloc⟩ := hat
    have hmem := mem_of_suffix (firstChild_suffix_of hx hy)
    refine .some ⟨hmem, hoff, ?_, .inr (parentKnown_cons.1 hknown)⟩
    rcases hit.depth with hd | ⟨hd, -⟩
    · left
      rw [hdepth, hd, Option.map_some, ← (firstChild_eq_cons.1 hy).2,
        h.consistent.wellFormed.toUShort_depth hmem]
    · exact .inr ⟨by rw [hdepth, hd, Option.map_none], hloc⟩

include hfuel

theorem FoundAt.withDepth (h : Settled t r) (hit : FoundAt t r x it) :
    Arrives t (withDepth fuel it) r fun it' r' =>
      it'.offset = x.offset ∧ it'.depth = some x.depth ∧ Known r' x.offset := by
  have hlt := hfuel.2 x hit.mem
  refine (arrives (withDepth_of_locatable h.consistent hit.mem hit.offset hit.depth hlt hfuel.1)
    (withDepth_rooted h (hit.offset ▸ hlt))).mono ?_
  rintro it' r' - hmoved ⟨⟨hoff, hd, -⟩, -⟩
  exact ⟨hoff, hd, hit.known.mono hmoved.kept⟩

theorem FoundAt.nextSibling (h : Settled t r) (hit : FoundAt t r x it) {l : List Node}
    (hx : x :: l <:+ t) :
    Arrives t (moveToNextSibling (Dies.withDepth fuel) it) r fun res r' =>
      FirstFound t r' (Preorder.nextSibling Node.depth (x :: l)) res := by
  refine (hit.withDepth hfuel h).bind ?_
  rintro it' r₁ hr₁ - ⟨hoff, hd, hk⟩
  have hsome : it'.depth.isSome = true := by rw [hd]; rfl
  -- The depth is known now, and asked for once more is the same.
  have hsame := @leavesKnown_withDepth fuel it' hsome
  have hmove := arrives (moveToNextSibling_reaches hr₁.consistent hx leavesKnown_withDepth hoff hd
    fun h0 => hk.resolve_left h0)
    (moveToNextSibling_rooted (@leavesKnown_withDepth fuel) hr₁.rooted hsome)
  unfold moveToNextSibling at hmove
  rw [hsame, pure_bind] at hmove
  refine hmove.mono ?_
  rintro res r' - - ⟨⟨hat, hknown⟩, -⟩
  cases hy : Preorder.nextSibling Node.depth (x :: l) with
  | nil =>
    rw [hy] at hat
    obtain rfl : res = none := hat
    exact .none
  | cons y l' =>
    rw [hy] at hat hknown
    obtain ⟨i, rfl, hoff', hd'⟩ := hat
    exact .some ⟨mem_of_suffix (nextSibling_suffix_of hx hy), hoff', .inl hd',
      .inr (parentKnown_cons.1 hknown)⟩

end Found

section Resolve

variable (hfuel : EnoughFuel t fuel)
include hfuel

/-- **The loop stops at the first of the siblings that has the name.** -/
theorem findNamedFrom_arrives (h : Settled t r) (hattrs : r.tables.attrs = attrs) (hs : s <:+ t)
    {res : Option Iterator} (hres : FirstFound t r s res) {n : ℕ} (hn : s.length < n) :
    Arrives t (findNamedFrom fuel name n res) r fun found r' => Option.Rel (FoundAt t r')
      ((siblings Node.depth s).find? fun c => nameOf attrs c.offset = some name) found := by
  induction n generalizing r s res with
  | zero => omega
  | succ n ih =>
    cases s with
    | nil =>
      cases hres
      exact StateReturns.pure h .none
    | cons x l =>
      cases hres with
      | some hit =>
        rw [findNamedFrom, siblings_cons]
        refine StateReturns.get_bind ?_
        rw [hit.offset, hattrs]
        by_cases hname : nameOf attrs x.offset = some name
        · rw [if_pos hname, List.find?_cons_of_pos (by simpa using hname)]
          exact StateReturns.pure h (.some hit)
        · rw [if_neg hname, List.find?_cons_of_neg (by simpa using hname)]
          refine (hit.nextSibling hfuel h hs).bind ?_
          rintro next r₁ hr₁ hmoved hnext
          have hsuffix : Preorder.nextSibling Node.depth (x :: l) <:+ l := nextSibling_suffix x l
          refine ih hr₁ (by rw [hmoved.tables, hattrs])
            ((hsuffix.trans (List.suffix_cons x l)).trans hs) hnext ?_
          have := hsuffix.length_le
          rw [List.length_cons] at hn
          omega

/-- **`find_named_child`** finds the first child that has the name. -/
theorem findNamedChild_arrives (h : Settled t r) (hattrs : r.tables.attrs = attrs)
    (hit : FoundAt t r x it) :
    Arrives t (findNamedChild fuel it name) r fun found r' => Option.Rel (FoundAt t r')
      ((namedTree h.consistent.wellFormed attrs).namedChild x name) found := by
  have hw := h.consistent.wellFormed
  obtain ⟨l, hx⟩ := exists_suffix_of_mem hit.mem
  refine (hit.firstChild h hx).bind ?_
  rintro child r₁ hr₁ hmoved hchild
  have hbehind : Preorder.firstChild Node.depth (x :: l) <:+ l := firstChild_suffix x l
  have hsuffix := (hbehind.trans (List.suffix_cons x l)).trans hx
  refine (findNamedFrom_arrives hfuel hr₁ (by rw [hmoved.tables, hattrs]) hsuffix hchild
    (hsuffix.length_le.trans_lt hfuel.1)).mono ?_
  rintro found r₂ - - hfound
  rw [NamedTree.namedChild, NamedTree.findNamedChild, namedTree]
  dsimp only
  rwa [children_eq hw.sorted hx]

/-- **`named_child`** finds it too, whether or not the DIE has its payload. -/
theorem namedChild_arrives (h : Settled t r) (hattrs : r.tables.attrs = attrs)
    (hit : FoundAt t r x it) :
    Arrives t (namedChild fuel it name) r fun found r' => Option.Rel (FoundAt t r')
      ((namedTree h.consistent.wellFormed attrs).namedChild x name) found := by
  refine StateReturns.get_bind ?_
  split_ifs
  · rw [hit.offset]
    refine (find_arrives hfuel h x.offset).bind ?_
    rw [naiveFind_offset h.consistent.wellFormed.sorted hit.mem]
    rintro res r₁ hr₁ hmoved hres
    cases hres with
    | some hat => exact findNamedChild_arrives hfuel hr₁ (by rw [hmoved.tables, hattrs]) hat.found
  · exact findNamedChild_arrives hfuel h hattrs hit

/-- **`resolve_all` adds the end of the path along the first children**, and a limit changes
nothing. -/
theorem resolveAll_arrives (h : Settled t r) (hattrs : r.tables.attrs = attrs)
    (hit : FoundAt t r x it) (results : List Iterator) (max : ℕ) :
    Arrives t (resolveAll fuel it path results max) r fun res _ =>
      ∃ found : Option Iterator, res = results ++ found.toList ∧ found.map Iterator.offset =
        ((namedTree h.consistent.wellFormed attrs).firstMatch x path).map Node.offset := by
  induction path generalizing r x it with
  | nil => exact StateReturns.pure h ⟨some it, rfl, congrArg some hit.offset⟩
  | cons name path ih =>
    rw [resolveAll, NamedTree.firstMatch]
    split_ifs with hpath
    · subst hpath
      refine (namedChild_arrives hfuel h hattrs hit).bind ?_
      rintro found r₁ hr₁ - hfound
      generalize (namedTree h.consistent.wellFormed attrs).namedChild x name = child at hfound
      cases hfound with
      | none => exact StateReturns.pure hr₁ ⟨none, (List.append_nil _).symm, rfl⟩
      | @some c i hi => exact StateReturns.pure hr₁ ⟨some i, rfl, congrArg some hi.offset⟩
    · refine (namedChild_arrives hfuel h hattrs hit).bind ?_
      rintro found r₁ hr₁ hmoved hfound
      generalize (namedTree h.consistent.wellFormed attrs).namedChild x name = child at hfound
      cases hfound with
      | none => exact StateReturns.pure hr₁ ⟨none, (List.append_nil _).symm, rfl⟩
      | @some c i hi => exact ih hr₁ (by rw [hmoved.tables, hattrs]) hi

theorem resolve_arrives (h : Settled t r) (hattrs : r.tables.attrs = attrs)
    (hit : FoundAt t r x it) :
    Arrives t (resolve fuel it path) r fun res _ => res.map Iterator.offset =
      ((namedTree h.consistent.wellFormed attrs).firstMatch x path).map Node.offset := by
  refine (resolveAll_arrives hfuel h hattrs hit [] 1).bind ?_
  rintro res r₁ hr₁ - ⟨found, rfl, hfound⟩
  refine StateReturns.pure hr₁ ?_
  rw [List.nil_append]
  cases found <;> exact hfound

end Resolve

end Dies
end Dwarfpp
