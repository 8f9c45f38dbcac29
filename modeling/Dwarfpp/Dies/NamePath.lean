/-
# Resolving paths of names

`resolve_all` and `resolve` of `include/dwarfpp/root-inl.hpp` go down a path of names, one
level of children at a time.  On each level `find_named_child` gives the first child of
that name, and no other child is tried (`resolveAll_eq`).  So everything at the end of
the path is found just if the first child of a name is the only one that leads there
(`resolves_iff`).
-/

import Mathlib
import Dwarfpp.Basic

namespace Dwarfpp
namespace Dies

/-- The DIEs of a root, each with its children in order and its name. -/
structure NamedTree (ι : Type) where
  childrenHere : ι → List ι
  nameHere : ι → Option String
  nodup : ∀ d, (childrenHere d).Nodup
  parent_unique : ∀ p q c, c ∈ childrenHere p → c ∈ childrenHere q → p = q

namespace NamedTree

variable {ι : Type} (T : NamedTree ι)

/-- `find_named_child`. -/
def findNamedChild (start : ι) (name : String) : Option ι :=
  (T.childrenHere start).find? fun c => T.nameHere c = some name

/-- `named_child`: a payload asks the root too. -/
def namedChild (start : ι) (name : String) : Option ι := T.findNamedChild start name

/-- `resolve_all`, which adds to `results`. -/
def resolveAll : ι → List String → List ι → ℕ → List ι
  | start, [], results, _ => results ++ [start]
  | start, name :: path, results, max =>
    if path = [] then
      match T.namedChild start name with
      -- whether or not that is enough, nothing is left to do
      | some c => results ++ [c]
      | none => results
    else
      match T.namedChild start name with
      | none => results
      | some found => resolveAll found path results max

/-- `resolve`. -/
def resolve (start : ι) (path : List String) : Option ι := (T.resolveAll start path [] 1).head?

/-! ### What a path leads to -/

/-- A DIE is at the end of a path of names. -/
inductive Follows : ι → List String → ι → Prop
  | nil (d : ι) : Follows d [] d
  | cons {p c d : ι} {name : String} {path : List String} (hc : c ∈ T.childrenHere p)
    (hname : T.nameHere c = some name) (hrest : Follows c path d) : Follows p (name :: path) d

/-- Resolving is complete: without a limit all DIEs at the end of the path, each once; with a limit as
many of them as it allows; and one if there is any. -/
structure Resolves (start : ι) (path : List String) : Prop where
  all : (T.resolveAll start path [] 0).Nodup ∧
    ∀ d, d ∈ T.resolveAll start path [] 0 ↔ T.Follows start path d
  limited : ∀ max, max ≠ 0 → (T.resolveAll start path [] max).Nodup ∧
    (∀ d ∈ T.resolveAll start path [] max, T.Follows start path d) ∧
    (T.resolveAll start path [] max).length = min max {d | T.Follows start path d}.ncard
  one : (T.resolve start path).isSome = true ↔ ∃ d, T.Follows start path d

/-- On each level the first child of the name is the only one that leads to the end of the path. -/
def Unambiguous : ι → List String → Prop
  | _, [] => True
  | start, name :: path => ∀ c, T.namedChild start name = some c → Unambiguous c path ∧
      ∀ c' ∈ T.childrenHere start, T.nameHere c' = some name → c' ≠ c → ∀ d, ¬T.Follows c' path d

/-- The end of the path along the first children. -/
def firstMatch : ι → List String → Option ι
  | start, [] => some start
  | start, name :: path => (T.namedChild start name).bind fun c => firstMatch c path

variable {T} {start : ι} {path : List String} {c d : ι}

theorem namedChild_mem {name : String} (h : T.namedChild start name = some c) :
    c ∈ T.childrenHere start ∧ T.nameHere c = some name :=
  ⟨List.mem_of_find?_eq_some h, by simpa using List.find?_some h⟩

theorem exists_namedChild {name : String} (hc : c ∈ T.childrenHere start)
    (hname : T.nameHere c = some name) : ∃ first, T.namedChild start name = some first := by
  refine Option.ne_none_iff_exists'.1 fun hnone => ?_
  exact List.find?_eq_none.1 hnone c hc (by simp [hname])

/-- **Only the first children are tried**, and a limit changes nothing. -/
theorem resolveAll_eq (results : List ι) (max : ℕ) :
    T.resolveAll start path results max = results ++ (T.firstMatch start path).toList := by
  induction path generalizing start with
  | nil => rfl
  | cons name path ih =>
    rw [resolveAll, firstMatch]
    cases hchild : T.namedChild start name with
    | none => simp
    | some c =>
      by_cases hpath : path = []
      · subst hpath
        simp [firstMatch]
      · simp only [if_neg hpath, ih, Option.bind_some]

theorem follows_of_firstMatch (h : T.firstMatch start path = some d) :
    T.Follows start path d := by
  induction path generalizing start with
  | nil =>
    obtain rfl := Option.some.inj h
    exact .nil _
  | cons name path ih =>
    rw [firstMatch, Option.bind_eq_some_iff] at h
    obtain ⟨c, hchild, hrest⟩ := h
    obtain ⟨hc, hname⟩ := namedChild_mem hchild
    exact .cons hc hname (ih hrest)

/-- A DIE is at the end of a path from one DIE only. -/
theorem Follows.start_unique (h : T.Follows start path d) (h' : T.Follows c path d) :
    start = c := by
  induction h generalizing c with
  | nil d =>
    cases h'
    rfl
  | cons hc _ _ ih =>
    cases h' with
    | cons hc' _ hrest' =>
      obtain rfl := ih hrest'
      exact T.parent_unique _ _ _ hc hc'

/-- **The first children lead to everything** if and only if no other child of a name leads to the
end. -/
theorem unambiguous_iff :
    T.Unambiguous start path ↔ ∀ d, T.Follows start path d → T.firstMatch start path = some d := by
  induction path generalizing start with
  | nil =>
    refine iff_of_true trivial fun d hd => ?_
    cases hd
    rfl
  | cons name path ih =>
    constructor
    · intro h d hd
      cases hd with
      | @cons _ c' _ _ _ hc' hname hrest =>
        obtain ⟨c, hchild⟩ := exists_namedChild hc' hname
        obtain ⟨hfirst, hothers⟩ := h c hchild
        rw [firstMatch, hchild, Option.bind_some]
        by_cases heq : c' = c
        · exact ih.1 hfirst d (heq ▸ hrest)
        · exact absurd hrest (hothers c' hc' hname heq d)
    · intro h c hchild
      obtain ⟨hc, hname⟩ := namedChild_mem hchild
      have hmatch : T.firstMatch start (name :: path) = T.firstMatch c path := by
        rw [firstMatch, hchild, Option.bind_some]
      refine ⟨ih.2 fun d hd => hmatch ▸ h d (.cons hc hname hd), fun c' hc' hname' hne d hd => ?_⟩
      have hfirst := h d (.cons hc' hname' hd)
      rw [hmatch] at hfirst
      exact hne (hd.start_unique (follows_of_firstMatch hfirst))

/-- **Resolving is complete** if and only if the path is unambiguous. -/
theorem resolves_iff : T.Resolves start path ↔ T.Unambiguous start path := by
  rw [unambiguous_iff]
  constructor
  · intro h d hd
    have hmem := (h.all.2 d).2 hd
    rwa [resolveAll_eq, List.nil_append, Option.mem_toList] at hmem
  · intro h
    have hset : {d | T.Follows start path d} = {d | d ∈ T.firstMatch start path} :=
      Set.ext fun d => ⟨h d, follows_of_firstMatch⟩
    have hnodup : (T.firstMatch start path).toList.Nodup := by
      cases T.firstMatch start path <;> simp
    refine ⟨?_, fun max hmax => ?_, ?_⟩
    · rw [resolveAll_eq, List.nil_append]
      exact ⟨hnodup, fun d => Option.mem_toList.trans ⟨follows_of_firstMatch, h d⟩⟩
    · rw [resolveAll_eq, List.nil_append, hset]
      refine ⟨hnodup, fun d hd => follows_of_firstMatch (Option.mem_toList.1 hd), ?_⟩
      cases T.firstMatch start path with
      | none => simp
      | some d =>
        have hsingle : {x | x ∈ some d} = ({d} : Set ι) := Set.ext fun x => by simp [eq_comm]
        rw [hsingle, Set.ncard_singleton]
        simp only [Option.toList_some, List.length_singleton]
        omega
    · rw [resolve, resolveAll_eq, List.nil_append]
      constructor
      · intro hsome
        obtain ⟨d, hd⟩ := Option.isSome_iff_exists.1 hsome
        cases hmatch : T.firstMatch start path with
        | none =>
          rw [hmatch] at hd
          exact nomatch hd
        | some e => exact ⟨e, follows_of_firstMatch hmatch⟩
      · rintro ⟨d, hd⟩
        rw [h d hd]
        rfl

/-- A namespace that is opened twice, with a function in its second part. -/
def reopened : NamedTree (Fin 4) where
  childrenHere d := if d = 0 then [1, 2] else if d = 2 then [3] else []
  nameHere d := if d = 0 then none else if d = 3 then some "f" else some "ns"
  nodup := by decide
  parent_unique := by decide

/-- **The function is not found.** -/
theorem not_resolves_reopened : ¬reopened.Resolves 0 ["ns", "f"] := by
  intro h
  have hsecond : reopened.Follows 2 ["f"] 3 := .cons (by decide) rfl (.nil 3)
  have hleads : reopened.Follows 0 ["ns", "f"] 3 := .cons (by decide) rfl hsecond
  have hempty : reopened.resolveAll 0 ["ns", "f"] [] 0 = [] := by decide
  have hmem := (h.all.2 3).2 hleads
  rw [hempty] at hmem
  exact List.not_mem_nil hmem

end NamedTree

end Dies
end Dwarfpp
