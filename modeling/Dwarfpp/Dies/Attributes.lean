/-
# Attributes seen through references

`basic_die` of `src/root.cpp`: a DIE has attributes of its own, and others on whose
behalf it stands: those of its abstract origin, of the declaration it specifies
or, for a declaration, of its definition.  `find_attr` looks one attribute up along
these links, `find_all_attrs` merges whole maps.

The first follows abstract origins and definitions to any depth, the second one
link only.  A definition is found by its name and may refer back to the declaration,
so that the first need not end (`findAttr_declaredTwice`).  `findAttr_agrees_iff` says
when both answer, and answer the same.
-/

import Mathlib
import Dwarfpp.Basic
import Dwarfpp.Lib.Acyclic
import Dwarfpp.Lib.OrderedMap

namespace Dwarfpp
namespace Dies

open Lib

/-- An `attribute_value`.  The forms that the functions here look into are told apart. -/
inductive AttributeValue (ι α : Type)
  | flag (b : Bool)
  | string (s : String)
  | ref (target : ι)
  | other (a : α)
  deriving DecidableEq, Repr

/-- What a DIE is asked here.  `laterSiblings` are the siblings after it, in order. -/
structure Die (ι α : Type) where
  attrs : OrderedMap ℕ (AttributeValue ι α)
  withDataMembers : Bool
  depth : ℕ
  laterSiblings : List ι

/-- The DIEs of a root. -/
abbrev DieTree (ι α : Type) := ι → Die ι α

/-- `DW_AT_name`. -/
def dwAtName : ℕ := 0x03
/-- `DW_AT_abstract_origin`. -/
def dwAtAbstractOrigin : ℕ := 0x31
/-- `DW_AT_declaration`. -/
def dwAtDeclaration : ℕ := 0x3c
/-- `DW_AT_specification`. -/
def dwAtSpecification : ℕ := 0x47

section Lookup

variable {ι α : Type} (g : DieTree ι α)

/-- `attr(a)`, where `has_attr(a)`. -/
def attr (d : ι) (a : ℕ) : Option (AttributeValue ι α) := (g d).attrs.find a

/-- `get_name()`. -/
def getName (d : ι) : Option String :=
  match attr g d dwAtName with
  | some (.string s) => some s
  | _ => none

/-- `get_declaration()`. -/
def getDeclaration (d : ι) : Option Bool :=
  match attr g d dwAtDeclaration with
  | some (.flag b) => some b
  | _ => none

/-- `attribute_value::get_refiter()`. -/
def AttributeValue.getRefiter : AttributeValue ι α → Except Fault ι
  | .ref target => .ok target
  | _ => .error .assertFailed

/-- `find_definition()`: the first sibling further on of that name that is no declaration. -/
def findDefinition (d : ι) : Option ι :=
  if (g d).withDataMembers ∧ getDeclaration g d = some true then
    match getName g d with
    | none => none
    | some name =>
      if (g d).depth ≠ 2 then none
      else (g d).laterSiblings.find? fun s =>
        (g s).withDataMembers ∧ getName g s = some name ∧ getDeclaration g s ≠ some true
  else some d

/-- `left_merge_attrs`. -/
def leftMergeAttrs (m arg : OrderedMap ℕ (AttributeValue ι α)) :
    OrderedMap ℕ (AttributeValue ι α) :=
  arg.entries.foldl (fun m e => if m.find e.1 = none then m.insert e.1 e.2 else m) m

/-- `find_all_attrs()`. -/
def findAllAttrs (d : ι) : Except Fault (OrderedMap ℕ (AttributeValue ι α)) :=
  match attr g d dwAtAbstractOrigin with
  | some v => do
    let origin ← v.getRefiter
    return leftMergeAttrs (g d).attrs (g origin).attrs
  | none =>
    match attr g d dwAtSpecification with
    | some v => do
      let decl ← v.getRefiter
      return leftMergeAttrs (g d).attrs (g decl).attrs
    | none =>
      if attr g d dwAtDeclaration ≠ none then
        match findDefinition g d with
        | some found => .ok (leftMergeAttrs (g d).attrs (g found).attrs)
        | none => .ok (g d).attrs
      else .ok (g d).attrs

variable [DecidableEq ι]

/-- `find_attr(a)`, through at most `fuel` DIEs. -/
def findAttr : ℕ → ι → ℕ → Except Fault (Option (AttributeValue ι α))
  | 0, _, _ => .error .outOfSteps
  | fuel + 1, d, a =>
    match attr g d a with
    | some v => .ok (some v)
    | none =>
      match attr g d dwAtAbstractOrigin with
      | some v => do
        let origin ← v.getRefiter
        findAttr fuel origin a
      | none =>
        match attr g d dwAtSpecification with
        | some v => do
          let decl ← v.getRefiter
          return attr g decl a
        | none =>
          if attr g d dwAtDeclaration ≠ none then
            match findDefinition g d with
            | some found => if found ≠ d then findAttr fuel found a else .ok none
            | none => .ok none
          else .ok none

end Lookup

section Merge

variable {ι α : Type}

theorem find_leftMergeAttrs (m arg : OrderedMap ℕ (AttributeValue ι α)) (k : ℕ) :
    (leftMergeAttrs m arg).find k = (m.find k).or (arg.find k) := by
  rw [leftMergeAttrs, OrderedMap.find.eq_def arg]
  generalize arg.entries = l
  induction l generalizing m with
  | nil => simp [findEntry]
  | cons e l ih =>
    rw [List.foldl_cons, ih, findEntry]
    split_ifs with hm hk hk
    · rw [OrderedMap.find_insert, if_pos hk, hk, hm]
      rfl
    · rw [OrderedMap.find_insert, if_neg hk]
    · obtain ⟨v, hv⟩ := Option.ne_none_iff_exists'.1 hm
      rw [hk, hv]
      rfl
    · rfl

end Merge

section Links

variable {ι α : Type} (g : DieTree ι α)

/-- A DIE whose attributes the attributes of `d` come from as well.  The lookup goes on from an
abstract origin and from a definition, and not from the declaration that `d` specifies. -/
inductive Link (d : ι) : Bool → ι → Prop
  | origin (e : ι) : attr g d dwAtAbstractOrigin = some (.ref e) → Link d true e
  | specification (e : ι) : attr g d dwAtAbstractOrigin = none →
      attr g d dwAtSpecification = some (.ref e) → Link d false e
  | definition (e : ι) : attr g d dwAtAbstractOrigin = none → attr g d dwAtSpecification = none →
      attr g d dwAtDeclaration ≠ none → findDefinition g d = some e → e ≠ d → Link d true e

/-- The chain of DIEs from `d` on, with their distance. -/
inductive Chain : ι → ℕ → ι → Prop
  | here (d : ι) : Chain d 0 d
  | step {d e x : ι} {b : Bool} {n : ℕ} : Link g d b e → Chain e n x → Chain d (n + 1) x

/-- The DIEs that the lookup of an attribute goes through. -/
inductive Consulted : ι → ι → Prop
  | here (d : ι) : Consulted d d
  | last {d e : ι} : Link g d false e → Consulted d e
  | step {d e x : ι} : Link g d true e → Consulted e x → Consulted d x

/-- The attributes that refer to an origin or a declaration are of the form of references. -/
structure WellLinked : Prop where
  origins : ∀ d v, attr g d dwAtAbstractOrigin = some v → ∃ e, v = .ref e
  specifications : ∀ d v, attr g d dwAtSpecification = some v → ∃ e, v = .ref e

/-- A reference to an abstract origin or to the declaration that is specified. -/
def RefersTo (d e : ι) : Prop :=
  attr g d dwAtAbstractOrigin = some (.ref e) ∨ attr g d dwAtSpecification = some (.ref e)

/-- The lookup of an attribute that `d` has not goes on at `e`. -/
def GoesOn (a : ℕ) (d e : ι) : Prop := attr g d a = none ∧ Link g d true e

/-- The lookup of an attribute from `d` on comes to no DIE again. -/
def LookupEnds (d : ι) (a : ℕ) : Prop :=
  ∀ e, Relation.ReflTransGen (GoesOn g a) d e → ¬Relation.TransGen (GoesOn g a) e e

/-- The value of the attribute nearest to `d` along the chain. -/
def Nearest (d : ι) (a : ℕ) (v : AttributeValue ι α) : Prop :=
  ∃ n x, Chain g d n x ∧ attr g x a = some v ∧ ∀ m y, m < n → Chain g d m y → attr g y a = none

/-- The first two DIEs of the chain have the attribute if any that is consulted does. -/
def FoundWithinOneLink (d : ι) (a : ℕ) : Prop :=
  (∃ x, Consulted g d x ∧ attr g x a ≠ none) →
    attr g d a ≠ none ∨ ∃ b e, Link g d b e ∧ attr g e a ≠ none

variable {g}

theorem Link.unique {d e e' : ι} {b b' : Bool} (h : Link g d b e) (h' : Link g d b' e') :
    b = b' ∧ e = e' := by
  cases h with
  | origin _ ho =>
    cases h' with
    | origin _ ho' =>
      rw [ho] at ho'
      cases ho'
      exact ⟨rfl, rfl⟩
    | specification _ hn | definition _ hn => simp [ho] at hn
  | specification _ hn hs =>
    cases h' with
    | origin _ ho' => simp [hn] at ho'
    | specification _ _ hs' =>
      rw [hs] at hs'
      cases hs'
      exact ⟨rfl, rfl⟩
    | definition _ _ hs' => simp [hs] at hs'
  | definition _ hn hs _ hf =>
    cases h' with
    | origin _ ho' => simp [hn] at ho'
    | specification _ _ hs' => simp [hs] at hs'
    | definition _ _ _ _ hf' =>
      rw [hf] at hf'
      cases hf'
      exact ⟨rfl, rfl⟩

theorem Chain.eq_of_zero {d x : ι} (h : Chain g d 0 x) : x = d := by
  cases h
  rfl

theorem Chain.of_link {d e x : ι} {b : Bool} {n : ℕ} (h : Chain g d (n + 1) x) (he : Link g d b e) :
    Chain g e n x := by
  cases h with
  | step he' h =>
    obtain ⟨-, rfl⟩ := he.unique he'
    exact h

theorem LookupEnds.of_not_goesOn {d : ι} {a : ℕ} (h : ∀ e, ¬GoesOn g a d e) :
    LookupEnds g d a := by
  intro e he hcycle
  obtain rfl : e = d := by
    rcases Relation.ReflTransGen.cases_head he with heq | ⟨f, hf, -⟩
    · exact heq.symm
    · exact absurd hf (h f)
  obtain ⟨f, hf, -⟩ := Relation.TransGen.head'_iff.1 hcycle
  exact h f hf

theorem LookupEnds.of_goesOn {d e : ι} {a : ℕ} (hd : GoesOn g a d e) (h : LookupEnds g e a) :
    LookupEnds g d a := by
  have hunique : ∀ f, GoesOn g a d f → f = e := fun f hf => (hf.2.unique hd.2).2
  intro x hx hcycle
  rcases Relation.ReflTransGen.cases_head hx with rfl | ⟨f, hf, hx⟩
  · -- a cycle through `d` goes through `e` next, and from there to `d`
    obtain ⟨f, hf, hback⟩ := Relation.TransGen.head'_iff.1 hcycle
    obtain rfl := hunique f hf
    exact h d hback hcycle
  · obtain rfl := hunique f hf
    exact h x hx hcycle

/-- Where the lookup comes to no DIE again, it counts down. -/
theorem LookupEnds.exists_rank [Finite ι] {d : ι} {a : ℕ} (h : LookupEnds g d a) :
    ∃ rank : ι → ℕ, ∀ e f, Relation.ReflTransGen (GoesOn g a) d e → GoesOn g a e f →
      rank f < rank e := by
  have hacyclic : ∀ e, ¬Relation.TransGen
      (fun e f => Relation.ReflTransGen (GoesOn g a) d e ∧ GoesOn g a e f) e e := by
    intro e he
    obtain ⟨f, ⟨hreach, -⟩, -⟩ := Relation.TransGen.head'_iff.1 he
    exact h e hreach (Relation.TransGen.mono (fun _ _ hxy => hxy.2) e e he)
  obtain ⟨rank, hrank⟩ := Lib.exists_rank hacyclic
  exact ⟨rank, fun e f he hf => hrank e f ⟨he, hf⟩⟩

theorem nearest_self {d : ι} {a : ℕ} {v : AttributeValue ι α} (h : attr g d a = some v) :
    Nearest g d a v :=
  ⟨0, d, .here d, h, fun m _ hm => absurd hm (Nat.not_lt_zero m)⟩

theorem nearest_link {d e : ι} {a : ℕ} {b : Bool} {v : AttributeValue ι α} (hd : attr g d a = none)
    (he : Link g d b e) (hv : attr g e a = some v) : Nearest g d a v := by
  refine ⟨1, e, .step he (.here e), hv, fun m y hm hy => ?_⟩
  obtain rfl : m = 0 := by omega
  rw [hy.eq_of_zero, hd]

/-- Without a link only the DIE itself is consulted. -/
theorem exists_consulted_of_not_link {d : ι} {a : ℕ} (hlink : ∀ b e, ¬Link g d b e) :
    (∃ x, Consulted g d x ∧ attr g x a ≠ none) ↔ attr g d a ≠ none := by
  refine ⟨?_, fun hv => ⟨d, .here d, hv⟩⟩
  rintro ⟨x, hx, hv⟩
  cases hx with
  | here => exact hv
  | last he => exact absurd he (hlink _ _)
  | step he => exact absurd he (hlink _ _)

theorem or_ne_none_iff_of_link {d e : ι} {b : Bool} {a : ℕ} (he : Link g d b e) :
    (attr g d a).or (attr g e a) ≠ none ↔
      attr g d a ≠ none ∨ ∃ b e, Link g d b e ∧ attr g e a ≠ none := by
  rw [ne_eq, Option.or_eq_none_iff, not_and_or]
  refine or_congr_right ⟨fun hv => ⟨b, e, he, hv⟩, ?_⟩
  rintro ⟨b', e', he', hv⟩
  obtain ⟨-, rfl⟩ := he.unique he'
  exact hv

/-- The DIE and the one it links to are consulted. -/
theorem exists_consulted_of_link {d e : ι} {b : Bool} {a : ℕ} (he : Link g d b e)
    (h : (attr g d a).or (attr g e a) ≠ none) : ∃ x, Consulted g d x ∧ attr g x a ≠ none := by
  rw [ne_eq, Option.or_eq_none_iff, not_and_or] at h
  rcases h with hd | hv
  · exact ⟨d, .here d, hd⟩
  · cases b with
    | false => exact ⟨e, .last he, hv⟩
    | true => exact ⟨e, .step he (.here e), hv⟩

/-- The value nearest to `d`, if it is at one of the first two DIEs of the chain, is what the map of
the two has. -/
theorem Nearest.or_eq_some {d e : ι} {b : Bool} {a : ℕ} {v : AttributeValue ι α}
    (h : Nearest g d a v) (he : Link g d b e) (hone : (attr g d a).or (attr g e a) ≠ none) :
    (attr g d a).or (attr g e a) = some v := by
  obtain ⟨n, x, hx, hxv, hbefore⟩ := h
  rcases n with - | - | n
  · rw [hx.eq_of_zero] at hxv
    rw [hxv, Option.some_or]
  · rw [(hx.of_link he).eq_of_zero] at hxv
    rw [hbefore 0 d (Nat.lt_succ_self _) (.here d), Option.none_or, hxv]
  · have hd := hbefore 0 d (by omega) (.here d)
    have hnone := hbefore 1 e (by omega) (.step he (.here e))
    rw [hd, hnone] at hone
    exact absurd rfl hone

end Links

section Agreement

variable {ι α : Type} {g : DieTree ι α} [DecidableEq ι]

/-- How the lookup goes on where a DIE has not the attribute itself. -/
theorem findAttr_of_link {d e : ι} {a : ℕ} {b : Bool} (hd : attr g d a = none) (he : Link g d b e)
    (fuel : ℕ) :
    findAttr g (fuel + 1) d a = if b then findAttr g fuel e a else .ok (attr g e a) := by
  rw [findAttr, hd]
  cases he with
  | origin _ ho =>
    rw [ho]
    rfl
  | specification _ hn hs =>
    rw [hn, hs]
    rfl
  | definition _ hn hs hdecl hf hne =>
    rw [hn, hs, hf]
    simp [hdecl, hne]

theorem findAttr_of_not_link (h : WellLinked g) {d : ι} {a : ℕ} (hd : attr g d a = none)
    (hlink : ∀ b e, ¬Link g d b e) (fuel : ℕ) : findAttr g (fuel + 1) d a = .ok none := by
  rw [findAttr, hd]
  cases ho : attr g d dwAtAbstractOrigin with
  | some v =>
    obtain ⟨e, rfl⟩ := h.origins d v ho
    exact absurd (.origin e ho) (hlink true e)
  | none =>
    cases hs : attr g d dwAtSpecification with
    | some v =>
      obtain ⟨e, rfl⟩ := h.specifications d v hs
      exact absurd (.specification e ho hs) (hlink false e)
    | none =>
      dsimp only
      split_ifs with hdecl
      · cases hf : findDefinition g d with
        | none => rfl
        | some e =>
          by_cases hne : e = d
          · simp [hne]
          · exact absurd (.definition e ho hs hdecl hf hne) (hlink true e)
      · rfl

omit [DecidableEq ι] in
/-- What the merged map holds. -/
theorem findAllAttrs_of_link {d e : ι} {b : Bool} (he : Link g d b e) :
    ∃ m, findAllAttrs g d = .ok m ∧ ∀ a, m.find a = (attr g d a).or (attr g e a) := by
  refine ⟨leftMergeAttrs (g d).attrs (g e).attrs, ?_, find_leftMergeAttrs _ _⟩
  rw [findAllAttrs]
  cases he with
  | origin _ ho =>
    rw [ho]
    rfl
  | specification _ hn hs =>
    rw [hn, hs]
    rfl
  | definition _ hn hs hdecl hf =>
    rw [hn, hs, hf]
    simp [hdecl]

omit [DecidableEq ι] in
theorem findAllAttrs_of_not_link (h : WellLinked g) {d : ι} (hlink : ∀ b e, ¬Link g d b e) :
    ∃ m, findAllAttrs g d = .ok m ∧ ∀ a, m.find a = attr g d a := by
  rw [findAllAttrs]
  cases ho : attr g d dwAtAbstractOrigin with
  | some v =>
    obtain ⟨e, rfl⟩ := h.origins d v ho
    exact absurd (.origin e ho) (hlink true e)
  | none =>
    cases hs : attr g d dwAtSpecification with
    | some v =>
      obtain ⟨e, rfl⟩ := h.specifications d v hs
      exact absurd (.specification e ho hs) (hlink false e)
    | none =>
      dsimp only
      split_ifs with hdecl
      · cases hf : findDefinition g d with
        | none => exact ⟨_, rfl, fun _ => rfl⟩
        | some e =>
          by_cases hne : e = d
          · subst hne
            refine ⟨_, rfl, fun a => ?_⟩
            rw [find_leftMergeAttrs]
            exact Option.or_self
          · exact absurd (.definition e ho hs hdecl hf hne) (hlink true e)
      · exact ⟨_, rfl, fun _ => rfl⟩

/-- **The lookup** returns, and finds a value exactly if some DIE it consults has one; the value is
then the nearest. -/
theorem findAttr_returns (h : WellLinked g) {rank : ι → ℕ} {a fuel : ℕ} {d : ι}
    (hrank : ∀ e f, Relation.ReflTransGen (GoesOn g a) d e → GoesOn g a e f → rank f < rank e)
    (hfuel : rank d < fuel) :
    ∃ r, findAttr g fuel d a = .ok r ∧ (r ≠ none ↔ ∃ x, Consulted g d x ∧ attr g x a ≠ none) ∧
      ∀ v, r = some v → Nearest g d a v := by
  induction fuel generalizing d with
  | zero => omega
  | succ fuel ih =>
    cases hd : attr g d a with
    | some v =>
      refine ⟨some v, by rw [findAttr, hd], iff_of_true (Option.some_ne_none v)
        ⟨d, .here d, by rw [hd]; exact Option.some_ne_none v⟩, fun w hw => ?_⟩
      obtain rfl := Option.some.inj hw
      exact nearest_self hd
    | none =>
      by_cases hlink : ∃ b e, Link g d b e
      · obtain ⟨b, e, he⟩ := hlink
        rw [findAttr_of_link hd he]
        cases b with
        | false =>
          refine ⟨attr g e a, rfl, ⟨fun hv => ⟨e, .last he, hv⟩, ?_⟩,
            fun v hv => nearest_link hd he hv⟩
          rintro ⟨x, hx, hv⟩
          cases hx with
          | here => exact absurd hd hv
          | last he' =>
            obtain ⟨-, rfl⟩ := he.unique he'
            exact hv
          | step he' => exact absurd (he.unique he').1 Bool.false_ne_true
        | true =>
          have hlt := hrank d e .refl ⟨hd, he⟩
          have hrank' : ∀ f f', Relation.ReflTransGen (GoesOn g a) e f → GoesOn g a f f' →
              rank f' < rank f := fun f f' hf => hrank f f' (.head ⟨hd, he⟩ hf)
          obtain ⟨r, hr, hiff, hnear⟩ := ih hrank' (by omega)
          refine ⟨r, by simpa using hr, hiff.trans ⟨?_, ?_⟩, fun v hv => ?_⟩
          · rintro ⟨x, hx, hv⟩
            exact ⟨x, .step he hx, hv⟩
          · rintro ⟨x, hx, hv⟩
            cases hx with
            | here => exact absurd hd hv
            | last he' => exact absurd (he'.unique he).1 Bool.false_ne_true
            | step he' hx =>
              obtain ⟨-, rfl⟩ := he.unique he'
              exact ⟨x, hx, hv⟩
          · obtain ⟨n, x, hx, hxv, hbefore⟩ := hnear v hv
            refine ⟨n + 1, x, .step he hx, hxv, fun m y hm hy => ?_⟩
            cases m with
            | zero => rw [hy.eq_of_zero, hd]
            | succ m => exact hbefore m y (by omega) (hy.of_link he)
      · have hlink' : ∀ b e, ¬Link g d b e := fun b e he => hlink ⟨b, e, he⟩
        refine ⟨none, findAttr_of_not_link h hd hlink' fuel, iff_of_false (fun hn => hn rfl) ?_, nofun⟩
        rintro ⟨x, hx, hv⟩
        cases hx with
        | here => exact hv hd
        | last he => exact hlink' _ _ he
        | step he => exact hlink' _ _ he

/-- A lookup that returned has come to no DIE twice. -/
theorem lookupEnds_of_findAttr {fuel : ℕ} {d : ι} {a : ℕ} {r : Option (AttributeValue ι α)}
    (hr : findAttr g fuel d a = .ok r) : LookupEnds g d a := by
  induction fuel generalizing d with
  | zero => cases hr
  | succ fuel ih =>
    by_cases hgoes : ∃ e, GoesOn g a d e
    · obtain ⟨e, hd, he⟩ := hgoes
      rw [findAttr_of_link hd he, if_pos rfl] at hr
      exact .of_goesOn ⟨hd, he⟩ (ih hr)
    · exact .of_not_goesOn fun e he => hgoes ⟨e, he⟩

/-- `find_attr` terminates, has a value exactly if the map of `find_all_attrs` has one, and this is
the same value, the nearest along the chain. -/
def LookupsAgree (g : DieTree ι α) (d : ι) (a : ℕ) : Prop :=
  ∃ n, ∀ fuel, n < fuel → ∃ r m, findAttr g fuel d a = .ok r ∧ findAllAttrs g d = .ok m ∧
    (r ≠ none ↔ m.find a ≠ none) ∧ ∀ v, r = some v → m.find a = some v ∧ Nearest g d a v

/-- Where there is no link, both lookups have what `d` has. -/
theorem LookupEnds.lookupsAgree_of_not_link [Finite ι] (h : WellLinked g) {d : ι} {a : ℕ}
    (hends : LookupEnds g d a) (hlink : ∀ b e, ¬Link g d b e) : LookupsAgree g d a := by
  obtain ⟨rank, hrank⟩ := hends.exists_rank
  obtain ⟨m, hm, hfind⟩ := findAllAttrs_of_not_link h hlink
  refine ⟨rank d, fun fuel hfuel => ?_⟩
  obtain ⟨r, hr, hiff, hnearest⟩ := findAttr_returns h hrank hfuel
  refine ⟨r, m, hr, hm, ?_, fun v hv => ⟨?_, hnearest v hv⟩⟩
  · rw [hfind a]
    exact hiff.trans (exists_consulted_of_not_link hlink)
  · obtain ⟨n, x, hx, hxv, -⟩ := hnearest v hv
    cases hx with
    | here => rw [hfind a, hxv]
    | step he => exact absurd he (hlink _ _)

/-- A lookup that ends agrees with the map exactly if one of the first two DIEs of the chain has the
attribute, or none of those `find_attr` consults. -/
theorem LookupEnds.lookupsAgree_iff [Finite ι] (h : WellLinked g) {d : ι} {a : ℕ}
    (hends : LookupEnds g d a) : LookupsAgree g d a ↔ FoundWithinOneLink g d a := by
  by_cases hlink : ∃ b e, Link g d b e
  · obtain ⟨b, e, he⟩ := hlink
    obtain ⟨rank, hrank⟩ := hends.exists_rank
    obtain ⟨m, hm, hfind⟩ := findAllAttrs_of_link he
    rw [FoundWithinOneLink, ← or_ne_none_iff_of_link he, ← hfind a]
    constructor
    · rintro ⟨n, hn⟩ hconsulted
      obtain ⟨r, m', hr, hm', hiff, -⟩ := hn (n + rank d + 1) (by omega)
      obtain ⟨r', hr', hiff', -⟩ := findAttr_returns h hrank (by omega : rank d < n + rank d + 1)
      obtain rfl := Except.ok.inj (hr.symm.trans hr')
      obtain rfl := Except.ok.inj (hm.symm.trans hm')
      exact hiff.1 (hiff'.2 hconsulted)
    · intro hnear
      refine ⟨rank d, fun fuel hfuel => ?_⟩
      obtain ⟨r, hr, hiff, hnearest⟩ := findAttr_returns h hrank hfuel
      have hmerge : r ≠ none ↔ m.find a ≠ none := by
        refine hiff.trans ⟨hnear, fun hv => ?_⟩
        rw [hfind a] at hv
        exact exists_consulted_of_link he hv
      refine ⟨r, m, hr, hm, hmerge, fun v hv => ⟨?_, hnearest v hv⟩⟩
      rw [hfind a]
      refine (hnearest v hv).or_eq_some he ?_
      rw [← hfind a]
      exact hmerge.1 (by rw [hv]; exact Option.some_ne_none v)
  · have hlink' : ∀ b e, ¬Link g d b e := fun b e he => hlink ⟨b, e, he⟩
    exact iff_of_true (hends.lookupsAgree_of_not_link h hlink') fun hx =>
      .inl ((exists_consulted_of_not_link hlink').1 hx)

/-- **When both lookups agree.**  They do on an attribute exactly if the lookup comes to no DIE
again, and one of the first two DIEs of the chain has the attribute or none of those `find_attr`
consults. -/
theorem findAttr_agrees_iff [Finite ι] (g : DieTree ι α) (h : WellLinked g) (d : ι) (a : ℕ) :
    LookupsAgree g d a ↔ LookupEnds g d a ∧ FoundWithinOneLink g d a := by
  constructor
  · intro hagree
    obtain ⟨n, hn⟩ := hagree
    obtain ⟨r, m, hr, -⟩ := hn (n + 1) (by omega)
    have hends := lookupEnds_of_findAttr hr
    exact ⟨hends, (hends.lookupsAgree_iff h).1 ⟨n, hn⟩⟩
  · rintro ⟨hends, hnear⟩
    exact (hends.lookupsAgree_iff h).2 hnear

end Agreement

section Examples

/-- The map with one attribute. -/
def oneAttr (a : ℕ) (v : AttributeValue (Fin 3) Empty) : OrderedMap ℕ (AttributeValue (Fin 3) Empty) :=
  OrderedMap.empty.insert a v

/-- An inlined instance of a member function: its abstract origin specifies the declaration, which
alone has the name. -/
def inlinedMember (d : Fin 3) : Die (Fin 3) Empty :=
  match d with
  | 0 => ⟨oneAttr dwAtAbstractOrigin (.ref 1), false, 3, []⟩
  | 1 => ⟨oneAttr dwAtSpecification (.ref 2), false, 2, []⟩
  | 2 => ⟨oneAttr dwAtName (.string "f"), false, 3, []⟩

theorem inlinedMember_wellLinked : WellLinked inlinedMember where
  origins d v h := by
    have hall : ∀ d : Fin 3, attr inlinedMember d dwAtAbstractOrigin =
        if d = 0 then some (.ref 1) else none := by decide
    rw [hall] at h
    split_ifs at h
    exact ⟨1, (Option.some.inj h).symm⟩
  specifications d v h := by
    have hall : ∀ d : Fin 3, attr inlinedMember d dwAtSpecification =
        if d = 1 then some (.ref 2) else none := by decide
    rw [hall] at h
    split_ifs at h
    exact ⟨2, (Option.some.inj h).symm⟩

theorem inlinedMember_acyclic : ∀ d, ¬Relation.TransGen (RefersTo inlinedMember) d d := by
  have hdown : ∀ d e : Fin 3, attr inlinedMember d dwAtAbstractOrigin = some (.ref e) ∨
      attr inlinedMember d dwAtSpecification = some (.ref e) → 3 - e.val < 3 - d.val := by decide
  exact acyclic_of_rank (fun d => 3 - d.val) hdown

/-- `findAttr_agrees_iff` where both lookups agree. -/
theorem findAttr_agrees_abstract : LookupsAgree inlinedMember 1 dwAtName ↔
    LookupEnds inlinedMember 1 dwAtName ∧ FoundWithinOneLink inlinedMember 1 dwAtName :=
  findAttr_agrees_iff inlinedMember inlinedMember_wellLinked 1 dwAtName

/-- **The name of an inlined member function** is found by `find_attr` and missing from the map of
`find_all_attrs`. -/
theorem findAttr_inlinedMember :
    WellLinked inlinedMember ∧ (∀ d, ¬Relation.TransGen (RefersTo inlinedMember) d d) ∧
      ¬∀ d a, LookupsAgree inlinedMember d a := by
  refine ⟨inlinedMember_wellLinked, inlinedMember_acyclic, fun h => ?_⟩
  obtain ⟨n, hn⟩ := h 0 dwAtName
  obtain ⟨r, m, hr, hm, hiff, -⟩ := hn (n + 2) (by omega)
  have hfound : findAttr inlinedMember (n + 2) 0 dwAtName = .ok (some (.string "f")) := rfl
  obtain rfl := Except.ok.inj (hfound.symm.trans hr)
  have hall : (findAllAttrs inlinedMember 0).toOption.map (·.find dwAtName) = some none := by decide
  rw [hm] at hall
  exact hiff.1 (Option.some_ne_none _) (Option.some.inj hall)

/-- Two structures `X` of one unit: a declaration, and a definition whose abstract origin is the
declaration. -/
def declaredTwice (d : Bool) : Die Bool Empty :=
  let named := OrderedMap.empty.insert dwAtName (.string "X")
  if d then ⟨named.insert dwAtAbstractOrigin (.ref false), true, 2, []⟩
  else ⟨named.insert dwAtDeclaration (.flag true), true, 2, [true]⟩

/-- **The lookup between a declaration and a definition that refers to it** does not end, although
the references form no cycle: the first DIE leads to the second by its name. -/
theorem findAttr_declaredTwice {a : ℕ} (ha : ∀ d, attr declaredTwice d a = none) (fuel : ℕ)
    (d : Bool) : findAttr declaredTwice fuel d a = .error .outOfSteps := by
  induction fuel generalizing d with
  | zero => rfl
  | succ fuel ih =>
    have hdeclaration : Link declaredTwice false true true :=
      .definition true (by decide) (by decide) (by decide) (by decide) (by decide)
    have hdefinition : Link declaredTwice true true false := .origin false (by decide)
    cases d with
    | false => rw [findAttr_of_link (ha false) hdeclaration, if_pos rfl, ih]
    | true => rw [findAttr_of_link (ha true) hdefinition, if_pos rfl, ih]

end Examples

end Dies
end Dwarfpp
