/-
# Structural equality through the cache

`type_die::equal` of `src/dies.cpp` with its cache: the equivalence classes found
so far, the class of each type that has one, and an index of the classes by
summary code (`include/dwarfpp/root.hpp`).  A positive answer puts both types in
one class, a negative one makes sure that they have one each; a type that needs a
class is first compared with the representatives of the classes of its summary
code.  These comparisons call `equal` again, so the classes grow while a
comparison is under way.
-/

import Mathlib
import Dwarfpp.Types.Equal

namespace Dwarfpp
namespace Types

open Lib

variable {ι : Type}

/-- `equivalence_classes`, `equivalence_class_of` and `equivalence_classes_by_summary_code`.  A
class is a set of offsets in increasing order, and known by its place in the list. -/
structure EqualityCache (ι : Type) where
  equivalenceClasses : List (List ι)
  equivalenceClassOf : ι → Option ℕ
  bySummaryCode : List (Option (BitVec 32) × ℕ)

/-- A root's tables before the first comparison. -/
def EqualityCache.empty : EqualityCache ι := ⟨[], fun _ => none, []⟩

/-- A computation that may throw and reads and writes the tables. -/
abbrev CacheM (ι : Type) := StateT (EqualityCache ι) (Except Fault)

section Tables

variable [LinearOrder ι]

/-- `set<Dwarf_Off>::insert`. -/
def insertOffset (x : ι) (offsets : List ι) : List ι :=
  if x ∈ offsets then offsets else offsets.orderedInsert (· ≤ ·) x

/-- The set of a class gets a further member. -/
def EqualityCache.insertInClass (s : EqualityCache ι) (c : ℕ) (x : ι) : EqualityCache ι :=
  { s with equivalenceClasses := s.equivalenceClasses.modify c (insertOffset x) }

/-- `equivalence_class_of.insert(make_pair(x, c))`, which does not overwrite. -/
def EqualityCache.insertClassOf (s : EqualityCache ι) (x : ι) (c : ℕ) : EqualityCache ι :=
  match s.equivalenceClassOf x with
  | some _ => s
  | none => { s with equivalenceClassOf := fun y => if y = x then some c else s.equivalenceClassOf y }

/-- A new class for a summary code, without members yet. -/
def EqualityCache.newClass (s : EqualityCache ι) (code : Option (BitVec 32)) : EqualityCache ι :=
  { s with
    equivalenceClasses := s.equivalenceClasses ++ [[]]
    bySummaryCode := s.bySummaryCode ++ [(code, s.equivalenceClasses.length)] }

end Tables

/-- `assert(p)`. -/
def cacheAssert (p : Prop) [Decidable p] : CacheM ι Unit := if p then pure () else throw .assertFailed

/-- `equiv_class_ptr(t1)`. -/
def equivClass (t1 : ι) : CacheM ι (Option ℕ) := do
  let s ← get
  return s.equivalenceClassOf t1

/-- `*(*eq_class)->begin()`. -/
def representative (c : ℕ) : CacheM ι ι := do
  let s ← get
  match s.equivalenceClasses[c]?.bind List.head? with
  | some rep => return rep
  | none => throw .undefinedBehaviour

section Comparison

variable [LinearOrder ι] (g : TypeGraph ι) (summaryCode : ι → Option (BitVec 32)) (fuel : ℕ)
variable (nocache : ι → ι → CacheM ι EqualResult)

/-- Whether a type is its own concrete type. -/
def isConcrete (t : ι) : CacheM ι Bool := do
  let c ← ofExcept (getConcreteType g fuel t)
  return c = some t

/-- What `check_cached_result` does before it answers that two types differ: where this surprises
it, it compares them again. -/
def surprise (self t : ι) : CacheM ι Unit := do
  if summaryCode self = summaryCode t ∧ (g self).tag ≠ .subprogram then
    if ← isConcrete g fuel self then
      if ← isConcrete g fuel t then
        if (g self).tag.cls = .withDataMembers then
          let _ ← nocache self t

/-- The lambda `check_cached_result(t1, t2)` in a comparison of `self` and `t`. -/
def checkCachedResult (self t t1 t2 : ι) : CacheM ι (Option Bool) := do
  let eqClassOfT1 ← equivClass t1
  let eqClassOfT2 ← equivClass t2
  match eqClassOfT1, eqClassOfT2 with
  | some c1, some c2 =>
    if c1 = c2 then return some true
    else
      let rep1 ← representative c1
      let rep2 ← representative c2
      if rep1 = rep2 then return some true
      else
        surprise g summaryCode fuel nocache self t
        return some false
  | _, _ => return none

/-- The loop of `find_or_create_eq_class`, from the `j`th class of the summary code on. -/
def findEqClass (newRep : ι) (code : Option (BitVec 32)) : ℕ → ℕ → CacheM ι (Option ℕ)
  | 0, _ => throw .outOfSteps
  | steps + 1, j => do
    let s ← get
    match (s.bySummaryCode.filter fun e => e.1 = code)[j]? with
    | none => return none
    | some (_, c) =>
      let rep ← representative c
      let r ← nocache rep newRep
      if r ≠ .unequal then
        modify fun s => s.insertInClass c newRep
        return some c
      else findEqClass newRep code steps (j + 1)

/-- The lambda `find_or_create_eq_class(new_rep, summary_code)`. -/
def findOrCreateEqClass (newRep : ι) (code : Option (BitVec 32)) : CacheM ι ℕ := do
  match ← findEqClass nocache newRep code fuel 0 with
  | some c => return c
  | none =>
    let s ← get
    modify fun s => s.newClass code
    return s.equivalenceClasses.length

/-- `find_or_create_eq_class`, and the type put in the class found. -/
def classify (x : ι) : CacheM ι Unit := do
  let c ← findOrCreateEqClass fuel nocache x (summaryCode x)
  modify fun s => (s.insertInClass c x).insertClassOf x c

/-- A positive result is recorded. -/
def cachePositive (self t : ι) (eqClassOfSelf eqClassOfT : Option ℕ) : CacheM ι Unit := do
  match eqClassOfT, eqClassOfSelf with
  | some _, some _ => throw .assertFailed
  | some c, none => modify fun s => (s.insertInClass c self).insertClassOf self c
  | none, some c => modify fun s => (s.insertInClass c t).insertClassOf t c
  | none, none =>
    let c ← findOrCreateEqClass fuel nocache self (summaryCode self)
    modify fun s =>
      (((s.insertInClass c t).insertInClass c self).insertClassOf self c).insertClassOf t c

/-- What recording a negative result does for one of the two types: a type without a class is put
in one, a class is passed to `maybe_fail_on`. -/
def ensureClass (eqClassOfSelf eqClassOfT : Option ℕ) (x : ι) (eqClassOfX : Option ℕ) :
    CacheM ι Unit :=
  match eqClassOfX with
  | none => classify summaryCode fuel nocache x
  | some c => cacheAssert (¬(eqClassOfSelf = some c ∧ eqClassOfT = some c))

/-- A negative result is recorded. -/
def cacheNegative (self t : ι) (eqClassOfSelf eqClassOfT : Option ℕ) : CacheM ι Unit := do
  ensureClass summaryCode fuel nocache eqClassOfSelf eqClassOfT t eqClassOfT
  ensureClass summaryCode fuel nocache eqClassOfSelf eqClassOfT self eqClassOfSelf

/-- A result is recorded, and read back. -/
def cacheResult (self t : ι) (ret : EqualResult) : CacheM ι Unit := do
  cacheAssert (self ≠ t)
  let eqClassOfT ← equivClass t
  let eqClassOfSelf ← equivClass self
  if ret ≠ .unequal then cachePositive summaryCode fuel nocache self t eqClassOfSelf eqClassOfT
  else cacheNegative summaryCode fuel nocache self t eqClassOfSelf eqClassOfT
  let cached1 ← checkCachedResult g summaryCode fuel nocache self t self t
  cacheAssert (cached1 = some (ret ≠ .unequal : Bool))
  let cached2 ← checkCachedResult g summaryCode fuel nocache self t t self
  cacheAssert (cached2 = some (ret ≠ .unequal : Bool))

/-- `equal` of two distinct types, from the first look at the cache on. -/
def equalThroughCache (self t : ι) : CacheM ι EqualResult := do
  match ← checkCachedResult g summaryCode fuel nocache self t self t with
  | some cached =>
    let reversed ← checkCachedResult g summaryCode fuel nocache self t t self
    cacheAssert (reversed = some cached)
    return .ofBool cached
  | none =>
    let ret ← if QuickTests g summaryCode self t then nocache self t else pure .unequal
    if ret = .equalByAssumption then return ret
    else
      match ← checkCachedResult g summaryCode fuel nocache self t self t with
      | some reChecked =>
        cacheAssert (reChecked = (ret ≠ .unequal : Bool))
        return ret
      | none =>
        cacheResult g summaryCode fuel nocache self t ret
        return ret

end Comparison

section Equal

variable [LinearOrder ι] (g : TypeGraph ι) (summaryCode : ι → Option (BitVec 32))

/-- `type_die::equal`, to a depth of at most `fuel` calls and with at most `fuel` classes of one
summary code.  The cache is consulted about `void` too, which has no root to look in. -/
def equalCached : ℕ → Compare (CacheM ι) ι
  | 0, _, _, _ => throw .outOfSteps
  | fuel + 1, self, t, asm =>
    if t = some self then return .equal
    else match t with
      | none => throw .assertFailed
      | some t =>
        if (self, t) ∈ asm ∨ (t, self) ∈ asm then return .equalByAssumption
        else
          equalThroughCache g summaryCode fuel
            (fun a b => equalNocache (mayEqual g fuel (equalCached fuel)) a b asm) self t

/-- A sequence of queries `t.equal(u, {})` on one root, with their answers. -/
def runQueries (fuel : ℕ) : List (ι × ι) → CacheM ι (List EqualResult)
  | [] => return []
  | (t, u) :: queries => do
    let r ← equalCached g summaryCode fuel t (some u) []
    let rs ← runQueries fuel queries
    return r :: rs

end Equal

end Types
end Dwarfpp
