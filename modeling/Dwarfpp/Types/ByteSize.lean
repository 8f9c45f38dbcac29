/-
# Byte sizes

`calculate_byte_size()` of `src/dies.cpp`, which a DIE's class overrides: the size of a typedef is
that of its concrete type, the size of an array the number of its elements times the size of one,
and a structure has the size that its DIE says, unless a member's type has none.

It has a size to return exactly for the types that are built up from types that have one
(`calculateByteSize_some_iff`), and returns at all exactly if the types it goes through come to an
end and all are there (`calculateByteSize_returns_iff`).  The size of nested arrays is what
`ultimate_element_count()` and `ultimate_element_type()` make it (`calculateByteSize_array`).

A typedef or a qualified type of `void` has no size to return: the offset that it compares its own
with is asserted to be a DIE's.
-/

import Dwarfpp.Lib.Conjunction
import Dwarfpp.Types.SummaryLinks

namespace Dwarfpp
namespace Types

open Lib Relation

variable {ι : Type}

/-- The size that a DIE tells by itself, by the overrides that look at no other type. -/
def TypeDie.ownByteSize (d : TypeDie ι) : Option ℕ :=
  match d.tag with
  | .baseType => d.baseByteSize
  | .stringType => d.fixedLengthInBytes
  | .pointerType | .referenceType | .rvalueReferenceType => some d.addressByteSize
  | _ => d.byteSize

section Sizes

variable (g : TypeGraph ι)

/-- The loop of `structure_type_die::calculate_byte_size()`: whether the type of every member has a
size. -/
def membersHaveSizes (size : Option ι → Except Fault (Option ℕ)) :
    List (DataMember ι) → Except Fault Bool
  | [] => .ok true
  | m :: ms => do
    match ← size m.type with
    | none => return false
    | some _ => membersHaveSizes size ms

/-- `calculate_byte_size()`.  There is none to call for `void`. -/
def calculateByteSize : ℕ → Option ι → Except Fault (Option ℕ)
  | 0, _ => .error .outOfSteps
  | _ + 1, none => .error .assertFailed
  | fuel + 1, some t =>
    if (g t).tag.chains then do
      let nextType ← getConcreteType g fuel t
      calculateByteSize fuel nextType
    else
      match (g t).tag with
      | .arrayType => do
        assert ((g t).type.isSome)
        let count ← elementCount g t
        let calculatedByteSize ← calculateByteSize fuel (g t).type
        match count, calculatedByteSize with
        | some count, some size => return some (count * size % 2 ^ 64)
        | _, _ => return none
      | .structureType => do
        if ← membersHaveSizes (calculateByteSize fuel) (g t).members then return (g t).ownByteSize
        else return none
      | _ => .ok (g t).ownByteSize

/-- The types that have a size. -/
inductive HasSize : Option ι → Prop
  | chain {t : ι} {o : Option ι} (chains : (g t).tag.chains = true) (concrete : HasConcrete g t o)
      (size : HasSize o) : HasSize (some t)
  | array {t : ι} {n : ℕ} (tag : (g t).tag = .arrayType) (count : elementCount g t = .ok (some n))
      (size : HasSize (g t).type) : HasSize (some t)
  | own {t : ι} (chains : (g t).tag.chains = false) (tag : (g t).tag ≠ .arrayType)
      (members : (g t).tag = .structureType → ∀ m ∈ (g t).members, HasSize m.type)
      (size : (g t).ownByteSize.isSome = true) : HasSize (some t)

/-- A type's size asks for the size of another, or of `void`: that of its concrete type, of its
element type, or of the type of a member behind members with sizes. -/
def SizeLink (t : ι) (o : Option ι) : Prop :=
  if (g t).tag.chains then HasConcrete g t o
  else
    match (g t).tag with
    | .arrayType => (g t).type = o
    | .structureType => ∃ before m after, (g t).members = before ++ m :: after ∧
        (∀ m' ∈ before, HasSize g m'.type) ∧ m.type = o
    | _ => False

/-- What a type's size takes for granted: that its chain comes to an end, and that what it asks for
is no size of `void`. -/
def SizeChecked (t : ι) : Prop :=
  ((g t).tag.chains = true → ∃ o, HasConcrete g t o) ∧ ¬SizeLink g t none

end Sizes

section Conjunction

variable (g : TypeGraph ι)

/-- Whether a type has a size. -/
def hasByteSize (fuel : ℕ) (o : Option ι) : Except Fault Bool := do
  let size ← calculateByteSize g fuel o
  return size.isSome

/-- What has to hold for a type to have a size. -/
def sizeChecks (fuel : ℕ) : Option ι → Except Fault (List (Check (Option ι)))
  | none => .error .assertFailed
  | some t =>
    if (g t).tag.chains then do
      let nextType ← getConcreteType g fuel t
      return [.call nextType]
    else
      match (g t).tag with
      | .arrayType => do
        let count ← elementCount g t
        return [.call (g t).type, .decided count.isSome]
      | .structureType =>
        .ok ((g t).members.map (fun m => .call m.type) ++ [.decided (g t).ownByteSize.isSome])
      | _ => .ok [.decided (g t).ownByteSize.isSome]

variable {g} {fuel : ℕ} {t : ι} {o : Option ι}

/-- A structure has a size if its members have and it is told. -/
theorem hasByteSize_members (fuel : ℕ) (ms : List (DataMember ι)) (own : Option ℕ) :
    (do
      let size ← (do
        if ← membersHaveSizes (calculateByteSize g fuel) ms then return own
        else return none)
      return size.isSome : Except Fault Bool) =
      allChecks (hasByteSize g fuel) (ms.map (fun m => .call m.type) ++ [.decided own.isSome]) := by
  induction ms with
  | nil => exact (allChecks_singleton _).symm
  | cons m ms ih =>
    rw [List.map_cons, List.cons_append, allChecks_call, ← ih, membersHaveSizes, hasByteSize]
    cases calculateByteSize g fuel m.type with
    | error e => rfl
    | ok n => cases n <;> rfl

/-- An array has a size if its elements have one and are counted. -/
theorem hasByteSize_pair (fuel : ℕ) (count : Option ℕ) (o : Option ι) :
    (do
      let size ← (do
        let calculatedByteSize ← calculateByteSize g fuel o
        match count, calculatedByteSize with
        | some count, some size => return some (count * size % 2 ^ 64)
        | _, _ => return none)
      return size.isSome : Except Fault Bool) =
      allChecks (hasByteSize g fuel) [.call o, .decided count.isSome] := by
  rw [allChecks_call, hasByteSize]
  cases calculateByteSize g fuel o with
  | error e => rfl
  | ok size => cases size <;> cases count <;> rfl

/-- **Whether a type has a size is a conjunction**, of whether the types it asks have. -/
theorem isConjunction_hasByteSize (g : TypeGraph ι) :
    IsConjunction (sizeChecks g) (hasByteSize g) where
  zero _ _ := nofun
  succ n o := by
    cases o with
    | none => rfl
    | some t =>
      rw [hasByteSize, calculateByteSize, sizeChecks]
      split_ifs with hchains
      · cases getConcreteType g n t with
        | error e => rfl
        | ok o => exact (allChecks_singleton_call (f := hasByteSize g n)).symm
      · cases (g t).tag
        case arrayType =>
          dsimp only
          by_cases htype : (g t).type.isSome = true
          · obtain ⟨count, hcount⟩ := elementCount_returns_iff.2 htype
            rw [assert_ok htype, hcount, ok_bind, ok_bind, ok_bind, hasByteSize_pair]
            rfl
          · rw [elementCount, dimensionElementCounts, assert_error htype]
            rfl
        case structureType =>
          rw [ok_bind, ← hasByteSize_members]
        all_goals exact (allChecks_singleton _).symm
  mono h o := by
    cases o with
    | none => exact Below.refl _
    | some t =>
      rw [sizeChecks, sizeChecks]
      split_ifs
      · exact (getConcreteType_mono h t).bind fun _ => Below.refl _
      · exact Below.refl _

theorem hasChecks_iff {cs : List (Check (Option ι))} :
    HasChecks (sizeChecks g) o cs ↔ ∃ fuel, sizeChecks g fuel o = .ok cs :=
  ⟨Settles.exists_run, fun ⟨_, h⟩ => (isConjunction_hasByteSize g).hasChecks h⟩

/-- What is checked of a type that refers on to its concrete type. -/
theorem hasChecks_chain (hchains : (g t).tag.chains = true) {cs : List (Check (Option ι))} :
    HasChecks (sizeChecks g) (some t) cs ↔ ∃ o, HasConcrete g t o ∧ cs = [.call o] := by
  have hrun (n : ℕ) : sizeChecks g n (some t) =
      (do let nextType ← getConcreteType g n t; return [.call nextType]) := by
    rw [sizeChecks, if_pos hchains]
  rw [hasChecks_iff]
  constructor
  · rintro ⟨n, hn⟩
    rw [hrun] at hn
    obtain ⟨o, ho, hn⟩ := bind_eq_ok.1 hn
    exact ⟨o, ⟨n, ho⟩, (Except.ok.inj hn).symm⟩
  · rintro ⟨o, ⟨n, ho⟩, rfl⟩
    exact ⟨n, by rw [hrun, ho]; rfl⟩

/-- What is checked of an array. -/
theorem hasChecks_array (htag : (g t).tag = .arrayType) {cs : List (Check (Option ι))} :
    HasChecks (sizeChecks g) (some t) cs ↔
      ∃ count, elementCount g t = .ok count ∧ cs = [.call (g t).type, .decided count.isSome] := by
  have hrun (n : ℕ) : sizeChecks g n (some t) = (do
      let count ← elementCount g t
      return [.call (g t).type, .decided count.isSome]) := by
    rw [sizeChecks, htag]
    rfl
  rw [hasChecks_iff]
  constructor
  · rintro ⟨n, hn⟩
    rw [hrun] at hn
    obtain ⟨count, hcount, hn⟩ := bind_eq_ok.1 hn
    exact ⟨count, hcount, (Except.ok.inj hn).symm⟩
  · rintro ⟨count, hcount, rfl⟩
    exact ⟨0, by rw [hrun, hcount]; rfl⟩

/-- What is checked of any other type: its members, if it is a structure, and what it tells. -/
theorem hasChecks_own (hchains : (g t).tag.chains = false) (htag : (g t).tag ≠ .arrayType)
    {cs : List (Check (Option ι))} :
    HasChecks (sizeChecks g) (some t) cs ↔
      cs = (if (g t).tag = .structureType then (g t).members.map fun m => .call m.type else []) ++
        [.decided (g t).ownByteSize.isSome] := by
  have hrun (n : ℕ) : sizeChecks g n (some t) =
      .ok ((if (g t).tag = .structureType then (g t).members.map fun m => .call m.type else []) ++
        [.decided (g t).ownByteSize.isSome]) := by
    rw [sizeChecks, hchains]
    cases h : (g t).tag <;> simp_all
  rw [hasChecks_iff]
  constructor
  · rintro ⟨n, hn⟩
    rw [hrun] at hn
    exact (Except.ok.inj hn).symm
  · rintro rfl
    exact ⟨0, hrun 0⟩

/-- There is nothing to check of `void`. -/
theorem hasChecks_none {cs : List (Check (Option ι))} : ¬HasChecks (sizeChecks g) none cs :=
  fun h => (hasChecks_iff.1 h).elim fun _ hn => nomatch hn

/-- **The types that have a size** are those for which everything checked holds. -/
theorem hasSize_iff_allHold : HasSize g o ↔ AllHold (sizeChecks g) o := by
  constructor
  · intro h
    induction h with
    | chain hchains hconcrete _ ih =>
      refine .intro ((hasChecks_chain hchains).2 ⟨_, hconcrete, rfl⟩) ?_ ?_
      · simp
      · intro q hq
        simp only [List.mem_singleton, Check.call.injEq] at hq
        exact hq ▸ ih
    | array htag hcount _ ih =>
      refine .intro ((hasChecks_array htag).2 ⟨_, hcount, rfl⟩) ?_ ?_
      · simp
      · intro q hq
        simp only [List.mem_cons, Check.call.injEq, reduceCtorEq, List.not_mem_nil, or_false] at hq
        exact hq ▸ ih
    | own hchains htag _ hsize ih =>
      refine .intro ((hasChecks_own hchains htag).2 rfl) ?_ ?_
      · intro b hb
        rcases List.mem_append.1 hb with hb | hb
        · split_ifs at hb <;> simp at hb
        · simp only [List.mem_singleton, Check.decided.injEq] at hb
          exact hb.trans hsize
      · intro q hq
        rcases List.mem_append.1 hq with hq | hq
        · split_ifs at hq with hstruct
          · obtain ⟨m, hm, hcall⟩ := List.mem_map.1 hq
            obtain rfl := Check.call.inj hcall
            exact ih hstruct m hm
          · exact absurd hq List.not_mem_nil
        · simp at hq
  · intro h
    induction h with
    | @intro o cs hcs hdecided _ ih =>
      cases o with
      | none => exact absurd hcs hasChecks_none
      | some t =>
        by_cases hchains : (g t).tag.chains = true
        · obtain ⟨o, ho, rfl⟩ := (hasChecks_chain hchains).1 hcs
          exact .chain hchains ho (ih o (by simp))
        by_cases htag : (g t).tag = .arrayType
        · obtain ⟨count, hcount, rfl⟩ := (hasChecks_array htag).1 hcs
          obtain ⟨n, rfl⟩ := Option.isSome_iff_exists.1 (hdecided count.isSome (by simp))
          exact .array htag hcount (ih _ (by simp))
        · obtain rfl := (hasChecks_own (eq_false_of_ne_true hchains) htag).1 hcs
          refine .own (eq_false_of_ne_true hchains) htag (fun hstruct m hm => ?_) ?_
          · refine ih m.type (List.mem_append_left _ ?_)
            rw [if_pos hstruct]
            exact List.mem_map.2 ⟨m, hm, rfl⟩
          · exact hdecided _ (List.mem_append_right _ (List.mem_singleton_self _))

/-- **A size is returned for the types that have one.** -/
theorem calculateByteSize_some_iff :
    (∃ fuel n, calculateByteSize g fuel o = .ok (some n)) ↔ HasSize g o := by
  rw [hasSize_iff_allHold, ← (isConjunction_hasByteSize g).settles_true_iff]
  constructor
  · rintro ⟨fuel, n, h⟩
    refine (isConjunction_hasByteSize g).settles (n := fuel) ?_
    rw [hasByteSize, h]
    rfl
  · intro h
    obtain ⟨fuel, h⟩ := h.exists_run
    obtain ⟨size, hsize, h⟩ := bind_eq_ok.1 h
    obtain ⟨n, rfl⟩ := Option.isSome_iff_exists.1 (Except.ok.inj h)
    exact ⟨fuel, n, hsize⟩

/-- A call among the checks of a structure is for the type of a member. -/
theorem memberChecks_eq_append {ms : List (DataMember ι)} {b : Bool}
    {before after : List (Check (Option ι))}
    (h : ms.map (fun m => .call m.type) ++ [.decided b] = before ++ .call o :: after) :
    ∃ ms₁ m ms₂, ms = ms₁ ++ m :: ms₂ ∧ before = ms₁.map (fun m => .call m.type) ∧ m.type = o := by
  induction ms generalizing before with
  | nil =>
    have hmem : Check.call o ∈ [Check.decided b] := by
      rw [List.map_nil, List.nil_append] at h
      rw [h]
      simp
    simp at hmem
  | cons m ms ih =>
    rw [List.map_cons, List.cons_append] at h
    cases before with
    | nil =>
      obtain ⟨hhead, -⟩ := List.cons.inj h
      exact ⟨[], m, ms, rfl, rfl, Check.call.inj hhead⟩
    | cons c before =>
      rw [List.cons_append] at h
      obtain ⟨rfl, htail⟩ := List.cons.inj h
      obtain ⟨ms₁, m', ms₂, rfl, rfl, htype⟩ := ih htail
      exact ⟨m :: ms₁, m', ms₂, rfl, rfl, htype⟩

/-- What a type's size asks for is called for. -/
theorem calls_iff : Calls (sizeChecks g) o (some t) ↔
    SizeLink g t o ∧ ∃ cs, HasChecks (sizeChecks g) (some t) cs := by
  unfold SizeLink
  by_cases hchains : (g t).tag.chains = true
  · rw [if_pos hchains]
    constructor
    · rintro ⟨before, after, hcs, -⟩
      obtain ⟨o', ho', heq⟩ := (hasChecks_chain hchains).1 hcs
      have hmem : Check.call o ∈ [Check.call o'] := heq ▸ by simp
      obtain rfl := Check.call.inj (List.mem_singleton.1 hmem)
      exact ⟨ho', _, hcs⟩
    · rintro ⟨ho, -⟩
      exact ⟨[], [], (hasChecks_chain hchains).2 ⟨o, ho, rfl⟩, by simp⟩
  rw [if_neg hchains]
  rw [Bool.not_eq_true] at hchains
  by_cases htag : (g t).tag = .arrayType
  · simp only [htag]
    constructor
    · rintro ⟨before, after, hcs, -⟩
      refine ⟨?_, _, hcs⟩
      obtain ⟨count, -, heq⟩ := (hasChecks_array htag).1 hcs
      have hmem : Check.call o ∈ [Check.call (g t).type, Check.decided count.isSome] :=
        heq ▸ by simp
      simp only [List.mem_cons, Check.call.injEq, reduceCtorEq, List.not_mem_nil, or_false] at hmem
      exact hmem.symm
    · rintro ⟨rfl, cs, hcs⟩
      obtain ⟨count, -, rfl⟩ := (hasChecks_array htag).1 hcs
      exact ⟨[], _, hcs, by simp⟩
  have hchecks (cs : List (Check (Option ι))) : HasChecks (sizeChecks g) (some t) cs ↔ _ :=
    hasChecks_own hchains htag
  by_cases hstruct : (g t).tag = .structureType
  · simp only [hstruct]
    rw [hstruct, if_pos rfl] at hchecks
    constructor
    · rintro ⟨before, after, hcs, hbefore⟩
      obtain ⟨ms₁, m, ms₂, hms, rfl, htype⟩ := memberChecks_eq_append ((hchecks _).1 hcs).symm
      refine ⟨⟨ms₁, m, ms₂, hms, fun m' hm' => ?_, htype⟩, _, hcs⟩
      exact hasSize_iff_allHold.2 (hbefore _ (List.mem_map.2 ⟨m', hm', rfl⟩))
    · rintro ⟨⟨ms₁, m, ms₂, hms, hbefore, rfl⟩, -⟩
      refine ⟨ms₁.map fun m => .call m.type, ms₂.map (fun m => .call m.type) ++
        [.decided (g t).ownByteSize.isSome], (hchecks _).2 ?_, fun c hc => ?_⟩
      · rw [hms, List.map_append, List.map_cons, List.append_assoc, List.cons_append]
      · obtain ⟨m', hm', rfl⟩ := List.mem_map.1 hc
        exact hasSize_iff_allHold.1 (hbefore m' hm')
  · rw [if_neg hstruct] at hchecks
    refine iff_of_false ?_ ?_
    · rintro ⟨before, after, hcs, -⟩
      have hmem : Check.call o ∈ [] ++ [Check.decided (g t).ownByteSize.isSome] := by
        rw [← (hchecks _).1 hcs]
        simp
      simp at hmem
    · rintro ⟨hlink, -⟩
      cases h : (g t).tag <;> simp_all

/-- A type that is checked has all there is to be checked. -/
theorem SizeChecked.hasChecks (h : SizeChecked g t) :
    ∃ cs, HasChecks (sizeChecks g) (some t) cs := by
  by_cases hchains : (g t).tag.chains = true
  · obtain ⟨o, ho⟩ := h.1 hchains
    exact ⟨_, (hasChecks_chain hchains).2 ⟨o, ho, rfl⟩⟩
  by_cases htag : (g t).tag = .arrayType
  · have htype : (g t).type.isSome = true := by
      rw [Option.isSome_iff_ne_none]
      intro hnone
      refine h.2 ?_
      rw [SizeLink, if_neg hchains, htag]
      exact hnone
    obtain ⟨count, hcount⟩ := elementCount_returns_iff.2 htype
    exact ⟨_, (hasChecks_array htag).2 ⟨count, hcount, rfl⟩⟩
  · exact ⟨_, (hasChecks_own (eq_false_of_ne_true hchains) htag).2 rfl⟩

/-- A type with all there is to be checked, which asks for no size of `void`, is checked. -/
theorem sizeChecked_of_hasChecks (h : ∃ cs, HasChecks (sizeChecks g) (some t) cs)
    (hnone : ¬Calls (sizeChecks g) none (some t)) : SizeChecked g t := by
  refine ⟨fun hchains => ?_, fun hlink => hnone (calls_iff.2 ⟨hlink, h⟩)⟩
  obtain ⟨cs, hcs⟩ := h
  obtain ⟨o, ho, -⟩ := (hasChecks_chain hchains).1 hcs
  exact ⟨o, ho⟩

end Conjunction

section Returns

variable (g : TypeGraph ι)

/-- A type's size asks for the size of another type. -/
def SizeStep (t u : ι) : Prop := SizeLink g t (some u)

variable {g} {fuel : ℕ} {t u : ι} {o : Option ι}

theorem SizeChecked.calls (h : SizeChecked g t) : Calls (sizeChecks g) o (some t) ↔
    ∃ u, o = some u ∧ SizeStep g t u := by
  rw [calls_iff, and_iff_left h.hasChecks]
  cases o with
  | none => exact iff_of_false h.2 (by simp)
  | some u => simp [SizeStep]

/-- What is called for is what the size asks for, as long as all is checked. -/
theorem reached_of_calls (hchecked : ∀ u, ReflTransGen (SizeStep g) t u → SizeChecked g u)
    (h : ReflTransGen (Calls (sizeChecks g)) o (some t)) :
    ∃ u, o = some u ∧ ReflTransGen (SizeStep g) t u := by
  induction h using ReflTransGen.head_induction_on with
  | refl => exact ⟨t, rfl, .refl⟩
  | head hcall _ ih =>
    obtain ⟨u, rfl, hu⟩ := ih
    obtain ⟨v, rfl, hv⟩ := (hchecked u hu).calls.1 hcall
    exact ⟨v, rfl, hu.tail hv⟩

theorem calls_of_reached
    (hchecks : ∀ o, ReflTransGen (Calls (sizeChecks g)) o (some t) →
      ∃ cs, HasChecks (sizeChecks g) o cs) (h : ReflTransGen (SizeStep g) t u) :
    ReflTransGen (Calls (sizeChecks g)) (some u) (some t) := by
  induction h with
  | refl => exact .refl
  | tail _ hstep ih => exact ih.head (calls_iff.2 ⟨hstep, hchecks _ ih⟩)

/-- An answer is an answer whether there is a size. -/
theorem hasByteSize_returns_iff :
    (∃ fuel a, calculateByteSize g fuel o = .ok a) ↔
      ∃ b, Settles (hasByteSize g · o) b := by
  constructor
  · rintro ⟨fuel, a, h⟩
    refine ⟨a.isSome, (isConjunction_hasByteSize g).settles (n := fuel) ?_⟩
    rw [hasByteSize, h]
    rfl
  · rintro ⟨b, h⟩
    obtain ⟨fuel, h⟩ := h.exists_run
    obtain ⟨a, ha, -⟩ := bind_eq_ok.1 h
    exact ⟨fuel, a, ha⟩

/-- **`calculate_byte_size()` returns for a type exactly if no endless chain of types that ask for
each other's sizes starts there, and all of them are checked.** -/
theorem calculateByteSize_returns_iff :
    (∃ fuel a, calculateByteSize g fuel (some t) = .ok a) ↔
      Acc (fun u t => SizeStep g t u) t ∧
        ∀ u, ReflTransGen (SizeStep g) t u → SizeChecked g u := by
  rw [hasByteSize_returns_iff, (isConjunction_hasByteSize g).settles_iff]
  constructor
  · rintro ⟨hacc, hchecks⟩
    have hchecked (u) (hu : ReflTransGen (SizeStep g) t u) : SizeChecked g u := by
      have hreach := calls_of_reached hchecks hu
      refine sizeChecked_of_hasChecks (hchecks _ hreach) fun hnone => ?_
      obtain ⟨cs, hcs⟩ := hchecks none (hreach.head hnone)
      exact hasChecks_none hcs
    refine ⟨?_, hchecked⟩
    generalize hp : some t = p at hacc
    induction hacc generalizing t with
    | intro p _ ih =>
      subst hp
      refine Acc.intro t fun u hu => ?_
      have hcall := (hchecked t .refl).calls.2 ⟨u, rfl, hu⟩
      exact ih _ hcall (fun o ho => hchecks o (ho.tail hcall))
        (fun v hv => hchecked v (hv.head hu)) rfl
  · rintro ⟨hacc, hchecked⟩
    refine ⟨?_, fun o ho => ?_⟩
    · induction hacc with
      | intro t _ ih =>
        refine Acc.intro _ fun o ho => ?_
        obtain ⟨u, rfl, hu⟩ := (hchecked t .refl).calls.1 ho
        exact ih u hu fun v hv => hchecked v (hv.head hu)
    · obtain ⟨u, rfl, hu⟩ := reached_of_calls hchecked ho
      exact (hchecked u hu).hasChecks

end Returns

section Arrays

variable {g : TypeGraph ι} {fuel fuel' : ℕ} {t u : ι} {o : Option ι} {a : Option ℕ}

theorem membersHaveSizes_mono {size size' : Option ι → Except Fault (Option ℕ)}
    (h : ∀ o, Below (size o) (size' o)) (ms : List (DataMember ι)) :
    Below (membersHaveSizes size ms) (membersHaveSizes size' ms) := by
  induction ms with
  | nil => exact Below.refl _
  | cons m ms ih =>
    refine (h m.type).bind fun n => ?_
    cases n with
    | none => exact Below.refl _
    | some n => exact ih

theorem calculateByteSize_mono (h : fuel ≤ fuel') (o : Option ι) :
    Below (calculateByteSize g fuel o) (calculateByteSize g fuel' o) := by
  induction fuel generalizing fuel' o with
  | zero => exact Below.error _ _
  | succ fuel ih =>
    obtain ⟨fuel', rfl⟩ : ∃ k, fuel' = k + 1 := ⟨fuel' - 1, by omega⟩
    have hle : fuel ≤ fuel' := by omega
    cases o with
    | none => exact Below.refl _
    | some t =>
      rw [calculateByteSize, calculateByteSize]
      split_ifs
      · exact (getConcreteType_mono hle t).bind fun o => ih hle o
      · cases (g t).tag
        case arrayType =>
          refine (Below.refl _).bind fun _ => (Below.refl _).bind fun _ => ?_
          exact (ih hle _).bind fun _ => Below.refl _
        case structureType =>
          exact (membersHaveSizes_mono (ih hle) _).bind fun _ => Below.refl _
        all_goals exact Below.refl _

/-- The size of a type is that of its concrete type. -/
theorem calculateByteSize_concrete (h : calculateByteSize g fuel (some t) = .ok a) :
    ∃ c, getConcreteType g fuel t = .ok (some c) ∧ (g c).tag.chains = false ∧
      calculateByteSize g fuel (some c) = .ok a := by
  cases fuel with
  | zero => exact nomatch h
  | succ fuel =>
    by_cases hchains : (g t).tag.chains = true
    · rw [calculateByteSize, if_pos hchains] at h
      obtain ⟨o, ho, h⟩ := bind_eq_ok.1 h
      cases o with
      | none => cases fuel <;> exact nomatch h
      | some c =>
        refine ⟨c, getConcreteType_mono (Nat.le_succ fuel) t _ ho, chains_of_getConcreteType g ho, ?_⟩
        exact calculateByteSize_mono (Nat.le_succ fuel) _ _ h
    · refine ⟨t, ?_, eq_false_of_ne_true hchains, h⟩
      rw [getConcreteType, if_neg hchains]

/-- The size of an array is that of its elements, as often as there are elements. -/
theorem calculateByteSize_elements (htag : (g t).tag = .arrayType)
    (h : calculateByteSize g (fuel + 1) (some t) = .ok a) :
    ∃ el count size, (g t).type = some el ∧ elementCount g t = .ok count ∧
      calculateByteSize g fuel (some el) = .ok size ∧
      a = count.bind fun n => size.map fun s => n * s % 2 ^ 64 := by
  rw [calculateByteSize, htag] at h
  obtain ⟨_, hassert, h⟩ := bind_eq_ok.1 h
  obtain ⟨el, htype⟩ := Option.isSome_iff_exists.1 (assert_eq_ok.1 hassert)
  obtain ⟨count, hcount, h⟩ := bind_eq_ok.1 h
  obtain ⟨size, hsize, h⟩ := bind_eq_ok.1 h
  rw [htype] at hsize
  refine ⟨el, count, size, htype, hcount, hsize, ?_⟩
  cases count <;> cases size <;> exact (Except.ok.inj h).symm

theorem ultimateElementType_of_not_array (htag : (g t).tag ≠ .arrayType) :
    ultimateElementType g (fuel + 1) t = .ok (some t) := by
  rw [ultimateElementType, if_neg htag]

theorem ultimateElementCount_of_not_array (htag : (g t).tag ≠ .arrayType) (k : ℕ) :
    ultimateElementCount g (fuel + 1) k t = .ok (some k) := by
  rw [ultimateElementCount, if_neg htag]

/-- The size of an array, by the loops of `ultimate_element_type()` and
`ultimate_element_count()`. -/
theorem ultimateElement_of_size (htag : (g t).tag = .arrayType)
    (h : calculateByteSize g fuel (some t) = .ok a) :
    ∃ (e : ι) (size count : Option ℕ), ultimateElementType g fuel t = .ok (some e) ∧
      (g e).tag ≠ .arrayType ∧ calculateByteSize g fuel (some e) = .ok size ∧
      (∀ k, ultimateElementCount g fuel k t = .ok (count.map fun n => k * n % 2 ^ 64)) ∧
      a = count.bind fun n => size.map fun s => n * s % 2 ^ 64 := by
  induction fuel generalizing t a with
  | zero => cases h
  | succ fuel ih =>
    obtain ⟨el, count, size, htype, hcount, hsize, rfl⟩ := calculateByteSize_elements htag h
    obtain ⟨next, hnext, -, hsize⟩ := calculateByteSize_concrete hsize
    have htypes : ultimateElementType g (fuel + 1) t = ultimateElementType g fuel next := by
      rw [ultimateElementType, if_pos htag, htype]
      show (getConcreteType g fuel el >>= _) = _
      rw [hnext]
      rfl
    have hcounts (k : ℕ) : ultimateElementCount g (fuel + 1) k t =
        count.elim (.ok none) fun n => ultimateElementCount g fuel (k * n % 2 ^ 64) next := by
      rw [ultimateElementCount, if_pos htag, hcount, ok_bind]
      cases count with
      | none => rfl
      | some n =>
        dsimp only
        rw [htype]
        show (getConcreteType g fuel el >>= _) = _
        rw [hnext]
        rfl
    have hle := Nat.le_succ fuel
    by_cases hagain : (g next).tag = .arrayType
    · obtain ⟨e, size, count', he, hnot, hsize', hcount', rfl⟩ := ih hagain hsize
      refine ⟨e, size, count.bind fun n => count'.map fun n' => n * n', htypes.trans he, hnot,
        calculateByteSize_mono hle _ _ hsize', fun k => ?_, ?_⟩
      · rw [hcounts]
        cases count with
        | none => rfl
        | some n =>
          rw [Option.elim_some, hcount']
          cases count' with
          | none => rfl
          | some n' => simp [Nat.mul_assoc]
      · cases count <;> cases count' <;> cases size <;> simp [Nat.mul_assoc]
    · obtain ⟨fuel, rfl⟩ : ∃ k, fuel = k + 1 := by
        cases fuel with
        | zero => cases hsize
        | succ fuel => exact ⟨fuel, rfl⟩
      refine ⟨next, size, count, htypes.trans (ultimateElementType_of_not_array hagain), hagain,
        calculateByteSize_mono hle _ _ hsize, fun k => ?_, rfl⟩
      rw [hcounts]
      cases count with
      | none => rfl
      | some n => exact ultimateElementCount_of_not_array hagain _

/-- **The size of an array is its ultimate element count times the size of its ultimate element type.**
It has none where a dimension has no count or the elements have no size. -/
theorem calculateByteSize_array (htag : (g t).tag = .arrayType)
    (h : calculateByteSize g fuel (some t) = .ok a) :
    ∃ (e : ι) (size count : Option ℕ), ultimateElementType g fuel t = .ok (some e) ∧
      (g e).tag ≠ .arrayType ∧ calculateByteSize g fuel (some e) = .ok size ∧
      ultimateElementCount g fuel 1 t = .ok count ∧
      a = count.bind fun n => size.map fun s => n * s % 2 ^ 64 := by
  obtain ⟨e, size, count, he, hnot, hsize, hcount, rfl⟩ := ultimateElement_of_size htag h
  refine ⟨e, size, _, he, hnot, hsize, hcount 1, ?_⟩
  cases count <;> cases size <;> simp

/-- An array of three arrays of two types `T`, which is a name for an `int`. -/
def nestedArrays : TypeGraph (Fin 6)
  | 0 => { (default : TypeDie (Fin 6)) with
      tag := .arrayType, type := some 1, subranges := [4] }
  | 1 => { (default : TypeDie (Fin 6)) with
      tag := .arrayType, type := some 2, subranges := [5] }
  | 2 => { (default : TypeDie (Fin 6)) with tag := .typedef, name := some "T", type := some 3 }
  | 3 => { (default : TypeDie (Fin 6)) with
      tag := .baseType, name := some "int", encoding := 5, byteSize := some 4 }
  | 4 => { (default : TypeDie (Fin 6)) with tag := .subrangeType, count := some 3 }
  | 5 => { (default : TypeDie (Fin 6)) with
      tag := .subrangeType, lowerBound := some 0, upperBound := some 1 }

/-- It has 24 bytes. -/
theorem calculateByteSize_nestedArrays :
    ∃ (e : Fin 6) (size count : Option ℕ), ultimateElementType nestedArrays 9 0 = .ok (some e) ∧
      (nestedArrays e).tag ≠ .arrayType ∧ calculateByteSize nestedArrays 9 (some e) = .ok size ∧
      ultimateElementCount nestedArrays 9 1 0 = .ok count ∧
      some 24 = count.bind fun n => size.map fun s => n * s % 2 ^ 64 :=
  @calculateByteSize_array _ nestedArrays 9 0 _ rfl (by decide +kernel)

end Arrays

end Types
end Dwarfpp
