/-
# Comparisons as conjunctions of checks

A comparison of `Types/Equal.lean` goes through checks, one after the other up to the
first that fails: what the override of `may_equal` compares itself, and the comparisons
it asks for in turn.  Where an override asserts an attribute to be there, or
dereferences it, and the attribute is absent, it asks for one that has no checks.

So a comparison returns exactly if none that it leads to comes to an absent attribute
or asks for a summary code in vain (`comparison_returns_iff`), and on every graph one
that returns decides the greatest relation up to its assumptions (`comparison_iff`).
-/

import Mathlib
import Dwarfpp.Lib.Conjunction
import Dwarfpp.Types.Equal

namespace Dwarfpp
namespace Types
namespace Comparison

open Lib

variable {ι : Type}

/-- What a comparison asks for in turn: two types compared under assumptions or, with `none`, an
attribute that is absent. -/
abbrev Question (ι : Type) := Option (Assumptions ι × ι × Option ι)

section Checks

variable (g : TypeGraph ι)

/-- "Presence equal, and if we have one, it should equal theirs." -/
def referenceChecks (asm : Assumptions ι) : Option ι → Option ι → List (Check (Question ι))
  | none, none => []
  | some a, some b => [.call (some (asm, a, some b))]
  | _, _ => [.decided false]

/-- The checks on the subranges of two arrays. -/
def subrangeChecks (asm : Assumptions ι) : List ι → List ι → List (Check (Question ι))
  | [], [] => []
  | ours :: os, theirs :: ts =>
    match (g ours).type with
    | none => subrangeChecks asm os ts
    | some a => .call (some (asm, a, (g theirs).type)) :: subrangeChecks asm os ts
  | _, _ => [.decided false]

/-- The checks on the element types of two arrays. -/
def elementChecks (asm : Assumptions ι) (ours theirs : Option ι) : List (Check (Question ι)) :=
  match ours with
  | none => [.call none]
  | some a => [.call (some (asm, a, theirs))]

/-- The checks on the members of two types. -/
def memberChecks (recursive : Assumptions ι) :
    List (DataMember ι) → List (DataMember ι) → List (Check (Question ι))
  | [], [] => []
  | ours :: os, theirs :: ts =>
    match ours.typeHandlingBitfields, theirs.typeHandlingBitfields with
    | some ourType, some theirType =>
      .call (some (recursive, ourType, some theirType)) ::
        .decided (ours.dataMemberLocation = theirs.dataMemberLocation) ::
          memberChecks recursive os ts
    | _, _ => [.call none]
  | _, _ => [.decided false]

/-- The checks on the formal parameters of two types. -/
def parameterChecks (asm : Assumptions ι) :
    List (FormalParameter ι) → List (FormalParameter ι) → List (Check (Question ι))
  | [], [] => []
  | ours :: os, theirs :: ts =>
    match theirs.type, ours.type with
    | some theirType, some ourType =>
      .call (some (asm, theirType, some ourType)) :: parameterChecks asm os ts
    | _, _ => [.call none]
  | _, _ => [.decided false]

variable [DecidableEq ι]

/-- The checks of `may_equal`, as `self`'s class overrides it.  A pointer to a member is equal to
nothing. -/
def ownChecks (self t : ι) (asm : Assumptions ι) : List (Check (Question ι)) :=
  match (g self).tag.cls with
  | .base => [.decided ((g self).tag = (g t).tag ∧ (g self).name = (g t).name ∧
      (g self).encoding = (g t).encoding ∧ (g self).byteSize = (g t).byteSize ∧
      (g self).bitSize = (g t).bitSize ∧ (g self).bitOffset = (g t).bitOffset)]
  | .unspecified => [.decided ((g t).tag = (g self).tag)]
  | .string => [.decided ((g self).tag = (g t).tag ∧ (g self).name = (g t).name ∧
      (g t).stringLength = (g self).stringLength ∧
      ((g self).stringLength = none → (g self).byteSize = (g t).byteSize))]
  | .subrange =>
    .decided ((g self).tag = (g t).tag ∧ (g self).name = (g t).name) ::
      (referenceChecks asm (g self).type (g t).type ++
        [.decided ((g self).lowerBound = (g t).lowerBound ∧
          (g self).upperBound = (g t).upperBound ∧ (g self).count = (g t).count)])
  | .enumeration =>
    .decided ((g self).tag = (g t).tag ∧ (g self).name = (g t).name) ::
      (referenceChecks asm (g self).type (g t).type ++
        [.decided ((g self).enumerators = (g t).enumerators)])
  | .array =>
    .decided ((g self).tag = (g t).tag ∧ (g self).name = (g t).name) ::
      (subrangeChecks g asm (g self).subranges (g t).subranges ++
        elementChecks asm (g self).type (g t).type)
  | .typedef =>
    match (g self).name with
    | none => [.call none]
    | some name =>
      .decided ((g t).tag = .typedef ∧ (g t).name = some name) ::
        .decided ((g self).tag = (g t).tag) :: referenceChecks asm (g self).type (g t).type
  | .ptrToMember => [.decided false]
  | .typeChain =>
    .decided ((g self).tag = (g t).tag) :: referenceChecks asm (g self).type (g t).type
  | .withDataMembers =>
    .decided ((g self).tag = (g t).tag ∧ (g self).name = (g t).name ∧
        ((g self).name = none → (g self).associatedName = (g t).associatedName)) ::
      memberChecks (asm.insert (self, t)) (g self).members (g t).members
  | .typeDescribingSubprogram =>
    .decided ((g self).tag = (g t).tag ∧ (g self).name = (g t).name) ::
      (referenceChecks asm (g self).type (g t).type ++
        .decided ((g self).isVariadic = (g t).isVariadic) ::
          parameterChecks asm (g self).formalParameters (g t).formalParameters)

variable (summaryCode : ι → Except Fault (Option (BitVec 32)))

/-- The checks of a comparison. -/
def checks (fuel : ℕ) : Question ι → Except Fault (List (Check (Question ι)))
  | none => .error .assertFailed
  | some (asm, self, t) =>
    if t = some self then .ok []
    else match t with
      | none => .ok [.decided false]
      | some t =>
        if Assumed asm self t then .ok []
        else do
          if ← quickTests g summaryCode self t then
            if (g self).tag = .ptrToMemberType then do
              let _ ← getConcreteType g fuel t
              return [.decided false]
            else return ownChecks g self t asm ++ ownChecks g t self asm
          else return [.decided false]

/-- Whether a result is not `UNEQUAL`. -/
def accepts (x : Except Fault EqualResult) : Except Fault Bool := do
  let r ← x
  return r ≠ .unequal

/-- A comparison, by whether it finds the types equal. -/
def comparison (fuel : ℕ) : Question ι → Except Fault Bool
  | none => .error .assertFailed
  | some (asm, self, t) => accepts (equalAsking g summaryCode fuel self t asm)

end Checks

/-! ### A comparison is its checks, one after the other -/

section Runs

variable {g : TypeGraph ι} {fuel : ℕ} {equal : Compare (Except Fault) ι} {asm : Assumptions ι}
  {f : Question ι → Except Fault Bool}

theorem accepts_bind {α : Type} (x : Except Fault α) (k : α → Except Fault EqualResult) :
    accepts (x >>= k) = x >>= fun a => accepts (k a) := bind_assoc _ _ _

theorem accepts_ofBool (b : Bool) : accepts (pure (.ofBool b)) = .ok b := by
  cases b <;> rfl

theorem bind_of_accepts {x : Except Fault EqualResult} {k : EqualResult → Except Fault Bool}
    {k' : Bool → Except Fault Bool} (h : ∀ r, k r = k' (r ≠ .unequal : Bool)) :
    x >>= k = accepts x >>= k' := by
  cases x with
  | error e => rfl
  | ok r => exact h r

/-- A test that tells two types apart where it fails is a check. -/
theorem accepts_ite {p : Prop} [Decidable p] {x : Except Fault EqualResult}
    {cs : List (Check (Question ι))} (h : p → accepts x = allChecks f cs) :
    accepts (if p then x else pure .unequal) = allChecks f (.decided p :: cs) := by
  rw [allChecks_decided]
  by_cases hp : p
  · rw [if_pos hp, if_pos (decide_eq_true hp), h hp]
  · rw [if_neg hp, decide_eq_false hp]
    rfl

/-- What comes behind a call is asked for where the call did not return `UNEQUAL`. -/
theorem accepts_unless_unequal {r : EqualResult} {x : Except Fault EqualResult}
    {cs : List (Check (Question ι))} (h : r ≠ .unequal → accepts x = allChecks f cs) :
    accepts (if r = .unequal then pure .unequal else x) =
      if (r ≠ .unequal : Bool) then allChecks f cs else .ok false := by
  by_cases hr : r = .unequal
  · rw [if_pos hr, decide_eq_false (not_not.2 hr)]
    rfl
  · rw [if_neg hr, if_pos (decide_eq_true hr), h hr]

/-- A test made together with the result of a call is a check behind it. -/
theorem accepts_and {p : Prop} [Decidable p] (x : Except Fault EqualResult) :
    accepts (x >>= fun r => pure (.ofBool (r ≠ .unequal ∧ p))) =
      accepts x >>= fun b => if b then allChecks f [.decided p] else .ok false := by
  rw [accepts_bind]
  refine bind_of_accepts fun r => ?_
  rw [accepts_ofBool, allChecks_singleton]
  by_cases hr : r = .unequal <;> simp [hr]

variable (hf : ∀ asm a b, f (some (asm, a, b)) = accepts (equal a b asm))

include hf

theorem referencesEqual_checks (a b : Option ι) :
    accepts (referencesEqual equal asm a b) = allChecks f (referenceChecks asm a b) := by
  cases a with
  | none => cases b <;> rfl
  | some x =>
    cases b with
    | none => rfl
    | some y => exact (hf asm x (some y)).symm.trans allChecks_singleton_call.symm

theorem subrangesMayEqual_checks (os ts : List ι) :
    subrangesMayEqual g equal asm os ts = allChecks f (subrangeChecks g asm os ts) := by
  induction os generalizing ts with
  | nil => cases ts <;> rfl
  | cons a os ih =>
    cases ts with
    | nil => rfl
    | cons b ts =>
      rw [subrangesMayEqual, subrangeChecks]
      cases (g a).type with
      | none => exact ih ts
      | some x =>
        dsimp only
        rw [allChecks_call, hf]
        refine bind_of_accepts fun r => ?_
        rw [ih ts]
        by_cases hr : r = .unequal <;> simp [hr, pure, Except.pure]

variable (hnone : f none = .error .assertFailed)

include hnone

theorem membersMayEqual_checks (recursive : Assumptions ι) (os ts : List (DataMember ι))
    {ret : EqualResult} (hret : ret ≠ .unequal) :
    accepts (membersMayEqual equal asm recursive os ts ret) =
      allChecks f (memberChecks recursive os ts) := by
  induction os generalizing ts ret with
  | nil =>
    cases ts with
    | nil => simp [membersMayEqual, memberChecks, accepts, hret, pure, Except.pure]
    | cons b ts => rfl
  | cons a os ih =>
    cases ts with
    | nil => rfl
    | cons b ts =>
      have habsent : accepts (throw .assertFailed) = allChecks f [.call none] := by
        rw [allChecks_singleton_call, hnone]
        rfl
      rw [membersMayEqual, memberChecks]
      cases a.typeHandlingBitfields with
      | none => exact habsent
      | some x =>
        cases b.typeHandlingBitfields with
        | none => exact habsent
        | some y =>
          dsimp only
          rw [allChecks_call, hf, accepts_bind]
          refine bind_of_accepts fun r => accepts_unless_unequal fun _ => accepts_ite fun _ => ?_
          refine ih ts ?_
          split_ifs
          · exact EqualResult.noConfusion
          · exact hret

theorem formalParametersMayEqual_checks (os ts : List (FormalParameter ι)) {ret : EqualResult}
    (hret : ret ≠ .unequal) :
    accepts (formalParametersMayEqual equal asm os ts ret) =
      allChecks f (parameterChecks asm os ts) := by
  induction os generalizing ts ret with
  | nil =>
    cases ts with
    | nil => simp [formalParametersMayEqual, parameterChecks, accepts, hret, pure, Except.pure]
    | cons b ts => rfl
  | cons a os ih =>
    cases ts with
    | nil => rfl
    | cons b ts =>
      have habsent : accepts (throw .assertFailed) = allChecks f [.call none] := by
        rw [allChecks_singleton_call, hnone]
        rfl
      rw [formalParametersMayEqual, parameterChecks]
      cases b.type with
      | none => exact habsent
      | some y =>
        cases a.type with
        | none => exact habsent
        | some x =>
          dsimp only
          rw [allChecks_call, hf, accepts_bind]
          refine bind_of_accepts fun r => accepts_unless_unequal fun _ => ih ts ?_
          split_ifs
          · exact EqualResult.noConfusion
          · exact hret

variable [DecidableEq ι]

omit hnone [DecidableEq ι] in
theorem typeChainMayEqual_checks (d e : TypeDie ι) :
    accepts (typeChainMayEqual equal d e asm) =
      allChecks f (.decided (d.tag = e.tag) :: referenceChecks asm d.type e.type) := by
  refine accepts_ite fun _ => ?_
  rw [accepts_bind, ← referencesEqual_checks hf]
  exact bind_congr fun r => accepts_ofBool _

/-- **Each override goes through its checks.** -/
theorem mayEqual_checks {t u : ι} (hcls : (g t).tag.cls ≠ .ptrToMember) :
    accepts (mayEqual g fuel equal t u asm) = allChecks f (ownChecks g t u asm) := by
  rw [mayEqual, ownChecks]
  cases h : (g t).tag.cls with
  | base | unspecified | string =>
    dsimp only
    rw [allChecks_singleton]
    exact accepts_ofBool _
  | subrange | enumeration =>
    refine accepts_ite fun _ => ?_
    rw [allChecks_append, ← referencesEqual_checks hf]
    exact accepts_and _
  | array =>
    refine accepts_ite fun _ => ?_
    rw [allChecks_append, ← subrangesMayEqual_checks hf, accepts_bind]
    refine bind_congr fun b => ?_
    cases b with
    | false => rfl
    | true =>
      rw [if_pos rfl, if_pos rfl]
      cases (g t).type with
      | none =>
        rw [elementChecks, allChecks_singleton_call, hnone]
        rfl
      | some x =>
        rw [elementChecks, allChecks_singleton_call, hf, accepts_bind]
        exact bind_congr fun r => accepts_ofBool _
  | typedef =>
    dsimp only
    rw [typedefMayEqual]
    cases (g t).name with
    | none =>
      dsimp only
      rw [allChecks_singleton_call, hnone]
      rfl
    | some n => exact accepts_ite fun _ => typeChainMayEqual_checks hf _ _
  | ptrToMember => exact absurd h hcls
  | typeChain => exact typeChainMayEqual_checks hf _ _
  | withDataMembers =>
    exact accepts_ite fun _ => membersMayEqual_checks hf hnone _ _ _ EqualResult.noConfusion
  | typeDescribingSubprogram =>
    refine accepts_ite fun _ => ?_
    rw [allChecks_append, ← referencesEqual_checks hf, accepts_bind]
    refine bind_of_accepts fun r => ?_
    refine (accepts_ite fun h => formalParametersMayEqual_checks hf hnone _ _ h.1).trans ?_
    by_cases hr : r = .unequal <;> simp [hr, allChecks_decided]

/-- `may_equal` both ways round. -/
theorem equalNocache_checks {t u : ι} (htag : (g u).tag = (g t).tag)
    (hptr : (g t).tag ≠ .ptrToMemberType) :
    accepts (equalNocache (mayEqual g fuel equal) t u asm) =
      allChecks f (ownChecks g t u asm ++ ownChecks g u t asm) := by
  have ht : (g t).tag.cls ≠ .ptrToMember := fun h => hptr (tag_eq_ptrToMember h)
  have hu : (g u).tag.cls ≠ .ptrToMember := fun h => hptr (htag ▸ tag_eq_ptrToMember h)
  rw [equalNocache, accepts_bind, allChecks_append, ← mayEqual_checks hf hnone ht]
  refine bind_of_accepts fun r₁ => accepts_unless_unequal fun _ => ?_
  rw [accepts_bind, ← mayEqual_checks hf hnone hu]
  refine bind_congr fun r₂ => ?_
  split_ifs with hr₂ <;> simp [accepts, hr₂, pure, Except.pure]

end Runs

section Conjunction

variable {g : TypeGraph ι} [DecidableEq ι] {summaryCode : ι → Except Fault (Option (BitVec 32))}

/-- A pointer to a member is found unequal to everything, since a concrete type is none. -/
theorem mayEqual_ptrToMember {fuel : ℕ} {equal : Compare (Except Fault) ι} {t u : ι}
    {asm : Assumptions ι} (ht : (g t).tag = .ptrToMemberType) :
    mayEqual g fuel equal t u asm = getConcreteType g fuel u >>= fun _ => .ok .unequal := by
  rw [mayEqual, ht]
  dsimp only [Tag.cls]
  rw [ptrToMemberMayEqual]
  cases hc : getConcreteType g fuel u with
  | error e => rfl
  | ok c =>
    cases c with
    | none => rfl
    | some c =>
      have hne : (g c).tag ≠ .ptrToMemberType := fun htag => by
        have := chains_of_getConcreteType g hc
        rw [htag] at this
        cases this
      exact if_neg hne

/-- **A comparison is its checks, one after the other.** -/
theorem isConjunction : IsConjunction (checks g summaryCode) (comparison g summaryCode) where
  zero p b h := by
    cases p <;> cases h
  succ n p := by
    rcases p with _ | ⟨asm, t, _ | u⟩
    · rfl
    · rfl
    rw [comparison, equalAsking, checks]
    by_cases heq : some u = some t
    · rw [if_pos heq, if_pos heq]
      rfl
    rw [if_neg heq, if_neg heq]
    by_cases hasm : (t, u) ∈ asm ∨ (u, t) ∈ asm
    · rw [if_pos hasm, if_pos (show Assumed asm t u from hasm)]
      rfl
    rw [if_neg hasm, if_neg (show ¬Assumed asm t u from hasm), accepts_bind, bind_assoc]
    cases hquick : quickTests g summaryCode t u with
    | error e => rfl
    | ok b =>
      cases b with
      | false => rfl
      | true =>
        have htag : (g u).tag = (g t).tag := by
          by_contra hne
          rw [quickTests, if_neg fun h => hne h.1] at hquick
          exact Bool.false_ne_true (Except.ok.inj hquick)
        rw [ok_bind, ok_bind, if_pos rfl, if_pos rfl]
        by_cases hptr : (g t).tag = .ptrToMemberType
        · rw [if_pos hptr, equalNocache, accepts_bind, mayEqual_ptrToMember hptr]
          cases getConcreteType g n u <;> rfl
        · rw [if_neg hptr]
          exact equalNocache_checks (fun _ _ _ => rfl) rfl htag hptr
  mono {n m} hnm p := by
    rcases p with _ | ⟨asm, t, _ | u⟩
    · exact Below.refl _
    · exact Below.refl _
    rw [checks, checks]
    split_ifs
    · exact Below.refl _
    · exact Below.refl _
    · refine (Below.refl _).bind fun b => ?_
      split_ifs
      · exact (getConcreteType_mono hnm u).bind fun _ => Below.refl _
      · exact Below.refl _
    · exact Below.refl _

end Conjunction

/-! ### What the checks say -/

section Meaning

variable {g : TypeGraph ι} {R : Question ι → Prop} {S : ι → ι → Prop} {asm : Assumptions ι}

/-- The comparisons under these assumptions hold as `S` says, and none with `void`. -/
structure Reads (R : Question ι → Prop) (asm : Assumptions ι) (S : ι → ι → Prop) : Prop where
  iff : ∀ a b, R (some (asm, a, some b)) ↔ S a b
  void : ∀ a, ¬R (some (asm, a, none))

theorem forall_referenceChecks (h : Reads R asm S) {a b : Option ι} :
    (∀ c ∈ referenceChecks asm a b, c.Holds R) ↔ VoidOr S a b := by
  cases a <;> cases b <;> simp [referenceChecks, VoidOr, h.iff]

theorem holds_given (h : Reads R asm S) {a : ι} {b : Option ι} :
    R (some (asm, a, b)) ↔ Given S (some a) b := by
  cases b with
  | none => simp [Given, h.void]
  | some b => simp [Given, h.iff]

theorem forall_subrangeChecks (h : Reads R asm S) {os ts : List ι} :
    (∀ c ∈ subrangeChecks g asm os ts, c.Holds R) ↔
      List.Forall₂ (fun a b => Given S (g a).type (g b).type) os ts := by
  induction os generalizing ts with
  | nil => cases ts <;> simp [subrangeChecks]
  | cons a os ih =>
    cases ts with
    | nil => simp [subrangeChecks]
    | cons b ts =>
      rw [subrangeChecks, List.forall₂_cons]
      cases ha : (g a).type with
      | none =>
        have hnone : Given S none (g b).type := fun x hx => by cases hx
        simp [hnone, ih]
      | some x => simp [holds_given h, ih]

theorem forall_memberChecks (h : Reads R asm S) (hnone : R none) {os ts : List (DataMember ι)}
    (hall : List.Forall₂ (fun a b => VoidOr S a.typeHandlingBitfields b.typeHandlingBitfields ∧
      a.dataMemberLocation = b.dataMemberLocation) os ts) :
    ∀ c ∈ memberChecks asm os ts, c.Holds R := by
  induction hall with
  | nil => simp [memberChecks]
  | @cons a b os ts hab _ ih =>
    obtain ⟨htypes, hloc⟩ := hab
    rw [memberChecks]
    cases ha : a.typeHandlingBitfields with
    | none => simpa using hnone
    | some x =>
      cases hb : b.typeHandlingBitfields with
      | none => simpa using hnone
      | some y =>
        rw [ha, hb] at htypes
        simpa [h.iff, hloc] using ⟨htypes, ih⟩

theorem forall₂_of_memberChecks (h : Reads R asm S) (hnone : ¬R none)
    {os ts : List (DataMember ι)} (hall : ∀ c ∈ memberChecks asm os ts, c.Holds R) :
    List.Forall₂ (fun a b => VoidOr S a.typeHandlingBitfields b.typeHandlingBitfields ∧
      a.dataMemberLocation = b.dataMemberLocation) os ts := by
  induction os generalizing ts with
  | nil =>
    cases ts with
    | nil => exact .nil
    | cons b ts => simp [memberChecks] at hall
  | cons a os ih =>
    cases ts with
    | nil => simp [memberChecks] at hall
    | cons b ts =>
      rw [memberChecks] at hall
      cases ha : a.typeHandlingBitfields with
      | none => simp [ha, hnone] at hall
      | some x =>
        cases hb : b.typeHandlingBitfields with
        | none => simp [ha, hb, hnone] at hall
        | some y =>
          simp only [ha, hb, List.forall_mem_cons, Check.holds_call, Check.holds_decided, h.iff,
            decide_eq_true_eq] at hall
          exact .cons ⟨by rw [ha, hb]; exact hall.1, hall.2.1⟩ (ih hall.2.2)

theorem forall_parameterChecks (h : Reads R asm S) (hnone : R none)
    {os ts : List (FormalParameter ι)}
    (hall : List.Forall₂ (fun a b => VoidOr S b.type a.type) os ts) :
    ∀ c ∈ parameterChecks asm os ts, c.Holds R := by
  induction hall with
  | nil => simp [parameterChecks]
  | @cons a b os ts hab _ ih =>
    rw [parameterChecks]
    cases hb : b.type with
    | none => simpa using hnone
    | some y =>
      cases ha : a.type with
      | none => simpa using hnone
      | some x =>
        rw [ha, hb] at hab
        simpa [h.iff] using ⟨hab, ih⟩

theorem forall₂_of_parameterChecks (h : Reads R asm S) (hnone : ¬R none)
    {os ts : List (FormalParameter ι)} (hall : ∀ c ∈ parameterChecks asm os ts, c.Holds R) :
    List.Forall₂ (fun a b => VoidOr S b.type a.type) os ts := by
  induction os generalizing ts with
  | nil =>
    cases ts with
    | nil => exact .nil
    | cons b ts => simp [parameterChecks] at hall
  | cons a os ih =>
    cases ts with
    | nil => simp [parameterChecks] at hall
    | cons b ts =>
      rw [parameterChecks] at hall
      cases hb : b.type with
      | none => simp [hb, hnone] at hall
      | some y =>
        cases ha : a.type with
        | none => simp [ha, hb, hnone] at hall
        | some x =>
          simp only [ha, hb, List.forall_mem_cons, Check.holds_call, h.iff] at hall
          exact .cons (by rw [ha, hb]; exact hall.1) (ih hall.2)

variable [DecidableEq ι] {t u : ι}

/-- An override's checks hold where its condition does, whatever is said of absent attributes. -/
theorem forall_ownChecks (h : Reads R (nextAssumptions g t u asm) S) (hnone : R none)
    (hlocal : LocallyEqual g S t u) : ∀ c ∈ ownChecks g t u asm, c.Holds R := by
  have hown : (g t).tag.cls ≠ .withDataMembers → Reads R asm S := fun hcls => by
    rwa [nextAssumptions, if_neg hcls] at h
  unfold LocallyEqual at hlocal
  rw [ownChecks]
  cases hcls : (g t).tag.cls <;> rw [hcls] at hlocal <;> dsimp only at hlocal ⊢
  case base | unspecified | string => exact List.forall_mem_singleton.2 (decide_eq_true hlocal)
  case subrange | enumeration =>
    have hr := forall_referenceChecks (hown (by simp [hcls])) (a := (g t).type) (b := (g u).type)
    simp only [List.forall_mem_cons, List.forall_mem_append, hr]
    simpa using hlocal
  case array =>
    obtain ⟨hname, hsubranges, helement⟩ := hlocal
    have hr := hown (by simp [hcls])
    simp only [List.forall_mem_cons, List.forall_mem_append, forall_subrangeChecks hr]
    refine ⟨decide_eq_true hname, hsubranges, ?_⟩
    cases htype : (g t).type with
    | none => simpa [elementChecks] using hnone
    | some x => simpa [elementChecks, holds_given hr, htype] using helement
  case typedef =>
    obtain ⟨⟨n, hn, hname⟩, htag, href⟩ := hlocal
    have hr := forall_referenceChecks (hown (by simp [hcls])) (a := (g t).type) (b := (g u).type)
    rw [hn]
    simp only [List.forall_mem_cons, hr]
    exact ⟨decide_eq_true hname, decide_eq_true htag, href⟩
  case ptrToMember =>
    refine absurd ?_ (not_locallyEqual_ptrToMember g S (tag_eq_ptrToMember hcls) u)
    rw [LocallyEqual, hcls]
    exact hlocal
  case typeChain =>
    have hr := forall_referenceChecks (hown (by simp [hcls])) (a := (g t).type) (b := (g u).type)
    simp only [List.forall_mem_cons, hr]
    exact ⟨decide_eq_true hlocal.1, hlocal.2⟩
  case withDataMembers =>
    rw [nextAssumptions, if_pos hcls] at h
    rw [List.forall_mem_cons]
    exact ⟨decide_eq_true hlocal.1, forall_memberChecks h hnone hlocal.2⟩
  case typeDescribingSubprogram =>
    obtain ⟨hname, ⟨href, hvariadic⟩, hparameters⟩ := hlocal
    have hr := hown (by simp [hcls])
    simp only [List.forall_mem_cons, List.forall_mem_append, forall_referenceChecks hr]
    exact ⟨decide_eq_true hname, href, decide_eq_true hvariadic,
      forall_parameterChecks hr hnone hparameters⟩

/-- An override's condition holds where its checks do, none of them on an absent attribute. -/
theorem locallyEqual_of_ownChecks (h : Reads R (nextAssumptions g t u asm) S) (hnone : ¬R none)
    (hall : ∀ c ∈ ownChecks g t u asm, c.Holds R) : LocallyEqual g S t u := by
  have hown : (g t).tag.cls ≠ .withDataMembers → Reads R asm S := fun hcls => by
    rwa [nextAssumptions, if_neg hcls] at h
  rw [ownChecks] at hall
  unfold LocallyEqual
  cases hcls : (g t).tag.cls <;> rw [hcls] at hall <;> dsimp only at hall ⊢
  case base | unspecified | string =>
    rw [List.forall_mem_singleton] at hall
    exact of_decide_eq_true hall
  case subrange | enumeration =>
    have hr := forall_referenceChecks (hown (by simp [hcls])) (a := (g t).type) (b := (g u).type)
    simp only [List.forall_mem_cons, List.forall_mem_append, hr] at hall
    simpa using hall
  case array =>
    have hr := hown (by simp [hcls])
    simp only [List.forall_mem_cons, List.forall_mem_append, forall_subrangeChecks hr] at hall
    refine ⟨of_decide_eq_true hall.1, hall.2.1, ?_⟩
    cases htype : (g t).type with
    | none => simp [htype, elementChecks, hnone] at hall
    | some x => simpa [htype, elementChecks, holds_given hr] using hall.2.2
  case typedef =>
    cases hn : (g t).name with
    | none => simp [hn, hnone] at hall
    | some n =>
      have hr := forall_referenceChecks (hown (by simp [hcls])) (a := (g t).type) (b := (g u).type)
      rw [hn] at hall
      simp only [List.forall_mem_cons, hr] at hall
      exact ⟨⟨n, rfl, of_decide_eq_true hall.1⟩, of_decide_eq_true hall.2.1, hall.2.2⟩
  case ptrToMember => simp at hall
  case typeChain =>
    have hr := forall_referenceChecks (hown (by simp [hcls])) (a := (g t).type) (b := (g u).type)
    simp only [List.forall_mem_cons, hr] at hall
    exact ⟨of_decide_eq_true hall.1, hall.2⟩
  case withDataMembers =>
    rw [nextAssumptions, if_pos hcls] at h
    rw [List.forall_mem_cons] at hall
    exact ⟨of_decide_eq_true hall.1, forall₂_of_memberChecks h hnone hall.2⟩
  case typeDescribingSubprogram =>
    have hr := hown (by simp [hcls])
    simp only [List.forall_mem_cons, List.forall_mem_append, forall_referenceChecks hr] at hall
    obtain ⟨hname, href, hvariadic, hparameters⟩ := hall
    exact ⟨of_decide_eq_true hname, ⟨href, of_decide_eq_true hvariadic⟩,
      forall₂_of_parameterChecks hr hnone hparameters⟩

end Meaning

section Answers

variable {g : TypeGraph ι} [DecidableEq ι] {summaryCode : ι → Except Fault (Option (BitVec 32))}
variable {fuel : ℕ} {t u : ι} {asm : Assumptions ι}

/-- A type's summary code as far as it is given. -/
def codeOf (summaryCode : ι → Except Fault (Option (BitVec 32))) (t : ι) : Option (BitVec 32) :=
  match summaryCode t with
  | .ok code => code
  | .error _ => none

variable (g summaryCode) in
/-- What a question asks: the greatest relation up to the assumptions.  `v` is what is said of an
absent attribute. -/
def Means (v : Prop) : Question ι → Prop
  | none => v
  | some (_, _, none) => False
  | some (asm, t, some u) => UpTo (Test g (codeOf summaryCode)) (Assumed asm) t u

omit [DecidableEq ι] in
theorem reads_means (v : Prop) : Reads (Means g summaryCode v) asm
    (UpTo (Test g (codeOf summaryCode)) (Assumed asm)) := ⟨fun _ _ => Iff.rfl, fun _ => id⟩

omit [DecidableEq ι] in
theorem quickTests_iff {b : Bool} (h : quickTests g summaryCode t u = .ok b) :
    b = true ↔ QuickTests g (codeOf summaryCode) t u := by
  rw [quickTests] at h
  split_ifs at h with hnames
  · obtain ⟨c, hc, h⟩ := bind_eq_ok.1 h
    obtain ⟨d, hd, h⟩ := bind_eq_ok.1 h
    rw [← Except.ok.inj h, QuickTests, codeOf, codeOf, hc, hd, decide_eq_true_iff]
    exact (and_iff_right hnames.2).symm.trans (and_iff_right hnames.1).symm
  · rw [← Except.ok.inj h]
    exact iff_of_false Bool.false_ne_true fun hq => hnames ⟨hq.1, hq.2.1⟩

/-- **The checks of a comparison**: none where it is settled that the types are equal, one that
fails where they are not, and else those of both overrides. -/
theorem checks_cases {cs : List (Check (Question ι))}
    (h : checks g summaryCode fuel (some (asm, t, some u)) = .ok cs) :
    (cs = [] ∧ UpTo (Test g (codeOf summaryCode)) (Assumed asm) t u) ∨
      (cs = [.decided false] ∧ ¬UpTo (Test g (codeOf summaryCode)) (Assumed asm) t u) ∨
        (t ≠ u ∧ ¬Assumed asm t u ∧ QuickTests g (codeOf summaryCode) t u ∧
          cs = ownChecks g t u asm ++ ownChecks g u t asm) := by
  have hmono : Monotone (Test g (codeOf summaryCode)) := test_mono
  have hup := upTo_iff hmono (A := Assumed asm) (x := t) (y := u)
  rw [checks] at h
  by_cases heq : some u = some t
  · rw [if_pos heq] at h
    obtain rfl := Option.some.inj heq
    exact .inl ⟨(Except.ok.inj h).symm, hup.2 (.inr (.inl rfl))⟩
  have hne : t ≠ u := fun h => heq (h ▸ rfl)
  rw [if_neg heq] at h
  by_cases hasm : Assumed asm t u
  · rw [if_pos hasm] at h
    exact .inl ⟨(Except.ok.inj h).symm, hup.2 (.inl hasm)⟩
  rw [if_neg hasm] at h
  have htest (hup' : UpTo (Test g (codeOf summaryCode)) (Assumed asm) t u) :=
    ((hup.1 hup').resolve_left hasm).resolve_left hne
  obtain ⟨b, hb, h⟩ := bind_eq_ok.1 h
  have hquick := quickTests_iff hb
  cases b with
  | false =>
    rw [if_neg Bool.false_ne_true] at h
    exact .inr (.inl ⟨(Except.ok.inj h).symm, fun hup' =>
      Bool.false_ne_true (hquick.2 (htest hup').1)⟩)
  | true =>
    rw [if_pos rfl] at h
    by_cases hptr : (g t).tag = .ptrToMemberType
    · rw [if_pos hptr] at h
      obtain ⟨c, -, h⟩ := bind_eq_ok.1 h
      exact .inr (.inl ⟨(Except.ok.inj h).symm, fun hup' =>
        not_locallyEqual_ptrToMember g _ hptr u (htest hup').2.1⟩)
    · rw [if_neg hptr] at h
      exact .inr (.inr ⟨hne, hasm, hquick.1 rfl, (Except.ok.inj h).symm⟩)

/-- Where all checks hold, the types are equal as the assumptions allow. -/
theorem means_of_allHold {p : Question ι} (h : AllHold (checks g summaryCode) p) :
    Means g summaryCode False p := by
  induction h with
  | @intro p cs hcs hdecided _ ih =>
    have hfalse : .decided false ∉ cs := fun hc => Bool.false_ne_true (hdecided false hc)
    obtain ⟨n, hn⟩ := hcs.exists_run
    rcases p with _ | ⟨asm, t, _ | u⟩
    · cases hn
    · obtain rfl : [.decided false] = cs := Except.ok.inj hn
      exact absurd List.mem_cons_self hfalse
    · rcases checks_cases hn with ⟨-, hup⟩ | ⟨rfl, -⟩ | ⟨hne, hasm, hquick, rfl⟩
      · exact hup
      · exact absurd List.mem_cons_self hfalse
      · have hall : ∀ c ∈ ownChecks g t u asm ++ ownChecks g u t asm,
            c.Holds (Means g summaryCode False) := by
          intro c hc
          cases c with
          | decided b => exact hdecided b hc
          | call q => exact ih q hc
        rw [List.forall_mem_append] at hall
        refine (test_nextAssumptions_iff hne hasm hquick).1
          ⟨locallyEqual_of_ownChecks (reads_means False) id hall.1, ?_⟩
        rw [← assumed_nextAssumptions_comm hquick.1]
        exact locallyEqual_of_ownChecks (reads_means False) id hall.2

/-- A comparison of types that are equal as the assumptions allow does not return `UNEQUAL`. -/
theorem eq_true_of_means {p : Question ι} {b : Bool} (h : comparison g summaryCode fuel p = .ok b)
    (hp : Means g summaryCode True p) : b = true := by
  induction fuel generalizing p b with
  | zero => exact absurd h (isConjunction.zero p b)
  | succ fuel ih =>
    rw [isConjunction.succ] at h
    obtain ⟨cs, hcs, hall⟩ := bind_eq_ok.1 h
    rcases p with _ | ⟨asm, t, _ | u⟩
    · cases hcs
    · exact hp.elim
    · rcases checks_cases hcs with ⟨rfl, -⟩ | ⟨-, hnot⟩ | ⟨hne, hasm, hquick, rfl⟩
      · exact (Except.ok.inj hall).symm
      · exact absurd hp hnot
      · obtain ⟨htu, hut⟩ := (test_nextAssumptions_iff hne hasm hquick).2 hp
        rw [← assumed_nextAssumptions_comm hquick.1] at hut
        refine eq_true_of_holds hall fun c hc => ?_
        have hholds : c.Holds (Means g summaryCode True) := by
          rcases List.mem_append.1 hc with hc | hc
          · exact forall_ownChecks (reads_means True) trivial htu c hc
          · exact forall_ownChecks (reads_means True) trivial hut c hc
        cases c with
        | decided b => exact hholds
        | call q => exact fun b' hb' => ih hb' hholds

/-- **On every graph a comparison that returns** decides the greatest relation up to its
assumptions. -/
theorem comparison_iff {b : Bool}
    (h : comparison g summaryCode fuel (some (asm, t, some u)) = .ok b) :
    b = true ↔ UpTo (Test g (codeOf summaryCode)) (Assumed asm) t u := by
  constructor
  · rintro rfl
    exact means_of_allHold (isConjunction.settles_true_iff.1 (isConjunction.settles h))
  · exact fun hup => eq_true_of_means h hup

end Answers

/-! ### What a comparison leads to -/

section Calls

variable {g : TypeGraph ι} {t u : ι} {asm : Assumptions ι} {q : Question ι}

theorem mem_referenceChecks {a b : Option ι} (h : .call q ∈ referenceChecks asm a b) :
    ∃ x y, a = some x ∧ b = some y ∧ q = some (asm, x, some y) := by
  cases a <;> cases b <;> simp [referenceChecks] at h ⊢
  exact h

theorem mem_subrangeChecks {os ts : List ι} (h : .call q ∈ subrangeChecks g asm os ts) :
    ∃ s ∈ os, ∃ s' ∈ ts, ∃ x, (g s).type = some x ∧ q = some (asm, x, (g s').type) := by
  induction os generalizing ts with
  | nil => cases ts <;> simp [subrangeChecks] at h
  | cons a os ih =>
    cases ts with
    | nil => simp [subrangeChecks] at h
    | cons b ts =>
      have hlater (h : .call q ∈ subrangeChecks g asm os ts) : ∃ s ∈ a :: os, ∃ s' ∈ b :: ts,
          ∃ x, (g s).type = some x ∧ q = some (asm, x, (g s').type) := by
        obtain ⟨s, hs, s', hs', hx⟩ := ih h
        exact ⟨s, List.mem_cons_of_mem _ hs, s', List.mem_cons_of_mem _ hs', hx⟩
      rw [subrangeChecks] at h
      cases ha : (g a).type with
      | none =>
        rw [ha] at h
        exact hlater h
      | some x =>
        rw [ha] at h
        rcases List.mem_cons.1 h with h | h
        · injection h with h
          exact ⟨a, List.mem_cons_self, b, List.mem_cons_self, x, ha, h⟩
        · exact hlater h

theorem mem_elementChecks {a b : Option ι} (h : .call q ∈ elementChecks asm a b) :
    (q = none ∧ a = none) ∨ ∃ x, a = some x ∧ q = some (asm, x, b) := by
  cases a <;> simpa [elementChecks] using h

theorem mem_memberChecks {os ts : List (DataMember ι)} (h : .call q ∈ memberChecks asm os ts) :
    ∃ c ∈ os, ∃ d ∈ ts,
      (q = none ∧ (c.typeHandlingBitfields = none ∨ d.typeHandlingBitfields = none)) ∨
      ∃ x y, c.typeHandlingBitfields = some x ∧ d.typeHandlingBitfields = some y ∧
        q = some (asm, x, some y) := by
  induction os generalizing ts with
  | nil => cases ts <;> simp [memberChecks] at h
  | cons a os ih =>
    cases ts with
    | nil => simp [memberChecks] at h
    | cons b ts =>
      rw [memberChecks] at h
      cases ha : a.typeHandlingBitfields with
      | none =>
        simp only [ha, List.mem_singleton, Check.call.injEq] at h
        exact ⟨a, List.mem_cons_self, b, List.mem_cons_self, .inl ⟨h, .inl ha⟩⟩
      | some x =>
        cases hb : b.typeHandlingBitfields with
        | none =>
          simp only [ha, hb, List.mem_singleton, Check.call.injEq] at h
          exact ⟨a, List.mem_cons_self, b, List.mem_cons_self, .inl ⟨h, .inr hb⟩⟩
        | some y =>
          simp only [ha, hb, List.mem_cons, Check.call.injEq, reduceCtorEq, false_or] at h
          rcases h with h | h
          · exact ⟨a, List.mem_cons_self, b, List.mem_cons_self, .inr ⟨x, y, ha, hb, h⟩⟩
          · obtain ⟨c, hc, d, hd, hq⟩ := ih h
            exact ⟨c, List.mem_cons_of_mem _ hc, d, List.mem_cons_of_mem _ hd, hq⟩

theorem mem_parameterChecks {os ts : List (FormalParameter ι)}
    (h : .call q ∈ parameterChecks asm os ts) :
    ∃ c ∈ os, ∃ d ∈ ts, (q = none ∧ (c.type = none ∨ d.type = none)) ∨
      ∃ x y, c.type = some x ∧ d.type = some y ∧ q = some (asm, y, some x) := by
  induction os generalizing ts with
  | nil => cases ts <;> simp [parameterChecks] at h
  | cons a os ih =>
    cases ts with
    | nil => simp [parameterChecks] at h
    | cons b ts =>
      rw [parameterChecks] at h
      cases hb : b.type with
      | none =>
        simp only [hb, List.mem_singleton, Check.call.injEq] at h
        exact ⟨a, List.mem_cons_self, b, List.mem_cons_self, .inl ⟨h, .inr hb⟩⟩
      | some y =>
        cases ha : a.type with
        | none =>
          simp only [ha, hb, List.mem_singleton, Check.call.injEq] at h
          exact ⟨a, List.mem_cons_self, b, List.mem_cons_self, .inl ⟨h, .inl ha⟩⟩
        | some x =>
          simp only [ha, hb, List.mem_cons, Check.call.injEq] at h
          rcases h with h | h
          · exact ⟨a, List.mem_cons_self, b, List.mem_cons_self, .inr ⟨x, y, ha, hb, h⟩⟩
          · obtain ⟨c, hc, d, hd, hq⟩ := ih h
            exact ⟨c, List.mem_cons_of_mem _ hc, d, List.mem_cons_of_mem _ hd, hq⟩

theorem not_absent {α : Type} {a b : Option α} (ha : a.isSome = true) (hb : b.isSome = true) :
    ¬(a = none ∨ b = none) := by
  rintro (rfl | rfl)
  · exact Bool.false_ne_true ha
  · exact Bool.false_ne_true hb

variable [DecidableEq ι]

/-- **What an override asks for**: an absent attribute, which a complete type has not, or types
referred to. -/
theorem mem_ownChecks (htag : (g u).tag = (g t).tag) (h : .call q ∈ ownChecks g t u asm) :
    (q = none ∧ ¬(Complete (g t) ∧ Complete (g u))) ∨
      ∃ a b, q = some (nextAssumptions g t u asm, a, b) ∧ ∀ y, b = some y → Asked g t u a y := by
  have href (hcls : (g t).tag.cls ≠ .withDataMembers)
      (h : .call q ∈ referenceChecks asm (g t).type (g u).type) : ∃ a b,
      q = some (nextAssumptions g t u asm, a, b) ∧ ∀ y, b = some y → Asked g t u a y := by
    obtain ⟨x, y, hx, hy, rfl⟩ := mem_referenceChecks h
    rw [nextAssumptions, if_neg hcls]
    refine ⟨x, some y, rfl, fun y' hy' => ?_⟩
    obtain rfl := Option.some.inj hy'
    exact asked_type hx hy
  rw [ownChecks] at h
  cases hcls : (g t).tag.cls <;> rw [hcls] at h <;>
    simp only [List.mem_cons, List.mem_append, reduceCtorEq, List.not_mem_nil, false_or,
      or_false] at h
  case subrange | enumeration | typeChain => exact .inr (href (by simp [hcls]) h)
  case array =>
    rw [nextAssumptions, if_neg (by simp [hcls])]
    rcases h with h | h
    · obtain ⟨s, hs, s', hs', x, hx, rfl⟩ := mem_subrangeChecks h
      exact .inr ⟨x, _, rfl, fun y hy =>
        .inl ⟨subrange_mem_references hs hx, subrange_mem_references hs' hy⟩⟩
    · rcases mem_elementChecks h with ⟨rfl, htype⟩ | ⟨x, hx, rfl⟩
      · refine .inl ⟨rfl, fun hc => ?_⟩
        have := hc.1.elementType (tag_eq_arrayType hcls)
        rw [htype] at this
        cases this
      · exact .inr ⟨x, _, rfl, fun y hy => asked_type hx hy⟩
  case typedef =>
    cases hn : (g t).name with
    | none =>
      simp only [hn, List.mem_singleton, Check.call.injEq] at h
      refine .inl ⟨h, fun hc => ?_⟩
      have := hc.1.typedefNamed (tag_eq_typedef hcls)
      rw [hn] at this
      cases this
    | some n =>
      simp only [hn, List.mem_cons, reduceCtorEq, false_or] at h
      exact .inr (href (by simp [hcls]) h)
  case withDataMembers =>
    rw [nextAssumptions, if_pos hcls]
    obtain ⟨c, hc, d, hd, ⟨rfl, habsent⟩ | ⟨x, y, hx, hy, rfl⟩⟩ := mem_memberChecks h
    · refine .inl ⟨rfl, fun hcomplete => not_absent ?_ ?_ habsent⟩
      · exact hcomplete.1.memberTypes hcls c hc
      · exact hcomplete.2.memberTypes (by rw [htag, hcls]) d hd
    · refine .inr ⟨x, _, rfl, fun y' hy' => ?_⟩
      obtain rfl := Option.some.inj hy'
      exact .inl ⟨member_mem_references hc hx, member_mem_references hd hy⟩
  case typeDescribingSubprogram =>
    rcases h with h | h
    · exact .inr (href (by simp [hcls]) h)
    rw [nextAssumptions, if_neg (by simp [hcls])]
    obtain ⟨c, hc, d, hd, ⟨rfl, habsent⟩ | ⟨x, y, hx, hy, rfl⟩⟩ := mem_parameterChecks h
    · refine .inl ⟨rfl, fun hcomplete => not_absent ?_ ?_ habsent⟩
      · exact hcomplete.1.parameterTypes hcls c hc
      · exact hcomplete.2.parameterTypes (by rw [htag, hcls]) d hd
    · refine .inr ⟨y, _, rfl, fun x' hx' => ?_⟩
      obtain rfl := Option.some.inj hx'
      exact .inr ⟨parameter_mem_references hd hy, parameter_mem_references hc hx⟩

variable {summaryCode : ι → Except Fault (Option (BitVec 32))}

/-- A call is made in comparing two distinct types, not assumed equal, that pass the quick tests. -/
theorem calls_cases {p : Question ι} (h : Calls (checks g summaryCode) q p) :
    ∃ asm t u, p = some (asm, t, some u) ∧ ¬Assumed asm t u ∧
      QuickTests g (codeOf summaryCode) t u ∧
      (.call q ∈ ownChecks g t u asm ∨ .call q ∈ ownChecks g u t asm) := by
  obtain ⟨before, after, hcs, -⟩ := h
  obtain ⟨n, hn⟩ := hcs.exists_run
  have hmem : Check.call q ∈ before ++ .call q :: after := by simp
  rcases p with _ | ⟨asm, t, _ | u⟩
  · cases hn
  · rw [← Except.ok.inj hn] at hmem
    simp at hmem
  · rcases checks_cases hn with ⟨hnil, -⟩ | ⟨hfalse, -⟩ | ⟨-, hasm, hquick, hcs⟩
    · rw [hnil] at hmem
      simp at hmem
    · rw [hfalse] at hmem
      simp at hmem
    · rw [hcs, List.mem_append] at hmem
      exact ⟨asm, t, u, rfl, hasm, hquick, hmem⟩

/-- What is compared behind two types: an absent attribute, or types they refer to. -/
theorem calls_asked (h : Calls (checks g summaryCode) q (some (asm, t, some u))) :
    ¬Assumed asm t u ∧ (g u).tag = (g t).tag ∧
      ((q = none ∧ ¬(Complete (g t) ∧ Complete (g u))) ∨
        ∃ asm' a b, q = some (asm', a, b) ∧
          (asm' = nextAssumptions g t u asm ∨ asm' = nextAssumptions g u t asm) ∧
          ∀ y, b = some y → Asked g t u a y) := by
  obtain ⟨asm', t', u', heq, hasm, hquick, hmem⟩ := calls_cases h
  cases heq
  refine ⟨hasm, hquick.1, ?_⟩
  rcases hmem with hmem | hmem
  · rcases mem_ownChecks hquick.1 hmem with hnone | ⟨a, b, hq, hask⟩
    · exact .inl hnone
    · exact .inr ⟨_, a, b, hq, .inl rfl, hask⟩
  · rcases mem_ownChecks hquick.1.symm hmem with ⟨hnone, hc⟩ | ⟨a, b, hq, hask⟩
    · exact .inl ⟨hnone, fun h => hc h.symm⟩
    · exact .inr ⟨_, a, b, hq, .inr rfl, fun y hy => Or.symm (hask y hy)⟩

/-- **No endless chain of comparisons**, where every cycle passes through a type with members. -/
theorem acc_calls [Fintype ι] (hcycles : CyclesPassThroughMembers g) (p : Question ι) :
    Acc (Calls (checks g summaryCode)) p := by
  obtain ⟨rank, n, hrank, hn⟩ := exists_bounded_rank hcycles
  have hleaf : ∀ p : Question ι, (∀ asm t u, p ≠ some (asm, t, some u)) →
      Acc (Calls (checks g summaryCode)) p := by
    intro p hp
    refine Acc.intro p fun q hq => ?_
    obtain ⟨asm, t, u, heq, -⟩ := calls_cases hq
    exact absurd heq (hp asm t u)
  have htypes : ∀ k asm t u, depth rank n t u asm < k →
      Acc (Calls (checks g summaryCode)) (some (asm, t, some u)) := by
    intro k
    induction k with
    | zero => exact fun asm t u h => absurd h (Nat.not_lt_zero _)
    | succ k ih =>
      intro asm t u hk
      refine Acc.intro _ fun q hq => ?_
      obtain ⟨hasm, htag, ⟨rfl, -⟩ | ⟨asm', a, b, rfl, hasm', hask⟩⟩ := calls_asked hq
      · exact hleaf none fun _ _ _ h => by cases h
      · cases b with
        | none => exact hleaf _ fun _ _ _ h => by cases h
        | some y =>
          have := depth_next_lt hrank hn htag hasm (hask y rfl) hasm'
          exact ih asm' a y (by omega)
  rcases p with _ | ⟨asm, t, _ | u⟩
  · exact hleaf none fun _ _ _ h => by cases h
  · exact hleaf _ fun _ _ _ h => by cases h
  · exact htypes _ asm t u (Nat.lt_succ_self _)

variable (g summaryCode) in
/-- The comparison asked for can begin: it is about no absent attribute, and the summary codes are
given where the quick tests ask for them. -/
def Answerable : Question ι → Prop
  | none => False
  | some (_, _, none) => True
  | some (asm, t, some u) =>
    t = u ∨ Assumed asm t u ∨ ∃ b, quickTests g summaryCode t u = .ok b

theorem hasChecks_iff [Fintype ι] (hcycles : CyclesPassThroughMembers g) :
    (∃ cs, HasChecks (checks g summaryCode) q cs) ↔ Answerable g summaryCode q := by
  rcases q with _ | ⟨asm, t, _ | u⟩
  · refine iff_of_false ?_ id
    rintro ⟨cs, hcs⟩
    obtain ⟨n, hn⟩ := hcs.exists_run
    cases hn
  · exact iff_of_true ⟨_, Settles.const rfl⟩ trivial
  · constructor
    · rintro ⟨cs, hcs⟩
      obtain ⟨n, hn⟩ := hcs.exists_run
      rw [checks] at hn
      by_cases heq : some u = some t
      · exact .inl (Option.some.inj heq).symm
      by_cases hasm : Assumed asm t u
      · exact .inr (.inl hasm)
      rw [if_neg heq, if_neg hasm] at hn
      obtain ⟨b, hb, -⟩ := bind_eq_ok.1 hn
      exact .inr (.inr ⟨b, hb⟩)
    · intro hanswer
      obtain ⟨rank, n, hrank, hn⟩ := exists_bounded_rank hcycles
      obtain ⟨c, hc⟩ := getConcreteType_returns hrank (Nat.lt_succ_of_le (hn u))
      suffices h : ∃ cs, checks g summaryCode (n + 1) (some (asm, t, some u)) = .ok cs by
        obtain ⟨cs, hcs⟩ := h
        exact ⟨cs, isConjunction.hasChecks hcs⟩
      rw [checks]
      by_cases heq : some u = some t
      · exact ⟨[], if_pos heq⟩
      rw [if_neg heq]
      by_cases hasm : Assumed asm t u
      · exact ⟨[], if_pos hasm⟩
      rw [if_neg hasm]
      rcases hanswer with rfl | hassumed | ⟨b, hb⟩
      · exact absurd rfl heq
      · exact absurd hassumed hasm
      · rw [hb, ok_bind, hc]
        cases b with
        | false => exact ⟨_, rfl⟩
        | true =>
          rw [if_pos rfl]
          split_ifs <;> exact ⟨_, rfl⟩

/-- **A comparison returns** exactly if all those it leads to can begin. -/
theorem comparison_returns_iff [Fintype ι] (hcycles : CyclesPassThroughMembers g) :
    (∃ b, Settles (comparison g summaryCode · q) b) ↔
      ∀ q', Relation.ReflTransGen (Calls (checks g summaryCode)) q' q →
        Answerable g summaryCode q' := by
  rw [isConjunction.settles_iff, and_iff_right (acc_calls hcycles q)]
  exact forall₂_congr fun q' _ => hasChecks_iff hcycles

end Calls

end Comparison
end Types
end Dwarfpp
