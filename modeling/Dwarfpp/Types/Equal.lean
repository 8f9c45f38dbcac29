/-
# Structural equality without the cache

`type_die::equal` of `src/dies.cpp` as `DISABLE_TYPE_EQUALITY_CACHE` leaves it:
quick tests, then `may_equal` both ways round, with a set of pairs assumed equal
that the comparison of two types with members extends by the pair at hand.
`equalAsking` asks a given `summary_code` that need not answer; `equal` is given the
summary codes.

On complete graphs, where no cycle avoids the types with members, it terminates
and decides the greatest bisimulation (`equal_iff_bisimilar`).
-/

import Mathlib
import Dwarfpp.Lib.Acyclic
import Dwarfpp.Lib.Coinduction
import Dwarfpp.Types.LocallyEqual

namespace Dwarfpp
namespace Types

open Lib

/-- Not two names that differ. -/
def NamesAgree : Option String → Option String → Prop
  | some a, some b => a = b
  | _, _ => True

instance : (a b : Option String) → Decidable (NamesAgree a b)
  | some a, some b => decEq a b
  | none, _ => .isTrue trivial
  | some _, none => .isTrue trivial

/-- Not two summary codes that differ, and not a summary code on one side only. -/
def SummaryCodesAgree : Option (BitVec 32) → Option (BitVec 32) → Prop
  | some a, some b => a = b
  | none, none => True
  | _, _ => False

theorem summaryCodesAgree_iff : ∀ {a b : Option (BitVec 32)}, SummaryCodesAgree a b ↔ a = b
  | some _, some _ => ⟨congrArg some, Option.some.inj⟩
  | none, none => iff_of_true trivial rfl
  | some _, none => iff_of_false id nofun
  | none, some _ => iff_of_false id nofun

instance (a b : Option (BitVec 32)) : Decidable (SummaryCodesAgree a b) :=
  decidable_of_iff _ summaryCodesAgree_iff.symm

section Definitions

variable {ι : Type} (g : TypeGraph ι) (summaryCode : ι → Option (BitVec 32))

/-- The quick tests that can rule out a match. -/
def QuickTests (self t : ι) : Prop :=
  (g t).tag = (g self).tag ∧ NamesAgree (g t).name (g self).name ∧
    SummaryCodesAgree (summaryCode self) (summaryCode t)

instance (self t : ι) : Decidable (QuickTests g summaryCode self t) :=
  inferInstanceAs (Decidable (_ ∧ _))

/-- The lambda `equal_nocache`. -/
def equalNocache {m : Type → Type} [Monad m] (mayEqual : ι → ι → Assumptions ι → m EqualResult)
    (t1 t2 : ι) (asm : Assumptions ι) : m EqualResult := do
  let r1 ← mayEqual t1 t2 asm
  if r1 = .unequal then return .unequal
  else
    let r2 ← mayEqual t2 t1 asm
    if r2 = .unequal then return .unequal
    else if r1 = .equalByAssumption ∨ r2 = .equalByAssumption then return .equalByAssumption
    else return .equal

/-- The quick tests, as far as `summary_code` answers: both are asked where the tags and the names
let the types match. -/
def quickTests (summaryCode : ι → Except Fault (Option (BitVec 32))) (self t : ι) :
    Except Fault Bool :=
  if (g t).tag = (g self).tag ∧ NamesAgree (g t).name (g self).name then do
    let thisSummaryCode ← summaryCode self
    let tSummaryCode ← summaryCode t
    return SummaryCodesAgree thisSummaryCode tSummaryCode
  else .ok false

/-- `type_die::equal`, to a depth of at most `fuel` calls. -/
def equalAsking [DecidableEq ι] (summaryCode : ι → Except Fault (Option (BitVec 32))) :
    ℕ → Compare (Except Fault) ι
  | 0, _, _, _ => .error .outOfSteps
  | fuel + 1, self, t, asm =>
    if t = some self then .ok .equal
    else match t with
      | none => .ok .unequal
      | some t =>
        if (self, t) ∈ asm ∨ (t, self) ∈ asm then .ok .equalByAssumption
        else do
          if ← quickTests g summaryCode self t then
            equalNocache (mayEqual g fuel (equalAsking summaryCode fuel)) self t asm
          else return .unequal

/-- `type_die::equal` where every type's summary code is given. -/
def equal [DecidableEq ι] : ℕ → Compare (Except Fault) ι :=
  equalAsking g fun t => .ok (summaryCode t)

/-- What makes two types equal, where `R` says which of the types they refer to are. -/
def Test (R : ι → ι → Prop) (t u : ι) : Prop :=
  t = u ∨ (QuickTests g summaryCode t u ∧ LocallyEqual g R t u ∧ LocallyEqual g R u t)

/-- Every pair of distinct types in `R` passes the quick tests and, both ways round, the local
condition of its class, with the corresponding references in `R` again. -/
def Bisimulation (R : ι → ι → Prop) : Prop :=
  ∀ t u, R t u → t ≠ u →
    QuickTests g summaryCode t u ∧ LocallyEqual g R t u ∧ LocallyEqual g R u t

/-- **Structural equality**: the greatest bisimulation. -/
def Bisimilar (t u : ι) : Prop := ∃ R, Bisimulation g summaryCode R ∧ R t u

/-- Every cycle of references passes through a type with members. -/
def CyclesPassThroughMembers : Prop :=
  ∀ t, ¬Relation.TransGen
    (fun a b => (g a).tag.cls ≠ .withDataMembers ∧ b ∈ references g a) t t

end Definitions

section Test

variable {ι : Type} {g : TypeGraph ι} {summaryCode : ι → Option (BitVec 32)}

theorem namesAgree_comm {a b : Option String} : NamesAgree a b ↔ NamesAgree b a := by
  cases a <;> cases b <;> simp [NamesAgree, eq_comm]

theorem quickTests_comm {t u : ι} :
    QuickTests g summaryCode t u ↔ QuickTests g summaryCode u t := by
  rw [QuickTests, QuickTests, summaryCodesAgree_iff, summaryCodesAgree_iff, namesAgree_comm,
    eq_comm, eq_comm (a := summaryCode t)]

theorem test_comm {R : ι → ι → Prop} {t u : ι} (h : Test g summaryCode R t u) :
    Test g summaryCode R u t := by
  rcases h with rfl | ⟨hq, htu, hut⟩
  · exact .inl rfl
  · exact .inr ⟨quickTests_comm.1 hq, hut, htu⟩

theorem test_mono : Monotone (Test g summaryCode) := by
  intro R S hRS t u h
  rcases h with rfl | ⟨hq, htu, hut⟩
  · exact .inl rfl
  · exact .inr ⟨hq, locallyEqual_mono g t u hRS htu, locallyEqual_mono g u t hRS hut⟩

/-- With no assumptions, the greatest relation is bisimilarity. -/
theorem upTo_test_iff {t u : ι} :
    UpTo (Test g summaryCode) (fun _ _ => False) t u ↔ Bisimilar g summaryCode t u := by
  constructor
  · rintro ⟨R, hR, htu⟩
    refine ⟨R, fun a b hab hne => ?_, htu⟩
    rcases hR a b hab with hfalse | rfl | h
    · exact hfalse.elim
    · exact absurd rfl hne
    · exact h
  · rintro ⟨R, hR, htu⟩
    refine ⟨R, fun a b hab => .inr ?_, htu⟩
    rcases Classical.em (a = b) with rfl | hne
    · exact .inl rfl
    · exact .inr (hR a b hab hne)

end Test

section Unfolding

variable {ι : Type} {g : TypeGraph ι}

theorem quickTests_given (summaryCode : ι → Option (BitVec 32)) (t u : ι) :
    quickTests g (fun t => .ok (summaryCode t)) t u =
      .ok (decide (QuickTests g summaryCode t u)) := by
  rw [quickTests]
  split_ifs with h
  · simp [QuickTests, h, pure, Except.pure]
  · have hnot : ¬QuickTests g summaryCode t u := fun hq => h ⟨hq.1, hq.2.1⟩
    rw [decide_eq_false hnot]

theorem equal_succ [DecidableEq ι] {summaryCode : ι → Option (BitVec 32)} {fuel : ℕ} {t u : ι}
    {asm : Assumptions ι} :
    equal g summaryCode (fuel + 1) t (some u) asm =
      if some u = some t then .ok .equal
      else if (t, u) ∈ asm ∨ (u, t) ∈ asm then .ok .equalByAssumption
      else if QuickTests g summaryCode t u then
        equalNocache (mayEqual g fuel (equal g summaryCode fuel)) t u asm
      else .ok .unequal := by
  rw [equal, equalAsking]
  refine if_congr Iff.rfl rfl (if_congr Iff.rfl rfl ?_)
  rw [quickTests_given, ok_bind]
  exact if_congr decide_eq_true_iff rfl rfl

end Unfolding

section Termination

variable {ι : Type} {g : TypeGraph ι}

/-- A rank that the references of a type without members count down. -/
theorem exists_reference_rank [Finite ι] (h : CyclesPassThroughMembers g) :
    ∃ rank : ι → ℕ, ∀ t, (g t).tag.cls ≠ .withDataMembers → ∀ x ∈ references g t,
      rank x < rank t := by
  obtain ⟨rank, hrank⟩ := exists_rank h
  exact ⟨rank, fun t ht x hx => hrank t x ⟨ht, hx⟩⟩

theorem getConcreteType_returns {rank : ι → ℕ}
    (hrank : ∀ t, (g t).tag.cls ≠ .withDataMembers → ∀ x ∈ references g t, rank x < rank t)
    {fuel : ℕ} {t : ι} (hfuel : rank t < fuel) : ∃ c, getConcreteType g fuel t = .ok c := by
  induction fuel generalizing t with
  | zero => exact absurd hfuel (Nat.not_lt_zero _)
  | succ fuel ih =>
    rw [getConcreteType]
    split_ifs with htag
    · cases htype : (g t).type with
      | none => exact ⟨none, rfl⟩
      | some u =>
        have hcls : (g t).tag.cls ≠ .withDataMembers := by
          cases h : (g t).tag <;> rw [h] at htag <;> first | decide | cases htag
        have := hrank t hcls u (type_mem_references htype)
        exact ih (by omega)
    · exact ⟨some t, rfl⟩

variable [Fintype ι] [DecidableEq ι]

/-- The number of pairs not assumed, either way round. -/
def unassumed (asm : Assumptions ι) : ℕ :=
  (Finset.univ.filter fun p : ι × ι => p ∉ asm ∧ p.swap ∉ asm).card

theorem unassumed_insert_lt {asm : Assumptions ι} {t u : ι} (h : ¬((t, u) ∈ asm ∨ (u, t) ∈ asm)) :
    unassumed (asm.insert (t, u)) < unassumed asm := by
  rw [not_or] at h
  refine Finset.card_lt_card ⟨fun p hp => ?_, fun hle => ?_⟩
  · simp only [Finset.mem_filter, List.mem_insert_iff, not_or] at hp ⊢
    exact ⟨hp.1, hp.2.1.2, hp.2.2.2⟩
  · have hmem : (t, u) ∈ Finset.univ.filter fun p : ι × ι => p ∉ asm ∧ p.swap ∉ asm := by
      simpa using h
    have := hle hmem
    simp at this

end Termination

section Decides

variable {ι : Type} {g : TypeGraph ι} {summaryCode : ι → Option (BitVec 32)}

/-- The pairs assumed equal, either way round. -/
def Assumed (asm : Assumptions ι) (t u : ι) : Prop := (t, u) ∈ asm ∨ (u, t) ∈ asm

instance [DecidableEq ι] (asm : Assumptions ι) (t u : ι) : Decidable (Assumed asm t u) :=
  inferInstanceAs (Decidable (_ ∨ _))

/-- `may_equal` both ways round decides both conditions. -/
theorem equalNocache_decides {m : Type → Type} [Monad m] (M : Returns m) {certain : Prop}
    {may : ι → ι → Assumptions ι → m EqualResult} {t u : ι} {asm : Assumptions ι} {p q : Prop}
    (htu : M.Ret (may t u asm) (Decides certain p)) (hut : M.Ret (may u t asm) (Decides certain q)) :
    M.Ret (equalNocache may t u asm) (Decides certain (p ∧ q)) := by
  refine M.ret_bind htu fun r1 h1 => ?_
  by_cases hr1 : r1 = .unequal
  · rw [if_pos hr1]
    exact M.ret_pure (decides_unequal fun h => h1.1.2 h.1 hr1)
  · rw [if_neg hr1]
    refine M.ret_bind hut fun r2 h2 => ?_
    by_cases hr2 : r2 = .unequal
    · rw [if_pos hr2]
      exact M.ret_pure (decides_unequal fun h => h2.1.2 h.2 hr2)
    · have hpq : p ∧ q := ⟨h1.1.1 hr1, h2.1.1 hr2⟩
      rw [if_neg hr2]
      split_ifs with hby
      · refine M.ret_pure ⟨iff_of_true EqualResult.noConfusion hpq, fun hc => ?_⟩
        rcases hby with hby | hby
        · exact absurd hby (h1.2 hc)
        · exact absurd hby (h2.2 hc)
      · exact M.ret_pure (decides_equal hpq)

theorem assumed_nextAssumptions [DecidableEq ι] {asm : Assumptions ι} {t u a b : ι} :
    Assumed (nextAssumptions g t u asm) a b ↔ Assumed asm a b ∨
      ((g t).tag.cls = .withDataMembers ∧ ((a = t ∧ b = u) ∨ (a = u ∧ b = t))) := by
  rw [nextAssumptions]
  split_ifs with hcls
  · simp only [Assumed, List.mem_insert_iff, Prod.mk.injEq, hcls, true_and]
    tauto
  · simp [hcls]

theorem assumed_nextAssumptions_comm [DecidableEq ι] {asm : Assumptions ι} {t u : ι}
    (htag : (g u).tag = (g t).tag) :
    Assumed (nextAssumptions g u t asm) = Assumed (nextAssumptions g t u asm) := by
  funext a b
  rw [eq_iff_iff, assumed_nextAssumptions, assumed_nextAssumptions, htag,
    or_comm (a := a = t ∧ b = u)]

/-- Two distinct types that are not assumed equal and fail a quick test. -/
theorem decides_unequal_of_not_quickTests {t u : ι} {asm : Assumptions ι} (hne : t ≠ u)
    (hasm : ¬Assumed asm t u) (hquick : ¬QuickTests g summaryCode t u) :
    Decides False (UpTo (Test g summaryCode) (Assumed asm) t u) .unequal :=
  decides_unequal fun hup => hquick
    ((((upTo_iff test_mono).1 hup).resolve_left hasm).resolve_left hne).1

/-- **The pair in question may be assumed** while its references are compared. -/
theorem test_nextAssumptions_iff [DecidableEq ι] {t u : ι} {asm : Assumptions ι} (hne : t ≠ u)
    (hasm : ¬Assumed asm t u) (hquick : QuickTests g summaryCode t u) :
    LocallyEqual g (UpTo (Test g summaryCode) (Assumed (nextAssumptions g t u asm))) t u ∧
        LocallyEqual g (UpTo (Test g summaryCode) (Assumed (nextAssumptions g t u asm))) u t ↔
      UpTo (Test g summaryCode) (Assumed asm) t u := by
  have hstep : Test g summaryCode (UpTo (Test g summaryCode) (Assumed (nextAssumptions g t u asm)))
      t u ↔ _ := ⟨fun h => (h.resolve_left hne).2, fun h => .inr ⟨hquick, h⟩⟩
  rw [← hstep]
  constructor
  · intro htest
    refine upTo_le_upTo test_mono (fun a b hab => ?_) ((upTo_iff test_mono).2 (.inr htest))
    rcases assumed_nextAssumptions.1 hab with hab | ⟨-, ⟨rfl, rfl⟩ | ⟨rfl, rfl⟩⟩
    · exact .inl hab
    · exact .inr htest
    · exact .inr (test_comm htest)
  · intro hup
    refine test_mono (fun a b => upTo_mono fun c d hcd => ?_) t u
      (((upTo_iff test_mono).1 hup).resolve_left hasm)
    exact assumed_nextAssumptions.2 (.inl hcd)

/-- **The comparison of two distinct types** that pass the quick tests decides the greatest relation
up to the assumptions, if the questions it asks are answered so. -/
theorem equalNocache_decides_upTo [DecidableEq ι] {rank : ι → ℕ}
    (hcomplete : ∀ t, Complete (g t))
    (hrank : ∀ t, (g t).tag.cls ≠ .withDataMembers → ∀ x ∈ references g t, rank x < rank t)
    {equal : Compare (Except Fault) ι} {fuel : ℕ} {t u : ι} {asm : Assumptions ι}
    (hdepth : rank t + rank u < fuel) (hne : t ≠ u) (hasm : ¬Assumed asm t u)
    (hquick : QuickTests g summaryCode t u)
    (hvoid : ∀ a asm', (Returns.except Fault).Ret (equal a none asm') (· = .unequal))
    (htype : ∀ a b, Asked g t u a b → ∀ asm',
      asm' = nextAssumptions g t u asm ∨ asm' = nextAssumptions g u t asm →
      (Returns.except Fault).Ret (equal a (some b) asm')
        (Decides False (UpTo (Test g summaryCode) (Assumed asm') a b))) :
    (Returns.except Fault).Ret (equalNocache (mayEqual g fuel equal) t u asm)
      (Decides False (UpTo (Test g summaryCode) (Assumed asm) t u)) := by
  have htu : Answers (Returns.except Fault) False True (Asked g t u)
      (UpTo (Test g summaryCode) (Assumed (nextAssumptions g t u asm))) equal
      (nextAssumptions g t u asm) :=
    ⟨fun a b hab => htype a b hab _ (.inl rfl), fun _ a => hvoid a _⟩
  have hut : Answers (Returns.except Fault) False True (Asked g u t)
      (UpTo (Test g summaryCode) (Assumed (nextAssumptions g t u asm))) equal
      (nextAssumptions g u t asm) := by
    rw [← assumed_nextAssumptions_comm hquick.1]
    exact ⟨fun a b hab => htype a b (Or.symm hab) _ (.inr rfl), fun _ a => hvoid a _⟩
  refine (Returns.except Fault).ret_mono (equalNocache_decides _
    (mayEqual_decides (hcomplete t) (hcomplete u)
      (getConcreteType_returns hrank (by omega)) (.inl trivial) fun _ => htu)
    (mayEqual_decides (hcomplete u) (hcomplete t)
      (getConcreteType_returns hrank (by omega)) (.inl trivial) fun _ => hut))
    fun r hr => ⟨hr.1.trans (test_nextAssumptions_iff hne hasm hquick), hr.2⟩

variable [Fintype ι] [DecidableEq ι] {rank : ι → ℕ} {n : ℕ}

/-- How deep the recursion can go: each further assumption allows one more descent. -/
def depth (rank : ι → ℕ) (n : ℕ) (t u : ι) (asm : Assumptions ι) : ℕ :=
  unassumed asm * (2 * n + 1) + rank t + rank u

/-- **The questions an override asks are of smaller depth.** -/
theorem depth_asked_lt
    (hrank : ∀ t, (g t).tag.cls ≠ .withDataMembers → ∀ x ∈ references g t, rank x < rank t)
    (hn : ∀ t, rank t ≤ n) {t u x y : ι} {asm : Assumptions ι} (htag : (g u).tag = (g t).tag)
    (hasm : ¬((t, u) ∈ asm ∨ (u, t) ∈ asm)) (h : Asked g t u x y) :
    depth rank n x y (nextAssumptions g t u asm) < depth rank n t u asm := by
  rw [nextAssumptions]
  split_ifs with hcls
  · have hlt := unassumed_insert_lt hasm
    have := hn x
    have := hn y
    calc depth rank n x y (asm.insert (t, u))
        < (unassumed (asm.insert (t, u)) + 1) * (2 * n + 1) := by
          rw [depth, Nat.add_mul]
          omega
      _ ≤ unassumed asm * (2 * n + 1) := Nat.mul_le_mul_right _ hlt
      _ ≤ depth rank n t u asm := by
          rw [depth]
          omega
  · have hu : (g u).tag.cls ≠ .withDataMembers := htag ▸ hcls
    rcases h with ⟨hx, hy⟩ | ⟨hx, hy⟩
    · have := hrank t hcls x hx
      have := hrank u hu y hy
      simp only [depth]
      omega
    · have := hrank u hu x hx
      have := hrank t hcls y hy
      simp only [depth]
      omega

/-- **The questions asked** about two types in question are of smaller depth, under the assumptions
of either way round. -/
theorem depth_next_lt
    (hrank : ∀ t, (g t).tag.cls ≠ .withDataMembers → ∀ x ∈ references g t, rank x < rank t)
    (hn : ∀ t, rank t ≤ n) {t u a b : ι} {asm asm' : Assumptions ι} (htag : (g u).tag = (g t).tag)
    (hasm : ¬Assumed asm t u) (hab : Asked g t u a b)
    (h : asm' = nextAssumptions g t u asm ∨ asm' = nextAssumptions g u t asm) :
    depth rank n a b asm' < depth rank n t u asm := by
  rcases h with rfl | rfl
  · exact depth_asked_lt hrank hn htag hasm hab
  · have := depth_asked_lt hrank hn htag.symm (mt Or.symm hasm) (Or.symm hab)
    have : depth rank n u t asm = depth rank n t u asm := by
      simp only [depth]
      omega
    omega

/-- **Equality under assumptions** decides the greatest relation up to these assumptions. -/
theorem equal_decides (hcomplete : ∀ t, Complete (g t))
    (hrank : ∀ t, (g t).tag.cls ≠ .withDataMembers → ∀ x ∈ references g t, rank x < rank t)
    (hn : ∀ t, rank t ≤ n) {fuel : ℕ} {t u : ι} {asm : Assumptions ι}
    (hfuel : depth rank n t u asm + 1 < fuel) :
    (Returns.except Fault).Ret (equal g summaryCode fuel t (some u) asm)
      (Decides False (UpTo (Test g summaryCode) (Assumed asm) t u)) := by
  induction fuel generalizing t u asm with
  | zero => exact absurd hfuel (Nat.not_lt_zero _)
  | succ fuel ih =>
    rw [equal_succ]
    split_ifs with heq hassumed hquick
    · obtain rfl := Option.some.inj heq
      exact ⟨_, rfl, decides_equal ((upTo_iff test_mono).2 (.inr (.inl rfl)))⟩
    · have hup : UpTo (Test g summaryCode) (Assumed asm) t u := (upTo_iff test_mono).2 (.inl hassumed)
      exact ⟨_, rfl, iff_of_true EqualResult.noConfusion hup, False.elim⟩
    · have hdepth : rank t + rank u < fuel := by
        rw [depth] at hfuel
        omega
      refine equalNocache_decides_upTo hcomplete hrank hdepth (fun h => heq (h ▸ rfl)) hassumed hquick
        (fun a asm' => ?_) fun a b hab asm' hasm' => ih ?_
      · obtain ⟨k, rfl⟩ := Nat.exists_eq_succ_of_ne_zero (by omega : fuel ≠ 0)
        exact ⟨_, rfl, rfl⟩
      · have := depth_next_lt hrank hn hquick.1 hassumed hab hasm'
        omega
    · exact ⟨_, rfl, decides_unequal_of_not_quickTests (fun h => heq (h ▸ rfl)) hassumed hquick⟩

end Decides

section Bisimilarity

variable {ι : Type} {g : TypeGraph ι}

/-- A rank that counts references down makes a graph's cycles pass through types with members. -/
theorem cyclesPassThroughMembers_of_rank (rank : ι → ℕ)
    (hrank : ∀ t, (g t).tag.cls ≠ .withDataMembers → ∀ x ∈ references g t, rank x < rank t) :
    CyclesPassThroughMembers g :=
  acyclic_of_rank rank fun a b hab => hrank a hab.1 b hab.2

/-- With no pairs assumed, the greatest relation is bisimilarity. -/
theorem upTo_assumed_nil_iff {summaryCode : ι → Option (BitVec 32)} {t u : ι} :
    UpTo (Test g summaryCode) (Assumed []) t u ↔ Bisimilar g summaryCode t u := by
  have hnone : Assumed ([] : Assumptions ι) = fun _ _ => False := by
    funext a b
    simp [Assumed]
  rw [hnone, upTo_test_iff]

theorem exists_bounded_rank [Finite ι] (h : CyclesPassThroughMembers g) :
    ∃ (rank : ι → ℕ) (n : ℕ),
      (∀ t, (g t).tag.cls ≠ .withDataMembers → ∀ x ∈ references g t, rank x < rank t) ∧
        ∀ t, rank t ≤ n := by
  obtain ⟨rank, hrank⟩ := exists_reference_rank h
  obtain ⟨n, hn⟩ := exists_bound rank
  exact ⟨rank, n, hrank, hn⟩

variable [Fintype ι] [DecidableEq ι]

/-- A depth that no comparison without assumptions reaches. -/
def depthBound (ι : Type) [Fintype ι] [DecidableEq ι] (n : ℕ) : ℕ :=
  unassumed ([] : Assumptions ι) * (2 * n + 1) + 2 * n + 1

theorem depth_nil_lt {rank : ι → ℕ} {n fuel : ℕ} (hn : ∀ t, rank t ≤ n)
    (hfuel : depthBound ι n < fuel) (t u : ι) : depth rank n t u [] + 1 < fuel := by
  have := hn t
  have := hn u
  rw [depthBound] at hfuel
  rw [depth]
  omega

/-- **Structural equality is the greatest bisimulation.**  On a complete graph whose cycles all
pass through types with members, `equal` returns, and something other than `UNEQUAL` if and only
if the two types are bisimilar. -/
theorem equal_iff_bisimilar (summaryCode : ι → Option (BitVec 32))
    (hcycles : CyclesPassThroughMembers g) (hcomplete : ∀ t, Complete (g t)) :
    ∃ n, ∀ fuel, n < fuel → ∀ t u, ∃ r, equal g summaryCode fuel t (some u) [] = .ok r ∧
      (r ≠ .unequal ↔ Bisimilar g summaryCode t u) := by
  obtain ⟨rank, n, hrank, hn⟩ := exists_bounded_rank hcycles
  refine ⟨depthBound ι n, fun fuel hfuel t u => ?_⟩
  obtain ⟨r, hr, hdec, -⟩ : (Returns.except Fault).Ret (equal g summaryCode fuel t (some u) [])
      (Decides False (UpTo (Test g summaryCode) (Assumed []) t u)) :=
    equal_decides hcomplete hrank hn (depth_nil_lt hn hfuel t u)
  exact ⟨r, hr, hdec.trans upTo_assumed_nil_iff⟩

end Bisimilarity

section Examples

/-- Two copies of `struct node { struct node *next; }`. -/
def nodeCopies (t : Fin 4) : TypeDie (Fin 4) :=
  if t.val % 2 = 0 then
    { (default : TypeDie (Fin 4)) with
      tag := .structureType, name := some "node",
      dataMembers := [⟨false, some (t + 1), some (t + 1), none, none⟩] }
  else { (default : TypeDie (Fin 4)) with tag := .pointerType, type := some (t - 1) }

theorem nodeCopies_complete : ∀ t, Complete (nodeCopies t) := by decide

theorem nodeCopies_cycles : CyclesPassThroughMembers nodeCopies :=
  cyclesPassThroughMembers_of_rank (fun t => t.val % 2) (by decide)

/-- The hypotheses of `equal_iff_bisimilar` on a graph with cycles. -/
theorem equal_nodeCopies :
    ∃ n, ∀ fuel, n < fuel → ∀ t u, ∃ r,
      equal nodeCopies (fun _ => none) fuel t (some u) [] = .ok r ∧
        (r ≠ .unequal ↔ Bisimilar nodeCopies (fun _ => none) t u) :=
  equal_iff_bisimilar _ nodeCopies_cycles nodeCopies_complete

/-- Type DIEs without an attribute that `may_equal` asserts: a structure's member and a formal
parameter without a type, an array without an element type, a typedef without a name. -/
def incompleteDies : List (TypeDie (Fin 2)) :=
  let d : TypeDie (Fin 2) := default
  [{ d with tag := .structureType, dataMembers := [⟨false, none, none, none, none⟩] },
    { d with tag := .subroutineType, formalParameters := [⟨none, none⟩] },
    { d with tag := .arrayType }, { d with tag := .typedef }]

/-- **A comparison of two types that lack the attribute** does not end well: an assertion fails. -/
theorem equal_typelessMembers : incompleteDies.Forall fun d =>
    CyclesPassThroughMembers (fun _ : Fin 2 => d) ∧
      ¬∃ n, ∀ fuel, n < fuel → ∀ t u, ∃ r,
        equal (fun _ : Fin 2 => d) (fun _ => none) fuel t (some u) [] = .ok r ∧
          (r ≠ .unequal ↔ Bisimilar (fun _ : Fin 2 => d) (fun _ => none) t u) := by
  have hfails : ∀ d : TypeDie (Fin 2), (∀ n, equal (fun _ : Fin 2 => d) (fun _ => none) (n + 1) 0
      (some 1) [] = .error .assertFailed) → ¬∃ n, ∀ fuel, n < fuel → ∀ t u, ∃ r,
        equal (fun _ : Fin 2 => d) (fun _ => none) fuel t (some u) [] = .ok r ∧
          (r ≠ .unequal ↔ Bisimilar (fun _ : Fin 2 => d) (fun _ => none) t u) := by
    rintro d herror ⟨n, h⟩
    obtain ⟨r, hr, -⟩ := h (n + 1) (Nat.lt_succ_self n) 0 1
    rw [herror] at hr
    cases hr
  rw [List.forall_iff_forall_mem]
  intro d hd
  refine ⟨cyclesPassThroughMembers_of_rank (fun _ => 0) fun t _ x hx => ?_, hfails d fun n => ?_⟩
  · have hnone : ∀ d ∈ incompleteDies, references (fun _ : Fin 2 => d) 0 = [] := by decide
    rw [show references (fun _ : Fin 2 => d) t = [] from hnone d hd] at hx
    cases hx
  · simp only [incompleteDies, List.mem_cons, List.not_mem_nil, or_false] at hd
    rcases hd with rfl | rfl | rfl | rfl <;> rfl

end Examples

end Types
end Dwarfpp
