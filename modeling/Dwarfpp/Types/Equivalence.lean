/-
# Is structural equality an equivalence?

`operator==` and `type_eq_fn` of `src/dies.cpp` over the equality of
`Types/Equal.lean`.  Equality is reflexive and symmetric, and transitive as far
as each override of `may_equal` goes.  The quick test on names is not: it is
skipped where one side has no name, and pointers, references, qualified and
unspecified types have no other test of their names.  An unnamed one can so be
equal to two that have different names.  Besides, a comparison need not answer: it
may come to an absent attribute, or to a summary code that is not given.  Nothing
else goes wrong (`typeEqFn_equivalence_iff`).
-/

import Dwarfpp.Types.Comparisons

namespace Dwarfpp
namespace Types

open Lib

variable {ι : Type} {g : TypeGraph ι} {summaryCode : ι → Option (BitVec 32)}

/-- `type_eq_fn`, with `operator==`.  `summaryCode` is what `summary_code` answers, or how it fails:
by an assertion or, where it recurs for ever, by running out of steps. -/
def typeEqFn [DecidableEq ι] (g : TypeGraph ι)
    (summaryCode : ι → Except Fault (Option (BitVec 32))) (fuel : ℕ) :
    Option ι → Option ι → Except Fault Bool
  | none, none => .ok true
  | some t1, some t2 => do
    let r ← equalAsking g summaryCode fuel t1 (some t2) []
    return r ≠ .unequal
  | _, _ => .ok false

section Relation

/-- **Unfolding bisimilarity.** -/
theorem bisimilar_iff {t u : ι} :
    Bisimilar g summaryCode t u ↔ Test g summaryCode (Bisimilar g summaryCode) t u := by
  have hup : UpTo (Test g summaryCode) (fun _ _ => False) = Bisimilar g summaryCode := by
    funext a b
    exact propext upTo_test_iff
  rw [← hup, upTo_iff test_mono, false_or]

theorem bisimilar_refl (t : ι) : Bisimilar g summaryCode t t := bisimilar_iff.2 (.inl rfl)

theorem bisimilar_symm {t u : ι} (h : Bisimilar g summaryCode t u) :
    Bisimilar g summaryCode u t := by
  have hle : ∀ {t u : ι}, LocallyEqual g (Bisimilar g summaryCode) t u →
      LocallyEqual g (fun a b => Bisimilar g summaryCode a b ∨ Bisimilar g summaryCode b a) t u :=
    fun {t u} h => locallyEqual_mono g t u (fun _ _ => Or.inl) h
  refine ⟨fun a b => Bisimilar g summaryCode a b ∨ Bisimilar g summaryCode b a,
    fun a b hab hne => ?_, .inr h⟩
  rcases hab with hab | hba
  · obtain ⟨hq, h₁, h₂⟩ := (bisimilar_iff.1 hab).resolve_left hne
    exact ⟨hq, hle h₁, hle h₂⟩
  · obtain ⟨hq, h₁, h₂⟩ := (bisimilar_iff.1 hba).resolve_left (Ne.symm hne)
    exact ⟨quickTests_comm.1 hq, hle h₂, hle h₁⟩

variable {S : ι → ι → Prop}

theorem VoidOr.trans {a b c : Option ι} (hab : VoidOr S a b) (hbc : VoidOr S b c) :
    VoidOr (fun x z => ∃ y, S x y ∧ S y z) a c := by
  cases a <;> cases b <;> cases c
  case none.none.none => trivial
  case some.some.some x y z => exact ⟨y, hab, hbc⟩
  all_goals first | exact hab.elim | exact hbc.elim

theorem Given.trans {a b c : Option ι} (hab : Given S a b) (hbc : Given S b c) :
    Given (fun x z => ∃ y, S x y ∧ S y z) a c := by
  intro x hx
  obtain ⟨y, hy, hxy⟩ := hab x hx
  obtain ⟨z, hz, hyz⟩ := hbc y hy
  exact ⟨z, hz, y, hxy, hyz⟩

/-- **Each override's condition composes.** -/
theorem LocallyEqual.trans {t u v : ι}
    (htag : (g u).tag = (g t).tag) (htu : LocallyEqual g S t u) (huv : LocallyEqual g S u v) :
    LocallyEqual g (fun x z => ∃ y, S x y ∧ S y z) t v := by
  have hcls : (g u).tag.cls = (g t).tag.cls := by rw [htag]
  unfold LocallyEqual at htu huv ⊢
  rw [hcls] at huv
  cases h : (g t).tag.cls <;> rw [h] at htu huv
  case base =>
    obtain ⟨h₁, h₂, h₃, h₄, h₅, h₆⟩ := htu
    obtain ⟨k₁, k₂, k₃, k₄, k₅, k₆⟩ := huv
    exact ⟨h₁.trans k₁, h₂.trans k₂, h₃.trans k₃, h₄.trans k₄, h₅.trans k₅, h₆.trans k₆⟩
  case unspecified => exact huv.trans htu
  case string =>
    obtain ⟨h₁, h₂, h₃, h₄⟩ := htu
    obtain ⟨k₁, k₂, k₃, k₄⟩ := huv
    exact ⟨h₁.trans k₁, h₂.trans k₂, k₃.trans h₃, fun hl => (h₄ hl).trans (k₄ (h₃.trans hl))⟩
  case subrange =>
    obtain ⟨⟨h₁, h₂⟩, h₃, h₄, h₅, h₆⟩ := htu
    obtain ⟨⟨k₁, k₂⟩, k₃, k₄, k₅, k₆⟩ := huv
    exact ⟨⟨h₁.trans k₁, h₂.trans k₂⟩, h₃.trans k₃, h₄.trans k₄, h₅.trans k₅, h₆.trans k₆⟩
  case enumeration =>
    obtain ⟨⟨h₁, h₂⟩, h₃, h₄⟩ := htu
    obtain ⟨⟨k₁, k₂⟩, k₃, k₄⟩ := huv
    exact ⟨⟨h₁.trans k₁, h₂.trans k₂⟩, h₃.trans k₃, h₄.trans k₄⟩
  case array =>
    obtain ⟨⟨h₁, h₂⟩, h₃, h₄⟩ := htu
    obtain ⟨⟨k₁, k₂⟩, k₃, k₄⟩ := huv
    refine ⟨⟨h₁.trans k₁, h₂.trans k₂⟩, forall₂_trans (fun a b c hab hbc => ?_) h₃ k₃,
      h₄.trans k₄⟩
    exact Given.trans hab hbc
  case typedef =>
    obtain ⟨⟨n, h₁, h₂, h₃⟩, h₄, h₅⟩ := htu
    obtain ⟨⟨n', k₁, k₂, k₃⟩, k₄, k₅⟩ := huv
    obtain rfl : n = n' := Option.some.inj (h₃.symm.trans k₁)
    exact ⟨⟨n, h₁, k₂, k₃⟩, h₄.trans k₄, h₅.trans k₅⟩
  case ptrToMember =>
    obtain ⟨fuel, c, a, hc, htag, -⟩ := htu
    have := chains_of_getConcreteType g hc
    rw [htag] at this
    exact nomatch this
  case typeChain =>
    obtain ⟨h₁, h₂⟩ := htu
    obtain ⟨k₁, k₂⟩ := huv
    exact ⟨h₁.trans k₁, h₂.trans k₂⟩
  case withDataMembers =>
    obtain ⟨⟨h₁, h₂, h₃⟩, h₄⟩ := htu
    obtain ⟨⟨k₁, k₂, k₃⟩, k₄⟩ := huv
    exact ⟨⟨h₁.trans k₁, h₂.trans k₂, fun hn => (h₃ hn).trans (k₃ (h₂.symm.trans hn))⟩,
      forall₂_trans (fun _ _ _ hab hbc => ⟨hab.1.trans hbc.1, hab.2.trans hbc.2⟩) h₄ k₄⟩
  case typeDescribingSubprogram =>
    obtain ⟨⟨h₁, h₂⟩, ⟨h₃, h₄⟩, h₅⟩ := htu
    obtain ⟨⟨k₁, k₂⟩, ⟨k₃, k₄⟩, k₅⟩ := huv
    refine ⟨⟨h₁.trans k₁, h₂.trans k₂⟩, ⟨h₃.trans k₃, h₄.trans k₄⟩,
      forall₂_trans (fun _ _ _ hab hbc => VoidOr.mono ?_ (hbc.trans hab)) h₅ k₅⟩
    exact fun x z hxz => hxz

/-- A type whose override of `may_equal` does not look at names. -/
def IgnoresNames (d : TypeDie ι) : Prop := d.tag.cls = .typeChain ∨ d.tag.cls = .unspecified

instance (d : TypeDie ι) : Decidable (IgnoresNames d) := inferInstanceAs (Decidable (_ ∨ _))

/-- The other overrides require the same name. -/
theorem name_eq_of_locallyEqual {t u : ι} (ht : ¬IgnoresNames (g t)) (h : LocallyEqual g S t u) :
    (g t).name = (g u).name := by
  unfold LocallyEqual at h
  cases hcls : (g t).tag.cls <;> rw [hcls] at h
  case base | string => exact h.2.1
  case subrange | enumeration | array | typeDescribingSubprogram => exact h.1.2
  case withDataMembers => exact h.1.2.1
  case typedef =>
    obtain ⟨⟨n, h₁, -, h₃⟩, -⟩ := h
    exact h₁.trans h₃.symm
  case ptrToMember =>
    obtain ⟨fuel, c, a, hc, htag, -⟩ := h
    have := chains_of_getConcreteType g hc
    rw [htag] at this
    exact nomatch this
  case typeChain => exact absurd (.inl hcls) ht
  case unspecified => exact absurd (.inr hcls) ht

variable (g summaryCode) in
/-- **No unnamed go-between**: no pointer, reference, qualified or unspecified type without a name
is equal to two types with different names. -/
def NoNameClash : Prop :=
  ∀ t u v, IgnoresNames (g u) → (g u).name = none → Bisimilar g summaryCode t u →
    Bisimilar g summaryCode u v → NamesAgree (g t).name (g v).name

theorem namesAgree_refl (a : Option String) : NamesAgree a a := by
  cases a <;> trivial

/-- **Transitivity fails at unnamed go-betweens only.** -/
theorem bisimilar_trans (hclash : NoNameClash g summaryCode) {t u v : ι}
    (htu : Bisimilar g summaryCode t u) (huv : Bisimilar g summaryCode u v) :
    Bisimilar g summaryCode t v := by
  refine ⟨fun a c => ∃ b, Bisimilar g summaryCode a b ∧ Bisimilar g summaryCode b c,
    fun a c ⟨b, hab, hbc⟩ hne => ?_, u, htu, huv⟩
  have hle : ∀ {x z : ι}, LocallyEqual g (Bisimilar g summaryCode) x z → LocallyEqual g
      (fun a c => ∃ b, Bisimilar g summaryCode a b ∧ Bisimilar g summaryCode b c) x z :=
    fun {x z} h => locallyEqual_mono g x z (fun a c hac => ⟨c, hac, bisimilar_refl c⟩) h
  rcases bisimilar_iff.1 hab with rfl | ⟨hqab, hlab, hlba⟩
  · obtain ⟨hq, h₁, h₂⟩ := (bisimilar_iff.1 hbc).resolve_left hne
    exact ⟨hq, hle h₁, hle h₂⟩
  rcases bisimilar_iff.1 hbc with rfl | ⟨hqbc, hlbc, hlcb⟩
  · exact ⟨hqab, hle hlab, hle hlba⟩
  refine ⟨⟨hqbc.1.trans hqab.1, ?_, ?_⟩, hlab.trans hqab.1 hlbc, ?_⟩
  · rw [namesAgree_comm]
    by_cases hname : (g b).name = none
    · by_cases hign : IgnoresNames (g b)
      · exact hclash a b c hign hname hab hbc
      · rw [← name_eq_of_locallyEqual hign hlba]
        exact (name_eq_of_locallyEqual hign hlbc) ▸ namesAgree_refl _
    · obtain ⟨n, hn⟩ := Option.ne_none_iff_exists'.1 hname
      have h₁ := hqab.2.1
      have h₂ := hqbc.2.1
      rw [hn] at h₁ h₂
      cases ha : (g a).name <;> cases hc : (g c).name <;> rw [ha] at h₁ <;> rw [hc] at h₂
      case some.some => exact h₁.symm.trans h₂.symm
      all_goals trivial
  · rw [summaryCodesAgree_iff]
    exact (summaryCodesAgree_iff.1 hqab.2.2).trans (summaryCodesAgree_iff.1 hqbc.2.2)
  · refine locallyEqual_mono g c a (fun x z ⟨y, hxy, hyz⟩ => ?_) (hlcb.trans hqbc.1.symm hlba)
    exact ⟨y, hxy, hyz⟩

/-- Where the types whose names are not compared have none, nothing clashes. -/
theorem noNameClash_of_unnamed (h : ∀ t, IgnoresNames (g t) → (g t).name = none) :
    NoNameClash g summaryCode := by
  intro t u v hu _ htu _
  rcases bisimilar_iff.1 htu with rfl | ⟨hq, -⟩
  · rw [h t hu]
    trivial
  · have ht : IgnoresNames (g t) := by rwa [IgnoresNames, ← hq.1]
    rw [h t ht]
    trivial

end Relation

section Answers

open Comparison

variable {summaryCode : ι → Except Fault (Option (BitVec 32))} [DecidableEq ι]

variable (g summaryCode) in
/-- Every comparison that `type_eq_fn` leads to, behind checks that hold, can begin: it is about no
absent attribute, and the summary codes it asks for are given. -/
def ComparisonsAnswer : Prop :=
  ∀ t u q,
    Relation.ReflTransGen (Calls (Comparison.checks g summaryCode)) q (some ([], t, some u)) →
      Answerable g summaryCode q

/-- **What `type_eq_fn` answers** is bisimilarity, `void` being equal to itself only. -/
theorem typeEqFn_iff {fuel : ℕ} {t u : Option ι} {b : Bool}
    (h : typeEqFn g summaryCode fuel t u = .ok b) :
    b = true ↔ VoidOr (Bisimilar g (codeOf summaryCode)) t u := by
  cases t with
  | none =>
    cases u with
    | none => exact iff_of_true (Except.ok.inj h).symm trivial
    | some u => exact iff_of_false (by rw [← Except.ok.inj h]; exact Bool.false_ne_true) id
  | some t =>
    cases u with
    | none => exact iff_of_false (by rw [← Except.ok.inj h]; exact Bool.false_ne_true) id
    | some u => exact (comparison_iff h).trans upTo_assumed_nil_iff

omit [DecidableEq ι] in
/-- Where the summary codes are given, only an absent attribute keeps a comparison from beginning. -/
theorem answerable_of_given (hgiven : ∀ t, ∃ code, summaryCode t = .ok code) {q : Question ι}
    (hq : q ≠ none) : Answerable g summaryCode q := by
  rcases q with _ | ⟨asm, t, _ | u⟩
  · exact absurd rfl hq
  · trivial
  · refine .inr (.inr ?_)
    obtain ⟨c, hc⟩ := hgiven t
    obtain ⟨d, hd⟩ := hgiven u
    rw [quickTests, hc, hd]
    split_ifs <;> exact ⟨_, rfl⟩

/-- **Enough for every comparison to answer**: the summary codes are given, and so are the
attributes that are asserted. -/
theorem comparisonsAnswer_of_complete (hgiven : ∀ t, ∃ code, summaryCode t = .ok code)
    (hcomplete : ∀ t, Complete (g t)) : ComparisonsAnswer g summaryCode := by
  intro t u q hq
  refine answerable_of_given hgiven ?_
  rintro rfl
  rcases Relation.ReflTransGen.cases_head hq with heq | ⟨p, hcall, -⟩
  · cases heq
  · obtain ⟨asm, a, b, rfl, -⟩ := calls_cases hcall
    obtain ⟨-, -, ⟨-, hnot⟩ | ⟨_, _, _, heq, -⟩⟩ := calls_asked hcall
    · exact hnot ⟨hcomplete a, hcomplete b⟩
    · cases heq

variable [Fintype ι]

/-- **When `type_eq_fn` answers** on all types and `void`. -/
theorem typeEqFn_answers_iff (hcycles : CyclesPassThroughMembers g) :
    (∃ n, ∀ fuel, n < fuel → ∀ t u, ∃ b, typeEqFn g summaryCode fuel t u = .ok b) ↔
      ComparisonsAnswer g summaryCode := by
  constructor
  · rintro ⟨n, h⟩ t u
    obtain ⟨b, hb⟩ := h (n + 1) (Nat.lt_succ_self n) (some t) (some u)
    exact (comparison_returns_iff hcycles).1 ⟨b, isConjunction.settles hb⟩
  · intro hanswer
    have hsettles : ∀ p : ι × ι, ∃ n, ∃ b, ∀ m, n ≤ m →
        comparison g summaryCode m (some ([], p.1, some p.2)) = .ok b := by
      intro p
      obtain ⟨b, n, hn⟩ := (comparison_returns_iff hcycles).2 (hanswer p.1 p.2)
      exact ⟨n, b, hn⟩
    choose steps hsteps using hsettles
    obtain ⟨n, hn⟩ := exists_bound steps
    refine ⟨n, fun fuel hfuel t u => ?_⟩
    cases t with
    | none => cases u <;> exact ⟨_, rfl⟩
    | some t =>
      cases u with
      | none => exact ⟨false, rfl⟩
      | some u =>
        obtain ⟨b, hb⟩ := hsteps (t, u)
        have := hn (t, u)
        exact ⟨b, hb fuel (by omega)⟩

/-- **When equality is an equivalence.**  On a graph whose cycles all pass through types with
members, `type_eq_fn` answers on all types and `void`, and what it answers is an equivalence
relation, if and only if no comparison comes to an absent attribute or a summary code that is not
given, and no unnamed pointer, reference, qualified or unspecified type is equal to two types with
different names. -/
theorem typeEqFn_equivalence_iff (summaryCode : ι → Except Fault (Option (BitVec 32)))
    (hcycles : CyclesPassThroughMembers g) :
    (∃ n, ∀ fuel, n < fuel → ∃ eq : Option ι → Option ι → Bool,
      (∀ t u, typeEqFn g summaryCode fuel t u = .ok (eq t u)) ∧
        Equivalence fun t u => eq t u = true) ↔
      ComparisonsAnswer g summaryCode ∧ NoNameClash g (codeOf summaryCode) := by
  constructor
  · rintro ⟨n, h⟩
    constructor
    · refine (typeEqFn_answers_iff hcycles).1 ⟨n, fun fuel hfuel t u => ?_⟩
      obtain ⟨eq, heq, -⟩ := h fuel hfuel
      exact ⟨_, heq t u⟩
    · rintro t u v - - htu huv
      obtain ⟨eq, heq, hequiv⟩ := h (n + 1) (Nat.lt_succ_self n)
      have hiff : ∀ a b, eq (some a) (some b) = true ↔ Bisimilar g (codeOf summaryCode) a b :=
        fun a b => typeEqFn_iff (heq (some a) (some b))
      have htv : Bisimilar g (codeOf summaryCode) t v :=
        (hiff t v).1 (hequiv.trans ((hiff t u).2 htu) ((hiff u v).2 huv))
      rcases bisimilar_iff.1 htv with rfl | ⟨hq, -⟩
      · exact namesAgree_refl _
      · exact namesAgree_comm.1 hq.2.1
  · rintro ⟨hanswer, hclash⟩
    obtain ⟨n, hn⟩ := (typeEqFn_answers_iff hcycles).2 hanswer
    refine ⟨n, fun fuel hfuel => ?_⟩
    choose eq heq using hn fuel hfuel
    have hdec : ∀ t u, eq t u = true ↔ VoidOr (Bisimilar g (codeOf summaryCode)) t u :=
      fun t u => typeEqFn_iff (heq t u)
    refine ⟨eq, heq, ⟨fun t => ?_, fun {t u} htu => ?_, fun {t u v} htu huv => ?_⟩⟩
    · rw [hdec]
      cases t with
      | none => trivial
      | some t => exact bisimilar_refl t
    · rw [hdec] at htu ⊢
      cases t <;> cases u
      case none.none => trivial
      case some.some => exact bisimilar_symm htu
      all_goals exact htu
    · rw [hdec] at htu huv ⊢
      cases t <;> cases u <;> cases v
      case none.none.none => trivial
      case some.some.some => exact bisimilar_trans hclash htu huv
      all_goals first | exact htu.elim | exact huv.elim

end Answers

section Examples

/-- On two copies of a list's node, equality is an equivalence. -/
theorem typeEqFn_nodeCopies :
    ∃ n, ∀ fuel, n < fuel → ∃ eq : Option (Fin 4) → Option (Fin 4) → Bool,
      (∀ t u, typeEqFn nodeCopies (fun _ => .ok none) fuel t u = .ok (eq t u)) ∧
        Equivalence fun t u => eq t u = true :=
  (typeEqFn_equivalence_iff _ nodeCopies_cycles).2
    ⟨comparisonsAnswer_of_complete (fun _ => ⟨none, rfl⟩) nodeCopies_complete,
      noNameClash_of_unnamed (by decide)⟩

/-- Three unspecified types, of which the second has no name.  Such types have no summary code. -/
def unspecifiedTypes (t : Fin 3) : TypeDie (Fin 3) :=
  { (default : TypeDie (Fin 3)) with
    tag := .unspecifiedType,
    name := if t = 0 then some "decltype(nullptr)" else if t = 1 then none else some "void_type" }

/-- **Equality is not transitive**: the unnamed type equals both others, which differ. -/
theorem unspecifiedTypes_not_equivalence :
    ¬∃ n, ∀ fuel, n < fuel → ∃ eq : Option (Fin 3) → Option (Fin 3) → Bool,
      (∀ t u, typeEqFn unspecifiedTypes (fun _ => .ok none) fuel t u = .ok (eq t u)) ∧
        Equivalence fun t u => eq t u = true := by
  rintro ⟨n, h⟩
  obtain ⟨eq, heq, hequiv⟩ := h (n + 1) (Nat.lt_succ_self n)
  have h₀₁ : eq (some 0) (some 1) = true := Except.ok.inj ((heq (some 0) (some 1)).symm.trans rfl)
  have h₁₂ : eq (some 1) (some 2) = true := Except.ok.inj ((heq (some 1) (some 2)).symm.trans rfl)
  have h₀₂ : eq (some 0) (some 2) = false := Except.ok.inj ((heq (some 0) (some 2)).symm.trans rfl)
  exact Bool.false_ne_true (h₀₂.symm.trans (hequiv.trans h₀₁ h₁₂))

end Examples

end Types
end Dwarfpp
