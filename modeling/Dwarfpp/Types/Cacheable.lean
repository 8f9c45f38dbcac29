/-
# Graphs the equality cache is good for

A result that holds by assumption only must not reach the tables, and
`may_equal` drops the mark in most of its overrides: the condition `Layered`
excludes that a comparison comes back to a pair it has assumed.  `Cacheable`
collects what else the cache relies on; on such graphs, equality is transitive
and names make no difference to it.
-/

import Dwarfpp.Types.CacheInvariant

namespace Dwarfpp
namespace Types

open Lib

variable {ι : Type} (g : TypeGraph ι) (summaryCode : ι → Option (BitVec 32))

section Conditions

/-- Types equal but for names that are not compared: as `Bisimilar`, without the quick test on
names. -/
def EqualButNames (t u : ι) : Prop :=
  ∃ R : ι → ι → Prop, (∀ a b, R a b → a ≠ b → (g b).tag = (g a).tag ∧
    summaryCode a = summaryCode b ∧ LocallyEqual g R a b ∧ LocallyEqual g R b a) ∧ R t u

/-- **No comparison comes back to a pair it has assumed.**  The rank goes down along the
references of every type that another one shares tag and summary code with, and such types have
the same rank.  Pointers to members, which are not found equal to themselves, are referred to by
no such type. -/
structure Layered (rank : ι → ℕ) : Prop where
  same : ∀ t u, (g t).tag = (g u).tag → summaryCode t = summaryCode u → rank t = rank u
  down : ∀ t u, t ≠ u → (g t).tag = (g u).tag → summaryCode t = summaryCode u →
    ∀ x ∈ references g t, rank x < rank t
  ptrToMemberTop : ∀ t, (g t).tag = .ptrToMemberType → ∀ u, rank u ≤ rank t

/-- What a graph is to satisfy for the cache to be transparent, for a given rank. -/
structure Cacheable (rank : ι → ℕ) : Prop where
  cycles : CyclesPassThroughMembers g
  complete : ∀ t, Complete (g t)
  layered : Layered g summaryCode rank
  /-- Names tell apart no types that are equal otherwise. -/
  names : ∀ t u, EqualButNames g summaryCode t u → NamesAgree (g t).name (g u).name
  /-- No array's subrange with a base type is compared with one without. -/
  subranges : ∀ t u, t ≠ u → (g t).tag = .arrayType → (g t).tag = (g u).tag →
    (g t).name = (g u).name → summaryCode t = summaryCode u → SubrangesTyped g t u

end Conditions

section Relation

variable {g summaryCode}

theorem equalButNames_of_bisimilar {t u : ι} (h : Bisimilar g summaryCode t u) :
    EqualButNames g summaryCode t u := by
  obtain ⟨R, hR, htu⟩ := h
  refine ⟨R, fun a b hab hne => ?_, htu⟩
  obtain ⟨hq, hl⟩ := hR a b hab hne
  exact ⟨hq.1, summaryCodesAgree_iff.1 hq.2.2, hl⟩

theorem EqualButNames.trans {t u v : ι} (htu : EqualButNames g summaryCode t u)
    (huv : EqualButNames g summaryCode u v) : EqualButNames g summaryCode t v := by
  have hstep : ∀ {a b : ι}, EqualButNames g summaryCode a b → a ≠ b → (g b).tag = (g a).tag ∧
      summaryCode a = summaryCode b ∧ LocallyEqual g (EqualButNames g summaryCode) a b ∧
        LocallyEqual g (EqualButNames g summaryCode) b a := by
    rintro a b ⟨R, hR, hab⟩ hne
    have hle : ∀ x y, R x y → EqualButNames g summaryCode x y := fun x y hxy => ⟨R, hR, hxy⟩
    obtain ⟨htag, hcode, h₁, h₂⟩ := hR a b hab hne
    exact ⟨htag, hcode, locallyEqual_mono g a b hle h₁, locallyEqual_mono g b a hle h₂⟩
  have hrefl : ∀ a, EqualButNames g summaryCode a a := fun a =>
    equalButNames_of_bisimilar (bisimilar_refl a)
  refine ⟨fun a c => ∃ b, EqualButNames g summaryCode a b ∧ EqualButNames g summaryCode b c,
    fun a c ⟨b, hab, hbc⟩ hne => ?_, u, htu, huv⟩
  have hle : ∀ {x z : ι}, LocallyEqual g (EqualButNames g summaryCode) x z → LocallyEqual g
      (fun a c => ∃ b, EqualButNames g summaryCode a b ∧ EqualButNames g summaryCode b c) x z :=
    fun {x z} h => locallyEqual_mono g x z (fun a c hac => ⟨c, hac, hrefl c⟩) h
  rcases eq_or_ne a b with rfl | hneab
  · obtain ⟨htag, hcode, h₁, h₂⟩ := hstep hbc hne
    exact ⟨htag, hcode, hle h₁, hle h₂⟩
  rcases eq_or_ne b c with rfl | hnebc
  · obtain ⟨htag, hcode, h₁, h₂⟩ := hstep hab hne
    exact ⟨htag, hcode, hle h₁, hle h₂⟩
  obtain ⟨htag, hcode, h₁, h₂⟩ := hstep hab hneab
  obtain ⟨htag', hcode', h₁', h₂'⟩ := hstep hbc hnebc
  exact ⟨htag'.trans htag, hcode.trans hcode', h₁.trans htag h₁', h₂'.trans htag'.symm h₂⟩

variable {rank : ι → ℕ} (h : Cacheable g summaryCode rank)

include h

/-- Names make no difference. -/
theorem Cacheable.bisimilar_of_equalButNames {t u : ι} (htu : EqualButNames g summaryCode t u) :
    Bisimilar g summaryCode t u := by
  refine ⟨EqualButNames g summaryCode, fun a b hab hne => ?_, htu⟩
  have hname := h.names a b hab
  obtain ⟨R, hR, hab⟩ := hab
  have hle : ∀ x y, R x y → EqualButNames g summaryCode x y := fun x y hxy => ⟨R, hR, hxy⟩
  obtain ⟨htag, hcode, h₁, h₂⟩ := hR a b hab hne
  exact ⟨⟨htag, namesAgree_comm.1 hname, summaryCodesAgree_iff.2 hcode⟩,
    locallyEqual_mono g a b hle h₁, locallyEqual_mono g b a hle h₂⟩

theorem Cacheable.bisimilar_trans {t u v : ι} (htu : Bisimilar g summaryCode t u)
    (huv : Bisimilar g summaryCode u v) : Bisimilar g summaryCode t v :=
  h.bisimilar_of_equalButNames
    ((equalButNames_of_bisimilar htu).trans (equalButNames_of_bisimilar huv))

variable (g summaryCode) in
omit h in
/-- What the comparison without quick tests decides. -/
def Match (t u : ι) : Prop :=
  LocallyEqual g (Bisimilar g summaryCode) t u ∧ LocallyEqual g (Bisimilar g summaryCode) u t

/-- Every override compares the tags. -/
theorem Cacheable.bisimilar_of_match {t u : ι} (hcode : summaryCode t = summaryCode u)
    (hm : Match g summaryCode t u) : Bisimilar g summaryCode t u := by
  refine h.bisimilar_of_equalButNames ⟨fun a b => EqualButNames g summaryCode a b ∨ (a = t ∧ b = u),
    fun a b hab hne => ?_, .inr ⟨rfl, rfl⟩⟩
  have hle : ∀ {x z : ι}, LocallyEqual g (EqualButNames g summaryCode) x z → LocallyEqual g
      (fun a b => EqualButNames g summaryCode a b ∨ (a = t ∧ b = u)) x z :=
    fun {x z} h => locallyEqual_mono g x z (fun _ _ => Or.inl) h
  rcases hab with ⟨R, hR, hab⟩ | ⟨rfl, rfl⟩
  · have hleR : ∀ x y, R x y → EqualButNames g summaryCode x y := fun x y hxy => ⟨R, hR, hxy⟩
    obtain ⟨htag, hcode, h₁, h₂⟩ := hR a b hab hne
    exact ⟨htag, hcode, hle (locallyEqual_mono g a b hleR h₁), hle (locallyEqual_mono g b a hleR h₂)⟩
  · have hleB : ∀ x y, Bisimilar g summaryCode x y → EqualButNames g summaryCode x y :=
      fun _ _ => equalButNames_of_bisimilar
    exact ⟨(tag_eq_of_locallyEqual hm.1).symm, hcode, hle (locallyEqual_mono g a b hleB hm.1),
      hle (locallyEqual_mono g b a hleB hm.2)⟩

theorem Cacheable.match_iff {t u : ι} (hne : t ≠ u) (hcode : summaryCode t = summaryCode u) :
    Match g summaryCode t u ↔ Bisimilar g summaryCode t u :=
  ⟨h.bisimilar_of_match hcode, fun hb => ((bisimilar_iff.1 hb).resolve_left hne).2⟩

end Relation

end Types
end Dwarfpp
