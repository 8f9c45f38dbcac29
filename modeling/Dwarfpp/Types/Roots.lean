/-
# Equality across roots

`type_die::operator==` of `src/dies.cpp` looks in its own root for a DIE at the
offset of the one it is given, whatever the root of that one, and `type_eq_fn`
calls it.  `equalAcross` is `equal` without the cache on the DIEs of two roots
side by side; iterators are ordered by their offsets there too, so that the set
of assumptions may hold one pair of DIEs and be asked for another.

Where offsets tell the pairs apart, `equalAcross` decides structural equality
(`equalAcross_iff_bisimilar`), and `operator==` agrees with it exactly if ours is
equal to both the DIE given and the DIE found, or to neither
(`comparesTheTwo_iff`).
-/

import Dwarfpp.Types.CacheTransparency
import Dwarfpp.Types.GraphMap

namespace Dwarfpp
namespace Types

open Lib

section Definitions

/-- A root, as far as its type DIEs go, in the order of their offsets.  `typeAt` is what `find`
finds at an offset, if that is a type DIE; `equal` fails an assertion if it is not. -/
structure TypeRoot (ι : Type) [LinearOrder ι] where
  graph : TypeGraph ι
  summaryCode : ι → Option (BitVec 32)
  typeAt : ℕ → Option ι
  typeAt_eq_some : ∀ offset t, typeAt offset = some t ↔ (graph t).offset = offset
  strictMono : StrictMono fun t => (graph t).offset

/-- `type_die::operator==`, with a DIE of any root. -/
def TypeRoot.operatorEq {ι κ : Type} [LinearOrder ι] (r : TypeRoot ι) (fuel : ℕ) (self : ι)
    (t : TypeDie κ) : CacheM ι Bool := do
  let ret ← equalCached r.graph r.summaryCode fuel self (r.typeAt t.offset) []
  return ret ≠ .unequal

/-- `type_eq_fn`, with a DIE of any root. -/
def TypeRoot.typeEqFn {ι κ : Type} [LinearOrder ι] (r : TypeRoot ι) (fuel : ℕ) :
    Option ι → Option (TypeDie κ) → CacheM ι Bool
  | none, none => return true
  | some t1, some t2 => r.operatorEq fuel t1 t2
  | _, _ => return false

variable {κ : Type} (g : TypeGraph κ) (summaryCode : κ → Option (BitVec 32))

/-- Whether `assuming_equal.find(make_pair(self, t))` finds a pair: one of the same offsets. -/
def FoundIn (asm : Assumptions κ) (self t : κ) : Prop :=
  ∃ p ∈ asm, (g p.1).offset = (g self).offset ∧ (g p.2).offset = (g t).offset

instance (asm : Assumptions κ) (self t : κ) : Decidable (FoundIn g asm self t) :=
  inferInstanceAs (Decidable (∃ p ∈ asm, _))

/-- `type_die::equal` without the cache on DIEs of any roots, to a depth of at most `fuel`
calls. -/
def equalAcross [DecidableEq κ] : ℕ → Compare (Except Fault) κ
  | 0, _, _, _ => .error .outOfSteps
  | fuel + 1, self, t, asm =>
    if t = some self then .ok .equal
    else match t with
      | none => .ok .unequal
      | some t =>
        if FoundIn g asm self t ∨ FoundIn g asm t self then .ok .equalByAssumption
        else if QuickTests g summaryCode self t then
          equalNocache (mayEqual g fuel (equalAcross fuel)) self t asm
        else .ok .unequal

end Definitions

section Offsets

variable {κ : Type} {g : TypeGraph κ} {P : κ → κ → Prop}

/-- The pairs of kind `P` ask about pairs of kind `P` only, and their offsets tell them apart from
the pairs that may be assumed. -/
structure TellsApart (g : TypeGraph κ) (P : κ → κ → Prop) : Prop where
  symm : ∀ a b, P a b → P b a
  asked : ∀ t u x y, P t u → Asked g t u x y → P x y
  offsets : ∀ a b x y, P a b → (g a).tag.cls = .withDataMembers → (g b).tag.cls = .withDataMembers →
    P x y → (g a).offset = (g x).offset → (g b).offset = (g y).offset →
    (a = x ∧ b = y) ∨ (a = y ∧ b = x)

/-- A pair that may be assumed in a comparison of kind `P`. -/
def Assumable (g : TypeGraph κ) (P : κ → κ → Prop) (p : κ × κ) : Prop :=
  P p.1 p.2 ∧ (g p.1).tag.cls = .withDataMembers ∧ (g p.2).tag.cls = .withDataMembers

/-- **The pair found is the pair asked for.** -/
theorem TellsApart.foundIn_iff (h : TellsApart g P) {asm : Assumptions κ}
    (hasm : ∀ p ∈ asm, Assumable g P p) {t u : κ} (htu : P t u) :
    FoundIn g asm t u ∨ FoundIn g asm u t ↔ Assumed asm t u := by
  have hfound : ∀ {x y : κ}, P x y → FoundIn g asm x y → Assumed asm x y := by
    rintro x y hxy ⟨⟨a, b⟩, hab, hx, hy⟩
    obtain ⟨hP, ha, hb⟩ := hasm _ hab
    rcases h.offsets a b x y hP ha hb hxy hx hy with ⟨rfl, rfl⟩ | ⟨rfl, rfl⟩
    · exact .inl hab
    · exact .inr hab
  constructor
  · rintro (hf | hf)
    · exact hfound htu hf
    · exact (hfound (h.symm t u htu) hf).symm
  · rintro (hmem | hmem)
    · exact .inl ⟨_, hmem, rfl, rfl⟩
    · exact .inr ⟨_, hmem, rfl, rfl⟩

/-- The pairs assumed while the references of two types are compared. -/
theorem TellsApart.assumable_next [DecidableEq κ] (h : TellsApart g P) {asm asm' : Assumptions κ}
    (hasm : ∀ p ∈ asm, Assumable g P p) {t u : κ} (htu : P t u) (htag : (g u).tag = (g t).tag)
    (hnext : asm' = nextAssumptions g t u asm ∨ asm' = nextAssumptions g u t asm) :
    ∀ p ∈ asm', Assumable g P p := by
  have hone : ∀ x y, P x y → (g y).tag = (g x).tag → ∀ p ∈ nextAssumptions g x y asm,
      Assumable g P p := by
    intro x y hxy hxytag p hp
    rw [nextAssumptions] at hp
    split_ifs at hp with hcls
    · rcases List.mem_insert_iff.1 hp with rfl | hp
      · exact ⟨hxy, hcls, hxytag ▸ hcls⟩
      · exact hasm p hp
    · exact hasm p hp
  rcases hnext with rfl | rfl
  · exact hone t u htu htag
  · exact hone u t (h.symm t u htu) htag.symm

variable {summaryCode : κ → Option (BitVec 32)} [Fintype κ] [DecidableEq κ]

/-- **Equality across roots under assumptions** decides the greatest relation up to these
assumptions. -/
theorem equalAcross_decides (h : TellsApart g P) (hcomplete : ∀ t, Complete (g t)) {rank : κ → ℕ}
    {n : ℕ} (hrank : ∀ t, (g t).tag.cls ≠ .withDataMembers → ∀ x ∈ references g t, rank x < rank t)
    (hn : ∀ t, rank t ≤ n) {fuel : ℕ} {t u : κ} {asm : Assumptions κ}
    (hfuel : depth rank n t u asm + 1 < fuel) (htu : P t u) (hasm : ∀ p ∈ asm, Assumable g P p) :
    (Returns.except Fault).Ret (equalAcross g summaryCode fuel t (some u) asm)
      (Decides False (UpTo (Test g summaryCode) (Assumed asm) t u)) := by
  induction fuel generalizing t u asm with
  | zero => exact absurd hfuel (Nat.not_lt_zero _)
  | succ fuel ih =>
    have hfound := h.foundIn_iff hasm htu
    rw [equalAcross]
    split_ifs with heq hassumed hquick
    · obtain rfl := Option.some.inj heq
      exact ⟨_, rfl, decides_equal ((upTo_iff test_mono).2 (.inr (.inl rfl)))⟩
    · have hup : UpTo (Test g summaryCode) (Assumed asm) t u :=
        (upTo_iff test_mono).2 (.inl (hfound.1 hassumed))
      exact ⟨_, rfl, iff_of_true EqualResult.noConfusion hup, False.elim⟩
    · have hnot : ¬Assumed asm t u := mt hfound.2 hassumed
      have hdepth : rank t + rank u < fuel := by
        rw [depth] at hfuel
        omega
      refine equalNocache_decides_upTo hcomplete hrank hdepth (fun h => heq (h ▸ rfl)) hnot hquick
        (fun a asm' => ?_) fun a b hab asm' hnext => ih ?_ (h.asked t u a b htu hab)
          (h.assumable_next hasm htu hquick.1 hnext)
      · obtain ⟨k, rfl⟩ := Nat.exists_eq_succ_of_ne_zero (by omega : fuel ≠ 0)
        exact ⟨_, rfl, rfl⟩
      · have := depth_next_lt hrank hn hquick.1 hnot hab hnext
        omega
    · exact ⟨_, rfl, decides_unequal_of_not_quickTests (fun h => heq (h ▸ rfl))
        (mt hfound.2 hassumed) hquick⟩

/-- **Across roots, structural equality is the greatest bisimulation**, on pairs that offsets tell
apart. -/
theorem equalAcross_iff_bisimilar (summaryCode : κ → Option (BitVec 32))
    (hcycles : CyclesPassThroughMembers g) (hcomplete : ∀ t, Complete (g t)) :
    ∃ n, ∀ fuel, n < fuel → ∀ P, TellsApart g P → ∀ t u, P t u → ∃ r,
      equalAcross g summaryCode fuel t (some u) [] = .ok r ∧
        (r ≠ .unequal ↔ Bisimilar g summaryCode t u) := by
  obtain ⟨rank, n, hrank, hn⟩ := exists_bounded_rank hcycles
  refine ⟨depthBound κ n, fun fuel hfuel P hP t u htu => ?_⟩
  obtain ⟨r, hr, hdec, -⟩ : (Returns.except Fault).Ret (equalAcross g summaryCode fuel t (some u) [])
      (Decides False (UpTo (Test g summaryCode) (Assumed []) t u)) :=
    equalAcross_decides hP hcomplete hrank hn (depth_nil_lt hn hfuel t u) htu
      fun p hp => absurd hp List.not_mem_nil
  exact ⟨r, hr, hdec.trans upTo_assumed_nil_iff⟩

end Offsets

section SideBySide

variable {ι₁ ι₂ : Type} [LinearOrder ι₁] [LinearOrder ι₂] (r₁ : TypeRoot ι₁) (r₂ : TypeRoot ι₂)

/-- The type DIEs of two roots. -/
def sideBySide : TypeGraph (ι₁ ⊕ ι₂)
  | .inl t => (r₁.graph t).map .inl
  | .inr t => (r₂.graph t).map .inr

/-- The summary codes of the types of two roots. -/
def summaryCodes : ι₁ ⊕ ι₂ → Option (BitVec 32) := Sum.elim r₁.summaryCode r₂.summaryCode

/-- What `operator==` and `type_eq_fn` are to answer about a type of the first root and one of
either: whether the two are structurally equal. -/
def ComparesTheTwo (fuel : ℕ) (s : EqualityCache ι₁) (t1 : ι₁) (t2 : ι₁ ⊕ ι₂) : Prop :=
  ∃ b s' r, r₁.operatorEq fuel t1 (sideBySide r₁ r₂ t2) s = .ok (b, s') ∧
    r₁.typeEqFn fuel (some t1) (some (sideBySide r₁ r₂ t2)) s = .ok (b, s') ∧
    equalAcross (sideBySide r₁ r₂) (summaryCodes r₁ r₂) fuel (.inl t1) (some t2) [] = .ok r ∧
    (b = true ↔ r ≠ .unequal)

/-- The first root has a type at the offset of `t2`, and `t1` is equal to both or to neither. -/
def SameAtOffset (t1 : ι₁) (t2 : ι₁ ⊕ ι₂) : Prop :=
  ∃ u, r₁.typeAt (sideBySide r₁ r₂ t2).offset = some u ∧
    (Bisimilar r₁.graph r₁.summaryCode t1 u ↔
      Bisimilar (sideBySide r₁ r₂) (summaryCodes r₁ r₂) (.inl t1) t2)

/-- No two pairs of types with members of both roots have each other's offsets. -/
def OffsetsTellApart : Prop :=
  ∀ (a x : ι₁) (b y : ι₂), (r₁.graph a).tag.cls = .withDataMembers →
    (r₂.graph b).tag.cls = .withDataMembers → (r₁.graph a).offset = (r₂.graph y).offset →
    (r₂.graph b).offset = (r₁.graph x).offset → a = x

variable {r₁ r₂}

theorem liesIn_inl : LiesIn r₁.graph Sum.inl (sideBySide r₁ r₂) := fun _ => rfl

theorem liesIn_inr : LiesIn r₂.graph Sum.inr (sideBySide r₁ r₂) := fun _ => rfl

/-- The references of a DIE are to its own root. -/
theorem references_inl (t : ι₁) :
    references (sideBySide r₁ r₂) (.inl t) = (references r₁.graph t).map .inl :=
  references_map liesIn_inl t

theorem references_inr (t : ι₂) :
    references (sideBySide r₁ r₂) (.inr t) = (references r₂.graph t).map .inr :=
  references_map liesIn_inr t

theorem complete_sideBySide (h₁ : ∀ t, Complete (r₁.graph t)) (h₂ : ∀ t, Complete (r₂.graph t)) :
    ∀ t, Complete (sideBySide r₁ r₂ t)
  | .inl t => complete_map_iff.2 (h₁ t)
  | .inr t => complete_map_iff.2 (h₂ t)

theorem cycles_sideBySide [Finite ι₁] [Finite ι₂] (h₁ : CyclesPassThroughMembers r₁.graph)
    (h₂ : CyclesPassThroughMembers r₂.graph) : CyclesPassThroughMembers (sideBySide r₁ r₂) := by
  obtain ⟨rank₁, hrank₁⟩ := exists_reference_rank h₁
  obtain ⟨rank₂, hrank₂⟩ := exists_reference_rank h₂
  refine cyclesPassThroughMembers_of_rank (Sum.elim rank₁ rank₂) fun t hcls x hx => ?_
  cases t with
  | inl t =>
    rw [references_inl] at hx
    obtain ⟨y, hy, rfl⟩ := List.mem_map.1 hx
    exact hrank₁ t hcls y hy
  | inr t =>
    rw [references_inr] at hx
    obtain ⟨y, hy, rfl⟩ := List.mem_map.1 hx
    exact hrank₂ t hcls y hy

/-- Two types of the first root. -/
inductive Within : ι₁ ⊕ ι₂ → ι₁ ⊕ ι₂ → Prop
  | mk (t u : ι₁) : Within (.inl t) (.inl u)

/-- A type of each root. -/
inductive Between : ι₁ ⊕ ι₂ → ι₁ ⊕ ι₂ → Prop
  | inl (t : ι₁) (u : ι₂) : Between (.inl t) (.inr u)
  | inr (t : ι₂) (u : ι₁) : Between (.inr t) (.inl u)

theorem tellsApart_within : TellsApart (sideBySide r₁ r₂) Within where
  symm := by
    rintro _ _ ⟨t, u⟩
    exact .mk u t
  asked := by
    rintro _ _ x y ⟨t, u⟩ hxy
    rw [Asked, references_inl, references_inl] at hxy
    rcases hxy with ⟨hx, hy⟩ | ⟨hx, hy⟩ <;>
      obtain ⟨x, -, rfl⟩ := List.mem_map.1 hx <;>
      obtain ⟨y, -, rfl⟩ := List.mem_map.1 hy <;>
      exact .mk x y
  offsets := by
    rintro _ _ _ _ ⟨a, b⟩ - - ⟨x, y⟩ hx hy
    obtain rfl : a = x := r₁.strictMono.injective hx
    obtain rfl : b = y := r₁.strictMono.injective hy
    exact .inl ⟨rfl, rfl⟩

theorem tellsApart_between (h : OffsetsTellApart r₁ r₂) :
    TellsApart (sideBySide r₁ r₂) Between where
  symm := by
    rintro _ _ (⟨t, u⟩ | ⟨t, u⟩)
    · exact .inr u t
    · exact .inl u t
  asked := by
    rintro _ _ x y (⟨t, u⟩ | ⟨t, u⟩) hxy <;>
      rw [Asked, references_inl, references_inr] at hxy <;>
      rcases hxy with ⟨hx, hy⟩ | ⟨hx, hy⟩ <;>
      obtain ⟨x, -, rfl⟩ := List.mem_map.1 hx <;>
      obtain ⟨y, -, rfl⟩ := List.mem_map.1 hy
    · exact .inl x y
    · exact .inr x y
    · exact .inr x y
    · exact .inl x y
  offsets := by
    -- The same pair where the roots come in the same order, and the pair reversed where not.
    rintro _ _ _ _ (⟨a, b⟩ | ⟨b, a⟩) ha hb (⟨x, y⟩ | ⟨y, x⟩) hx hy
    · obtain rfl : a = x := r₁.strictMono.injective hx
      obtain rfl : b = y := r₂.strictMono.injective hy
      exact .inl ⟨rfl, rfl⟩
    · obtain rfl : a = x := h a x b y ha hb hx hy
      obtain rfl : b = y := r₂.strictMono.injective (hy.trans hx)
      exact .inr ⟨rfl, rfl⟩
    · obtain rfl : a = x := (h a x b y hb ha hy hx)
      obtain rfl : b = y := r₂.strictMono.injective (hx.trans hy)
      exact .inr ⟨rfl, rfl⟩
    · obtain rfl : a = x := r₁.strictMono.injective hy
      obtain rfl : b = y := r₂.strictMono.injective hx
      exact .inl ⟨rfl, rfl⟩

variable [Fintype ι₁] [Fintype ι₂]

/-- **Without the cache, a type of the first root and one of either** are compared as they
should be. -/
theorem exists_equalAcross (h₁ : CyclesPassThroughMembers r₁.graph)
    (hc₁ : ∀ t, Complete (r₁.graph t)) (h₂ : CyclesPassThroughMembers r₂.graph)
    (hc₂ : ∀ t, Complete (r₂.graph t)) (hoffsets : OffsetsTellApart r₁ r₂) :
    ∃ n, ∀ fuel, n < fuel → ∀ t1 t2, ∃ r,
      equalAcross (sideBySide r₁ r₂) (summaryCodes r₁ r₂) fuel (.inl t1) (some t2) [] = .ok r ∧
        (r ≠ .unequal ↔ Bisimilar (sideBySide r₁ r₂) (summaryCodes r₁ r₂) (.inl t1) t2) := by
  obtain ⟨n, hn⟩ := equalAcross_iff_bisimilar (summaryCodes r₁ r₂) (cycles_sideBySide h₁ h₂)
    (complete_sideBySide hc₁ hc₂)
  refine ⟨n, fun fuel hfuel t1 t2 => ?_⟩
  cases t2 with
  | inl t2 => exact hn fuel hfuel Within tellsApart_within _ _ (.mk t1 t2)
  | inr t2 => exact hn fuel hfuel Between (tellsApart_between hoffsets) _ _ (.inl t1 t2)

omit [Fintype ι₁] [Fintype ι₂] in
/-- **Within one root**, the type at the offset of a type is that type. -/
theorem sameAtOffset_inl (t1 t2 : ι₁) : SameAtOffset r₁ r₂ t1 (.inl t2) := by
  have hlies : LiesIn r₁.graph Sum.inl (sideBySide r₁ r₂) := liesIn_inl
  have hcodes : ∀ t, summaryCodes r₁ r₂ (.inl t) = r₁.summaryCode t := fun _ => rfl
  refine ⟨t2, (r₁.typeAt_eq_some _ t2).2 rfl, ?_⟩
  exact (bisimilar_map_iff hlies Sum.inl_injective hcodes).symm

omit [Fintype ι₁] in
theorem operatorEq_run {κ : Type} {fuel : ℕ} {self u : ι₁} {t : TypeDie κ} {s s' : EqualityCache ι₁}
    {r : EqualResult} (hfind : r₁.typeAt t.offset = some u)
    (hrun : equalCached r₁.graph r₁.summaryCode fuel self (some u) [] s = .ok (r, s')) :
    r₁.operatorEq fuel self t s = .ok (decide (r ≠ .unequal), s') := by
  rw [TypeRoot.operatorEq, hfind, bind_run hrun]
  rfl

omit [Fintype ι₁] in
/-- Where the root has no type at the offset, an assertion fails. -/
theorem operatorEq_none {κ : Type} {fuel : ℕ} {self : ι₁} {t : TypeDie κ} {s : EqualityCache ι₁}
    (hfind : r₁.typeAt t.offset = none) :
    r₁.operatorEq (fuel + 1) self t s = .error .assertFailed := by
  rw [TypeRoot.operatorEq, hfind]
  rfl

/-- **When equality is about the two types given.**  Let the first root's types be such that its
cache is transparent, let the second one's be complete, with cycles through types with members
only, and let offsets tell the pairs of both apart.  Then after any queries on the first root,
`operator==` and `type_eq_fn` answer whether a type of it and one of either root are structurally
equal, if and only if it has a type at the offset of the other one, and the first type is equal to
both of these or to neither. -/
theorem comparesTheTwo_iff (r₁ : TypeRoot ι₁) (r₂ : TypeRoot ι₂) (rank : ι₁ → ℕ)
    (h₁ : Cacheable r₁.graph r₁.summaryCode rank) (h₂ : CyclesPassThroughMembers r₂.graph)
    (hc₂ : ∀ t, Complete (r₂.graph t)) (hoffsets : OffsetsTellApart r₁ r₂) :
    ∃ n, ∀ fuel, n < fuel → ∀ queries, ∃ results s,
      runQueries r₁.graph r₁.summaryCode fuel queries EqualityCache.empty = .ok (results, s) ∧
        ∀ t1 t2, ComparesTheTwo r₁ r₂ fuel s t1 t2 ↔ SameAtOffset r₁ r₂ t1 t2 := by
  obtain ⟨n, hacross⟩ := exists_equalAcross h₁.cycles h₁.complete h₂ hc₂ hoffsets
  obtain ⟨m, hcached⟩ := exists_equalCached_answered h₁
  refine ⟨n + m, fun fuel hfuel queries => ?_⟩
  obtain ⟨results, s, hrun, hs, -⟩ :=
    runQueries_decides (hcached fuel (by omega)) queries (sound_empty r₁.graph r₁.summaryCode)
  refine ⟨results, s, hrun, fun t1 t2 => ?_⟩
  obtain ⟨r, hr, hbis⟩ := hacross fuel (by omega) t1 t2
  cases hfind : r₁.typeAt (sideBySide r₁ r₂ t2).offset with
  | none =>
    constructor
    · rintro ⟨b, s', -, hop, -⟩
      obtain ⟨k, rfl⟩ := Nat.exists_eq_succ_of_ne_zero (by omega : fuel ≠ 0)
      rw [operatorEq_none hfind] at hop
      exact nomatch hop
    · rintro ⟨u, hu, -⟩
      exact nomatch hfind.symm.trans hu
  | some u =>
    obtain ⟨r', s', hrun', hanswered⟩ := hcached fuel (by omega) t1 u s hs
    have hop := operatorEq_run hfind hrun'
    have hsame : (decide (r' ≠ .unequal) = true ↔ r ≠ .unequal) ↔
        (Bisimilar r₁.graph r₁.summaryCode t1 u ↔
          Bisimilar (sideBySide r₁ r₂) (summaryCodes r₁ r₂) (.inl t1) t2) := by
      rw [decide_eq_true_iff, hanswered.decides, hbis]
    constructor
    · rintro ⟨b, s'', r'', hop', -, hr'', hb⟩
      rw [hop] at hop'
      rw [hr] at hr''
      obtain rfl : decide (r' ≠ .unequal) = b := congrArg Prod.fst (Except.ok.inj hop')
      obtain rfl : r = r'' := Except.ok.inj hr''
      exact ⟨u, hfind, hsame.1 hb⟩
    · rintro ⟨u', hu', hiff⟩
      obtain rfl : u = u' := Option.some.inj (hfind.symm.trans hu')
      exact ⟨_, s', r, hop, hop, hr, hsame.2 hiff⟩

end SideBySide

section Examples

/-- Two base types of four bytes, at 32 and at 40. -/
def twoBaseTypes (first second : String) (t : Fin 2) : TypeDie (Fin 2) :=
  { (default : TypeDie (Fin 2)) with
    offset := if t = 0 then 32 else 40,
    tag := .baseType, name := if t = 0 then first else second, encoding := 5, byteSize := some 4 }

/-- The root of two base types, with a summary code for each. -/
def twoBaseTypesRoot (first second : String) (code : Fin 2 → BitVec 32) : TypeRoot (Fin 2) where
  graph := twoBaseTypes first second
  summaryCode t := some (code t)
  typeAt offset := if offset = 32 then some 0 else if offset = 40 then some 1 else none
  typeAt_eq_some offset := by
    refine Fin.forall_fin_two.2 ⟨?_, ?_⟩ <;> split_ifs <;> simp [twoBaseTypes] <;> omega
  strictMono := by
    refine Fin.strictMono_iff_lt_succ.2 fun i => ?_
    obtain rfl : i = 0 := Subsingleton.elim i 0
    exact (by decide : 32 < 40)

/-- A root with `int` at 32 and `unsigned` at 40. -/
def intFirst : TypeRoot (Fin 2) :=
  twoBaseTypesRoot "int" "unsigned" fun t => if t = 0 then 1 else 2

/-- A root with `unsigned` at 32 and `int` at 40. -/
def unsignedFirst : TypeRoot (Fin 2) :=
  twoBaseTypesRoot "unsigned" "int" fun t => if t = 0 then 2 else 1

theorem intFirst_cacheable : Cacheable intFirst.graph intFirst.summaryCode fun _ => 0 where
  cycles := cyclesPassThroughMembers_of_rank (fun _ => 0) (by decide)
  complete := by decide
  layered := ⟨by decide, by decide, by decide⟩
  names t u htu := by
    obtain ⟨R, hR, htu⟩ := htu
    have hcodes : ∀ t u, intFirst.summaryCode t = intFirst.summaryCode u → t = u := by decide
    obtain rfl : t = u := by
      by_contra hne
      exact hne (hcodes t u (hR t u htu hne).2.1)
    exact (by decide : ∀ t, NamesAgree (intFirst.graph t).name (intFirst.graph t).name) t
  subranges t u _ htag := absurd htag ((by decide : ∀ t, (intFirst.graph t).tag ≠ .arrayType) t)

/-- `comparesTheTwo_iff` on two roots with the same types in another order. -/
theorem comparesTheTwo_intFirst :
    ∃ n, ∀ fuel, n < fuel → ∀ queries, ∃ results s,
      runQueries intFirst.graph intFirst.summaryCode fuel queries EqualityCache.empty =
          .ok (results, s) ∧
        ∀ t1 t2, ComparesTheTwo intFirst unsignedFirst fuel s t1 t2 ↔
          SameAtOffset intFirst unsignedFirst t1 t2 :=
  comparesTheTwo_iff intFirst unsignedFirst (fun _ => 0) intFirst_cacheable
    (cyclesPassThroughMembers_of_rank (fun _ => 0) (by decide)) (by decide)
    fun a _ _ _ ha => absurd ha ((by decide : ∀ a, (intFirst.graph a).tag.cls ≠ .withDataMembers) a)

/-- **Equality with another DIE than the one given**: `int` in the first root and `unsigned` in the
second are at the same offset, and equal. -/
theorem not_comparesTheTwo_intFirst :
    ¬∃ n, ∀ fuel, n < fuel → ∀ queries, ∃ results s,
      runQueries intFirst.graph intFirst.summaryCode fuel queries EqualityCache.empty =
          .ok (results, s) ∧
        ∀ t1 t2, ComparesTheTwo intFirst unsignedFirst fuel s t1 t2 := by
  rintro ⟨n, h⟩
  obtain ⟨results, s, -, hcompares⟩ := h (n + 1) (Nat.lt_succ_self n) []
  obtain ⟨b, s', r, hop, -, hacross, hiff⟩ := hcompares 0 (.inr 0)
  have hop' : intFirst.operatorEq (n + 1) 0 (sideBySide intFirst unsignedFirst (.inr 0)) s =
      .ok (true, s) := rfl
  have hacross' : equalAcross (sideBySide intFirst unsignedFirst)
      (summaryCodes intFirst unsignedFirst) (n + 1) (.inl 0) (some (.inr 0)) [] = .ok .unequal := rfl
  obtain rfl : b = true := congrArg Prod.fst (Except.ok.inj (hop.symm.trans hop'))
  obtain rfl : r = .unequal := Except.ok.inj (hacross.symm.trans hacross')
  exact hiff.1 rfl rfl

end Examples

end Types
end Dwarfpp
