/-
# The steps of a cached comparison

What each lambda of the cached `type_die::equal` does to sound tables, given a
comparison without the cache that decides what it should and keeps them sound.
-/

import Dwarfpp.Types.Cacheable

namespace Dwarfpp
namespace Types

open Lib

variable {ι : Type} {g : TypeGraph ι} {summaryCode : ι → Option (BitVec 32)}

section Self

variable {m : Type → Type} [Monad m] [LawfulMonad m] [MonadExceptOf Fault m] [DecidableEq ι]
variable {fuel : ℕ} {equal : Compare m ι} (hself : ∀ x asm, equal x (some x) asm = pure .equal)

include hself

omit [LawfulMonad m] [MonadExceptOf Fault m] [DecidableEq ι] in
theorem referencesEqual_self (asm : Assumptions ι) (a : Option ι) :
    referencesEqual equal asm a a = pure .equal := by
  cases a with
  | none => rfl
  | some x => exact hself x asm

omit [MonadExceptOf Fault m] [DecidableEq ι] in
theorem subrangesMayEqual_self (asm : Assumptions ι) (l : List ι) :
    subrangesMayEqual g equal asm l l = pure true := by
  induction l with
  | nil => rfl
  | cons a l ih =>
    rw [subrangesMayEqual]
    cases ha : (g a).type with
    | none => exact ih
    | some x => simp [hself, ih]

omit [DecidableEq ι] in
theorem membersMayEqual_self (asm recursive : Assumptions ι) {l : List (DataMember ι)}
    (hl : ∀ c ∈ l, c.typeHandlingBitfields.isSome) :
    membersMayEqual equal asm recursive l l .equal = pure .equal := by
  induction l with
  | nil => rfl
  | cons a l ih =>
    obtain ⟨x, hx⟩ := Option.isSome_iff_exists.1 (hl a List.mem_cons_self)
    rw [membersMayEqual, hx]
    simp [hself, ih fun c hc => hl c (List.mem_cons_of_mem _ hc)]

omit [DecidableEq ι] in
theorem formalParametersMayEqual_self (asm : Assumptions ι) {l : List (FormalParameter ι)}
    (hl : ∀ c ∈ l, c.type.isSome) :
    formalParametersMayEqual equal asm l l .equal = pure .equal := by
  induction l with
  | nil => rfl
  | cons a l ih =>
    obtain ⟨x, hx⟩ := Option.isSome_iff_exists.1 (hl a List.mem_cons_self)
    rw [formalParametersMayEqual, hx]
    simp [hself, ih fun c hc => hl c (List.mem_cons_of_mem _ hc)]

/-- **Comparing a type with itself asks only about equal types**, and finds it equal unless it is
a pointer to a member. -/
theorem mayEqual_self {t : ι} (ht : Complete (g t)) (htag : (g t).tag ≠ .ptrToMemberType)
    (asm : Assumptions ι) : mayEqual g fuel equal t t asm = pure .equal := by
  have href := referencesEqual_self hself asm (g t).type
  rw [mayEqual]
  cases hcls : (g t).tag.cls with
  | base => simp [baseMayEqual, EqualResult.ofBool]
  | unspecified => simp [unspecifiedMayEqual, EqualResult.ofBool]
  | string => simp [stringMayEqual, EqualResult.ofBool]
  | subrange => simp [subrangeMayEqual, href, EqualResult.ofBool]
  | enumeration => simp [enumerationMayEqual, href, EqualResult.ofBool]
  | array =>
    obtain ⟨x, hx⟩ := Option.isSome_iff_exists.1 (ht.elementType (tag_eq_arrayType hcls))
    simp [arrayMayEqual, subrangesMayEqual_self hself, hx, hself, EqualResult.ofBool]
  | typedef =>
    obtain ⟨n, hn⟩ := Option.isSome_iff_exists.1 (ht.typedefNamed (tag_eq_typedef hcls))
    simp [typedefMayEqual, typeChainMayEqual, hn, tag_eq_typedef hcls, href, EqualResult.ofBool]
  | ptrToMember => exact absurd (tag_eq_ptrToMember hcls) htag
  | typeChain => simp [typeChainMayEqual, href, EqualResult.ofBool]
  | withDataMembers =>
    simp [withDataMembersMayEqual, membersMayEqual_self hself _ _ (ht.memberTypes hcls)]
  | typeDescribingSubprogram =>
    simp [typeDescribingSubprogramMayEqual, href,
      formalParametersMayEqual_self hself _ (ht.parameterTypes hcls)]

theorem equalNocache_self {t : ι} (ht : Complete (g t)) (htag : (g t).tag ≠ .ptrToMemberType)
    (asm : Assumptions ι) : equalNocache (mayEqual g fuel equal) t t asm = pure .equal := by
  simp [equalNocache, mayEqual_self hself ht htag]

end Self

section Spec

variable {rank : ι → ℕ} {k k' : ℕ}

variable (g summaryCode rank) in
/-- Returning with sound tables, with nothing of rank `k` or more filed. -/
def cacheReturns (k : ℕ) : Returns (CacheM ι) :=
  Returns.state Fault (Sound g summaryCode) (Extends rank k) Extends.refl
    fun _ _ _ => Extends.trans

theorem cacheReturns_mono (hk : k ≤ k') {α : Type} {x : CacheM ι α} {p : α → Prop}
    (h : (cacheReturns g summaryCode rank k).Ret x p) :
    (cacheReturns g summaryCode rank k').Ret x p := by
  intro s hs
  obtain ⟨a, s', ha, hs', hext, hp⟩ := h s hs
  exact ⟨a, s', ha, hs', hext.mono hk, hp⟩

/-- Sequencing on a given state. -/
theorem bind_run {α β : Type} {x : CacheM ι α} {f : α → CacheM ι β} {s s₁ : EqualityCache ι} {a : α}
    (h : x s = .ok (a, s₁)) : (x >>= f) s = f a s₁ := by
  change (x s >>= fun r => f r.1 r.2) = _
  rw [h]
  rfl

variable {s : EqualityCache ι}

theorem equivClass_run (t : ι) : equivClass t s = .ok (s.equivalenceClassOf t, s) := rfl

theorem cacheAssert_run {p : Prop} [Decidable p] (h : p) :
    cacheAssert p s = .ok ((), s) := by
  rw [cacheAssert, if_pos h]
  rfl

/-- A class with a member has a representative, which is a member. -/
theorem representative_run (hs : Sound g summaryCode s) {x : ι} {c : ℕ}
    (hx : s.equivalenceClassOf x = some c) :
    ∃ rep, representative c s = .ok (rep, s) ∧ s.equivalenceClassOf rep = some c := by
  obtain ⟨offsets, hc, hmem⟩ := (hs.mem_iff x c).1 hx
  cases offsets with
  | nil => exact absurd hmem List.not_mem_nil
  | cons rep rest =>
    refine ⟨rep, ?_, (hs.mem_iff rep c).2 ⟨_, hc, List.mem_cons_self⟩⟩
    have hrep : s.equivalenceClasses[c]?.bind List.head? = some rep := by
      rw [hc]
      rfl
    rw [representative]
    refine (bind_run rfl).trans ?_
    rw [hrep]
    rfl

variable [LinearOrder ι]

variable (g summaryCode rank) in
/-- What the cache needs of the comparison without it, among types of rank at most `K`. -/
structure NocacheDecides (nocache : ι → ι → CacheM ι EqualResult) (K : ℕ) : Prop where
  distinct : ∀ a b, a ≠ b → summaryCode a = summaryCode b → rank b ≤ K →
    (cacheReturns g summaryCode rank (rank b)).Ret (nocache a b)
      (Decides True (Match g summaryCode a b))
  self : ∀ a, (g a).tag ≠ .ptrToMemberType → nocache a a = pure .equal

variable {nocache : ι → ι → CacheM ι EqualResult} {K fuel : ℕ} {self t : ι}

theorem surprise_returns (hN : NocacheDecides g summaryCode rank nocache K)
    (hconcrete : ∀ t, ∃ c, getConcreteType g fuel t = .ok c) (hne : self ≠ t) (ht : rank t ≤ K) :
    (cacheReturns g summaryCode rank (rank t)).Ret (surprise g summaryCode fuel nocache self t)
      fun _ => True := by
  have hconc : ∀ x, (cacheReturns g summaryCode rank (rank t)).Ret (isConcrete g fuel x)
      fun _ => True := by
    intro x
    obtain ⟨c, hc⟩ := hconcrete x
    rw [isConcrete, hc]
    exact Returns.ret_pure _ trivial
  rw [surprise]
  split_ifs with hcode hcls
  · refine Returns.ret_bind _ (hconc self) fun b _ => ?_
    cases b with
    | false => exact Returns.ret_pure _ trivial
    | true =>
      refine Returns.ret_bind _ (hconc t) fun b _ => ?_
      cases b with
      | false => exact Returns.ret_pure _ trivial
      | true =>
        exact Returns.ret_bind _ (hN.distinct self t hne hcode.1 ht) fun _ _ =>
          Returns.ret_pure _ trivial
  · refine Returns.ret_bind _ (hconc self) fun b _ => ?_
    cases b with
    | false => exact Returns.ret_pure _ trivial
    | true =>
      refine Returns.ret_bind _ (hconc t) fun b _ => ?_
      cases b <;> exact Returns.ret_pure _ trivial
  · exact Returns.ret_pure _ trivial

/-- Without a class for both types, the cache says nothing. -/
theorem checkCachedResult_none {t1 t2 : ι}
    (h : s.equivalenceClassOf t1 = none ∨ s.equivalenceClassOf t2 = none) :
    checkCachedResult g summaryCode fuel nocache self t t1 t2 s = .ok (none, s) := by
  rw [checkCachedResult]
  refine (bind_run (equivClass_run t1)).trans ((bind_run (equivClass_run t2)).trans ?_)
  rcases h with h | h
  · rw [h]
    rfl
  · rw [h]
    cases s.equivalenceClassOf t1 <;> rfl

/-- With a class for both types, the cache says whether it is one class. -/
theorem checkCachedResult_some (hN : NocacheDecides g summaryCode rank nocache K)
    (hconcrete : ∀ t, ∃ c, getConcreteType g fuel t = .ok c) (hne : self ≠ t) (ht : rank t ≤ K)
    (hs : Sound g summaryCode s) {t1 t2 : ι} {c1 c2 : ℕ} (h1 : s.equivalenceClassOf t1 = some c1)
    (h2 : s.equivalenceClassOf t2 = some c2) :
    ∃ s', checkCachedResult g summaryCode fuel nocache self t t1 t2 s =
        .ok (some (decide (c1 = c2)), s') ∧
      Sound g summaryCode s' ∧ Extends rank (rank t) s s' := by
  rw [checkCachedResult, bind_run (equivClass_run t1), bind_run (equivClass_run t2), h1, h2]
  by_cases hc : c1 = c2
  · subst hc
    exact ⟨s, by simp [pure, StateT.pure, Except.pure], hs, Extends.refl s⟩
  · obtain ⟨rep1, hrep1, hm1⟩ := representative_run hs h1
    obtain ⟨rep2, hrep2, hm2⟩ := representative_run hs h2
    have hrep : rep1 ≠ rep2 := by
      rintro rfl
      exact hc (Option.some.inj (hm1.symm.trans hm2))
    obtain ⟨_, s', hs', hsound, hext, -⟩ := surprise_returns hN hconcrete hne ht s hs
    refine ⟨s', ?_, hsound, hext⟩
    dsimp only
    rw [if_neg hc, bind_run hrep1, bind_run hrep2, if_neg hrep, bind_run hs', decide_eq_false hc]
    rfl

end Spec

section Find

variable {rank : ι → ℕ} {s : EqualityCache ι}
variable {nocache : ι → ι → CacheM ι EqualResult} {K fuel : ℕ} {z : ι}

/-- The classes of a summary code. -/
def ofCode (s : EqualityCache ι) (code : Option (BitVec 32)) : List (Option (BitVec 32) × ℕ) :=
  s.bySummaryCode.filter fun e => e.1 = code

theorem mem_ofCode {code : Option (BitVec 32)} {e : Option (BitVec 32) × ℕ} :
    e ∈ ofCode s code ↔ e ∈ s.bySummaryCode ∧ e.1 = code := by
  rw [ofCode, List.mem_filter, decide_eq_true_iff]

theorem ofCode_grows {k : ℕ} {s' : EqualityCache ι} (h : Extends rank k s s')
    (code : Option (BitVec 32)) : ofCode s code <+: ofCode s' code := h.index.filter _

variable [LinearOrder ι]

variable (g summaryCode rank) in
/-- What the search for a class leaves: a type looked for has been put in the set of the class
found, which has a member equal to it, or it is equal to no type that has a class. -/
def Found (z : ι) (s : EqualityCache ι) (r : Option ℕ) (s' : EqualityCache ι) : Prop :=
  ∃ s₁, Sound g summaryCode s₁ ∧ Extends rank (rank z) s s₁ ∧
    match r with
    | some c => s' = s₁.insertInClass c z ∧
        ∃ x, s₁.equivalenceClassOf x = some c ∧ Bisimilar g summaryCode x z
    | none => s' = s₁ ∧ ∀ x c, s₁.equivalenceClassOf x = some c → ¬Bisimilar g summaryCode x z

variable [Fintype ι] (h : Cacheable g summaryCode rank)

include h

/-- **The loop over the classes of a summary code.**  The invariant: no member of a class passed
is equal to the type looked for. -/
theorem findEqClass_run (hN : NocacheDecides g summaryCode rank nocache K) (hz : rank z ≤ K)
    {steps j : ℕ} (hs : Sound g summaryCode s)
    (hptr : (g z).tag = .ptrToMemberType → s.equivalenceClassOf z = none)
    (hpassed : ∀ i < j, ∀ e, (ofCode s (summaryCode z))[i]? = some e →
      ∀ x, s.equivalenceClassOf x = some e.2 → ¬Bisimilar g summaryCode x z)
    (hj : j ≤ Fintype.card ι) (hsteps : Fintype.card ι < steps + j) :
    ∃ r s', findEqClass nocache z (summaryCode z) steps j s = .ok (r, s') ∧
      Found g summaryCode rank z s r s' := by
  induction steps generalizing j s with
  | zero => omega
  | succ steps ih =>
    rw [findEqClass]
    rw [bind_run (show (get : CacheM ι _) s = .ok (s, s) from rfl)]
    have hcode : (s.bySummaryCode.filter fun e => e.1 = summaryCode z) = ofCode s (summaryCode z) :=
      rfl
    rw [hcode]
    cases hget : (ofCode s (summaryCode z))[j]? with
    | none =>
      refine ⟨none, s, rfl, s, hs, Extends.refl s, rfl, fun x c hx hb => ?_⟩
      have hcode : summaryCode x = summaryCode z := by
        rcases bisimilar_iff.1 hb with rfl | ⟨hq, -⟩
        · rfl
        · exact summaryCodesAgree_iff.1 hq.2.2
      have hmem : (summaryCode x, c) ∈ ofCode s (summaryCode z) :=
        mem_ofCode.2 ⟨hs.indexed x c hx, hcode⟩
      obtain ⟨i, hi, hie⟩ := List.getElem_of_mem hmem
      have hij : i < j := lt_of_lt_of_le hi (List.getElem?_eq_none_iff.1 hget)
      exact hpassed i hij _ (hie ▸ List.getElem?_eq_getElem hi) x hx hb
    | some e =>
      have hjlt : j < (ofCode s (summaryCode z)).length := (List.getElem?_eq_some_iff.1 hget).1
      have hjcard : j < Fintype.card ι :=
        hjlt.trans_le ((List.length_filter_le _ _).trans hs.length_le)
      obtain ⟨hmem, hcode⟩ := mem_ofCode.1 (List.mem_of_getElem? hget)
      obtain ⟨x₀, hx₀⟩ := hs.inhabited e hmem
      obtain ⟨rep, hrun, hrep⟩ := representative_run hs hx₀
      have hrepcode : summaryCode rep = summaryCode z := (hs.code e hmem rep hrep).trans hcode
      dsimp only
      rw [bind_run hrun]
      by_cases hrepz : rep = z
      · subst hrepz
        have htag : (g rep).tag ≠ .ptrToMemberType := by
          intro htag
          rw [hptr htag] at hrep
          cases hrep
        rw [hN.self rep htag]
        exact ⟨some e.2, s.insertInClass e.2 rep, rfl, s, hs, Extends.refl s, rfl, rep, hrep,
          bisimilar_refl rep⟩
      · obtain ⟨r, s₁, hr, hs₁, hext, hdec, -⟩ := hN.distinct rep z hrepz hrepcode hz s hs
        rw [bind_run hr]
        have hmatch : r ≠ .unequal ↔ Bisimilar g summaryCode rep z :=
          hdec.trans (h.match_iff hrepz hrepcode)
        by_cases hne : r = .unequal
        · rw [if_neg (not_not.2 hne)]
          have hnb : ¬Bisimilar g summaryCode rep z := fun hb => hmatch.2 hb hne
          have hpassed₁ : ∀ i < j + 1, ∀ e', (ofCode s₁ (summaryCode z))[i]? = some e' →
              ∀ x, s₁.equivalenceClassOf x = some e'.2 → ¬Bisimilar g summaryCode x z := by
            intro i hi e' he' x hx hb
            have hilt : i < (ofCode s (summaryCode z)).length := by omega
            have hold : (ofCode s (summaryCode z))[i]? = some e' := by
              rw [← he', List.getElem?_eq_getElem hilt]
              exact (List.prefix_iff_getElem?.1 (ofCode_grows hext _) i hilt).symm
            obtain ⟨x', hx'⟩ := hs.inhabited e' (mem_ofCode.1 (List.mem_of_getElem? hold)).1
            have hbx : Bisimilar g summaryCode x' x :=
              (hs₁.decided x' x _ _ (hext.grows x' _ hx') hx).1 rfl
            rcases Nat.lt_succ_iff_lt_or_eq.1 hi with hi | rfl
            · exact hpassed i hi e' hold x' hx' (h.bisimilar_trans hbx hb)
            · obtain rfl := Option.some.inj (hget.symm.trans hold)
              have hbrep : Bisimilar g summaryCode rep x :=
                (hs₁.decided rep x _ _ (hext.grows rep _ hrep) hx).1 rfl
              exact hnb (h.bisimilar_trans hbrep hb)
          obtain ⟨r', s', hr', s₂, hs₂, hext₂, hfound⟩ := ih hs₁
            (fun htag => (hext.same z le_rfl).trans (hptr htag)) hpassed₁
            (Nat.succ_le_of_lt hjcard) (by omega)
          exact ⟨r', s', hr', s₂, hs₂, hext.trans hext₂, hfound⟩
        · rw [if_pos hne]
          exact ⟨some e.2, s₁.insertInClass e.2 z, rfl, s₁, hs₁, hext, rfl, rep,
            hext.grows rep _ hrep, hmatch.1 hne⟩

end Find

end Types
end Dwarfpp
