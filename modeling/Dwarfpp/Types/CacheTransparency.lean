/-
# The cache is transparent

On the graphs of `Cacheable`, any sequence of queries through the cache runs
without a failed assertion and answers as `equal` does without the cache
(`runQueries_transparent`).  The induction is on the depth of the recursion: a
comparison of rank `k` is made under assumptions of greater rank only, so that
none of them is met again, and files types of rank at most `k`.

The last section has a graph outside `Cacheable` where two queries are enough
for a wrong answer.
-/

import Dwarfpp.Types.CacheRecord

namespace Dwarfpp
namespace Types

open Lib

section Transparency

variable {ι : Type} {g : TypeGraph ι} {summaryCode : ι → Option (BitVec 32)} {rank : ι → ℕ}

variable (rank) in
/-- The assumptions are about types of rank greater than `k`. -/
def AssumedAbove (k : ℕ) (asm : Assumptions ι) : Prop := ∀ p ∈ asm, k < rank p.1 ∧ k < rank p.2

theorem AssumedAbove.mono {k k' : ℕ} {asm : Assumptions ι} (h : AssumedAbove rank k asm)
    (hk : k' ≤ k) : AssumedAbove rank k' asm := fun p hp =>
  ⟨hk.trans_lt (h p hp).1, hk.trans_lt (h p hp).2⟩

/-- Every type keeps its class. -/
def KeepsClasses (s s' : EqualityCache ι) : Prop :=
  ∀ x c, s.equivalenceClassOf x = some c → s'.equivalenceClassOf x = some c

variable (g summaryCode) in
/-- What a comparison of two types without assumptions does to sound tables `s`: it decides
bisimilarity, files distinct types, and keeps sound tables and all classes. -/
structure Answered (t u : ι) (s : EqualityCache ι) (r : EqualResult) (s' : EqualityCache ι) :
    Prop where
  sound : Sound g summaryCode s'
  keeps : KeepsClasses s s'
  decides : r ≠ .unequal ↔ Bisimilar g summaryCode t u
  filed : t ≠ u → BothFiled t u s'

variable [LinearOrder ι]

theorem AssumedAbove.nextAssumptions {k : ℕ} {asm : Assumptions ι} {a b : ι}
    (h : AssumedAbove rank k asm) (ha : k < rank a) (hb : k < rank b) :
    AssumedAbove rank k (nextAssumptions g a b asm) := by
  intro p hp
  rw [Types.nextAssumptions] at hp
  split_ifs at hp
  · rcases List.mem_insert_iff.1 hp with rfl | hp
    · exact ⟨ha, hb⟩
    · exact h p hp
  · exact h p hp

variable (h : Cacheable g summaryCode rank)

include h

/-- **Without the cache, two types of equal summary codes** are compared as they should be, if
the types they refer to are. -/
theorem nocache_decides {fuel k : ℕ} {asm : Assumptions ι}
    (hfuel : ∀ t, ∃ c, getConcreteType g fuel t = .ok c) (hasm : AssumedAbove rank k asm)
    (hequal : ∀ x y asm, max (rank x) (rank y) < k → AssumedAbove rank (max (rank x) (rank y)) asm →
      (cacheReturns g summaryCode rank (max (rank x) (rank y) + 1)).Ret
        (equalCached g summaryCode fuel x (some y) asm) (Decides True (Bisimilar g summaryCode x y)))
    (hself : ∀ x asm, equalCached g summaryCode fuel x (some x) asm = pure .equal) :
    NocacheDecides g summaryCode rank
      (fun a b => equalNocache (mayEqual g fuel (equalCached g summaryCode fuel)) a b asm) k := by
  refine ⟨fun a b hne hcode hb => ?_, fun a ha => equalNocache_self hself (h.complete a) ha asm⟩
  -- Both ways round, the types asked about are of smaller rank than the two compared.
  have hmay : ∀ a b : ι, a ≠ b → summaryCode a = summaryCode b → ∀ k' ≤ k,
      ((g a).tag = (g b).tag → rank b = k') →
      (cacheReturns g summaryCode rank k').Ret
        (mayEqual g fuel (equalCached g summaryCode fuel) a b asm)
        (Decides True (LocallyEqual g (Bisimilar g summaryCode) a b)) := by
    intro a b hne hcode k' hk' hrank
    have hvoid : False ∨ ((g a).tag = .arrayType → (g a).tag = (g b).tag → (g a).name = (g b).name →
        SubrangesTyped g a b) :=
      .inr fun harray htag hname => h.subranges a b hne harray htag hname hcode
    refine mayEqual_decides (h.complete a) (h.complete b) (hfuel b) hvoid
      fun htag => ⟨fun x y hxy => ?_, False.elim⟩
    have hab : rank a = rank b := h.layered.same a b htag hcode
    have hrefa := h.layered.down a b hne htag hcode
    have hrefb := h.layered.down b a hne.symm htag.symm hcode.symm
    have hk : rank b = k' := hrank htag
    have hlt : max (rank x) (rank y) < rank b := by
      rcases hxy with ⟨hx, hy⟩ | ⟨hx, hy⟩
      · exact max_lt (hab ▸ hrefa x hx) (hrefb y hy)
      · exact max_lt (hrefb x hx) (hab ▸ hrefa y hy)
    refine cacheReturns_mono (by omega) (hequal x y _ (by omega) ?_)
    exact (hasm.mono (by omega)).nextAssumptions (by omega) hlt
  have hrank : (g b).tag = (g a).tag → rank a = rank b := fun htag =>
    h.layered.same a b htag.symm hcode
  exact equalNocache_decides _ (hmay a b hne hcode (rank b) hb fun _ => rfl)
    (hmay b a hne.symm hcode.symm (rank b) hb hrank)

variable [Fintype ι]

/-- **A comparison through the cache**, under assumptions of greater rank. -/
theorem equalCached_run {n : ℕ} (hcard : Fintype.card ι < n)
    (hconcrete : ∀ fuel, n ≤ fuel → ∀ t, ∃ c, getConcreteType g fuel t = .ok c) {fuel : ℕ}
    {self t : ι} {asm : Assumptions ι} (hfuel : max (rank self) (rank t) + n < fuel)
    (hasm : AssumedAbove rank (max (rank self) (rank t)) asm) {s : EqualityCache ι}
    (hs : Sound g summaryCode s) :
    ∃ r s', equalCached g summaryCode fuel self (some t) asm s = .ok (r, s') ∧
      Sound g summaryCode s' ∧ Extends rank (max (rank self) (rank t) + 1) s s' ∧
      Decides True (Bisimilar g summaryCode self t) r ∧ (self ≠ t → BothFiled self t s') := by
  induction fuel generalizing self t asm s with
  | zero => omega
  | succ fuel ih =>
    rw [equalCached]
    by_cases heq : some t = some self
    · obtain rfl := Option.some.inj heq
      rw [if_pos rfl]
      exact ⟨.equal, s, rfl, hs, Extends.refl s, decides_equal (bisimilar_refl t),
        fun hne => absurd rfl hne⟩
    · have hne : self ≠ t := fun h => heq (h ▸ rfl)
      have hassumed : ¬((self, t) ∈ asm ∨ (t, self) ∈ asm) := by
        rintro (hp | hp)
        · exact absurd (hasm _ hp).1 (not_lt.2 (le_max_left _ _))
        · exact absurd (hasm _ hp).2 (not_lt.2 (le_max_left _ _))
      have hself : ∀ x asm, equalCached g summaryCode fuel x (some x) asm = pure .equal := by
        obtain ⟨f, rfl⟩ := Nat.exists_eq_succ_of_ne_zero (by omega : fuel ≠ 0)
        intro x asm
        rw [equalCached, if_pos rfl]
      have hnocache := nocache_decides h (hconcrete fuel (by omega)) hasm
        (fun x y asm hlt hasm s hs => by
          obtain ⟨r, s', hrun, hs', hext, hr, -⟩ := ih (by omega) hasm hs
          exact ⟨r, s', hrun, hs', hext, hr⟩) hself
      rw [if_neg heq]
      rw [if_neg hassumed]
      obtain ⟨r, s', hrun, hs', hext, hr, hboth⟩ := equalThroughCache_run h hnocache
        (hconcrete fuel (by omega)) (le_max_left _ _) (le_max_right _ _) hne (by omega) hs
      exact ⟨r, s', hrun, hs', hext, hr, fun _ => hboth⟩

/-- **A comparison without assumptions**, from any sound tables. -/
theorem exists_equalCached_answered : ∃ n, ∀ fuel, n < fuel → ∀ t u s, Sound g summaryCode s →
    ∃ r s', equalCached g summaryCode fuel t (some u) [] s = .ok (r, s') ∧
      Answered g summaryCode t u s r s' := by
  obtain ⟨height, hheight⟩ := exists_reference_rank h.cycles
  obtain ⟨m, hm⟩ := exists_bound height
  obtain ⟨k, hk⟩ := exists_bound rank
  have hconcrete : ∀ fuel, m + Fintype.card ι + 1 ≤ fuel → ∀ t, ∃ c,
      getConcreteType g fuel t = .ok c := fun fuel hfuel t => by
    have := hm t
    exact getConcreteType_returns hheight (by omega)
  refine ⟨k + (m + Fintype.card ι + 1), fun fuel hfuel t u s hs => ?_⟩
  have hasm : AssumedAbove rank (max (rank t) (rank u)) [] := fun p hp => absurd hp List.not_mem_nil
  have hdepth : max (rank t) (rank u) + (m + Fintype.card ι + 1) < fuel := by
    have := hk t
    have := hk u
    omega
  obtain ⟨r, s', hrun, hs', hext, hr, hboth⟩ :=
    equalCached_run h (by omega) hconcrete hdepth hasm hs
  exact ⟨r, s', hrun, hs', hext.grows, hr.1, hboth⟩

omit h [Fintype ι] in
/-- A sequence of queries on sound tables leaves sound tables. -/
theorem runQueries_decides {fuel : ℕ}
    (hequal : ∀ t u s, Sound g summaryCode s → ∃ r s',
      equalCached g summaryCode fuel t (some u) [] s = .ok (r, s') ∧ Answered g summaryCode t u s r s')
    (queries : List (ι × ι)) {s : EqualityCache ι} (hs : Sound g summaryCode s) :
    ∃ results s', runQueries g summaryCode fuel queries s = .ok (results, s') ∧
      Sound g summaryCode s' ∧
      List.Forall₂ (fun q r => r ≠ .unequal ↔ Bisimilar g summaryCode q.1 q.2) queries results := by
  induction queries generalizing s with
  | nil => exact ⟨[], s, rfl, hs, .nil⟩
  | cons q queries ih =>
    obtain ⟨t, u⟩ := q
    obtain ⟨r, s₁, hrun, hr⟩ := hequal t u s hs
    obtain ⟨rs, s', hrun', hs', hrs⟩ := ih hr.sound
    refine ⟨r :: rs, s', ?_, hs', .cons hr.decides hrs⟩
    rw [runQueries, bind_run hrun, bind_run hrun']
    rfl

omit h in
/-- **Transparency.**  Where `Cacheable` holds, every sequence of queries from empty tables
returns, each answer is `UNEQUAL` exactly if it is without the cache, and types that share a class
in the end are not `UNEQUAL` without the cache. -/
theorem runQueries_transparent (g : TypeGraph ι) (summaryCode : ι → Option (BitVec 32))
    (rank : ι → ℕ) (h : Cacheable g summaryCode rank) :
    ∃ n, ∀ fuel, n < fuel → ∀ queries, ∃ results s',
      runQueries g summaryCode fuel queries EqualityCache.empty = .ok (results, s') ∧
        List.Forall₂ (fun q r => ∃ r', equal g summaryCode fuel q.1 (some q.2) [] = .ok r' ∧
          (r = .unequal ↔ r' = .unequal)) queries results ∧
        ∀ x y c, s'.equivalenceClassOf x = some c → s'.equivalenceClassOf y = some c →
          ∃ r', equal g summaryCode fuel x (some y) [] = .ok r' ∧ r' ≠ .unequal := by
  obtain ⟨n, hequal⟩ := equal_iff_bisimilar summaryCode h.cycles h.complete
  obtain ⟨m, hcached⟩ := exists_equalCached_answered h
  refine ⟨n + m, fun fuel hfuel queries => ?_⟩
  obtain ⟨results, s', hrun, hs', hresults⟩ :=
    runQueries_decides (hcached fuel (by omega)) queries (sound_empty g summaryCode)
  refine ⟨results, s', hrun, hresults.imp fun q r hr => ?_, fun x y c hx hy => ?_⟩
  · obtain ⟨r', hr', hbis⟩ := hequal fuel (by omega) q.1 q.2
    exact ⟨r', hr', not_iff_not.1 (hr.trans hbis.symm)⟩
  · obtain ⟨r', hr', hbis⟩ := hequal fuel (by omega) x y
    exact ⟨r', hr', hbis.2 ((hs'.decided x y c c hx hy).1 rfl)⟩

end Transparency

section Examples

/-- Two copies of `struct pair { int i; int *p; }` and one of `struct node { struct node *next; }`,
with the types they refer to. -/
def pairCopies (t : Fin 8) : TypeDie (Fin 8) :=
  match t with
  | 0 | 3 => { (default : TypeDie (Fin 8)) with
      tag := .structureType, name := some "pair",
      dataMembers := [⟨false, some (t + 1), some (t + 1), none, none⟩,
        ⟨false, some (t + 2), some (t + 2), none, none⟩] }
  | 1 | 4 => { (default : TypeDie (Fin 8)) with
      tag := .baseType, name := some "int", encoding := 5, byteSize := some 4 }
  | 2 | 5 => { (default : TypeDie (Fin 8)) with tag := .pointerType, type := some (t - 1) }
  | 6 => { (default : TypeDie (Fin 8)) with
      tag := .structureType, name := some "node",
      dataMembers := [⟨false, some 7, some 7, none, none⟩] }
  | 7 => { (default : TypeDie (Fin 8)) with tag := .pointerType, type := some 6 }

/-- Summary codes of `pairCopies`: the same for the two copies. -/
def pairCopiesCode (t : Fin 8) : Option (BitVec 32) :=
  some (if t.val < 6 then t.val % 3 else t.val)

/-- A rank for `pairCopies`. -/
def pairCopiesRank (t : Fin 8) : ℕ :=
  match t with
  | 0 | 3 => 2
  | 2 | 5 => 1
  | _ => 0

theorem pairCopies_cacheable : Cacheable pairCopies pairCopiesCode pairCopiesRank where
  cycles := cyclesPassThroughMembers_of_rank (fun t => if t = 7 then 1 else pairCopiesRank t)
    (by decide)
  complete := by decide
  layered := ⟨by decide, by decide, by decide⟩
  names t u htu := by
    have hnames : ∀ t u, (pairCopies u).tag = (pairCopies t).tag → pairCopiesCode t = pairCopiesCode u →
        NamesAgree (pairCopies t).name (pairCopies u).name := by decide
    obtain ⟨R, hR, htu⟩ := htu
    rcases eq_or_ne t u with rfl | hne
    · exact hnames t t rfl rfl
    · obtain ⟨htag, hcode, -⟩ := hR t u htu hne
      exact hnames t u htag hcode
  subranges t u _ htag := absurd htag ((by decide : ∀ t, (pairCopies t).tag ≠ .arrayType) t)

/-- `runQueries_transparent` on a graph with copies and a cycle. -/
theorem runQueries_pairCopies :
    ∃ n, ∀ fuel, n < fuel → ∀ queries, ∃ results s',
      runQueries pairCopies pairCopiesCode fuel queries EqualityCache.empty = .ok (results, s') ∧
        List.Forall₂ (fun q r => ∃ r', equal pairCopies pairCopiesCode fuel q.1 (some q.2) [] =
            .ok r' ∧ (r = .unequal ↔ r' = .unequal)) queries results ∧
        ∀ x y c, s'.equivalenceClassOf x = some c → s'.equivalenceClassOf y = some c →
          ∃ r', equal pairCopies pairCopiesCode fuel x (some y) [] = .ok r' ∧ r' ≠ .unequal :=
  runQueries_transparent pairCopies pairCopiesCode pairCopiesRank pairCopies_cacheable

/-- Two structures `S` with a pointer to themselves and a pointer to a structure `T`, which is not
the same structure for the two. -/
def recursiveCopies (t : Fin 8) : TypeDie (Fin 8) :=
  match t with
  | 0 | 1 => { (default : TypeDie (Fin 8)) with
      tag := .structureType, name := some "S",
      dataMembers := [⟨false, some (t + 2), some (t + 2), none, none⟩,
        ⟨false, some (t + 4), some (t + 4), none, none⟩] }
  | 2 | 3 => { (default : TypeDie (Fin 8)) with tag := .pointerType, type := some (t - 2) }
  | 4 | 5 => { (default : TypeDie (Fin 8)) with tag := .pointerType, type := some (t + 2) }
  | 6 => { (default : TypeDie (Fin 8)) with tag := .structureType, name := some "T" }
  | 7 => { (default : TypeDie (Fin 8)) with
      tag := .structureType, name := some "T", dataMembers := [⟨false, some 2, some 2, none, none⟩] }

/-- Summary codes of `recursiveCopies`. -/
def recursiveCopiesCode (t : Fin 8) : Option (BitVec 32) :=
  match t with
  | 0 | 1 => some 1
  | 2 | 3 => some 2
  | t => some t.val

/-- **A result that held by assumption only.**  Comparing the structures compares the pointers to
them, under the assumption that the structures are equal; this makes one class of the pointers,
which stays when the structures turn out to differ. -/
theorem runQueries_recursiveCopies :
    CyclesPassThroughMembers recursiveCopies ∧ (∀ t, Complete (recursiveCopies t)) ∧
      ¬∃ n, ∀ fuel, n < fuel → ∀ queries, ∃ results s',
        runQueries recursiveCopies recursiveCopiesCode fuel queries EqualityCache.empty =
            .ok (results, s') ∧
          List.Forall₂ (fun q r => ∃ r', equal recursiveCopies recursiveCopiesCode fuel q.1 (some q.2)
            [] = .ok r' ∧ (r = .unequal ↔ r' = .unequal)) queries results := by
  refine ⟨cyclesPassThroughMembers_of_rank (fun t => if t.val ∈ [0, 1, 6, 7] then 0 else 1)
    (by decide), by decide, ?_⟩
  rintro ⟨n, h⟩
  obtain ⟨results, s', hrun, hresults⟩ := h (n + 8) (by omega) [(0, 1), (2, 3)]
  have hcached : (runQueries recursiveCopies recursiveCopiesCode (n + 8) [(0, 1), (2, 3)]
      EqualityCache.empty).map Prod.fst = .ok [.unequal, .equal] := rfl
  have huncached : equal recursiveCopies recursiveCopiesCode (n + 8) 2 (some 3) [] =
      .ok .unequal := rfl
  rw [hrun] at hcached
  obtain rfl : results = [.unequal, .equal] := Except.ok.inj hcached
  cases hresults with
  | cons _ hrest =>
    cases hrest with
    | cons hsecond _ =>
      obtain ⟨r', hr', hiff⟩ := hsecond
      obtain rfl := Except.ok.inj (huncached.symm.trans hr')
      exact nomatch hiff.2 rfl

end Examples

end Types
end Dwarfpp
