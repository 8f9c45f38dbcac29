/-
# Hashing and ordering types by their equality classes

`type_eq_fn` and `type_hash_fn` key the unordered containers of types, and
`less_by_type_equality` of `src/iter.cpp` orders the ordered ones by the place of
a type's class in the list of classes, which comparisons create on demand.  Where
the cache is transparent, any sequence of queries on one root leaves well-formed
classes and hashes that agree with them (`classesWellFormed_of_cacheable`), and its
answers are those of one strict weak order (`less_strictWeakOrder`).
-/

import Mathlib
import Dwarfpp.Types.CacheTransparency

namespace Dwarfpp
namespace Types

open Lib

variable {ι : Type}

section Definitions

/-- What `less_by_type_equality` orders: the type DIEs of a root, its other DIEs, by their offsets,
and the end position. -/
inductive Position (ι : Type)
  | type (t : ι)
  | other (offset : ℕ)
  | endPosition
  deriving DecidableEq, Repr

/-- `type_hash_fn`. -/
def typeHashFn (summaryCode : ι → Option (BitVec 32)) (t : ι) : BitVec 32 :=
  match summaryCode t with
  | some summary => summary
  | none => 0

/-- The end of `less_by_type_equality`: `p1` is less unless its class is found going forwards from
that of `p2`. -/
def lessByClass (p1 p2 : ι) : CacheM ι Bool := do
  let s ← get
  match s.equivalenceClassOf p1, s.equivalenceClassOf p2 with
  | some c1, some c2 => return c1 ∉ List.range' c2 (s.equivalenceClasses.length - c2)
  | _, _ => throw .assertFailed

variable (summaryCode : ι → Option (BitVec 32)) (equal : Compare (CacheM ι) ι)

/-- `less_by_type_equality`, on one root. -/
def lessByTypeEquality : Position ι → Position ι → CacheM ι Bool
  | .endPosition, _ => return false
  | _, .endPosition => return true
  | .type p1, .type p2 => do
    let r ← equal p1 (some p2) []
    if r ≠ .unequal then return false
    else lessByClass p1 p2
  | .type _, .other _ => return true
  | .other _, .type _ => return false
  | .other p1, .other p2 => return p1 < p2

/-- A query on a root. -/
inductive Query (ι : Type)
  | equal (t u : ι)
  | summaryCode (t : ι)
  | less (p q : Position ι)
  deriving DecidableEq, Repr

/-- An answer to a query. -/
inductive Answer
  | equal (r : EqualResult)
  | summaryCode (code : Option (BitVec 32))
  | less (b : Bool)
  deriving DecidableEq, Repr

/-- What a query answers. -/
def answer : Query ι → CacheM ι Answer
  | .equal t u => do return .equal (← equal t (some u) [])
  | .summaryCode t => return .summaryCode (summaryCode t)
  | .less p q => do return .less (← lessByTypeEquality equal p q)

/-- What a sequence of queries answers. -/
def answers : List (Query ι) → CacheM ι (List Answer)
  | [] => return []
  | q :: queries => do
    let a ← answer summaryCode equal q
    let as ← answers queries
    return a :: as

end Definitions

section Order

variable [LinearOrder ι] (s : EqualityCache ι)

/-- Where the tables place something in the order: types with a class by the class, before those
without one, before the other DIEs, before the end position. -/
def place : Position ι → WithTop ((ℕ ⊕ₗ ι) ⊕ₗ ℕ)
  | .type t =>
    match s.equivalenceClassOf t with
    | some c => ((Sum.inlₗ (Sum.inlₗ c) : (ℕ ⊕ₗ ι) ⊕ₗ ℕ))
    | none => ((Sum.inlₗ (Sum.inrₗ t) : (ℕ ⊕ₗ ι) ⊕ₗ ℕ))
  | .other offset => ((Sum.inrₗ offset : (ℕ ⊕ₗ ι) ⊕ₗ ℕ))
  | .endPosition => ⊤

/-- The order of the tables. -/
def Less (p q : Position ι) : Prop := place s p < place s q

instance : IsStrictWeakOrder (Position ι) (Less s) where
  irrefl p := lt_irrefl (place s p)
  trans _ _ _ := lt_trans
  incomp_trans p q r hpq hqr := by
    have h₁ : place s p = place s q := le_antisymm (not_lt.1 hpq.2) (not_lt.1 hpq.1)
    have h₂ : place s q = place s r := le_antisymm (not_lt.1 hqr.2) (not_lt.1 hqr.1)
    rw [Less, Less, h₁, h₂]
    exact ⟨lt_irrefl _, lt_irrefl _⟩

variable {s} {t u : ι} {c d : ℕ}

theorem less_type_iff (ht : s.equivalenceClassOf t = some c) (hu : s.equivalenceClassOf u = some d) :
    Less s (.type t) (.type u) ↔ c < d := by
  simp only [Less, place, ht, hu, WithTop.coe_lt_coe, Sum.Lex.inl_lt_inl_iff]

/-- The places of a type and of another DIE do not depend on the tables. -/
theorem less_type_other (t : ι) (offset : ℕ) : Less s (.type t) (.other offset) := by
  rw [Less, place, place]
  cases s.equivalenceClassOf t <;> exact WithTop.coe_lt_coe.2 (Sum.Lex.inl_lt_inr _ _)

theorem less_other_iff {p q : ℕ} : Less s (.other p) (.other q) ↔ p < q := by
  simp only [Less, place, WithTop.coe_lt_coe, Sum.Lex.inr_lt_inr_iff]

theorem less_endPosition {p : Position ι} (hp : p ≠ .endPosition) : Less s p .endPosition := by
  rw [Less, place.eq_def s .endPosition]
  cases p with
  | type t =>
    rw [place]
    cases s.equivalenceClassOf t <;> exact WithTop.coe_lt_top _
  | other offset => exact WithTop.coe_lt_top _
  | endPosition => exact absurd rfl hp

theorem not_less_endPosition (p : Position ι) : ¬Less s .endPosition p := not_top_lt

end Order

section Runs

variable [LinearOrder ι] {g : TypeGraph ι} {summaryCode : ι → Option (BitVec 32)} {fuel : ℕ}

/-- A query and its answer agree with an order of the positions. -/
def Agrees (lt : Position ι → Position ι → Prop) : Query ι → Answer → Prop
  | .equal t u, .equal r => r ≠ .unequal ↔ ¬lt (.type t) (.type u) ∧ ¬lt (.type u) (.type t)
  | .summaryCode _, .summaryCode _ => True
  | .less p q, .less b => b = true ↔ lt p q
  | _, _ => False

variable (summaryCode) in
/-- If the query found two types equal, they hash equally. -/
def HashesAgree : Query ι → Answer → Prop
  | .equal t u, .equal r => r ≠ .unequal → typeHashFn summaryCode t = typeHashFn summaryCode u
  | _, _ => True

/-- The query and its answer agree with the order of these tables and all later ones. -/
def AgreesFrom (s : EqualityCache ι) (q : Query ι) (a : Answer) : Prop :=
  ∀ s', KeepsClasses s s' → Agrees (Less s') q a

variable {s s' : EqualityCache ι}

theorem AgreesFrom.later {q : Query ι} {a : Answer} (h : AgreesFrom s q a)
    (hs : KeepsClasses s s') : AgreesFrom s' q a := fun s'' hs' =>
  h s'' fun x c hx => hs' x c (hs x c hx)

theorem Answered.agrees {t u : ι} {r : EqualResult} (h : Answered g summaryCode t u s r s') :
    AgreesFrom s' (.equal t u) (.equal r) := by
  intro s'' hs''
  rw [Agrees]
  rcases eq_or_ne t u with rfl | hne
  · exact iff_of_true (h.decides.2 (bisimilar_refl t)) ⟨lt_irrefl _, lt_irrefl _⟩
  · obtain ⟨c, d, hc, hd⟩ := h.filed hne
    have hcd : r ≠ .unequal ↔ c = d := h.decides.trans (h.sound.decided t u c d hc hd).symm
    have hc' := hs'' t c hc
    have hd' := hs'' u d hd
    rw [less_type_iff hc' hd', less_type_iff hd' hc', hcd]
    omega

omit [LinearOrder ι] in
theorem Answered.hashes {t u : ι} {r : EqualResult} (h : Answered g summaryCode t u s r s') :
    HashesAgree summaryCode (.equal t u) (.equal r) := by
  intro hr
  rw [typeHashFn, typeHashFn, summaryCode_eq_of_bisimilar (h.decides.1 hr)]

variable (g summaryCode) in
/-- What a query does to sound tables `s`: it keeps them sound and every class, and its answer agrees
with the hashes and with the order from then on. -/
structure QueryAnswered (q : Query ι) (s : EqualityCache ι) (a : Answer) (s' : EqualityCache ι) :
    Prop where
  sound : Sound g summaryCode s'
  keeps : KeepsClasses s s'
  hashes : HashesAgree summaryCode q a
  agrees : AgreesFrom s' q a

theorem queryAnswered_const {q : Query ι} {a : Answer} (hs : Sound g summaryCode s)
    (hhash : HashesAgree summaryCode q a) (h : ∀ s : EqualityCache ι, Agrees (Less s) q a) :
    QueryAnswered g summaryCode q s a s :=
  ⟨hs, fun _ _ => id, hhash, fun s' _ => h s'⟩

/-- **Two types found to differ** are ordered by their classes. -/
theorem lessByClass_run {t u : ι} (h : Answered g summaryCode t u s .unequal s') :
    ∃ b, lessByClass t u s' = .ok (b, s') ∧
      QueryAnswered g summaryCode (.less (.type t) (.type u)) s (.less b) s' := by
  have hne : t ≠ u := by
    rintro rfl
    exact h.decides.2 (bisimilar_refl t) rfl
  obtain ⟨c, d, hc, hd⟩ := h.filed hne
  refine ⟨c ∉ List.range' d (s'.equivalenceClasses.length - d), ?_, h.sound, h.keeps, trivial,
    fun s'' hs'' => ?_⟩
  · rw [lessByClass, bind_run (show (get : CacheM ι _) s' = .ok (s', s') from rfl), hc, hd]
    rfl
  · have hlt := ((h.sound.mem_iff t c).1 hc).lt
    rw [Agrees, less_type_iff (hs'' t c hc) (hs'' u d hd), decide_eq_true_iff, List.mem_range'_1]
    omega

variable (hequal : ∀ t u s, Sound g summaryCode s → ∃ r s',
  equalCached g summaryCode fuel t (some u) [] s = .ok (r, s') ∧ Answered g summaryCode t u s r s')

include hequal

/-- **Two positions compared** stay compared. -/
theorem less_run (p q : Position ι) (hs : Sound g summaryCode s) :
    ∃ b s', lessByTypeEquality (equalCached g summaryCode fuel) p q s = .ok (b, s') ∧
      QueryAnswered g summaryCode (.less p q) s (.less b) s' := by
  have hconst : ∀ b : Bool, (∀ s : EqualityCache ι, b = true ↔ Less s p q) →
      QueryAnswered g summaryCode (.less p q) s (.less b) s := fun b hb =>
    queryAnswered_const hs trivial hb
  cases p with
  | endPosition =>
    cases q <;> exact ⟨false, s, rfl,
      hconst false fun s => iff_of_false Bool.false_ne_true (not_less_endPosition _)⟩
  | other p =>
    cases q with
    | endPosition =>
      exact ⟨true, s, rfl, hconst true fun s =>
        iff_of_true rfl (less_endPosition (by rintro ⟨⟩))⟩
    | other q =>
      exact ⟨_, s, rfl, hconst _ fun s => decide_eq_true_iff.trans less_other_iff.symm⟩
    | type u =>
      exact ⟨false, s, rfl, hconst false fun s => iff_of_false Bool.false_ne_true fun h =>
        lt_asymm h (less_type_other u p)⟩
  | type t =>
    cases q with
    | endPosition =>
      exact ⟨true, s, rfl, hconst true fun s =>
        iff_of_true rfl (less_endPosition (by rintro ⟨⟩))⟩
    | other q =>
      exact ⟨true, s, rfl, hconst true fun s => iff_of_true rfl (less_type_other t q)⟩
    | type u =>
      obtain ⟨r, s₁, hrun, hr⟩ := hequal t u s hs
      rw [lessByTypeEquality, bind_run hrun]
      by_cases hunequal : r = .unequal
      · obtain rfl := hunequal
        obtain ⟨b, hless, hb⟩ := lessByClass_run hr
        exact ⟨b, s₁, hless, hb⟩
      · rw [if_pos hunequal]
        refine ⟨false, s₁, rfl, hr.sound, hr.keeps, trivial, fun s' hs' => ?_⟩
        exact iff_of_false Bool.false_ne_true ((hr.agrees s' hs').1 hunequal).1

theorem answer_run (q : Query ι) (hs : Sound g summaryCode s) :
    ∃ a s', answer summaryCode (equalCached g summaryCode fuel) q s = .ok (a, s') ∧
      QueryAnswered g summaryCode q s a s' := by
  cases q with
  | equal t u =>
    obtain ⟨r, s', hrun, hr⟩ := hequal t u s hs
    exact ⟨.equal r, s', bind_run hrun, hr.sound, hr.keeps, hr.hashes, hr.agrees⟩
  | summaryCode t =>
    exact ⟨.summaryCode (summaryCode t), s, rfl, queryAnswered_const hs trivial fun _ => trivial⟩
  | less p q =>
    obtain ⟨b, s', hrun, hb⟩ := less_run hequal p q hs
    exact ⟨.less b, s', bind_run hrun, hb⟩

/-- **A sequence of queries**, by the tables it leaves. -/
theorem answers_run (queries : List (Query ι)) (hs : Sound g summaryCode s) :
    ∃ as s', answers summaryCode (equalCached g summaryCode fuel) queries s = .ok (as, s') ∧
      Sound g summaryCode s' ∧ KeepsClasses s s' ∧
      List.Forall₂ (HashesAgree summaryCode) queries as ∧
      List.Forall₂ (AgreesFrom s') queries as := by
  induction queries generalizing s with
  | nil => exact ⟨[], s, rfl, hs, fun _ _ => id, .nil, .nil⟩
  | cons q queries ih =>
    obtain ⟨a, s₁, hrun, ha⟩ := answer_run hequal q hs
    obtain ⟨as, s', hrun', hs', hkeeps, hhashes, hagrees⟩ := ih ha.sound
    refine ⟨a :: as, s', ?_, hs', fun x c hx => hkeeps x c (ha.keeps x c hx),
      .cons ha.hashes hhashes, .cons (ha.agrees.later hkeeps) hagrees⟩
    rw [answers, bind_run hrun, bind_run hrun']
    rfl

omit hequal

variable (summaryCode) in
/-- The classes are well formed: a type with a class is a member of it and of no other, and the
members of a class share their summary code. -/
structure ClassesWellFormed (s : EqualityCache ι) : Prop where
  mem : ∀ x c, s.equivalenceClassOf x = some c → InClass s c x
  unique : ∀ x c d, s.equivalenceClassOf x = some c → InClass s d x → d = c
  code : ∀ x y c, InClass s c x → InClass s c y → summaryCode x = summaryCode y

omit [LinearOrder ι] in
theorem Filed.classesWellFormed {s : EqualityCache ι} (h : Filed summaryCode s) :
    ClassesWellFormed summaryCode s where
  mem x _ := (h.mem_iff x _).1
  unique x _ d hc hd := Option.some.inj (((h.mem_iff x d).2 hd).symm.trans hc)
  code x y c hx hy := h.code_eq ((h.mem_iff x c).2 hx) ((h.mem_iff y c).2 hy)

section Cacheable

variable [Fintype ι] {rank : ι → ℕ}

/-- **Classes stay well formed, and equal types hash equally**: where the cache is transparent, every
sequence of queries from empty tables returns, and leaves them so. -/
theorem classesWellFormed_of_cacheable (h : Cacheable g summaryCode rank) :
    ∃ n, ∀ fuel, n < fuel → ∀ queries, ∃ as s,
      answers summaryCode (equalCached g summaryCode fuel) queries EqualityCache.empty =
        .ok (as, s) ∧
      ClassesWellFormed summaryCode s ∧ List.Forall₂ (HashesAgree summaryCode) queries as := by
  obtain ⟨n, hn⟩ := exists_equalCached_answered h
  refine ⟨n, fun fuel hfuel queries => ?_⟩
  obtain ⟨as, s, hrun, hs, -, hhashes, -⟩ :=
    answers_run (hn fuel hfuel) queries (sound_empty g summaryCode)
  exact ⟨as, s, hrun, hs.filed.classesWellFormed, hhashes⟩

/-- **The order is a strict weak one and stable**: where the cache is transparent, every sequence of
queries from empty tables returns, and one strict weak order agrees with all its answers. -/
theorem less_strictWeakOrder (h : Cacheable g summaryCode rank) :
    ∃ n, ∀ fuel, n < fuel → ∀ queries, ∃ as s,
      answers summaryCode (equalCached g summaryCode fuel) queries EqualityCache.empty =
        .ok (as, s) ∧
      ∃ lt : Position ι → Position ι → Prop, IsStrictWeakOrder (Position ι) lt ∧
        List.Forall₂ (Agrees lt) queries as := by
  obtain ⟨n, hn⟩ := exists_equalCached_answered h
  refine ⟨n, fun fuel hfuel queries => ?_⟩
  obtain ⟨as, s, hrun, -, -, -, hagrees⟩ :=
    answers_run (hn fuel hfuel) queries (sound_empty g summaryCode)
  exact ⟨as, s, hrun, Less s, inferInstance, hagrees.imp fun q a ha => ha s fun _ _ => id⟩

end Cacheable

end Runs

section Examples

/-- `classesWellFormed_of_cacheable` on `pairCopies`. -/
theorem classesWellFormed_pairCopies : ∃ n, ∀ fuel, n < fuel → ∀ queries, ∃ as s,
    answers pairCopiesCode (equalCached pairCopies pairCopiesCode fuel) queries
      EqualityCache.empty = .ok (as, s) ∧
    ClassesWellFormed pairCopiesCode s ∧
      List.Forall₂ (HashesAgree pairCopiesCode) queries as :=
  classesWellFormed_of_cacheable pairCopies_cacheable

/-- `less_strictWeakOrder` on `pairCopies`. -/
theorem less_pairCopies : ∃ n, ∀ fuel, n < fuel → ∀ queries, ∃ as s,
    answers pairCopiesCode (equalCached pairCopies pairCopiesCode fuel) queries
      EqualityCache.empty = .ok (as, s) ∧
    ∃ lt : Position (Fin 8) → Position (Fin 8) → Prop,
      IsStrictWeakOrder (Position (Fin 8)) lt ∧ List.Forall₂ (Agrees lt) queries as :=
  less_strictWeakOrder pairCopies_cacheable

/-- A structure `S` with members of the given types. -/
def structureS (members : List (Fin 8)) : TypeDie (Fin 8) :=
  { (default : TypeDie (Fin 8)) with
    tag := .structureType, name := some "S",
    dataMembers := members.map fun x => ⟨false, some x, some x, none, none⟩ }

/-- A pointer to `x`. -/
def pointerTo (x : Fin 8) : TypeDie (Fin 8) :=
  { (default : TypeDie (Fin 8)) with tag := .pointerType, type := some x }

/-- Three structures `S` of as many compilation units, each but the last with a pointer to the next,
and a pointer to each. -/
def chainedStructures (t : Fin 8) : TypeDie (Fin 8) :=
  match t with
  | 0 => structureS []
  | 1 => pointerTo 2
  | 2 => structureS [5]
  | 3 => pointerTo 0
  | 4 => structureS [3]
  | 5 => pointerTo 4
  | t => { (default : TypeDie (Fin 8)) with tag := .baseType, offset := t.val }

/-- Summary codes of `chainedStructures`: a pointer to `S` is summarised by that name in a
structure. -/
def chainedStructuresCode (t : Fin 8) : Option (BitVec 32) :=
  match t with
  | 2 | 4 => some 1
  | 1 | 5 => some 2
  | t => some (t.val + 10)

/-- **A type in two classes.** -/
theorem chainedStructures_misplaced :
    ¬∀ fuel queries as s, answers chainedStructuresCode
        (equalCached chainedStructures chainedStructuresCode fuel) queries EqualityCache.empty =
          .ok (as, s) →
      ClassesWellFormed chainedStructuresCode s ∧
        List.Forall₂ (HashesAgree chainedStructuresCode) queries as := by
  intro h
  obtain ⟨as, s, hrun, hkey, hin⟩ : ∃ as s, answers chainedStructuresCode
      (equalCached chainedStructures chainedStructuresCode 6) [.equal 4 1, .equal 2 5]
        EqualityCache.empty = .ok (as, s) ∧ s.equivalenceClassOf 5 = some 0 ∧
        s.equivalenceClasses[4]? = some [5] := ⟨_, _, rfl, rfl, rfl⟩
  exact absurd ((h 6 _ as s hrun).1.unique 5 0 4 hkey ⟨[5], hin, List.mem_cons_self⟩) (by decide)

/-- Four structures `S` of as many compilation units, with pointers to them. -/
def crossedStructures (t : Fin 8) : TypeDie (Fin 8) :=
  match t with
  | 0 => structureS [6, 6]
  | 1 => pointerTo 7
  | 2 => structureS [4, 6]
  | 3 => pointerTo 2
  | 4 => pointerTo 5
  | 5 => structureS []
  | 6 => pointerTo 0
  | 7 => structureS [1, 3]

/-- Summary codes of `crossedStructures`. -/
def crossedStructuresCode (t : Fin 8) : Option (BitVec 32) :=
  match t with
  | 0 | 2 | 7 => some 1
  | 1 | 3 | 6 => some 2
  | t => some (t.val + 10)

/-- **An order that changes**: two pointers, one less than the other at first, are found equal
after a comparison of one of them with a structure. -/
theorem crossedStructures_reordered :
    ¬∀ fuel queries as s, answers crossedStructuresCode
        (equalCached crossedStructures crossedStructuresCode fuel) queries EqualityCache.empty =
          .ok (as, s) →
      ∃ lt : Position (Fin 8) → Position (Fin 8) → Prop, IsStrictWeakOrder (Position (Fin 8)) lt ∧
        List.Forall₂ (Agrees lt) queries as := by
  intro h
  have hrun : ∃ s, answers crossedStructuresCode
      (equalCached crossedStructures crossedStructuresCode 8)
        [.less (.type 6) (.type 3), .equal 7 6, .less (.type 6) (.type 3)] EqualityCache.empty =
          .ok ([.less true, .equal .unequal, .less false], s) := ⟨_, rfl⟩
  obtain ⟨s, hrun⟩ := hrun
  obtain ⟨lt, -, hagrees⟩ := h 8 _ _ s hrun
  cases hagrees with
  | cons hfirst hrest =>
    cases hrest with
    | cons _ hrest =>
      cases hrest with
      | cons hlast _ => exact absurd (hlast.2 (hfirst.1 rfl)) Bool.false_ne_true

end Examples

end Types
end Dwarfpp
