/-
# Sound equality tables

`Filed` says that the tables of the equality cache hold together: the classes
hold exactly the types filed under them, and the index finds each of them.
`Sound` is what they are to satisfy: besides, two types are in one class if and
only if they are bisimilar.  `sound_file` is the one way the tables change:
further types are filed under an old class or a new one.
-/

import Dwarfpp.Types.Cache
import Dwarfpp.Types.Equivalence

namespace Dwarfpp
namespace Types

open Lib

variable {ι : Type}

/-- Membership in the set of a class. -/
def InClass (s : EqualityCache ι) (c : ℕ) (x : ι) : Prop :=
  ∃ offsets, s.equivalenceClasses[c]? = some offsets ∧ x ∈ offsets

section Tables

variable {s : EqualityCache ι} {c d : ℕ} {x y : ι}

theorem InClass.lt (h : InClass s c x) : c < s.equivalenceClasses.length := by
  obtain ⟨offsets, hc, -⟩ := h
  exact (List.getElem?_eq_some_iff.1 hc).1

theorem inClass_newClass {code : Option (BitVec 32)} :
    InClass (s.newClass code) d y ↔ InClass s d y := by
  simp only [InClass, EqualityCache.newClass]
  rcases lt_trichotomy d s.equivalenceClasses.length with h | rfl | h
  · rw [List.getElem?_append_left h]
  · simp
  · rw [List.getElem?_eq_none (by simp; omega), List.getElem?_eq_none (by omega)]

variable [LinearOrder ι]

theorem mem_insertOffset {offsets : List ι} : y ∈ insertOffset x offsets ↔ y = x ∨ y ∈ offsets := by
  rw [insertOffset]
  split_ifs with h
  · exact ⟨.inr, fun h' => h'.elim (fun h' => h' ▸ h) id⟩
  · exact List.mem_orderedInsert _

@[simp] theorem length_insertInClass :
    (s.insertInClass c x).equivalenceClasses.length = s.equivalenceClasses.length :=
  List.length_modify ..

theorem inClass_insertInClass (hc : c < s.equivalenceClasses.length) :
    InClass (s.insertInClass c x) d y ↔ InClass s d y ∨ (d = c ∧ y = x) := by
  simp only [InClass, EqualityCache.insertInClass, List.getElem?_modify]
  by_cases h : c = d
  · subst h
    rw [List.getElem?_eq_getElem hc]
    simp [mem_insertOffset, or_comm]
  · simp [h, Ne.symm h]

@[simp] theorem classOf_insertInClass :
    (s.insertInClass c x).equivalenceClassOf = s.equivalenceClassOf := rfl

@[simp] theorem bySummaryCode_insertInClass :
    (s.insertInClass c x).bySummaryCode = s.bySummaryCode := rfl

theorem inClass_insertClassOf : InClass (s.insertClassOf x c) d y ↔ InClass s d y := by
  rw [EqualityCache.insertClassOf]
  split <;> exact Iff.rfl

@[simp] theorem length_insertClassOf :
    (s.insertClassOf x c).equivalenceClasses.length = s.equivalenceClasses.length := by
  rw [EqualityCache.insertClassOf]
  split <;> rfl

@[simp] theorem bySummaryCode_insertClassOf :
    (s.insertClassOf x c).bySummaryCode = s.bySummaryCode := by
  rw [EqualityCache.insertClassOf]
  split <;> rfl

theorem classOf_insertClassOf (h : ∀ d, s.equivalenceClassOf x = some d → d = c) :
    (s.insertClassOf x c).equivalenceClassOf y =
      if y = x then some c else s.equivalenceClassOf y := by
  rw [EqualityCache.insertClassOf]
  split
  case h_1 d hd =>
    split_ifs with hy
    · rw [hy, hd, h d hd]
    · rfl
  case h_2 => rfl

end Tables

section Filed

variable (summaryCode : ι → Option (BitVec 32))

/-- **The tables hold together**: the members of a class are the types filed under it, and the index
has every class once, with the summary code of its members. -/
structure Filed (s : EqualityCache ι) : Prop where
  mem_iff : ∀ x c, s.equivalenceClassOf x = some c ↔ InClass s c x
  indexed : ∀ x c, s.equivalenceClassOf x = some c → (summaryCode x, c) ∈ s.bySummaryCode
  index : s.bySummaryCode.map Prod.snd = List.range s.equivalenceClasses.length

theorem filed_empty : Filed summaryCode (EqualityCache.empty : EqualityCache ι) where
  mem_iff x c := by simp [InClass, EqualityCache.empty]
  indexed x c h := nomatch h
  index := rfl

variable {summaryCode} {s s' : EqualityCache ι} {c : ℕ} {x y : ι}

/-- The index has one entry for a class. -/
theorem Filed.code_unique (h : Filed summaryCode s) {code code' : Option (BitVec 32)}
    (hc : (code, c) ∈ s.bySummaryCode) (hc' : (code', c) ∈ s.bySummaryCode) : code = code' := by
  have hnodup : (s.bySummaryCode.map Prod.snd).Nodup := h.index ▸ List.nodup_range
  exact congrArg Prod.fst (List.inj_on_of_nodup_map hnodup hc hc' rfl)

/-- **The members of a class share their summary code.** -/
theorem Filed.code_eq (h : Filed summaryCode s) (hx : s.equivalenceClassOf x = some c)
    (hy : s.equivalenceClassOf y = some c) : summaryCode x = summaryCode y :=
  h.code_unique (h.indexed x c hx) (h.indexed y c hy)

/-- **Filing.**  Types of one summary code are put into a class of it, or into a new one, where they
have no other. -/
theorem Filed.file (hs : Filed summaryCode s) {p : ι → Prop} [DecidablePred p]
    {code : Option (BitVec 32)}
    (hclassOf : ∀ y, s'.equivalenceClassOf y = if p y then some c else s.equivalenceClassOf y)
    (hmem : ∀ d y, InClass s' d y ↔ InClass s d y ∨ (d = c ∧ p y))
    (hcode : ∀ y, p y → summaryCode y = code)
    (hfree : ∀ y d, p y → s.equivalenceClassOf y = some d → d = c)
    (hindex : (s'.bySummaryCode = s.bySummaryCode ∧
        s'.equivalenceClasses.length = s.equivalenceClasses.length ∧
        (code, c) ∈ s.bySummaryCode) ∨
      (s'.bySummaryCode = s.bySummaryCode ++ [(code, c)] ∧ c = s.equivalenceClasses.length ∧
        s'.equivalenceClasses.length = s.equivalenceClasses.length + 1)) :
    Filed summaryCode s' := by
  refine ⟨fun x d => ?_, fun x d hx => ?_, ?_⟩
  · rw [hclassOf, hmem, ← hs.mem_iff]
    split_ifs with h
    · constructor
      · intro hd
        exact .inr ⟨(Option.some.inj hd).symm, h⟩
      · rintro (hd | ⟨rfl, -⟩)
        · rw [hfree x d h hd]
        · rfl
    · simp [h]
  · rw [hclassOf] at hx
    rcases hindex with ⟨hby, -, hmem⟩ | ⟨hby, -⟩
    · rw [hby]
      split_ifs at hx with h
      · obtain rfl := Option.some.inj hx
        rwa [hcode x h]
      · exact hs.indexed x d hx
    · rw [hby]
      split_ifs at hx with h
      · obtain rfl := Option.some.inj hx
        rw [hcode x h]
        exact List.mem_append_right _ List.mem_cons_self
      · exact List.mem_append_left _ (hs.indexed x d hx)
  · rcases hindex with ⟨hby, hlen, -⟩ | ⟨hby, rfl, hlen⟩
    · rw [hby, hlen, hs.index]
    · rw [hby, hlen, List.map_append, hs.index, List.range_succ]
      rfl

end Filed

section Sound

variable (g : TypeGraph ι) (summaryCode : ι → Option (BitVec 32))

/-- **The tables are sound.** -/
structure Sound (s : EqualityCache ι) : Prop where
  mem_iff : ∀ x c, s.equivalenceClassOf x = some c ↔ InClass s c x
  indexed : ∀ x c, s.equivalenceClassOf x = some c → (summaryCode x, c) ∈ s.bySummaryCode
  index : s.bySummaryCode.map Prod.snd = List.range s.equivalenceClasses.length
  inhabited : ∀ e ∈ s.bySummaryCode, ∃ x, s.equivalenceClassOf x = some e.2
  code : ∀ e ∈ s.bySummaryCode, ∀ x, s.equivalenceClassOf x = some e.2 → summaryCode x = e.1
  decided : ∀ x y c d, s.equivalenceClassOf x = some c → s.equivalenceClassOf y = some d →
    (c = d ↔ Bisimilar g summaryCode x y)

variable {g summaryCode} in
theorem Sound.filed {s : EqualityCache ι} (h : Sound g summaryCode s) : Filed summaryCode s :=
  ⟨h.mem_iff, h.indexed, h.index⟩

theorem sound_empty : Sound g summaryCode (EqualityCache.empty : EqualityCache ι) where
  mem_iff := (filed_empty summaryCode).mem_iff
  indexed := (filed_empty summaryCode).indexed
  index := (filed_empty summaryCode).index
  inhabited _ h := absurd h List.not_mem_nil
  code _ h := absurd h List.not_mem_nil
  decided _ _ _ _ h := nomatch h

/-- The tables grow, and nothing of rank `k` or more is filed. -/
structure Extends (rank : ι → ℕ) (k : ℕ) (s s' : EqualityCache ι) : Prop where
  same : ∀ x, k ≤ rank x → s'.equivalenceClassOf x = s.equivalenceClassOf x
  grows : ∀ x c, s.equivalenceClassOf x = some c → s'.equivalenceClassOf x = some c
  index : s.bySummaryCode <+: s'.bySummaryCode

variable {rank : ι → ℕ} {k : ℕ} {s s₁ s' : EqualityCache ι}

theorem Extends.refl (s : EqualityCache ι) : Extends rank k s s :=
  ⟨fun _ _ => rfl, fun _ _ h => h, List.prefix_rfl⟩

theorem Extends.trans (h : Extends rank k s s₁) (h' : Extends rank k s₁ s') :
    Extends rank k s s' :=
  ⟨fun x hx => (h'.same x hx).trans (h.same x hx), fun x c hc => h'.grows x c (h.grows x c hc),
    h.index.trans h'.index⟩

theorem Extends.mono {k' : ℕ} (hk : k ≤ k') (h : Extends rank k s s') : Extends rank k' s s' :=
  ⟨fun x hx => h.same x (hk.trans hx), h.grows, h.index⟩

variable {g summaryCode}

/-- The classes are no more than the types. -/
theorem Sound.length_le [Fintype ι] (h : Sound g summaryCode s) :
    s.bySummaryCode.length ≤ Fintype.card ι := by
  have hlen : s.bySummaryCode.length = s.equivalenceClasses.length := by
    have := congrArg List.length h.index
    simpa using this
  have hmem : ∀ c : Fin s.equivalenceClasses.length, ∃ x, s.equivalenceClassOf x = some c.val := by
    intro c
    have hc : c.val ∈ s.bySummaryCode.map Prod.snd := by
      rw [h.index]
      exact List.mem_range.2 c.isLt
    obtain ⟨e, he, hec⟩ := List.mem_map.1 hc
    obtain ⟨x, hx⟩ := h.inhabited e he
    exact ⟨x, hec ▸ hx⟩
  choose f hf using hmem
  rw [hlen, ← Fintype.card_fin s.equivalenceClasses.length]
  refine Fintype.card_le_of_injective f fun c d hcd => Fin.ext ?_
  have hc := hf c
  rw [hcd, hf d] at hc
  exact (Option.some.inj hc).symm

/-- **Filing.**  Types of one summary code that are bisimilar are put into one class: one that is
there and whose members are bisimilar to them, or a new one where there is none such. -/
theorem sound_file (hs : Sound g summaryCode s) {p : ι → Prop} [DecidablePred p] {c : ℕ}
    {code : Option (BitVec 32)}
    (hclassOf : ∀ y, s'.equivalenceClassOf y = if p y then some c else s.equivalenceClassOf y)
    (hmem : ∀ d y, InClass s' d y ↔ InClass s d y ∨ (d = c ∧ p y))
    (hp : ∃ y, p y) (hcode : ∀ y, p y → summaryCode y = code)
    (hbis : ∀ y z, p y → p z → Bisimilar g summaryCode y z)
    (hold : ∀ y x d, p y → s.equivalenceClassOf x = some d → (d = c ↔ Bisimilar g summaryCode x y))
    (hfree : ∀ y d, p y → s.equivalenceClassOf y = some d → d = c)
    (hindex : (s'.bySummaryCode = s.bySummaryCode ∧
        s'.equivalenceClasses.length = s.equivalenceClasses.length ∧
        (code, c) ∈ s.bySummaryCode) ∨
      (s'.bySummaryCode = s.bySummaryCode ++ [(code, c)] ∧ c = s.equivalenceClasses.length ∧
        s'.equivalenceClasses.length = s.equivalenceClasses.length + 1)) :
    Sound g summaryCode s' := by
  have hfiled : Filed summaryCode s' := hs.filed.file hclassOf hmem hcode hfree hindex
  have hcases : ∀ e ∈ s'.bySummaryCode, e = (code, c) ∨ e ∈ s.bySummaryCode := by
    intro e he
    rcases hindex with ⟨h, -⟩ | ⟨h, -⟩
    · exact .inr (h ▸ he)
    · rw [h, List.mem_append, List.mem_singleton] at he
      exact he.symm
  have hgrows : ∀ x d, s.equivalenceClassOf x = some d → s'.equivalenceClassOf x = some d := by
    intro x d hx
    rw [hclassOf]
    split_ifs with h
    · rw [hfree x d h hx]
    · exact hx
  refine ⟨hfiled.mem_iff, hfiled.indexed, hfiled.index, fun e he => ?_,
    fun e he x hx => hfiled.code_unique (hfiled.indexed x e.2 hx) he, fun x y d d' hx hy => ?_⟩
  · rcases hcases e he with rfl | he
    · obtain ⟨y, hy⟩ := hp
      exact ⟨y, by rw [hclassOf, if_pos hy]⟩
    · obtain ⟨x, hx⟩ := hs.inhabited e he
      exact ⟨x, hgrows x _ hx⟩
  · rw [hclassOf] at hx hy
    split_ifs at hx hy with h h' h'
    · obtain rfl := Option.some.inj hx
      obtain rfl := Option.some.inj hy
      exact iff_of_true rfl (hbis x y h h')
    · obtain rfl := Option.some.inj hx
      rw [eq_comm, hold x y d' h hy]
      exact ⟨bisimilar_symm, bisimilar_symm⟩
    · obtain rfl := Option.some.inj hy
      exact hold y x d h' hx
    · exact hs.decided x y d d' hx hy

end Sound

end Types
end Dwarfpp
