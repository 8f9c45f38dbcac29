/-
# A last child more

A tree in pre-order and the tree with a node more, put behind a node's subtree as
its last child.  Every place of the old tree is a place of the new one with the
same first child and next sibling, but that the parent without children gets
its first child, and the last of its children a next sibling.
-/

import Dwarfpp.Lib.Preorder

namespace Dwarfpp
namespace Lib
namespace Preorder

variable {α : Type} (depth : α → ℕ)

/-- `n` may be put between `w`, what is below `x`, and `rest`, what is behind it. -/
structure Insertion (x : α) (w : List α) (n : α) (rest : List α) : Prop where
  below : ∀ m ∈ w, depth x < depth m
  behind : ∀ m ∈ rest.head?, depth m ≤ depth x
  level : depth n = depth x + 1

variable {depth} {pre w rest : List α} {x n : α}

/-- The places of a list with a piece in the middle. -/
theorem suffix_append_cases {p r m : List α} {y : α} (h : y :: m <:+ p ++ r) :
    y :: m <:+ r ∨ ∃ a, m = a ++ r ∧ y :: a <:+ p := by
  obtain ⟨q, hq⟩ := h
  rcases List.append_eq_append_iff.1 hq with ⟨c, rfl, hc⟩ | ⟨c, rfl, hc⟩
  · cases c with
    | nil => exact .inl (by rw [hc]; exact List.suffix_rfl)
    | cons z a =>
      obtain ⟨rfl, rfl⟩ := List.cons.inj hc
      exact .inr ⟨a, rfl, List.suffix_append _ _⟩
  · exact .inl ⟨c, hc.symm⟩

/-- A place up to the end of the subtree of `x`: below it, at it or before it. -/
theorem suffix_cases {a : List α} {y : α} (h : y :: a <:+ pre ++ x :: w) :
    y :: a <:+ w ∨ (y = x ∧ a = w) ∨ ∃ b, a = b ++ x :: w := by
  rcases suffix_append_cases h with h | ⟨b, rfl, -⟩
  · rcases List.suffix_cons_iff.1 h with heq | h
    · obtain ⟨rfl, rfl⟩ := List.cons.inj heq
      exact .inr (.inl ⟨rfl, rfl⟩)
    · exact .inl h
  · exact .inr (.inr ⟨b, rfl⟩)

section Places

variable {y : α} {a m : List α}

/-- A place of the old tree is one of the new. -/
theorem suffix_new (h : y :: a <:+ pre ++ x :: w) :
    y :: (a ++ n :: rest) <:+ pre ++ x :: (w ++ n :: rest) := by
  obtain ⟨q, hq⟩ := h
  refine ⟨q, ?_⟩
  calc q ++ y :: (a ++ n :: rest) = (q ++ y :: a) ++ n :: rest := by simp
    _ = pre ++ x :: (w ++ n :: rest) := by rw [hq]; simp

theorem suffix_old (h : y :: a <:+ pre ++ x :: w) :
    y :: (a ++ rest) <:+ pre ++ x :: (w ++ rest) := by
  obtain ⟨q, hq⟩ := h
  refine ⟨q, ?_⟩
  calc q ++ y :: (a ++ rest) = (q ++ y :: a) ++ rest := by simp
    _ = pre ++ x :: (w ++ rest) := by rw [hq]; simp

theorem suffix_rest_old (h : y :: m <:+ rest) : y :: m <:+ pre ++ x :: (w ++ rest) := by
  refine h.trans ⟨pre ++ x :: w, ?_⟩
  simp

theorem suffix_rest_new (h : y :: m <:+ rest) : y :: m <:+ pre ++ x :: (w ++ n :: rest) := by
  refine h.trans ⟨pre ++ x :: (w ++ [n]), ?_⟩
  simp

/-- **The places of the new tree**: behind the new node, at it, and those of the old tree before. -/
theorem suffix_new_cases (h : y :: m <:+ pre ++ x :: (w ++ n :: rest)) :
    y :: m <:+ rest ∨ (y = n ∧ m = rest) ∨
      ∃ a, m = a ++ n :: rest ∧ y :: a <:+ pre ++ x :: w := by
  rw [show pre ++ x :: (w ++ n :: rest) = (pre ++ x :: w) ++ n :: rest by simp] at h
  rcases suffix_append_cases h with h | h
  · rcases List.suffix_cons_iff.1 h with heq | h
    · obtain ⟨rfl, rfl⟩ := List.cons.inj heq
      exact .inr (.inl ⟨rfl, rfl⟩)
    · exact .inl h
  · exact .inr (.inr h)

/-- **The places of the old tree.** -/
theorem suffix_old_cases (h : y :: m <:+ pre ++ x :: (w ++ rest)) :
    y :: m <:+ rest ∨ ∃ a, m = a ++ rest ∧ y :: a <:+ pre ++ x :: w := by
  rw [show pre ++ x :: (w ++ rest) = (pre ++ x :: w) ++ rest by simp] at h
  exact suffix_append_cases h

end Places

section Edges

variable (h : Insertion depth x w n rest)
include h

/-- The new node has no child. -/
theorem Insertion.firstChild_new : firstChild depth (n :: rest) = [] := by
  cases hc : firstChild depth (n :: rest) with
  | nil => rfl
  | cons y l =>
    obtain ⟨rfl, hy⟩ := firstChild_eq_cons.1 hc
    have := h.behind y rfl
    have := h.level
    omega

/-- What is behind the new node is not below it. -/
theorem Insertion.dropWhile_rest {d : ℕ} (hd : depth x ≤ d) :
    rest.dropWhile (fun y => d < depth y) = rest := by
  cases rest with
  | nil => rfl
  | cons y l =>
    have := h.behind y rfl
    refine List.dropWhile_cons_of_neg ?_
    simp only [decide_eq_true_eq]
    omega

/-- The new node is the last child. -/
theorem Insertion.nextSibling_new : nextSibling depth (n :: rest) = [] := by
  cases hc : nextSibling depth (n :: rest) with
  | nil => rfl
  | cons y l =>
    obtain ⟨hafter, hy⟩ := nextSibling_eq_cons.1 hc
    rw [after, h.dropWhile_rest (by have := h.level; omega)] at hafter
    have := h.behind y (by rw [hafter]; rfl)
    have := h.level
    omega

variable {y : α} {a : List α} (hy : y :: a <:+ pre ++ x :: w)
include hy

theorem Insertion.depth_le_last (ha : a = []) : depth x ≤ depth y := by
  subst ha
  rcases suffix_cases hy with hw | ⟨rfl, -⟩ | ⟨b, hb⟩
  · exact (h.below y (hw.subset List.mem_cons_self)).le
  · exact le_rfl
  · exact absurd hb (by simp)

/-- **First children stay**, but for the parent that had none. -/
theorem Insertion.firstChild : (firstChild depth (y :: (a ++ n :: rest))).head? =
      (Preorder.firstChild depth (y :: (a ++ rest))).head? ∨
    (y = x ∧ w = [] ∧ Preorder.firstChild depth (y :: (a ++ rest)) = [] ∧
      Preorder.firstChild depth (y :: (a ++ n :: rest)) = n :: rest) := by
  cases ha : a with
  | cons c a =>
    left
    simp only [List.cons_append, Preorder.firstChild]
    split_ifs <;> rfl
  | nil =>
    have hle := h.depth_le_last hy ha
    have hold : Preorder.firstChild depth (y :: rest) = [] := by
      cases hc : Preorder.firstChild depth (y :: rest) with
      | nil => rfl
      | cons z l =>
        obtain ⟨rfl, hz⟩ := firstChild_eq_cons.1 hc
        have := h.behind z rfl
        omega
    rw [List.nil_append, List.nil_append]
    by_cases hd : depth y = depth x
    · right
      rw [ha] at hy
      rcases suffix_cases hy with hw | ⟨rfl, rfl⟩ | ⟨b, hb⟩
      · have := h.below y (hw.subset List.mem_cons_self)
        omega
      · exact ⟨rfl, rfl, hold, firstChild_eq_cons.2 ⟨rfl, h.level⟩⟩
      · exact absurd hb (by simp)
    · left
      rw [hold, Preorder.firstChild, if_neg]
      have := h.level
      omega

/-- **Next siblings stay**, but for the child that was the last. -/
theorem Insertion.nextSibling : (nextSibling depth (y :: (a ++ n :: rest))).head? =
      (Preorder.nextSibling depth (y :: (a ++ rest))).head? ∨
    (y :: a <:+ w ∧ depth y = depth x + 1 ∧ (∀ m ∈ a, depth y < depth m) ∧
      Preorder.nextSibling depth (y :: (a ++ rest)) = [] ∧
      Preorder.nextSibling depth (y :: (a ++ n :: rest)) = n :: rest) := by
  by_cases hall : ∀ m ∈ a, depth y < depth m
  · have hdrop : ∀ r : List α, after depth (y :: (a ++ r)) = r.dropWhile (fun z => depth y < depth z) :=
      fun r => List.dropWhile_append_of_pos fun m hm => by simpa using hall m hm
    by_cases hlt : depth y < depth n
    · left
      have hsame : after depth (y :: (a ++ n :: rest)) = after depth (y :: (a ++ rest)) := by
        rw [hdrop, hdrop, List.dropWhile_cons_of_pos (by simpa using hlt)]
      unfold Preorder.nextSibling
      rw [hsame]
      cases after depth (y :: (a ++ rest)) <;> rfl
    · have hnew : after depth (y :: (a ++ n :: rest)) = n :: rest := by
        rw [hdrop, List.dropWhile_cons_of_neg (by simpa using hlt)]
      have hlevel := h.level
      have hold : Preorder.nextSibling depth (y :: (a ++ rest)) = [] := by
        cases hc : Preorder.nextSibling depth (y :: (a ++ rest)) with
        | nil => rfl
        | cons z l =>
          obtain ⟨hafter, hz⟩ := nextSibling_eq_cons.1 hc
          rw [hdrop, h.dropWhile_rest (by omega)] at hafter
          have := h.behind z (by rw [hafter]; rfl)
          omega
      by_cases hd : depth n = depth y
      · right
        refine ⟨?_, by omega, hall, hold, nextSibling_eq_cons.2 ⟨hnew, hd⟩⟩
        rcases suffix_cases hy with hw | ⟨rfl, -⟩ | ⟨b, rfl⟩
        · exact hw
        · omega
        · have := hall x (by simp)
          omega
      · left
        rw [hold]
        unfold Preorder.nextSibling
        rw [hnew]
        simp only [if_neg hd]
  · left
    -- The next sibling, if any, is in the part that both trees have.
    push Not at hall
    obtain ⟨m, hm, hle⟩ := hall
    have hne : a.dropWhile (fun z => depth y < depth z) ≠ [] := by
      rw [Ne, List.dropWhile_eq_nil_iff]
      intro hall
      have := hall m hm
      simp only [decide_eq_true_eq] at this
      omega
    obtain ⟨z, b, hb⟩ := List.exists_cons_of_ne_nil hne
    have hafter : ∀ r : List α, after depth (y :: (a ++ r)) = z :: (b ++ r) := by
      intro r
      rw [after, List.dropWhile_append, hb]
      simp
    unfold Preorder.nextSibling
    rw [hafter, hafter]
    simp only
    split_ifs <;> rfl

end Edges

/-- `y` is the last child of `x`, below which is `w`. -/
def IsLastChild (depth : α → ℕ) (x : α) (w : List α) (y : α) : Prop :=
  ∃ a, y :: a <:+ w ∧ depth y = depth x + 1 ∧ ∀ z ∈ a, depth y < depth z

section Corresponding

variable {y : α} {m m' : List α}

/-- A place of the new tree that is not the new node's is one of the old. -/
theorem place_old (h : y :: m' <:+ pre ++ x :: (w ++ n :: rest)) (hy : y ≠ n) :
    ∃ m, y :: m <:+ pre ++ x :: (w ++ rest) := by
  rcases suffix_new_cases h with hr | ⟨rfl, -⟩ | ⟨a, -, ha⟩
  · exact ⟨m', suffix_rest_old hr⟩
  · exact absurd rfl hy
  · exact ⟨a ++ rest, suffix_old ha⟩

/-- A place of the old tree is one of the new. -/
theorem place_new (h : y :: m <:+ pre ++ x :: (w ++ rest)) :
    ∃ m', y :: m' <:+ pre ++ x :: (w ++ n :: rest) := by
  rcases suffix_old_cases h with hr | ⟨a, -, ha⟩
  · exact ⟨m, suffix_rest_new hr⟩
  · exact ⟨a ++ n :: rest, suffix_new ha⟩

variable {key : α → ℕ} (hs : Sorted key (pre ++ x :: (w ++ n :: rest)))
  (ho : y :: m <:+ pre ++ x :: (w ++ rest)) (hn : y :: m' <:+ pre ++ x :: (w ++ n :: rest))
include hs

theorem Sorted.remove : Sorted key (pre ++ x :: (w ++ rest)) := by
  refine List.Pairwise.sublist ?_ hs
  simp

/-- The new node is not in the old tree. -/
theorem Sorted.new_not_mem : n ∉ pre ++ x :: (w ++ rest) := by
  intro hmem
  have hall : pre ++ x :: (w ++ n :: rest) = (pre ++ x :: w) ++ n :: rest := by simp
  have hall' : pre ++ x :: (w ++ rest) = (pre ++ x :: w) ++ rest := by simp
  rw [hall] at hs
  rw [hall'] at hmem
  rcases List.mem_append.1 hmem with hm | hm
  · exact absurd ((List.pairwise_append.1 hs).2.2 n hm n List.mem_cons_self) (lt_irrefl _)
  · exact absurd (List.rel_of_pairwise_cons (List.pairwise_append.1 hs).2.1 hm) (lt_irrefl _)

include ho hn

/-- What follows a node in the two trees. -/
theorem place_cases :
    m = m' ∨ ∃ a, m = a ++ rest ∧ m' = a ++ n :: rest ∧ y :: a <:+ pre ++ x :: w := by
  have hold := hs.remove
  rcases suffix_new_cases hn with hr | ⟨rfl, -⟩ | ⟨a, rfl, ha⟩
  · exact .inl (List.cons.inj (hold.suffix_unique ho (suffix_rest_old hr) rfl)).2
  · exact absurd (ho.subset List.mem_cons_self) hs.new_not_mem
  · obtain ⟨-, rfl⟩ := List.cons.inj (hold.suffix_unique ho (suffix_old ha) rfl)
    exact .inr ⟨a, rfl, rfl, ha⟩

variable (h : Insertion depth x w n rest)
include h

/-- **First children in the two trees.** -/
theorem Insertion.firstChild_cases : (Preorder.firstChild depth (y :: m')).head? =
      (Preorder.firstChild depth (y :: m)).head? ∨
    (y = x ∧ w = [] ∧ Preorder.firstChild depth (y :: m) = [] ∧
      Preorder.firstChild depth (y :: m') = n :: rest) := by
  rcases place_cases hs ho hn with rfl | ⟨a, rfl, rfl, ha⟩
  · exact .inl rfl
  · exact h.firstChild ha

/-- **Next siblings in the two trees.** -/
theorem Insertion.nextSibling_cases : (Preorder.nextSibling depth (y :: m')).head? =
      (Preorder.nextSibling depth (y :: m)).head? ∨
    (IsLastChild depth x w y ∧ Preorder.nextSibling depth (y :: m) = [] ∧
      Preorder.nextSibling depth (y :: m') = n :: rest) := by
  rcases place_cases hs ho hn with rfl | ⟨a, rfl, rfl, ha⟩
  · exact .inl rfl
  · refine (h.nextSibling ha).imp id ?_
    rintro ⟨hw, hd, hall, hnil, hnew⟩
    exact ⟨⟨a, hw, hd, hall⟩, hnil, hnew⟩

end Corresponding

section LastChild

theorem IsLastChild.unique {y z : α} (hy : IsLastChild depth x w y) (hz : IsLastChild depth x w z) :
    y = z := by
  obtain ⟨a, ha, hdy, hally⟩ := hy
  obtain ⟨b, hb, hdz, hallz⟩ := hz
  rcases List.suffix_or_suffix_of_suffix ha hb with hs | hs
  · rcases List.suffix_cons_iff.1 hs with heq | hs
    · exact (List.cons.inj heq).1
    · have := hallz y (hs.subset List.mem_cons_self)
      omega
  · rcases List.suffix_cons_iff.1 hs with heq | hs
    · exact (List.cons.inj heq).1.symm
    · have := hally z (hs.subset List.mem_cons_self)
      omega

/-- A child without a next sibling is the last: what follows is below it. -/
theorem below_of_nextSibling {y : α} {a : List α} (hw : ∀ m ∈ w, depth x < depth m)
    (hy : y :: a <:+ w) (hd : depth y = depth x + 1)
    (hlast : Preorder.nextSibling depth (y :: (a ++ rest)) = []) : ∀ z ∈ a, depth y < depth z := by
  intro z hz
  by_contra hle
  have hne : a.dropWhile (fun m => depth y < depth m) ≠ [] := by
    rw [Ne, List.dropWhile_eq_nil_iff]
    intro hall
    exact hle (by simpa using hall z hz)
  obtain ⟨c, b, hb⟩ := List.exists_cons_of_ne_nil hne
  have hafter : after depth (y :: (a ++ rest)) = c :: (b ++ rest) := by
    rw [after, List.dropWhile_append, hb]
    simp
  have hcle := depth_after_le hafter
  have hmem : c ∈ a := (List.dropWhile_suffix _).subset (by rw [hb]; exact List.mem_cons_self)
  have hclt := hw c (hy.subset (List.mem_cons_of_mem y hmem))
  rw [nextSibling_eq_cons.2 ⟨hafter, by omega⟩] at hlast
  exact absurd hlast (List.cons_ne_nil _ _)

variable (hrest : ∀ m ∈ rest.head?, depth m ≤ depth x)
include hrest

/-- The next sibling of a child is a child. -/
theorem nextSibling_child {y z : α} {a m : List α} (hy : y :: a <:+ w) (hd : depth y = depth x + 1)
    (hz : Preorder.nextSibling depth (y :: (a ++ rest)) = z :: m) :
    ∃ b, m = b ++ rest ∧ z :: b <:+ w ∧ depth z = depth x + 1 := by
  obtain ⟨hafter, hzd⟩ := nextSibling_eq_cons.1 hz
  rw [after, List.dropWhile_append] at hafter
  split_ifs at hafter with hnil
  · -- What is behind the subtree of `x` is not as deep.
    obtain ⟨c, hc⟩ : z :: m <:+ rest := hafter ▸ List.dropWhile_suffix _
    cases hr : rest with
    | nil =>
      rw [hr] at hc
      simp at hc
    | cons v r =>
      have hv := hrest v (by rw [hr]; rfl)
      have hdrop : List.dropWhile (fun m => decide (depth y < depth m)) rest = rest := by
        rw [hr, List.dropWhile_cons_of_neg]
        simp only [decide_eq_true_eq]
        omega
      rw [hdrop, hr] at hafter
      obtain ⟨rfl, -⟩ := List.cons.inj hafter
      omega
  · cases hb : a.dropWhile (fun m => depth y < depth m) with
    | nil =>
      rw [hb] at hnil
      exact absurd rfl hnil
    | cons c b =>
      rw [hb] at hafter
      obtain ⟨rfl, rfl⟩ := List.cons.inj hafter
      have hcb : c :: b <:+ a := hb ▸ List.dropWhile_suffix _
      exact ⟨b, rfl, hcb.trans ((List.suffix_cons y a).trans hy), hzd.trans hd⟩

/-- **What comes by going from sibling to sibling, from the first child on, is a child.** -/
theorem iterate_nextSibling_child (k : ℕ) {y : α} {m : List α}
    (hy : (Preorder.nextSibling depth)^[k] (Preorder.firstChild depth (x :: (w ++ rest))) = y :: m) :
    ∃ a, m = a ++ rest ∧ y :: a <:+ w ∧ depth y = depth x + 1 := by
  induction k generalizing y m with
  | zero =>
    obtain ⟨hl, hd⟩ := firstChild_eq_cons.1 hy
    cases w with
    | nil =>
      have := hrest y (by rw [List.nil_append] at hl; rw [hl]; rfl)
      omega
    | cons c w =>
      obtain ⟨rfl, rfl⟩ := List.cons.inj hl
      exact ⟨w, rfl, List.suffix_rfl, hd⟩
  | succ k ih =>
    rw [Function.iterate_succ_apply'] at hy
    cases hk : (Preorder.nextSibling depth)^[k]
        (Preorder.firstChild depth (x :: (w ++ rest))) with
    | nil =>
      rw [hk] at hy
      exact absurd hy.symm (List.cons_ne_nil _ _)
    | cons z m₀ =>
      obtain ⟨a₀, rfl, hz, hd⟩ := ih hk
      rw [hk] at hy
      exact nextSibling_child hrest hz hd hy

end LastChild

section Parents

/-- **A parent in the old tree is one in the new.** -/
theorem isParent_insert {y z : α} (h : IsParent depth (pre ++ x :: (w ++ rest)) y z)
    (hi : Insertion depth x w n rest) : IsParent depth (pre ++ x :: (w ++ n :: rest)) y z := by
  obtain ⟨l, mid, r, ht, hz, hmid⟩ := h
  have hy : y :: (mid ++ z :: r) <:+ pre ++ x :: (w ++ rest) := ⟨l, ht.symm⟩
  rcases suffix_old_cases hy with hrest | ⟨a, ha, hya⟩
  · obtain ⟨q, hq⟩ : y :: (mid ++ z :: r) <:+ pre ++ x :: (w ++ n :: rest) :=
      suffix_rest_new hrest
    exact ⟨q, mid, r, hq.symm, hz, hmid⟩
  · obtain ⟨q, hq⟩ : y :: (a ++ n :: rest) <:+ pre ++ x :: (w ++ n :: rest) := suffix_new hya
    -- The child is before the new node, or behind it.
    rcases List.append_eq_append_iff.1 ha with ⟨c, hac, hrc⟩ | ⟨c, hmc, hrc⟩
    · cases c with
      | nil =>
        rw [List.nil_append] at hrc
        rw [List.append_nil] at hac
        subst hac
        have hle := hi.behind z (by rw [← hrc]; rfl)
        refine ⟨q, a ++ [n], r, ?_, hz, fun m hm => ?_⟩
        · rw [← hq, ← hrc]
          simp
        · rcases List.mem_append.1 hm with hm | hm
          · exact hmid m hm
          · rw [List.mem_singleton.1 hm, hi.level]
            omega
      | cons c₀ c =>
        obtain ⟨rfl, rfl⟩ := List.cons.inj hrc
        refine ⟨q, mid, c ++ n :: rest, ?_, hz, hmid⟩
        rw [← hq, hac]
        simp
    · refine ⟨q, a ++ n :: c, r, ?_, hz, fun m hm => ?_⟩
      · rw [← hq, hrc]
        simp
      · rcases List.mem_append.1 hm with hm | hm
        · exact hmid m (by rw [hmc]; simp [hm])
        rcases List.mem_cons.1 hm with rfl | hm
        · -- Everything between `y` and a node behind the subtree of `x` is below `y`.
          rw [hi.level]
          cases c with
          | nil =>
            rw [List.nil_append] at hrc
            have hle := hi.behind z (by rw [hrc]; rfl)
            omega
          | cons c₀ c =>
            have hle := hi.behind c₀ (by rw [hrc]; rfl)
            have hlt := hmid c₀ (by rw [hmc]; simp)
            omega
        · exact hmid m (by rw [hmc]; simp [hm])

/-- The parent of the new node. -/
theorem Insertion.isParent_new (hi : Insertion depth x w n rest) :
    IsParent depth (pre ++ x :: (w ++ n :: rest)) x n :=
  ⟨pre, w, rest, rfl, hi.level, hi.below⟩

end Parents

theorem addLast_append {p : α → Bool} {l : List α} (hx : p x = true) (hpre : ∀ y ∈ pre, p y = false) :
    addLast depth p n (pre ++ x :: l) =
      pre ++ x :: (l.takeWhile (fun y => depth x < depth y) ++ n :: after depth (x :: l)) := by
  induction pre with
  | nil => simp [addLast, hx, subtree]
  | cons y pre ih =>
    rw [List.cons_append, addLast, hpre y List.mem_cons_self, if_neg (by decide),
      ih fun z hz => hpre z (List.mem_cons_of_mem _ hz), List.cons_append]

end Preorder
end Lib
end Dwarfpp
