/-
# Trees written down in pre-order

A tree is given by the list of its nodes in pre-order together with the depth of
each.  A place in the tree is the list of the nodes from there on: its first
child, next sibling and subtree are read off that list.  Where the nodes carry
keys that increase along the list, the keys of a subtree lie between those of
its root and of whatever comes behind it.
-/

import Mathlib

namespace Dwarfpp
namespace Lib
namespace Preorder

variable {α : Type} (depth : α → ℕ)

/-- From the first child of the first node on, if it has one. -/
def firstChild : List α → List α
  | x :: y :: l => if depth y = depth x + 1 then y :: l else []
  | _ => []

/-- The nodes behind the subtree of the first node. -/
def after : List α → List α
  | [] => []
  | x :: l => l.dropWhile (fun y => depth x < depth y)

/-- From the next sibling of the first node on, if it has one. -/
def nextSibling (s : List α) : List α :=
  match s, after depth s with
  | x :: _, y :: l => if depth y = depth x then y :: l else []
  | _, _ => []

/-- The first node and those below it. -/
def subtree : List α → List α
  | [] => []
  | x :: l => x :: l.takeWhile (fun y => depth x < depth y)

/-- The first node, its later siblings, and those below them. -/
def family : List α → List α
  | [] => []
  | x :: l => x :: l.takeWhile (fun y => depth x ≤ depth y)

/-- The first node and its later siblings. -/
def siblings : List α → List α
  | [] => []
  | x :: l => (family depth (x :: l)).filter fun y => depth y = depth x

/-- A node is at most one level below the node before it. -/
def Steps (s : List α) : Prop := s.IsChain (fun x y => depth y ≤ depth x + 1)

/-- `y` is a child of `x`. -/
def IsParent (t : List α) (x y : α) : Prop :=
  ∃ l mid r, t = l ++ x :: (mid ++ y :: r) ∧ depth y = depth x + 1 ∧ ∀ m ∈ mid, depth x < depth m

/-- The tree with a last child `y` given to the node that `p` tells. -/
def addLast (p : α → Bool) (y : α) : List α → List α
  | [] => []
  | x :: l => if p x then subtree depth (x :: l) ++ y :: after depth (x :: l) else x :: addLast p y l

section Shape

variable {depth}

theorem subtree_append_after (s : List α) : subtree depth s ++ after depth s = s := by
  cases s with
  | nil => rfl
  | cons x l =>
    rw [subtree, after, List.cons_append, List.takeWhile_append_dropWhile]

/-- Whatever comes behind a subtree is not below its root. -/
theorem depth_after_le {x y : α} {l l' : List α} (h : after depth (x :: l) = y :: l') :
    depth y ≤ depth x := by
  have hhead := List.head?_dropWhile_not (fun y => decide (depth x < depth y)) l
  rw [after] at h
  rw [h] at hhead
  simpa using hhead

theorem nextSibling_eq_cons {x y : α} {l l' : List α} :
    nextSibling depth (x :: l) = y :: l' ↔ after depth (x :: l) = y :: l' ∧ depth y = depth x := by
  unfold nextSibling
  cases after depth (x :: l) with
  | nil => simp
  | cons z r =>
    by_cases hz : depth z = depth x
    · simp only [hz, if_true, List.cons.injEq]
      constructor
      · rintro ⟨rfl, rfl⟩
        exact ⟨⟨rfl, rfl⟩, hz⟩
      · exact fun h => h.1
    · simp only [hz, if_false, List.cons.injEq]
      constructor
      · intro h
        simp at h
      · rintro ⟨⟨rfl, -⟩, h⟩
        exact absurd h hz

theorem firstChild_eq_cons {x y : α} {l l' : List α} :
    firstChild depth (x :: l) = y :: l' ↔ l = y :: l' ∧ depth y = depth x + 1 := by
  cases l with
  | nil => simp [firstChild]
  | cons z r =>
    by_cases hz : depth z = depth x + 1
    · simp only [firstChild, hz, if_true, List.cons.injEq]
      constructor
      · rintro ⟨rfl, rfl⟩
        exact ⟨⟨rfl, rfl⟩, hz⟩
      · exact fun h => h.1
    · simp only [firstChild, hz, if_false, List.cons.injEq]
      constructor
      · intro h
        simp at h
      · rintro ⟨⟨rfl, -⟩, h⟩
        exact absurd h hz

theorem after_suffix (x : α) (l : List α) : after depth (x :: l) <:+ l := List.dropWhile_suffix _

theorem nextSibling_suffix (x : α) (l : List α) : nextSibling depth (x :: l) <:+ l := by
  cases h : nextSibling depth (x :: l) with
  | nil => exact List.nil_suffix
  | cons y l' =>
    rw [← (nextSibling_eq_cons.1 h).1]
    exact after_suffix x l

theorem firstChild_suffix (x : α) (l : List α) : firstChild depth (x :: l) <:+ l := by
  cases h : firstChild depth (x :: l) with
  | nil => exact List.nil_suffix
  | cons y l' =>
    obtain ⟨rfl, -⟩ := firstChild_eq_cons.1 h
    exact List.suffix_rfl

theorem prefix_family (s : List α) : family depth s <+: s := by
  cases s with
  | nil => exact List.prefix_rfl
  | cons x l => exact (List.prefix_cons_inj x).2 (List.takeWhile_prefix _)

/-- **A subtree is its root and the family of the first child.** -/
theorem subtree_eq {x : α} {l : List α} (h : Steps depth (x :: l)) :
    subtree depth (x :: l) = x :: family depth (firstChild depth (x :: l)) := by
  rw [subtree]
  congr 1
  cases l with
  | nil => rfl
  | cons y l =>
    have hy : depth y ≤ depth x + 1 := (List.isChain_cons_cons.1 h).1
    by_cases hc : depth y = depth x + 1
    · rw [firstChild, if_pos hc, family, List.takeWhile_cons_of_pos (by simp [hc]), hc]
      rfl
    · rw [firstChild, if_neg hc, family, List.takeWhile_cons_of_neg]
      simp only [decide_eq_true_eq]
      omega

/-- **A family is a subtree and the family of the next sibling.** -/
theorem family_eq (x : α) (l : List α) :
    family depth (x :: l) = subtree depth (x :: l) ++ family depth (nextSibling depth (x :: l)) := by
  have hsplit : l.takeWhile (fun y => decide (depth x ≤ depth y)) =
      l.takeWhile (fun y => decide (depth x < depth y)) ++
        (l.dropWhile (fun y => decide (depth x < depth y))).takeWhile
          (fun y => decide (depth x ≤ depth y)) := by
    induction l with
    | nil => rfl
    | cons y l ih =>
      by_cases hy : depth x < depth y
      · rw [List.takeWhile_cons_of_pos (by simp; omega), List.takeWhile_cons_of_pos (by simpa using hy),
          List.dropWhile_cons_of_pos (by simpa using hy), ih, List.cons_append]
      · rw [List.takeWhile_cons_of_neg (p := fun y => decide (depth x < depth y)) (by simpa using hy),
          List.dropWhile_cons_of_neg (by simpa using hy), List.nil_append]
  rw [family, subtree, hsplit, List.cons_append]
  congr 2
  cases h : nextSibling depth (x :: l) with
  | nil =>
    cases hl : after depth (x :: l) with
    | nil =>
      rw [after] at hl
      rw [hl]
      rfl
    | cons y l' =>
      have hle := depth_after_le hl
      have hne : depth y ≠ depth x := by
        intro heq
        rw [nextSibling_eq_cons.2 ⟨hl, heq⟩] at h
        exact List.cons_ne_nil _ _ h
      rw [after] at hl
      rw [hl, family, List.takeWhile_cons_of_neg]
      simp only [decide_eq_true_eq]
      omega
  | cons y l' =>
    obtain ⟨hl, heq⟩ := nextSibling_eq_cons.1 h
    rw [after] at hl
    rw [hl, family, List.takeWhile_cons_of_pos (by simp [heq]), heq]

/-- **The siblings are the first node and the siblings from the next on.** -/
theorem siblings_cons (x : α) (l : List α) :
    siblings depth (x :: l) = x :: siblings depth (nextSibling depth (x :: l)) := by
  have hbelow : (l.takeWhile fun y => decide (depth x < depth y)).filter
      (fun y => decide (depth y = depth x)) = [] := by
    refine List.filter_eq_nil_iff.2 fun y hy => ?_
    have hlt := List.mem_takeWhile_imp hy
    simp only [decide_eq_true_eq] at hlt ⊢
    omega
  rw [siblings, family_eq, List.filter_append, subtree, List.filter_cons_of_pos (by simp), hbelow]
  cases hy : nextSibling depth (x :: l) with
  | nil => rfl
  | cons y l' =>
    rw [siblings, (nextSibling_eq_cons.1 hy).2]
    rfl

/-- The children of the nodes of a family are those of the first and those of the rest. -/
theorem filter_family (x : α) (l : List α) (h : Steps depth (x :: l)) :
    (family depth (x :: l)).filter (fun y => depth y = depth x + 1) =
      siblings depth (firstChild depth (x :: l)) ++
        (family depth (nextSibling depth (x :: l))).filter fun y => depth y = depth x + 1 := by
  rw [family_eq, List.filter_append, subtree_eq h, List.filter_cons_of_neg (by simp)]
  congr 1
  cases hc : firstChild depth (x :: l) with
  | nil => rfl
  | cons y l' =>
    rw [siblings, (firstChild_eq_cons.1 hc).2]

theorem Steps.suffix {s t : List α} (h : Steps depth t) (hs : s <:+ t) : Steps depth s :=
  List.IsChain.suffix h hs

theorem mem_subtree_self (x : α) (l : List α) : x ∈ subtree depth (x :: l) := List.mem_cons_self

theorem subtree_subset_family {x y : α} {l : List α} (h : y ∈ subtree depth (x :: l)) :
    y ∈ family depth (x :: l) := by
  rw [family_eq]
  exact List.mem_append_left _ h

theorem length_family {x : α} {l : List α} (h : Steps depth (x :: l)) :
    (family depth (x :: l)).length = (family depth (firstChild depth (x :: l))).length + 1 +
      (family depth (nextSibling depth (x :: l))).length := by
  rw [family_eq, subtree_eq h, List.length_append, List.length_cons]

theorem isParent_firstChild {t l l' : List α} {x y : α} (ht : x :: l <:+ t)
    (h : firstChild depth (x :: l) = y :: l') : IsParent depth t x y := by
  obtain ⟨rfl, hy⟩ := firstChild_eq_cons.1 h
  obtain ⟨r, rfl⟩ := ht
  exact ⟨r, [], l', rfl, hy, by simp⟩

/-- A node and its next sibling have one parent. -/
theorem isParent_nextSibling {l₀ mid l l' : List α} {p x y : α} (hx : depth x = depth p + 1)
    (hmid : ∀ m ∈ mid, depth p < depth m) (h : nextSibling depth (x :: l) = y :: l') :
    IsParent depth (l₀ ++ p :: (mid ++ x :: l)) p y := by
  obtain ⟨hafter, hy⟩ := nextSibling_eq_cons.1 h
  have hl : l.takeWhile (fun y => depth x < depth y) ++ y :: l' = l := by
    rw [← hafter]
    exact List.takeWhile_append_dropWhile
  refine ⟨l₀, mid ++ x :: l.takeWhile (fun y => depth x < depth y), l', ?_, hy.trans hx, ?_⟩
  · rw [List.append_assoc, List.cons_append, hl]
  · intro m hm
    rcases List.mem_append.1 hm with hm | hm
    · exact hmid m hm
    rcases List.mem_cons.1 hm with rfl | hm
    · omega
    · have hlt := List.mem_takeWhile_imp hm
      simp only [decide_eq_true_eq] at hlt
      omega

/-- Behind a node without children comes what is behind its subtree. -/
theorem after_of_leaf {x : α} {l : List α} (h : Steps depth (x :: l))
    (hc : firstChild depth (x :: l) = []) : after depth (x :: l) = l := by
  have hsub : subtree depth (x :: l) ++ after depth (x :: l) = x :: l := subtree_append_after _
  rw [subtree_eq h, hc, family, List.singleton_append] at hsub
  exact (List.cons.inj hsub).2

/-- **Behind the last child's subtree comes what is behind the parent's.** -/
theorem after_of_last {mid l : List α} {p x : α} (hx : depth x = depth p + 1)
    (hmid : ∀ m ∈ mid, depth p < depth m) (hlast : nextSibling depth (x :: l) = []) :
    after depth (p :: (mid ++ x :: l)) = after depth (x :: l) := by
  have hl : l.takeWhile (fun y => depth x < depth y) ++ after depth (x :: l) = l := by
    rw [after]
    exact List.takeWhile_append_dropWhile
  have hbelow : ∀ m ∈ l.takeWhile (fun y => depth x < depth y), depth p < depth m := by
    intro m hm
    have hlt := List.mem_takeWhile_imp hm
    simp only [decide_eq_true_eq] at hlt
    omega
  have hrest : (after depth (x :: l)).dropWhile (fun y => depth p < depth y) =
      after depth (x :: l) := by
    cases h : after depth (x :: l) with
    | nil => rfl
    | cons y r =>
      have hle := depth_after_le h
      have hne : depth y ≠ depth x := by
        intro heq
        rw [nextSibling_eq_cons.2 ⟨h, heq⟩] at hlast
        exact List.cons_ne_nil _ _ hlast
      rw [List.dropWhile_cons_of_neg]
      simp only [decide_eq_true_eq]
      omega
  calc after depth (p :: (mid ++ x :: l))
      = (mid ++ x :: l).dropWhile (fun y => depth p < depth y) := rfl
    _ = (x :: l).dropWhile (fun y => depth p < depth y) :=
        List.dropWhile_append_of_pos fun m hm => by simpa using hmid m hm
    _ = l.dropWhile (fun y => depth p < depth y) :=
        List.dropWhile_cons_of_pos (by simp [hx])
    _ = (l.takeWhile (fun y => depth x < depth y) ++ after depth (x :: l)).dropWhile
          (fun y => depth p < depth y) := by rw [hl]
    _ = (after depth (x :: l)).dropWhile (fun y => depth p < depth y) :=
        List.dropWhile_append_of_pos fun m hm => by simpa using hbelow m hm
    _ = after depth (x :: l) := hrest

/-- **Every node but the root has a parent.** -/
theorem exists_parent {x y : α} {l : List α} (h : Steps depth (x :: l)) (hx : depth x = 0)
    (hl : ∀ z ∈ l, 0 < depth z) (hy : y ∈ l) : ∃ z, IsParent depth (x :: l) z y := by
  obtain ⟨pre, post, rfl⟩ := List.append_of_mem hy
  -- The parent is the last node before `y` that is less deep.
  obtain ⟨z, hz⟩ := Option.isSome_iff_exists.1
    (List.find?_isSome.2 ⟨x, by simp, by simpa [hx] using hl y hy⟩ :
      ((x :: pre).reverse.find? fun z => depth z < depth y).isSome = true)
  obtain ⟨hlt, as, bs, hsplit, hmid⟩ := List.find?_eq_some_iff_append.1 hz
  have hpre : x :: pre = bs.reverse ++ z :: as.reverse := by
    have := congrArg List.reverse hsplit
    simpa using this
  have hmid' : ∀ m ∈ as.reverse, depth y ≤ depth m := by
    intro m hm
    have := hmid m (List.mem_reverse.1 hm)
    simpa using this
  have hlt' : depth z < depth y := by simpa using hlt
  have hall : x :: (pre ++ y :: post) = bs.reverse ++ z :: (as.reverse ++ y :: post) := by
    rw [← List.cons_append, hpre, List.append_assoc, List.cons_append]
  have hstep : depth y ≤ depth z + 1 := by
    rw [hall] at h
    have hsuf : Steps depth (z :: (as.reverse ++ y :: post)) := h.suffix (List.suffix_append _ _)
    cases has : as.reverse with
    | nil =>
      rw [has] at hsuf
      exact (List.isChain_cons_cons.1 hsuf).1
    | cons w ws =>
      rw [has] at hsuf
      have hw := (List.isChain_cons_cons.1 hsuf).1
      exact (hmid' w (by rw [has]; simp)).trans hw
  refine ⟨z, bs.reverse, as.reverse, post, hall, by omega, fun m hm => ?_⟩
  have := hmid' m hm
  omega

end Shape

section Keyed

variable {depth} {key : α → ℕ}

/-- The keys increase along the list. -/
def Sorted (key : α → ℕ) (t : List α) : Prop := t.Pairwise (fun x y => key x < key y)

theorem Sorted.suffix {s t : List α} (h : Sorted key t) (hs : s <:+ t) : Sorted key s :=
  List.Pairwise.sublist hs.sublist h

theorem Sorted.key_le {x y : α} {l : List α} (h : Sorted key (x :: l)) (hy : y ∈ x :: l) :
    key x ≤ key y := by
  rcases List.mem_cons.1 hy with rfl | hy
  · exact le_rfl
  · exact le_of_lt (List.rel_of_pairwise_cons h hy)

/-- The keys up to a node are not above its own. -/
theorem Sorted.key_le_last {q rest : List α} {x z : α} (h : Sorted key (q ++ z :: rest))
    (hx : x ∈ q ++ [z]) : key x ≤ key z := by
  rcases List.mem_append.1 hx with hx | hx
  · exact ((List.pairwise_append.1 h).2.2 x hx z List.mem_cons_self).le
  · rw [List.mem_singleton.1 hx]

/-- A key tells a place. -/
theorem Sorted.suffix_unique {t l l' : List α} {x y : α} (h : Sorted key t) (hx : x :: l <:+ t)
    (hy : y :: l' <:+ t) (hk : key x = key y) : x :: l = y :: l' := by
  rcases List.suffix_or_suffix_of_suffix hx hy with hs | hs
  · rcases List.suffix_cons_iff.1 hs with heq | hs
    · exact heq
    · have hlt := List.rel_of_pairwise_cons (h.suffix hy) (hs.subset List.mem_cons_self)
      omega
  · rcases List.suffix_cons_iff.1 hs with heq | hs
    · exact heq.symm
    · have hlt := List.rel_of_pairwise_cons (h.suffix hx) (hs.subset List.mem_cons_self)
      omega

theorem Sorted.eq_of_key_eq {t : List α} {x y : α} (h : Sorted key t) (hx : x ∈ t) (hy : y ∈ t)
    (hk : key x = key y) : x = y := by
  obtain ⟨l, r, rfl⟩ := List.append_of_mem hx
  obtain ⟨l', r', he⟩ := List.append_of_mem hy
  have hs : x :: r = y :: r' :=
    h.suffix_unique (List.suffix_append _ _) ⟨l', he.symm⟩ hk
  exact (List.cons.inj hs).1

/-- **The keys of a subtree come before that of the next sibling.** -/
theorem Sorted.key_lt_nextSibling {x y z : α} {l l' : List α} (h : Sorted key (x :: l))
    (hy : y ∈ subtree depth (x :: l)) (hz : nextSibling depth (x :: l) = z :: l') : key y < key z := by
  have hsplit : subtree depth (x :: l) ++ after depth (x :: l) = x :: l := subtree_append_after _
  rw [(nextSibling_eq_cons.1 hz).1] at hsplit
  rw [← hsplit] at h
  exact (List.pairwise_append.1 h).2.2 y hy z List.mem_cons_self

theorem key_lt_of_isParent {t : List α} {x y : α} (h : Sorted key t) (hp : IsParent depth t x y) :
    key x < key y := by
  obtain ⟨l, mid, r, rfl, -, -⟩ := hp
  have hs : Sorted key (x :: (mid ++ y :: r)) := h.suffix (List.suffix_append _ _)
  exact List.rel_of_pairwise_cons hs (by simp)

/-- A node has one parent. -/
theorem IsParent.unique {t : List α} {x x' y : α} (h : Sorted key t) (hx : IsParent depth t x y)
    (hx' : IsParent depth t x' y) : x = x' := by
  obtain ⟨l, mid, r, ht, hy, hmid⟩ := hx
  obtain ⟨l', mid', r', ht', hy', hmid'⟩ := hx'
  have hr : y :: r = y :: r' := by
    refine h.suffix_unique ⟨l ++ x :: mid, ?_⟩ ⟨l' ++ x' :: mid', ?_⟩ rfl
    · rw [ht, List.append_assoc, List.cons_append]
    · rw [ht', List.append_assoc, List.cons_append]
  have hpre : l ++ x :: mid = l' ++ x' :: mid' := by
    have hboth : (l ++ x :: mid) ++ y :: r = (l' ++ x' :: mid') ++ y :: r := by
      rw [List.append_assoc, List.cons_append, ← ht, List.append_assoc, List.cons_append, ht', hr]
    exact List.append_cancel_right hboth
  rcases List.append_eq_append_iff.1 hpre with ⟨c, hl, hc⟩ | ⟨c, hl, hc⟩
  · cases c with
    | nil => exact (List.cons.inj hc).1
    | cons z c =>
      obtain ⟨-, hmid₂⟩ := List.cons.inj hc
      have hlt := hmid x' (by rw [hmid₂]; simp)
      omega
  · cases c with
    | nil => exact (List.cons.inj hc).1.symm
    | cons z c =>
      obtain ⟨-, hmid₂⟩ := List.cons.inj hc
      have hlt := hmid' x (by rw [hmid₂]; simp)
      omega

end Keyed

end Preorder
end Lib
end Dwarfpp
