/-
# What lies below a node

A node is below another if parents lead from it up to that one.  In pre-order the nodes
below come right behind it, as far as they are deeper (`below_iff`).  Where all of the
nodes below that are less deep than one have a property, that one is reached through
nodes with the property (`reachedThrough_of_shallower`).
-/

import Dwarfpp.Lib.Preorder

namespace Dwarfpp
namespace Lib
namespace Preorder

variable {α : Type} {depth key : α → ℕ}

/-- The node is below `x`, and all nodes in between have `p`. -/
inductive ReachedThrough (depth : α → ℕ) (t : List α) (p : α → Prop) (x : α) : α → Prop
  | child {z : α} (hz : IsParent depth t x z) : ReachedThrough depth t p x z
  | step {y z : α} (hy : ReachedThrough depth t p x y) (hp : p y) (hz : IsParent depth t y z) :
      ReachedThrough depth t p x z

/-- The node is below `x`. -/
def Below (depth : α → ℕ) (t : List α) (x z : α) : Prop :=
  ReachedThrough depth t (fun _ => True) x z

section Descent

variable {t l : List α} {p q : α → Prop} {x y z : α}

theorem ReachedThrough.mono (h : ReachedThrough depth t p x z) (hpq : ∀ y, p y → q y) :
    ReachedThrough depth t q x z := by
  induction h with
  | child hz => exact .child hz
  | step _ hp hz ih => exact .step ih (hpq _ hp) hz

theorem ReachedThrough.isBelow (h : ReachedThrough depth t p x z) : Below depth t x z :=
  h.mono fun _ _ => trivial

/-- What is below is deeper. -/
theorem ReachedThrough.depth_lt (h : ReachedThrough depth t p x z) : depth x < depth z := by
  induction h with
  | child hz =>
    obtain ⟨-, -, -, -, hd, -⟩ := hz
    omega
  | step _ _ hz ih =>
    obtain ⟨-, -, -, -, hd, -⟩ := hz
    omega

theorem ReachedThrough.mem_left (h : ReachedThrough depth t p x z) : x ∈ t := by
  induction h with
  | child hz =>
    obtain ⟨l, mid, r, rfl, -, -⟩ := hz
    simp
  | step _ _ _ ih => exact ih

theorem mem_subtree_iff : z ∈ subtree depth (x :: l) ↔ z = x ∨
    ∃ mid r, l = mid ++ z :: r ∧ depth x < depth z ∧ ∀ m ∈ mid, depth x < depth m := by
  rw [subtree, List.mem_cons]
  refine or_congr_right ?_
  constructor
  · intro hz
    have hdeeper := List.mem_takeWhile_imp hz
    obtain ⟨mid, u, hsplit⟩ := List.append_of_mem hz
    refine ⟨mid, u ++ l.dropWhile (fun y => depth x < depth y), ?_, by simpa using hdeeper, ?_⟩
    · rw [← List.cons_append, ← List.append_assoc, ← hsplit, List.takeWhile_append_dropWhile]
    · intro m hm
      have hmem : m ∈ l.takeWhile fun y => depth x < depth y := by
        rw [hsplit]
        exact List.mem_append_left _ hm
      simpa using List.mem_takeWhile_imp hmem
  · rintro ⟨mid, r, rfl, hz, hmid⟩
    rw [List.takeWhile_append_of_pos fun m hm => by simpa using hmid m hm,
      List.takeWhile_cons_of_pos (by simpa using hz)]
    simp

variable (hs : Sorted key t)
include hs

theorem ReachedThrough.key_lt (h : ReachedThrough depth t p x z) : key x < key z := by
  induction h with
  | child hz => exact key_lt_of_isParent hs hz
  | step _ _ hz ih => exact ih.trans (key_lt_of_isParent hs hz)

/-- **What a node is below is its parent, or what its parent is below.** -/
theorem below_iff_parent (hp : IsParent depth t y z) :
    Below depth t x z ↔ x = y ∨ Below depth t x y := by
  constructor
  · rintro (hz | ⟨hy', -, hz⟩)
    · exact .inl (hz.unique hs hp)
    · exact .inr (hz.unique hs hp ▸ hy')
  · rintro (rfl | hy)
    · exact .child hp
    · exact .step hy trivial hp

variable (hx : x :: l <:+ t)
include hx

/-- **A child of a node of a subtree is in the subtree**, below its root. -/
theorem IsParent.mem_subtree (hp : IsParent depth t y z) (hy : y ∈ subtree depth (x :: l)) :
    z ∈ subtree depth (x :: l) := by
  obtain ⟨l₀, mid, r, rfl, hz, hmid⟩ := hp
  have hsuffix : y :: (mid ++ z :: r) <:+ l₀ ++ y :: (mid ++ z :: r) := List.suffix_append _ _
  rcases mem_subtree_iff.1 hy with rfl | ⟨mid₀, r₀, rfl, hdeeper, hmid₀⟩
  · obtain ⟨-, rfl⟩ := List.cons.inj (hs.suffix_unique hx hsuffix rfl)
    exact mem_subtree_iff.2 (.inr ⟨mid, r, rfl, by omega, hmid⟩)
  · have hy₀ : y :: r₀ <:+ l₀ ++ y :: (mid ++ z :: r) :=
      ((List.suffix_append mid₀ _).trans (List.suffix_cons x _)).trans hx
    obtain ⟨-, rfl⟩ := List.cons.inj (hs.suffix_unique hy₀ hsuffix rfl)
    refine mem_subtree_iff.2 (.inr ⟨mid₀ ++ y :: mid, r, by simp, by omega, fun m hm => ?_⟩)
    rcases List.mem_append.1 hm with hm | hm
    · exact hmid₀ m hm
    · rcases List.mem_cons.1 hm with rfl | hm
      · exact hdeeper
      · have hlt := hmid m hm
        omega

/-- **The parent of a node of a subtree is in the subtree**, unless the node is the root. -/
theorem IsParent.parent_mem_subtree (hp : IsParent depth t y z) (hz : z ∈ subtree depth (x :: l))
    (hne : z ≠ x) : y ∈ subtree depth (x :: l) := by
  obtain ⟨mid, r, rfl, hdeeper, hmid⟩ := (mem_subtree_iff.1 hz).resolve_left hne
  obtain ⟨t₀, rfl⟩ := hx
  obtain ⟨l₀, mid', r', hsplit, hdz, hmid'⟩ := hp
  have hsuffix : z :: r <:+ t₀ ++ x :: (mid ++ z :: r) :=
    (List.suffix_append mid _).trans ((List.suffix_cons x _).trans (List.suffix_append t₀ _))
  have hsuffix' : z :: r' <:+ t₀ ++ x :: (mid ++ z :: r) := by
    rw [hsplit]
    exact (List.suffix_append mid' _).trans ((List.suffix_cons y _).trans (List.suffix_append l₀ _))
  obtain ⟨-, rfl⟩ := List.cons.inj (hs.suffix_unique hsuffix hsuffix' rfl)
  -- What comes before `z` is split at `x` and at its parent.
  have hpre : t₀ ++ x :: mid = l₀ ++ y :: mid' := by
    have hboth : (t₀ ++ x :: mid) ++ z :: r = (l₀ ++ y :: mid') ++ z :: r := by
      rw [List.append_assoc, List.cons_append, hsplit, List.append_assoc, List.cons_append]
    exact List.append_cancel_right hboth
  rcases List.append_eq_append_iff.1 hpre with ⟨c, -, hc⟩ | ⟨c, -, hc⟩
  · cases c with
    | nil =>
      obtain ⟨rfl, -⟩ := List.cons.inj hc
      exact mem_subtree_self x _
    | cons w c =>
      obtain ⟨rfl, rfl⟩ := List.cons.inj hc
      refine mem_subtree_iff.2 (.inr ⟨c, mid' ++ z :: r, by simp, ?_, fun m hm => ?_⟩)
      · exact hmid y (by simp)
      · exact hmid m (by simp [hm])
  · cases c with
    | nil =>
      obtain ⟨rfl, -⟩ := List.cons.inj hc
      exact mem_subtree_self _ _
    | cons w c =>
      obtain ⟨rfl, rfl⟩ := List.cons.inj hc
      have hlt := hmid' x (by simp)
      omega

/-- What is below is in the subtree. -/
theorem ReachedThrough.mem_subtree (h : ReachedThrough depth t p x z) :
    z ∈ subtree depth (x :: l) ∧ z ≠ x := by
  have hlt := h.key_lt hs
  refine ⟨?_, fun heq => Nat.ne_of_gt hlt (congrArg key heq)⟩
  clear hlt
  induction h with
  | child hz => exact hz.mem_subtree hs hx (mem_subtree_self x l)
  | step _ _ hz ih => exact hz.mem_subtree hs hx ih

variable (hparents : ∀ z ∈ subtree depth (x :: l), z ≠ x → ∃ y, IsParent depth t y z)
include hparents

/-- **Where what is less deep has the property, a node is reached through the property.** -/
theorem reachedThrough_of_shallower (hz : z ∈ subtree depth (x :: l)) (hne : z ≠ x)
    (hp : ∀ y ∈ subtree depth (x :: l), y ≠ x → depth y < depth z → p y) :
    ReachedThrough depth t p x z := by
  induction hd : depth z using Nat.strong_induction_on generalizing z with
  | h n ih =>
    obtain ⟨y, hy⟩ := hparents z hz hne
    have hdy : depth z = depth y + 1 := by
      obtain ⟨-, -, -, -, hdy, -⟩ := hy
      exact hdy
    have hsub := hy.parent_mem_subtree hs hx hz hne
    by_cases heq : y = x
    · rw [heq] at hy
      exact .child hy
    · refine .step (ih (depth y) (by omega) hsub heq (fun w hw hwx hlt => ?_) rfl)
        (hp y hsub heq (by omega)) hy
      exact hp w hw hwx (by omega)

/-- **What is below a node is its subtree**, less the node. -/
theorem below_iff : Below depth t x z ↔ z ∈ subtree depth (x :: l) ∧ z ≠ x :=
  ⟨fun h => h.mem_subtree hs hx,
    fun h => reachedThrough_of_shallower hs hx hparents h.1 h.2 fun _ _ _ _ => trivial⟩

end Descent

end Preorder
end Lib
end Dwarfpp
