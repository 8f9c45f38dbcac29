/-
# The children of a node, and the nodes above it

In pre-order the children of a node are the siblings from its first child on (`mem_children`), and
the nodes above it are met on the way back: each is the next that is less deep than the one
before (`ancestors_eq`, `mem_ancestors`).
-/

import Mathlib
import Dwarfpp.Lib.Descent

namespace Dwarfpp
namespace Lib
namespace Preorder

variable {α : Type} (depth : α → ℕ)

/-- The children of a node, in order. -/
def children [DecidableEq α] (t : List α) (x : α) : List α :=
  siblings depth (firstChild depth (t.dropWhile fun y => y ≠ x))

/-- Those that are less deep than `d` and than all before them. -/
def lessDeep : ℕ → List α → List α
  | _, [] => []
  | d, z :: l => if depth z < d then z :: lessDeep (depth z) l else lessDeep d l

/-- The nodes above a node, from its parent up. -/
def ancestors [DecidableEq α] (t : List α) (x : α) : List α :=
  lessDeep depth (depth x) (t.takeWhile fun y => y ≠ x).reverse

variable {depth} {key : α → ℕ} {t l : List α} {x y z : α}

section Children

theorem Sorted.split_at [DecidableEq α] (hs : Sorted key t) {pre : List α} (ht : t = pre ++ x :: l) :
    (t.takeWhile fun y => y ≠ x) = pre ∧ (t.dropWhile fun y => y ≠ x) = x :: l := by
  subst ht
  have hpre : ∀ y ∈ pre, decide (y ≠ x) = true := by
    intro y hy
    have hlt := (List.pairwise_append.1 hs).2.2 y hy x List.mem_cons_self
    refine decide_eq_true fun heq => ?_
    rw [heq] at hlt
    omega
  constructor
  · rw [List.takeWhile_append_of_pos hpre, List.takeWhile_cons_of_neg (by simp), List.append_nil]
  · rw [List.dropWhile_append_of_pos hpre, List.dropWhile_cons_of_neg (by simp)]

theorem children_eq [DecidableEq α] (hs : Sorted key t) (hx : x :: l <:+ t) :
    children depth t x = siblings depth (firstChild depth (x :: l)) := by
  obtain ⟨pre, ht⟩ := hx
  rw [children, (hs.split_at ht.symm).2]

/-- The first of a list of siblings is as deep as all of them. -/
theorem mem_siblings_cons : y ∈ siblings depth (x :: l) ↔
    depth y = depth x ∧ y ∈ x :: l.takeWhile fun y => depth x ≤ depth y := by
  rw [siblings, family, List.mem_filter, decide_eq_true_iff, and_comm]

/-- **The children of a node** are what it is the parent of. -/
theorem mem_children [DecidableEq α] (hs : Sorted key t) (hsteps : Steps depth t) (hx : x ∈ t) :
    y ∈ children depth t x ↔ IsParent depth t x y := by
  obtain ⟨pre, l, rfl⟩ := List.append_of_mem hx
  have hsuffix : x :: l <:+ pre ++ x :: l := List.suffix_append _ _
  rw [children_eq hs hsuffix]
  constructor
  · intro hy
    cases hc : firstChild depth (x :: l) with
    | nil =>
      rw [hc] at hy
      exact absurd hy (by simp [siblings])
    | cons c l' =>
      obtain ⟨rfl, hd⟩ := firstChild_eq_cons.1 hc
      rw [hc] at hy
      obtain ⟨hdy, hmem⟩ := mem_siblings_cons.1 hy
      -- What comes before the child is not less deep than it.
      obtain ⟨mid, rest, hsplit⟩ := List.append_of_mem hmem
      have hle : ∀ m ∈ mid, depth c ≤ depth m := by
        intro m hm
        have hm' : m ∈ c :: l'.takeWhile fun y => depth c ≤ depth y := by
          rw [hsplit]
          exact List.mem_append_left _ hm
        rcases List.mem_cons.1 hm' with rfl | hm'
        · exact le_rfl
        · simpa using List.mem_takeWhile_imp hm'
      refine ⟨pre, mid, rest ++ l'.dropWhile (fun y => depth c ≤ depth y), ?_, by omega, ?_⟩
      · have hl : c :: l' = mid ++ y :: (rest ++ l'.dropWhile fun y => depth c ≤ depth y) := by
          rw [← List.cons_append, ← List.append_assoc, ← hsplit, List.cons_append,
            List.takeWhile_append_dropWhile]
        rw [hl]
      · intro m hm
        have := hle m hm
        omega
  · rintro ⟨pre', mid, rest, ht, hd, hmid⟩
    have hsuffix' : x :: (mid ++ y :: rest) <:+ pre ++ x :: l := ht ▸ List.suffix_append _ _
    obtain ⟨-, rfl⟩ := List.cons.inj (hs.suffix_unique hsuffix hsuffix' rfl)
    have hbelow := hsteps.suffix hsuffix
    cases mid with
    | nil =>
      rw [List.nil_append, firstChild_eq_cons.2 ⟨rfl, hd⟩]
      exact mem_siblings_cons.2 ⟨rfl, List.mem_cons_self⟩
    | cons c mid =>
      have hstep : depth c ≤ depth x + 1 := (List.isChain_cons_cons.1 hbelow).1
      have hc := hmid c List.mem_cons_self
      rw [List.cons_append, firstChild_eq_cons.2 ⟨rfl, (by omega : depth c = depth x + 1)⟩]
      refine mem_siblings_cons.2 ⟨by omega, List.mem_cons_of_mem _ ?_⟩
      rw [List.takeWhile_append_of_pos, List.takeWhile_cons_of_pos (by simp; omega)]
      · simp
      · intro m hm
        have := hmid m (List.mem_cons_of_mem _ hm)
        simp
        omega

theorem nodup_children [DecidableEq α] (hs : Sorted key t) : (children depth t x).Nodup := by
  have hnodup : t.Nodup := hs.imp fun hlt heq => by
    rw [heq] at hlt
    omega
  cases hd : t.dropWhile fun y => y ≠ x with
  | nil =>
    rw [children, hd]
    exact List.nodup_nil
  | cons y l =>
    have hsuffix : y :: l <:+ t := hd ▸ List.dropWhile_suffix _
    rw [children, hd]
    cases hc : firstChild depth (y :: l) with
    | nil => simp [siblings]
    | cons c l' =>
      have hsub : (siblings depth (c :: l')).Sublist (c :: l') :=
        List.filter_sublist.trans (prefix_family _).sublist
      have hsuffix' := (hc ▸ firstChild_suffix y l : c :: l' <:+ l)
      exact hnodup.sublist (hsub.trans
        ((hsuffix'.trans (List.suffix_cons y l)).trans hsuffix).sublist)

theorem children_of_not_mem [DecidableEq α] (hx : x ∉ t) : children depth t x = [] := by
  have hnil : (t.dropWhile fun y => y ≠ x) = [] := by
    rw [List.dropWhile_eq_nil_iff]
    rintro y hy
    refine decide_eq_true fun heq => hx (heq ▸ hy)
  rw [children, hnil]
  rfl

end Children

section Ancestors

theorem lessDeep_append {d : ℕ} {us : List α} (h : ∀ u ∈ us, d ≤ depth u) (zs : List α) :
    lessDeep depth d (us ++ zs) = lessDeep depth d zs := by
  induction us with
  | nil => rfl
  | cons u us ih =>
    have := h u List.mem_cons_self
    rw [List.cons_append, lessDeep, if_neg (by omega),
      ih fun v hv => h v (List.mem_cons_of_mem u hv)]

/-- The first node has none above it. -/
theorem ancestors_head [DecidableEq α] : ancestors depth (x :: l) x = [] := by
  rw [ancestors, List.takeWhile_cons_of_neg (by simp)]
  rfl

/-- **Above a node are its parent and what is above that.** -/
theorem ancestors_eq [DecidableEq α] (hs : Sorted key t) (hz : IsParent depth t z x) :
    ancestors depth t x = z :: ancestors depth t z := by
  obtain ⟨pre, mid, rest, ht, hd, hmid⟩ := hz
  have ht' : t = (pre ++ z :: mid) ++ x :: rest := by simp [ht]
  rw [ancestors, ancestors, (hs.split_at ht).1, (hs.split_at ht').1, List.reverse_append,
    List.reverse_cons, List.append_assoc, lessDeep_append, List.singleton_append, lessDeep,
    if_pos (by omega)]
  intro u hu
  have := hmid u (List.mem_reverse.1 hu)
  omega

/-- **The nodes above a node** are those that it is below. -/
theorem mem_ancestors [DecidableEq α] (hs : Sorted key (y :: l))
    (hparent : ∀ x ∈ y :: l, x ≠ y → ∃ z, IsParent depth (y :: l) z x) (hx : x ∈ y :: l) :
    z ∈ ancestors depth (y :: l) x ↔ Below depth (y :: l) z x := by
  induction hk : key x using Nat.strong_induction_on generalizing x with
  | h k ih =>
    by_cases hxy : x = y
    · subst hxy
      rw [ancestors_head]
      refine iff_of_false List.not_mem_nil fun hbelow => ?_
      have hlt := hbelow.key_lt hs
      have := hs.key_le hbelow.mem_left
      omega
    · obtain ⟨w, hw⟩ := hparent x hx hxy
      have hlt := key_lt_of_isParent hs hw
      rw [ancestors_eq hs hw, List.mem_cons, below_iff_parent hs hw,
        ih (key w) (by omega) (ReachedThrough.child (p := fun _ => True) hw).mem_left rfl]

/-- Each of them is above those before it. -/
theorem pairwise_ancestors [DecidableEq α] (hs : Sorted key (y :: l))
    (hparent : ∀ x ∈ y :: l, x ≠ y → ∃ z, IsParent depth (y :: l) z x) (hx : x ∈ y :: l) :
    (ancestors depth (y :: l) x).Pairwise fun a b => Below depth (y :: l) b a := by
  induction hk : key x using Nat.strong_induction_on generalizing x with
  | h k ih =>
    by_cases hxy : x = y
    · subst hxy
      rw [ancestors_head]
      exact List.Pairwise.nil
    · obtain ⟨w, hw⟩ := hparent x hx hxy
      have hlt := key_lt_of_isParent hs hw
      have hwt := (ReachedThrough.child (p := fun _ => True) hw).mem_left
      rw [ancestors_eq hs hw]
      exact List.pairwise_cons.2
        ⟨fun z hz => (mem_ancestors hs hparent hwt).1 hz, ih (key w) (by omega) hwt rfl⟩

end Ancestors

end Preorder
end Lib
end Dwarfpp
