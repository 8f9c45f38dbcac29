/-
# A pruned breadth-first search

A breadth-first search of a tree whose keys increase in pre-order.  Its frontier
is the current place and the queue of places behind it; each stands for a
family.  The order of a frontier (`Ahead`) tells which part of the tree a key
must be in from the keys of the current node and the next one, so a subtree can
be left out (`skip`), or everything but it (`Frontier.singleton`).
-/

import Dwarfpp.Lib.Preorder

namespace Dwarfpp
namespace Lib
namespace Preorder

variable {α : Type} (depth key : α → ℕ)

/-- How a place stands to a later one of the frontier: on one level it comes first in the tree,
otherwise the later one is a level down, below a node that the search has left behind. -/
def Ahead : List α → List α → Prop
  | x :: l, y :: m =>
    (depth y = depth x ∧ ∀ z ∈ family depth (x :: l), key z < key y) ∨
      (depth y = depth x + 1 ∧ ∀ z ∈ family depth (y :: m), key z < key x)
  | _, _ => False

/-- The places that a list of nodes is: one, or none. -/
def places : List α → List (List α)
  | [] => []
  | x :: l => [x :: l]

/-- The frontier after a step: the first child is queued, the next sibling comes first. -/
def advance (s : List α) (q : List (List α)) : List (List α) :=
  places (nextSibling depth s) ++ (q ++ places (firstChild depth s))

/-- The frontier after a step that leaves out what is below the current node. -/
def skip (s : List α) (q : List (List α)) : List (List α) :=
  places (nextSibling depth s) ++ q

/-- A node is in the families of the frontier. -/
def Covers (f : List (List α)) (z : α) : Prop := ∃ s ∈ f, z ∈ family depth s

/-- The number of nodes in the families of the frontier. -/
def weight (f : List (List α)) : ℕ := (f.map (fun s => (family depth s).length)).sum

/-- Places of the tree `t` in the order of a breadth-first search. -/
structure Frontier (t : List α) (f : List (List α)) : Prop where
  place : ∀ s ∈ f, s ≠ [] ∧ s <:+ t
  ahead : f.Pairwise (Ahead depth key)

variable {depth key}

@[simp] theorem mem_places {s s' : List α} : s' ∈ places s ↔ s' = s ∧ s ≠ [] := by
  cases s <;> simp [places]

@[simp] theorem places_cons (x : α) (l : List α) : places (x :: l) = [x :: l] := rfl

theorem weight_places (s : List α) : weight depth (places s) = (family depth s).length := by
  cases s <;> simp [places, weight, family]

theorem weight_append (f g : List (List α)) :
    weight depth (f ++ g) = weight depth f + weight depth g := by
  simp [weight]

theorem weight_cons (s : List α) (f : List (List α)) :
    weight depth (s :: f) = (family depth s).length + weight depth f := by
  simp [weight]

theorem covers_append {f g : List (List α)} {z : α} :
    Covers depth (f ++ g) z ↔ Covers depth f z ∨ Covers depth g z := by
  simp only [Covers, List.mem_append, or_and_right, exists_or]

theorem covers_cons {s : List α} {f : List (List α)} {z : α} :
    Covers depth (s :: f) z ↔ z ∈ family depth s ∨ Covers depth f z := by
  simp [Covers]

theorem covers_places {s : List α} {z : α} : Covers depth (places s) z ↔ z ∈ family depth s := by
  cases s <;> simp [Covers, places, family]

section Weight

variable {x : α} {l : List α} {q : List (List α)}

/-- **A step leaves one node behind.** -/
theorem weight_advance (h : Steps depth (x :: l)) :
    weight depth (advance depth (x :: l) q) + 1 = weight depth ((x :: l) :: q) := by
  rw [advance, weight_append, weight_append, weight_places, weight_places, weight_cons,
    length_family h]
  omega

theorem weight_skip_lt : weight depth (skip depth (x :: l) q) < weight depth ((x :: l) :: q) := by
  rw [skip, weight_append, weight_places, weight_cons, family_eq, List.length_append, subtree,
    List.length_cons]
  omega

theorem weight_singleton_le : weight depth [x :: l] ≤ weight depth ((x :: l) :: q) := by
  rw [weight_cons, weight_cons]
  simp [weight]

end Weight

section Cover

variable {x z : α} {l : List α} {q : List (List α)}

/-- **A step leaves only the current node behind.** -/
theorem covers_advance (h : Steps depth (x :: l)) (hz : Covers depth ((x :: l) :: q) z)
    (hne : z ≠ x) : Covers depth (advance depth (x :: l) q) z := by
  rw [advance, covers_append, covers_append, covers_places, covers_places]
  rw [covers_cons, family_eq, subtree_eq h, List.mem_append, List.mem_cons] at hz
  tauto

theorem covers_skip (hz : Covers depth ((x :: l) :: q) z) (hne : z ∉ subtree depth (x :: l)) :
    Covers depth (skip depth (x :: l) q) z := by
  rw [skip, covers_append, covers_places]
  rw [covers_cons, family_eq, List.mem_append] at hz
  tauto

end Cover

section Order

variable {t : List α}

theorem Frontier.singleton {s : List α} (hne : s ≠ []) (hs : s <:+ t) :
    Frontier depth key t [s] :=
  ⟨fun s' hs' => by
    rw [List.mem_singleton.1 hs']
    exact ⟨hne, hs⟩, List.pairwise_singleton _ _⟩

theorem Frontier.tail {s : List α} {q : List (List α)} (h : Frontier depth key t (s :: q)) :
    Frontier depth key t q :=
  ⟨fun s' hs' => h.place s' (List.mem_cons_of_mem _ hs'), (List.pairwise_cons.1 h.ahead).2⟩

theorem key_lt_of_mem_family {x z : α} {l : List α} (h : Sorted key (x :: l))
    (hz : z ∈ family depth (x :: l)) : key x ≤ key z :=
  h.key_le ((prefix_family _).subset hz)

variable (ht : Sorted key t)
include ht

/-- The next sibling stands to the queue as the node before it. -/
theorem Ahead.nextSibling {x y : α} {l l' b : List α} (hx : x :: l <:+ t)
    (hy : nextSibling depth (x :: l) = y :: l') (h : Ahead depth key (x :: l) b) :
    Ahead depth key (y :: l') b := by
  cases b with
  | nil => exact h
  | cons w m =>
    have hyx := (nextSibling_eq_cons.1 hy).2
    have hlt : key x < key y :=
      (ht.suffix hx).key_lt_nextSibling (mem_subtree_self x l) hy
    rcases h with ⟨hw, hall⟩ | ⟨hw, hall⟩
    · refine .inl ⟨by omega, fun z hz => hall z ?_⟩
      rw [family_eq, hy]
      exact List.mem_append_right _ hz
    · exact .inr ⟨by omega, fun z hz => (hall z hz).trans hlt⟩

/-- What is queued before stands to the first child that is queued now. -/
theorem Ahead.firstChild (hsteps : Steps depth t) {x y : α} {l l' b : List α} (hx : x :: l <:+ t)
    (hy : firstChild depth (x :: l) = y :: l') (h : Ahead depth key (x :: l) b) :
    Ahead depth key b (y :: l') := by
  cases b with
  | nil => exact h
  | cons w m =>
    have hyx := (firstChild_eq_cons.1 hy).2
    have hbelow : ∀ z ∈ family depth (y :: l'), z ∈ family depth (x :: l) := by
      intro z hz
      refine subtree_subset_family ?_
      rw [subtree_eq (hsteps.suffix hx), hy]
      exact List.mem_cons_of_mem _ hz
    rcases h with ⟨hw, hall⟩ | ⟨hw, hall⟩
    · exact .inr ⟨by omega, fun z hz => hall z (hbelow z hz)⟩
    · refine .inl ⟨by omega, fun z hz => (hall z hz).trans ?_⟩
      rw [(firstChild_eq_cons.1 hy).1] at hx
      exact List.rel_of_pairwise_cons (ht.suffix hx) List.mem_cons_self

/-- The next sibling stands to the first child. -/
theorem ahead_sibling_child (hsteps : Steps depth t) {x y c : α} {l l' m : List α} (hx : x :: l <:+ t)
    (hy : Preorder.nextSibling depth (x :: l) = y :: l')
    (hc : Preorder.firstChild depth (x :: l) = c :: m) :
    Ahead depth key (y :: l') (c :: m) := by
  have hyx := (nextSibling_eq_cons.1 hy).2
  have hcx := (firstChild_eq_cons.1 hc).2
  refine .inr ⟨by omega, fun z hz => (ht.suffix hx).key_lt_nextSibling ?_ hy⟩
  rw [subtree_eq (hsteps.suffix hx), hc]
  exact List.mem_cons_of_mem _ hz

theorem Frontier.skip {x : α} {l : List α} {q : List (List α)}
    (h : Frontier depth key t ((x :: l) :: q)) :
    Frontier depth key t (Preorder.skip depth (x :: l) q) := by
  have hx := (h.place _ List.mem_cons_self).2
  unfold Preorder.skip
  cases hy : Preorder.nextSibling depth (x :: l) with
  | nil => exact h.tail
  | cons y l' =>
    rw [places_cons, List.singleton_append]
    constructor
    · intro s hs
      rcases List.mem_cons.1 hs with rfl | hs
      · refine ⟨List.cons_ne_nil _ _, List.IsSuffix.trans ?_ hx⟩
        rw [← hy]
        exact (nextSibling_suffix x l).trans (List.suffix_cons x l)
      · exact h.place s (List.mem_cons_of_mem _ hs)
    · obtain ⟨hhead, htail⟩ := List.pairwise_cons.1 h.ahead
      exact List.pairwise_cons.2 ⟨fun b hb => (hhead b hb).nextSibling ht hx hy, htail⟩

/-- **A step keeps the order of the search.** -/
theorem Frontier.advance (hsteps : Steps depth t) {x : α} {l : List α} {q : List (List α)}
    (h : Frontier depth key t ((x :: l) :: q)) :
    Frontier depth key t (Preorder.advance depth (x :: l) q) := by
  have hx := (h.place _ List.mem_cons_self).2
  have hskip := h.skip ht
  unfold Preorder.skip at hskip
  unfold Preorder.advance
  cases hc : Preorder.firstChild depth (x :: l) with
  | nil =>
    rw [places, List.append_nil]
    exact hskip
  | cons c m =>
    rw [← List.append_assoc, places_cons]
    constructor
    · intro s hs
      rcases List.mem_append.1 hs with hs | hs
      · exact hskip.place s hs
      · rw [List.mem_singleton.1 hs]
        refine ⟨List.cons_ne_nil _ _, List.IsSuffix.trans ?_ hx⟩
        rw [← hc]
        exact (firstChild_suffix x l).trans (List.suffix_cons x l)
    · refine List.pairwise_append.2 ⟨hskip.ahead, List.pairwise_singleton _ _, ?_⟩
      intro b hb s hs
      rw [List.mem_singleton.1 hs]
      rcases List.mem_append.1 hb with hb | hb
      · obtain ⟨rfl, hne⟩ := mem_places.1 hb
        obtain ⟨y, l', hy⟩ := List.exists_cons_of_ne_nil hne
        rw [hy]
        exact ahead_sibling_child ht hsteps hx hy hc
      · exact ((List.pairwise_cons.1 h.ahead).1 b hb).firstChild ht hsteps hx hc

/-- **Where the next node is on the same level, the subtree passed over comes before it.** -/
theorem Frontier.subtree_lt {x y : α} {l l' : List α} {q r : List (List α)}
    (h : Frontier depth key t ((x :: l) :: q))
    (hn : Preorder.advance depth (x :: l) q = (y :: l') :: r) (hd : depth y = depth x) :
    ∀ z ∈ subtree depth (x :: l), key z < key y := by
  intro z hz
  have hx := (h.place _ List.mem_cons_self).2
  unfold Preorder.advance at hn
  cases hs : Preorder.nextSibling depth (x :: l) with
  | cons w m =>
    rw [hs, places_cons, List.singleton_append] at hn
    obtain ⟨⟨rfl, rfl⟩, -⟩ := by simpa only [List.cons.injEq] using hn
    exact (ht.suffix hx).key_lt_nextSibling hz hs
  | nil =>
    rw [hs, places, List.nil_append] at hn
    cases q with
    | nil =>
      cases hc : Preorder.firstChild depth (x :: l) with
      | nil => simp [hc, places] at hn
      | cons c m =>
        rw [hc, places_cons, List.nil_append] at hn
        obtain ⟨⟨rfl, rfl⟩, -⟩ := by simpa only [List.cons.injEq] using hn
        have := (firstChild_eq_cons.1 hc).2
        omega
    | cons b q =>
      rw [List.cons_append] at hn
      obtain ⟨rfl, -⟩ := List.cons.inj hn
      rcases (List.pairwise_cons.1 h.ahead).1 _ List.mem_cons_self with ⟨-, hall⟩ | ⟨hw, -⟩
      · exact hall z (subtree_subset_family hz)
      · omega

/-- **Where the next node is on the same level, a key between the two is in the subtree passed
over.** -/
theorem Frontier.mem_subtree {x y z : α} {l l' : List α} {q r : List (List α)}
    (h : Frontier depth key t ((x :: l) :: q))
    (hn : Preorder.advance depth (x :: l) q = (y :: l') :: r) (hd : depth y = depth x)
    (hz : Covers depth ((x :: l) :: q) z) (hlo : key x < key z) (hhi : key z < key y) :
    z ∈ subtree depth (x :: l) := by
  obtain ⟨hplace, hahead⟩ := h
  have hx := (hplace _ List.mem_cons_self).2
  -- A later place of the frontier is past `y`, or left behind with a smaller key than `x`.
  have hlater : ∀ b ∈ q, (∀ w ∈ b, key y ≤ key w) → z ∉ family depth b := by
    intro b _ hb hzb
    exact absurd (hb z ((prefix_family b).subset hzb)) (by omega)
  have hq : ∀ b ∈ q, z ∈ family depth b → depth (b.headD x) = depth x ∧ b ≠ [] := by
    intro b hb hzb
    have hab := (List.pairwise_cons.1 hahead).1 b hb
    cases b with
    | nil => exact absurd hzb (by simp [family])
    | cons w m =>
      rcases hab with ⟨hw, -⟩ | ⟨-, hall⟩
      · exact ⟨hw, List.cons_ne_nil _ _⟩
      · exact absurd (hall z hzb) (by omega)
  rw [covers_cons, family_eq, List.mem_append] at hz
  unfold Preorder.advance at hn
  cases hs : Preorder.nextSibling depth (x :: l) with
  | cons w m =>
    rw [hs, places_cons, List.singleton_append] at hn
    obtain ⟨⟨rfl, rfl⟩, -⟩ := by simpa only [List.cons.injEq] using hn
    have hsorted : Sorted key (w :: m) := by
      refine ht.suffix (List.IsSuffix.trans ?_ hx)
      rw [← hs]
      exact (nextSibling_suffix x l).trans (List.suffix_cons x l)
    rcases hz with (hz | hz) | ⟨b, hb, hz⟩
    · exact hz
    · rw [hs] at hz
      exact absurd (key_lt_of_mem_family hsorted hz) (by omega)
    · obtain ⟨hdb, hne⟩ := hq b hb hz
      obtain ⟨v, m', rfl⟩ := List.exists_cons_of_ne_nil hne
      rcases (List.pairwise_cons.1 hahead).1 _ hb with ⟨-, hall⟩ | ⟨hv, -⟩
      · refine absurd hz (hlater _ hb fun u hu => ?_)
        have hwv : key w < key v := by
          refine hall w ?_
          rw [family_eq, hs]
          exact List.mem_append_right _ List.mem_cons_self
        exact hwv.le.trans ((ht.suffix (hplace _ (List.mem_cons_of_mem _ hb)).2).key_le hu)
      · simp only [List.headD_cons] at hdb
        omega
  | nil =>
    rw [hs, places, List.nil_append] at hn
    rcases hz with (hz | hz) | ⟨b, hb, hz⟩
    · exact hz
    · rw [hs] at hz
      exact absurd hz (by simp [family])
    · obtain ⟨hdb, hne⟩ := hq b hb hz
      cases q with
      | nil => exact absurd hb (by simp)
      | cons b₀ q =>
        rw [List.cons_append] at hn
        obtain ⟨rfl, -⟩ := List.cons.inj hn
        have hy := (hplace (y :: l') (by simp)).2
        rcases List.mem_cons.1 hb with rfl | hb'
        · exact absurd hz (hlater _ hb fun u hu => (ht.suffix hy).key_le hu)
        · obtain ⟨v, m', rfl⟩ := List.exists_cons_of_ne_nil hne
          simp only [List.headD_cons] at hdb
          have hyv := (List.pairwise_cons.1 (List.pairwise_cons.1 hahead).2).1 _ hb'
          rcases hyv with ⟨-, hall⟩ | ⟨hv, -⟩
          · refine absurd hz (hlater _ hb fun u hu => ?_)
            have hlt : key y < key v := hall y List.mem_cons_self
            exact hlt.le.trans ((ht.suffix (hplace _ (List.mem_cons_of_mem _ hb)).2).key_le hu)
          · omega

end Order

end Preorder
end Lib
end Dwarfpp
