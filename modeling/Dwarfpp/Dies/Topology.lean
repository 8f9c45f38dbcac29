/-
# The topology of DIEs in memory

Where the root knows its tree, a call of `make_new` that returns has put a DIE into
the tree, the last child of the parent given, and the root knows the new tree
(`makeNew_eq_ok`).  So it does after any number of calls (`consistent_of_calls`), and
`find`, the moves and the depth-first traversal agree with the tree that the calls
describe.
-/

import Dwarfpp.Dies.MakeNew

namespace Dwarfpp
namespace Dies

open Lib
open Lib.Preorder hiding firstChild nextSibling

variable {t : List Node} {r : Root} {fuel : ℕ}

/-- From `r`, which knows `t`, the computation returns and ends in a root that knows `t`, or it does
not return. -/
abbrev IfReturns (t : List Node) {α : Type} (x : RootM α) (r : Root) (post : α → Root → Prop) : Prop :=
  ReachesUnless t True x r post

theorem ifReturns_outOfSteps {α : Type} {e : Fault} {post : α → Root → Prop} :
    IfReturns t (throw e : RootM α) r post := .inr ⟨trivial, e, rfl⟩

theorem ifReturns_require {p : Prop} [Decidable p] (h : Consistent t r) :
    IfReturns t (require p) r fun _ r' => p ∧ r' = r := by
  by_cases hp : p
  · exact .inl (reaches_require hp h ⟨hp, rfl⟩)
  · exact .inr ⟨trivial, .assertFailed, if_neg hp⟩

section Siblings

variable {d : ℕ}

/-- `next` goes to the next sibling, at depth `d`. -/
def Walks (t : List Node) (d : ℕ) (next : Iterator → RootM (Option Iterator)) : Prop :=
  ∀ (r : Root) (x : Node) (l : List Node) (it : Iterator), Consistent t r → x :: l <:+ t →
    x.depth = d → it.offset = x.offset → it.depth = some x.depth →
      IfReturns t (next it) r fun res _ => IsAt (Preorder.nextSibling Node.depth (x :: l)) res

/-- `s` is nothing, or a place of `t` at depth `d`. -/
def PlaceAt (t : List Node) (d : ℕ) (s : List Node) : Prop :=
  s <:+ t ∧ ∀ y ∈ s.head?, y.depth = d

theorem PlaceAt.nextSibling {x : Node} {l : List Node} (h : PlaceAt t d (x :: l)) :
    PlaceAt t d (Preorder.nextSibling Node.depth (x :: l)) := by
  refine ⟨((nextSibling_suffix x l).trans (List.suffix_cons x l)).trans h.1, fun y hy => ?_⟩
  obtain ⟨l', hl'⟩ := List.head?_eq_some_iff.1 hy
  rw [(nextSibling_eq_cons.1 hl').2, h.2 x rfl]

theorem placeAt_firstChild {x : Node} {l : List Node} (hx : x :: l <:+ t) :
    PlaceAt t (x.depth + 1) (Preorder.firstChild Node.depth (x :: l)) := by
  refine ⟨((firstChild_suffix x l).trans (List.suffix_cons x l)).trans hx, fun y hy => ?_⟩
  obtain ⟨l', hl'⟩ := List.head?_eq_some_iff.1 hy
  exact (firstChild_eq_cons.1 hl').2

theorem walks_moveToNextSibling : Walks t d (moveToNextSibling (withDepth fuel)) := by
  intro r x l it h hx _ hoff hd
  refine (moveToNextSibling_unless h hx leavesKnown_withDepth hoff hd fun _ _ => trivial).mono ?_
  exact fun _ _ _ _ hpost => hpost.1

/-- The children of the root position are CUs: none is skipped. -/
theorem skipToUnit_ifReturns (h : Consistent t r) {s : List Node} (hs : PlaceAt t 1 s)
    {res : Option Iterator} (hat : IsAt s res) {n : ℕ} :
    IfReturns t (skipToUnit fuel n res) r fun res' _ => IsAt s res' := by
  cases n with
  | zero => exact ifReturns_outOfSteps
  | succ n =>
    cases s with
    | nil =>
      obtain rfl : res = none := hat
      exact StateReturnsUnless.pure h rfl
    | cons x l =>
      obtain ⟨it, rfl, hoff, hd⟩ := hat
      have hx := mem_of_suffix hs.1
      have hdx : x.depth = 1 := hs.2 x rfl
      have h0 : x.offset ≠ 0 := fun h0 => by
        have := (h.wellFormed.depth_eq_zero_iff hx).2 h0
        omega
      refine StateReturnsUnless.get_bind ?_
      rw [hoff, if_pos ((h.tagHere_eq_unit hx h0).2 hdx)]
      exact StateReturnsUnless.pure h ⟨it, rfl, hoff, hd⟩

theorem walks_nextUnit : Walks t 1 (nextUnit fuel) := by
  intro r x l it h hx hdx hoff hd
  have hs : PlaceAt t 1 (x :: l) := ⟨hx, by rintro y ⟨⟩; exact hdx⟩
  refine (walks_moveToNextSibling r x l it h hx hdx hoff hd).bind ?_
  rintro res r₁ hr₁ - hat
  exact skipToUnit_ifReturns hr₁ hs.nextSibling hat

variable {next : Iterator → RootM (Option Iterator)} (hnext : Walks t d next)
include hnext

/-- **Counting**: so many steps from sibling to sibling lead to the end, and no fewer. -/
theorem countFrom_ifReturns (h : Consistent t r) {s : List Node} (hs : PlaceAt t d s)
    {res : Option Iterator} (hat : IsAt s res) {n : ℕ} :
    IfReturns t (countFrom next n res) r fun k _ =>
      (Preorder.nextSibling Node.depth)^[k] s = [] ∧
        ∀ j < k, (Preorder.nextSibling Node.depth)^[j] s ≠ [] := by
  induction n generalizing r s res with
  | zero => exact ifReturns_outOfSteps
  | succ n ih =>
    cases s with
    | nil =>
      obtain rfl : res = none := hat
      exact StateReturnsUnless.pure h ⟨rfl, fun j hj => absurd hj (Nat.not_lt_zero j)⟩
    | cons x l =>
      obtain ⟨it, rfl, hoff, hd⟩ := hat
      refine (hnext r x l it h hs.1 (hs.2 x rfl) hoff hd).bind ?_
      rintro rest r₁ hr₁ - hrest
      refine (ih hr₁ hs.nextSibling hrest).bind ?_
      rintro k r₂ hr₂ - ⟨hend, hbefore⟩
      refine StateReturnsUnless.pure hr₂ ⟨hend, fun j hj => ?_⟩
      cases j with
      | zero => exact List.cons_ne_nil _ _
      | succ j => exact hbefore j (by omega)

/-- **So many steps from sibling to sibling.** -/
theorem advanceBy_ifReturns (h : Consistent t r) {s : List Node} (hs : PlaceAt t d s)
    {it : Iterator} (hat : IsAt s (some it)) {k : ℕ} :
    IfReturns t (advanceBy next k it) r fun it' _ =>
      IsAt ((Preorder.nextSibling Node.depth)^[k] s) (some it') := by
  induction k generalizing r s it with
  | zero => exact StateReturnsUnless.pure h hat
  | succ k ih =>
    cases s with
    | nil => exact absurd hat (by simp [IsAt])
    | cons x l =>
      obtain ⟨it₀, heq, hoff, hd⟩ := hat
      obtain rfl := Option.some.inj heq
      refine (hnext r x l it h hs.1 (hs.2 x rfl) hoff hd).bind ?_
      rintro res r₁ hr₁ - hres
      cases res with
      | none => exact ifReturns_outOfSteps
      | some it' => exact ih hr₁ hs.nextSibling hres

omit hnext in
/-- **The last sibling.** -/
theorem lastSibling_ifReturns (h : Consistent t r) {s : List Node} (hs : PlaceAt t d s)
    {it : Iterator} (hat : IsAt s (some it)) {n : ℕ} :
    IfReturns t (lastSibling fuel n it) r fun it' _ => ∃ k,
      IsAt ((Preorder.nextSibling Node.depth)^[k] s) (some it') ∧
        (Preorder.nextSibling Node.depth)^[k + 1] s = [] := by
  induction n generalizing r s it with
  | zero => exact ifReturns_outOfSteps
  | succ n ih =>
    cases s with
    | nil => exact absurd hat (by simp [IsAt])
    | cons x l =>
      obtain ⟨it₀, heq, hoff, hd⟩ := id hat
      obtain rfl := Option.some.inj heq
      refine (walks_moveToNextSibling r x l it h hs.1 (hs.2 x rfl) hoff hd).bind ?_
      rintro res r₁ hr₁ - hres
      cases res with
      | none =>
        refine StateReturnsUnless.pure hr₁ ⟨0, hat, ?_⟩
        cases hy : Preorder.nextSibling Node.depth (x :: l) with
        | nil => exact hy
        | cons y l' =>
          rw [hy] at hres
          exact absurd hres (by simp [IsAt])
      | some it' =>
        refine (ih hr₁ hs.nextSibling hres).mono ?_
        rintro it'' r₂ - - ⟨k, hk, hlast⟩
        exact ⟨k + 1, hk, hlast⟩

end Siblings

section Offset

variable {x : Node} {w rest : List Node}

/-- The last child of `x`, behind whose subtree comes `rest`. -/
theorem exists_lastChild (hx : x :: (w ++ rest) <:+ t) (hw : ∀ m ∈ w, x.depth < m.depth)
    (hrest : ∀ m ∈ rest.head?, m.depth ≤ x.depth) {k : ℕ} {it : Iterator}
    (hat : IsAt ((Preorder.nextSibling Node.depth)^[k]
      (Preorder.firstChild Node.depth (x :: (w ++ rest)))) (some it))
    (hlast : (Preorder.nextSibling Node.depth)^[k + 1]
      (Preorder.firstChild Node.depth (x :: (w ++ rest))) = []) :
    ∃ y a, y :: a <:+ w ∧ y.depth = x.depth + 1 ∧ (∀ z ∈ a, y.depth < z.depth) ∧
      y :: (a ++ rest) <:+ t ∧ it.offset = y.offset ∧ it.depth = some y.depth := by
  cases hk : (Preorder.nextSibling Node.depth)^[k]
      (Preorder.firstChild Node.depth (x :: (w ++ rest))) with
  | nil =>
    rw [hk] at hat
    exact absurd hat (by simp [IsAt])
  | cons y m =>
    rw [hk] at hat
    obtain ⟨it', heq, hoff, hd⟩ := hat
    obtain rfl := Option.some.inj heq
    obtain ⟨a, rfl, hya, hdy⟩ := iterate_nextSibling_child hrest k hk
    rw [Function.iterate_succ_apply', hk] at hlast
    obtain ⟨q, rfl⟩ := hya
    refine ⟨y, a, List.suffix_append _ _, hdy,
      below_of_nextSibling hw (List.suffix_append _ _) hdy hlast, ?_, hoff, hd⟩
    refine List.IsSuffix.trans ⟨x :: q, ?_⟩ hx
    simp

/-- A DIE without children has nothing below it. -/
theorem eq_nil_of_firstChild (h : Consistent t r) (hx : x :: (w ++ rest) <:+ t)
    (hw : ∀ m ∈ w, x.depth < m.depth)
    (hc : Preorder.firstChild Node.depth (x :: (w ++ rest)) = []) : w = [] := by
  cases w with
  | nil => rfl
  | cons c w =>
    have hstep := (List.isChain_cons_cons.1 (h.wellFormed.steps.suffix hx)).1
    have hlt := hw c List.mem_cons_self
    rw [List.cons_append, firstChild_eq_cons.2 ⟨rfl, by omega⟩] at hc
    exact absurd hc (List.cons_ne_nil _ _)

/-- **The highest offset below `x` is that of the last DIE there**, and the last child seen at `x` is
its last child. -/
theorem highestOffsetIter_ifReturns (h : Consistent t r) (hx : x :: (w ++ rest) <:+ t)
    (hw : ∀ m ∈ w, x.depth < m.depth) (hrest : ∀ m ∈ rest.head?, m.depth ≤ x.depth)
    {it : Iterator} (hoff : it.offset = x.offset) (hd : it.depth = some x.depth)
    {seen : ℕ → Option ℕ} {n : ℕ} :
    IfReturns t (highestOffsetIter fuel n it seen) r fun res _ =>
      (∃ z q, x :: w = q ++ [z] ∧ res.1.offset = z.offset ∧ res.1.depth = some z.depth) ∧
        (∀ o < x.offset, res.2 o = seen o) ∧
        (w ≠ [] → ∃ y, IsLastChild Node.depth x w y ∧ res.2 x.offset = some y.offset) := by
  induction n generalizing r x w it seen with
  | zero => exact ifReturns_outOfSteps
  | succ n ih =>
    refine (firstChild_reaches h hx hoff hd).unless.bind ?_
    rintro children r₁ hr₁ - ⟨hat, -⟩
    refine (countFrom_ifReturns (walks_moveToNextSibling (d := x.depth + 1)) hr₁
      (placeAt_firstChild hx) hat).bind ?_
    rintro count r₂ hr₂ - -
    cases children with
    | none =>
      have hnil : w = [] := by
        refine eq_nil_of_firstChild h hx hw ?_
        cases hc : Preorder.firstChild Node.depth (x :: (w ++ rest)) with
        | nil => rfl
        | cons c l =>
          rw [hc] at hat
          exact absurd hat (by simp [IsAt])
      subst hnil
      exact StateReturnsUnless.pure hr₂
        ⟨⟨x, [], rfl, hoff, hd⟩, fun _ _ => rfl, fun hne => absurd rfl hne⟩
    | some first =>
      refine (ifReturns_require hr₂).bind ?_
      rintro - r₃ hr₃ - -
      refine (lastSibling_ifReturns hr₃ (placeAt_firstChild hx) hat).bind ?_
      rintro lastSib r₄ hr₄ - ⟨k, hk, hlast⟩
      obtain ⟨y, a, hya, hdy, hall, hy, hyoff, hyd⟩ := exists_lastChild hx hw hrest hk hlast
      have hlt : x.offset < y.offset :=
        List.rel_of_pairwise_cons (h.wellFormed.sorted.suffix hx)
          (List.mem_append_left _ (hya.subset List.mem_cons_self))
      refine (ih hr₄ hy hall (fun m hm => ?_) hyoff hyd).mono ?_
      · have := hrest m hm
        omega
      rintro res r₅ - - ⟨⟨z, q, hq, hz⟩, hseen, -⟩
      obtain ⟨p, rfl⟩ := hya
      refine ⟨⟨z, x :: p ++ q, ?_, hz⟩, fun o ho => ?_, fun _ => ⟨y, ⟨a, List.suffix_append _ _,
        hdy, hall⟩, ?_⟩⟩
      · rw [hq]
        simp
      · rw [hseen o (by omega), hoff, Function.update_of_ne (by omega)]
      · rw [hseen x.offset hlt, hoff, Function.update_self, hyoff]

/-- **A traversal to the end stops at the last DIE.** -/
theorem lastOffset_ifReturns (h : Consistent t r) (hfuel : EnoughFuel t fuel) {s : List Node}
    (hs : s <:+ t) {res : Option Iterator} (hat : TraversalAt s res) {off n : ℕ} :
    IfReturns t (lastOffset fuel n off res) r fun off' _ =>
      off' = (s.getLast?.map Node.offset).getD off := by
  induction n generalizing r s res off with
  | zero => exact ifReturns_outOfSteps
  | succ n ih =>
    cases s with
    | nil =>
      obtain rfl : res = none := hat
      exact StateReturnsUnless.pure h rfl
    | cons x l =>
      obtain ⟨it, rfl, hit⟩ := hat
      refine (dfIncrement_unless h hfuel hs hit fun _ _ _ _ _ => trivial).bind ?_
      rintro next r₁ hr₁ - ⟨hnext, -⟩
      refine (ih hr₁ ((List.suffix_cons x l).trans hs) (.of_isAt hnext)).mono ?_
      rintro off' r₂ - - rfl
      rw [List.getLast?_cons, hit.1]
      cases l.getLast? <;> rfl

end Offset

section Issue

variable {pre w rest : List Node} {x : Node} {off : ℕ} {r' : Root}

/-- The offset `off` is issued for a DIE below `x`, behind `w`. -/
structure Issued (x : Node) (w : List Node) (off : ℕ) (r r' : Root) : Prop where
  dbg : r'.dbg = r.dbg
  context : ContextIsSane r → ContextIsSane r'
  liveDies : r'.liveDies = r.liveDies
  parentOf : r'.parentOf = Function.update r.parentOf off (some x.offset)
  edge : EdgeEntered x w off r r'

/-- The offset lies in the gap behind the subtree, at its beginning. -/
structure InGap (pre : List Node) (x : Node) (w rest : List Node) (off : ℕ) : Prop where
  next : ∃ y ∈ pre ++ x :: w, off = y.offset + 1
  above : ∀ y ∈ pre ++ x :: w, y.offset < off
  below : ∀ y ∈ rest, off < y.offset

/-- The edge is entered that the highest offset tells to. -/
theorem enterEdge_eq_ok (hs : Sorted Node.offset (pre ++ x :: (w ++ rest))) {z : Node}
    {q : List Node} (hz : x :: w = q ++ [z]) {it highest : Iterator} (hoff : it.offset = x.offset)
    (hhigh : highest.offset = z.offset) {seen : ℕ → Option ℕ}
    (hseen : w ≠ [] → ∃ y, IsLastChild Node.depth x w y ∧ seen x.offset = some y.offset) {u : Unit}
    (hrun : enterEdge it highest seen off r = .ok (u, r')) :
    ∃ f g, r' = { r with firstChildOf := f, nextSiblingOf := g } ∧ EdgeEntered x w off r r' := by
  have hcases : z.offset = x.offset ↔ w = [] := by
    constructor
    · intro heq
      by_contra hne
      have hmem : z ∈ w := by
        have hlast : (x :: w).getLast (List.cons_ne_nil x w) = z := by simp [hz]
        rw [List.getLast_cons hne] at hlast
        exact hlast ▸ List.getLast_mem hne
      have hlt := List.rel_of_pairwise_cons (hs.suffix (List.suffix_append pre _))
        (List.mem_append_left rest hmem)
      omega
    · rintro rfl
      have hlast : (x :: ([] : List Node)).getLast (List.cons_ne_nil x []) = z := by simp [hz]
      rw [← hlast]
      rfl
  unfold enterEdge at hrun
  rw [hoff, hhigh] at hrun
  by_cases hw : w = []
  · rw [if_pos (hcases.2 hw)] at hrun
    obtain rfl := (Prod.mk.inj (Except.ok.inj hrun)).2
    exact ⟨_, _, rfl, .inl ⟨hw, rfl, rfl⟩⟩
  · obtain ⟨y, hy, hsy⟩ := hseen hw
    rw [if_neg fun heq => hw (hcases.1 heq), hsy] at hrun
    obtain ⟨_, r₁, hreq, hset⟩ := stateT_bind_eq_ok (stateT_get_bind_eq_ok hrun)
    rw [(require_eq_ok hreq).2] at hset
    obtain rfl := (Prod.mk.inj (Except.ok.inj hset)).2
    exact ⟨_, _, rfl, .inr ⟨y, hy, rfl, rfl⟩⟩

/-- A CU by its position. -/
theorem posUnit_reaches (h : Consistent t r) {u : Node} (hu : u ∈ t) (hd : u.depth = 1)
    {parentOff : Option ℕ} (hp : parentOff = none ∨ parentOff = some 0) :
    Reaches t (pos u.offset (some 1) parentOff none) r fun it _ => Standing u it := by
  have hroot := h.wellFormed.isParent_root hu hd
  refine (pos_reaches h hu ?_ ?_ ?_ fun _ => ⟨_, hroot⟩).mono ?_
  · rintro d ⟨⟩
    exact hd.symm
  · rintro p hpar
    rcases hp with rfl | rfl
    · exact absurd hpar (by simp)
    · exact ⟨rootNode, hroot, Option.some.inj hpar⟩
  · intro h0
    rw [(h.wellFormed.depth_eq_zero_iff hu).2 h0] at hd
    exact absurd hd (by decide)
  · rintro it r₁ - - ⟨hoff, hit, -⟩
    exact ⟨hoff, by rwa [hd]⟩

/-- **`fresh_offset_under` issues an offset in the gap.** -/
theorem freshOffsetUnder_eq_ok (h : Consistent (pre ++ x :: (w ++ rest)) r)
    (hfuel : EnoughFuel (pre ++ x :: (w ++ rest)) fuel) (hw : ∀ m ∈ w, x.depth < m.depth)
    (hrest : ∀ m ∈ rest.head?, m.depth ≤ x.depth) {it : Iterator} (hoff : it.offset = x.offset)
    (hd : it.depth = some x.depth) (hrun : freshOffsetUnder fuel it r = .ok (off, r')) :
    ∃ r₁, Consistent (pre ++ x :: (w ++ rest)) r₁ ∧ InGap pre x w rest off ∧
      Issued x w off r₁ r' ∧ r'.tables = r.tables := by
  have hx : x :: (w ++ rest) <:+ pre ++ x :: (w ++ rest) := List.suffix_append _ _
  obtain ⟨_, r₁, hfirst, hrun⟩ := stateT_bind_eq_ok hrun
  obtain ⟨hr₁, hmoved₁, -⟩ :=
    (firstChild_reaches h hx hoff hd).unless (c := True) |>.of_eq_ok hfirst
  obtain ⟨⟨highest, seen⟩, r₂, hhigh, hrun⟩ := stateT_bind_eq_ok hrun
  obtain ⟨hr₂, hmoved₂, ⟨z, q, hz, hzoff, hzd⟩, -, hseen⟩ :=
    (highestOffsetIter_ifReturns hr₁ hx hw hrest hoff hd).of_eq_ok hhigh
  dsimp only at hzoff hzd
  obtain ⟨next, r₃, hnext, hrun⟩ := stateT_bind_eq_ok hrun
  have hplace : pre ++ x :: (w ++ rest) = (pre ++ q) ++ z :: rest := by
    rw [← List.cons_append, hz]
    simp
  have hzs : z :: rest <:+ pre ++ x :: (w ++ rest) := by
    rw [hplace]
    exact List.suffix_append _ _
  obtain ⟨hr₃, hmoved₃, hat, -⟩ :=
    (dfIncrement_unless hr₂ hfuel hzs ⟨hzoff, .inl hzd⟩ fun _ _ _ _ _ => trivial).of_eq_ok hnext
  obtain ⟨_, r₄, hreq, hrun⟩ := stateT_bind_eq_ok hrun
  obtain ⟨hgap, heq⟩ := require_eq_ok hreq
  rw [heq] at hrun
  obtain ⟨_, r₅, hedge, hparent⟩ := stateT_bind_eq_ok hrun
  obtain ⟨rfl, rfl⟩ := Prod.mk.inj (Except.ok.inj hparent)
  obtain ⟨f, g, rfl, hentered⟩ := enterEdge_eq_ok h.wellFormed.sorted hz hoff hzoff hseen hedge
  refine ⟨r₃, hr₃, ⟨⟨z, ?_, congrArg (· + 1) hzoff⟩, fun y hy => ?_, fun y hy => ?_⟩,
    ⟨rfl, id, rfl, ?_, ?_⟩, hmoved₃.tables.trans (hmoved₂.tables.trans hmoved₁.tables)⟩
  · rw [hz]
    simp
  · have hsorted := h.wellFormed.sorted
    rw [hplace] at hsorted
    rw [hz, ← List.append_assoc] at hy
    have := hsorted.key_le_last hy
    omega
  · cases rest with
    | nil => exact absurd hy (by simp)
    | cons v m =>
      obtain ⟨it', rfl, hoff', -⟩ := hat
      have hv : 1 < it'.offset - highest.offset := hgap it' rfl
      have hle := (h.wellFormed.sorted.suffix
        ((List.suffix_cons z (v :: m)).trans hzs)).key_le hy
      omega
  · rw [← hoff]
  · exact hentered

/-- **`fresh_cu_offset` issues the offset behind all others.** -/
theorem freshCuOffset_eq_ok (h : Consistent (rootNode :: w) r)
    (hfuel : EnoughFuel (rootNode :: w) fuel) (hrun : freshCuOffset fuel r = .ok (off, r')) :
    ∃ r₁, Consistent (rootNode :: w) r₁ ∧ (∃ y ∈ rootNode :: w, off = y.offset + 1) ∧
      (∀ y ∈ rootNode :: w, y.offset < off) ∧ Issued rootNode w off r₁ r' ∧
        r'.tables = r.tables := by
  have hw : ∀ m ∈ w, rootNode.depth < m.depth := by
    obtain ⟨l, hl, hpos⟩ := h.wellFormed.rooted
    obtain ⟨-, rfl⟩ := List.cons.inj hl
    exact hpos
  have hx : rootNode :: (w ++ []) <:+ rootNode :: w := by rw [List.append_nil]
  have hrest : ∀ m ∈ ([] : List Node).head?, m.depth ≤ rootNode.depth := by simp
  have hs : PlaceAt (rootNode :: w) 1 (Preorder.firstChild Node.depth (rootNode :: (w ++ []))) :=
    placeAt_firstChild hx
  obtain ⟨child, r₁, hfirst, hrun⟩ := stateT_bind_eq_ok hrun
  obtain ⟨hr₁, hmoved₁, hat, -⟩ :=
    (firstChild_reaches h hx rfl rfl).unless (c := True) |>.of_eq_ok hfirst
  obtain ⟨first, r₂, hskip, hrun⟩ := stateT_bind_eq_ok hrun
  obtain ⟨hr₂, hmoved₂, hat⟩ := (skipToUnit_ifReturns hr₁ hs hat).of_eq_ok hskip
  cases hc : Preorder.firstChild Node.depth (rootNode :: (w ++ [])) with
  | nil =>
    rw [hc] at hat
    obtain rfl : first = none := hat
    obtain ⟨rfl, rfl⟩ := Prod.mk.inj (Except.ok.inj hrun)
    obtain rfl := eq_nil_of_firstChild h hx hw hc
    refine ⟨r₂, hr₂, ⟨rootNode, by simp, rfl⟩, ?_, ⟨rfl, id, rfl, rfl, .inl ⟨rfl, rfl, rfl⟩⟩,
      hmoved₂.tables.trans hmoved₁.tables⟩
    intro y hy
    rw [List.mem_singleton.1 hy]
    exact Nat.zero_lt_one
  | cons c l =>
    obtain ⟨it, rfl, -⟩ : ∃ it, first = some it ∧ True := by
      rw [hc] at hat
      obtain ⟨it, hit, -⟩ := hat
      exact ⟨it, hit, trivial⟩
    obtain ⟨k, r₃, hcount, hrun⟩ := stateT_bind_eq_ok hrun
    obtain ⟨hr₃, hmoved₃, hend, hbefore⟩ :=
      (countFrom_ifReturns walks_nextUnit hr₂ hs hat).of_eq_ok hcount
    obtain ⟨k, rfl⟩ : ∃ j, k = j + 1 := by
      refine Nat.exists_eq_succ_of_ne_zero ?_
      rintro rfl
      rw [Function.iterate_zero, id, hc] at hend
      exact absurd hend (List.cons_ne_nil _ _)
    rw [Nat.add_sub_cancel] at hrun
    obtain ⟨lastCu, r₄, hadvance, hrun⟩ := stateT_bind_eq_ok hrun
    obtain ⟨hr₄, hmoved₄, hlast⟩ := (advanceBy_ifReturns walks_nextUnit hr₃ hs hat).of_eq_ok hadvance
    obtain ⟨y, a, hya, hdy, hall, hy, hyoff, hyd⟩ := exists_lastChild hx hw hrest hlast hend
    rw [List.append_nil] at hy
    obtain ⟨i, r₅, hpos, hrun⟩ := stateT_bind_eq_ok hrun
    rw [hyoff] at hpos
    obtain ⟨hr₅, hmoved₅, hi⟩ :=
      ((posUnit_reaches hr₄ (mem_of_suffix hy) hdy (.inl rfl)).unless (c := True)).of_eq_ok hpos
    obtain ⟨off, r₆, hoffset, hrun⟩ := stateT_bind_eq_ok hrun
    obtain ⟨hr₆, hmoved₆, hoff⟩ := (lastOffset_ifReturns hr₅ hfuel (s := y :: a) hy
      ⟨i, rfl, hi⟩).of_eq_ok hoffset
    obtain ⟨_, r₇, hreq, hrun⟩ := stateT_bind_eq_ok hrun
    rw [(require_eq_ok hreq).2] at hrun
    obtain ⟨_, r₈, hreq, hrun⟩ := stateT_bind_eq_ok (stateT_get_bind_eq_ok hrun)
    rw [(require_eq_ok hreq).2] at hrun
    obtain ⟨rfl, rfl⟩ := Prod.mk.inj (Except.ok.inj hrun)
    -- The last DIE below the last CU is the last of all.
    obtain ⟨p, hp⟩ := hy
    obtain ⟨q, v, hv⟩ := List.eq_nil_or_concat (y :: a) |>.resolve_left (List.cons_ne_nil _ _)
    have hsplit : rootNode :: w = (p ++ q) ++ [v] := by
      rw [← hp, hv]
      simp
    obtain rfl : off = v.offset := by
      rw [hv] at hoff
      simpa using hoff
    refine ⟨r₆, hr₆, ⟨v, by rw [hsplit]; simp, rfl⟩, fun z hz => ?_,
      ⟨rfl, id, rfl, rfl, .inr ⟨y, ⟨a, hya, hdy, hall⟩, rfl, ?_⟩⟩, ?_⟩
    · have hsorted := h.wellFormed.sorted
      rw [hsplit] at hsorted hz
      have hle := hsorted.key_le_last hz
      omega
    · rw [← hyoff]
    · exact hmoved₆.tables.trans (hmoved₅.tables.trans (hmoved₄.tables.trans
        (hmoved₃.tables.trans (hmoved₂.tables.trans hmoved₁.tables))))

end Issue

section Construct

variable {pre w rest : List Node} {x : Node} {off tag : ℕ} {r' : Root}

/-- The enclosing CU of a DIE is a CU of the tree. -/
theorem Consistent.enclosingCu (h : Consistent t r) (hx : x ∈ t) (h0 : x.offset ≠ 0) :
    ∃ u ∈ t, r.enclosingCuOffset x.offset = u.offset ∧ u.depth = 1 := by
  cases hm : x.inMemory with
  | true =>
    obtain ⟨u, hu, hlive, hd⟩ := h.memoryLive x hx hm
    refine ⟨u, hu, ?_, hd⟩
    unfold Root.enclosingCuOffset
    rw [hlive]
  | false =>
    cases hdbg : r.dbg with
    | none =>
      rw [h.noFile hdbg x hx h0] at hm
      exact absurd hm (by decide)
    | some lib =>
      obtain ⟨u, hu, hoff, hd⟩ := (h.serves lib hdbg).unitOf x hx hm h0
      refine ⟨u, hu, ?_, hd⟩
      unfold Root.enclosingCuOffset
      rw [hdbg, hoff]
      cases hlive : r.liveDies x.offset with
      | none => rfl
      | some d =>
        obtain ⟨y, hy, hyoff, -, hfile⟩ := h.live _ _ hlive
        rw [h.wellFormed.sorted.eq_of_key_eq hy hx hyoff] at hfile
        rw [hfile hm]

theorem specHere_ifReturns (h : Consistent t r) (hx : x ∈ t) (h0 : x.offset ≠ 0) {it : Iterator}
    (hoff : it.offset = x.offset) : IfReturns t (specHere it) r fun _ _ => True := by
  refine StateReturnsUnless.get_bind ?_
  split_ifs
  · exact (ifReturns_require h).mono fun _ _ _ _ _ => trivial
  · obtain ⟨u, hu, hcu, hd⟩ := h.enclosingCu hx h0
    rw [hoff, hcu]
    refine (posUnit_reaches h hu hd (.inl rfl)).unless.bind ?_
    rintro cu r₁ hr₁ - -
    exact (ifReturns_require hr₁).mono fun _ _ _ _ _ => trivial
  · exact StateReturnsUnless.pure h trivial

theorem enclosingSpec_ifReturns (h : Consistent t r) (hx : x ∈ t) {it : Iterator}
    (hoff : it.offset = x.offset) : IfReturns t (enclosingSpec it) r fun _ _ => True := by
  unfold enclosingSpec
  split_ifs with h0
  · exact StateReturnsUnless.pure h trivial
  · refine StateReturnsUnless.get_bind ?_
    obtain ⟨u, hu, hcu, hd⟩ := h.enclosingCu hx (by rwa [hoff] at h0)
    rw [hoff, hcu]
    refine (posUnit_reaches h hu hd (.inr rfl)).unless.bind ?_
    rintro cu r₁ hr₁ - hcu
    refine specHere_ifReturns hr₁ hu (fun hu0 => ?_) hcu.1
    rw [(h.wellFormed.depth_eq_zero_iff hu).2 hu0] at hd
    exact absurd hd (by decide)

theorem parentSpec_ifReturns (h : Consistent t r) (hx : x ∈ t) {it : Iterator}
    (hoff : it.offset = x.offset) (hd : it.depth = some x.depth) :
    IfReturns t (parentSpec it) r fun _ _ => True := by
  unfold parentSpec
  split_ifs with h0
  · exact StateReturnsUnless.pure h trivial
  · refine specHere_ifReturns h hx (fun hx0 => h0 ?_) hoff
    rw [hd, (h.wellFormed.depth_eq_zero_iff hx).2 hx0]

/-- The offset issued is of no DIE yet. -/
theorem InGap.liveDies_eq_none (hgap : InGap pre x w rest off)
    (h : Consistent (pre ++ x :: (w ++ rest)) r) : r.liveDies off = none := by
  cases hlive : r.liveDies off with
  | none => rfl
  | some d =>
    obtain ⟨y, hy, rfl, -⟩ := h.live _ _ hlive
    have hsplit : pre ++ x :: (w ++ rest) = (pre ++ x :: w) ++ rest := by simp
    rw [hsplit] at hy
    rcases List.mem_append.1 hy with hy | hy
    · exact absurd (hgap.above y hy) (lt_irrefl _)
    · exact absurd (hgap.below y hy) (lt_irrefl _)

/-- **A DIE at an offset that has been issued can be entered.** -/
theorem Issued.insert (hissued : Issued x w off r r') (h : Consistent (pre ++ x :: (w ++ rest)) r)
    (hgap : InGap pre x w rest off) (hw : ∀ m ∈ w, x.depth < m.depth)
    (hrest : ∀ m ∈ rest.head?, m.depth ≤ x.depth) (htag : tag = dwTagCompileUnit ↔ x.depth = 0)
    (hlevel : x.depth + 1 < 2 ^ 16) {it : Iterator} (hoff : it.offset = x.offset) :
    Consistent (pre ++ x :: (w ++ ⟨off, x.depth + 1, tag, true⟩ :: rest))
      (r'.enterInMemory it tag off) := by
  have hx : x ∈ pre ++ x :: (w ++ rest) := by simp
  have hzero := h.wellFormed.depth_eq_zero_iff hx
  have hentered : Entered x w ⟨off, x.depth + 1, tag, true⟩
      (if it.offset = 0 then off else r'.enclosingCuOffset it.offset) r
      (r'.enterInMemory it tag off) := by
    refine ⟨hissued.dbg, hissued.context, ?_, hissued.parentOf, hissued.edge⟩
    unfold Root.enterInMemory
    dsimp only
    rw [hissued.liveDies, hgap.liveDies_eq_none h]
    rfl
  refine h.insert ⟨⟨hw, hrest, rfl⟩, hgap.above, hgap.below, rfl, ?_, hlevel⟩ hentered ?_
  · rw [htag]
    exact ⟨fun h => congrArg (· + 1) h, fun h => Nat.succ.inj h⟩
  · rw [hoff]
    split_ifs with h0
    · exact ⟨⟨off, x.depth + 1, tag, true⟩, by simp, rfl, congrArg (· + 1) (hzero.2 h0)⟩
    · obtain ⟨u, hu, hcu, hdu⟩ := h.enclosingCu hx h0
      refine ⟨u, mem_insert.2 (.inr hu), ?_, hdu⟩
      rw [← hcu]
      unfold Root.enclosingCuOffset
      rw [hissued.liveDies, hissued.dbg]

/-- **The offset of a new DIE lies in the gap behind the subtree of its parent.** -/
theorem freshOffset_eq_ok (h : Consistent (pre ++ x :: (w ++ rest)) r)
    (hfuel : EnoughFuel (pre ++ x :: (w ++ rest)) fuel) (hw : ∀ m ∈ w, x.depth < m.depth)
    (hrest : ∀ m ∈ rest.head?, m.depth ≤ x.depth) {it : Iterator} (hoff : it.offset = x.offset)
    (hd : it.depth = some x.depth) (hrun : freshOffset fuel it r = .ok (off, r')) :
    ∃ r₁, Consistent (pre ++ x :: (w ++ rest)) r₁ ∧ InGap pre x w rest off ∧
      Issued x w off r₁ r' ∧ r'.tables = r.tables := by
  have hx : x ∈ pre ++ x :: (w ++ rest) := by simp
  unfold freshOffset at hrun
  split_ifs at hrun with h0
  · -- The parent is the root position, and all other DIEs are below it.
    rw [hoff] at h0
    obtain rfl := (h.wellFormed.eq_root_iff hx).1 h0
    obtain ⟨l, hl, hpos⟩ := h.wellFormed.rooted
    have hsame : rootNode :: (w ++ rest) = rootNode :: l :=
      h.wellFormed.sorted.suffix_unique (List.suffix_append pre _) (by rw [hl]) rfl
    have hpre : pre = [] := by
      have hlen := congrArg List.length (hl.trans hsame.symm)
      rw [List.length_append] at hlen
      exact List.length_eq_zero_iff.1 (by omega)
    subst hpre
    have hnil : rest = [] := by
      cases rest with
      | nil => rfl
      | cons v m =>
        have hv := hpos v (by rw [← (List.cons.inj hsame).2]; simp)
        have := hrest v rfl
        have : v.depth ≤ 0 := this
        omega
    subst hnil
    rw [List.append_nil, List.nil_append] at h hfuel ⊢
    obtain ⟨r₁, hr₁, hnext, habove, hissued, htables⟩ := freshCuOffset_eq_ok h hfuel hrun
    exact ⟨r₁, hr₁, ⟨hnext, habove, by simp⟩, hissued, htables⟩
  · exact freshOffsetUnder_eq_ok h hfuel hw hrest hoff hd hrun

theorem construct_eq_ok (h : Consistent (pre ++ x :: (w ++ rest)) r)
    (hfuel : EnoughFuel (pre ++ x :: (w ++ rest)) fuel) (hw : ∀ m ∈ w, x.depth < m.depth)
    (hrest : ∀ m ∈ rest.head?, m.depth ≤ x.depth) (htag : tag = dwTagCompileUnit ↔ x.depth = 0)
    (hlevel : x.depth + 1 < 2 ^ 16) {parent : Iterator} (hit : Standing x parent)
    (hrun : construct fuel parent tag r = .ok (off, r')) :
    Consistent (pre ++ x :: (w ++ ⟨off, x.depth + 1, tag, true⟩ :: rest)) r' ∧
      InGap pre x w rest off ∧ r'.parentOf off = some x.offset ∧
      r'.tables = { r.tables with attrs := Function.update r.tables.attrs off OrderedMap.empty } := by
  have hx : x ∈ pre ++ x :: (w ++ rest) := by simp
  obtain ⟨it, r₁, hdepth, hrun⟩ := stateT_bind_eq_ok hrun
  obtain ⟨hr₁, hmoved₁, hoff, hd, -⟩ :=
    (withDepth_reaches h hx hit.1 hit.2 (hfuel.2 x hx) hfuel.1).unless (c := True)
      |>.of_eq_ok hdepth
  obtain ⟨_, r₂, hspec, hrun⟩ := stateT_bind_eq_ok hrun
  obtain ⟨hr₂, hmoved₂, -⟩ := (parentSpec_ifReturns hr₁ hx hoff hd).of_eq_ok hspec
  obtain ⟨off', r₃, hfresh, henter⟩ := stateT_bind_eq_ok hrun
  obtain ⟨rfl, rfl⟩ := Prod.mk.inj (Except.ok.inj henter)
  obtain ⟨r₄, hr₄, hgap, hissued, htables⟩ := freshOffset_eq_ok hr₂ hfuel hw hrest hoff hd hfresh
  refine ⟨hissued.insert hr₄ hgap hw hrest htag hlevel hoff, hgap, ?_, ?_⟩
  · show r₃.parentOf off' = some x.offset
    rw [hissued.parentOf, Function.update_self]
  · show { r₃.tables with attrs := Function.update r₃.tables.attrs off' OrderedMap.empty } = _
    rw [htables, hmoved₂.tables, hmoved₁.tables]

theorem EnoughFuel.mono {n : ℕ} (h : EnoughFuel t fuel) (hn : fuel ≤ n) : EnoughFuel t n :=
  ⟨h.1.trans_le hn, fun x hx => (h.2 x hx).trans_le hn⟩

/-- The new DIE is found. -/
theorem findNew_eq_ok (h : Consistent t r) {p : ℕ} (hp : r.parentOf off = some p) (hoff : off < fuel)
    (hlength : t.length < fuel) (hx : x ∈ t) (hxoff : x.offset = off) {parent it : Iterator}
    (hrun : findNew fuel parent off r = .ok (it, r')) :
    Consistent t r' ∧ Standing x it ∧ r'.tables = r.tables := by
  have hsame : { r with
      parentOf := Function.update r.parentOf off ((r.parentOf off).or (some parent.offset)) } = r := by
    rw [hp, Option.some_or, ← hp, Function.update_eq_self]
  obtain ⟨_, r₁, hmodify, hrun⟩ := stateT_bind_eq_ok hrun
  have hr₁ : r₁ = r := (Prod.mk.inj (Except.ok.inj hmodify)).2.symm.trans hsame
  rw [hr₁] at hrun
  obtain ⟨res, r₂, hfind, hrun⟩ := stateT_bind_eq_ok hrun
  obtain ⟨hr₂, hmoved, hloc, -⟩ := (find_reaches h hoff hlength false).unless (c := True)
    |>.of_eq_ok hfind
  rcases hloc with ⟨y, hy, hyoff, -, it', rfl, hit, hd⟩ | ⟨-, hno⟩
  · obtain ⟨rfl, rfl⟩ := Prod.mk.inj (Except.ok.inj hrun)
    rw [h.wellFormed.sorted.eq_of_key_eq hy hx (hyoff.trans hxoff.symm)] at hd
    exact ⟨hr₂, ⟨hit.trans hxoff.symm, hd⟩, hmoved.tables⟩
  · exact absurd hxoff (hno x hx)

/-- **`make_new` has put a DIE into the tree**, the last child of the parent given. -/
theorem makeNew_insert (h : Consistent (pre ++ x :: (w ++ rest)) r)
    (hfuel : EnoughFuel (pre ++ x :: (w ++ rest)) fuel) (hw : ∀ m ∈ w, x.depth < m.depth)
    (hrest : ∀ m ∈ rest.head?, m.depth ≤ x.depth) (htag : tag = dwTagCompileUnit ↔ x.depth = 0)
    (hlevel : x.depth + 1 < 2 ^ 16) {parent it : Iterator} (hit : Standing x parent)
    {hasCase : ℕ → Bool} (hrun : makeNew (fuel + 1) hasCase parent tag r = .ok (it, r')) :
    Consistent (pre ++ x :: (w ++ ⟨it.offset, x.depth + 1, tag, true⟩ :: rest)) r' ∧
      Standing ⟨it.offset, x.depth + 1, tag, true⟩ it ∧
      r'.tables =
        { r.tables with attrs := Function.update r.tables.attrs it.offset OrderedMap.empty } := by
  have hx : x ∈ pre ++ x :: (w ++ rest) := by simp
  have hfuel' := hfuel.mono (Nat.le_succ fuel)
  obtain ⟨_, r₁, hspec, hrun⟩ := stateT_bind_eq_ok hrun
  obtain ⟨hr₁, hmoved₁, -⟩ := (enclosingSpec_ifReturns h hx hit.1).of_eq_ok hspec
  split_ifs at hrun with hcase
  · obtain ⟨off, r₂, hconstruct, hrun⟩ := stateT_bind_eq_ok hrun
    obtain ⟨hr₂, hgap, hp, htables₂⟩ := construct_eq_ok hr₁ hfuel' hw hrest htag hlevel hit hconstruct
    have hoff : off < fuel + 1 := by
      obtain ⟨y, hy, hnext⟩ := hgap.next
      have hlt := hfuel.2 y (by
        rw [← List.cons_append, ← List.append_assoc]
        exact List.mem_append_left rest hy)
      omega
    have hlength : (pre ++ x :: (w ++ ⟨off, x.depth + 1, tag, true⟩ :: rest)).length < fuel + 1 := by
      have := hfuel.1
      simp only [List.length_append, List.length_cons] at this ⊢
      omega
    obtain ⟨hr', hstand, htables⟩ := findNew_eq_ok hr₂ hp hoff hlength
      (x := ⟨off, x.depth + 1, tag, true⟩) (by simp) rfl hrun
    obtain rfl : it.offset = off := hstand.1
    refine ⟨hr', hstand, ?_⟩
    rw [htables, htables₂, hmoved₁.tables]
  · exact absurd hrun (by simp [throw, throwThe, MonadExceptOf.throw, StateT.lift])

end Construct

section Calls

variable {hasCase : ℕ → Bool} {t₀ t' : List Node} {r₀ r' : Root} {x n : Node}

/-- The tree with `n` as last child of `x`. -/
def withChild (t : List Node) (x n : Node) : List Node := addLast Node.depth (fun y => y = x) n t

/-- A call of `make_new` that returns: `n` is what it makes below `x`.  A CU is made under the root
position, and any other DIE under a DIE. -/
structure Call (hasCase : ℕ → Bool) (fuel : ℕ) (t : List Node) (r : Root) (x n : Node) (r' : Root) :
    Prop where
  mem : x ∈ t
  unit : n.tag = dwTagCompileUnit ↔ x.depth = 0
  depth : n.depth = x.depth + 1
  level : n.depth < 2 ^ 16
  inMemory : n.inMemory = true
  made : ∃ parent it, Standing x parent ∧
    makeNew (fuel + 1) hasCase parent n.tag r = .ok (it, r') ∧ it.offset = n.offset

/-- The roots that calls of `make_new` lead to, with the trees that they describe.  A DIE may be
looked for in between. -/
inductive Calls (hasCase : ℕ → Bool) (fuel : ℕ) (t₀ : List Node) (r₀ : Root) :
    List Node → Root → Prop
  | nil : Calls hasCase fuel t₀ r₀ t₀ r₀
  | call {t : List Node} {r r' : Root} {x n : Node} (h : Calls hasCase fuel t₀ r₀ t r)
      (hcall : Call hasCase fuel t r x n r') : Calls hasCase fuel t₀ r₀ (withChild t x n) r'
  | find {t : List Node} {r r' : Root} {off : ℕ} {res : Option Iterator}
      (h : Calls hasCase fuel t₀ r₀ t r) (hoff : off < fuel)
      (hfind : find fuel off none false r = .ok (res, r')) : Calls hasCase fuel t₀ r₀ t r'

/-- Where the last child goes. -/
theorem withChild_eq (hx : x ∈ t) : ∃ pre w rest, t = pre ++ x :: (w ++ rest) ∧
    (∀ m ∈ w, x.depth < m.depth) ∧ (∀ m ∈ rest.head?, m.depth ≤ x.depth) ∧
      ∀ n, withChild t x n = pre ++ x :: (w ++ n :: rest) := by
  obtain ⟨pre, l, rfl, hpre⟩ := List.eq_append_cons_of_mem hx
  refine ⟨pre, l.takeWhile (fun y => x.depth < y.depth), after Node.depth (x :: l), ?_,
    fun m hm => by simpa using List.mem_takeWhile_imp hm, fun m hm => ?_, fun n => ?_⟩
  · rw [after, List.takeWhile_append_dropWhile]
  · obtain ⟨l', hl'⟩ := List.head?_eq_some_iff.1 hm
    exact depth_after_le hl'
  · refine addLast_append (by simp) fun y hy => ?_
    simp only [decide_eq_false_iff_not]
    rintro rfl
    exact hpre hy

theorem mem_withChild (hx : x ∈ t) {y : Node} : y ∈ withChild t x n ↔ y = n ∨ y ∈ t := by
  obtain ⟨pre, w, rest, rfl, -, -, heq⟩ := withChild_eq hx
  rw [heq]
  exact mem_insert

theorem length_withChild (hx : x ∈ t) : (withChild t x n).length = t.length + 1 := by
  obtain ⟨pre, w, rest, rfl, -, -, heq⟩ := withChild_eq hx
  rw [heq]
  simp only [List.length_append, List.length_cons]
  omega

theorem EnoughFuel.of_withChild (h : EnoughFuel (withChild t x n) fuel) (hx : x ∈ t) :
    EnoughFuel t fuel := by
  refine ⟨?_, fun y hy => h.2 y ((mem_withChild hx).2 (.inr hy))⟩
  have := h.1
  rw [length_withChild hx] at this
  omega

/-- **A call keeps the invariant**, and the new DIE is the last child of its parent. -/
theorem Call.consistent (h : Consistent t r) (hfuel : EnoughFuel t fuel)
    (hcall : Call hasCase fuel t r x n r') : Consistent (withChild t x n) r' ∧
      IsParent Node.depth (withChild t x n) x n ∧
        ∃ l, n :: l <:+ withChild t x n ∧ Preorder.nextSibling Node.depth (n :: l) = [] := by
  obtain ⟨pre, w, rest, rfl, hw, hrest, heq⟩ := withChild_eq hcall.mem
  obtain ⟨parent, it, hit, hrun, hoff⟩ := hcall.made
  have hn : (⟨it.offset, x.depth + 1, n.tag, true⟩ : Node) = n := by
    rw [hoff, ← hcall.depth, ← hcall.inMemory]
  have hlevel := hcall.level
  rw [hcall.depth] at hlevel
  obtain ⟨hr', -, -⟩ := makeNew_insert h hfuel hw hrest hcall.unit hlevel hit hrun
  rw [hn] at hr'
  have hi : Insertion Node.depth x w n rest := ⟨hw, hrest, hcall.depth⟩
  rw [heq]
  refine ⟨hr', hi.isParent_new, rest, ⟨pre ++ x :: w, by simp⟩, hi.nextSibling_new⟩

/-- A call gives the new DIE no attributes, and leaves the tables otherwise. -/
theorem Call.tables (h : Consistent t r) (hfuel : EnoughFuel t fuel)
    (hcall : Call hasCase fuel t r x n r') : r'.tables =
      { r.tables with attrs := Function.update r.tables.attrs n.offset OrderedMap.empty } := by
  obtain ⟨pre, w, rest, rfl, hw, hrest, -⟩ := withChild_eq hcall.mem
  obtain ⟨parent, it, hit, hrun, hoff⟩ := hcall.made
  have hlevel := hcall.level
  rw [hcall.depth] at hlevel
  rw [← hoff]
  exact (makeNew_insert h hfuel hw hrest hcall.unit hlevel hit hrun).2.2

/-- **After any calls the root knows the tree that they describe.** -/
theorem Calls.consistent (h₀ : Consistent t₀ r₀) (hcalls : Calls hasCase fuel t₀ r₀ t r)
    (hfuel : EnoughFuel t fuel) : Consistent t r := by
  induction hcalls with
  | nil => exact h₀
  | call _ hcall ih =>
    have hsmaller := hfuel.of_withChild hcall.mem
    exact (hcall.consistent (ih hsmaller) hsmaller).1
  | find _ hoff hfind ih =>
    exact ((find_reaches (ih hfuel) hoff hfuel.1 false).unless (c := True) |>.of_eq_ok hfind).1

end Calls

section Agreement

/-- What moving about from the place `x :: l` of `t` comes to, from an iterator that `find` gives. -/
def MovesAgree (fuel : ℕ) (t : List Node) (r : Root) (x : Node) (l : List Node) : Prop :=
  ∃ it r₁, find fuel x.offset none false r = .ok (some it, r₁) ∧
    ∃ it' r₂, withDepth fuel it r₁ = .ok (it', r₂) ∧
      it'.offset = x.offset ∧ it'.depth = some x.depth ∧
      (∃ res r₃, firstChild it' r₂ = .ok (res, r₃) ∧
        IsAt (Preorder.firstChild Node.depth (x :: l)) res) ∧
      (∃ res r₃, nextSibling (withDepth fuel) it' r₂ = .ok (res, r₃) ∧
        IsAt (Preorder.nextSibling Node.depth (x :: l)) res) ∧
      ∀ z, IsParent Node.depth t z x →
        ∃ p r₃, parent fuel it' r₂ = .ok (some p, r₃) ∧ Standing z p

/-- What the root does agrees with the tree `t`: the offsets increase strictly in pre-order, each DIE
is found, at the right depth, and its relatives from there, and a traversal visits every DIE once. -/
structure Agrees (fuel : ℕ) (t : List Node) (r : Root) : Prop where
  sorted : t.Pairwise fun x y => x.offset < y.offset
  moves : ∀ x l, x :: l <:+ t → MovesAgree fuel t r x l
  absent : ∀ off, off < fuel → (∀ x ∈ t, x.offset ≠ off) →
    ∃ r', find fuel off none false r = .ok (none, r')
  traversal : ∃ r', traverse fuel fuel (some Root.begin) r = .ok (t.map Node.offset, r')

theorem Consistent.movesAgree (h : Consistent t r) (hfuel : EnoughFuel t fuel) {x : Node}
    {l : List Node} (hx : x :: l <:+ t) : MovesAgree fuel t r x l := by
  have hmem := mem_of_suffix hx
  obtain ⟨res, r₁, hfind, hr₁, -, hloc, -⟩ :=
    find_reaches h (hfuel.2 x hmem) hfuel.1 false
  rcases hloc with ⟨y, hy, hyoff, hknown, it, rfl, hoff, hd⟩ | ⟨-, hno⟩
  · obtain rfl := h.wellFormed.sorted.eq_of_key_eq hy hmem hyoff
    obtain ⟨it', r₂, hdepth, hr₂, hmoved₂, hoff', hd', -⟩ :=
      withDepth_reaches hr₁ hy hoff hd (hfuel.2 y hy) hfuel.1
    refine ⟨it, r₁, hfind, it', r₂, hdepth, hoff', hd', ?_, ?_, fun z hz => ?_⟩
    · obtain ⟨res, r₃, hrun, -, -, hat, -⟩ := firstChild_reaches hr₂ hx hoff' hd'
      exact ⟨res, r₃, hrun, hat⟩
    · obtain ⟨res, r₃, hrun, -, -, hat, -⟩ :=
        (nextSibling_unless hr₂ hx leavesKnown_withDepth hoff' hd' (c := False) fun h0 hnone => by
          have := hmoved₂.parents _ (hknown h0)
          rw [hnone] at this
          exact absurd this (by simp)).returns id
      exact ⟨res, r₃, hrun, hat⟩
    · obtain ⟨res, r₃, hrun, -, -, ⟨p, rfl, hp⟩, -⟩ :=
        parent_reaches hr₂ hfuel hz ⟨hoff', .inl hd'⟩
      exact ⟨p, r₃, hrun, hp⟩
  · exact absurd rfl (hno x hmem)

/-- **What a root does agrees with the tree it knows.** -/
theorem Consistent.agrees (h : Consistent t r) (hfuel : EnoughFuel t fuel) : Agrees fuel t r where
  sorted := h.wellFormed.sorted
  moves _ _ hx := h.movesAgree hfuel hx
  absent off hoff hno := by
    obtain ⟨res, r', hfind, -, -, hloc, -⟩ := find_reaches h hoff hfuel.1 false
    rcases hloc with ⟨x, hx, hxoff, -⟩ | ⟨rfl, -⟩
    · exact absurd hxoff (hno x hx)
    · exact ⟨r', hfind⟩
  traversal := by
    obtain ⟨offs, r', hrun, -, -, rfl⟩ := traverse_reaches h hfuel
    exact ⟨r', hrun⟩

variable {hasCase : ℕ → Bool} {t₀ : List Node} {r₀ r' : Root} {x n : Node}

/-- **The topology of DIEs in memory.**  After any calls of `make_new` that return, and one call more,
the new DIE is the last child of its parent, and what the root does agrees with the tree that the
calls describe. -/
theorem topology_of_calls (h₀ : Consistent t₀ r₀) (hcalls : Calls hasCase fuel t₀ r₀ t r)
    (hcall : Call hasCase fuel t r x n r') (hfuel : EnoughFuel (withChild t x n) fuel) :
    IsParent Node.depth (withChild t x n) x n ∧
      (∃ l, n :: l <:+ withChild t x n ∧ Preorder.nextSibling Node.depth (n :: l) = []) ∧
        Agrees fuel (withChild t x n) r' := by
  have hsmaller := hfuel.of_withChild hcall.mem
  obtain ⟨hr', hparent, hlast⟩ := hcall.consistent (hcalls.consistent h₀ hsmaller) hsmaller
  exact ⟨hparent, hlast, hr'.agrees hfuel⟩

end Agreement

section Examples

/-- A new root for the small file, whose unit's DIE is at `unit`. -/
def smallRoot (unit child : ℕ) : Root :=
  Root.make (some (smallFile unit child)) (fun _ => OrderedMap.empty) false

/-- A DIE made below the unit of the small file. -/
theorem call_smallRoot : ∃ r', Call (fun _ => true) 30 smallTree (smallRoot 11 20)
    ⟨11, 1, dwTagCompileUnit, false⟩ ⟨21, 2, 0x24, true⟩ r' := by
  obtain ⟨it, r', hrun, hoff⟩ : ∃ it r', makeNew 31 (fun _ => true) ⟨11, some 1, true⟩ 0x24
      (smallRoot 11 20) = .ok (it, r') ∧ it.offset = 21 := ⟨_, _, rfl, rfl⟩
  exact ⟨r', by decide, by decide, rfl, by decide, rfl, _, it, ⟨rfl, .inl rfl⟩, hrun, hoff⟩

/-- The topology after it. -/
theorem topology_smallRoot : ∃ r',
    IsParent Node.depth (withChild smallTree ⟨11, 1, dwTagCompileUnit, false⟩ ⟨21, 2, 0x24, true⟩)
        ⟨11, 1, dwTagCompileUnit, false⟩ ⟨21, 2, 0x24, true⟩ ∧
      (∃ l, ⟨21, 2, 0x24, true⟩ :: l <:+
          withChild smallTree ⟨11, 1, dwTagCompileUnit, false⟩ ⟨21, 2, 0x24, true⟩ ∧
        Preorder.nextSibling Node.depth ((⟨21, 2, 0x24, true⟩ : Node) :: l) = []) ∧
      Agrees 30 (withChild smallTree ⟨11, 1, dwTagCompileUnit, false⟩ ⟨21, 2, 0x24, true⟩) r' := by
  obtain ⟨r', hcall⟩ := call_smallRoot
  exact ⟨r', topology_of_calls consistent_smallRoot .nil hcall ⟨by decide, by decide⟩⟩

/-- A DIE is made below the first unit of the file with a partial unit, before `query`. -/
def afterMaking {α : Type} (query : RootM α) : Except Fault α :=
  Prod.fst <$> (do
    let unit ← firstChild Root.begin
    let _ ← makeNew 100 (fun _ => true) (unit.getD Root.begin) 0x24
    query) (Root.make (some partialFile) (fun _ => OrderedMap.empty) false)

/-- Where the unit's DIE is 23 bytes behind its header, a DIE can be made below it, but then a
traversal from the root position fails.  In a file with a partial unit a DIE can be made below the
unit before it, but a traversal leaves out the unit behind it, and `find` does not find that. -/
theorem traverse_wideHeader :
    (∃ unit r it r', firstChild Root.begin (smallRoot 23 32) = .ok (some unit, r) ∧
      makeNew 100 (fun _ => true) unit 0x24 r = .ok (it, r') ∧
      traverse 100 100 (some Root.begin) r' = .error .assertFailed) ∧
    afterMaking (traverse 100 100 (some Root.begin)) = .ok [0, 11, 12, 111] ∧
    afterMaking (find 100 211 none false) = .ok none :=
  ⟨⟨_, _, _, _, rfl, rfl, rfl⟩, by decide +kernel, by decide +kernel⟩

end Examples

end Dies
end Dwarfpp
