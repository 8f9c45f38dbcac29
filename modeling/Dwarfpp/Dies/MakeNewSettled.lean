/-
# A new DIE and the parent cache

`make_new` goes about the tree to find the offset to issue, and enters the parent of the new DIE.
Called with a DIE from which the cached parents lead to the root position, it leaves a root where
they do so from the new DIE too (`makeNew_withChild`).
-/

import Dwarfpp.Dies.ParentCache
import Dwarfpp.Dies.Topology

namespace Dwarfpp
namespace Dies

open Lib
open Lib.Preorder hiding firstChild nextSibling

variable {t : List Node} {r r' : Root} {fuel : ℕ} {it : Iterator} {depth : Option ℕ}

section Siblings

/-- `next` goes to where there is a way up, and keeps the depth. -/
def Strides (next : Iterator → RootM (Option Iterator)) : Prop :=
  ∀ (r : Root) (it : Iterator), Rooted r → it.depth.isSome = true →
    StaysRooted (next it) r fun res r' => Leads it.depth r' res

theorem strides_moveToNextSibling : Strides (moveToNextSibling (withDepth fuel)) :=
  fun _ _ h hd => moveToNextSibling_rooted leavesKnown_withDepth h hd

theorem skipToUnit_rooted (h : Rooted r) (hdepth : depth.isSome = true) {res : Option Iterator}
    (hres : Leads depth r res) {n : ℕ} :
    StaysRooted (skipToUnit fuel n res) r fun res' r' => Leads depth r' res' := by
  induction n generalizing r res with
  | zero => exact staysRooted_error rfl
  | succ n ih =>
    cases res with
    | none => exact StateReturnsUnless.pure h (leads_none _ _)
    | some it =>
      obtain ⟨-, rfl⟩ := hres it rfl
      refine StateReturnsUnless.get_bind ?_
      split_ifs
      · exact StateReturnsUnless.pure h hres
      · refine (strides_moveToNextSibling r it h hdepth).bind ?_
        rintro next r₁ hr₁ - hnext
        exact ih hr₁ hnext

theorem strides_nextUnit : Strides (nextUnit fuel) := by
  intro r it h hd
  refine (strides_moveToNextSibling r it h hd).bind ?_
  rintro next r₁ hr₁ - hnext
  exact skipToUnit_rooted hr₁ hd hnext

variable {next : Iterator → RootM (Option Iterator)}

theorem countFrom_rooted (hnext : Strides next) (h : Rooted r) (hdepth : depth.isSome = true)
    {res : Option Iterator} (hres : Leads depth r res) {n : ℕ} :
    StaysRooted (countFrom next n res) r fun _ _ => True := by
  induction n generalizing r res with
  | zero => exact staysRooted_error rfl
  | succ n ih =>
    cases res with
    | none => exact StateReturnsUnless.pure h trivial
    | some it =>
      obtain ⟨-, rfl⟩ := hres it rfl
      refine (hnext r it h hdepth).bind ?_
      rintro rest r₁ hr₁ - hrest
      refine (ih hr₁ hrest).bind ?_
      rintro k r₂ hr₂ - -
      exact StateReturnsUnless.pure hr₂ trivial

theorem advanceBy_rooted (hnext : Strides next) (h : Rooted r) (hdepth : it.depth.isSome = true)
    (hit : Known r it.offset) {k : ℕ} :
    StaysRooted (advanceBy next k it) r fun it' r' => Known r' it'.offset := by
  induction k generalizing r it with
  | zero => exact StateReturnsUnless.pure h hit
  | succ k ih =>
    refine (hnext r it h hdepth).bind ?_
    rintro res r₁ hr₁ - hres
    cases res with
    | none => exact staysRooted_error rfl
    | some it' =>
      obtain ⟨hk, hd⟩ := hres it' rfl
      exact ih hr₁ (hd ▸ hdepth) hk

theorem lastSibling_rooted (h : Rooted r) (hdepth : it.depth.isSome = true)
    (hit : Known r it.offset) {n : ℕ} :
    StaysRooted (lastSibling fuel n it) r fun it' r' => Leads it.depth r' (some it') := by
  induction n generalizing r it with
  | zero => exact staysRooted_error rfl
  | succ n ih =>
    refine (strides_moveToNextSibling r it h hdepth).bind ?_
    rintro res r₁ hr₁ hkept hres
    cases res with
    | none => exact StateReturnsUnless.pure hr₁ (leads_some (hit.mono hkept) rfl)
    | some it' =>
      obtain ⟨hk, hd⟩ := hres it' rfl
      refine (ih hr₁ (hd ▸ hdepth) hk).mono ?_
      rintro it'' r₂ - - hlast
      rwa [hd] at hlast

theorem highestOffsetIter_rooted (h : Rooted r) (hdepth : it.depth.isSome = true)
    (hit : Known r it.offset) {seen : ℕ → Option ℕ} {n : ℕ} :
    StaysRooted (highestOffsetIter fuel n it seen) r fun res r' => Known r' res.1.offset := by
  induction n generalizing r it seen with
  | zero => exact staysRooted_error rfl
  | succ n ih =>
    have hchild : (it.depth.map fun d => toUShort (d + 1)).isSome = true := by
      rwa [Option.isSome_map]
    refine (firstChild_rooted h hit).bind ?_
    rintro children r₁ hr₁ hkept₁ hchildren
    refine (countFrom_rooted strides_moveToNextSibling hr₁ hchild hchildren).bind ?_
    rintro count r₂ hr₂ hkept₂ -
    cases children with
    | none => exact StateReturnsUnless.pure hr₂ ((hit.mono hkept₁).mono hkept₂)
    | some first =>
      obtain ⟨hk, hd⟩ := hchildren first rfl
      rw [← hd] at hchild
      refine (staysRooted_require hr₂).bind ?_
      rintro - r₃ - - ⟨-, rfl⟩
      refine (lastSibling_rooted hr₂ hchild (hk.mono hkept₂)).bind ?_
      rintro lastSib r₄ hr₄ - hlast
      obtain ⟨hkl, hdl⟩ := hlast lastSib rfl
      exact ih hr₄ (hdl ▸ hchild) hkl

end Siblings

section Spec

theorem specHere_rooted (h : Rooted r) : StaysRooted (specHere it) r fun _ _ => True := by
  refine StateReturnsUnless.get_bind ?_
  split_ifs
  · exact (staysRooted_require h).mono fun _ _ _ _ _ => trivial
  · refine (pos_rooted h (by simp) (by simp)).bind ?_
    rintro cu r₁ hr₁ - -
    exact (staysRooted_require hr₁).mono fun _ _ _ _ _ => trivial
  · exact StateReturnsUnless.pure h trivial

theorem enclosingSpec_rooted (h : Rooted r) : StaysRooted (enclosingSpec it) r fun _ _ => True := by
  unfold enclosingSpec
  split_ifs
  · exact StateReturnsUnless.pure h trivial
  · refine StateReturnsUnless.get_bind ((pos_rooted h ?_ (by simp)).bind ?_)
    · rintro p ⟨⟩
      exact .inl rfl
    · rintro cu r₁ hr₁ - -
      exact specHere_rooted hr₁

theorem parentSpec_rooted (h : Rooted r) : StaysRooted (parentSpec it) r fun _ _ => True := by
  unfold parentSpec
  split_ifs
  · exact StateReturnsUnless.pure h trivial
  · exact specHere_rooted h

end Spec

section Issue

variable {pre w rest : List Node} {x : Node} {off : ℕ}

/-- Where a root knows the tree, only the cached parents are left to look at. -/
theorem rooted_of_consistent (h : Consistent t r)
    (hparents : ∀ c p, r.parentOf c = some p → Known r p) : Rooted r :=
  ⟨hparents, fun p c hc => .inr (h.children p c hc).1, fun a b hb => .inr (h.siblings a b hb).1⟩

/-- No cached parent is lost, and all of them lead to the root position; the edges are left open. -/
structure ParentsLead (r r' : Root) : Prop where
  kept : ParentsKept r r'
  parents : ∀ c p, r'.parentOf c = some p → Known r' p

theorem Rooted.parentsLead {r₁ : Root} (h : Rooted r₁) (hkept : ParentsKept r r₁)
    (hdbg : r'.dbg = r₁.dbg) (hparents : r'.parentOf = r₁.parentOf) : ParentsLead r r' := by
  refine ⟨⟨hdbg.trans hkept.dbg, fun c hc => ?_⟩, fun c p hp => ?_⟩
  · rw [hparents]
    exact hkept.parents c hc
  · rw [hparents] at hp
    rw [Known, hparents]
    exact h.parents c p hp

/-- The edge entered leaves the parents as they are. -/
theorem enterEdge_same {it highest : Iterator} {seen : ℕ → Option ℕ} {u : Unit}
    (hrun : enterEdge it highest seen off r = .ok (u, r')) :
    r'.dbg = r.dbg ∧ r'.parentOf = r.parentOf := by
  unfold enterEdge at hrun
  split_ifs at hrun
  · obtain rfl := (Prod.mk.inj (Except.ok.inj hrun)).2
    exact ⟨rfl, rfl⟩
  · cases hseen : seen it.offset with
    | none =>
      rw [hseen] at hrun
      exact absurd hrun (by simp [throw, throwThe, MonadExceptOf.throw, StateT.lift])
    | some lastSib =>
      rw [hseen] at hrun
      obtain ⟨_, r₁, hreq, hset⟩ := stateT_bind_eq_ok (stateT_get_bind_eq_ok hrun)
      rw [(require_eq_ok hreq).2] at hset
      obtain rfl := (Prod.mk.inj (Except.ok.inj hset)).2
      exact ⟨rfl, rfl⟩

/-- What is issued is entered below a DIE from which there is a way up. -/
theorem freshOffsetUnder_parents (h : Settled (pre ++ x :: (w ++ rest)) r)
    (hfuel : EnoughFuel (pre ++ x :: (w ++ rest)) fuel) (hw : ∀ m ∈ w, x.depth < m.depth)
    (hrest : ∀ m ∈ rest.head?, m.depth ≤ x.depth) (hoff : it.offset = x.offset)
    (hd : it.depth = some x.depth) (hk : Known r x.offset)
    (hrun : freshOffsetUnder fuel it r = .ok (off, r')) : ParentsLead r r' := by
  have hx : x :: (w ++ rest) <:+ pre ++ x :: (w ++ rest) := List.suffix_append _ _
  have hdepth : it.depth.isSome = true := by
    rw [hd]
    rfl
  obtain ⟨_, r₁, hfirst, hrun⟩ := stateT_bind_eq_ok hrun
  obtain ⟨hr₁, hkept₁, -⟩ := (firstChild_rooted h.rooted (hoff ▸ hk)).of_eq_ok hfirst
  obtain ⟨hc₁, -, -⟩ :=
    (firstChild_reaches h.consistent hx hoff hd).unless (c := True) |>.of_eq_ok hfirst
  obtain ⟨⟨highest, seen⟩, r₂, hhigh, hrun⟩ := stateT_bind_eq_ok hrun
  have hk₁ := hk.mono hkept₁
  obtain ⟨hr₂, hkept₂, hkh⟩ :=
    (highestOffsetIter_rooted hr₁ hdepth (hoff ▸ hk₁)).of_eq_ok hhigh
  obtain ⟨hc₂, -, ⟨z, q, hz, hzoff, hzd⟩, -, -⟩ :=
    (highestOffsetIter_ifReturns hc₁ hx hw hrest hoff hd).of_eq_ok hhigh
  dsimp only at hzoff hzd hkh
  obtain ⟨next, r₃, hnext, hrun⟩ := stateT_bind_eq_ok hrun
  have hzs : z :: rest <:+ pre ++ x :: (w ++ rest) := by
    refine ⟨pre ++ q, ?_⟩
    rw [← List.cons_append, hz]
    simp
  obtain ⟨hr₃, hmoved₃, -⟩ := ((moving_settled hfuel).dfIncrement hfuel ⟨hc₂, hr₂⟩ hzs
    ⟨hzoff, .inl hzd⟩ (hzoff ▸ hkh)).of_eq_ok hnext
  obtain ⟨_, r₄, hreq, hrun⟩ := stateT_bind_eq_ok hrun
  rw [(require_eq_ok hreq).2] at hrun
  obtain ⟨_, r₅, hedge, hparent⟩ := stateT_bind_eq_ok hrun
  obtain ⟨-, rfl⟩ := Prod.mk.inj (Except.ok.inj hparent)
  obtain ⟨hdbg, hsame⟩ := enterEdge_same hedge
  have hkept₃ := hmoved₃.kept
  have hentered := hr₃.rooted.enterParent (highest.offset + 1)
    (p := it.offset) (hoff ▸ (hk₁.mono hkept₂).mono hkept₃)
  refine hentered.parentsLead ?_ hdbg ?_
  · exact IsTrans.trans _ _ _ hkept₁ (IsTrans.trans _ _ _ hkept₂
      (IsTrans.trans _ _ _ hkept₃ (kept_enterParent r₃ _ _)))
  · rw [← hsame]

/-- Going on to the end, a traversal keeps the way up from where it is. -/
theorem lastOffset_settled (hfuel : EnoughFuel t fuel) (h : Settled t r) {s : List Node}
    (hs : s <:+ t) {res : Option Iterator} (hat : TraversalAt s res)
    (hk : ∀ x ∈ s.head?, Known r x.offset) {off n : ℕ} :
    StateReturnsUnless (Settled t) Moved True (lastOffset fuel n off res) r fun _ _ => True := by
  induction n generalizing r s res off with
  | zero => exact .inr ⟨trivial, .outOfSteps, rfl⟩
  | succ n ih =>
    cases s with
    | nil =>
      obtain rfl : res = none := hat
      exact StateReturnsUnless.pure h trivial
    | cons x l =>
      obtain ⟨it, rfl, hit⟩ := hat
      refine (((moving_settled hfuel).dfIncrement hfuel h hs hit (hk x rfl)).returns id).unless.bind ?_
      rintro next r₁ hr₁ - ⟨hnext, hknown⟩
      exact ih hr₁ ((List.suffix_cons x l).trans hs) (.of_isAt hnext) fun y hy => .inr (hknown y hy)

theorem PlaceAt.iterate {d : ℕ} {s : List Node} (h : PlaceAt t d s) (k : ℕ) :
    PlaceAt t d ((Preorder.nextSibling Node.depth)^[k] s) := by
  induction k with
  | zero => exact h
  | succ k ih =>
    rw [Function.iterate_succ_apply']
    cases hs : (Preorder.nextSibling Node.depth)^[k] s with
    | nil => exact ⟨List.nil_suffix, fun y hy => by simp [Preorder.nextSibling] at hy⟩
    | cons x l =>
      rw [hs] at ih
      exact ih.nextSibling

theorem freshCuOffset_parents (h : Settled (rootNode :: w) r)
    (hfuel : EnoughFuel (rootNode :: w) fuel) (hrun : freshCuOffset fuel r = .ok (off, r')) :
    ParentsLead r r' := by
  have hx : rootNode :: w <:+ rootNode :: w := List.suffix_rfl
  have hs : PlaceAt (rootNode :: w) 1 (Preorder.firstChild Node.depth (rootNode :: w)) :=
    placeAt_firstChild hx
  have hbegin : (Root.begin.depth.map fun d => toUShort (d + 1)).isSome = true := rfl
  obtain ⟨child, r₁, hfirst, hrun⟩ := stateT_bind_eq_ok hrun
  obtain ⟨hr₁, hkept₁, hchild⟩ := (firstChild_rooted h.rooted (.inl rfl)).of_eq_ok hfirst
  obtain ⟨hc₁, -, hat, -⟩ :=
    (firstChild_reaches h.consistent hx rfl rfl).unless (c := True) |>.of_eq_ok hfirst
  obtain ⟨first, r₂, hskip, hrun⟩ := stateT_bind_eq_ok hrun
  obtain ⟨hr₂, hkept₂, hlead⟩ := (skipToUnit_rooted hr₁ hbegin hchild).of_eq_ok hskip
  obtain ⟨hc₂, -, hat⟩ := (skipToUnit_ifReturns hc₁ hs hat).of_eq_ok hskip
  cases first with
  | none =>
    obtain ⟨-, rfl⟩ := Prod.mk.inj (Except.ok.inj hrun)
    exact (hr₂.enterParent 1 (p := 0) (.inl rfl)).parentsLead (IsTrans.trans _ _ _ hkept₁
      (IsTrans.trans _ _ _ hkept₂ (kept_enterParent r₂ 1 0))) rfl rfl
  | some first =>
    obtain ⟨hkf, hdf⟩ := hlead first rfl
    have hdepth : first.depth.isSome = true := hdf ▸ hbegin
    obtain ⟨k, r₃, hcount, hrun⟩ := stateT_bind_eq_ok hrun
    obtain ⟨hr₃, hkept₃, -⟩ := (countFrom_rooted strides_nextUnit hr₂ hbegin hlead).of_eq_ok hcount
    obtain ⟨hc₃, -, -⟩ := (countFrom_ifReturns walks_nextUnit hc₂ hs hat).of_eq_ok hcount
    obtain ⟨lastCu, r₄, hadvance, hrun⟩ := stateT_bind_eq_ok hrun
    obtain ⟨hr₄, hkept₄, hkl⟩ :=
      (advanceBy_rooted strides_nextUnit hr₃ hdepth (hkf.mono hkept₃)).of_eq_ok hadvance
    obtain ⟨hc₄, -, hlast⟩ := (advanceBy_ifReturns walks_nextUnit hc₃ hs hat).of_eq_ok hadvance
    have hplace := hs.iterate (k - 1)
    cases hy : (Preorder.nextSibling Node.depth)^[k - 1]
        (Preorder.firstChild Node.depth (rootNode :: w)) with
    | nil =>
      rw [hy] at hlast
      exact absurd hlast (by simp [IsAt])
    | cons y a =>
      rw [hy] at hlast hplace
      obtain ⟨it', heq, hyoff, -⟩ := hlast
      obtain rfl := Option.some.inj heq
      obtain ⟨i, r₅, hpos, hrun⟩ := stateT_bind_eq_ok hrun
      obtain ⟨hr₅, hkept₅, -⟩ := (pos_rooted hr₄ (by simp) (by simp)).of_eq_ok hpos
      rw [hyoff] at hpos
      obtain ⟨hc₅, -, hi⟩ := (posUnit_reaches hc₄ (mem_of_suffix hplace.1) (hplace.2 y rfl)
        (.inl rfl)).unless (c := True) |>.of_eq_ok hpos
      obtain ⟨off', r₆, hoffset, hrun⟩ := stateT_bind_eq_ok hrun
      obtain ⟨hr₆, hmoved₆, -⟩ := (lastOffset_settled hfuel ⟨hc₅, hr₅⟩ (s := y :: a) hplace.1
        ⟨i, rfl, hi⟩ (by rintro z ⟨⟩; exact hyoff ▸ hkl.mono hkept₅)).of_eq_ok hoffset
      obtain ⟨_, r₇, hreq, hrun⟩ := stateT_bind_eq_ok hrun
      rw [(require_eq_ok hreq).2] at hrun
      obtain ⟨_, r₈, hreq, hrun⟩ := stateT_bind_eq_ok (stateT_get_bind_eq_ok hrun)
      rw [(require_eq_ok hreq).2] at hrun
      obtain ⟨-, rfl⟩ := Prod.mk.inj (Except.ok.inj hrun)
      exact (hr₆.rooted.enterParent (off' + 1) (p := 0) (.inl rfl)).parentsLead
        (IsTrans.trans _ _ _ hkept₁ (IsTrans.trans _ _ _ hkept₂ (IsTrans.trans _ _ _ hkept₃
          (IsTrans.trans _ _ _ hkept₄ (IsTrans.trans _ _ _ hkept₅ (IsTrans.trans _ _ _ hmoved₆.kept
            (kept_enterParent r₆ (off' + 1) 0))))))) rfl rfl

theorem freshOffset_parents (h : Settled (pre ++ x :: (w ++ rest)) r)
    (hfuel : EnoughFuel (pre ++ x :: (w ++ rest)) fuel) (hw : ∀ m ∈ w, x.depth < m.depth)
    (hrest : ∀ m ∈ rest.head?, m.depth ≤ x.depth) (hoff : it.offset = x.offset)
    (hd : it.depth = some x.depth) (hk : Known r x.offset)
    (hrun : freshOffset fuel it r = .ok (off, r')) : ParentsLead r r' := by
  unfold freshOffset at hrun
  split_ifs at hrun
  · obtain ⟨l, hl, -⟩ := h.consistent.wellFormed.rooted
    rw [hl] at h hfuel
    exact freshCuOffset_parents h hfuel hrun
  · exact freshOffsetUnder_parents h hfuel hw hrest hoff hd hk hrun

end Issue

section Construct

variable {pre w rest : List Node} {x : Node} {off tag : ℕ} {parent : Iterator}

theorem construct_settled (h : Settled (pre ++ x :: (w ++ rest)) r)
    (hfuel : EnoughFuel (pre ++ x :: (w ++ rest)) fuel) (hw : ∀ m ∈ w, x.depth < m.depth)
    (hrest : ∀ m ∈ rest.head?, m.depth ≤ x.depth) (htag : tag = dwTagCompileUnit ↔ x.depth = 0)
    (hlevel : x.depth + 1 < 2 ^ 16) (hit : Standing x parent) (hk : Known r x.offset)
    (hrun : construct fuel parent tag r = .ok (off, r')) :
    Settled (pre ++ x :: (w ++ ⟨off, x.depth + 1, tag, true⟩ :: rest)) r' ∧ ParentsKept r r' := by
  have hx : x ∈ pre ++ x :: (w ++ rest) := by simp
  have hr' := (construct_eq_ok h.consistent hfuel hw hrest htag hlevel hit hrun).1
  obtain ⟨it, r₁, hdepth, hrun⟩ := stateT_bind_eq_ok hrun
  obtain ⟨hr₁, hmoved₁, hoff, hd⟩ :=
    (withDepth_arrives hfuel h hx hit).unless (c := True) |>.of_eq_ok hdepth
  obtain ⟨_, r₂, hspec, hrun⟩ := stateT_bind_eq_ok hrun
  obtain ⟨hr₂, hkept₂, -⟩ := (parentSpec_rooted hr₁.rooted).of_eq_ok hspec
  obtain ⟨hc₂, -, -⟩ := (parentSpec_ifReturns hr₁.consistent hx hoff hd).of_eq_ok hspec
  obtain ⟨off', r₃, hfresh, henter⟩ := stateT_bind_eq_ok hrun
  obtain ⟨rfl, rfl⟩ := Prod.mk.inj (Except.ok.inj henter)
  have hkept := IsTrans.trans _ _ _ hmoved₁.kept hkept₂
  have hlead := freshOffset_parents ⟨hc₂, hr₂⟩ hfuel hw hrest hoff hd (hk.mono hkept) hfresh
  have hkept' := IsTrans.trans _ _ _ hkept hlead.kept
  exact ⟨⟨hr', rooted_of_consistent hr' hlead.parents⟩, hkept'.dbg, hkept'.parents⟩

theorem makeNew_settled (h : Settled (pre ++ x :: (w ++ rest)) r)
    (hfuel : EnoughFuel (pre ++ x :: (w ++ rest)) fuel) (hw : ∀ m ∈ w, x.depth < m.depth)
    (hrest : ∀ m ∈ rest.head?, m.depth ≤ x.depth) (htag : tag = dwTagCompileUnit ↔ x.depth = 0)
    (hlevel : x.depth + 1 < 2 ^ 16) (hit : Standing x parent) (hk : Known r x.offset)
    {hasCase : ℕ → Bool} (hrun : makeNew (fuel + 1) hasCase parent tag r = .ok (it, r')) :
    Rooted r' ∧ ParentsKept r r' ∧ Known r' it.offset ∧
      (∃ y ∈ pre ++ x :: (w ++ rest), it.offset = y.offset + 1) ∧
        ∀ y ∈ pre ++ x :: (w ++ rest), y.offset ≠ it.offset := by
  have hx : x ∈ pre ++ x :: (w ++ rest) := by simp
  have hfuel' := hfuel.mono (Nat.le_succ fuel)
  obtain ⟨_, r₁, hspec, hrun⟩ := stateT_bind_eq_ok hrun
  obtain ⟨hr₁, hkept₁, -⟩ := (enclosingSpec_rooted h.rooted).of_eq_ok hspec
  obtain ⟨hc₁, -, -⟩ := (enclosingSpec_ifReturns h.consistent hx hit.1).of_eq_ok hspec
  split_ifs at hrun
  · obtain ⟨off, r₂, hconstruct, hrun⟩ := stateT_bind_eq_ok hrun
    obtain ⟨-, hgap, hp, -⟩ := construct_eq_ok hc₁ hfuel' hw hrest htag hlevel hit hconstruct
    obtain ⟨hr₂, hkept₂⟩ := construct_settled ⟨hc₁, hr₁⟩ hfuel' hw hrest htag hlevel hit
      (hk.mono hkept₁) hconstruct
    obtain ⟨y, hy, hnext⟩ := hgap.next
    replace hy : y ∈ pre ++ x :: (w ++ rest) := by
      rw [← List.cons_append, ← List.append_assoc]
      exact List.mem_append_left rest hy
    have hlt := hfuel.2 y hy
    have hoff : off < fuel + 1 := by omega
    have hfresh : ∀ z ∈ pre ++ x :: (w ++ rest), z.offset ≠ off := by
      intro z hz
      rw [← List.cons_append, ← List.append_assoc] at hz
      rcases List.mem_append.1 hz with hz | hz
      · exact (hgap.above z hz).ne
      · exact (hgap.below z hz).ne'
    have hlength : (pre ++ x :: (w ++ ⟨off, x.depth + 1, tag, true⟩ :: rest)).length < fuel + 1 := by
      have := hfuel.1
      simp only [List.length_append, List.length_cons] at this ⊢
      omega
    have hfound : it.offset = off := (findNew_eq_ok hr₂.consistent hp hoff hlength
      (x := ⟨off, x.depth + 1, tag, true⟩) (by simp) rfl hrun).2.1.1
    -- The entry for the new DIE is there already.
    have hsame : { r₂ with
        parentOf := Function.update r₂.parentOf off
          ((r₂.parentOf off).or (some parent.offset)) } = r₂ := by
      rw [hp, Option.some_or, ← hp, Function.update_eq_self]
    obtain ⟨_, r₃, hmodify, hrun⟩ := stateT_bind_eq_ok hrun
    have hr₃ : r₃ = r₂ := (Prod.mk.inj (Except.ok.inj hmodify)).2.symm.trans hsame
    rw [hr₃] at hrun
    obtain ⟨res, r₄, hfind, hrun⟩ := stateT_bind_eq_ok hrun
    obtain ⟨hr₄, hkept₄, -⟩ := (find_rooted hr₂ hoff false).of_eq_ok hfind
    cases res with
    | none => exact absurd hrun (by simp [throw, throwThe, MonadExceptOf.throw, StateT.lift])
    | some found =>
      obtain ⟨rfl, rfl⟩ := Prod.mk.inj (Except.ok.inj hrun)
      rw [hfound]
      exact ⟨hr₄, IsTrans.trans _ _ _ hkept₁ (IsTrans.trans _ _ _ hkept₂ hkept₄),
        (known_of_some hp).mono hkept₄, ⟨y, hy, hnext⟩, hfresh⟩
  · exact absurd hrun (by simp [throw, throwThe, MonadExceptOf.throw, StateT.lift])

/-- **`make_new` keeps the way up**, from all DIEs there were and from the new one. -/
theorem makeNew_withChild {t : List Node} {x : Node} {parent : Iterator} {tag : ℕ}
    (h : Settled t r) (hfuel : EnoughFuel t fuel) (hx : x ∈ t) (hit : Standing x parent)
    (hk : Known r x.offset) (htag : tag = dwTagCompileUnit ↔ x.depth = 0)
    (hlevel : x.depth + 1 < 2 ^ 16) {hasCase : ℕ → Bool}
    (hrun : makeNew (fuel + 1) hasCase parent tag r = .ok (it, r')) :
    Settled (withChild t x ⟨it.offset, x.depth + 1, tag, true⟩) r' ∧ ParentsKept r r' ∧
      Standing ⟨it.offset, x.depth + 1, tag, true⟩ it ∧ Known r' it.offset ∧
        (∃ y ∈ t, it.offset = y.offset + 1) ∧ (∀ y ∈ t, y.offset ≠ it.offset) ∧
          r'.tables = { r.tables with
            attrs := Function.update r.tables.attrs it.offset OrderedMap.empty } := by
  obtain ⟨pre, w, rest, rfl, hw, hrest, heq⟩ := withChild_eq hx
  obtain ⟨hr', hstand, htables⟩ :=
    makeNew_insert h.consistent hfuel hw hrest htag hlevel hit hrun
  obtain ⟨hrooted, hkept, hknown, hnext, hfresh⟩ :=
    makeNew_settled h hfuel hw hrest htag hlevel hit hk hrun
  rw [heq]
  exact ⟨⟨hr', hrooted⟩, hkept, hstand, hknown, hnext, hfresh, htables⟩

end Construct

end Dies
end Dwarfpp
