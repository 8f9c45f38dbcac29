/-
# The cached parents lead to the root position

Whoever's parent a root has cached, that parent's is cached too, up to the root position, and the
cached edges lead to such DIEs only (`Rooted`).  Nothing that moves about the tree from a DIE like
that breaks it, whatever libdwarf answers.  Only `pos` takes a word for the parent: where it is told
depth 2, it enters what libdwarf names as the unit (`pos_rooted`).
-/

import Dwarfpp.Dies.MakeNew

namespace Dwarfpp
namespace Dies

open Lib
open Lib.Preorder hiding firstChild nextSibling

/-- The parent of the DIE at the offset is cached, or there is none. -/
def Known (r : Root) (off : ℕ) : Prop := off = 0 ∨ (r.parentOf off).isSome = true

/-- **The cached parents lead to the root position**, and the cached edges to DIEs from which they
do. -/
structure Rooted (r : Root) : Prop where
  parents : ∀ c p, r.parentOf c = some p → Known r p
  children : ∀ p c, r.firstChildOf p = some c → Known r c
  siblings : ∀ a b, r.nextSiblingOf a = some b → Known r b

theorem rooted_make (dbg : Option Libdwarf) (attrs : ℕ → AttributeMap) (complete : Bool) :
    Rooted (Root.make dbg attrs complete) where
  parents c p hp := absurd hp (by simp [Root.make])
  children p c hc := absurd hc (by simp [Root.make])
  siblings a b hb := absurd hb (by simp [Root.make])

/-- The root reads the same file, and no cached parent is lost. -/
structure ParentsKept (r r' : Root) : Prop where
  dbg : r'.dbg = r.dbg
  parents : ∀ c, (r.parentOf c).isSome = true → (r'.parentOf c).isSome = true

instance : Std.Refl ParentsKept := ⟨fun _ => ⟨rfl, fun _ h => h⟩⟩

instance : IsTrans Root ParentsKept :=
  ⟨fun _ _ _ h h' => ⟨h'.dbg.trans h.dbg, fun c hc => h'.parents c (h.parents c hc)⟩⟩

/-- If the computation returns, the cached parents still lead to the root position. -/
abbrev StaysRooted {α : Type} (x : RootM α) (r : Root) (post : α → Root → Prop) : Prop :=
  StateReturnsUnless Rooted ParentsKept True x r post

variable {r r' : Root} {it : Iterator}

theorem Known.mono {off : ℕ} (h : Known r off) (hk : ParentsKept r r') : Known r' off :=
  h.imp_right (hk.parents off)

theorem known_of_some {c p : ℕ} (h : r.parentOf c = some p) : Known r c := by
  right
  rw [h]
  rfl

section Enter

theorem kept_enterParent (r : Root) (c p : ℕ) :
    ParentsKept r { r with parentOf := Function.update r.parentOf c (some p) } :=
  ⟨rfl, fun _ hc => isSome_update hc⟩

/-- A parent may be entered from which there is a way up. -/
theorem Rooted.enterParent (h : Rooted r) (c : ℕ) {p : ℕ} (hp : Known r p) :
    Rooted { r with parentOf := Function.update r.parentOf c (some p) } := by
  have hk := kept_enterParent r c p
  refine ⟨fun c' p' hc => ?_, fun a b hb => (h.children a b hb).mono hk,
    fun a b hb => (h.siblings a b hb).mono hk⟩
  dsimp only at hc
  by_cases heq : c' = c
  · rw [heq, Function.update_self] at hc
    rw [← Option.some.inj hc]
    exact hp.mono hk
  · rw [Function.update_of_ne heq] at hc
    exact (h.parents c' p' hc).mono hk

/-- An edge may be entered to a DIE from which there is a way up. -/
theorem Rooted.enterChild (h : Rooted r) (p : ℕ) {c : ℕ} (hc : Known r c) :
    Rooted { r with firstChildOf := Function.update r.firstChildOf p (some c) } := by
  refine ⟨h.parents, fun a b hb => ?_, h.siblings⟩
  dsimp only at hb
  by_cases heq : a = p
  · rw [heq, Function.update_self] at hb
    rw [← Option.some.inj hb]
    exact hc
  · rw [Function.update_of_ne heq] at hb
    exact h.children a b hb

theorem Rooted.enterSibling (h : Rooted r) (p : ℕ) {c : ℕ} (hc : Known r c) :
    Rooted { r with nextSiblingOf := Function.update r.nextSiblingOf p (some c) } := by
  refine ⟨h.parents, h.children, fun a b hb => ?_⟩
  dsimp only at hb
  by_cases heq : a = p
  · rw [heq, Function.update_self] at hb
    rw [← Option.some.inj hb]
    exact hc
  · rw [Function.update_of_ne heq] at hb
    exact h.siblings a b hb

/-- It is about the caches alone. -/
theorem Rooted.of_caches (h : Rooted r) (hparents : r'.parentOf = r.parentOf)
    (hchildren : r'.firstChildOf = r.firstChildOf)
    (hsiblings : r'.nextSiblingOf = r.nextSiblingOf) : Rooted r' := by
  have hsame : ∀ {off}, Known r off → Known r' off := by
    intro off hoff
    rwa [Known, hparents]
  refine ⟨fun c p hp => hsame (h.parents c p ?_), fun p c hc => hsame (h.children p c ?_),
    fun a b hb => hsame (h.siblings a b ?_)⟩
  · rwa [← hparents]
  · rwa [← hchildren]
  · rwa [← hsiblings]

theorem staysRooted_error {α : Type} {x : RootM α} {e : Fault} {post : α → Root → Prop}
    (h : x r = .error e) : StaysRooted x r post := .inr ⟨trivial, e, h⟩

theorem staysRooted_require {p : Prop} [Decidable p] (h : Rooted r) :
    StaysRooted (require p) r fun _ r' => p ∧ r' = r := by
  by_cases hp : p
  · exact .inl ⟨(), r, if_pos hp, h, Std.Refl.refl r, hp, rfl⟩
  · exact staysRooted_error (if_neg hp)

end Enter

section Context

theorem advanceCuContext_rooted (h : Rooted r) :
    StaysRooted advanceCuContext r fun ret r' => ret = true → Known r' r'.currentCuOffset := by
  refine StateReturnsUnless.get_bind ?_
  cases hdbg : r.dbg with
  | none => exact StateReturnsUnless.pure h fun hret => absurd hret (by decide)
  | some lib =>
    cases hcus : r.upcomingCus with
    | nil =>
      refine StateReturnsUnless.bind (p := fun _ _ => True) (StateReturns.set ?_ ?_ trivial).unless ?_
      · exact h.of_caches rfl rfl rfl
      · exact ⟨hdbg.symm, fun _ hc => hc⟩
      rintro - r₁ hr₁ - -
      exact StateReturnsUnless.pure hr₁ fun hret => absurd hret (by decide)
    | cons cu cus =>
      refine (staysRooted_require h).bind ?_
      rintro - r₁ - - ⟨-, rfl⟩
      refine (staysRooted_require h).bind ?_
      rintro - r₂ - - ⟨-, rfl⟩
      refine StateReturnsUnless.bind (p := fun _ r' => Known r' r'.currentCuOffset)
        (StateReturns.set ?_ ?_ ?_).unless ?_
      · exact (h.enterParent cu.die (.inl rfl)).of_caches rfl rfl rfl
      · exact ⟨hdbg.symm, (kept_enterParent r₂ cu.die 0).parents⟩
      · exact .inr (by simp)
      rintro - r₃ hr₃ - hknown
      exact StateReturnsUnless.pure hr₃ fun _ => hknown

theorem advanceToLast_rooted (h : Rooted r) {n : ℕ} :
    StaysRooted (advanceToLast n) r fun _ _ => True := by
  induction n generalizing r with
  | zero => exact staysRooted_error rfl
  | succ n ih =>
    refine (advanceCuContext_rooted h).bind ?_
    rintro ret r₁ hr₁ - -
    split_ifs
    · exact ih hr₁
    · exact StateReturnsUnless.pure hr₁ trivial

theorem clearCuContext_rooted (h : Rooted r) :
    StaysRooted clearCuContext r fun _ _ => True := by
  refine StateReturnsUnless.get_bind ?_
  split_ifs
  · exact StateReturnsUnless.pure h trivial
  · refine (advanceToLast_rooted h).bind ?_
    rintro - r₁ hr₁ - -
    exact StateReturnsUnless.pure hr₁ trivial

theorem advanceCuContextTo_rooted (h : Rooted r) {off n : ℕ} {noContext : Bool} :
    StaysRooted (advanceCuContextTo off n noContext) r fun _ _ => True := by
  induction n generalizing r noContext with
  | zero => exact staysRooted_error rfl
  | succ n ih =>
    refine (advanceCuContext_rooted h).bind ?_
    rintro ret r₁ hr₁ - -
    refine StateReturnsUnless.get_bind ((staysRooted_require hr₁).bind ?_)
    rintro - r₂ - - ⟨-, rfl⟩
    split_ifs
    · exact ih hr₁
    · exact StateReturnsUnless.pure hr₁ trivial

theorem setSubsequentCuContext_rooted (h : Rooted r) (off : ℕ) :
    StaysRooted (setSubsequentCuContext off) r fun _ _ => True := by
  refine StateReturnsUnless.get_bind ?_
  split_ifs
  · exact StateReturnsUnless.pure h trivial
  · refine (advanceCuContextTo_rooted h).bind ?_
    rintro ret r₁ hr₁ - -
    refine StateReturnsUnless.get_bind ((staysRooted_require hr₁).bind ?_)
    rintro - r₂ - - ⟨-, rfl⟩
    exact StateReturnsUnless.pure hr₁ trivial

theorem setCuContext_rooted (h : Rooted r) (off : ℕ) :
    StaysRooted (setCuContext off) r fun _ _ => True := by
  refine (setSubsequentCuContext_rooted h off).bind ?_
  rintro ret r₁ hr₁ - -
  split_ifs
  · exact StateReturnsUnless.pure hr₁ trivial
  · refine (clearCuContext_rooted hr₁).bind ?_
    rintro - r₂ hr₂ - -
    exact setSubsequentCuContext_rooted hr₂ off

end Context

section Moves

theorem ofDie_rooted (h : Rooted r) (off : ℕ) (depth : Option ℕ) :
    StaysRooted (ofDie off depth) r fun it _ => it.offset = off ∧ it.depth = depth := by
  refine StateReturnsUnless.get_bind ?_
  split_ifs
  · exact StateReturnsUnless.pure h ⟨rfl, rfl⟩
  · refine (setCuContext_rooted h off).bind ?_
    rintro ret r₁ hr₁ - -
    refine (staysRooted_require hr₁).bind ?_
    rintro - r₂ - - ⟨-, rfl⟩
    refine StateReturnsUnless.bind (p := fun _ _ => True)
      (StateReturns.modify (hr₁.of_caches rfl rfl rfl) ⟨rfl, fun _ hc => hc⟩ trivial).unless ?_
    rintro - r₃ hr₃ - -
    exact StateReturnsUnless.pure hr₃ ⟨rfl, rfl⟩
  · exact StateReturnsUnless.pure h ⟨rfl, rfl⟩

theorem firstCu_rooted (h : Rooted r) : StaysRooted firstCu r fun _ _ => True := by
  refine (clearCuContext_rooted h).bind ?_
  rintro - r₁ hr₁ - -
  refine (advanceCuContext_rooted hr₁).bind ?_
  rintro ret r₂ hr₂ - hknown
  split_ifs with hret
  · refine StateReturnsUnless.bind (p := fun _ _ => True)
      (StateReturns.modify (hr₂.enterChild 0 (hknown hret)) ⟨rfl, fun _ hc => hc⟩
        trivial).unless ?_
    rintro - r₃ hr₃ - -
    exact StateReturnsUnless.get_bind (StateReturnsUnless.pure hr₃ trivial)
  · exact StateReturnsUnless.pure hr₂ trivial

theorem childHandle_rooted (h : Rooted r) (off : ℕ) :
    StaysRooted (childHandle off) r fun _ _ => True := by
  refine StateReturnsUnless.get_bind ?_
  split_ifs
  · exact firstCu_rooted h
  · exact StateReturnsUnless.pure h trivial
  · exact StateReturnsUnless.pure h trivial

/-- Where a step comes to: a DIE from which there is a way up, with a depth. -/
def Leads (depth : Option ℕ) (r : Root) (res : Option Iterator) : Prop :=
  ∀ it ∈ res, Known r it.offset ∧ it.depth = depth

theorem leads_none (depth : Option ℕ) (r : Root) : Leads depth r none := fun _ h => by simp at h

theorem leads_some {depth : Option ℕ} (hk : Known r it.offset) (hd : it.depth = depth) :
    Leads depth r (some it) := fun _ h => Option.some.inj h ▸ ⟨hk, hd⟩

theorem known_liveTarget {edges : ℕ → Option ℕ} {a b : ℕ}
    (h : ∀ b, edges a = some b → Known r b) (hb : r.liveTarget edges a = some b) : Known r b :=
  h b (Option.filter_eq_some_iff.1 hb).1

theorem firstChild_rooted (h : Rooted r) (hit : Known r it.offset) :
    StaysRooted (firstChild it) r fun res r' =>
      Leads (it.depth.map fun d => toUShort (d + 1)) r' res := by
  refine StateReturnsUnless.get_bind ?_
  cases hlive : r.liveTarget r.firstChildOf it.offset with
  | some c =>
    have hknown := known_liveTarget (h.children _) hlive
    refine (ofDie_rooted h c _).bind ?_
    rintro it' r₁ hr₁ hkept ⟨rfl, hd⟩
    exact StateReturnsUnless.pure hr₁ (leads_some (hknown.mono hkept) hd)
  | none =>
    refine (childHandle_rooted h it.offset).bind ?_
    rintro c r₁ hr₁ hkept₁ -
    cases c with
    | none => exact StateReturnsUnless.pure hr₁ (leads_none _ _)
    | some c =>
      refine (ofDie_rooted hr₁ c _).bind ?_
      rintro it' r₂ hr₂ hkept₂ ⟨rfl, hd⟩
      have hk := (hit.mono hkept₁).mono hkept₂
      have hentered := hr₂.enterParent it'.offset hk
      refine StateReturnsUnless.bind (p := fun _ r' => Known r' it'.offset)
        (StateReturns.modify (hentered.enterChild it.offset (.inr (by simp)))
          ⟨rfl, fun _ hc => isSome_update hc⟩ (.inr (by simp))).unless ?_
      rintro - r₃ hr₃ - hknown
      exact StateReturnsUnless.pure hr₃ (leads_some hknown hd)

theorem nextCu_rooted (h : Rooted r) (off : ℕ) : StaysRooted (nextCu off) r fun _ _ => True := by
  refine (setCuContext_rooted h off).bind ?_
  rintro ret r₁ hr₁ - -
  split_ifs
  · refine (advanceCuContext_rooted hr₁).bind ?_
    rintro ret' r₂ hr₂ - hknown
    split_ifs with hret
    · refine StateReturnsUnless.bind (p := fun _ _ => True)
        (StateReturns.modify (hr₂.enterSibling off (hknown hret)) ⟨rfl, fun _ hc => hc⟩
          trivial).unless ?_
      rintro - r₃ hr₃ - -
      exact StateReturnsUnless.get_bind (StateReturnsUnless.pure hr₃ trivial)
    · exact StateReturnsUnless.pure hr₂ trivial
  · exact StateReturnsUnless.pure hr₁ trivial

theorem siblingHandle_rooted (h : Rooted r) (off : ℕ) :
    StaysRooted (siblingHandle off) r fun _ _ => True := by
  refine StateReturnsUnless.get_bind ?_
  split_ifs
  · exact nextCu_rooted h off
  · exact StateReturnsUnless.pure h trivial
  · exact StateReturnsUnless.pure h trivial

variable {w : Iterator → RootM Iterator} (hw : LeavesKnown w)
include hw

theorem nextSibling_rooted (h : Rooted r) (hd : it.depth.isSome = true) :
    StaysRooted (nextSibling w it) r fun res r' => Leads it.depth r' res := by
  refine StateReturnsUnless.get_bind ?_
  split_ifs with h0
  · exact StateReturnsUnless.pure h (leads_none _ _)
  cases hlive : r.liveTarget r.nextSiblingOf it.offset with
  | some c =>
    have hknown := known_liveTarget (h.siblings _) hlive
    dsimp only
    rw [hw it hd, pure_bind]
    refine (ofDie_rooted h c _).bind ?_
    rintro it' r₁ hr₁ hkept ⟨rfl, hdepth⟩
    exact StateReturnsUnless.pure hr₁ (leads_some (hknown.mono hkept) hdepth)
  | none =>
    cases hparent : r.parentOf it.offset with
    | none => exact staysRooted_error rfl
    | some p =>
      have hp := h.parents _ _ hparent
      refine (siblingHandle_rooted h it.offset).bind ?_
      rintro c r₁ hr₁ hkept₁ -
      cases c with
      | none => exact StateReturnsUnless.pure hr₁ (leads_none _ _)
      | some c =>
        dsimp only
        rw [hw it hd, pure_bind]
        refine (ofDie_rooted hr₁ c _).bind ?_
        rintro it' r₂ hr₂ hkept₂ ⟨rfl, hdepth⟩
        refine StateReturnsUnless.bind (p := fun _ r' => Known r' it'.offset)
          (StateReturns.modify (hr₂.enterParent it'.offset ((hp.mono hkept₁).mono hkept₂))
            (kept_enterParent r₂ _ _) (.inr (by simp))).unless ?_
        rintro - r₃ hr₃ - hknown
        refine StateReturnsUnless.get_bind ((staysRooted_require hr₃).bind ?_)
        rintro - r₄ - - ⟨-, rfl⟩
        refine StateReturnsUnless.bind (p := fun _ r' => Known r' it'.offset)
          (StateReturns.modify (hr₃.enterSibling it.offset hknown) ⟨rfl, fun _ hc => hc⟩
            hknown).unless ?_
        rintro - r₅ hr₅ - hknown'
        exact StateReturnsUnless.pure hr₅ (leads_some hknown' hdepth)

theorem moveToNextSibling_rooted (h : Rooted r) (hd : it.depth.isSome = true) :
    StaysRooted (moveToNextSibling w it) r fun res r' => Leads it.depth r' res := by
  unfold moveToNextSibling
  rw [hw it hd, pure_bind]
  refine (nextSibling_rooted hw h hd).bind ?_
  rintro res r₁ hr₁ - hres
  cases res with
  | none => exact StateReturnsUnless.pure hr₁ (leads_none _ _)
  | some sibling =>
    refine (staysRooted_require hr₁).bind ?_
    rintro - r₂ - - ⟨-, rfl⟩
    exact StateReturnsUnless.pure hr₁ hres

end Moves

section Search

variable {queue : List Iterator} {res : Option Iterator × List Iterator}

/-- From the position and from all that is queued there is a way up. -/
def FrontKnown (r : Root) (res : Option Iterator × List Iterator) : Prop :=
  ∀ it ∈ res.1.toList ++ res.2, Known r it.offset

theorem FrontKnown.mono (h : FrontKnown r res) (hk : ParentsKept r r') : FrontKnown r' res :=
  fun it hit => (h it hit).mono hk

theorem frontKnown_cons (hit : Known r it.offset) (hqueue : FrontKnown r (none, queue)) :
    FrontKnown r (some it, queue) := by
  intro i hi
  rcases List.mem_cons.1 hi with rfl | hi
  · exact hit
  · exact hqueue i hi

theorem frontKnown_popFront (h : FrontKnown r (none, queue)) : FrontKnown r (popFront queue) := by
  cases queue with
  | nil => exact h
  | cons it queue => exact frontKnown_cons (h it (by simp)) fun i hi => h i (List.mem_cons_of_mem _ hi)

theorem bfIncrementSkippingSubtree_rooted (h : Rooted r) (hqueue : FrontKnown r (none, queue)) :
    StaysRooted (bfIncrementSkippingSubtree it queue) r fun res r' => FrontKnown r' res := by
  cases hd : it.depth with
  | none =>
    refine staysRooted_error (e := .assertFailed) ?_
    unfold bfIncrementSkippingSubtree moveToNextSibling knownDepth
    rw [hd]
    rfl
  | some d =>
    refine (moveToNextSibling_rooted leavesKnown_knownDepth h (by rw [hd]; rfl)).bind ?_
    rintro res r₁ hr₁ hkept hres
    cases res with
    | none => exact StateReturnsUnless.pure hr₁ (frontKnown_popFront (hqueue.mono hkept))
    | some sibling =>
      exact StateReturnsUnless.pure hr₁ (frontKnown_cons (hres _ rfl).1 (hqueue.mono hkept))

theorem bfIncrement_rooted (h : Rooted r) (hit : Known r it.offset)
    (hqueue : FrontKnown r (none, queue)) :
    StaysRooted (bfIncrement it queue) r fun res r' => FrontKnown r' res := by
  refine (firstChild_rooted h hit).bind ?_
  rintro child r₁ hr₁ hkept hchild
  refine bfIncrementSkippingSubtree_rooted hr₁ fun i hi => ?_
  rcases List.mem_append.1 (show i ∈ queue ++ child.toList from hi) with hi | hi
  · exact (hqueue i hi).mono hkept
  · exact (hchild i (Option.mem_toList.1 hi)).1

theorem searchStep_rooted (h : Rooted r) (hit : Known r it.offset)
    (hqueue : FrontKnown r (none, queue)) (off : ℕ) :
    StaysRooted (searchStep off it queue) r fun res r' => FrontKnown r' res := by
  refine (bfIncrement_rooted h hit hqueue).bind ?_
  rintro next r₁ hr₁ hkept -
  have hit₁ := hit.mono hkept
  have hqueue₁ := hqueue.mono hkept
  cases next.1.filter fun n => n.depth = it.depth with
  | none => exact bfIncrement_rooted hr₁ hit₁ hqueue₁
  | some nextPos =>
    refine (staysRooted_require hr₁).bind ?_
    rintro - r₂ - - ⟨-, rfl⟩
    split_ifs
    · exact bfIncrement_rooted hr₁ hit₁ fun i hi => by simp at hi
    · exact bfIncrementSkippingSubtree_rooted hr₁ hqueue₁

/-- **A search breadth-first caches the parents up from where it comes.** -/
theorem search_rooted (h : Rooted r) (hres : FrontKnown r res) (off : ℕ) {n : ℕ} :
    StaysRooted (search off n res) r fun _ _ => True := by
  induction n generalizing r res with
  | zero => exact staysRooted_error rfl
  | succ n ih =>
    obtain ⟨pos, queue⟩ := res
    cases pos with
    | none => exact StateReturnsUnless.pure h trivial
    | some it =>
      have hit : Known r it.offset := hres it (by simp)
      rw [search]
      split_ifs
      · exact StateReturnsUnless.pure h trivial
      · refine (searchStep_rooted h hit (fun i hi => hres i (List.mem_cons_of_mem _ hi)) off).bind ?_
        rintro next r₁ hr₁ - hnext
        exact ih hr₁ hnext

theorem findDownwards_rooted (h : Rooted r) (fuel off : ℕ) :
    StaysRooted (findDownwards fuel off) r fun _ _ => True :=
  search_rooted h (frontKnown_cons (.inl rfl) fun i hi => by simp at hi) off

end Search

section Pos

/-- **`pos` keeps the way up**, if there is one from the parent it is told of, and from the unit that
libdwarf names. -/
theorem pos_rooted (h : Rooted r) {off : ℕ} {optDepth parentOff : Option ℕ}
    (hparent : ∀ p, parentOff = some p → Known r p)
    (hunit : optDepth = some 2 → (r.liveDies off).isSome = false → ∀ lib, r.dbg = some lib →
      Known r (lib.cuDieoffset off)) :
    StaysRooted (pos off optDepth parentOff none) r fun _ _ => True := by
  refine StateReturnsUnless.get_bind ?_
  by_cases hz : optDepth = some 0
  · rw [if_pos hz]
    refine (staysRooted_require h).bind ?_
    rintro - r₁ - - ⟨-, rfl⟩
    refine (staysRooted_require h).bind ?_
    rintro - r₂ - - ⟨-, rfl⟩
    exact StateReturnsUnless.pure h trivial
  rw [if_neg hz]
  by_cases hlive : (r.liveDies off).isSome = true
  · rw [if_pos hlive]
    exact StateReturnsUnless.pure h trivial
  rw [if_neg hlive]
  by_cases hthere : r.dbg.any (fun lib => lib.offdie off) = true
  swap
  · rw [if_neg hthere]
    exact staysRooted_error rfl
  rw [if_pos hthere]
  refine (ofDie_rooted h off optDepth).bind ?_
  rintro base r₁ hr₁ hkept₁ -
  have hentered : Rooted { r₁ with parentOf := r₁.posParent off optDepth parentOff } ∧
      ParentsKept r₁ { r₁ with parentOf := r₁.posParent off optDepth parentOff } := by
    unfold Root.posParent
    split_ifs with h1 h2 hp
    · exact ⟨hr₁.enterParent off (.inl rfl), kept_enterParent r₁ off 0⟩
    · obtain ⟨lib, hdbg⟩ : ∃ lib, r.dbg = some lib := by
        cases hdbg : r.dbg with
        | none =>
          rw [hdbg] at hthere
          exact absurd hthere (by simp)
        | some lib => exact ⟨lib, rfl⟩
      have hnamed : (r₁.dbg.map fun lib => lib.cuDieoffset off) = some (lib.cuDieoffset off) := by
        rw [hkept₁.dbg, hdbg, Option.map_some]
      rw [hnamed]
      have hcu := hunit h2 (by simpa using hlive) lib hdbg
      exact ⟨hr₁.enterParent off (hcu.mono hkept₁), kept_enterParent r₁ off _⟩
    · obtain ⟨p, rfl⟩ := Option.isSome_iff_exists.1 hp
      exact ⟨hr₁.enterParent off ((hparent p rfl).mono hkept₁), kept_enterParent r₁ off p⟩
    · exact ⟨hr₁, Std.Refl.refl r₁⟩
  refine StateReturnsUnless.bind (p := fun _ _ => True)
    (StateReturns.modify hentered.1 hentered.2 trivial).unless ?_
  rintro - r₂ hr₂ - -
  exact StateReturnsUnless.pure hr₂ trivial

end Pos

section Settled

variable {t : List Node} {fuel : ℕ} {x z : Node} {l : List Node}

/-- The root knows the tree, and its cached parents lead to the root position. -/
structure Settled (t : List Node) (r : Root) : Prop where
  consistent : Consistent t r
  rooted : Rooted r

/-- From `r` the computation returns, and leaves the root settled. -/
abbrev Arrives (t : List Node) {α : Type} (x : RootM α) (r : Root) (post : α → Root → Prop) : Prop :=
  StateReturns (Settled t) Moved x r post

theorem Moved.kept (h : Moved r r') : ParentsKept r r' := ⟨h.dbg, h.parents⟩

theorem arrives {α : Type} {m : RootM α} {p q : α → Root → Prop} (h : Reaches t m r p)
    (h' : StaysRooted m r q) : Arrives t m r fun a r' => p a r' ∧ q a r' := by
  obtain ⟨a, r', hrun, hr', hmoved, hp⟩ := h
  obtain ⟨hrooted, -, hq⟩ := h'.of_eq_ok hrun
  exact ⟨a, r', hrun, ⟨hr', hrooted⟩, hmoved, hp, hq⟩

/-- Going on from a settled root. -/
theorem StaysRooted.bind_settled {α β : Type} {m : RootM α} {f : α → RootM β}
    {p q : α → Root → Prop} {s : β → Root → Prop} (h : Reaches t m r p) (h' : StaysRooted m r q)
    (hf : ∀ a r', Settled t r' → Moved r r' → p a r' → StaysRooted (f a) r' s) :
    StaysRooted (m >>= f) r s := by
  obtain ⟨a, r', hrun, hr', hmoved, hp, -⟩ := arrives h h'
  refine StateReturnsUnless.bind (p := fun a₁ r₁ => a₁ = a ∧ r₁ = r')
    (.inl ⟨a, r', hrun, hr'.rooted, hmoved.kept, rfl, rfl⟩) ?_
  rintro a₁ r₁ - - ⟨ha, hr₁⟩
  rw [ha, hr₁]
  exact hf a r' hr' hmoved hp

/-- **Where there is a way up from a DIE, there is from its parent.** -/
theorem Settled.known_parent (h : Settled t r) (hz : IsParent Node.depth t z x)
    (hx : Known r x.offset) : Known r z.offset := by
  have hlt := key_lt_of_isParent h.consistent.wellFormed.sorted hz
  obtain ⟨p, hp⟩ := Option.isSome_iff_exists.1 (hx.resolve_left (by omega))
  rw [← h.consistent.parentOf_eq hz (by omega) hp]
  exact h.rooted.parents _ _ hp

/-- The unit of a DIE of the file right below it is the parent. -/
theorem Settled.known_unit (h : Settled t r) (hx : x ∈ t) (hd : x.depth = 2)
    (hk : Known r x.offset) (hlive : (r.liveDies x.offset).isSome = false) (lib : Libdwarf)
    (hdbg : r.dbg = some lib) : Known r (lib.cuDieoffset x.offset) := by
  have hw := h.consistent.wellFormed
  have hfile : x.inMemory = false := by
    cases hm : x.inMemory with
    | false => rfl
    | true =>
      rw [h.consistent.live_of_inMemory hx hm] at hlive
      exact absurd hlive (by decide)
  obtain ⟨z, hz⟩ := h.consistent.exists_parent hx fun h0 => by
    have := (hw.depth_eq_zero_iff hx).2 h0
    omega
  rw [(h.consistent.serves lib hdbg).cuDieoffset z x hz hfile hd]
  exact h.known_parent hz hk

theorem findUpwards_rooted (h : Settled t r) {off : ℕ} (hoff : off < fuel) (payload : Bool) :
    StaysRooted (findUpwards fuel off payload) r fun _ _ => True := by
  obtain ⟨cur, k, hclimb, hdepth, hknown⟩ := climb_eq h.consistent hoff 0
  rw [Nat.zero_add] at hclimb
  refine StateReturnsUnless.get_bind
    (StateReturnsUnless.bind (p := fun res r'' => res = (cur, k) ∧ r'' = r)
      (.inl ⟨(cur, k), r, ?_, h.rooted, Std.Refl.refl r, rfl, rfl⟩) ?_)
  · change (climb r.parentOf fuel off 0 >>= fun a => pure (a, r)) = _
    rw [hclimb]
    rfl
  rintro - r₀ - - ⟨rfl, rfl⟩
  dsimp only
  by_cases hz : cur = 0
  swap
  · rw [if_neg hz]
    exact StateReturnsUnless.pure h.rooted trivial
  obtain ⟨x, hx, rfl, rfl⟩ := hdepth hz
  have hk := hknown hz
  rw [if_pos hz, h.consistent.wellFormed.toUShort_depth hx]
  cases payload with
  | true => exact StateReturnsUnless.pure h.rooted trivial
  | false =>
    rw [if_neg (by decide)]
    -- The subscript gives the cached parent, or the root position at the root position.
    have hp : Known r₀ ((r₀.parentOf x.offset).getD 0) := by
      cases hparent : r₀.parentOf x.offset with
      | none => exact .inl rfl
      | some p => exact h.rooted.parents _ _ hparent
    have hkept := kept_enterParent r₀ x.offset ((r₀.parentOf x.offset).getD 0)
    refine StateReturnsUnless.bind (p := fun _ r' => ParentsKept r₀ r' ∧ r'.liveDies = r₀.liveDies)
      (StateReturns.modify (h.rooted.enterParent x.offset hp) hkept ⟨hkept, rfl⟩).unless ?_
    rintro - r₁ hr₁ - ⟨hkept₁, hlive⟩
    refine (pos_rooted hr₁ ?_ ?_).bind fun it r₂ hr₂ _ _ => StateReturnsUnless.pure hr₂ trivial
    · rintro p ⟨⟩
      exact hp.mono hkept₁
    · intro hd2 hnot lib hdbg
      rw [hkept₁.dbg] at hdbg
      rw [hlive] at hnot
      have hknown : Known r₀ x.offset := or_iff_not_imp_left.2 hk
      exact (h.known_unit hx (Option.some.inj hd2) hknown hnot lib hdbg).mono hkept₁

theorem find_rooted (h : Settled t r) {off : ℕ} (hoff : off < fuel) (payload : Bool) :
    StaysRooted (find fuel off none payload) r fun _ _ => True := by
  refine (findUpwards_rooted h hoff payload).bind ?_
  rintro res r₁ hr₁ - -
  cases res with
  | some it => exact StateReturnsUnless.pure hr₁ trivial
  | none =>
    refine (findDownwards_rooted hr₁ fuel off).bind ?_
    rintro found r₂ hr₂ - -
    cases found with
    | none => exact StateReturnsUnless.pure hr₂ trivial
    | some it => exact StateReturnsUnless.pure hr₂ trivial

theorem withDepth_rooted (h : Settled t r) (hoff : it.offset < fuel) :
    StaysRooted (withDepth fuel it) r fun _ _ => True := by
  unfold withDepth
  cases it.depth with
  | some d => exact StateReturnsUnless.pure h.rooted trivial
  | none =>
    refine (find_rooted h hoff it.payload).bind ?_
    rintro res r₁ hr₁ - -
    cases res with
    | none => exact staysRooted_error rfl
    | some foundSelf =>
      refine (staysRooted_require hr₁).bind ?_
      rintro - r₂ - - ⟨-, rfl⟩
      refine (staysRooted_require hr₁).bind ?_
      rintro - r₃ - - ⟨-, rfl⟩
      exact StateReturnsUnless.pure hr₁ trivial

theorem parentOffset_rooted (h : Rooted r) (off : ℕ) :
    StaysRooted (parentOffset fuel off) r fun _ _ => True := by
  refine StateReturnsUnless.get_bind ?_
  cases r.parentOf off with
  | some p => exact StateReturnsUnless.pure h trivial
  | none =>
    refine (findDownwards_rooted h fuel off).bind ?_
    rintro found r₁ hr₁ - -
    refine StateReturnsUnless.get_bind ?_
    cases r₁.parentOf off with
    | some p => exact StateReturnsUnless.pure hr₁ trivial
    | none => exact staysRooted_error rfl

variable (hfuel : EnoughFuel t fuel)
include hfuel

theorem withDepth_arrives (h : Settled t r) (hx : x ∈ t) (hit : Standing x it) :
    Arrives t (withDepth fuel it) r fun it' _ =>
      it'.offset = x.offset ∧ it'.depth = some x.depth := by
  refine (arrives (withDepth_reaches h.consistent hx hit.1 hit.2 (hfuel.2 x hx) hfuel.1)
    (withDepth_rooted h (hit.1 ▸ hfuel.2 x hx))).mono ?_
  rintro it' r' - - ⟨⟨hoff, hd, -⟩, -⟩
  exact ⟨hoff, hd⟩

theorem parent_rooted (h : Settled t r) (hz : IsParent Node.depth t z x) (hit : Standing x it)
    (hk : Known r x.offset) : StaysRooted (parent fuel it) r fun _ _ => True := by
  have hx := (isParent_mem hz).2
  have hdz : x.depth = z.depth + 1 := by
    obtain ⟨-, -, -, -, hd, -⟩ := id hz
    exact hd
  have hlt := key_lt_of_isParent h.consistent.wellFormed.sorted hz
  have hdepth := withDepth_rooted h (hit.1 ▸ hfuel.2 x hx)
  refine StateReturnsUnless.get_bind ?_
  split_ifs
  · refine hdepth.bind ?_
    rintro it' r₁ hr₁ - -
    refine (staysRooted_require hr₁).bind ?_
    rintro - r₂ - - ⟨-, rfl⟩
    exact StateReturnsUnless.pure hr₁ trivial
  · exact StateReturnsUnless.pure h.rooted trivial
  · refine StaysRooted.bind_settled (withDepth_reaches h.consistent hx hit.1 hit.2 (hfuel.2 x hx)
      hfuel.1) hdepth ?_
    rintro it' r₁ hr₁ hmoved₁ ⟨hoff', hd', -⟩
    refine (staysRooted_require hr₁.rooted).bind ?_
    rintro - r₂ - - ⟨-, rfl⟩
    rw [hoff']
    refine StaysRooted.bind_settled (parentOffset_reaches hr₁.consistent hfuel hz (by omega))
      (parentOffset_rooted hr₁.rooted x.offset) ?_
    rintro p r₃ hr₃ hmoved₃ ⟨rfl, -⟩
    refine (staysRooted_require hr₃.rooted).bind ?_
    rintro - r₄ - - ⟨-, rfl⟩
    have hkz := hr₃.known_parent hz ((hk.mono hmoved₁.kept).mono hmoved₃.kept)
    refine (pos_rooted hr₃.rooted (by simp) ?_).bind fun _ r₅ hr₅ _ _ =>
      StateReturnsUnless.pure hr₅ trivial
    intro hd2 hlive lib hdbg
    rw [hd', Option.map_some, hdz, Nat.add_sub_cancel] at hd2
    exact hr₃.known_unit (isParent_mem hz).1 (Option.some.inj hd2) hkz hlive lib hdbg

theorem moveToParent_rooted (h : Settled t r) (hz : IsParent Node.depth t z x)
    (hit : Standing x it) (hk : Known r x.offset) :
    StaysRooted (moveToParent fuel it) r fun _ _ => True := by
  refine (parent_rooted hfuel h hz hit hk).bind ?_
  rintro res r₁ hr₁ - -
  cases res with
  | none => exact StateReturnsUnless.pure hr₁ trivial
  | some p =>
    refine StateReturnsUnless.get_bind ((staysRooted_require hr₁).bind ?_)
    rintro - r₂ - - ⟨-, rfl⟩
    exact StateReturnsUnless.pure hr₁ trivial

omit hfuel in
theorem moveToFirstChild_rooted (h : Rooted r) (hk : Known r it.offset)
    (hd : it.depth.isSome = true) : StaysRooted (moveToFirstChild fuel it) r fun _ _ => True := by
  unfold moveToFirstChild
  rw [leavesKnown_withDepth it hd, pure_bind]
  refine (firstChild_rooted h hk).bind ?_
  rintro res r₁ hr₁ - -
  cases res with
  | none => exact StateReturnsUnless.pure hr₁ trivial
  | some child =>
    refine (staysRooted_require hr₁).bind ?_
    rintro - r₂ - - ⟨-, rfl⟩
    exact StateReturnsUnless.pure hr₁ trivial

/-- **No move from where there is a way up fails.** -/
theorem moving_settled : Moving t fuel (Settled t) False fun r x => Known r x.offset where
  consistent h := h.consistent
  stays h hmoved := h.mono hmoved.kept
  above h hz hk := h.known_parent hz hk
  depth h hx _ hit := withDepth_arrives hfuel h hx hit
  child h hx hk hoff hd := by
    refine (arrives (moveToFirstChild_reaches h.consistent hx hoff hd)
      (moveToFirstChild_rooted h.rooted (hoff ▸ hk) (by rw [hd]; rfl))).mono ?_
    exact fun _ _ _ _ hpost => hpost.1
  sibling h hx hk hoff hd := by
    refine ((arrives (moveToNextSibling_reaches h.consistent hx leavesKnown_withDepth hoff hd
      fun h0 => hk.resolve_left h0) (moveToNextSibling_rooted leavesKnown_withDepth h.rooted
        (by rw [hd]; rfl))).mono ?_).unless
    exact fun _ _ _ _ hpost => hpost.1
  parent h hz hk hit := by
    have hlt := key_lt_of_isParent h.consistent.wellFormed.sorted hz
    refine ((arrives
      ((moveToParent_unless h.consistent hfuel hz hit (c := False) fun hnone => ?_).returns id)
      (moveToParent_rooted hfuel h hz hit hk)).mono ?_).unless
    · have hsome := hk.resolve_left (by omega)
      rw [hnone] at hsome
      exact absurd hsome (by decide)
    · exact fun _ _ _ _ hpost => hpost.1

end Settled

end Dies
end Dwarfpp
