/-
# Going through the tree depth-first

`parent` and the depth-first iterator of `include/dwarfpp/iter.hpp`, which goes to the
first child or else climbs to the nearest later sibling.  Where the root knows
its tree, an increment goes to the next DIE in pre-order (`dfIncrement_unless`), and a
traversal from the root position meets every DIE once (`traverse_reaches`).
-/

import Dwarfpp.Dies.Find

namespace Dwarfpp
namespace Dies

open Lib
open Lib.Preorder hiding firstChild nextSibling

section Model

variable (fuel : ℕ)

/-- The offset of the parent, from the cache or after a search for the DIE. -/
def parentOffset (off : ℕ) : RootM ℕ := do
  let r ← get
  match r.parentOf off with
  | some p => return p
  | none =>
    let _ ← findDownwards fuel off
    let r ← get
    match r.parentOf off with
    | some p => return p
    | none => throw .assertFailed

/-- `parent`. -/
def parent (it : Iterator) : RootM (Option Iterator) := do
  let r ← get
  if r.tagHere it.offset = dwTagCompileUnit then
    let it ← withDepth fuel it
    require (it.depth = some 1)
    return some Root.begin
  else if it.offset = 0 then return none
  else
    let it ← withDepth fuel it
    require (it.depth ≠ some 0)
    let p ← parentOffset fuel it.offset
    require (p < it.offset)
    return some (← pos p (it.depth.map (· - 1)) none none)

/-- `move_to_parent`; `none` where it does not move. -/
def moveToParent (it : Iterator) : RootM (Option Iterator) := do
  match ← parent fuel it with
  | some p =>
    let r ← get
    require (r.parentOf it.offset = some p.offset)
    return some p
  | none => return none

/-- `move_to_first_child`; `none` where it does not move. -/
def moveToFirstChild (it : Iterator) : RootM (Option Iterator) := do
  let it ← withDepth fuel it
  match ← firstChild it with
  | some child =>
    require (child.depth = it.depth.map (· + 1))
    return some child
  | none => return none

/-- The second part of `iterator_df::increment`: the next sibling of the DIE or of the nearest DIE
above that has one.  It started at offset `start`. -/
def climbOn (start : ℕ) : ℕ → Iterator → RootM (Option Iterator)
  | 0, _ => throw .outOfSteps
  | n + 1, it => do
    let it ← withDepth fuel it
    match ← moveToNextSibling (withDepth fuel) it with
    | some sibling =>
      require (start < sibling.offset)
      return some sibling
    | none =>
      match ← moveToParent fuel it with
      | some p => climbOn start n p
      | none => return none

/-- `iterator_df::increment`. -/
def dfIncrement (it : Iterator) : RootM (Option Iterator) := do
  let it ← withDepth fuel it
  match ← moveToFirstChild fuel it with
  | some child =>
    require (it.offset < child.offset)
    return some child
  | none => climbOn fuel it.offset fuel it

/-- The offsets that `for (; i != end(); ++i)` goes through. -/
def traverse : ℕ → Option Iterator → RootM (List ℕ)
  | 0, _ => throw .outOfSteps
  | _ + 1, none => return []
  | n + 1, some it => do
    let next ← dfIncrement fuel it
    return it.offset :: (← traverse n next)

end Model

variable {t : List Node} {r : Root}

/-- An iterator at `x` that has been told its depth or has the payload. -/
def Standing (x : Node) (it : Iterator) : Prop :=
  it.offset = x.offset ∧ (it.depth = some x.depth ∨ it.depth = none ∧ it.payload = true)

/-- The fuel is enough for a search in `t`. -/
def EnoughFuel (t : List Node) (fuel : ℕ) : Prop :=
  t.length < fuel ∧ ∀ x ∈ t, x.offset < fuel

section Parent

variable {fuel : ℕ}

theorem leavesKnown_withDepth : LeavesKnown (withDepth fuel) := by
  intro it hit
  unfold withDepth
  cases hd : it.depth with
  | none =>
    rw [hd] at hit
    exact absurd hit (by decide)
  | some d => rfl

theorem Consistent.exists_parent (h : Consistent t r) {x : Node} (hx : x ∈ t)
    (h0 : x.offset ≠ 0) : ∃ z, IsParent Node.depth t z x := by
  have hsteps := h.wellFormed.steps
  have hne : x ≠ rootNode := fun heq => h0 (by rw [heq]; rfl)
  obtain ⟨l, rfl, hl⟩ := h.wellFormed.rooted
  exact Preorder.exists_parent hsteps rfl hl ((List.mem_cons.1 hx).resolve_left hne)

theorem Consistent.parentOf_eq (h : Consistent t r) {x z : Node}
    (hz : IsParent Node.depth t z x) (h0 : x.offset ≠ 0) {p : ℕ}
    (hp : r.parentOf x.offset = some p) : p = z.offset := by
  obtain ⟨l, hl⟩ := exists_suffix_of_mem (isParent_mem hz).2
  obtain ⟨z', hz', rfl⟩ := WellFormed.exists_parent_of_known h hl h0 hp
  rw [hz'.unique h.wellFormed.sorted hz]

theorem parentOffset_reaches (h : Consistent t r) (hfuel : EnoughFuel t fuel) {x z : Node}
    (hz : IsParent Node.depth t z x) (h0 : x.offset ≠ 0) :
    Reaches t (parentOffset fuel x.offset) r fun p r' =>
      p = z.offset ∧ (r'.parentOf x.offset).isSome = true := by
  refine StateReturns.get_bind ?_
  cases hp : r.parentOf x.offset with
  | some p =>
    refine StateReturns.pure h ⟨h.parentOf_eq hz h0 hp, ?_⟩
    rw [hp]
    rfl
  | none =>
    refine (findDownwards_reaches h x.offset hfuel.1).bind ?_
    rintro found r₁ hr₁ - hfound
    refine StateReturns.get_bind ?_
    rcases hfound with ⟨y, -, hyoff, hknown, -⟩ | ⟨-, hno⟩
    · rw [hyoff] at hknown
      obtain ⟨p, hp₁⟩ := Option.isSome_iff_exists.1 (hknown h0)
      rw [hp₁]
      exact StateReturns.pure hr₁ ⟨hr₁.parentOf_eq hz h0 hp₁, hknown h0⟩
    · exact absurd rfl (hno x (isParent_mem hz).2)

/-- **`parent` is the parent.** -/
theorem parent_reaches (h : Consistent t r) (hfuel : EnoughFuel t fuel) {x z : Node}
    (hz : IsParent Node.depth t z x) {it : Iterator} (hit : Standing x it) :
    Reaches t (parent fuel it) r fun res r' => (∃ p, res = some p ∧ Standing z p) ∧
      (x.depth ≠ 1 → (r'.parentOf x.offset).isSome = true) := by
  have hx := (isParent_mem hz).2
  have hlt := key_lt_of_isParent h.wellFormed.sorted hz
  have h0 : x.offset ≠ 0 := by omega
  have hdz : x.depth = z.depth + 1 := by
    obtain ⟨-, -, -, -, hd, -⟩ := id hz
    exact hd
  refine StateReturns.get_bind ?_
  rw [hit.1]
  by_cases htag : r.tagHere x.offset = dwTagCompileUnit
  · rw [if_pos htag]
    have hd := (h.tagHere_eq_unit hx h0).1 htag
    refine (withDepth_reaches h hx hit.1 hit.2 (hfuel.2 x hx) hfuel.1).bind ?_
    rintro it' r₁ hr₁ - ⟨-, hd', -⟩
    refine StateReturns.bind (p := fun _ r'' => r'' = r₁)
      (reaches_require (by rw [hd', hd]) hr₁ rfl) ?_
    rintro - r₂ - - rfl
    have hroot : z = rootNode := hz.unique h.wellFormed.sorted (h.wellFormed.isParent_root hx hd)
    exact StateReturns.pure hr₁ ⟨⟨_, rfl, by rw [hroot]; rfl, by rw [hroot]; exact .inl rfl⟩,
      fun hne => absurd hd hne⟩
  · rw [if_neg htag, if_neg h0]
    refine (withDepth_reaches h hx hit.1 hit.2 (hfuel.2 x hx) hfuel.1).bind ?_
    rintro it' r₁ hr₁ - ⟨hoff', hd', -⟩
    refine StateReturns.bind (p := fun _ r'' => r'' = r₁)
      (reaches_require (by rw [hd', hdz]; simp) hr₁ rfl) ?_
    rintro - r₂ - - rfl
    rw [hoff']
    refine (parentOffset_reaches hr₁ hfuel hz h0).bind ?_
    rintro p r₃ hr₃ - ⟨rfl, hknown⟩
    refine StateReturns.bind (p := fun _ r'' => r'' = r₃) (reaches_require hlt hr₃ rfl) ?_
    rintro - r₄ - - rfl
    have hdepth : it'.depth.map (· - 1) = some z.depth := by
      rw [hd', hdz]
      rfl
    rw [hdepth]
    refine (pos_reaches hr₃ (isParent_mem hz).1 ?_ ?_ ?_ ?_).bind ?_
    · rintro d hd
      exact (Option.some.inj hd).symm
    · exact fun p hp => absurd hp (by simp)
    · intro hz0
      rw [(h.wellFormed.depth_eq_zero_iff (isParent_mem hz).1).2 hz0]
    · intro hz2
      refine hr₃.exists_parent (isParent_mem hz).1 fun hz0 => ?_
      have hz0' := (h.wellFormed.depth_eq_zero_iff (isParent_mem hz).1).2 hz0
      have hz2' := Option.some.inj hz2
      omega
    · rintro it'' r₅ hr₅ hmoved₅ ⟨hoff'', hd'', -⟩
      exact StateReturns.pure hr₅ ⟨⟨it'', rfl, hoff'', hd''⟩, fun _ => hmoved₅.parents _ hknown⟩

theorem moveToParent_unless (h : Consistent t r) (hfuel : EnoughFuel t fuel) {x z : Node}
    (hz : IsParent Node.depth t z x) {it : Iterator} (hit : Standing x it) {c : Prop}
    (hc : r.parentOf x.offset = none → c) :
    ReachesUnless t c (moveToParent fuel it) r fun res _ => ∃ p, res = some p ∧ Standing z p := by
  have hlt := key_lt_of_isParent h.wellFormed.sorted hz
  refine (parent_reaches h hfuel hz hit).unless.bind ?_
  rintro res r₁ hr₁ hmoved₁ ⟨⟨p, rfl, hp⟩, -⟩
  refine StateReturnsUnless.get_bind ?_
  rw [hit.1, hp.1]
  cases hpar : r₁.parentOf x.offset with
  | some q =>
    obtain rfl := hr₁.parentOf_eq hz (by omega) hpar
    refine StateReturnsUnless.bind (p := fun _ r'' => r'' = r₁) (reaches_require rfl hr₁ rfl).unless ?_
    rintro - r₂ - - rfl
    exact StateReturnsUnless.pure hr₁ ⟨p, rfl, hp⟩
  | none =>
    refine .inr ⟨hc ?_, .assertFailed, rfl⟩
    cases hpr : r.parentOf x.offset with
    | none => rfl
    | some q =>
      have := hmoved₁.parents x.offset (by rw [hpr]; rfl)
      rw [hpar] at this
      exact absurd this (by simp)

theorem moveToFirstChild_reaches (h : Consistent t r) {x : Node} {l : List Node}
    (hx : x :: l <:+ t) {it : Iterator} (hoff : it.offset = x.offset)
    (hd : it.depth = some x.depth) :
    Reaches t (moveToFirstChild fuel it) r fun res r' =>
      IsAt (Preorder.firstChild Node.depth (x :: l)) res ∧
        ParentKnown r' (Preorder.firstChild Node.depth (x :: l)) := by
  unfold moveToFirstChild
  rw [leavesKnown_withDepth it (by rw [hd]; rfl), pure_bind]
  refine (firstChild_reaches h hx hoff hd).bind ?_
  rintro res r₁ hr₁ - ⟨hat, hknown⟩
  cases hy : Preorder.firstChild Node.depth (x :: l) with
  | nil =>
    rw [hy] at hat
    obtain rfl : res = none := hat
    exact StateReturns.pure hr₁ ⟨rfl, parentKnown_nil⟩
  | cons y l' =>
    rw [hy] at hat hknown
    obtain ⟨it', rfl, hoff', hd'⟩ := hat
    refine StateReturns.bind (p := fun _ r'' => r'' = r₁) (reaches_require ?_ hr₁ rfl) ?_
    · rw [hd', hd, (firstChild_eq_cons.1 hy).2]
      rfl
    · rintro - r₂ - - rfl
      exact StateReturns.pure hr₁ ⟨⟨it', rfl, hoff', hd'⟩, hknown⟩

end Parent

section Increment

variable {fuel : ℕ}

theorem Consistent.depth_le_offset (h : Consistent t r) {x : Node} (hx : x ∈ t) :
    x.depth ≤ x.offset := by
  induction hoff : x.offset using Nat.strong_induction_on generalizing x with
  | h n ih =>
    by_cases h0 : x.offset = 0
    · rw [(h.wellFormed.depth_eq_zero_iff hx).2 h0]
      exact Nat.zero_le n
    · obtain ⟨z, hz⟩ := h.exists_parent hx h0
      have hlt := key_lt_of_isParent h.wellFormed.sorted hz
      have hle := ih z.offset (by omega) (isParent_mem hz).1 rfl
      obtain ⟨-, -, -, -, hd, -⟩ := hz
      omega

/-- Nothing comes behind the whole tree. -/
theorem WellFormed.after_root (h : WellFormed t) {l : List Node} (hl : rootNode :: l <:+ t) :
    after Node.depth (rootNode :: l) = [] := by
  obtain ⟨l₀, rfl, hpos⟩ := h.rooted
  obtain ⟨-, rfl⟩ := List.cons.inj (h.sorted.suffix_unique hl List.suffix_rfl rfl)
  rw [after, List.dropWhile_eq_nil_iff]
  intro x hx
  exact decide_eq_true (hpos x hx)

/-- What fails for want of a cached parent fails for a DIE up to `x` or above it. -/
def FailsFor (t : List Node) (r : Root) (x : Node) (c : Prop) : Prop :=
  ∀ y ∈ t, y.offset ≤ x.offset → y.offset ≠ 0 → r.parentOf y.offset = none → c

theorem parentOf_none_of_moved {r' : Root} (hm : Moved r r') {off : ℕ}
    (hn : r'.parentOf off = none) : r.parentOf off = none := by
  cases hp : r.parentOf off with
  | none => rfl
  | some p =>
    have := hm.parents off (by rw [hp]; rfl)
    rw [hn] at this
    exact absurd this (by simp)

theorem FailsFor.mono {r' : Root} {x z : Node} {c : Prop} (h : FailsFor t r x c)
    (hm : Moved r r') (hle : z.offset ≤ x.offset) : FailsFor t r' z c :=
  fun y hy hyz h0 hn => h y hy (hyz.trans hle) h0 (parentOf_none_of_moved hm hn)

/-- At the root position `move_to_parent` does not move. -/
theorem moveToParent_root {it : Iterator} (h0 : it.offset = 0) :
    moveToParent fuel it r = .ok (none, r) := by
  have htag : r.tagHere it.offset ≠ dwTagCompileUnit := by
    rw [Root.tagHere, if_pos h0]
    decide
  have hparent : parent fuel it r = .ok (none, r) := by
    change (if r.tagHere it.offset = dwTagCompileUnit then _ else
      if it.offset = 0 then (pure none : RootM (Option Iterator)) else _ : RootM _) r = _
    rw [if_neg htag, if_pos h0]
    rfl
  change (parent fuel it r).bind _ = _
  rw [hparent]
  rfl

/-- What an increment needs of the moves it makes: each keeps `inv` and goes to a relative in `t`,
and those from a DIE to its sibling and parent may fail where `c` holds.  `ok r x` is what is known
of the DIE moved from. -/
structure Moving (t : List Node) (fuel : ℕ) (inv : Root → Prop) (c : Prop)
    (ok : Root → Node → Prop) : Prop where
  consistent : ∀ {r}, inv r → Consistent t r
  stays : ∀ {r r' x}, ok r x → Moved r r' → ok r' x
  above : ∀ {r x z}, inv r → IsParent Node.depth t z x → ok r x → ok r z
  depth : ∀ {r x it}, inv r → x ∈ t → ok r x → Standing x it →
    StateReturns inv Moved (withDepth fuel it) r fun it' _ =>
      it'.offset = x.offset ∧ it'.depth = some x.depth
  child : ∀ {r x l it}, inv r → x :: l <:+ t → ok r x → it.offset = x.offset →
    it.depth = some x.depth → StateReturns inv Moved (moveToFirstChild fuel it) r fun res r' =>
      IsAt (Preorder.firstChild Node.depth (x :: l)) res ∧
        ParentKnown r' (Preorder.firstChild Node.depth (x :: l))
  sibling : ∀ {r x l it}, inv r → x :: l <:+ t → ok r x → it.offset = x.offset →
    it.depth = some x.depth →
    StateReturnsUnless inv Moved c (moveToNextSibling (withDepth fuel) it) r fun res r' =>
      IsAt (Preorder.nextSibling Node.depth (x :: l)) res ∧
        ParentKnown r' (Preorder.nextSibling Node.depth (x :: l))
  parent : ∀ {r x z it}, inv r → IsParent Node.depth t z x → ok r x → Standing x it →
    StateReturnsUnless inv Moved c (moveToParent fuel it) r fun res _ =>
      ∃ p, res = some p ∧ Standing z p

section Moving

variable {inv : Root → Prop} {c : Prop} {ok : Root → Node → Prop}

theorem inv_require {p : Prop} [Decidable p] {r : Root} (h : p) (hinv : inv r) :
    StateReturns inv Moved (require p) r fun _ r' => r' = r :=
  ⟨(), r, if_pos h, hinv, Std.Refl.refl r, rfl⟩

/-- **Climbing on from a subtree that is done goes to what is behind it.** -/
theorem Moving.climbOn (hm : Moving t fuel inv c ok) (h : inv r) {x : Node} {l : List Node}
    (hx : x :: l <:+ t) {it : Iterator} (hit : Standing x it) (hok : ok r x) {start : ℕ}
    (hstart : ∀ y ∈ (after Node.depth (x :: l)).head?, start < y.offset) {n : ℕ}
    (hn : x.depth < n) :
    StateReturnsUnless inv Moved c (climbOn fuel start n it) r fun res r' =>
      IsAt (after Node.depth (x :: l)) res ∧ ParentKnown r' (after Node.depth (x :: l)) := by
  induction n generalizing r x l it with
  | zero => omega
  | succ n ih =>
    have hmem := mem_of_suffix hx
    have hcons := hm.consistent h
    refine (hm.depth h hmem hok hit).unless.bind ?_
    rintro it' r₁ hr₁ hmoved₁ ⟨hoff', hd'⟩
    have hok₁ := hm.stays hok hmoved₁
    refine (hm.sibling hr₁ hx hok₁ hoff' hd').bind ?_
    rintro res r₂ hr₂ hmoved₂ ⟨hat, hknown⟩
    have hok₂ := hm.stays hok₁ hmoved₂
    cases hy : Preorder.nextSibling Node.depth (x :: l) with
    | cons y l' =>
      rw [hy] at hat hknown
      obtain ⟨it₂, rfl, hoff₂, hd₂⟩ := hat
      have hafter := (nextSibling_eq_cons.1 hy).1
      rw [hafter] at hstart ⊢
      refine StateReturnsUnless.bind (p := fun _ r'' => r'' = r₂) (inv_require ?_ hr₂).unless ?_
      · rw [hoff₂]
        exact hstart y rfl
      · rintro - r₃ hr₃ - rfl
        exact StateReturnsUnless.pure hr₃ ⟨⟨it₂, rfl, hoff₂, hd₂⟩, hknown⟩
    | nil =>
      rw [hy] at hat
      obtain rfl : res = none := hat
      dsimp only
      by_cases h0 : x.offset = 0
      · -- The climb has come to the root position.
        obtain rfl := (hcons.wellFormed.eq_root_iff hmem).1 h0
        rw [hcons.wellFormed.after_root hx]
        refine StateReturnsUnless.bind (p := fun res' r' => res' = none ∧ r' = r₂)
          (.inl ⟨none, r₂, moveToParent_root (hoff'.trans h0), hr₂, Std.Refl.refl r₂, rfl, rfl⟩) ?_
        rintro p r₃ hr₃ - ⟨rfl, -⟩
        exact StateReturnsUnless.pure hr₃ ⟨rfl, parentKnown_nil⟩
      · obtain ⟨z, hz⟩ := hcons.exists_parent hmem h0
        have hokz := hm.above hr₂ hz hok₂
        refine (hm.parent hr₂ hz hok₂ ⟨hoff', .inl hd'⟩).bind ?_
        rintro p r₃ hr₃ hmoved₃ ⟨it₃, rfl, hit₃⟩
        obtain ⟨l₀, mid, l', rfl, hdz, hmid⟩ := hz
        have hl : x :: l = x :: l' := by
          refine hcons.wellFormed.sorted.suffix_unique hx ⟨l₀ ++ z :: mid, ?_⟩ rfl
          rw [List.append_assoc, List.cons_append]
        obtain ⟨-, rfl⟩ := List.cons.inj hl
        have hafter := after_of_last hdz hmid hy
        rw [← hafter] at hstart ⊢
        exact ih hr₃ (List.suffix_append _ _) hit₃ (hm.stays hokz hmoved₃) hstart (by omega)

/-- **An increment goes to the next DIE in pre-order.** -/
theorem Moving.dfIncrement (hm : Moving t fuel inv c ok) (hfuel : EnoughFuel t fuel) (h : inv r)
    {x : Node} {l : List Node} (hx : x :: l <:+ t) {it : Iterator} (hit : Standing x it)
    (hok : ok r x) :
    StateReturnsUnless inv Moved c (dfIncrement fuel it) r fun res r' =>
      IsAt l res ∧ ParentKnown r' l := by
  have hmem := mem_of_suffix hx
  have hcons := hm.consistent h
  have hnext : ∀ y l', l = y :: l' → x.offset < y.offset := by
    rintro y l' rfl
    exact List.rel_of_pairwise_cons (hcons.wellFormed.sorted.suffix hx) List.mem_cons_self
  refine (hm.depth h hmem hok hit).unless.bind ?_
  rintro it' r₁ hr₁ hmoved₁ ⟨hoff', hd'⟩
  have hok₁ := hm.stays hok hmoved₁
  refine (hm.child hr₁ hx hok₁ hoff' hd').unless.bind ?_
  rintro res r₂ hr₂ hmoved₂ ⟨hat, hknown⟩
  cases hy : Preorder.firstChild Node.depth (x :: l) with
  | cons y l' =>
    rw [hy] at hat hknown
    obtain ⟨it₂, rfl, hoff₂, hd₂⟩ := hat
    obtain ⟨rfl, -⟩ := firstChild_eq_cons.1 hy
    refine StateReturnsUnless.bind (p := fun _ r'' => r'' = r₂) (inv_require ?_ hr₂).unless ?_
    · rw [hoff', hoff₂]
      exact hnext y l' rfl
    · rintro - r₃ hr₃ - rfl
      exact StateReturnsUnless.pure hr₃ ⟨⟨it₂, rfl, hoff₂, hd₂⟩, hknown⟩
  | nil =>
    rw [hy] at hat
    obtain rfl : res = none := hat
    have hafter := after_of_leaf (hcons.wellFormed.steps.suffix hx) hy
    rw [← hafter]
    refine hm.climbOn hr₂ hx ⟨hoff', .inl hd'⟩ (hm.stays hok₁ hmoved₂) ?_
      ((hcons.depth_le_offset hmem).trans_lt (hfuel.2 x hmem))
    rw [hafter, hoff']
    intro y hy'
    obtain ⟨l', rfl⟩ := List.head?_eq_some_iff.1 hy'
    exact hnext y l' rfl

end Moving

theorem moving_failsFor (hfuel : EnoughFuel t fuel) (c : Prop) :
    Moving t fuel (Consistent t) c fun r x => FailsFor t r x c where
  consistent h := h
  stays h hmoved := h.mono hmoved le_rfl
  above h hz hok := hok.mono (Std.Refl.refl _) (key_lt_of_isParent h.wellFormed.sorted hz).le
  depth h hx _ hit := (withDepth_reaches h hx hit.1 hit.2 (hfuel.2 _ hx) hfuel.1).mono
    fun _ _ _ _ hpost => ⟨hpost.1, hpost.2.1⟩
  child h hx _ hoff hd := moveToFirstChild_reaches h hx hoff hd
  sibling h hx hok hoff hd := moveToNextSibling_unless h hx leavesKnown_withDepth hoff hd
    (hok _ (mem_of_suffix hx) le_rfl)
  parent h hz hok hit := moveToParent_unless h hfuel hz hit fun hnone =>
    hok _ (isParent_mem hz).2 le_rfl
      (Nat.ne_of_gt (Nat.zero_lt_of_lt (key_lt_of_isParent h.wellFormed.sorted hz))) hnone

/-- Where a parent up to the DIE is not cached, an increment may fail. -/
theorem dfIncrement_unless (h : Consistent t r) (hfuel : EnoughFuel t fuel) {x : Node}
    {l : List Node} (hx : x :: l <:+ t) {it : Iterator} (hit : Standing x it) {c : Prop}
    (hc : FailsFor t r x c) :
    ReachesUnless t c (dfIncrement fuel it) r fun res r' => IsAt l res ∧ ParentKnown r' l :=
  (moving_failsFor hfuel c).dfIncrement hfuel h hx hit hc

/-- The parents of the DIEs up to the first of `s` are cached. -/
def PathKnown (t : List Node) (r : Root) (s : List Node) : Prop :=
  ∀ x ∈ s.head?, ∀ y ∈ t, y.offset ≤ x.offset → y.offset ≠ 0 → (r.parentOf y.offset).isSome = true

theorem pathKnown_root (h : Consistent t r) : PathKnown t r t := by
  intro x hx y hy hle h0
  obtain ⟨l, rfl, -⟩ := h.wellFormed.rooted
  obtain rfl : rootNode = x := by simpa using hx
  exact absurd (Nat.le_zero.1 hle) h0

theorem PathKnown.failsFor {x : Node} {l : List Node} (h : PathKnown t r (x :: l)) :
    FailsFor t r x False := by
  intro y hy hle h0 hnone
  have := h x rfl y hy hle h0
  rw [hnone] at this
  exact absurd this (by simp)

/-- A DIE up to the next one is that itself or one up to the one before. -/
theorem PathKnown.tail {r' : Root} {x : Node} {l : List Node} (h : PathKnown t r (x :: l))
    (hsorted : Sorted Node.offset t) (hs : x :: l <:+ t) (hmoved : Moved r r')
    (hl : ParentKnown r' l) : PathKnown t r' l := by
  intro y hy z hz hle h0
  obtain ⟨l', rfl⟩ := List.head?_eq_some_iff.1 hy
  obtain ⟨pre, rfl⟩ := hs
  rcases List.mem_append.1 hz with hzp | hzs
  · have hlt := (List.pairwise_append.1 hsorted).2.2 z hzp x List.mem_cons_self
    exact hmoved.parents _ (h x rfl z hz hlt.le h0)
  · rcases List.mem_cons.1 hzs with rfl | hzs
    · exact hmoved.parents _ (h z rfl z hz le_rfl h0)
    · rcases List.mem_cons.1 hzs with rfl | hzs
      · exact hl z rfl
      · have hlt := List.rel_of_pairwise_cons
          (hsorted.suffix ((List.suffix_cons x _).trans (List.suffix_append pre _))) hzs
        omega

/-- The position of a traversal: an iterator at the first of what is left, or the end. -/
def TraversalAt (s : List Node) (res : Option Iterator) : Prop :=
  match s with
  | [] => res = none
  | x :: _ => ∃ it, res = some it ∧ Standing x it

theorem TraversalAt.of_isAt {s : List Node} {res : Option Iterator} (h : IsAt s res) :
    TraversalAt s res := by
  cases s with
  | nil => exact h
  | cons y l =>
    obtain ⟨it, hres, hoff, hd⟩ := h
    exact ⟨it, hres, hoff, .inl hd⟩

theorem traversalAt_begin (h : Consistent t r) : TraversalAt t (some Root.begin) := by
  obtain ⟨l, rfl, -⟩ := h.wellFormed.rooted
  exact ⟨_, rfl, rfl, .inl rfl⟩

/-- **A traversal meets every DIE from its start on, once and in order.** -/
theorem traverse_from (h : Consistent t r) (hfuel : EnoughFuel t fuel) {s : List Node}
    (hs : s <:+ t) {res : Option Iterator} (hat : TraversalAt s res) (hknown : PathKnown t r s)
    {n : ℕ} (hn : s.length < n) :
    Reaches t (traverse fuel n res) r fun offs _ => offs = s.map Node.offset := by
  induction s generalizing r res n with
  | nil =>
    obtain ⟨n, rfl⟩ := Nat.exists_eq_succ_of_ne_zero (by omega : n ≠ 0)
    obtain rfl : res = none := hat
    exact StateReturns.pure h rfl
  | cons x l ih =>
    obtain ⟨n, rfl⟩ := Nat.exists_eq_succ_of_ne_zero (by omega : n ≠ 0)
    obtain ⟨it, rfl, hit⟩ := hat
    refine ((dfIncrement_unless h hfuel hs hit hknown.failsFor).returns id).bind ?_
    rintro next r₁ hr₁ hmoved ⟨hnext, hk⟩
    refine (ih hr₁ ((List.suffix_cons x l).trans hs) (.of_isAt hnext)
      (hknown.tail h.wellFormed.sorted hs hmoved hk) (Nat.lt_of_succ_lt_succ hn)).bind ?_
    rintro offs r₂ hr₂ - rfl
    refine StateReturns.pure hr₂ ?_
    rw [hit.1, List.map_cons]

/-- **A depth-first traversal from the root position visits every DIE exactly once.** -/
theorem traverse_reaches (h : Consistent t r) (hfuel : EnoughFuel t fuel) :
    Reaches t (traverse fuel fuel (some Root.begin)) r fun offs _ => offs = t.map Node.offset :=
  traverse_from h hfuel List.suffix_rfl (traversalAt_begin h) (pathKnown_root h) hfuel.1

end Increment

end Dies
end Dwarfpp
