/-
# Finding a DIE by its offset

`find` climbs the cached parents and, where they do not lead up to the root,
searches breadth-first from the root, passing over or fast-forwarding into
subtrees by comparing offsets.  Where the root knows its tree, it answers with
the DIE at the offset or with the end position, whatever else is cached
(`find_eq_naive`).
-/

import Dwarfpp.Dies.Moves

namespace Dwarfpp
namespace Dies

open Lib
open Lib.Preorder hiding firstChild nextSibling

variable {t : List Node} {r : Root}

section Search

/-- The iterator is at the first node of `s`. -/
def Placed (it : Iterator) (s : List Node) : Prop :=
  ∃ x l, s = x :: l ∧ it.offset = x.offset ∧ it.depth = some x.depth

/-- The position and the queue are the frontier `f`. -/
def FrontAt (res : Option Iterator × List Iterator) (f : List (List Node)) : Prop :=
  match f with
  | [] => res.1 = none
  | s :: q => (∃ it, res.1 = some it ∧ Placed it s) ∧ List.Forall₂ Placed res.2 q

/-- The parents of the frontier are cached. -/
def ParentsKnown (r : Root) (f : List (List Node)) : Prop :=
  ∀ s ∈ f, ∀ x ∈ s.head?, x.offset ≠ 0 → (r.parentOf x.offset).isSome = true

theorem ParentsKnown.mono {r' : Root} {f : List (List Node)} (h : ParentsKnown r f)
    (hm : Moved r r') : ParentsKnown r' f := fun s hs x hx h0 => hm.parents _ (h s hs x hx h0)

theorem ParentsKnown.tail {s : List Node} {f : List (List Node)} (h : ParentsKnown r (s :: f)) :
    ParentsKnown r f := fun s' hs' => h s' (List.mem_cons_of_mem _ hs')

theorem ParentsKnown.append {f g : List (List Node)} (hf : ParentsKnown r f)
    (hg : ParentsKnown r g) : ParentsKnown r (f ++ g) :=
  fun s hs => (List.mem_append.1 hs).elim (hf s) (hg s)

theorem parentsKnown_places {s : List Node} (h : ParentKnown r s) : ParentsKnown r (places s) := by
  intro s' hs' x hx _
  rw [(mem_places.1 hs').1] at hx
  exact h x hx

theorem frontAt_popFront {queue : List Iterator} {q : List (List Node)}
    (h : List.Forall₂ Placed queue q) : FrontAt (popFront queue) q := by
  cases h with
  | nil => rfl
  | cons hit hq => exact ⟨⟨_, rfl, hit⟩, hq⟩

theorem forall₂_toList {s : List Node} {res : Option Iterator} (h : IsAt s res) :
    List.Forall₂ Placed res.toList (places s) := by
  cases s with
  | nil =>
    obtain rfl : res = none := h
    exact .nil
  | cons x l =>
    obtain ⟨it, rfl, hoff, hdepth⟩ := h
    exact .cons ⟨x, l, rfl, hoff, hdepth⟩ .nil

theorem bfIncrementSkippingSubtree_reaches (h : Consistent t r) {x : Node} {l : List Node}
    (hx : x :: l <:+ t) {it : Iterator} (hit : Placed it (x :: l)) {queue : List Iterator}
    {q : List (List Node)} (hq : List.Forall₂ Placed queue q)
    (hknown : ParentsKnown r ((x :: l) :: q)) :
    Reaches t (bfIncrementSkippingSubtree it queue) r fun res r' =>
      FrontAt res (skip Node.depth (x :: l) q) ∧ ParentsKnown r' (skip Node.depth (x :: l) q) := by
  obtain ⟨x', l', heq, hoff, hdepth⟩ := hit
  obtain ⟨rfl, rfl⟩ := List.cons.inj heq
  refine (moveToNextSibling_reaches h hx leavesKnown_knownDepth hoff hdepth
    (hknown _ List.mem_cons_self x rfl)).bind ?_
  rintro res r' hr' hmoved ⟨hat, hk⟩
  have hall : ParentsKnown r' (skip Node.depth (x :: l) q) :=
    (parentsKnown_places hk).append (hknown.tail.mono hmoved)
  unfold skip at hall ⊢
  cases hy : Preorder.nextSibling Node.depth (x :: l) with
  | nil =>
    rw [hy] at hat hall
    obtain rfl : res = none := hat
    exact StateReturns.pure hr' ⟨frontAt_popFront hq, hall⟩
  | cons y m =>
    rw [hy] at hat hall
    obtain ⟨it', rfl, hoff', hdepth'⟩ := hat
    exact StateReturns.pure hr' ⟨⟨⟨it', rfl, y, m, rfl, hoff', hdepth'⟩, hq⟩, hall⟩

theorem bfIncrement_reaches (h : Consistent t r) {x : Node} {l : List Node} (hx : x :: l <:+ t)
    {it : Iterator} (hit : Placed it (x :: l)) {queue : List Iterator} {q : List (List Node)}
    (hq : List.Forall₂ Placed queue q) (hknown : ParentsKnown r ((x :: l) :: q)) :
    Reaches t (bfIncrement it queue) r fun res r' =>
      FrontAt res (advance Node.depth (x :: l) q) ∧
        ParentsKnown r' (advance Node.depth (x :: l) q) := by
  obtain ⟨x', l', heq, hoff, hdepth⟩ := id hit
  obtain ⟨rfl, rfl⟩ := List.cons.inj heq
  refine (firstChild_reaches h hx hoff hdepth).bind ?_
  rintro res r₁ hr₁ hmoved ⟨hat, hk⟩
  have hall : ParentsKnown r₁
      ((x :: l) :: (q ++ places (Preorder.firstChild Node.depth (x :: l)))) :=
    ParentsKnown.append (f := (x :: l) :: q) (hknown.mono hmoved) (parentsKnown_places hk)
  exact bfIncrementSkippingSubtree_reaches hr₁ hx hit
    (List.rel_append (R := Placed) hq (forall₂_toList hat)) hall

/-- **One round of the search** gets nearer to the end and loses no DIE at the offset it looks
for. -/
theorem searchStep_reaches (h : Consistent t r) {x : Node} {l : List Node}
    {q : List (List Node)} (hf : Frontier Node.depth Node.offset t ((x :: l) :: q)) {it : Iterator}
    (hit : Placed it (x :: l)) {queue : List Iterator} (hq : List.Forall₂ Placed queue q)
    (hknown : ParentsKnown r ((x :: l) :: q)) {off : ℕ} (hne : x.offset ≠ off) :
    Reaches t (searchStep off it queue) r fun res r' => ∃ f',
      FrontAt res f' ∧ ParentsKnown r' f' ∧ Frontier Node.depth Node.offset t f' ∧
      weight Node.depth f' < weight Node.depth ((x :: l) :: q) ∧
      ∀ z, z.offset = off → Covers Node.depth ((x :: l) :: q) z → Covers Node.depth f' z := by
  have hw := h.wellFormed
  have hx := (hf.place _ List.mem_cons_self).2
  have hsteps := hw.steps.suffix hx
  have hneq : ∀ z : Node, z.offset = off → z ≠ x := fun z hz heq => hne (heq ▸ hz)
  obtain ⟨x', l', heq, hoff, hdepth⟩ := id hit
  obtain ⟨rfl, rfl⟩ := List.cons.inj heq
  have hadvance := weight_advance (q := q) hsteps
  refine (bfIncrement_reaches h hx hit hq hknown).bind ?_
  rintro next r₁ hr₁ hmoved₁ ⟨hfront, -⟩
  have hknown₁ := hknown.mono hmoved₁
  -- Where the next position is on another level, or none, the search goes there.
  have hgo : next.1.filter (fun n => decide (n.depth = it.depth)) = none →
      Reaches t (bfIncrement it queue) r₁ fun res r' => ∃ f',
        FrontAt res f' ∧ ParentsKnown r' f' ∧ Frontier Node.depth Node.offset t f' ∧
        weight Node.depth f' < weight Node.depth ((x :: l) :: q) ∧
        ∀ z, z.offset = off → Covers Node.depth ((x :: l) :: q) z → Covers Node.depth f' z := by
    intro _
    refine (bfIncrement_reaches hr₁ hx hit hq hknown₁).mono ?_
    rintro res r₂ - - ⟨hat, hk⟩
    exact ⟨_, hat, hk, hf.advance hw.sorted hw.steps, by omega,
      fun z hz hc => covers_advance hsteps hc (hneq z hz)⟩
  cases hn : advance Node.depth (x :: l) q with
  | nil =>
    rw [hn] at hfront
    have hnone : next.1.filter (fun n => decide (n.depth = it.depth)) = none := by
      rw [show next.1 = none from hfront]
      rfl
    rw [hnone]
    exact hgo hnone
  | cons s rest =>
    rw [hn] at hfront
    obtain ⟨⟨n, hnext, y, m, rfl, hnoff, hndepth⟩, -⟩ := hfront
    by_cases hlevel : y.depth = x.depth
    · have hsome : next.1.filter (fun n => decide (n.depth = it.depth)) = some n := by
        rw [hnext, Option.filter_some, if_pos (by rw [hndepth, hdepth, hlevel]; simp)]
      rw [hsome]
      dsimp only
      have hlt := hf.subtree_lt hw.sorted hn hlevel
      refine StateReturns.bind (p := fun _ r'' => r'' = r₁) (reaches_require ?_ hr₁ rfl) ?_
      · rw [hoff, hnoff]
        exact hlt x (mem_subtree_self x l)
      rintro - r₂ - - rfl
      rw [hoff, hnoff]
      by_cases hbetween : off < y.offset ∧ x.offset < off
      · -- The target can only be in the subtree passed over: the search starts again from it.
        rw [if_pos hbetween]
        have hsingle : Frontier Node.depth Node.offset t [x :: l] :=
          Frontier.singleton (List.cons_ne_nil x l) hx
        refine (bfIncrement_reaches hr₁ hx hit .nil ?_).mono ?_
        · intro s hs
          exact hknown₁ s (by rw [List.mem_singleton.1 hs]; exact List.mem_cons_self)
        rintro res r₃ - - ⟨hat, hk⟩
        refine ⟨_, hat, hk, hsingle.advance hw.sorted hw.steps, ?_, fun z hz hc => ?_⟩
        · have hone := weight_advance (q := []) hsteps
          have hle : weight Node.depth [x :: l] ≤ weight Node.depth ((x :: l) :: q) :=
            weight_singleton_le
          omega
        · refine covers_advance hsteps ?_ (hneq z hz)
          have hsub := hf.mem_subtree hw.sorted hn hlevel hc (by omega) (by omega)
          exact ⟨x :: l, List.mem_singleton_self _, subtree_subset_family hsub⟩
      · -- The subtree passed over cannot have the target.
        rw [if_neg hbetween]
        refine (bfIncrementSkippingSubtree_reaches hr₁ hx hit hq hknown₁).mono ?_
        rintro res r₃ - - ⟨hat, hk⟩
        refine ⟨_, hat, hk, hf.skip hw.sorted, weight_skip_lt, fun z hz hc => ?_⟩
        refine covers_skip hc fun hsub => ?_
        have hle := (hw.sorted.suffix hx).key_le
          ((prefix_family _).subset (subtree_subset_family hsub))
        have hzy := hlt z hsub
        exact hbetween ⟨by omega, by omega⟩
    · have hnone : next.1.filter (fun n => decide (n.depth = it.depth)) = none := by
        rw [hnext, Option.filter_some, if_neg (by rw [hndepth, hdepth]; simpa using hlevel)]
      rw [hnone]
      exact hgo hnone

/-- What a search for `off` among the nodes with `p` finds. -/
def Finds (t : List Node) (p : Node → Prop) (off : ℕ) (res : Option Iterator) (r : Root) : Prop :=
  (∃ x ∈ t, x.offset = off ∧ (x.offset ≠ 0 → (r.parentOf x.offset).isSome = true) ∧
    ∃ it, res = some it ∧ it.offset = off ∧ it.depth = some x.depth) ∨
  (res = none ∧ ∀ z, p z → z.offset ≠ off)

/-- **The search finds the DIE at the offset if its frontier covers it.** -/
theorem search_reaches (h : Consistent t r) {f : List (List Node)}
    (hf : Frontier Node.depth Node.offset t f) {res : Option Iterator × List Iterator}
    (hat : FrontAt res f) (hknown : ParentsKnown r f) (off : ℕ) {fuel : ℕ}
    (hfuel : weight Node.depth f < fuel) :
    Reaches t (search off fuel res) r (Finds t (Covers Node.depth f) off) := by
  induction fuel generalizing r f res with
  | zero => omega
  | succ fuel ih =>
    obtain ⟨pos, queue⟩ := res
    cases f with
    | nil =>
      obtain rfl : pos = none := hat
      exact StateReturns.pure h (.inr ⟨rfl, fun z hz => by simp [Covers] at hz⟩)
    | cons s q =>
      obtain ⟨⟨it, hpos, hit⟩, hq⟩ := hat
      obtain rfl : pos = some it := hpos
      obtain ⟨x, l, rfl, hoff, hdepth⟩ := id hit
      have hx := (hf.place _ List.mem_cons_self).2
      rw [search]
      by_cases heq : it.offset = off
      · rw [if_pos heq]
        refine StateReturns.pure h (.inl ⟨x, mem_of_suffix hx, hoff.symm.trans heq, ?_, it, rfl,
          heq, hdepth⟩)
        exact hknown _ List.mem_cons_self x rfl
      · rw [if_neg heq]
        refine (searchStep_reaches h hf hit hq hknown (by rw [← hoff]; exact heq)).bind ?_
        rintro next r' hr' - ⟨f', hat', hknown', hf', hlt, hcovers⟩
        refine (ih hr' hf' hat' hknown' (by omega)).mono ?_
        rintro found r'' - - (hfound | ⟨hnone, hno⟩)
        · exact .inl hfound
        · exact .inr ⟨hnone, fun z hz hzoff => hno z (hcovers z hzoff hz) hzoff⟩

theorem WellFormed.family_eq_self (h : WellFormed t) : family Node.depth t = t := by
  obtain ⟨l, rfl, -⟩ := h.rooted
  rw [family, List.takeWhile_eq_self_iff.2 (by simp [rootNode])]

/-- **`find_downwards` is a search of the whole tree.** -/
theorem findDownwards_reaches (h : Consistent t r) (off : ℕ) {fuel : ℕ}
    (hfuel : t.length < fuel) :
    Reaches t (findDownwards fuel off) r (Finds t (· ∈ t) off) := by
  have hfamily := h.wellFormed.family_eq_self
  obtain ⟨l, rfl, -⟩ := h.wellFormed.rooted
  have hf : Frontier Node.depth Node.offset (rootNode :: l) [rootNode :: l] :=
    Frontier.singleton (List.cons_ne_nil _ _) List.suffix_rfl
  refine (search_reaches h hf 
    ⟨⟨_, rfl, rootNode, l, rfl, rfl, rfl⟩, .nil⟩ ?_ off ?_).mono ?_
  · intro s hs x hx h0
    rw [List.mem_singleton.1 hs] at hx
    obtain rfl : rootNode = x := by simpa using hx
    exact absurd rfl h0
  · rw [weight_cons, hfamily]
    exact hfuel
  · rintro found r' - - (hfound | ⟨hnone, hno⟩)
    · exact .inl hfound
    · refine .inr ⟨hnone, fun z hz => hno z ⟨_, List.mem_singleton_self _, ?_⟩⟩
      rw [hfamily]
      exact hz

end Search

section Climb

/-- **Following cached parents to the root position counts the depth.** -/
theorem climb_eq (h : Consistent t r) {fuel off : ℕ} (hfuel : off < fuel) (height : ℕ) :
    ∃ cur k, climb r.parentOf fuel off height = .ok (cur, height + k) ∧
      (cur = 0 → ∃ x ∈ t, x.offset = off ∧ x.depth = k) ∧
      (cur = 0 → off ≠ 0 → (r.parentOf off).isSome = true) := by
  induction fuel generalizing off height with
  | zero => omega
  | succ fuel ih =>
    unfold climb
    by_cases h0 : off = 0
    · rw [if_pos h0]
      exact ⟨off, 0, rfl, fun _ => ⟨rootNode, h.wellFormed.root_mem, h0.symm, rfl⟩,
        fun _ hne => absurd h0 hne⟩
    · rw [if_neg h0]
      cases hp : r.parentOf off with
      | none => exact ⟨off, 0, rfl, fun hz => absurd hz h0, fun hz => absurd hz h0⟩
      | some p =>
        obtain ⟨x, y, hpar, rfl, rfl⟩ := h.parents off p h0 hp
        have hlt := key_lt_of_isParent h.wellFormed.sorted hpar
        obtain ⟨cur, k, hrun, hdepth, -⟩ := ih (show x.offset < fuel by omega) (height + 1)
        refine ⟨cur, k + 1, ?_, fun hz => ?_, fun _ _ => rfl⟩
        · rw [Nat.add_comm k 1, ← Nat.add_assoc]
          exact hrun
        · obtain ⟨x', hx', hoff, hk⟩ := hdepth hz
          obtain rfl := h.wellFormed.sorted.eq_of_key_eq hx' (isParent_mem hpar).1 hoff
          obtain ⟨-, -, -, -, hd, -⟩ := id hpar
          exact ⟨y, (isParent_mem hpar).2, rfl, by omega⟩

/-- **`pos` is an iterator at the DIE**, given nothing wrong about it.  For a live DIE the depth is
left open. -/
theorem pos_reaches (h : Consistent t r) {x : Node} (hx : x ∈ t) {optDepth parentOff : Option ℕ}
    (hdepth : ∀ d, optDepth = some d → d = x.depth)
    (hparent : ∀ p, parentOff = some p → ∃ z, IsParent Node.depth t z x ∧ z.offset = p)
    (hroot : x.offset = 0 → optDepth = some 0) (hknown : optDepth = some 2 →
      ∃ z, IsParent Node.depth t z x) :
    Reaches t (pos x.offset optDepth parentOff none) r fun it _ =>
      it.offset = x.offset ∧ (it.depth = optDepth ∨ it.depth = none ∧ it.payload = true) ∧
        ((r.liveDies x.offset).isSome = false → it.depth = optDepth) := by
  refine StateReturns.get_bind ?_
  by_cases hz : optDepth = some 0
  · have h0 : x.offset = 0 := (h.wellFormed.depth_eq_zero_iff hx).1 (hdepth 0 hz).symm
    rw [if_pos hz]
    refine StateReturns.bind (p := fun _ r'' => r'' = r) (reaches_require h0 h rfl) ?_
    rintro - r₁ - - rfl
    refine StateReturns.bind (p := fun _ r'' => r'' = r₁) (reaches_require rfl h rfl) ?_
    rintro - r₂ - - rfl
    exact StateReturns.pure h ⟨h0.symm, .inl hz.symm, fun _ => hz.symm⟩
  have h0 : x.offset ≠ 0 := fun h0 => hz (hroot h0)
  rw [if_neg hz]
  by_cases hlive : (r.liveDies x.offset).isSome = true
  · rw [if_pos hlive]
    refine StateReturns.pure h ⟨rfl, .inr ⟨rfl, rfl⟩, fun hnot => ?_⟩
    rw [hlive] at hnot
    exact absurd hnot (by decide)
  rw [if_neg hlive]
  have hfile : x.inMemory = false := by
    cases hm : x.inMemory with
    | false => rfl
    | true => exact absurd (h.live_of_inMemory hx hm) hlive
  obtain ⟨lib, hdbg⟩ : ∃ lib, r.dbg = some lib := by
    cases hdbg : r.dbg with
    | none =>
      rw [h.noFile hdbg x hx h0] at hfile
      exact absurd hfile (by decide)
    | some lib => exact ⟨lib, rfl⟩
  have hserves := h.serves lib hdbg
  rw [if_pos (by rw [hdbg]; exact (hserves.offdie _).2 ⟨x, hx, rfl, hfile, h0⟩)]
  refine (ofDie_reaches h hx h0 optDepth).bind ?_
  rintro base r₁ hr₁ hmoved₁ ⟨hoff, hbase⟩
  have henter : Consistent t { r₁ with parentOf := r₁.posParent x.offset optDepth parentOff } ∧
      ∀ c, (r₁.parentOf c).isSome = true →
        (r₁.posParent x.offset optDepth parentOff c).isSome = true := by
    unfold Root.posParent
    split_ifs with h1 h2 hp
    · have hpar := h.wellFormed.isParent_root hx (hdepth 1 h1).symm
      exact ⟨hr₁.enterParent hpar, fun c hc => isSome_update hc⟩
    · obtain ⟨z, hpar⟩ := hknown h2
      have hcu : (r₁.dbg.map fun lib => lib.cuDieoffset x.offset) = some z.offset := by
        rw [hmoved₁.dbg, hdbg, Option.map_some,
          hserves.cuDieoffset z x hpar hfile (hdepth 2 h2).symm]
      rw [hcu]
      exact ⟨hr₁.enterParent hpar, fun c hc => isSome_update hc⟩
    · obtain ⟨p, rfl⟩ := Option.isSome_iff_exists.1 hp
      obtain ⟨z, hpar, rfl⟩ := hparent p rfl
      exact ⟨hr₁.enterParent hpar, fun c hc => isSome_update hc⟩
    · exact ⟨hr₁, fun c hc => hc⟩
  refine StateReturns.bind (p := fun _ _ => True)
    (StateReturns.modify henter.1 ⟨rfl, rfl, henter.2, fun _ h => h, fun _ h => h⟩ trivial) ?_
  rintro - r₂ hr₂ - -
  exact StateReturns.pure hr₂ ⟨hoff, .inl hbase, fun _ => hbase⟩

/-- What a lookup of `off` answers: the DIE there, with its depth or with a payload to find that out
by, or the end. -/
def Locates (t : List Node) (off : ℕ) (res : Option Iterator) (r : Root) : Prop :=
  (∃ x ∈ t, x.offset = off ∧ (x.offset ≠ 0 → (r.parentOf x.offset).isSome = true) ∧
    ∃ it, res = some it ∧ it.offset = off ∧
      (it.depth = some x.depth ∨ it.depth = none ∧ it.payload = true)) ∨
  (res = none ∧ ∀ z ∈ t, z.offset ≠ off)

theorem Finds.locates {off : ℕ} {res : Option Iterator} (h : Finds t (· ∈ t) off res r) :
    Locates t off res r := by
  rcases h with ⟨x, hx, hoff, hk, it, hres, hit, hd⟩ | h
  · exact .inl ⟨x, hx, hoff, hk, it, hres, hit, .inl hd⟩
  · exact .inr h

/-- The subscript `parent_of[off]` makes no wrong entry but for the root position. -/
theorem Consistent.subscript (h : Consistent t r) {off : ℕ}
    (hknown : off ≠ 0 → (r.parentOf off).isSome = true) :
    Consistent t { r with
      parentOf := Function.update r.parentOf off (some ((r.parentOf off).getD 0)) } := by
  refine h.of_context rfl h.context rfl rfl rfl ?_ fun c hc => isSome_update hc
  intro c p hc hp
  dsimp only at hp
  by_cases heq : c = off
  · subst heq
    obtain ⟨p', hp'⟩ := Option.isSome_iff_exists.1 (hknown hc)
    rw [Function.update_self, hp'] at hp
    exact h.parents c p hc (hp'.trans hp)
  · rw [Function.update_of_ne heq] at hp
    exact h.parents c p hc hp

/-- `find_upwards` answers with the DIE at the offset or gives up.  Without the payload it finds the
depth of what is not live. -/
theorem findUpwards_reaches (h : Consistent t r) {fuel off : ℕ} (hfuel : off < fuel)
    (payload : Bool) :
    Reaches t (findUpwards fuel off payload) r fun res r' =>
      res = none ∨ (Locates t off res r' ∧
        (payload = true ∨ (r.liveDies off).isSome = false → res.any (·.depth.isSome))) := by
  obtain ⟨cur, k, hclimb, hdepth, hknown⟩ := climb_eq h hfuel 0
  refine StateReturns.get_bind (StateReturns.bind (p := fun res r'' => res = (cur, k) ∧ r'' = r)
    ⟨(cur, k), r, ?_, h, Std.Refl.refl r, rfl, rfl⟩ ?_)
  · rw [Nat.zero_add] at hclimb
    change (climb r.parentOf fuel off 0 >>= fun a => pure (a, r)) = _
    rw [hclimb]
    rfl
  rintro - r₀ - - ⟨rfl, rfl⟩
  dsimp only
  by_cases hz : cur = 0
  · obtain ⟨x, hx, rfl, rfl⟩ := hdepth hz
    have hk := hknown hz
    rw [if_pos hz, h.wellFormed.toUShort_depth hx]
    cases payload with
    | true => exact StateReturns.pure h (.inr ⟨.inl ⟨x, hx, rfl, hk, _, rfl, rfl, .inl rfl⟩,
        fun _ => rfl⟩)
    | false =>
      rw [if_neg (by decide)]
      have hparent : x.offset ≠ 0 →
          ∃ z, IsParent Node.depth t z x ∧ z.offset = (r₀.parentOf x.offset).getD 0 := by
        intro h0
        obtain ⟨p, hp⟩ := Option.isSome_iff_exists.1 (hk h0)
        obtain ⟨l, hl⟩ := exists_suffix_of_mem hx
        obtain ⟨z, hpar, hzp⟩ := WellFormed.exists_parent_of_known h hl h0 hp
        exact ⟨z, hpar, by rw [hp]; exact hzp⟩
      refine StateReturns.bind (p := fun _ r' => (x.offset ≠ 0 →
          (r'.parentOf x.offset).isSome = true) ∧ r'.liveDies = r₀.liveDies)
        (StateReturns.modify (h.subscript hk) (Moved.enterParent _ _) ⟨fun _ => by simp, rfl⟩) ?_
      rintro - r₁ hr₁ - ⟨hk₁, hlive⟩
      by_cases h0 : x.offset = 0
      · have hd0 := (h.wellFormed.depth_eq_zero_iff hx).2 h0
        rw [hd0]
        refine StateReturns.bind (p := fun it r' => it = Root.begin ∧ r' = r₁)
          ⟨Root.begin, r₁, ?_, hr₁, Std.Refl.refl r₁, rfl, rfl⟩ ?_
        · rw [h0]
          rfl
        · rintro - r₂ hr₂ - ⟨rfl, rfl⟩
          refine StateReturns.pure hr₂ (.inr ⟨.inl ⟨x, hx, rfl, hk₁, _, rfl, h0.symm, .inl ?_⟩,
            fun _ => rfl⟩)
          rw [hd0]
          rfl
      · obtain ⟨z, hpar, hzp⟩ := hparent h0
        refine (pos_reaches hr₁ hx ?_ ?_ ?_ ?_).bind ?_
        · rintro d hd
          exact (Option.some.inj hd).symm
        · rintro p hp
          exact ⟨z, hpar, hzp.trans (Option.some.inj hp)⟩
        · exact fun hx0 => absurd hx0 h0
        · exact fun _ => ⟨z, hpar⟩
        · rintro it r₂ hr₂ hmoved₂ ⟨hoff, hd, htold⟩
          refine StateReturns.pure hr₂ (.inr ⟨.inl ⟨x, hx, rfl,
            fun hx0 => hmoved₂.parents _ (hk₁ hx0), it, rfl, hoff, hd⟩, ?_⟩)
          rintro (hp | hnot)
          · exact absurd hp (by decide)
          · rw [← hlive] at hnot
            simp [htold hnot]
  · rw [if_neg hz]
    exact StateReturns.pure h (.inl rfl)

/-- **`find` locates the DIE at the offset.**  It tells the depth if it is given the payload or the
DIE is not live. -/
theorem find_reaches (h : Consistent t r) {fuel off : ℕ} (hoff : off < fuel)
    (hfuel : t.length < fuel) (payload : Bool) :
    Reaches t (find fuel off none payload) r fun res r' =>
      Locates t off res r' ∧ (payload = true ∨ (r.liveDies off).isSome = false →
        res = none ∨ res.any (·.depth.isSome)) := by
  refine (findUpwards_reaches h hoff payload).bind ?_
  rintro res r₁ hr₁ - hres
  cases res with
  | some it =>
    rcases hres with hnone | ⟨hloc, hdepth⟩
    · exact absurd hnone (by simp)
    · exact StateReturns.pure hr₁ ⟨hloc, fun hp => .inr (hdepth hp)⟩
  | none =>
    refine (findDownwards_reaches hr₁ off hfuel).bind ?_
    rintro found r₂ hr₂ - hfound
    cases found with
    | none => exact StateReturns.pure hr₂ ⟨hfound.locates, fun _ => .inl rfl⟩
    | some it =>
      refine StateReturns.pure hr₂ ⟨hfound.locates, fun _ => .inr ?_⟩
      rcases hfound with ⟨x, -, -, -, it', heq, -, hd⟩ | ⟨hnone, -⟩
      · obtain rfl := Option.some.inj heq
        simp [hd]
      · exact absurd hnone (by simp)

/-- **`depth()` is the depth.** -/
theorem withDepth_of_locatable (h : Consistent t r) {x : Node} (hx : x ∈ t) {it : Iterator}
    (hoff : it.offset = x.offset) (hit : it.depth = some x.depth ∨ it.depth = none ∧ Locatable r it)
    {fuel : ℕ} (hlt : x.offset < fuel) (hfuel : t.length < fuel) :
    Reaches t (withDepth fuel it) r fun it' _ =>
      it'.offset = x.offset ∧ it'.depth = some x.depth ∧ it'.payload = it.payload := by
  unfold withDepth
  rcases hit with hd | ⟨hd, hp⟩
  · rw [hd]
    exact StateReturns.pure h ⟨hoff, hd, rfl⟩
  · rw [Locatable, hoff] at hp
    rw [hd, hoff]
    refine (find_reaches h hlt hfuel it.payload).bind ?_
    rintro res r₁ hr₁ - ⟨hloc, hdepth⟩
    rcases hloc with ⟨y, hy, hyoff, -, it', rfl, hoff', hd'⟩ | ⟨-, hno⟩
    · obtain rfl := h.wellFormed.sorted.eq_of_key_eq hy hx hyoff
      have hd'' : it'.depth = some y.depth := by
        rcases hd' with hd' | ⟨hd', -⟩
        · exact hd'
        · rcases hdepth hp with hn | hs
          · exact absurd hn (by simp)
          · simp [hd'] at hs
      refine StateReturns.bind (p := fun _ r'' => r'' = r₁)
        (reaches_require (by rw [hd'']; rfl) hr₁ rfl) ?_
      rintro - r₂ - - rfl
      refine StateReturns.bind (p := fun _ r'' => r'' = r₂) (reaches_require hoff' hr₁ rfl) ?_
      rintro - r₃ - - rfl
      exact StateReturns.pure hr₁ ⟨rfl, hd'', rfl⟩
    · exact absurd rfl (hno x hx)

/-- The same of an iterator that has been told its depth or has the payload. -/
theorem withDepth_reaches (h : Consistent t r) {x : Node} (hx : x ∈ t) {it : Iterator}
    (hoff : it.offset = x.offset)
    (hit : it.depth = some x.depth ∨ it.depth = none ∧ it.payload = true) {fuel : ℕ}
    (hlt : x.offset < fuel) (hfuel : t.length < fuel) :
    Reaches t (withDepth fuel it) r fun it' _ =>
      it'.offset = x.offset ∧ it'.depth = some x.depth ∧ it'.payload = it.payload :=
  withDepth_of_locatable h hx hoff (hit.imp_right fun hp => ⟨hp.1, .inl hp.2⟩) hlt hfuel

end Climb

/-- The DIE at an offset, by looking at every DIE. -/
def naiveFind (t : List Node) (off : ℕ) : Option Node := t.find? fun x => x.offset = off

/-- **Finding by offset is naive search.**  Where the root knows its tree, `find` returns: an
iterator at the DIE, whose depth is found to be right, or the end position where no DIE is.  The root
knows the tree as before. -/
theorem find_eq_naive (h : Consistent t r) {fuel off : ℕ} (hoff : off < fuel)
    (hfuel : t.length < fuel) :
    ∃ res r', find fuel off none false r = .ok (res, r') ∧ Consistent t r' ∧
      match naiveFind t off with
      | none => res = none
      | some x => ∃ it, res = some it ∧ it.offset = off ∧
          ∃ it' r'', withDepth fuel it r' = .ok (it', r'') ∧ it'.depth = some x.depth ∧
            Consistent t r'' := by
  obtain ⟨res, r', hrun, hr', -, hloc, -⟩ := find_reaches h hoff hfuel false
  refine ⟨res, r', hrun, hr', ?_⟩
  rcases hloc with ⟨x, hx, hxoff, -, it, hres, hitoff, hd⟩ | ⟨hres, hno⟩
  · have hfound : naiveFind t off = some x := by
      unfold naiveFind
      cases hn : t.find? fun x => decide (x.offset = off) with
      | none => exact absurd (decide_eq_true hxoff) (List.find?_eq_none.1 hn x hx)
      | some y =>
        have hyoff : y.offset = off := by simpa using List.find?_some hn
        rw [h.wellFormed.sorted.eq_of_key_eq (List.mem_of_find?_eq_some hn) hx
          (hyoff.trans hxoff.symm)]
    rw [hfound]
    obtain ⟨it', r'', hrun', hr'', -, -, hd', -⟩ :=
      withDepth_reaches hr' hx (hitoff.trans hxoff.symm) hd (by omega) hfuel
    exact ⟨it, hres, hitoff, it', r'', hrun', hd', hr''⟩
  · have hnone : naiveFind t off = none := by
      unfold naiveFind
      rw [List.find?_eq_none]
      intro x hx
      simpa using hno x hx
    rw [hnone]
    exact hres

section Examples

/-- The answers about a file with one unit, whose DIE is at `unit`, with one child at `child`. -/
def smallFile (unit child : ℕ) : Libdwarf where
  child off := if off = unit then some child else none
  siblingof _ := none
  offdie off := off = unit ∨ off = child
  tag off := if off = unit then dwTagCompileUnit else 0x24
  cuDieoffset _ := unit
  cuHeaders := [.version4 (if unit = 11 then 4 else 8) unit 100]

/-- The tree of such a file. -/
def smallTree : List Node := [rootNode, ⟨11, 1, dwTagCompileUnit, false⟩, ⟨20, 2, 0x24, false⟩]

theorem suffix_smallTree {x : Node} {l : List Node} (h : x :: l <:+ smallTree) :
    x :: l = smallTree ∨
      x :: l = [⟨11, 1, dwTagCompileUnit, false⟩, ⟨20, 2, 0x24, false⟩] ∨
      x :: l = [⟨20, 2, 0x24, false⟩] := by
  unfold smallTree at h ⊢
  simpa [List.suffix_cons_iff] using h

theorem file_smallTree : ∀ x ∈ smallTree, x.inMemory = false := by decide

theorem wellFormed_smallTree : WellFormed smallTree where
  rooted := ⟨_, rfl, by decide⟩
  steps := by simp [smallTree, rootNode, Steps]
  sorted := by simp [smallTree, rootNode, Sorted]
  units := by decide
  levels := by decide
  memoryChild x l y l' hx _ hm := by
    rw [file_smallTree x (mem_of_suffix hx)] at hm
    exact absurd hm (by decide)
  memorySibling x l y l' hx _ hm := by
    rw [file_smallTree x (mem_of_suffix hx)] at hm
    exact absurd hm (by decide)

theorem serves_smallFile : Serves (smallFile 11 20) smallTree where
  child x l hx _ h0 := by
    rcases suffix_smallTree hx with h | h | h <;> obtain ⟨rfl, rfl⟩ := List.cons.inj h
    · exact absurd rfl h0
    · rfl
    · rfl
  siblingof x l hx _ hd := by
    rcases suffix_smallTree hx with h | h | h <;> obtain ⟨rfl, rfl⟩ := List.cons.inj h
    · exact absurd hd (by decide)
    · exact absurd hd (by decide)
    · rfl
  offdie off := by
    simp only [smallFile, smallTree, rootNode, decide_eq_true_eq, List.mem_cons, List.not_mem_nil,
      or_false, exists_eq_or_imp, exists_eq_left, true_and]
    omega
  tag := by decide
  cuDieoffset x y hpar _ hd := by
    have hy : y.offset = 20 := by
      have hall : ∀ z ∈ smallTree, z.depth = 2 → z.offset = 20 := by decide
      exact hall y (isParent_mem hpar).2 hd
    have hx : x.depth = 1 := by
      obtain ⟨-, -, -, -, hxd, -⟩ := hpar
      omega
    have hall : ∀ z ∈ smallTree, z.depth = 1 → z.offset = 11 := by decide
    exact (hall x (isParent_mem hpar).1 hx).symm
  unitOf x _ _ _ := ⟨⟨11, 1, dwTagCompileUnit, false⟩, by decide, rfl, rfl⟩
  units := ⟨rfl, rfl, by simp⟩
  firstUnit := by simp [smallFile, CompileUnit.version4]
  allUnits := by decide

theorem consistent_smallRoot :
    Consistent smallTree (Root.make (some (smallFile 11 20)) (fun _ => OrderedMap.empty) false) :=
  consistent_make wellFormed_smallTree (by rintro lib ⟨⟩; exact serves_smallFile) file_smallTree
    (by simp) _ _

/-- The child is found. -/
theorem find_smallRoot : ∃ res r',
    find 30 20 none false (Root.make (some (smallFile 11 20)) (fun _ => OrderedMap.empty) false) =
      .ok (res, r') ∧ Consistent smallTree r' ∧
      match naiveFind smallTree 20 with
      | none => res = none
      | some x => ∃ it, res = some it ∧ it.offset = 20 ∧
          ∃ it' r'', withDepth 30 it r' = .ok (it', r'') ∧ it'.depth = some x.depth ∧
            Consistent smallTree r'' :=
  find_eq_naive consistent_smallRoot (by decide) (by decide)

/-- A file whose DIEs are each the only child of the one before, from the unit at 11 on. -/
def chainFile (last : ℕ) : Libdwarf where
  child off := if 11 ≤ off ∧ off < last then some (off + 1) else none
  siblingof _ := none
  offdie off := 11 ≤ off ∧ off ≤ last
  tag off := if off = 11 then dwTagCompileUnit else 0x24
  cuDieoffset _ := 11
  cuHeaders := [.version4 4 11 (last + 1)]

/-- The parents in such a file. -/
def chainParent (off : ℕ) : Option ℕ :=
  if off < 11 then none else if off = 11 then some 0 else some (off - 1)

theorem climb_chainParent (k height fuel : ℕ) (hk : k + 1 < fuel) :
    climb chainParent fuel (11 + k) height = .ok (0, height + (k + 1)) := by
  induction k generalizing height fuel with
  | zero =>
    obtain ⟨fuel, rfl⟩ := Nat.exists_eq_add_of_le hk
    rw [show 0 + 1 + 1 + fuel = fuel + 1 + 1 by omega]
    rfl
  | succ k ih =>
    obtain ⟨fuel, rfl⟩ := Nat.exists_eq_succ_of_ne_zero (by omega : fuel ≠ 0)
    have hparent : chainParent (11 + (k + 1)) = some (11 + k) := by
      unfold chainParent
      rw [if_neg (by omega), if_neg (by omega)]
      rfl
    rw [climb, if_neg (by omega), hparent]
    dsimp only
    rw [ih (height + 1) fuel (by omega)]
    congr 2
    omega

/-- A DIE 65536 levels down gets the depth 0. -/
theorem find_of_climb {fuel off : ℕ} (h0 : off ≠ 0)
    (hclimb : climb r.parentOf fuel off 0 = .ok (0, 2 ^ 16)) :
    find fuel off none false r = .error .assertFailed := by
  have hpos : ∀ r' parent, pos off (some (toUShort (2 ^ 16))) parent none r' =
      .error .assertFailed := fun r' parent => by
    change (require (off = 0) r').bind _ = _
    rw [require, if_neg h0]
    rfl
  unfold find findUpwards
  simp only [bind, StateT.bind, get, getThe, MonadStateOf.get, StateT.get, liftM, monadLift,
    MonadLift.monadLift, StateT.lift, Except.bind, pure, Except.pure, hclimb, modify, modifyGet,
    MonadStateOf.modifyGet, StateT.modifyGet, if_true, Bool.false_eq_true, if_false, hpos]

/-- A root for the small file whose unit is live, its parent not being cached. -/
def parentlessRoot : Root :=
  { Root.make (some (smallFile 11 20)) (fun _ => OrderedMap.empty) false with
    liveDies := fun off => if off = 11 then some .ofFile else none
    firstChildOf := fun off => if off = 0 then some 11 else none }

/-- Three units without children, of which the second one's DIE is a `DW_TAG_partial_unit`. -/
def partialFile : Libdwarf where
  child _ := none
  siblingof _ := none
  offdie off := off = 11 ∨ off = 111 ∨ off = 211
  tag off := if off = 111 then 0x3c else dwTagCompileUnit
  cuDieoffset off := off
  cuHeaders := [.version4 4 11 100, .version4 4 111 200, .version4 4 211 300]

/-- Where the first unit's DIE is not 11 bytes behind its header, as with the 23 bytes of a 64-bit
header, the search for its child fails in a new root.  So do a search past a live unit whose parent
is not cached, and one for a DIE as many levels down as a depth has values.  A unit behind a partial
unit is not found. -/
theorem find_wideHeader :
    find 100 32 none false
      (Root.make (some (smallFile 23 32)) (fun _ => OrderedMap.empty) false) =
        .error .assertFailed ∧
    find 100 99 none false parentlessRoot = .error .assertFailed ∧
    find 65548 65546 none false
      { Root.make (some (chainFile 65546)) (fun _ => OrderedMap.empty) false with
        parentOf := chainParent } = .error .assertFailed ∧
    (find 100 211 none false
      (Root.make (some partialFile) (fun _ => OrderedMap.empty) false)).map Prod.fst = .ok none :=
  ⟨rfl, rfl, find_of_climb (by decide) (climb_chainParent 65535 0 65548 (by decide)),
    by decide +kernel⟩

end Examples

end Dies
end Dwarfpp
