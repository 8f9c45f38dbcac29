/-
# Clients of a root

A client holds iterators, as many as it likes, and asks the root for more of them: the DIEs beside,
above and behind one it stands at, DIEs at an offset, and new DIEs below one.  Each answer fills the
root's caches, and a new DIE changes the tree under all the iterators held.  Over any order of such
actions the root does what a tree does that is asked directly (`client_refines`): each answer is the
tree's, each iterator stays at its DIE, and nothing but `make_new` fails.

The iterators are moved as copies, by `move_to_first_child` and its like.  An iterator that is asked
for its depth remembers it.  Where a move asks on behalf of the iterator it starts from, the model
forgets it again; it is asked anew.
-/

import Dwarfpp.Dies.MakeNewSettled
import Dwarfpp.Dies.Ancestors
import Dwarfpp.Dies.ReferenceRuns
import Dwarfpp.Lib.Simulation

namespace Dwarfpp
namespace Dies

open Lib
open Lib.Preorder hiding firstChild nextSibling

section Model

/-- A move from a DIE.  Units have a way of their own to be found by `nearest_enclosing`. -/
inductive Move
  | firstChild
  | nextSibling
  | parent
  | increment
  | nearestEnclosing (tag : ℕ) (ne : tag ≠ dwTagCompileUnit)

variable (fuel : ℕ)

/-- What the root does for the move. -/
def Move.run : Move → Iterator → RootM (Option Iterator)
  | .firstChild => moveToFirstChild fuel
  | .nextSibling => moveToNextSibling (withDepth fuel)
  | .parent => moveToParent fuel
  | .increment => dfIncrement fuel
  | .nearestEnclosing tag _ => Dies.nearestEnclosing fuel tag

/-- What a client does, with the iterators it holds named by their numbers. -/
inductive Action
  | begin
  | move (k : ℕ) (m : Move)
  | depth (k : ℕ)
  | isUnder (k j : ℕ)
  | find (off : ℕ)
  | makeNew (k tag : ℕ)

/-- What it sees: the offset of a position or the end, a depth, a truth value. -/
inductive Answer
  | position (off : Option ℕ)
  | depth (d : Option ℕ)
  | truth (b : Bool)
  deriving DecidableEq

/-- A root and the iterators that a client of it holds. -/
structure Client where
  root : Root
  held : List Iterator

/-- Asking for a position, and holding it. -/
def Client.hold (c : Client) (x : RootM (Option Iterator)) : Except Fault (Answer × Client) := do
  let (res, r) ← x c.root
  return (.position (res.map Iterator.offset), ⟨r, c.held ++ res.toList⟩)

/-- A CU is made under the root position, any other DIE under a DIE, and none deeper than an
`unsigned short` counts. -/
def MayMake (depth : Option ℕ) (tag : ℕ) : Prop :=
  (tag = dwTagCompileUnit ↔ depth = some 0) ∧ depth.any (fun d => d + 1 < 2 ^ 16) = true

instance (depth : Option ℕ) (tag : ℕ) : Decidable (MayMake depth tag) :=
  inferInstanceAs (Decidable (_ ∧ _))

variable (hasCase : ℕ → Bool)

/-- What an action comes to.  It asks for what the client may ask for. -/
def Client.act (c : Client) : Action → Except Fault (Answer × Client)
  | .begin => c.hold (pure (some Root.begin))
  | .find off => c.hold (find fuel off none false)
  | .move k m =>
    match c.held[k]? with
    | some it => c.hold (m.run fuel it)
    | none => .error .undefinedBehaviour
  | .depth k =>
    match c.held[k]? with
    | some it => do
      let (it', r) ← withDepth fuel it c.root
      return (.depth it'.depth, ⟨r, c.held.set k it'⟩)
    | none => .error .undefinedBehaviour
  | .isUnder k j =>
    match c.held[k]?, c.held[j]? with
    | some i1, some i2 => do
      let (b, r) ← isUnder fuel fuel i1 i2 c.root
      return (.truth b, ⟨r, c.held⟩)
    | _, _ => .error .undefinedBehaviour
  | .makeNew k tag =>
    match c.held[k]? with
    | some it => do
      let (it', r) ← withDepth fuel it c.root
      if MayMake it'.depth tag then
        Client.hold ⟨r, c.held⟩ (some <$> makeNew fuel hasCase it' tag)
      else .error .undefinedBehaviour
    | none => .error .undefinedBehaviour

/-- The steps of a client. -/
def Client.Step (c : Client) (l : Action × Answer) (c' : Client) : Prop :=
  c.act fuel hasCase l.1 = .ok (l.2, c')

end Model

section Tree

/-- Where a move from `x` leads to in the tree. -/
def Move.Goal (t : List Node) : Move → Node → Option Node → Prop
  | .firstChild, x, res => ∃ l, x :: l <:+ t ∧ res = (Preorder.firstChild Node.depth (x :: l)).head?
  | .nextSibling, x, res =>
    ∃ l, x :: l <:+ t ∧ res = (Preorder.nextSibling Node.depth (x :: l)).head?
  | .parent, x, res => ∀ z, res = some z ↔ IsParent Node.depth t z x
  | .increment, x, res => ∃ l, x :: l <:+ t ∧ res = l.head?
  | .nearestEnclosing tag _, x, none => ∀ y, Encloses t x y → y.offset ≠ 0 → y.tag ≠ tag
  | .nearestEnclosing tag _, x, some y => IsNearest t tag x y ∧ y.offset ≠ 0

/-- A tree, and where in it a client stands. -/
structure Places where
  tree : List Node
  held : List Node

/-- The same actions, asked of the tree.  A new DIE is the last child of the one it is made under, at
an offset that no DIE has, right behind some DIE. -/
inductive Places.Step (s : Places) : Action × Answer → Places → Prop
  | begin : Step s (.begin, .position (some 0)) ⟨s.tree, s.held ++ [rootNode]⟩
  | find (off : ℕ) : Step s (.find off, .position ((naiveFind s.tree off).map Node.offset))
      ⟨s.tree, s.held ++ (naiveFind s.tree off).toList⟩
  | move {k : ℕ} {m : Move} {x : Node} {res : Option Node} (hx : s.held[k]? = some x)
      (hgoal : m.Goal s.tree x res) :
      Step s (.move k m, .position (res.map Node.offset)) ⟨s.tree, s.held ++ res.toList⟩
  | depth {k : ℕ} {x : Node} (hx : s.held[k]? = some x) :
      Step s (.depth k, .depth (some x.depth)) s
  | isUnder {k j : ℕ} {x y : Node} {b : Bool} (hx : s.held[k]? = some x)
      (hy : s.held[j]? = some y) (hb : b = true ↔ Encloses s.tree x y) :
      Step s (.isUnder k j, .truth b) s
  | makeNew {k tag : ℕ} {x n : Node} (hx : s.held[k]? = some x)
      (hn : n = ⟨n.offset, x.depth + 1, tag, true⟩) (hfresh : ∀ y ∈ s.tree, y.offset ≠ n.offset)
      (hnext : ∃ y ∈ s.tree, n.offset = y.offset + 1) :
      Step s (.makeNew k tag, .position (some n.offset)) ⟨withChild s.tree x n, s.held ++ [n]⟩

end Tree

variable {t : List Node} {r r' : Root} {fuel : ℕ} {x : Node} {it : Iterator} {hasCase : ℕ → Bool}

section Held

/-- The iterator is at a DIE of the tree from which there is a way up. -/
structure HeldAt (t : List Node) (r : Root) (x : Node) (it : Iterator) : Prop where
  mem : x ∈ t
  standing : Standing x it
  known : Known r x.offset

theorem HeldAt.mono (h : HeldAt t r x it) (hk : ParentsKept r r') : HeldAt t r' x it :=
  ⟨h.mem, h.standing, h.known.mono hk⟩

theorem HeldAt.offset_eq {target : Option Node} {res : Option Iterator}
    (h : Option.Rel (HeldAt t r) target res) :
    res.map Iterator.offset = target.map Node.offset := by
  cases h with
  | none => rfl
  | some h => exact congrArg some h.standing.1

theorem forall₂_of_rel {target : Option Node} {res : Option Iterator}
    (h : Option.Rel (HeldAt t r) target res) :
    List.Forall₂ (HeldAt t r) target.toList res.toList := by
  cases h with
  | none => exact .nil
  | some h => exact .cons h .nil

theorem rel_of_isAt {s : List Node} (hs : s <:+ t) {res : Option Iterator} (hat : IsAt s res)
    (hknown : ParentKnown r s) : Option.Rel (HeldAt t r) s.head? res := by
  cases s with
  | nil =>
    obtain rfl : res = none := hat
    exact .none
  | cons y l =>
    obtain ⟨it, rfl, hoff, hd⟩ := hat
    exact .some ⟨mem_of_suffix hs, ⟨hoff, .inl hd⟩, .inr (hknown y rfl)⟩

end Held

section Moves

variable (hfuel : EnoughFuel t fuel) (h : Settled t r) (hit : HeldAt t r x it)
include hfuel h hit

/-- Once the depth is asked for, a move that begins by asking for it goes on as it is. -/
theorem afterDepth {α : Type} {f g : Iterator → RootM α} {post : α → Root → Prop}
    (hf : ∀ i : Iterator, f i = withDepth fuel i >>= g)
    (harrives : ∀ r' i, Settled t r' → Known r' x.offset → i.offset = x.offset →
      i.depth = some x.depth → Arrives t (f i) r' post) : Arrives t (f it) r post := by
  rw [hf it]
  refine (withDepth_arrives hfuel h hit.mem hit.standing).bind ?_
  rintro i r₁ hr₁ hmoved ⟨hoff, hd⟩
  have hi := harrives r₁ i hr₁ (hit.known.mono hmoved.kept) hoff hd
  rwa [hf i, leavesKnown_withDepth i (by rw [hd]; rfl), pure_bind] at hi

/-- **A move goes where it does in the tree.** -/
theorem Move.arrives (m : Move) : ∃ target, m.Goal t x target ∧
    Arrives t (m.run fuel it) r fun res r' => Option.Rel (HeldAt t r') target res := by
  have hm := moving_settled hfuel
  obtain ⟨l, hx⟩ := exists_suffix_of_mem hit.mem
  cases m with
  | firstChild =>
    refine ⟨_, ⟨l, hx, rfl⟩, afterDepth hfuel h hit (fun _ => rfl) fun r' i hr' hk hoff hd => ?_⟩
    refine (hm.child hr' hx hk hoff hd).mono ?_
    rintro res r'' - - ⟨hat, hknown⟩
    exact rel_of_isAt (placeAt_firstChild hx).1 hat hknown
  | nextSibling =>
    refine ⟨_, ⟨l, hx, rfl⟩, afterDepth hfuel h hit (fun _ => rfl) fun r' i hr' hk hoff hd => ?_⟩
    refine ((hm.sibling hr' hx hk hoff hd).returns id).mono ?_
    rintro res r'' - - ⟨hat, hknown⟩
    exact rel_of_isAt (((nextSibling_suffix x l).trans (List.suffix_cons x l)).trans hx) hat hknown
  | parent =>
    by_cases h0 : x.offset = 0
    · refine ⟨none, fun z => ?_, none, r, moveToParent_root (hit.standing.1.trans h0), h,
        Std.Refl.refl r, .none⟩
      refine iff_of_false (by simp) fun hz => ?_
      have := key_lt_of_isParent h.consistent.wellFormed.sorted hz
      omega
    · obtain ⟨z, hz⟩ := h.consistent.exists_parent hit.mem h0
      refine ⟨some z, fun z' => ?_, ?_⟩
      · constructor
        · rintro ⟨⟩
          exact hz
        · exact fun hz' => congrArg some (hz.unique h.consistent.wellFormed.sorted hz')
      · refine ((hm.parent h hz hit.known hit.standing).returns id).mono ?_
        rintro res r₁ - hmoved ⟨p, rfl, hp⟩
        exact .some ⟨(isParent_mem hz).1, hp, (h.known_parent hz hit.known).mono hmoved.kept⟩
  | increment =>
    refine ⟨_, ⟨l, hx, rfl⟩, ?_⟩
    refine ((hm.dfIncrement hfuel h hx hit.standing hit.known).returns id).mono ?_
    rintro res r₁ - - ⟨hat, hknown⟩
    exact rel_of_isAt ((List.suffix_cons x l).trans hx) hat hknown
  | nearestEnclosing tag ne =>
    obtain ⟨res, r₁, hrun, hr₁, hmoved, hfinds, hknown⟩ :=
      nearestEnclosing_arrives h hfuel hit.mem hit.standing hit.known ne
    cases res with
    | none => exact ⟨none, hfinds, none, r₁, hrun, hr₁, hmoved, .none⟩
    | some i =>
      obtain ⟨y, hnearest, h0, hi⟩ := hfinds
      have hy : y ∈ t := by
        rcases hnearest.encloses with rfl | hbelow
        · exact hit.mem
        · exact hbelow.mem_left
      exact ⟨some y, ⟨hnearest, h0⟩, some i, r₁, hrun, hr₁, hmoved,
        .some ⟨hy, hi, hi.1 ▸ hknown i rfl⟩⟩

end Moves

section Refinement

variable {n : ℕ} {s : Places} {c c' : Client}

/-- The fuel is enough for the tree, and for so many new DIEs. -/
def Roomy (t : List Node) (n fuel : ℕ) : Prop :=
  t.length + n < fuel ∧ ∀ x ∈ t, x.offset + n < fuel

theorem Roomy.enoughFuel (h : Roomy t n fuel) : EnoughFuel t fuel :=
  ⟨(Nat.le_add_right _ _).trans_lt h.1, fun x hx => (Nat.le_add_right _ _).trans_lt (h.2 x hx)⟩

theorem Roomy.of_succ (h : Roomy t (n + 1) fuel) : Roomy t n fuel :=
  ⟨(Nat.lt_succ_self _).trans h.1, fun x hx => (Nat.lt_succ_self _).trans (h.2 x hx)⟩

/-- The root knows the tree, and the iterators held are at the DIEs where the client stands. -/
structure Refines (fuel n : ℕ) (s : Places) (c : Client) : Prop where
  settled : Settled s.tree c.root
  roomy : Roomy s.tree n fuel
  held : List.Forall₂ (HeldAt s.tree c.root) s.held c.held

theorem Refines.of_succ (h : Refines fuel (n + 1) s c) : Refines fuel n s c :=
  ⟨h.settled, h.roomy.of_succ, h.held⟩

theorem exists_getElem?_of_forall₂ {α β : Type} {p : α → β → Prop} {as : List α} {bs : List β}
    (h : List.Forall₂ p as bs) {k : ℕ} {b : β} (hb : bs[k]? = some b) :
    ∃ a, as[k]? = some a ∧ p a b := by
  induction h generalizing k with
  | nil => simp at hb
  | cons hp _ ih =>
    cases k with
    | zero =>
      obtain rfl : _ = b := by simpa using hb
      exact ⟨_, rfl, hp⟩
    | succ k => exact ih hb

theorem forall₂_set {α β : Type} {p : α → β → Prop} {as : List α} {bs : List β}
    (h : List.Forall₂ p as bs) {k : ℕ} {a : α} {b : β} (ha : as[k]? = some a) (hp : p a b) :
    List.Forall₂ p as (bs.set k b) := by
  induction h generalizing k with
  | nil => exact .nil
  | cons hp' hrest ih =>
    cases k with
    | zero =>
      obtain rfl : _ = a := by simpa using ha
      exact .cons hp hrest
    | succ k => exact .cons hp' (ih ha)

/-- What the root does in between leaves the iterators where they are. -/
theorem Refines.moved (h : Refines fuel n s c) (hr' : Settled s.tree r') (hmoved : Moved c.root r') :
    Refines fuel n s ⟨r', c.held⟩ :=
  ⟨hr', h.roomy, h.held.imp fun _ _ hi => hi.mono hmoved.kept⟩

theorem Refines.hold (h : Refines fuel n s c) {m : RootM (Option Iterator)} {target : Option Node}
    (harrives : Arrives s.tree m c.root fun res r' => Option.Rel (HeldAt s.tree r') target res) :
    ∃ c', c.hold m = .ok (.position (target.map Node.offset), c') ∧
      Refines fuel n ⟨s.tree, s.held ++ target.toList⟩ c' ∧ Moved c.root c'.root := by
  obtain ⟨res, r', hrun, hr', hmoved, hrel⟩ := harrives
  refine ⟨⟨r', c.held ++ res.toList⟩, ?_, ⟨hr', h.roomy, ?_⟩, hmoved⟩
  · rw [Client.hold, hrun, ← HeldAt.offset_eq hrel]
    rfl
  · exact List.rel_append (h.moved hr' hmoved).held (forall₂_of_rel hrel)

theorem naiveFind_offset (h : Sorted Node.offset t) (hx : x ∈ t) : naiveFind t x.offset = some x := by
  cases hn : naiveFind t x.offset with
  | none => exact absurd (decide_eq_true rfl) (List.find?_eq_none.1 hn x hx)
  | some y =>
    have hoff : y.offset = x.offset := by simpa using List.find?_some hn
    rw [h.eq_of_key_eq (List.mem_of_find?_eq_some hn) hx hoff]

/-- `find`, at whatever offset. -/
theorem find_arrives (hfuel : EnoughFuel t fuel) (h : Settled t r) (off : ℕ) :
    Arrives t (find fuel off none false) r fun res r' =>
      Option.Rel (HeldAt t r') (naiveFind t off) res := by
  have hrooted : StaysRooted (find fuel off none false) r fun _ _ => True := by
    by_cases hoff : off < fuel
    · exact find_rooted h hoff false
    · have habsent : ∀ x ∈ t, x.offset ≠ off := fun x hx heq => hoff (heq ▸ hfuel.2 x hx)
      obtain ⟨n, rfl⟩ := Nat.exists_eq_add_of_lt ((Nat.zero_le _).trans_lt hfuel.1)
      rw [Nat.zero_add]
      refine StateReturnsUnless.bind (p := fun res r'' => res = none ∧ r'' = r)
        (.inl ⟨none, r, findUpwards_absent h.consistent habsent, h.rooted, Std.Refl.refl r, rfl,
          rfl⟩) ?_
      rintro - r₁ hr₁ - ⟨rfl, -⟩
      refine (findDownwards_rooted hr₁ (n + 1) off).bind ?_
      rintro res r₂ hr₂ - -
      cases res with
      | none => exact StateReturnsUnless.pure hr₂ trivial
      | some it => exact StateReturnsUnless.pure hr₂ trivial
  refine (arrives (find_locates h.consistent hfuel off) hrooted).mono ?_
  rintro res r' hr' - ⟨⟨x, hx, rfl, hknown, it, rfl, hoff, hd⟩ | ⟨rfl, hno⟩, -⟩
  · rw [naiveFind_offset h.consistent.wellFormed.sorted hx]
    exact .some ⟨hx, ⟨hoff, hd⟩, or_iff_not_imp_left.2 hknown⟩
  · have hnone : naiveFind t off = none := by
      rw [naiveFind, List.find?_eq_none]
      intro x hx
      simpa using hno x hx
    rw [hnone]
    exact .none

/-- The action moves about the tree, from iterators that are held. -/
def Action.Navigates (held : ℕ) : Action → Prop
  | .begin => True
  | .find _ => True
  | .move k _ => k < held
  | .depth k => k < held
  | .isUnder k j => k < held ∧ j < held
  | .makeNew _ _ => False

/-- **Moving about never fails**, and is what it is in the tree. -/
theorem Refines.navigates (h : Refines fuel n s c) {a : Action} (ha : a.Navigates c.held.length) :
    ∃ ans c', c.act fuel hasCase a = .ok (ans, c') ∧ Moved c.root c'.root ∧
      ∃ s', s.Step (a, ans) s' ∧ Refines fuel n s' c' := by
  have hfuel := h.roomy.enoughFuel
  have hheld : ∀ k, k < c.held.length → ∃ it, c.held[k]? = some it ∧
      ∃ x, s.held[k]? = some x ∧ HeldAt s.tree c.root x it := fun k hk =>
    ⟨_, List.getElem?_eq_getElem hk, exists_getElem?_of_forall₂ h.held (List.getElem?_eq_getElem hk)⟩
  cases a with
  | begin =>
    have harrives : Arrives s.tree (pure (some Root.begin)) c.root fun res r' =>
        Option.Rel (HeldAt s.tree r') (some rootNode) res :=
      StateReturns.pure h.settled (.some ⟨h.settled.consistent.wellFormed.root_mem,
        ⟨rfl, .inl rfl⟩, .inl rfl⟩)
    obtain ⟨c', hc', href, hmoved⟩ := h.hold harrives
    exact ⟨_, c', hc', hmoved, _, .begin, href⟩
  | find off =>
    obtain ⟨c', hc', href, hmoved⟩ := h.hold (find_arrives hfuel h.settled off)
    exact ⟨_, c', hc', hmoved, _, .find off, href⟩
  | move k m =>
    obtain ⟨it, hit, x, hx, hat⟩ := hheld k ha
    obtain ⟨target, hgoal, harrives⟩ := Move.arrives hfuel h.settled hat m
    obtain ⟨c', hc', href, hmoved⟩ := h.hold harrives
    refine ⟨_, c', ?_, hmoved, _, .move hx hgoal, href⟩
    simp only [Client.act, hit]
    exact hc'
  | depth k =>
    obtain ⟨it, hit, x, hx, hat⟩ := hheld k ha
    obtain ⟨it', r', hrun, hr', hmoved, hoff, hd⟩ :=
      withDepth_arrives hfuel h.settled hat.mem hat.standing
    refine ⟨.depth it'.depth, ⟨r', c.held.set k it'⟩, ?_, hmoved, s, ?_, hr', h.roomy, ?_⟩
    · simp only [Client.act, hit, hrun]
      rfl
    · rw [hd]
      exact .depth hx
    · exact forall₂_set (h.moved hr' hmoved).held hx
        ⟨hat.mem, ⟨hoff, .inl hd⟩, hat.known.mono hmoved.kept⟩
  | isUnder k j =>
    obtain ⟨i1, hi1, x, hx, hatx⟩ := hheld k ha.1
    obtain ⟨i2, hi2, y, hy, haty⟩ := hheld j ha.2
    have hdepth := (h.settled.consistent.depth_le_offset hatx.mem).trans_lt (hfuel.2 x hatx.mem)
    obtain ⟨b, r', hrun, hr', hmoved, hb, -⟩ :=
      arrives (isUnder_reaches h.settled.consistent hfuel hatx.mem haty.mem hatx.standing
        haty.standing hdepth) (isUnder_rooted h.settled hfuel hatx.mem haty.mem hatx.standing
          haty.standing hatx.known)
    refine ⟨.truth b, ⟨r', c.held⟩, ?_, hmoved, s, .isUnder hx hy hb, h.moved hr' hmoved⟩
    simp only [Client.act, hi1, hi2, hrun]
    rfl
  | makeNew k tag => exact ha.elim

theorem map_some_eq_ok {m : RootM Iterator} {res : Option Iterator}
    (h : (some <$> m : RootM (Option Iterator)) r = .ok (res, r')) :
    ∃ it, m r = .ok (it, r') ∧ res = some it := by
  change (m r).map _ = _ at h
  cases hm : m r with
  | error e =>
    rw [hm] at h
    exact absurd h (by simp [Except.map])
  | ok p =>
    rw [hm] at h
    obtain ⟨rfl, rfl⟩ := Prod.mk.inj (Except.ok.inj h)
    exact ⟨p.1, rfl, rfl⟩

/-- What a new DIE changes in a root: it has no attributes, and no parent is forgotten. -/
structure Makes (r : Root) (ans : Answer) (r' : Root) : Prop where
  kept : ParentsKept r r'
  tables : ∃ off, ans = .position (some off) ∧ r'.tables =
    { r.tables with attrs := Function.update r.tables.attrs off OrderedMap.empty }

/-- **A new DIE** leaves every iterator at its DIE, and is where the tree has it. -/
theorem Refines.makeNew (h : Refines fuel (n + 1) s c) {k tag : ℕ} {ans : Answer}
    (hact : c.act fuel hasCase (.makeNew k tag) = .ok (ans, c')) :
    (∃ s', s.Step (.makeNew k tag, ans) s' ∧ Refines fuel n s' c') ∧ Makes c.root ans c'.root := by
  have hfuel := h.roomy.enoughFuel
  rw [Client.act] at hact
  cases hit : c.held[k]? with
  | none =>
    rw [hit] at hact
    exact absurd hact (by simp)
  | some it =>
    obtain ⟨x, hx, hat⟩ := exists_getElem?_of_forall₂ h.held hit
    obtain ⟨it', r₁, hrun, hr₁, hmoved, hoff, hd⟩ :=
      withDepth_arrives hfuel h.settled hat.mem hat.standing
    simp only [hit, hrun] at hact
    rw [ok_bind] at hact
    dsimp only at hact
    split_ifs at hact with hmay
    obtain ⟨⟨res, r'⟩, hnew, hact⟩ := bind_eq_ok.1 hact
    obtain ⟨rfl, rfl⟩ := Prod.mk.inj (Except.ok.inj hact)
    obtain ⟨i, hmade, rfl⟩ := map_some_eq_ok hnew
    rw [MayMake, hd] at hmay
    obtain ⟨m, rfl⟩ : ∃ m, fuel = m + 1 :=
      Nat.exists_eq_succ_of_ne_zero (Nat.zero_lt_of_lt h.roomy.1).ne'
    have hm : EnoughFuel s.tree m := by
      refine ⟨?_, fun y hy => ?_⟩
      · have := h.roomy.1
        omega
      · have := h.roomy.2 y hy
        omega
    have htag : tag = dwTagCompileUnit ↔ x.depth = 0 := by simpa using hmay.1
    have hlevel : x.depth + 1 < 2 ^ 16 := by simpa using hmay.2
    obtain ⟨hr', hkept, hstand, hknown, ⟨y, hy, hnext⟩, hfresh, htables⟩ :=
      makeNew_withChild hr₁ hm hat.mem ⟨hoff, .inl hd⟩ (hat.known.mono hmoved.kept) htag hlevel hmade
    have hmem : ∀ {z}, z ∈ withChild s.tree x ⟨i.offset, x.depth + 1, tag, true⟩ ↔
        z = ⟨i.offset, x.depth + 1, tag, true⟩ ∨ z ∈ s.tree := mem_withChild hat.mem
    rw [hmoved.tables] at htables
    refine ⟨⟨_, .makeNew hx (n := ⟨i.offset, x.depth + 1, tag, true⟩) rfl hfresh ⟨y, hy, hnext⟩,
      hr', ⟨?_, fun z hz => ?_⟩, ?_⟩, IsTrans.trans _ _ _ hmoved.kept hkept, i.offset, rfl, htables⟩
    · have := h.roomy.1
      rw [length_withChild hat.mem]
      omega
    · rcases hmem.1 hz with rfl | hz
      · have := h.roomy.2 y hy
        dsimp only
        omega
      · exact h.roomy.of_succ.2 z hz
    · refine List.rel_append ?_ (.cons ⟨hmem.2 (.inl rfl), hstand, hknown⟩ .nil)
      exact (h.moved hr₁ hmoved).held.imp fun z j hj =>
        ⟨hmem.2 (.inr hj.mem), hj.standing, hj.known.mono hkept⟩

theorem lt_length_of_getElem? {α : Type} {l : List α} {k : ℕ} (h : l[k]? = none → False) :
    k < l.length :=
  Nat.lt_of_not_le fun hle => h (List.getElem?_eq_none hle)

/-- What comes to something is a move of iterators that are held, or makes a DIE. -/
theorem Client.navigates_of_act {a : Action} {ans : Answer}
    (hact : c.act fuel hasCase a = .ok (ans, c')) :
    a.Navigates c.held.length ∨ ∃ k tag, a = .makeNew k tag := by
  cases a with
  | begin => exact .inl trivial
  | find off => exact .inl trivial
  | move k m =>
    refine .inl (lt_length_of_getElem? fun hk => ?_)
    simp [Client.act, hk] at hact
  | depth k =>
    refine .inl (lt_length_of_getElem? fun hk => ?_)
    simp [Client.act, hk] at hact
  | isUnder k j =>
    refine .inl ⟨lt_length_of_getElem? fun hk => ?_, lt_length_of_getElem? fun hj => ?_⟩
    · simp [Client.act, hk] at hact
    · simp [Client.act, hj] at hact
  | makeNew k tag => exact .inr ⟨k, tag, rfl⟩

/-- **The root simulates the tree.** -/
theorem simulation_places :
    Simulation (Client.Step fuel hasCase) Places.Step (Refines fuel) := by
  intro n s c ⟨a, ans⟩ c' href hstep
  rcases Client.navigates_of_act hstep with ha | ⟨k, tag, rfl⟩
  · obtain ⟨ans', c'', hact, -, s', hs, href'⟩ := href.of_succ.navigates ha
    obtain ⟨rfl, rfl⟩ := Prod.mk.inj (Except.ok.inj (hact.symm.trans hstep))
    exact ⟨s', hs, href'⟩
  · exact (href.makeNew hstep).1

/-- **A client sees the tree.**  Any run of a client that begins at a root is a run of the tree with
the same actions and the same answers; after it the root knows the tree, and each iterator held is at
its DIE.  From there moving about does not fail. -/
theorem client_refines {t₀ : List Node} {r₀ : Root} (h₀ : Settled t₀ r₀)
    {trace : List (Action × Answer)} (hroom : Roomy t₀ trace.length fuel)
    (hrun : Traces (Client.Step fuel hasCase) ⟨r₀, []⟩ trace c) :
    ∃ s, Traces Places.Step ⟨t₀, []⟩ trace s ∧ Consistent s.tree c.root ∧
      List.Forall₂ Standing s.held c.held ∧
      ∀ a : Action, a.Navigates c.held.length →
        ∃ ans c', c.act fuel hasCase a = .ok (ans, c') := by
  obtain ⟨s, hs, href⟩ := simulation_places.traces (n := 0) (a := ⟨t₀, []⟩)
    ⟨h₀, hroom, .nil⟩ hrun
  refine ⟨s, hs, href.settled.consistent, href.held.imp fun _ _ hi => hi.standing, fun a ha => ?_⟩
  obtain ⟨ans, c', hact, -⟩ := href.navigates ha
  exact ⟨ans, c', hact⟩

end Refinement

section Examples

/-- A client of the small file that makes a DIE under its unit, beside the one it holds. -/
def smallTrace : List (Action × Answer) :=
  [(.begin, .position (some 0)), (.move 0 .increment, .position (some 11)),
    (.move 1 .firstChild, .position (some 20)), (.makeNew 1 0x24, .position (some 21)),
    (.move 2 .nextSibling, .position (some 21)), (.isUnder 3 1, .truth true)]

theorem traces_smallRoot :
    ∃ c, Traces (Client.Step 40 fun _ => true) ⟨smallRoot 11 20, []⟩ smallTrace c := by
  have step : ∀ {tr c c'} (a : Action) (ans : Answer),
      Traces (Client.Step 40 fun _ => true) ⟨smallRoot 11 20, []⟩ tr c →
      c.act 40 (fun _ => true) a = .ok (ans, c') →
      Traces (Client.Step 40 fun _ => true) ⟨smallRoot 11 20, []⟩ (tr ++ [(a, ans)]) c' :=
    fun _ _ h hact => h.snoc hact
  have h₁ := step .begin (.position (some 0)) .nil rfl
  have h₂ := step (.move 0 .increment) (.position (some 11)) h₁ rfl
  have h₃ := step (.move 1 .firstChild) (.position (some 20)) h₂ rfl
  have h₄ := step (.makeNew 1 0x24) (.position (some 21)) h₃ rfl
  have h₅ := step (.move 2 .nextSibling) (.position (some 21)) h₄ rfl
  exact ⟨_, step (.isUnder 3 1) (.truth true) h₅ rfl⟩

theorem client_smallRoot : ∃ (c : Client) (s : Places),
    Traces Places.Step ⟨smallTree, []⟩ smallTrace s ∧ Consistent s.tree c.root ∧
      List.Forall₂ Standing s.held c.held ∧
      ∀ a : Action, a.Navigates c.held.length →
        ∃ ans c', c.act 40 (fun _ => true) a = .ok (ans, c') := by
  obtain ⟨c, hrun⟩ := traces_smallRoot
  exact ⟨c, client_refines ⟨consistent_smallRoot, rooted_make _ _ _⟩
    ⟨by decide, by decide⟩ hrun⟩

end Examples

end Dies
end Dwarfpp
