/-
# Moving about the tree

What the moves of a root do where the root knows its tree (`Consistent`): the CU
context, the first child, the next sibling.  Each answers as the tree is, keeps
the invariant, and leaves the parent of the DIE it answers with in the cache.
-/

import Dwarfpp.Dies.Consistent

namespace Dwarfpp
namespace Dies

open Lib
open Lib.Preorder hiding firstChild nextSibling

variable {t : List Node}

theorem reaches_require {p : Prop} [Decidable p] {r : Root} {post : Unit → Root → Prop} (h : p)
    (hr : Consistent t r) (hpost : post () r) : Reaches t (require p) r post :=
  ⟨(), r, if_pos h, hr, Std.Refl.refl r, hpost⟩

theorem require_eq_ok {p : Prop} [Decidable p] {r r' : Root} {u : Unit}
    (h : require p r = .ok (u, r')) : p ∧ r' = r := by
  unfold require at h
  split_ifs at h with hp
  exact ⟨hp, (Prod.mk.inj (Except.ok.inj h)).2.symm⟩

section Update

variable {r : Root}

/-- The invariant does not depend on the tables, nor on what is not said to change. -/
theorem Consistent.of_context (h : Consistent t r) {r' : Root} (hdbg : r'.dbg = r.dbg)
    (hcontext : ContextIsSane r') (hlive : r'.liveDies = r.liveDies)
    (hchild : r'.firstChildOf = r.firstChildOf) (hsibling : r'.nextSiblingOf = r.nextSiblingOf)
    (hparents : ∀ c p, c ≠ 0 → r'.parentOf c = some p →
      ∃ x y, IsParent Node.depth t x y ∧ x.offset = p ∧ y.offset = c)
    (hkept : ∀ c, (r.parentOf c).isSome = true → (r'.parentOf c).isSome = true) :
    Consistent t r' where
  wellFormed := h.wellFormed
  serves lib hlib := h.serves lib (hdbg ▸ hlib)
  noFile hnone := h.noFile (hdbg ▸ hnone)
  context := hcontext
  memoryLive := hlive ▸ h.memoryLive
  live := hlive ▸ h.live
  parents := hparents
  children p c hc := by
    rw [hchild] at hc
    obtain ⟨hknown, hedge⟩ := h.children p c hc
    exact ⟨hkept c hknown, hedge⟩
  siblings a b hb := by
    rw [hsibling] at hb
    obtain ⟨hknown, hedge⟩ := h.siblings a b hb
    exact ⟨hkept b hknown, hedge⟩
  childEdges := hchild ▸ h.childEdges
  siblingEdges := hsibling ▸ h.siblingEdges

theorem isSome_update {f : ℕ → Option ℕ} {k : ℕ} {v : ℕ} {c : ℕ} (h : (f c).isSome = true) :
    (Function.update f k (some v) c).isSome = true := by
  by_cases hc : c = k
  · rw [hc, Function.update_self]
    rfl
  · rw [Function.update_of_ne hc]
    exact h

/-- A parent may be entered. -/
theorem Consistent.enterParent (h : Consistent t r) {x y : Node} (hp : IsParent Node.depth t x y) :
    Consistent t { r with parentOf := Function.update r.parentOf y.offset (some x.offset) } := by
  refine h.of_context rfl h.context rfl rfl rfl ?_ fun c hc => isSome_update hc
  intro c p hc hpar
  dsimp only at hpar
  by_cases heq : c = y.offset
  · subst heq
    rw [Function.update_self] at hpar
    exact ⟨x, y, hp, Option.some.inj hpar, rfl⟩
  · rw [Function.update_of_ne heq] at hpar
    exact h.parents c p hc hpar

theorem Moved.enterParent (c p : ℕ) :
    Moved r { r with parentOf := Function.update r.parentOf c (some p) } :=
  ⟨rfl, rfl, fun _ h => isSome_update h, fun _ h => h, fun _ h => h⟩

theorem Moved.enterChild (c p : ℕ) :
    Moved r { r with firstChildOf := Function.update r.firstChildOf c (some p) } :=
  ⟨rfl, rfl, fun _ h => h, fun _ h => h, fun _ h => h⟩

theorem Moved.enterSibling (c p : ℕ) :
    Moved r { r with nextSiblingOf := Function.update r.nextSiblingOf c (some p) } :=
  ⟨rfl, rfl, fun _ h => h, fun _ h => isSome_update h, fun _ h => h⟩

/-- A first child may be entered once its parent is. -/
theorem Consistent.enterChild (h : Consistent t r) {x y : Node} {l l' : List Node}
    (hx : x :: l <:+ t) (hy : Preorder.firstChild Node.depth (x :: l) = y :: l')
    (hknown : (r.parentOf y.offset).isSome = true) :
    Consistent t
      { r with firstChildOf := Function.update r.firstChildOf x.offset (some y.offset) } where
  __ := h
  context := h.context
  children p c hc := by
    dsimp only at hc
    by_cases hp : p = x.offset
    · subst hp
      rw [Function.update_self] at hc
      rw [← Option.some.inj hc]
      exact ⟨hknown, x, l, y, l', hx, hy, rfl, rfl⟩
    · rw [Function.update_of_ne hp] at hc
      exact h.children p c hc
  childEdges x' m y' m' hx' hy' hmem := by
    dsimp only
    by_cases hp : x'.offset = x.offset
    · rw [hp, Function.update_self]
      rw [h.wellFormed.sorted.suffix_unique hx' hx hp, hy] at hy'
      rw [(List.cons.inj hy').1]
    · rw [Function.update_of_ne hp]
      exact h.childEdges x' m y' m' hx' hy' hmem

/-- A next sibling may be entered once its parent is. -/
theorem Consistent.enterSibling (h : Consistent t r) {x y : Node} {l l' : List Node}
    (hx : x :: l <:+ t) (hy : Preorder.nextSibling Node.depth (x :: l) = y :: l')
    (hknown : (r.parentOf y.offset).isSome = true) :
    Consistent t
      { r with nextSiblingOf := Function.update r.nextSiblingOf x.offset (some y.offset) } where
  __ := h
  context := h.context
  siblings p c hc := by
    dsimp only at hc
    by_cases hp : p = x.offset
    · subst hp
      rw [Function.update_self] at hc
      rw [← Option.some.inj hc]
      exact ⟨hknown, x, l, y, l', hx, hy, rfl, rfl⟩
    · rw [Function.update_of_ne hp] at hc
      exact h.siblings p c hc
  siblingEdges x' m y' m' hx' hy' hmem := by
    dsimp only
    by_cases hp : x'.offset = x.offset
    · rw [hp, Function.update_self]
      rw [h.wellFormed.sorted.suffix_unique hx' hx hp, hy] at hy'
      rw [(List.cons.inj hy').1]
    · rw [Function.update_of_ne hp]
      exact h.siblingEdges x' m y' m' hx' hy' hmem

/-- A DIE of the file may be made live. -/
theorem Consistent.enterLive (h : Consistent t r) {x : Node} (hx : x ∈ t) (h0 : x.offset ≠ 0)
    (hfile : x.inMemory = false) :
    Consistent t { r with liveDies := Function.update r.liveDies x.offset (some .ofFile) } where
  __ := h
  context := h.context
  memoryLive y hy hmem := by
    dsimp only
    rw [Function.update_of_ne]
    · exact h.memoryLive y hy hmem
    · intro heq
      rw [h.wellFormed.sorted.eq_of_key_eq hy hx heq, hfile] at hmem
      exact absurd hmem (by decide)
  live off d hd := by
    dsimp only at hd
    by_cases hoff : off = x.offset
    · subst hoff
      rw [Function.update_self] at hd
      exact ⟨x, hx, rfl, h0, fun _ => (Option.some.inj hd).symm⟩
    · rw [Function.update_of_ne hoff] at hd
      exact h.live off d hd

theorem Moved.enterLive (off : ℕ) (d : LiveDie) :
    Moved r { r with liveDies := Function.update r.liveDies off (some d) } := by
  refine ⟨rfl, rfl, fun _ h => h, fun _ h => h, fun o ho => ?_⟩
  by_cases heq : o = off
  · simp [heq]
  · simpa [Function.update_of_ne heq] using ho

end Update

section Tags

variable {r : Root}

theorem Consistent.isInMemory (h : Consistent t r) {x : Node} (hx : x ∈ t) :
    r.isInMemory x.offset = x.inMemory := by
  unfold Root.isInMemory
  cases hm : x.inMemory with
  | true =>
    obtain ⟨u, -, hlive, -⟩ := h.memoryLive x hx hm
    rw [hlive]
  | false =>
    cases hlive : r.liveDies x.offset with
    | none => rfl
    | some d =>
      obtain ⟨y, hy, hoff, -, hfile⟩ := h.live x.offset d hlive
      obtain rfl := h.wellFormed.sorted.eq_of_key_eq hy hx hoff
      rw [hfile hm]

theorem Consistent.tagHere (h : Consistent t r) {x : Node} (hx : x ∈ t) (h0 : x.offset ≠ 0) :
    r.tagHere x.offset = x.tag := by
  unfold Root.tagHere
  rw [if_neg h0]
  cases hm : x.inMemory with
  | true =>
    obtain ⟨u, -, hlive, -⟩ := h.memoryLive x hx hm
    rw [hlive]
  | false =>
    cases hdbg : r.dbg with
    | none =>
      rw [h.noFile hdbg x hx h0] at hm
      exact absurd hm (by decide)
    | some lib =>
      have htag := (h.serves lib hdbg).tag x hx hm h0
      cases hlive : r.liveDies x.offset with
      | none => exact htag
      | some d =>
        obtain ⟨y, hy, hoff, -, hfile⟩ := h.live x.offset d hlive
        obtain rfl := h.wellFormed.sorted.eq_of_key_eq hy hx hoff
        rw [hfile hm]
        exact htag

theorem Consistent.tagHere_eq_unit (h : Consistent t r) {x : Node} (hx : x ∈ t)
    (h0 : x.offset ≠ 0) : r.tagHere x.offset = dwTagCompileUnit ↔ x.depth = 1 := by
  rw [h.tagHere hx h0]
  exact h.wellFormed.units x hx

end Tags

section Context

variable {r : Root} {lib : Libdwarf}

/-- The root stands at the unit `cu`. -/
def AtUnit (cu : CompileUnit) (rest : List CompileUnit) (r : Root) : Prop :=
  r.cuContext = some cu ∧ r.currentCuOffset = cu.die ∧ r.upcomingCus = rest

theorem Serves.mem_of_unit (h : Serves lib t) (hw : WellFormed t) {cu : CompileUnit}
    (hcu : cu ∈ lib.cuHeaders) :
    ∃ x ∈ t, x.offset = cu.die ∧ x.inMemory = false ∧ x.depth = 1 := by
  obtain ⟨l, rfl, -⟩ := hw.rooted
  refine h.units.mem ?_ ?_ hcu
  · cases hc : Preorder.firstChild Node.depth (rootNode :: l) with
    | nil => exact .inl rfl
    | cons y l' => exact .inr (firstChild_suffix_of List.suffix_rfl hc)
  · intro x hx
    cases hc : Preorder.firstChild Node.depth (rootNode :: l) with
    | nil =>
      rw [hc] at hx
      exact absurd hx (by simp)
    | cons y l' =>
      rw [hc] at hx
      obtain rfl : y = x := by simpa using hx
      exact (firstChild_eq_cons.1 hc).2

theorem Serves.unit_pos (h : Serves lib t) (hw : WellFormed t) {cu : CompileUnit}
    (hcu : cu ∈ lib.cuHeaders) : 0 < cu.die := by
  obtain ⟨x, hx, hoff, -, hd⟩ := h.mem_of_unit hw hcu
  have hne : x.offset ≠ 0 := by
    intro h0
    have := (hw.depth_eq_zero_iff hx).2 h0
    omega
  omega

/-- The unit at a header, and what comes behind it in the tree. -/
theorem Serves.next (h : Serves lib t) (hw : WellFormed t) {pre rest : List CompileUnit}
    {cu : CompileUnit} (hsplit : lib.cuHeaders = pre ++ cu :: rest) {x : Node} {l : List Node}
    (hx : x :: l <:+ t) (hoff : x.offset = cu.die) :
    UnitChain (Preorder.nextSibling Node.depth (x :: l)) rest ∧
      ∀ cu' ∈ rest.head?, cu'.die = cu.nextCuHeader + 11 := by
  obtain ⟨l₀, rfl, -⟩ := hw.rooted
  have hunits := h.units
  rw [hsplit] at hunits
  refine hunits.next hw.sorted ?_ hx hoff
  cases hc : Preorder.firstChild Node.depth (rootNode :: l₀) with
  | nil => exact .inl rfl
  | cons y l' => exact .inr (firstChild_suffix_of List.suffix_rfl hc)

/-- **`advance_cu_context` goes to the next header, or to none after the last.** -/
theorem advanceCuContext_reaches (h : Consistent t r) :
    Reaches t advanceCuContext r fun ret r' =>
      match r.dbg, r.upcomingCus with
      | some _, cu :: cus => ret = true ∧ AtUnit cu cus r' ∧ (r'.parentOf cu.die).isSome = true
      | _, _ => ret = false ∧ r'.currentCuOffset = 0 := by
  have hcontext := h.context
  unfold ContextIsSane at hcontext
  refine StateReturns.get_bind ?_
  cases hdbg : r.dbg with
  | none =>
    rw [hdbg] at hcontext
    exact StateReturns.pure h ⟨rfl, hcontext⟩
  | some lib =>
    rw [hdbg] at hcontext
    have hserves := h.serves lib hdbg
    cases hup : r.upcomingCus with
    | nil =>
      refine StateReturns.bind (p := fun _ r' => r'.currentCuOffset = 0) (StateReturns.set ?_
        ⟨hdbg.symm, rfl, fun _ hc => hc, fun _ hs => hs, fun _ hl => hl⟩ rfl) ?_
      · refine h.of_context hdbg.symm ?_ rfl rfl rfl h.parents fun c hc => hc
        exact .inl ⟨rfl, rfl, rfl⟩
      · rintro - r' hr' - h0
        exact StateReturns.pure hr' ⟨rfl, h0⟩
    | cons cu cus =>
      rw [hup] at hcontext
      -- The header is one of the file's, and the offset of its DIE passes the checks.
      obtain ⟨pre, hsplit⟩ : ∃ pre, lib.cuHeaders = pre ++ cu :: cus := by
        rcases hcontext with ⟨-, hall, -⟩ | ⟨pre, cu₀, hsplit, -⟩
        · exact ⟨[], by rw [← hall]; rfl⟩
        · exact ⟨pre ++ [cu₀], by rw [hsplit]; simp⟩
      have hmem : cu ∈ lib.cuHeaders := by
        rw [hsplit]
        simp
      obtain ⟨x, hx, hoff, hfile, hd⟩ := hserves.mem_of_unit h.wellFormed hmem
      have hchecks : (r.currentCuOffset = 0 → 0 < cu.die ∧ cu.die < 32) ∧
          (if r.currentCuOffset = 0 then some cu.die else r.firstCuOffset) = some 11 ∧
          cuOffsetIsSane (if r.currentCuOffset = 0 then some cu.die else r.firstCuOffset)
            r.lastSeen.nextCuHeader cu.die = true := by
        rcases hcontext with ⟨h0, hall, hlast⟩ | ⟨pre₀, cu₀, hsplit₀, hctx, hcur, hfirst, hlast⟩
        · have h11 : cu.die = 11 := hserves.firstUnit cu (by rw [← hall]; rfl)
          rw [if_pos h0, hlast, h11]
          exact ⟨fun _ => by omega, rfl, rfl⟩
        · have hne : r.currentCuOffset ≠ 0 := by
            have := hserves.unit_pos h.wellFormed (show cu₀ ∈ lib.cuHeaders by rw [hsplit₀]; simp)
            omega
          obtain ⟨x₀, hx₀, hoff₀, -, -⟩ :=
            hserves.mem_of_unit h.wellFormed (show cu₀ ∈ lib.cuHeaders by rw [hsplit₀]; simp)
          obtain ⟨l₀, hl₀⟩ := exists_suffix_of_mem hx₀
          have hdie := (hserves.next h.wellFormed hsplit₀ hl₀ hoff₀).2 cu (by simp)
          rw [if_neg hne, hfirst, hlast]
          exact ⟨fun h0 => absurd h0 hne, rfl, by simp [cuOffsetIsSane, LastSeen.ofUnit, hdie]⟩
      obtain ⟨hsmall, hfirst, hsane⟩ := hchecks
      refine StateReturns.bind (p := fun _ r' => r' = r) (reaches_require hsmall h rfl) ?_
      rintro - r₁ - - rfl
      refine StateReturns.bind (p := fun _ r' => r' = r₁) (reaches_require hsane h rfl) ?_
      rintro - r₂ - - rfl
      refine StateReturns.bind (p := fun _ r' => AtUnit cu cus r' ∧
        (r'.parentOf cu.die).isSome = true) (StateReturns.set ?_
        ⟨hdbg.symm, rfl, fun _ hc => isSome_update hc, fun _ hs => hs, fun _ hl => hl⟩
        ⟨⟨rfl, rfl, rfl⟩, by simp⟩) ?_
      · have hentered := h.enterParent (h.wellFormed.isParent_root hx hd)
        rw [hoff] at hentered
        refine hentered.of_context hdbg.symm ?_ rfl rfl rfl hentered.parents fun c hc => hc
        exact .inr ⟨pre, cu, hsplit, rfl, rfl, hfirst, rfl⟩
      · rintro - r' hr' - hat
        exact StateReturns.pure hr' ⟨rfl, hat⟩

/-- The units still to come where the root stands. -/
def Upcoming (r : Root) (cus : List CompileUnit) : Prop :=
  match r.dbg with
  | none => cus = []
  | some _ => r.upcomingCus = cus

theorem exists_upcoming (r : Root) : ∃ cus, Upcoming r cus ∧ cus.length ≤ r.upcomingCus.length := by
  cases hdbg : r.dbg with
  | none => exact ⟨[], by simp [Upcoming, hdbg], by simp⟩
  | some lib => exact ⟨r.upcomingCus, by simp [Upcoming, hdbg], le_rfl⟩

theorem advanceCuContext_nil (h : Consistent t r) (hup : Upcoming r []) :
    Reaches t advanceCuContext r fun ret r' => ret = false ∧ r'.currentCuOffset = 0 := by
  refine (advanceCuContext_reaches h).mono fun ret r' _ _ hpost => ?_
  unfold Upcoming at hup
  cases hdbg : r.dbg with
  | none => simpa [hdbg] using hpost
  | some lib =>
    rw [hdbg] at hup
    simpa [hdbg, hup] using hpost

theorem advanceCuContext_cons (h : Consistent t r) {cu : CompileUnit} {cus : List CompileUnit}
    (hup : Upcoming r (cu :: cus)) :
    Reaches t advanceCuContext r fun ret r' =>
      ret = true ∧ AtUnit cu cus r' ∧ Upcoming r' cus ∧ (r'.parentOf cu.die).isSome = true := by
  refine (advanceCuContext_reaches h).mono fun ret r' _ hmoved hpost => ?_
  unfold Upcoming at hup
  cases hdbg : r.dbg with
  | none => simp [hdbg] at hup
  | some lib =>
    simp only [hdbg] at hup
    simp only [hdbg, hup] at hpost
    refine ⟨hpost.1, hpost.2.1, ?_, hpost.2.2⟩
    unfold Upcoming
    rw [hmoved.dbg, hdbg]
    exact hpost.2.1.2.2

/-- Where a root stands at no header, all are to come. -/
theorem Consistent.upcoming_all (h : Consistent t r) (h0 : r.currentCuOffset = 0) :
    Upcoming r ((r.dbg.map Libdwarf.cuHeaders).getD []) := by
  have hcontext := h.context
  unfold ContextIsSane at hcontext
  unfold Upcoming
  cases hdbg : r.dbg with
  | none => rfl
  | some lib =>
    rw [hdbg] at hcontext
    rcases hcontext with ⟨-, hall, -⟩ | ⟨pre, cu, hsplit, -, hcur, -, -⟩
    · exact hall
    · have := (h.serves lib hdbg).unit_pos h.wellFormed
        (show cu ∈ lib.cuHeaders by rw [hsplit]; simp)
      omega

theorem advanceToLast_reaches (h : Consistent t r) {cus : List CompileUnit} (hup : Upcoming r cus)
    {n : ℕ} (hn : cus.length < n) :
    Reaches t (advanceToLast n) r fun _ r' => r'.currentCuOffset = 0 := by
  induction cus generalizing r n with
  | nil =>
    obtain ⟨n, rfl⟩ := Nat.exists_eq_succ_of_ne_zero (by omega : n ≠ 0)
    refine (advanceCuContext_nil h hup).bind ?_
    rintro ret r' hr' - ⟨rfl, h0⟩
    exact StateReturns.pure hr' h0
  | cons cu cus ih =>
    obtain ⟨n, rfl⟩ := Nat.exists_eq_succ_of_ne_zero (by omega : n ≠ 0)
    refine (advanceCuContext_cons h hup).bind ?_
    rintro ret r' hr' - ⟨rfl, -, hup', -⟩
    exact ih hr' hup' (by simp only [List.length_cons] at hn; omega)

/-- **`clear_cu_context` leaves all headers to come.** -/
theorem clearCuContext_reaches (h : Consistent t r) :
    Reaches t clearCuContext r fun _ r' => r'.currentCuOffset = 0 := by
  refine StateReturns.get_bind ?_
  split_ifs with h0
  · exact StateReturns.pure h h0
  · obtain ⟨cus, hup, hlen⟩ := exists_upcoming r
    refine (advanceToLast_reaches h hup (Nat.lt_succ_of_le hlen)).bind ?_
    rintro - r' hr' - h0
    exact StateReturns.pure hr' h0

/-- Walking on to a unit that is to come. -/
theorem advanceCuContextTo_mem (h : Consistent t r) {pre rest : List CompileUnit} {cu : CompileUnit}
    (hup : Upcoming r (pre ++ cu :: rest)) (hpre : ∀ cu' ∈ pre, cu'.die ≠ cu.die ∧ cu'.die ≠ 0)
    {b : Bool} (hb : b = true → ∀ cu' ∈ (pre ++ cu :: rest).head?, cu'.die = 11) {n : ℕ}
    (hn : pre.length < n) :
    Reaches t (advanceCuContextTo cu.die n b) r fun ret r' => ret = true ∧ AtUnit cu rest r' := by
  induction pre generalizing r n b with
  | nil =>
    obtain ⟨n, rfl⟩ := Nat.exists_eq_succ_of_ne_zero (by omega : n ≠ 0)
    refine (advanceCuContext_cons h hup).bind ?_
    rintro ret r' hr' - ⟨rfl, hat, -, -⟩
    refine StateReturns.get_bind (StateReturns.bind (p := fun _ r'' => r'' = r')
      (reaches_require (fun hc => ?_) hr' rfl) ?_)
    · rw [hat.2.1]
      exact hb hc.2 cu rfl
    · rintro - r'' - - rfl
      rw [if_neg (by simp [hat.2.1])]
      exact StateReturns.pure hr' ⟨rfl, hat⟩
  | cons cu' pre ih =>
    obtain ⟨n, rfl⟩ := Nat.exists_eq_succ_of_ne_zero (by omega : n ≠ 0)
    refine (advanceCuContext_cons h hup).bind ?_
    rintro ret r' hr' - ⟨rfl, hat, hup', -⟩
    refine StateReturns.get_bind (StateReturns.bind (p := fun _ r'' => r'' = r')
      (reaches_require (fun hc => ?_) hr' rfl) ?_)
    · rw [hat.2.1]
      exact hb hc.2 cu' rfl
    · rintro - r'' - - rfl
      obtain ⟨hne, hne0⟩ := hpre cu' List.mem_cons_self
      rw [if_pos ⟨by rw [hat.2.1]; exact hne0, by rw [hat.2.1]; exact hne, rfl⟩]
      refine ih hr' hup' (fun c hc => hpre c (List.mem_cons_of_mem _ hc)) (by simp) ?_
      simp only [List.length_cons] at hn
      omega

/-- Walking on to the end for a unit that is not to come. -/
theorem advanceCuContextTo_not_mem (h : Consistent t r) {off : ℕ} {cus : List CompileUnit}
    (hup : Upcoming r cus) (hcus : ∀ cu ∈ cus, cu.die ≠ off ∧ cu.die ≠ 0) {b : Bool}
    (hb : b = true → ∀ cu ∈ cus.head?, cu.die = 11) {n : ℕ} (hn : cus.length < n) :
    Reaches t (advanceCuContextTo off n b) r fun ret r' =>
      ret = false ∧ r'.currentCuOffset = 0 := by
  induction cus generalizing r n b with
  | nil =>
    obtain ⟨n, rfl⟩ := Nat.exists_eq_succ_of_ne_zero (by omega : n ≠ 0)
    refine (advanceCuContext_nil h hup).bind ?_
    rintro ret r' hr' - ⟨rfl, h0⟩
    refine StateReturns.get_bind (StateReturns.bind (p := fun _ r'' => r'' = r')
      (reaches_require (by simp) hr' rfl) ?_)
    rintro - r'' - - rfl
    rw [if_neg (by simp)]
    exact StateReturns.pure hr' ⟨rfl, h0⟩
  | cons cu cus ih =>
    obtain ⟨n, rfl⟩ := Nat.exists_eq_succ_of_ne_zero (by omega : n ≠ 0)
    refine (advanceCuContext_cons h hup).bind ?_
    rintro ret r' hr' - ⟨rfl, hat, hup', -⟩
    refine StateReturns.get_bind (StateReturns.bind (p := fun _ r'' => r'' = r')
      (reaches_require (fun hc => ?_) hr' rfl) ?_)
    · rw [hat.2.1]
      exact hb hc.2 cu rfl
    · rintro - r'' - - rfl
      obtain ⟨hne, hne0⟩ := hcus cu List.mem_cons_self
      rw [if_pos ⟨by rw [hat.2.1]; exact hne0, by rw [hat.2.1]; exact hne, rfl⟩]
      refine ih hr' hup' (fun c hc => hcus c (List.mem_cons_of_mem _ hc)) (by simp) ?_
      simp only [List.length_cons] at hn
      omega

/-- The headers of the file. -/
def Root.cuHeaders (r : Root) : List CompileUnit := (r.dbg.map Libdwarf.cuHeaders).getD []

/-- The root stands at the unit at `off`, before those of `rest`. -/
def AtOffset (off : ℕ) (r : Root) : Prop :=
  ∃ pre cu rest, r.cuHeaders = pre ++ cu :: rest ∧ cu.die = off ∧ AtUnit cu rest r

theorem Consistent.upcoming_suffix (h : Consistent t r) {cus : List CompileUnit}
    (hup : Upcoming r cus) : cus <:+ r.cuHeaders := by
  have hcontext := h.context
  unfold ContextIsSane at hcontext
  unfold Upcoming at hup
  unfold Root.cuHeaders
  cases hdbg : r.dbg with
  | none =>
    rw [hdbg] at hup
    rw [show cus = [] from hup]
    exact List.nil_suffix
  | some lib =>
    rw [hdbg] at hcontext hup
    obtain rfl : r.upcomingCus = cus := hup
    rcases hcontext with ⟨-, hall, -⟩ | ⟨pre, cu, hsplit, -⟩
    · rw [hall]
      exact List.suffix_rfl
    · exact ⟨pre ++ [cu], by simp [hsplit]⟩

theorem Consistent.unit_ne_zero (h : Consistent t r) {cu : CompileUnit} (hcu : cu ∈ r.cuHeaders) :
    cu.die ≠ 0 := by
  unfold Root.cuHeaders at hcu
  cases hdbg : r.dbg with
  | none => simp [hdbg] at hcu
  | some lib =>
    rw [hdbg] at hcu
    have := (h.serves lib hdbg).unit_pos h.wellFormed hcu
    omega

theorem Consistent.firstUnit (h : Consistent t r) : ∀ cu ∈ r.cuHeaders.head?, cu.die = 11 := by
  unfold Root.cuHeaders
  cases hdbg : r.dbg with
  | none => simp
  | some lib => exact (h.serves lib hdbg).firstUnit

/-- **`set_subsequent_cu_context` stops at a unit that is to come, or at none.** -/
theorem setSubsequentCuContext_reaches (h : Consistent t r) {off : ℕ} (h0 : off ≠ 0) :
    Reaches t (setSubsequentCuContext off) r fun ret r' =>
      (ret = true ∧ AtOffset off r') ∨
        (ret = false ∧ r'.currentCuOffset = 0 ∧
          (r.currentCuOffset = 0 → ∀ cu ∈ r.cuHeaders, cu.die ≠ off)) := by
  refine StateReturns.get_bind ?_
  by_cases hcur : r.currentCuOffset = off
  · rw [if_pos hcur]
    refine StateReturns.pure h (.inl ⟨rfl, ?_⟩)
    have hcontext := h.context
    unfold ContextIsSane at hcontext
    unfold AtOffset Root.cuHeaders
    cases hdbg : r.dbg with
    | none =>
      rw [hdbg] at hcontext
      exact absurd (hcur.symm.trans hcontext) h0
    | some lib =>
      rw [hdbg] at hcontext
      rcases hcontext with ⟨hz, -⟩ | ⟨pre, cu, hsplit, hctx, hdie, -⟩
      · exact absurd (hcur.symm.trans hz) h0
      · exact ⟨pre, cu, r.upcomingCus, hsplit, hdie.symm.trans hcur, hctx, hdie, rfl⟩
  · rw [if_neg hcur]
    obtain ⟨cus, hup, hlen⟩ := exists_upcoming r
    have hsuffix := h.upcoming_suffix hup
    have hall : r.currentCuOffset = 0 → cus = r.cuHeaders := by
      intro hz
      have hup' := h.upcoming_all hz
      unfold Upcoming at hup hup'
      cases hdbg : r.dbg with
      | none =>
        rw [hdbg] at hup hup'
        rw [show cus = [] from hup, Root.cuHeaders, hdbg]
        rfl
      | some lib =>
        simp only [hdbg] at hup hup'
        rw [← hup, hup', Root.cuHeaders, hdbg]
    have hfirst : decide (r.currentCuOffset = 0) = true → ∀ cu ∈ cus.head?, cu.die = 11 := by
      intro hz
      rw [hall (by simpa using hz)]
      exact h.firstUnit
    by_cases hex : ∃ cu ∈ cus, cu.die = off
    · -- The first of the units to come that lies there is where the walk stops.
      obtain ⟨pre, cu, rest, rfl, hcu, hpre⟩ : ∃ pre cu rest, cus = pre ++ cu :: rest ∧
          cu.die = off ∧ ∀ cu' ∈ pre, cu'.die ≠ off := by
        obtain ⟨cu, hfind⟩ := Option.isSome_iff_exists.1
          (List.find?_isSome.2 (by simpa using hex) :
            (cus.find? fun cu => decide (cu.die = off)).isSome = true)
        obtain ⟨hp, pre, rest, hsplit, hpre⟩ := List.find?_eq_some_iff_append.1 hfind
        exact ⟨pre, cu, rest, hsplit, by simpa using hp, fun c hc => by simpa using hpre c hc⟩
      subst hcu
      refine (advanceCuContextTo_mem h hup (fun cu' hcu' => ⟨hpre cu' hcu', ?_⟩) hfirst ?_).bind ?_
      · exact h.unit_ne_zero (hsuffix.subset (by simp [hcu']))
      · simp only [List.length_append, List.length_cons] at hlen
        omega
      · rintro ret r' hr' hmoved ⟨rfl, hat⟩
        refine StateReturns.get_bind (StateReturns.bind (p := fun _ r'' => r'' = r')
          (reaches_require (fun _ => ?_) hr' rfl) ?_)
        · rw [hat.1]
          rfl
        · rintro - r'' - - rfl
          refine StateReturns.pure hr' (.inl ⟨rfl, ?_⟩)
          obtain ⟨before, hbefore⟩ := hsuffix
          refine ⟨before ++ pre, cu, rest, ?_, rfl, hat⟩
          rw [Root.cuHeaders, hmoved.dbg, ← Root.cuHeaders, ← hbefore, List.append_assoc]
    · have hno : ∀ cu ∈ cus, cu.die ≠ off := fun cu hcu hd => hex ⟨cu, hcu, hd⟩
      refine (advanceCuContextTo_not_mem h hup (fun cu hcu => ⟨hno cu hcu, ?_⟩) hfirst ?_).bind ?_
      · exact h.unit_ne_zero (hsuffix.subset hcu)
      · omega
      · rintro ret r' hr' - ⟨rfl, hz⟩
        refine StateReturns.get_bind (StateReturns.bind (p := fun _ r'' => r'' = r')
          (reaches_require (by simp) hr' rfl) ?_)
        rintro - r'' - - rfl
        refine StateReturns.pure hr' (.inr ⟨rfl, hz, fun hcz => ?_⟩)
        rw [← hall hcz]
        exact hno

/-- **`set_cu_context` finds the units of the file.** -/
theorem setCuContext_reaches (h : Consistent t r) {off : ℕ} (h0 : off ≠ 0) :
    Reaches t (setCuContext off) r fun ret r' =>
      (ret = true ∧ AtOffset off r') ∨ (ret = false ∧ ∀ cu ∈ r.cuHeaders, cu.die ≠ off) := by
  refine (setSubsequentCuContext_reaches h h0).bind ?_
  rintro ret r₁ hr₁ hmoved₁ (⟨rfl, hat⟩ | ⟨rfl, -, -⟩)
  · exact StateReturns.pure hr₁ (.inl ⟨rfl, hat⟩)
  · refine (clearCuContext_reaches hr₁).bind ?_
    rintro - r₂ hr₂ hmoved₂ hz
    refine (setSubsequentCuContext_reaches hr₂ h0).mono ?_
    rintro ret r₃ - - (⟨rfl, hat⟩ | ⟨rfl, -, hno⟩)
    · exact .inl ⟨rfl, hat⟩
    · refine .inr ⟨rfl, ?_⟩
      rw [Root.cuHeaders, ← hmoved₁.dbg, ← hmoved₂.dbg]
      exact hno hz

end Context

section Moves

variable {r : Root} {x : Node} {l : List Node}

/-- The iterator is at the first node of `s`, or at the end if there is none. -/
def IsAt (s : List Node) (res : Option Iterator) : Prop :=
  match s with
  | [] => res = none
  | x :: _ => ∃ it, res = some it ∧ it.offset = x.offset ∧ it.depth = some x.depth

/-- The parent of the first node of `s` is cached. -/
def ParentKnown (r : Root) (s : List Node) : Prop :=
  ∀ x ∈ s.head?, (r.parentOf x.offset).isSome = true

theorem ParentKnown.mono {r' : Root} {s : List Node} (h : ParentKnown r s) (hm : Moved r r') :
    ParentKnown r' s := fun x hx => hm.parents x.offset (h x hx)

theorem parentKnown_nil : ParentKnown r [] := fun _ hx => absurd hx (by simp)

theorem parentKnown_cons {y : Node} {m : List Node} :
    ParentKnown r (y :: m) ↔ (r.parentOf y.offset).isSome = true := by simp [ParentKnown]

/-- What is not live and is a unit is one of the file's. -/
theorem Consistent.mem_cuHeaders (h : Consistent t r) (hx : x ∈ t) (h0 : x.offset ≠ 0)
    (hfile : x.inMemory = false) (hd : x.depth = 1) : ∃ cu ∈ r.cuHeaders, cu.die = x.offset := by
  unfold Root.cuHeaders
  cases hdbg : r.dbg with
  | none =>
    rw [h.noFile hdbg x hx h0] at hfile
    exact absurd hfile (by decide)
  | some lib => exact (h.serves lib hdbg).allUnits x hx hfile hd

/-- The iterator has the payload of its DIE, or its DIE is not live. -/
def Locatable (r : Root) (it : Iterator) : Prop :=
  it.payload = true ∨ (r.liveDies it.offset).isSome = false

/-- An iterator from a DIE has its payload where the DIE is live. -/
theorem ofDie_locatable (h : Consistent t r) (hx : x ∈ t) (h0 : x.offset ≠ 0) (depth : Option ℕ) :
    Reaches t (ofDie x.offset depth) r fun it r' =>
      it.offset = x.offset ∧ it.depth = depth ∧ Locatable r' it := by
  refine StateReturns.get_bind ?_
  by_cases hlive : (r.liveDies x.offset).isSome = true
  · rw [if_pos hlive]
    exact StateReturns.pure h ⟨rfl, rfl, .inl rfl⟩
  · rw [if_neg hlive]
    have hfile : x.inMemory = false := by
      cases hm : x.inMemory with
      | false => rfl
      | true =>
        obtain ⟨u, -, hu, -⟩ := h.memoryLive x hx hm
        rw [hu] at hlive
        exact absurd rfl hlive
    by_cases htag : r.tagHere x.offset = dwTagCompileUnit
    · rw [if_pos htag]
      have hd := (h.tagHere_eq_unit hx h0).1 htag
      refine (setCuContext_reaches h h0).bind ?_
      rintro ret r₁ hr₁ hmoved₁ (⟨rfl, -⟩ | ⟨-, hno⟩)
      · refine StateReturns.bind (p := fun _ r'' => r'' = r₁) (reaches_require rfl hr₁ rfl) ?_
        rintro - r₂ - - rfl
        refine StateReturns.bind (p := fun _ _ => True)
          (StateReturns.modify (hr₁.enterLive hx h0 hfile) (Moved.enterLive _ _) trivial) ?_
        rintro - r₃ hr₃ - -
        exact StateReturns.pure hr₃ ⟨rfl, rfl, .inl rfl⟩
      · obtain ⟨cu, hcu, hdie⟩ := h.mem_cuHeaders hx h0 hfile hd
        exact absurd hdie (hno cu hcu)
    · rw [if_neg htag]
      exact StateReturns.pure h ⟨rfl, rfl, .inr (Bool.eq_false_iff.2 hlive)⟩

/-- **An iterator can be had for every DIE.** -/
theorem ofDie_reaches (h : Consistent t r) (hx : x ∈ t) (h0 : x.offset ≠ 0) (depth : Option ℕ) :
    Reaches t (ofDie x.offset depth) r fun it _ => it.offset = x.offset ∧ it.depth = depth :=
  (ofDie_locatable h hx h0 depth).mono fun _ _ _ _ hpost => ⟨hpost.1, hpost.2.1⟩

theorem WellFormed.child_offset_ne_zero (h : WellFormed t) {y : Node} {l' : List Node}
    (hx : x :: l <:+ t) (hy : Preorder.firstChild Node.depth (x :: l) = y :: l') : y.offset ≠ 0 := by
  have := key_lt_of_isParent h.sorted (isParent_firstChild hx hy)
  omega

theorem WellFormed.sibling_offset_ne_zero (h : WellFormed t) {y : Node} {l' : List Node}
    (hx : x :: l <:+ t) (hy : Preorder.nextSibling Node.depth (x :: l) = y :: l') :
    y.offset ≠ 0 := by
  have := (h.sorted.suffix hx).key_lt_nextSibling (mem_subtree_self x l) hy
  omega

/-- A cached edge to a live DIE is the edge of the tree. -/
theorem Consistent.liveTarget_child (h : Consistent t r) (hx : x :: l <:+ t) {c : ℕ}
    (hc : r.liveTarget r.firstChildOf x.offset = some c) :
    ∃ y l', Preorder.firstChild Node.depth (x :: l) = y :: l' ∧ y.offset = c ∧
      (r.parentOf c).isSome = true := by
  obtain ⟨hedge, -⟩ := Option.filter_eq_some_iff.1 hc
  obtain ⟨hknown, x', m, y, l', hx', hy, hoff, hyc⟩ := h.children _ _ hedge
  rw [h.wellFormed.sorted.suffix_unique hx' hx hoff] at hy
  exact ⟨y, l', hy, hyc, hknown⟩

theorem Consistent.liveTarget_sibling (h : Consistent t r) (hx : x :: l <:+ t) {c : ℕ}
    (hc : r.liveTarget r.nextSiblingOf x.offset = some c) :
    ∃ y l', Preorder.nextSibling Node.depth (x :: l) = y :: l' ∧ y.offset = c ∧
      (r.parentOf c).isSome = true := by
  obtain ⟨hedge, -⟩ := Option.filter_eq_some_iff.1 hc
  obtain ⟨hknown, x', m, y, l', hx', hy, hoff, hyc⟩ := h.siblings _ _ hedge
  rw [h.wellFormed.sorted.suffix_unique hx' hx hoff] at hy
  exact ⟨y, l', hy, hyc, hknown⟩

theorem Consistent.live_of_inMemory (h : Consistent t r) (hx : x ∈ t) (hm : x.inMemory = true) :
    (r.liveDies x.offset).isSome = true := by
  obtain ⟨u, -, hu, -⟩ := h.memoryLive x hx hm
  rw [hu]
  rfl

/-- Where no cached edge leads to a live child, a child is one of the file's. -/
theorem Consistent.file_of_liveTarget_child (h : Consistent t r) (hx : x :: l <:+ t)
    (hc : r.liveTarget r.firstChildOf x.offset = none) {y : Node} {l' : List Node}
    (hy : Preorder.firstChild Node.depth (x :: l) = y :: l') : y.inMemory = false := by
  cases hm : y.inMemory with
  | false => rfl
  | true =>
    have hlive := h.live_of_inMemory (mem_of_suffix (firstChild_suffix_of hx hy)) hm
    rw [Root.liveTarget, h.childEdges x l y l' hx hy hm, Option.filter_some, if_pos hlive] at hc
    exact absurd hc (by simp)

theorem Consistent.file_of_liveTarget_sibling (h : Consistent t r) (hx : x :: l <:+ t)
    (hc : r.liveTarget r.nextSiblingOf x.offset = none) {y : Node} {l' : List Node}
    (hy : Preorder.nextSibling Node.depth (x :: l) = y :: l') : y.inMemory = false := by
  cases hm : y.inMemory with
  | false => rfl
  | true =>
    have hlive := h.live_of_inMemory (mem_of_suffix (nextSibling_suffix_of hx hy)) hm
    rw [Root.liveTarget, h.siblingEdges x l y l' hx hy hm, Option.filter_some, if_pos hlive] at hc
    exact absurd hc (by simp)

/-- The units of the file from the first one on. -/
theorem Consistent.unitChain (h : Consistent t r) :
    UnitChain (Preorder.firstChild Node.depth t) r.cuHeaders := by
  unfold Root.cuHeaders
  cases hdbg : r.dbg with
  | some lib => exact (h.serves lib hdbg).units
  | none =>
    refine fileOffset_eq_none.2 fun y l' hy => ?_
    obtain ⟨l, rfl, -⟩ := h.wellFormed.rooted
    exact h.noFile hdbg y (mem_of_suffix (firstChild_suffix_of List.suffix_rfl hy))
      (h.wellFormed.child_offset_ne_zero List.suffix_rfl hy)

/-- **The first CU of the file is the first child of the root position, unless that is in
memory.** -/
theorem firstCu_reaches (h : Consistent t r) :
    Reaches t firstCu r fun c _ => c = fileOffset (Preorder.firstChild Node.depth t) := by
  have hunits := h.unitChain
  refine (clearCuContext_reaches h).bind ?_
  rintro - r₁ hr₁ hmoved₁ hz
  have hup := hr₁.upcoming_all hz
  rw [← Root.cuHeaders, Root.cuHeaders, hmoved₁.dbg, ← Root.cuHeaders] at hup
  cases hcus : r.cuHeaders with
  | nil =>
    rw [hcus] at hup hunits
    refine (advanceCuContext_nil hr₁ hup).bind ?_
    rintro ret r₂ hr₂ - ⟨rfl, -⟩
    exact StateReturns.pure hr₂ hunits.symm
  | cons cu cus =>
    rw [hcus] at hup hunits
    refine (advanceCuContext_cons hr₁ hup).bind ?_
    rintro ret r₂ hr₂ - ⟨rfl, hat, -, hknown⟩
    obtain ⟨y, l', hy, -, hoff⟩ := fileOffset_eq_some.1 hunits.1
    obtain ⟨l, rfl, -⟩ := h.wellFormed.rooted
    have henter := hr₂.enterChild List.suffix_rfl hy (hoff.symm ▸ hknown)
    rw [hoff, ← hat.2.1] at henter
    refine StateReturns.bind (p := fun _ r' => r'.cuContext = some cu)
      (StateReturns.modify henter (Moved.enterChild _ _) hat.1) ?_
    rintro - r₃ hr₃ - hctx
    refine StateReturns.get_bind (StateReturns.pure hr₃ ?_)
    rw [hctx, hunits.1]
    rfl

theorem childHandle_reaches (h : Consistent t r) (hx : x :: l <:+ t) :
    Reaches t (childHandle x.offset) r fun c _ =>
      (∀ y l', Preorder.firstChild Node.depth (x :: l) = y :: l' → y.inMemory = false) →
      c = fileOffset (Preorder.firstChild Node.depth (x :: l)) := by
  have hmem := mem_of_suffix hx
  refine StateReturns.get_bind ?_
  by_cases h0 : x.offset = 0
  · rw [if_pos h0]
    have hall : x :: l = t := by
      obtain ⟨l₀, rfl, -⟩ := h.wellFormed.rooted
      exact h.wellFormed.sorted.suffix_unique hx List.suffix_rfl h0
    rw [hall]
    exact (firstCu_reaches h).mono fun c r' _ _ hc _ => hc
  · rw [if_neg h0, h.isInMemory hmem]
    cases hm : x.inMemory with
    | true =>
      refine StateReturns.pure h fun hfile => ?_
      refine (fileOffset_eq_none.2 fun y l' hy => ?_).symm
      exact h.wellFormed.memoryChild x l y l' hx hy hm
    | false =>
      refine StateReturns.pure h fun _ => ?_
      cases hdbg : r.dbg with
      | none =>
        rw [h.noFile hdbg x hmem h0] at hm
        exact absurd hm (by decide)
      | some lib => exact (h.serves lib hdbg).child x l hx hm h0

/-- The iterator is at the first node of `s` with the depth `depth`, or at the end if there is none. -/
def IsLocatableAt (r : Root) (depth : Option ℕ) (s : List Node) (res : Option Iterator) : Prop :=
  match s with
  | [] => res = none
  | x :: _ => ∃ it, res = some it ∧ it.offset = x.offset ∧ it.depth = depth ∧ Locatable r it

/-- `first_child` is the first child, from an iterator with whatever depth. -/
theorem firstChild_locatable (h : Consistent t r) (hx : x :: l <:+ t) {it : Iterator}
    (hoff : it.offset = x.offset) :
    Reaches t (firstChild it) r fun res r' =>
      IsLocatableAt r' (it.depth.map fun d => toUShort (d + 1))
          (Preorder.firstChild Node.depth (x :: l)) res ∧
        ParentKnown r' (Preorder.firstChild Node.depth (x :: l)) := by
  refine StateReturns.get_bind ?_
  rw [hoff]
  cases hlive : r.liveTarget r.firstChildOf x.offset with
  | some c =>
    obtain ⟨y, l', hy, rfl, hknown⟩ := h.liveTarget_child hx hlive
    refine (ofDie_locatable h (mem_of_suffix (firstChild_suffix_of hx hy))
      (h.wellFormed.child_offset_ne_zero hx hy) _).bind ?_
    rintro it' r' hr' hmoved hit'
    refine StateReturns.pure hr' ?_
    rw [hy]
    exact ⟨⟨it', rfl, hit'⟩, parentKnown_cons.2 (hmoved.parents _ hknown)⟩
  | none =>
    have hfile : ∀ y l', Preorder.firstChild Node.depth (x :: l) = y :: l' → y.inMemory = false :=
      fun y l' hy => h.file_of_liveTarget_child hx hlive hy
    refine (childHandle_reaches h hx).bind ?_
    rintro c r₁ hr₁ - hc
    rw [hc hfile]
    cases hy : Preorder.firstChild Node.depth (x :: l) with
    | nil => exact StateReturns.pure hr₁ ⟨rfl, parentKnown_nil⟩
    | cons y l' =>
      rw [fileOffset_eq_some.2 ⟨y, l', rfl, hfile y l' hy, rfl⟩]
      refine (ofDie_locatable hr₁ (mem_of_suffix (firstChild_suffix_of hx hy))
        (h.wellFormed.child_offset_ne_zero hx hy) _).bind ?_
      rintro it' r₂ hr₂ - hit'
      have hparent := hr₂.enterParent (isParent_firstChild hx hy)
      refine StateReturns.bind (p := fun _ r' => (r'.parentOf y.offset).isSome = true ∧
          r'.liveDies = r₂.liveDies) (StateReturns.modify ?_ ?_ ?_) ?_
      · exact hparent.enterChild hx hy (by simp)
      · exact IsTrans.trans _ _ _ (Moved.enterParent y.offset x.offset)
          (Moved.enterChild x.offset y.offset)
      · simp
      · rintro - r₃ hr₃ - ⟨hknown, hsame⟩
        obtain ⟨hoff', hdepth', hloc⟩ := hit'
        refine StateReturns.pure hr₃ ⟨⟨it', rfl, hoff', hdepth', ?_⟩, parentKnown_cons.2 hknown⟩
        rwa [Locatable, hsame]

/-- **`first_child` is the first child.** -/
theorem firstChild_reaches (h : Consistent t r) (hx : x :: l <:+ t) {it : Iterator}
    (hoff : it.offset = x.offset) (hdepth : it.depth = some x.depth) :
    Reaches t (firstChild it) r fun res r' =>
      IsAt (Preorder.firstChild Node.depth (x :: l)) res ∧
        ParentKnown r' (Preorder.firstChild Node.depth (x :: l)) := by
  refine (firstChild_locatable h hx hoff).mono ?_
  rintro res r' - - ⟨hat, hknown⟩
  refine ⟨?_, hknown⟩
  cases hy : Preorder.firstChild Node.depth (x :: l) with
  | nil =>
    rw [hy] at hat
    exact hat
  | cons y l' =>
    rw [hy] at hat
    obtain ⟨it', rfl, hoff', hdepth', -⟩ := hat
    refine ⟨it', rfl, hoff', ?_⟩
    rw [hdepth', hdepth, Option.map_some, ← (firstChild_eq_cons.1 hy).2,
      h.wellFormed.toUShort_depth (mem_of_suffix (firstChild_suffix_of hx hy))]

/-- **The CU of the file behind a unit is its next sibling, unless that is in memory.** -/
theorem nextCu_reaches (h : Consistent t r) (hx : x :: l <:+ t) (hd : x.depth = 1)
    (h0 : x.offset ≠ 0) :
    Reaches t (nextCu x.offset) r fun c _ =>
      (∀ y l', Preorder.nextSibling Node.depth (x :: l) = y :: l' → y.inMemory = false) →
      c = fileOffset (Preorder.nextSibling Node.depth (x :: l)) := by
  have hmem := mem_of_suffix hx
  refine (setCuContext_reaches h h0).bind ?_
  rintro ret r₁ hr₁ hmoved₁ (⟨rfl, pre, cu, rest, hsplit, hdie, hat⟩ | ⟨rfl, hno⟩)
  · obtain ⟨lib, hdbg⟩ : ∃ lib, r₁.dbg = some lib := by
      cases hdbg : r₁.dbg with
      | none => simp [Root.cuHeaders, hdbg] at hsplit
      | some lib => exact ⟨lib, rfl⟩
    rw [Root.cuHeaders, hdbg] at hsplit
    have hchain := ((hr₁.serves lib hdbg).next hr₁.wellFormed hsplit hx hdie.symm).1
    have hup : Upcoming r₁ rest := by
      unfold Upcoming
      rw [hdbg]
      exact hat.2.2
    cases rest with
    | nil =>
      refine (advanceCuContext_nil hr₁ hup).bind ?_
      rintro ret r₂ hr₂ - ⟨rfl, -⟩
      exact StateReturns.pure hr₂ fun _ => Eq.symm hchain
    | cons cu' rest =>
      refine (advanceCuContext_cons hr₁ hup).bind ?_
      rintro ret r₂ hr₂ - ⟨rfl, hat', -, hknown⟩
      obtain ⟨y, l', hy, -, hoff⟩ := fileOffset_eq_some.1 hchain.1
      have henter := hr₂.enterSibling hx hy (hoff.symm ▸ hknown)
      rw [hoff, ← hat'.2.1] at henter
      refine StateReturns.bind (p := fun _ r' => r'.cuContext = some cu')
        (StateReturns.modify henter (Moved.enterSibling _ _) hat'.1) ?_
      rintro - r₃ hr₃ - hctx
      refine StateReturns.get_bind (StateReturns.pure hr₃ fun _ => ?_)
      rw [hctx, hchain.1]
      rfl
  · refine StateReturns.pure hr₁ fun hfile => ?_
    cases hm : x.inMemory with
    | false =>
      obtain ⟨cu, hcu, hdie⟩ := h.mem_cuHeaders hmem h0 hm hd
      exact absurd hdie (hno cu hcu)
    | true =>
      refine (fileOffset_eq_none.2 fun y l' hy => ?_).symm
      exact h.wellFormed.memorySibling x l y l' hx hy hm

theorem siblingHandle_reaches (h : Consistent t r) (hx : x :: l <:+ t) (h0 : x.offset ≠ 0) :
    Reaches t (siblingHandle x.offset) r fun c _ =>
      (∀ y l', Preorder.nextSibling Node.depth (x :: l) = y :: l' → y.inMemory = false) →
      c = fileOffset (Preorder.nextSibling Node.depth (x :: l)) := by
  have hmem := mem_of_suffix hx
  refine StateReturns.get_bind ?_
  by_cases htag : r.tagHere x.offset = dwTagCompileUnit
  · rw [if_pos htag]
    exact nextCu_reaches h hx ((h.tagHere_eq_unit hmem h0).1 htag) h0
  · rw [if_neg htag, h.isInMemory hmem]
    have hd : 1 < x.depth := by
      have hne1 : x.depth ≠ 1 := fun hd => htag ((h.tagHere_eq_unit hmem h0).2 hd)
      have hne0 : x.depth ≠ 0 := fun hd => h0 ((h.wellFormed.depth_eq_zero_iff hmem).1 hd)
      omega
    cases hm : x.inMemory with
    | true =>
      refine StateReturns.pure h fun hfile => ?_
      refine (fileOffset_eq_none.2 fun y l' hy => ?_).symm
      exact h.wellFormed.memorySibling x l y l' hx hy hm
    | false =>
      refine StateReturns.pure h fun _ => ?_
      cases hdbg : r.dbg with
      | none =>
        rw [h.noFile hdbg x hmem h0] at hm
        exact absurd hm (by decide)
      | some lib => exact (h.serves lib hdbg).siblingof x l hx hm hd

theorem WellFormed.exists_parent_of_known (h : Consistent t r) (hx : x :: l <:+ t)
    (h0 : x.offset ≠ 0) {p : ℕ} (hp : r.parentOf x.offset = some p) :
    ∃ z, IsParent Node.depth t z x ∧ z.offset = p := by
  obtain ⟨z, y, hpar, hz, hy⟩ := h.parents _ _ h0 hp
  rw [h.wellFormed.sorted.eq_of_key_eq (isParent_mem hpar).2 (mem_of_suffix hx) hy] at hpar
  exact ⟨z, hpar, hz⟩

/-- An iterator that has been told its depth is left as it is. -/
def LeavesKnown (w : Iterator → RootM Iterator) : Prop :=
  ∀ it, it.depth.isSome = true → w it = pure it

theorem leavesKnown_knownDepth : LeavesKnown knownDepth := by
  intro it hit
  unfold knownDepth
  cases hd : it.depth with
  | none =>
    rw [hd] at hit
    exact absurd hit (by decide)
  | some d => rfl

/-- **`next_sibling` is the next sibling.**  It fails where it does not know the parent. -/
theorem nextSibling_unless (h : Consistent t r) (hx : x :: l <:+ t)
    {w : Iterator → RootM Iterator} (hw : LeavesKnown w) {it : Iterator}
    (hoff : it.offset = x.offset) (hdepth : it.depth = some x.depth)
    {c : Prop} (hc : x.offset ≠ 0 → r.parentOf x.offset = none → c) :
    ReachesUnless t c (nextSibling w it) r fun res r' =>
      IsAt (Preorder.nextSibling Node.depth (x :: l)) res ∧
        ParentKnown r' (Preorder.nextSibling Node.depth (x :: l)) := by
  have hmem := mem_of_suffix hx
  have hwit : w it = pure it := hw it (by rw [hdepth]; rfl)
  have hdepth_sibling : ∀ y l', Preorder.nextSibling Node.depth (x :: l) = y :: l' →
      it.depth = some y.depth := by
    intro y l' hy
    rw [hdepth, (nextSibling_eq_cons.1 hy).2]
  refine StateReturnsUnless.get_bind ?_
  rw [hoff]
  by_cases h0 : x.offset = 0
  · rw [if_pos h0]
    have hnone : Preorder.nextSibling Node.depth (x :: l) = [] := by
      cases hy : Preorder.nextSibling Node.depth (x :: l) with
      | nil => rfl
      | cons y l' =>
        have hdy := (nextSibling_eq_cons.1 hy).2
        have hymem := mem_of_suffix (nextSibling_suffix_of hx hy)
        rw [(h.wellFormed.depth_eq_zero_iff hmem).2 h0] at hdy
        exact absurd ((h.wellFormed.depth_eq_zero_iff hymem).1 hdy)
          (h.wellFormed.sibling_offset_ne_zero hx hy)
    rw [hnone]
    exact StateReturnsUnless.pure h ⟨rfl, parentKnown_nil⟩
  rw [if_neg h0]
  cases hlive : r.liveTarget r.nextSiblingOf x.offset with
  | some c =>
    obtain ⟨y, l', hy, rfl, hyknown⟩ := h.liveTarget_sibling hx hlive
    dsimp only
    rw [hwit, pure_bind]
    refine (ofDie_reaches h (mem_of_suffix (nextSibling_suffix_of hx hy))
      (h.wellFormed.sibling_offset_ne_zero hx hy) _).unless.bind ?_
    rintro it' r' hr' hmoved ⟨hoff', hdepth'⟩
    refine StateReturnsUnless.pure hr' ?_
    rw [hy]
    exact ⟨⟨it', rfl, hoff', hdepth'.trans (hdepth_sibling y l' hy)⟩,
      parentKnown_cons.2 (hmoved.parents _ hyknown)⟩
  | none =>
    cases hp : r.parentOf x.offset with
    | none => exact StateReturnsUnless.throw (hc h0 hp)
    | some p =>
    obtain ⟨z, hz, hzoff⟩ := WellFormed.exists_parent_of_known h hx h0 hp
    have hfile : ∀ y l', Preorder.nextSibling Node.depth (x :: l) = y :: l' → y.inMemory = false :=
      fun y l' hy => h.file_of_liveTarget_sibling hx hlive hy
    dsimp only
    refine (siblingHandle_reaches h hx h0).unless.bind ?_
    rintro c r₁ hr₁ hmoved₁ hhandle
    rw [hhandle hfile]
    cases hy : Preorder.nextSibling Node.depth (x :: l) with
    | nil => exact StateReturnsUnless.pure hr₁ ⟨rfl, parentKnown_nil⟩
    | cons y l' =>
      rw [fileOffset_eq_some.2 ⟨y, l', rfl, hfile y l' hy, rfl⟩]
      dsimp only
      rw [hwit, pure_bind, hoff]
      refine (ofDie_reaches hr₁ (mem_of_suffix (nextSibling_suffix_of hx hy))
        (h.wellFormed.sibling_offset_ne_zero hx hy) _).unless.bind ?_
      rintro it' r₂ hr₂ hmoved₂ ⟨hoff', hdepth'⟩
      have hparent := hr₂.enterParent (isParent_of_nextSibling h.wellFormed.sorted hx hz hy)
      rw [hzoff] at hparent
      refine StateReturnsUnless.bind (p := fun _ r' => (r'.parentOf y.offset).isSome = true ∧
          r'.nextSiblingOf = r₂.nextSiblingOf)
        (StateReturns.modify hparent (Moved.enterParent y.offset p) ⟨by simp, rfl⟩).unless ?_
      rintro - r₃ hr₃ hmoved₃ ⟨hyknown, hsame⟩
      refine StateReturnsUnless.get_bind (StateReturnsUnless.bind (p := fun _ r'' => r'' = r₃)
        (reaches_require ?_ hr₃ rfl).unless ?_)
      · -- An edge that was cached is the tree's, and so is the one that is cached now.
        by_cases hn : r.nextSiblingOf x.offset = none
        · exact .inl hn
        · right
          have hsome : (r₂.nextSiblingOf x.offset).isSome = true :=
            hmoved₂.siblings _ (hmoved₁.siblings _ (Option.isSome_iff_ne_none.2 hn))
          obtain ⟨b, hb⟩ := Option.isSome_iff_exists.1 hsome
          obtain ⟨-, x', m, y', m', hx', hy', hxo, hyo⟩ := hr₂.siblings _ _ hb
          rw [h.wellFormed.sorted.suffix_unique hx' hx hxo, hy] at hy'
          rw [hsame, hb, ← hyo, (List.cons.inj hy').1]
      · rintro - r₄ - - rfl
        refine StateReturnsUnless.bind (p := fun _ r' => (r'.parentOf y.offset).isSome = true)
          (StateReturns.modify (hr₃.enterSibling hx hy hyknown) (Moved.enterSibling _ _)
            hyknown).unless ?_
        rintro - r₅ hr₅ - hyknown'
        exact StateReturnsUnless.pure hr₅
          ⟨⟨it', rfl, hoff', hdepth'.trans (hdepth_sibling y l' hy)⟩, parentKnown_cons.2 hyknown'⟩

/-- **`move_to_next_sibling` goes to the next sibling.** -/
theorem moveToNextSibling_unless (h : Consistent t r) (hx : x :: l <:+ t)
    {w : Iterator → RootM Iterator} (hw : LeavesKnown w) {it : Iterator}
    (hoff : it.offset = x.offset) (hdepth : it.depth = some x.depth)
    {c : Prop} (hc : x.offset ≠ 0 → r.parentOf x.offset = none → c) :
    ReachesUnless t c (moveToNextSibling w it) r fun res r' =>
      IsAt (Preorder.nextSibling Node.depth (x :: l)) res ∧
        ParentKnown r' (Preorder.nextSibling Node.depth (x :: l)) := by
  unfold moveToNextSibling
  rw [hw it (by rw [hdepth]; rfl), pure_bind]
  refine (nextSibling_unless h hx hw hoff hdepth hc).bind ?_
  rintro res r' hr' - ⟨hat, hk⟩
  cases hy : Preorder.nextSibling Node.depth (x :: l) with
  | nil =>
    rw [hy] at hat
    obtain rfl : res = none := hat
    exact StateReturnsUnless.pure hr' ⟨rfl, parentKnown_nil⟩
  | cons y l' =>
    rw [hy] at hat hk
    obtain ⟨it', rfl, hoff', hdepth'⟩ := hat
    refine StateReturnsUnless.bind (p := fun _ r'' => r'' = r')
      (reaches_require ?_ hr' rfl).unless ?_
    · rw [hdepth', hdepth, (nextSibling_eq_cons.1 hy).2]
    · rintro - r'' - - rfl
      exact StateReturnsUnless.pure hr' ⟨⟨it', rfl, hoff', hdepth'⟩, hk⟩

theorem moveToNextSibling_reaches (h : Consistent t r) (hx : x :: l <:+ t)
    {w : Iterator → RootM Iterator} (hw : LeavesKnown w) {it : Iterator}
    (hoff : it.offset = x.offset) (hdepth : it.depth = some x.depth)
    (hknown : x.offset ≠ 0 → (r.parentOf x.offset).isSome = true) :
    Reaches t (moveToNextSibling w it) r fun res r' =>
      IsAt (Preorder.nextSibling Node.depth (x :: l)) res ∧
        ParentKnown r' (Preorder.nextSibling Node.depth (x :: l)) :=
  (moveToNextSibling_unless h hx hw hoff hdepth (c := False) fun h0 hn => by
    rw [hn] at hknown
    exact absurd (hknown h0) (by simp)).returns id

end Moves

end Dies
end Dwarfpp
