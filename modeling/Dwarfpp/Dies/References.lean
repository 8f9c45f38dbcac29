/-
# References between DIEs

The tables `refers_to` and `referred_from` of a root.  `find` and `pos` record the
reference that they are told to follow, and `ensure_refers_to_cache_is_complete`
records those of the whole tree, once (`get_referential_structure` of `src/root.cpp`).
`find_associated_name` of `src/dies.cpp` reads them: a DIE without a name goes by that of
the only DIE that refers to it, unless that refers to other such DIEs.

The first table is a map and the second a multimap: recording a reference again
replaces in the one and adds to the other.
-/

import Dwarfpp.Dies.Names
import Dwarfpp.Lib.InverseIndex

namespace Dwarfpp
namespace Dies

open Lib
open Lib.Preorder hiding firstChild nextSibling

/-- `DW_AT_sibling`. -/
def dwAtSibling : ℕ := 0x01

/-- The references from a DIE, but for `DW_AT_sibling`.  The root position has no attributes. -/
def referencesOf (attrs : ℕ → AttributeMap) (off : ℕ) : List ((ℕ ×ₗ ℕ) × ℕ) :=
  if off = 0 then []
  else
    (attrs off).entries.filterMap fun e =>
      match e.2 with
      | .ref target => if e.1 = dwAtSibling then none else some (toLex (off, e.1), target)
      | _ => none

/-- Recording a reference. -/
def Tables.record (tables : Tables) (key : ℕ ×ₗ ℕ) (target : ℕ) : Tables :=
  { tables with
    refersTo := tables.refersTo.insert key target
    referredFrom := tables.referredFrom ++ [(target, key)] }

/-- Recording references one after the other. -/
def Tables.recordAll (tables : Tables) (es : List ((ℕ ×ₗ ℕ) × ℕ)) : Tables :=
  es.foldl (fun tables e => tables.record e.1 e.2) tables

/-- Recording the references from the DIE at `off`. -/
def Root.recordFrom (r : Root) (off : ℕ) : Root :=
  { r with tables := r.tables.recordAll (referencesOf r.tables.attrs off) }

section Model

variable (fuel : ℕ)

/-- The loop of `get_referential_structure`, from `it` on. -/
def sweepFrom : ℕ → Option Iterator → RootM Unit
  | 0, _ => throw .outOfSteps
  | _ + 1, none => return ()
  | n + 1, some it => do
    modify fun r => r.recordFrom it.offset
    let next ← dfIncrement fuel it
    sweepFrom n next

/-- `ensure_refers_to_cache_is_complete`. -/
def ensureRefersToCacheIsComplete : RootM Unit := do
  let r ← get
  if r.tables.refersToCacheIsComplete then return ()
  else
    sweepFrom fuel fuel (some Root.begin)
    modify fun r => { r with tables := { r.tables with refersToCacheIsComplete := true } }

variable (isProgramElement : ℕ → Bool)

/-- The loop over the references of the DIE at `referrer`: whether it finds us, at `ourOff`, and
whether others that could go by the name. -/
def examineReferences (ourOff referrer : ℕ) : List ℕ → RootM (Bool × Bool)
  | [] => return (false, false)
  | target :: targets => do
    let other ← pos target none none none
    let r ← get
    let (foundUs, foundOthers) ← examineReferences ourOff referrer targets
    if isProgramElement (r.tagHere other.offset) = false ∨
        (nameOf r.tables.attrs other.offset).isSome ∨
        r.tagHere other.offset = r.tagHere referrer then return (foundUs, foundOthers)
    else if target = ourOff then return (true, foundOthers)
    else return (foundUs, true)

/-- Whether the name of the DIE at `referrer`, the only one to refer to us, points only to us. -/
def nameFrom (ourOff referrer : ℕ) : RootM (Option String) := do
  let iReferrer ← pos referrer none none none
  let r ← get
  if r.tagHere iReferrer.offset = r.tagHere ourOff then return none
  else
    match nameOf r.tables.attrs iReferrer.offset with
    | none => return none
    | some name =>
      let references := r.tables.refersTo.entries.filter fun e => (ofLex e.1).1 = referrer
      let (foundUs, foundOthers) ←
        examineReferences isProgramElement ourOff referrer (references.map Prod.snd)
      require (foundUs = true)
      return if foundOthers then none else some name

/-- `find_associated_name`.  `isProgramElement` tells the tags of the `program_element_die`s. -/
def findAssociatedName (ourOff : ℕ) : RootM (Option String) := do
  ensureRefersToCacheIsComplete fuel
  let r ← get
  match r.tables.referredFrom.filter fun e => e.1 = ourOff with
  | [(_, key)] => nameFrom isProgramElement ourOff (ofLex key).1
  | _ => return none

end Model

variable {t : List Node} {r : Root} {fuel : ℕ} {attrs : ℕ → AttributeMap}

section Tables

/-- Recording changes the two tables only. -/
theorem recordAll_eq (tables : Tables) (es : List ((ℕ ×ₗ ℕ) × ℕ)) :
    tables.recordAll es = { tables with
      refersTo := tables.refersTo.insertAll es
      referredFrom := tables.referredFrom ++ es.map Prod.swap } := by
  induction es generalizing tables with
  | nil =>
    rw [List.map_nil, List.append_nil]
    rfl
  | cons e es ih =>
    refine (ih (tables.record e.1 e.2)).trans ?_
    rw [Tables.record, List.append_assoc]
    rfl

theorem attrs_recordAll (tables : Tables) (es : List ((ℕ ×ₗ ℕ) × ℕ)) :
    (tables.recordAll es).attrs = tables.attrs := by
  rw [recordAll_eq]

theorem recordAll_append (tables : Tables) (es es' : List ((ℕ ×ₗ ℕ) × ℕ)) :
    tables.recordAll (es ++ es') = (tables.recordAll es).recordAll es' := List.foldl_append

/-- Each reference of the tree, by the DIE and the attribute. -/
def treeReferences (t : List Node) (attrs : ℕ → AttributeMap) : List ((ℕ ×ₗ ℕ) × ℕ) :=
  t.flatMap fun x => referencesOf attrs x.offset

theorem mem_referencesOf {off : ℕ} {e : (ℕ ×ₗ ℕ) × ℕ} (h : e ∈ referencesOf attrs off) :
    off ≠ 0 ∧ (ofLex e.1).1 = off := by
  unfold referencesOf at h
  split_ifs at h with h0
  · exact absurd h (by simp)
  · obtain ⟨⟨a, v⟩, -, he⟩ := List.mem_filterMap.1 h
    cases v <;> simp only [reduceCtorEq] at he
    split_ifs at he
    obtain rfl := Option.some.inj he
    exact ⟨h0, rfl⟩

theorem sorted_referencesOf (attrs : ℕ → AttributeMap) (off : ℕ) :
    (referencesOf attrs off).Pairwise fun x y => x.1 < y.1 := by
  unfold referencesOf
  split_ifs
  · exact List.Pairwise.nil
  refine List.pairwise_filterMap.2 ((attrs off).sorted.imp ?_)
  rintro ⟨a, v⟩ ⟨b, w⟩ hlt e he e' he'
  cases v <;> cases w <;> simp only [reduceCtorEq] at he he'
  split_ifs at he he'
  obtain rfl := Option.some.inj he
  obtain rfl := Option.some.inj he'
  exact Prod.Lex.toLex_lt_toLex.2 (.inr ⟨rfl, hlt⟩)

/-- The references of a tree come in the order of their keys. -/
theorem sorted_treeReferences (attrs : ℕ → AttributeMap) (h : Sorted Node.offset t) :
    (treeReferences t attrs).Pairwise fun x y => x.1 < y.1 := by
  refine List.pairwise_flatMap.2 ⟨fun x _ => sorted_referencesOf attrs x.offset, h.imp ?_⟩
  rintro x y hlt e he e' he'
  refine Prod.Lex.lt_iff.2 (.inl ?_)
  rw [(mem_referencesOf he).2, (mem_referencesOf he').2]
  exact hlt

theorem nodup_keys_treeReferences (h : Sorted Node.offset t) :
    ((treeReferences t attrs).map Prod.fst).Nodup :=
  List.pairwise_map.2 ((sorted_treeReferences attrs h).imp fun hlt => hlt.ne)

/-- A reference of the tree is from one of its DIEs. -/
theorem mem_treeReferences {e : (ℕ ×ₗ ℕ) × ℕ} (h : e ∈ treeReferences t attrs) :
    ∃ x ∈ t, x.offset ≠ 0 ∧ (ofLex e.1).1 = x.offset := by
  obtain ⟨x, hx, he⟩ := List.mem_flatMap.1 h
  exact ⟨x, hx, mem_referencesOf he⟩

end Tables

section Sweep

/-- **A sweep records the references of what is left of the tree.** -/
theorem sweepFrom_returns (h : Consistent t r) (hfuel : EnoughFuel t fuel) {s : List Node}
    (hs : s <:+ t) {res : Option Iterator} (hat : TraversalAt s res) (hknown : PathKnown t r s)
    {n : ℕ} (hn : s.length < n) :
    ∃ r', sweepFrom fuel n res r = .ok ((), r') ∧ Consistent t r' ∧
      r'.tables = r.tables.recordAll (treeReferences s r.tables.attrs) := by
  induction s generalizing r res n with
  | nil =>
    obtain ⟨n, rfl⟩ := Nat.exists_eq_succ_of_ne_zero (by omega : n ≠ 0)
    obtain rfl : res = none := hat
    exact ⟨r, rfl, h, rfl⟩
  | cons x l ih =>
    obtain ⟨n, rfl⟩ := Nat.exists_eq_succ_of_ne_zero (by omega : n ≠ 0)
    obtain ⟨it, rfl, hit⟩ := hat
    have hr₁ : Consistent t (r.recordFrom it.offset) := h.withTables _
    have hknown₁ : PathKnown t (r.recordFrom it.offset) (x :: l) := hknown
    obtain ⟨next, r₂, hrun, hr₂, hmoved, hnext, hk⟩ :=
      (dfIncrement_unless hr₁ hfuel hs hit hknown₁.failsFor).returns id
    obtain ⟨r₃, hrun₃, hr₃, htables⟩ := ih hr₂ ((List.suffix_cons x l).trans hs) (.of_isAt hnext)
      (hknown₁.tail h.wellFormed.sorted hs hmoved hk) (Nat.lt_of_succ_lt_succ hn)
    refine ⟨r₃, ?_, hr₃, ?_⟩
    · change (dfIncrement fuel it (r.recordFrom it.offset)).bind _ = _
      rw [hrun]
      exact hrun₃
    · rw [htables, hmoved.tables, hit.1, Root.recordFrom]
      dsimp only
      rw [attrs_recordAll, ← recordAll_append]
      rfl

/-- **After `ensure_refers_to_cache_is_complete` the references of the whole tree are recorded**, if
they had not been said to be. -/
theorem ensureRefersToCacheIsComplete_returns (h : Consistent t r) (hfuel : EnoughFuel t fuel) :
    ∃ r', ensureRefersToCacheIsComplete fuel r = .ok ((), r') ∧ Consistent t r' ∧
      r'.tables = if r.tables.refersToCacheIsComplete then r.tables
        else { r.tables.recordAll (treeReferences t r.tables.attrs) with
          refersToCacheIsComplete := true } := by
  by_cases hc : r.tables.refersToCacheIsComplete = true
  · refine ⟨r, ?_, h, (if_pos hc).symm⟩
    change (if r.tables.refersToCacheIsComplete = true then _ else _ : RootM Unit) r = _
    rw [if_pos hc]
    rfl
  · obtain ⟨r₁, hrun, hr₁, htables⟩ := sweepFrom_returns h hfuel List.suffix_rfl
      (traversalAt_begin h) (pathKnown_root h) hfuel.1
    refine ⟨_, ?_, hr₁.withTables { r₁.tables with refersToCacheIsComplete := true }, ?_⟩
    · change (if r.tables.refersToCacheIsComplete = true then _ else _ : RootM Unit) r = _
      rw [if_neg hc]
      change (sweepFrom fuel fuel (some Root.begin) r).bind _ = _
      rw [hrun]
      rfl
    · dsimp only
      rw [if_neg hc, htables]

end Sweep

section Answer

variable {off : ℕ} {isProgramElement : ℕ → Bool}

/-- The DIE that `pos` goes to.  None is at the root position. -/
def dieAt (t : List Node) (off : ℕ) : Option Node :=
  if off = 0 then none else naiveFind t off

theorem dieAt_eq_some (h : Sorted Node.offset t) {x : Node} :
    dieAt t off = some x ↔ x ∈ t ∧ x.offset = off ∧ off ≠ 0 := by
  unfold dieAt
  split_ifs with h0
  · simp [h0]
  · constructor
    · intro hfind
      have hoff : x.offset = off := by simpa using List.find?_some hfind
      exact ⟨List.mem_of_find?_eq_some hfind, hoff, h0⟩
    · rintro ⟨hx, rfl, -⟩
      cases hfind : naiveFind t x.offset with
      | none => exact absurd (decide_eq_true rfl) (List.find?_eq_none.1 hfind x hx)
      | some y =>
        have hoff : y.offset = x.offset := by simpa using List.find?_some hfind
        rw [h.eq_of_key_eq (List.mem_of_find?_eq_some hfind) hx hoff]

/-- `pos` without what to go by, where a DIE is. -/
theorem pos_of_dieAt (h : Consistent t r) {x : Node} (hx : dieAt t off = some x) :
    Reaches t (pos off none none none) r fun it _ => it.offset = off := by
  obtain ⟨hmem, rfl, h0⟩ := (dieAt_eq_some h.wellFormed.sorted).1 hx
  refine (pos_reaches h hmem ?_ ?_ ?_ ?_).mono fun it r' _ _ hpost => hpost.1
  · exact fun d hd => absurd hd (by simp)
  · exact fun p hp => absurd hp (by simp)
  · exact fun hz => absurd hz h0
  · exact fun hd => absurd hd (by simp)

/-- It raises where no DIE is. -/
theorem pos_of_dieAt_none (h : Consistent t r) (hnone : dieAt t off = none)
    {optDepth parentOff : Option ℕ} (hdepth : optDepth ≠ some 0)
    (referencer : Option (ℕ ×ₗ ℕ)) :
    pos off optDepth parentOff referencer r = .error .noEntry := by
  have hno : ∀ x ∈ t, x.offset = off → off = 0 := by
    intro x hx hoff
    by_contra h0
    rw [(dieAt_eq_some h.wellFormed.sorted).2 ⟨hx, hoff, h0⟩] at hnone
    exact absurd hnone (by simp)
  have hlive : (r.liveDies off).isSome = false := by
    cases hd : r.liveDies off with
    | none => rfl
    | some d =>
      obtain ⟨x, hx, hoff, h0, -⟩ := h.live off d hd
      exact absurd (hno x hx hoff) h0
  have hdie : (r.dbg.any fun lib => lib.offdie off) = false := by
    cases hdbg : r.dbg with
    | none => rfl
    | some lib =>
      rw [Option.any_some, Bool.eq_false_iff]
      intro hoffdie
      obtain ⟨x, hx, hoff, -, h0⟩ := ((h.serves lib hdbg).offdie off).1 hoffdie
      exact h0 (hno x hx hoff)
  rw [pos_eq_ite hdepth, hlive, hdie]
  rfl

/-- Whether the name of `referrer` could be taken for that of its target. -/
def goesByName (t : List Node) (attrs : ℕ → AttributeMap) (isProgramElement : ℕ → Bool)
    (referrer : Node) (target : ℕ) : Bool :=
  match dieAt t target with
  | none => false
  | some x =>
    isProgramElement x.tag && (nameOf attrs target).isNone && decide (x.tag ≠ referrer.tag)

/-- The name that `us` has from `referrer`, by the tree: none of the referrer's other targets may go
by it.  A reference to where no DIE is raises. -/
def nameBy (t : List Node) (attrs : ℕ → AttributeMap) (isProgramElement : ℕ → Bool)
    (us referrer : Node) : Except Fault (Option String) :=
  if referrer.tag = us.tag then .ok none
  else
    match nameOf attrs referrer.offset with
    | none => .ok none
    | some name =>
      let references := (treeReferences t attrs).filter fun e => (ofLex e.1).1 = referrer.offset
      let targets := references.map Prod.snd
      if targets.any fun o => (dieAt t o).isNone then .error .noEntry
      else if targets.any fun o => goesByName t attrs isProgramElement referrer o && o ≠ us.offset then
        .ok none
      else .ok (some name)

/-- The name that `us` is associated with, by the tree: from the only DIE to refer to it. -/
def associatedName (t : List Node) (attrs : ℕ → AttributeMap) (isProgramElement : ℕ → Bool)
    (us : Node) : Except Fault (Option String) :=
  match (treeReferences t attrs).filter fun e => e.2 = us.offset with
  | [e] =>
    match dieAt t (ofLex e.1).1 with
    | none => .ok none
    | some referrer => nameBy t attrs isProgramElement us referrer
  | _ => .ok none

/-- **The loop over the references** tells whether we are among those that go by the name, and
whether others are. -/
theorem examineReferences_reaches (isProgramElement : ℕ → Bool) (off : ℕ) (h : Consistent t r)
    {referrer : Node} (hreferrer : referrer ∈ t) (h0 : referrer.offset ≠ 0) {targets : List ℕ}
    (hall : ∀ o ∈ targets, ∃ x, dieAt t o = some x) :
    Reaches t (examineReferences isProgramElement off referrer.offset targets) r fun res _ =>
      res.1 = (targets.any fun o =>
        goesByName t r.tables.attrs isProgramElement referrer o && o = off) ∧
      res.2 = (targets.any fun o =>
        goesByName t r.tables.attrs isProgramElement referrer o && o ≠ off) := by
  induction targets generalizing r with
  | nil => exact StateReturns.pure h ⟨rfl, rfl⟩
  | cons target targets ih =>
    obtain ⟨x, hx⟩ := hall target List.mem_cons_self
    obtain ⟨hmem, rfl, hx0⟩ := (dieAt_eq_some h.wellFormed.sorted).1 hx
    refine (pos_of_dieAt h hx).bind ?_
    rintro other r₁ hr₁ hmoved₁ hother
    refine StateReturns.get_bind ?_
    refine (ih hr₁ fun o ho => hall o (List.mem_cons_of_mem _ ho)).bind ?_
    rintro ⟨foundUs, foundOthers⟩ r₂ hr₂ - ⟨rfl, rfl⟩
    rw [hother, hr₁.tagHere hmem hx0, hr₁.tagHere hreferrer h0, hmoved₁.tables, List.any_cons,
      List.any_cons]
    have hgoes : goesByName t r.tables.attrs isProgramElement referrer x.offset =
        (isProgramElement x.tag && (nameOf r.tables.attrs x.offset).isNone &&
          decide (x.tag ≠ referrer.tag)) := by
      rw [goesByName, hx]
    by_cases hskip : isProgramElement x.tag = false ∨
        (nameOf r.tables.attrs x.offset).isSome = true ∨ x.tag = referrer.tag
    · have hno : goesByName t r.tables.attrs isProgramElement referrer x.offset = false := by
        rw [hgoes]
        rcases hskip with hs | hs | hs
        · simp [hs]
        · simp [Option.isNone_eq_false_iff.2 hs]
        · simp [hs]
      rw [hno]
      dsimp only
      rw [if_pos hskip]
      exact StateReturns.pure hr₂ ⟨rfl, rfl⟩
    · have hyes : goesByName t r.tables.attrs isProgramElement referrer x.offset = true := by
        rw [hgoes]
        rw [not_or, not_or] at hskip
        obtain ⟨h1, h2, h3⟩ := hskip
        rw [Bool.not_eq_false] at h1
        rw [Option.not_isSome_iff_eq_none] at h2
        simp [h1, h2, h3]
      rw [hyes]
      dsimp only
      rw [if_neg hskip]
      by_cases hus : x.offset = off
      · rw [if_pos hus]
        exact StateReturns.pure hr₂ ⟨by simp [hus], by simp [hus]⟩
      · rw [if_neg hus]
        exact StateReturns.pure hr₂ ⟨by simp [hus], by simp [hus]⟩

/-- It raises at a reference to where no DIE is. -/
theorem examineReferences_error (h : Consistent t r) {referrer : ℕ} {targets : List ℕ} {o : ℕ}
    (ho : o ∈ targets) (hnone : dieAt t o = none) :
    examineReferences isProgramElement off referrer targets r = .error .noEntry := by
  induction targets generalizing r with
  | nil => exact absurd ho (by simp)
  | cons target targets ih =>
    change (pos target none none none r).bind _ = _
    cases hd : dieAt t target with
    | none =>
      rw [pos_of_dieAt_none h hd (by simp)]
      rfl
    | some x =>
      obtain ⟨other, r₁, hrun, hr₁, -, -⟩ := pos_of_dieAt h hd
      have htail : o ∈ targets := by
        rcases List.mem_cons.1 ho with rfl | ho
        · rw [hnone] at hd
          exact absurd hd (by simp)
        · exact ho
      rw [hrun]
      change (examineReferences isProgramElement off referrer targets r₁).bind _ = _
      rw [ih hr₁ htail]
      rfl

variable {us referrer : Node}

/-- **The name from the only referrer** is the one that the tree tells, where `refers_to` lists the
references of the tree. -/
theorem nameFrom_eq (h : Consistent t r)
    (hentries : r.tables.refersTo.entries = treeReferences t r.tables.attrs)
    (hus : us ∈ t) (h0 : us.offset ≠ 0) (helement : isProgramElement us.tag = true)
    (hanonymous : nameOf r.tables.attrs us.offset = none) (hreferrer : dieAt t off = some referrer)
    {e : (ℕ ×ₗ ℕ) × ℕ} (he : e ∈ treeReferences t r.tables.attrs) (hfrom : (ofLex e.1).1 = off)
    (hto : e.2 = us.offset) :
    (nameFrom isProgramElement us.offset off r).map Prod.fst =
      nameBy t r.tables.attrs isProgramElement us referrer := by
  obtain ⟨hmem, rfl, hr0⟩ := (dieAt_eq_some h.wellFormed.sorted).1 hreferrer
  obtain ⟨it, r₁, hrun, hr₁, hmoved, hit⟩ := pos_of_dieAt h hreferrer
  change ((pos referrer.offset none none none r).bind _).map Prod.fst = _
  rw [hrun]
  change ((if r₁.tagHere it.offset = r₁.tagHere us.offset then (pure none : RootM (Option String))
    else _) r₁).map Prod.fst = _
  rw [hit, hr₁.tagHere hmem hr0, hr₁.tagHere hus h0, hmoved.tables, hentries, nameBy]
  by_cases htag : referrer.tag = us.tag
  · rw [if_pos htag, if_pos htag]
    rfl
  rw [if_neg htag, if_neg htag]
  cases hname : nameOf r.tables.attrs referrer.offset with
  | none => rfl
  | some name =>
    dsimp only
    have hmine : us.offset ∈ ((treeReferences t r.tables.attrs).filter
        fun e => decide ((ofLex e.1).1 = referrer.offset)).map Prod.snd :=
      List.mem_map.2 ⟨e, List.mem_filter.2 ⟨he, decide_eq_true hfrom⟩, hto⟩
    generalize ((treeReferences t r.tables.attrs).filter
      fun e => decide ((ofLex e.1).1 = referrer.offset)).map Prod.snd = targets at hmine ⊢
    by_cases hdangling : targets.any (fun o => (dieAt t o).isNone) = true
    · rw [if_pos hdangling]
      obtain ⟨o, ho, hnone⟩ := List.any_eq_true.1 hdangling
      change ((examineReferences isProgramElement us.offset referrer.offset targets r₁).bind _).map
        Prod.fst = _
      rw [examineReferences_error hr₁ ho (Option.isNone_iff_eq_none.1 hnone)]
      rfl
    · rw [if_neg hdangling]
      have hall : ∀ o ∈ targets, ∃ x, dieAt t o = some x := by
        intro o ho
        refine Option.ne_none_iff_exists'.1 fun hnone => hdangling ?_
        exact List.any_eq_true.2 ⟨o, ho, Option.isNone_iff_eq_none.2 hnone⟩
      obtain ⟨⟨foundUs, foundOthers⟩, r₂, hrun₂, -, -, hfound⟩ :=
        examineReferences_reaches isProgramElement us.offset hr₁ hmem hr0 hall
      rw [hmoved.tables] at hfound
      obtain ⟨hfoundUs, rfl⟩ := hfound
      have htrue : foundUs = true := by
        refine hfoundUs.trans (List.any_eq_true.2 ⟨us.offset, hmine, ?_⟩)
        have hself : dieAt t us.offset = some us :=
          (dieAt_eq_some h.wellFormed.sorted).2 ⟨hus, rfl, h0⟩
        rw [goesByName, hself]
        dsimp only
        rw [helement, hanonymous]
        simpa using fun heq => htag heq.symm
      change ((examineReferences isProgramElement us.offset referrer.offset targets r₁).bind _).map
        Prod.fst = _
      rw [hrun₂, htrue]
      cases hothers : targets.any fun o =>
        goesByName t r.tables.attrs isProgramElement referrer o && o ≠ us.offset <;> rfl

/-- `pos` without what to go by keeps what the root knows, if it returns. -/
theorem pos_unless (h : Consistent t r) :
    ReachesUnless t True (pos off none none none) r fun _ _ => True := by
  cases hd : dieAt t off with
  | none => exact .inr ⟨trivial, .noEntry, pos_of_dieAt_none h hd (by simp) none⟩
  | some x => exact (pos_of_dieAt h hd).unless.mono fun _ _ _ _ _ => trivial

theorem examineReferences_unless (h : Consistent t r) {referrer : ℕ} {targets : List ℕ} :
    ReachesUnless t True (examineReferences isProgramElement off referrer targets) r
      fun _ _ => True := by
  induction targets generalizing r with
  | nil => exact StateReturnsUnless.pure h trivial
  | cons target targets ih =>
    refine (pos_unless h).bind ?_
    rintro other r₁ hr₁ - -
    refine StateReturnsUnless.get_bind ((ih hr₁).bind ?_)
    rintro ⟨foundUs, foundOthers⟩ r₂ hr₂ - -
    dsimp only
    split_ifs <;> exact StateReturnsUnless.pure hr₂ trivial

theorem nameFrom_unless (h : Consistent t r) {ourOff : ℕ} :
    ReachesUnless t True (nameFrom isProgramElement ourOff off) r fun _ _ => True := by
  refine (pos_unless h).bind ?_
  rintro it r₁ hr₁ - -
  refine StateReturnsUnless.get_bind ?_
  split_ifs with htag
  · exact StateReturnsUnless.pure hr₁ trivial
  cases nameOf r₁.tables.attrs it.offset with
  | none => exact StateReturnsUnless.pure hr₁ trivial
  | some name =>
    refine (examineReferences_unless hr₁).bind ?_
    rintro ⟨foundUs, foundOthers⟩ r₂ hr₂ - -
    refine StateReturnsUnless.bind (p := fun _ _ => True) ?_ ?_
    · by_cases hfound : foundUs = true
      · exact (reaches_require hfound hr₂ trivial).unless
      · exact .inr ⟨trivial, .assertFailed, if_neg hfound⟩
    · rintro - r₃ hr₃ - -
      exact StateReturnsUnless.pure hr₃ trivial

/-- `refers_to` is empty with the sweep to come, or lists the references of the tree. -/
def Reading (t : List Node) (r : Root) : Prop :=
  r.tables.refersTo.entries =
    if r.tables.refersToCacheIsComplete then treeReferences t r.tables.attrs else []

/-- After `ensure_refers_to_cache_is_complete` it lists the references of the tree. -/
theorem ensureRefersToCacheIsComplete_reads (h : Consistent t r) (hfuel : EnoughFuel t fuel)
    (hinverse : Inverse r.tables.refersTo r.tables.referredFrom) (hreading : Reading t r) :
    ∃ r', ensureRefersToCacheIsComplete fuel r = .ok ((), r') ∧ Consistent t r' ∧
      r'.tables.attrs = r.tables.attrs ∧
      r'.tables.refersTo.entries = treeReferences t r.tables.attrs ∧
      Inverse r'.tables.refersTo r'.tables.referredFrom := by
  obtain ⟨r', hrun, hr', htables⟩ := ensureRefersToCacheIsComplete_returns h hfuel
  refine ⟨r', hrun, hr', ?_⟩
  unfold Reading at hreading
  split_ifs at htables hreading
  · rw [htables]
    exact ⟨rfl, hreading, hinverse⟩
  · have hsorted := sorted_treeReferences r.tables.attrs h.wellFormed.sorted
    rw [htables, recordAll_eq]
    refine ⟨rfl, ?_, ?_⟩
    · have hentries : (r.tables.refersTo.insertAll (treeReferences t r.tables.attrs)).entries =
          r.tables.refersTo.entries ++ treeReferences t r.tables.attrs :=
        entries_insertAll (by rwa [hreading])
      rw [hreading] at hentries
      exact hentries
    · refine (inverse_insertAll_iff hinverse _).2
        ⟨fun e _ => ?_, nodup_keys_treeReferences h.wellFormed.sorted⟩
      rw [OrderedMap.find, hreading]
      rfl

/-- **`find_associated_name` answers what the tree tells**, of an anonymous program element. -/
theorem findAssociatedName_eq (h : Consistent t r) (hfuel : EnoughFuel t fuel)
    (hinverse : Inverse r.tables.refersTo r.tables.referredFrom) (hreading : Reading t r)
    (hus : us ∈ t) (h0 : us.offset ≠ 0) (helement : isProgramElement us.tag = true)
    (hanonymous : nameOf r.tables.attrs us.offset = none) :
    (findAssociatedName fuel isProgramElement us.offset r).map Prod.fst =
      associatedName t r.tables.attrs isProgramElement us := by
  obtain ⟨r₁, hrun, hr₁, hattrs, hentries, hinverse₁⟩ :=
    ensureRefersToCacheIsComplete_reads h hfuel hinverse hreading
  have hperm : (r₁.tables.referredFrom.filter fun e => e.1 = us.offset).Perm
      (((treeReferences t r.tables.attrs).filter fun e => e.2 = us.offset).map Prod.swap) := by
    have := hinverse₁.perm.filter fun e : ℕ × (ℕ ×ₗ ℕ) => decide (e.1 = us.offset)
    rw [hentries, List.filter_map] at this
    exact this
  change ((ensureRefersToCacheIsComplete fuel r).bind _).map Prod.fst = _
  rw [hrun]
  change ((match r₁.tables.referredFrom.filter fun e : ℕ × (ℕ ×ₗ ℕ) => e.1 = us.offset with
    | [(_, key)] => nameFrom isProgramElement us.offset (ofLex key).1
    | _ => (pure none : RootM (Option String))) r₁).map Prod.fst = _
  unfold associatedName
  generalize hrefs : ((treeReferences t r.tables.attrs).filter fun e => e.2 = us.offset) = refs
    at hperm ⊢
  rcases refs with _ | ⟨e, _ | ⟨e', refs⟩⟩
  · rw [hperm.eq_nil]
    rfl
  · rw [List.perm_singleton.1 hperm]
    have he : e ∈ [e] := List.mem_singleton_self e
    rw [← hrefs, List.mem_filter] at he
    obtain ⟨x, hx, hx0, hfrom⟩ := mem_treeReferences he.1
    have hreferrer : dieAt t (ofLex e.1).1 = some x :=
      (dieAt_eq_some h.wellFormed.sorted).2 ⟨hx, hfrom.symm, hfrom ▸ hx0⟩
    dsimp only [Prod.swap]
    rw [hreferrer, ← hattrs]
    refine nameFrom_eq hr₁ ?_ hus h0 helement ?_ hreferrer ?_ rfl (of_decide_eq_true he.2)
    · rw [hattrs, hentries]
    · rw [hattrs, hanonymous]
    · rw [hattrs]
      exact he.1
  · have hlength := hperm.length_eq
    generalize r₁.tables.referredFrom.filter (fun e => decide (e.1 = us.offset)) = l at hlength ⊢
    rcases l with _ | ⟨a, _ | ⟨b, l⟩⟩
    · rfl
    · simp at hlength
    · rfl

end Answer

end Dies
end Dwarfpp
