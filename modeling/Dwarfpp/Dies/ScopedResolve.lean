/-
# Resolving names in scopes

`scoped_resolve_all` of `include/dwarfpp/root-inl.hpp` resolves a path from a DIE, then from each of
the DIEs above it that have named children, the nearest first, and last from the root, among what is
visible outside of its unit (`scopedResolveAll_answers`).  So `scoped_resolve` answers with the end of
the path from the innermost scope that has one (`scopedResolve_innermost`).
-/

import Dwarfpp.Dies.VisiblePaths

namespace Dwarfpp
namespace Dies

open Lib
open Lib.Preorder hiding firstChild nextSibling

section Model

/-- `is_a<with_named_children_die>()`. -/
def isWithNamedChildren (it : Iterator) : RootM Bool := do
  specHere it
  let r ← get
  return withNamedChildren (r.tagHere it.offset)

variable (fuel : ℕ)

/-- The loop to the nearest encloser with named children; `none` where parents run out. -/
def nextScope : ℕ → Iterator → RootM (Option Iterator)
  | 0, _ => throw .outOfSteps
  | n + 1, start => do
    let moved ← moveToParent fuel start
    let pEncl := moved.getD start
    let r ← get
    if r.tagHere pEncl.offset = 0 then return none
    else if ← isWithNamedChildren pEncl then return some pEncl
    else nextScope n pEncl

variable (srk : Srk31 fuel)

/-- `scoped_resolve_all`, through at most so many scopes. -/
def scopedResolveAll : ℕ → Iterator → List String → List Iterator → ℕ → RootM (List Iterator)
  | 0, _, _, _, _ => throw .outOfSteps
  | n + 1, start, path, results, max => do
    if enough max results then return results
    else
      let foundFromHere ← resolve fuel start path
      let results := results ++ foundFromHere.toList
      if foundFromHere.isSome ∧ enough max results then return results
      else
        match ← nextScope fuel fuel start with
        -- no parents are left, but there are the other units
        | none => resolveVisible fuel srk path results max
        | some pEncl => scopedResolveAll n pEncl path results max

/-- `scoped_resolve`. -/
def scopedResolve (start : Iterator) (path : List String) : RootM (Option Iterator) := do
  let results ← scopedResolveAll fuel srk fuel start path [] 1
  return results.head?

end Model

variable {t : List Node} {r r' : Root} {fuel : ℕ} {srk : Srk31 fuel} {x z : Node}
  {it p : Iterator} {path : List String} {max : ℕ}

section Spec

/-- An iterator from a unit's DIE has its payload. -/
theorem ofDie_payload {off : ℕ} {depth : Option ℕ} (htag : r.tagHere off = dwTagCompileUnit)
    (hrun : ofDie off depth r = .ok (it, r')) : it.payload = true := by
  have hrun' := stateT_get_bind_eq_ok hrun
  rw [if_pos htag] at hrun'
  split_ifs at hrun'
  · obtain ⟨rfl, -⟩ := Prod.mk.inj (Except.ok.inj hrun')
    rfl
  · obtain ⟨ret, r₁, -, hrun'⟩ := stateT_bind_eq_ok hrun'
    obtain ⟨-, r₂, -, hrun'⟩ := stateT_bind_eq_ok hrun'
    obtain ⟨-, r₃, -, hrun'⟩ := stateT_bind_eq_ok hrun'
    obtain ⟨rfl, -⟩ := Prod.mk.inj (Except.ok.inj hrun')
    rfl

theorem pos_payload {off : ℕ} {depth : Option ℕ} (hd : depth ≠ some 0)
    (htag : r.tagHere off = dwTagCompileUnit)
    (hrun : pos off depth none none r = .ok (it, r')) : it.payload = true := by
  rw [pos_eq_ite hd] at hrun
  split_ifs at hrun with hlive hthere
  · obtain ⟨rfl, -⟩ := Prod.mk.inj (Except.ok.inj hrun)
    rfl
  · obtain ⟨base, r₁, hbase, hrun⟩ := stateT_bind_eq_ok hrun
    obtain ⟨-, r₂, -, hrun⟩ := stateT_bind_eq_ok hrun
    obtain ⟨-, r₃, -, hrun⟩ := stateT_bind_eq_ok hrun
    obtain ⟨rfl, -⟩ := Prod.mk.inj (Except.ok.inj hrun)
    exact ofDie_payload htag hbase
  · exact absurd hrun (by simp [throw, throwThe, MonadExceptOf.throw, StateT.lift])

theorem Consistent.tagHere_of_unit (h : Consistent t r) (hx : x ∈ t) (hd : x.depth = 1) :
    r.tagHere x.offset = dwTagCompileUnit := by
  refine (h.tagHere_eq_unit hx fun h0 => ?_).2 hd
  have := (h.wellFormed.depth_eq_zero_iff hx).2 h0
  omega

/-- **A DIE has a spec**, if a unit comes with its payload. -/
theorem specHere_arrives (h : Settled t r) (hx : x ∈ t) (h0 : x.offset ≠ 0)
    (hoff : it.offset = x.offset) (hpayload : x.depth = 1 → it.payload = true) :
    Arrives t (specHere it) r fun _ _ => True := by
  have hc := h.consistent
  refine StateReturns.get_bind ?_
  rw [hoff]
  split_ifs with htag hm
  · exact ⟨(), r, if_pos (hpayload ((hc.tagHere_eq_unit hx h0).1 htag)), h, Std.Refl.refl r,
      trivial⟩
  · obtain ⟨u, hu, hcu, hd⟩ := hc.enclosingCu hx h0
    rw [hcu]
    obtain ⟨cu, r₁, hrun, hr₁, hmoved, -, -⟩ := arrives (posUnit_reaches hc hu hd (.inl rfl))
      (pos_rooted h.rooted (by simp) (by simp))
    have hp := pos_payload (by decide) (hc.tagHere_of_unit hu hd) hrun
    refine StateReturns.bind (p := fun i _ => i = cu) ⟨cu, r₁, hrun, hr₁, hmoved, rfl⟩ ?_
    rintro i r₂ hr₂ - rfl
    exact ⟨(), r₂, if_pos hp, hr₂, Std.Refl.refl r₂, trivial⟩
  · exact StateReturns.pure h trivial

/-- A move to a unit comes to it with its payload. -/
theorem moveToParent_payload (h : Consistent t r) (hfuel : EnoughFuel t fuel)
    (hz : IsParent Node.depth t z x) (hit : Standing x it) (hd : z.depth = 1)
    (hrun : moveToParent fuel it r = .ok (some p, r')) : p.payload = true := by
  have hx := (isParent_mem hz).2
  have hdx : x.depth = z.depth + 1 := by
    obtain ⟨-, -, -, -, hd, -⟩ := id hz
    exact hd
  have h0 : x.offset ≠ 0 := fun h0 => by
    have := (h.wellFormed.depth_eq_zero_iff hx).2 h0
    omega
  obtain ⟨res, r₁, hparent, hrun⟩ := stateT_bind_eq_ok hrun
  have hparent' := stateT_get_bind_eq_ok hparent
  have htag : r.tagHere it.offset ≠ dwTagCompileUnit := by
    rw [hit.1, Ne, h.tagHere_eq_unit hx h0]
    omega
  rw [if_neg htag, if_neg (by rw [hit.1]; exact h0)] at hparent'
  obtain ⟨it', r₂, hdepth, hparent'⟩ := stateT_bind_eq_ok hparent'
  obtain ⟨hr₂, -, hoff', hd', -⟩ := (withDepth_reaches h hx hit.1 hit.2 (hfuel.2 x hx)
    hfuel.1).unless (c := True) |>.of_eq_ok hdepth
  obtain ⟨_, r₃, hreq, hparent'⟩ := stateT_bind_eq_ok hparent'
  rw [(require_eq_ok hreq).2, hoff'] at hparent'
  obtain ⟨off, r₄, hoffset, hparent'⟩ := stateT_bind_eq_ok hparent'
  obtain ⟨hr₄, -, hoff, -⟩ := (parentOffset_reaches hr₂ hfuel hz h0).unless (c := True)
    |>.of_eq_ok hoffset
  obtain ⟨_, r₅, hreq, hparent'⟩ := stateT_bind_eq_ok hparent'
  rw [(require_eq_ok hreq).2, hoff] at hparent'
  obtain ⟨i, r₆, hpos, hparent'⟩ := stateT_bind_eq_ok hparent'
  obtain ⟨rfl, rfl⟩ := Prod.mk.inj (Except.ok.inj hparent')
  obtain ⟨_, r₇, -, hrun⟩ := stateT_bind_eq_ok (stateT_get_bind_eq_ok hrun)
  obtain ⟨heq, -⟩ := Prod.mk.inj (Except.ok.inj hrun)
  obtain rfl := Option.some.inj heq
  refine pos_payload ?_ (hr₄.tagHere_of_unit (isParent_mem hz).1 hd) hpos
  rw [hd', hdx, hd]
  decide

end Spec

section Scopes

/-- The DIEs above one that are scopes, the nearest first, up to where the tag is 0, as it is at the
root position. -/
def scopes (t : List Node) (x : Node) : List Node :=
  ((ancestors Node.depth t x).takeWhile fun z => z.tag ≠ 0).filter fun z => withNamedChildren z.tag

theorem Consistent.tagHere_eq (h : Consistent t r) (hx : x ∈ t) : r.tagHere x.offset = x.tag := by
  by_cases h0 : x.offset = 0
  · rw [(h.wellFormed.eq_root_iff hx).1 h0]
    rfl
  · exact h.tagHere hx h0

theorem scopes_root (h : WellFormed t) (hx : x ∈ t) (h0 : x.offset = 0) : scopes t x = [] := by
  rw [(h.eq_root_iff hx).1 h0]
  obtain ⟨l, rfl, -⟩ := h.rooted
  rw [scopes, ancestors_head]
  rfl

theorem scopes_of_parent (h : WellFormed t) (hz : IsParent Node.depth t z x) :
    scopes t x = if z.tag = 0 then []
      else if withNamedChildren z.tag then z :: scopes t z else scopes t z := by
  rw [scopes, ancestors_eq h.sorted hz]
  split_ifs with h0 hnamed
  · rw [List.takeWhile_cons_of_neg (by simp [h0])]
    rfl
  · rw [List.takeWhile_cons_of_pos (by simp [h0]), List.filter_cons, if_pos hnamed]
    rfl
  · rw [List.takeWhile_cons_of_pos (by simp [h0]), List.filter_cons, if_neg hnamed]
    rfl

/-- The DIEs above one, each above those before it. -/
theorem Consistent.ancestors (h : Consistent t r) (hx : x ∈ t) :
    (∀ z, z ∈ Preorder.ancestors Node.depth t x ↔ Below Node.depth t z x) ∧
      (Preorder.ancestors Node.depth t x).Pairwise fun a b => Below Node.depth t b a := by
  have hw := h.wellFormed
  obtain ⟨l, hl, -⟩ := hw.rooted
  have hparent : ∀ y ∈ t, y ≠ rootNode → ∃ w, IsParent Node.depth t w y := fun y hy hne =>
    h.exists_parent hy fun h0 => hne ((hw.eq_root_iff hy).1 h0)
  have hs := hw.sorted
  rw [hl] at hs hparent hx ⊢
  exact ⟨fun z => mem_ancestors hs hparent hx, pairwise_ancestors hs hparent hx⟩

theorem Consistent.below_of_mem_scopes (h : Consistent t r) (hx : x ∈ t) (hz : z ∈ scopes t x) :
    Below Node.depth t z x :=
  ((h.ancestors hx).1 z).1 ((List.takeWhile_prefix _).subset (List.mem_of_mem_filter hz))

/-- The iterator is at the first of the scopes, behind which come the others. -/
def AtScope (t : List Node) (r : Root) (scopesAbove : List Node) (res : Option Iterator) : Prop :=
  match scopesAbove with
  | [] => res = none
  | z :: rest => ∃ i, res = some i ∧ HeldAt t r z i ∧ scopes t z = rest

theorem isWithNamedChildren_arrives (h : Settled t r) (hat : HeldAt t r x it) (h0 : x.offset ≠ 0)
    (hpayload : x.depth = 1 → it.payload = true) :
    Arrives t (isWithNamedChildren it) r fun b _ => b = withNamedChildren x.tag := by
  refine (specHere_arrives h hat.mem h0 hat.standing.1 hpayload).bind ?_
  rintro - r₁ hr₁ - -
  refine StateReturns.get_bind ?_
  rw [hat.standing.1, hr₁.consistent.tagHere hat.mem h0]
  exact StateReturns.pure hr₁ rfl

/-- **The loop goes to the next scope**, or finds that there is none. -/
theorem nextScope_arrives (h : Settled t r) (hfuel : EnoughFuel t fuel) (hat : HeldAt t r x it)
    {n : ℕ} (hn : x.depth < n) :
    Arrives t (nextScope fuel n it) r fun res r' => AtScope t r' (scopes t x) res := by
  induction n generalizing r x it with
  | zero => omega
  | succ n ih =>
    have hw := h.consistent.wellFormed
    rw [nextScope]
    by_cases h0 : x.offset = 0
    · -- At the root position the iterator does not move.
      refine StateReturns.bind (p := fun res r₁ => res = none ∧ r₁ = r)
        ⟨none, r, moveToParent_root (hat.standing.1.trans h0), h, Std.Refl.refl r, rfl, rfl⟩ ?_
      rintro moved r₁ - - ⟨rfl, rfl⟩
      refine StateReturns.get_bind ?_
      rw [Option.getD_none, hat.standing.1, Root.tagHere, if_pos h0, if_pos rfl]
      rw [scopes_root hw hat.mem h0]
      exact StateReturns.pure h rfl
    · obtain ⟨z, hz⟩ := h.consistent.exists_parent hat.mem h0
      have hzt := (isParent_mem hz).1
      have hdz : x.depth = z.depth + 1 := by
        obtain ⟨-, -, -, -, hd, -⟩ := id hz
        exact hd
      obtain ⟨res, r₁, hrun, hr₁, hmoved, p, rfl, hp⟩ :=
        ((moving_settled hfuel).parent h hz hat.known hat.standing).returns id
      have hatz : HeldAt t r₁ z p := ⟨hzt, hp, (h.known_parent hz hat.known).mono hmoved.kept⟩
      have hpayload : z.depth = 1 → p.payload = true := fun hd =>
        moveToParent_payload h.consistent hfuel hz hat.standing hd hrun
      refine StateReturns.bind (p := fun res r₂ => res = some p ∧ r₂ = r₁)
        ⟨some p, r₁, hrun, hr₁, hmoved, rfl, rfl⟩ ?_
      rintro moved r₂ - - ⟨rfl, rfl⟩
      refine StateReturns.get_bind ?_
      rw [Option.getD_some, hp.1, hr₁.consistent.tagHere_eq hzt, scopes_of_parent hw hz]
      by_cases htag : z.tag = 0
      · rw [if_pos htag, if_pos htag]
        exact StateReturns.pure hr₁ rfl
      · rw [if_neg htag, if_neg htag]
        have hz0 : z.offset ≠ 0 := fun hz0 => htag (by rw [(hw.eq_root_iff hzt).1 hz0]; rfl)
        refine (isWithNamedChildren_arrives hr₁ hatz hz0 hpayload).bind ?_
        rintro b r₃ hr₃ hmoved₃ rfl
        have hatz₃ := hatz.mono hmoved₃.kept
        cases hnamed : withNamedChildren z.tag with
        | true => exact StateReturns.pure hr₃ ⟨p, rfl, hatz₃, rfl⟩
        | false => exact ih hr₃ hatz₃ (by omega)

end Scopes

section Resolve

/-- The end of the path from a scope. -/
def scopeEnd (h : WellFormed t) (attrs : ℕ → AttributeMap) (path : List String) (s : Node) :
    Option ℕ :=
  ((namedTree h attrs).firstMatch s path).map Node.offset

/-- The ends of the path from the root; of the empty path there are none. -/
def rootEnds (h : WellFormed t) (tables : Tables) : List String → List ℕ
  | [] => []
  | name :: path => visibleEnds h tables name path

/-- The ends of the path from scopes, and then from the root. -/
def scopedEnds (h : WellFormed t) (tables : Tables) (path : List String) (ss : List Node) :
    List ℕ :=
  ss.filterMap (scopeEnd h tables.attrs path) ++ rootEnds h tables path

theorem scopedEnds_cons (h : WellFormed t) (tables : Tables) (s : Node) (ss : List Node) :
    scopedEnds h tables path (s :: ss) =
      (scopeEnd h tables.attrs path s).toList ++ scopedEnds h tables path ss := by
  rw [scopedEnds, List.filterMap_cons, scopedEnds]
  cases scopeEnd h tables.attrs path s <;> rfl

/-- **`scoped_resolve_all` adds the ends of the path from the DIE, from each scope above it, the
nearest first, and from the root**, as many as the limit allows. -/
theorem scopedResolveAll_answers (srk : Srk31 fuel) (h : Surveyed t r) (hfuel : EnoughFuel t fuel)
    (hat : HeldAt t r x it) {results : List Iterator} (hnot : enough max results = false) {n : ℕ}
    (hn : x.depth < n) :
    Surveys t (scopedResolveAll fuel srk n it path results max) r fun res _ =>
      res.map Iterator.offset = upTo max (results.map Iterator.offset ++
        scopedEnds h.settled.consistent.wellFormed r.tables path (x :: scopes t x)) := by
  induction n generalizing r x it results with
  | zero => omega
  | succ n ih =>
    have hw := h.settled.consistent.wellFormed
    rw [scopedResolveAll, hnot, if_neg Bool.false_ne_true]
    refine (surveys_of_arrives h (resolve_arrives hfuel h.settled rfl hat.found)).bind ?_
    rintro found r₁ hr₁ hasked₁ ⟨hfound, htables₁⟩
    have hends : results.map Iterator.offset ++ scopedEnds hw r.tables path (x :: scopes t x) =
        (results ++ found.toList).map Iterator.offset ++
          scopedEnds hw r.tables path (scopes t x) := by
      rw [scopedEnds_cons, scopeEnd, ← hfound, List.map_append, List.append_assoc]
      cases found <;> rfl
    rw [hends]
    dsimp only
    by_cases henough : found.isSome = true ∧ enough max (results ++ found.toList) = true
    · rw [if_pos henough]
      obtain ⟨hne, hmax⟩ := max_of_enough hnot henough.2
      exact StateReturns.pure hr₁ (upTo_append hmax hne _).symm
    · rw [if_neg henough]
      have hnot' : enough max (results ++ found.toList) = false := by
        cases found with
        | none => rwa [Option.toList_none, List.append_nil]
        | some i => exact Bool.eq_false_iff.2 fun htrue => henough ⟨rfl, htrue⟩
      have hat₁ := hat.mono hasked₁.kept
      have hdepth := (hr₁.settled.consistent.depth_le_offset hat.mem).trans_lt (hfuel.2 x hat.mem)
      refine (surveys_of_arrives hr₁ (nextScope_arrives hr₁.settled hfuel hat₁ hdepth)).bind ?_
      rintro next r₂ hr₂ - ⟨hnext, htables₂⟩
      rw [htables₁] at htables₂
      cases hscopes : scopes t x with
      | nil =>
        rw [hscopes] at hnext
        obtain rfl : next = none := hnext
        rw [scopedEnds, List.filterMap_nil, List.nil_append]
        cases path with
        | nil =>
          rw [rootEnds, List.append_nil, upTo_of_not_enough hnot']
          exact StateReturns.pure hr₂ rfl
        | cons name path =>
          rw [rootEnds, ← htables₂]
          exact resolveVisible_answers srk hr₂ hfuel hnot'
      | cons z rest =>
        rw [hscopes] at hnext
        obtain ⟨i, rfl, hatz, rfl⟩ := hnext
        have hlt := (h.settled.consistent.below_of_mem_scopes hat.mem
          (hscopes ▸ List.mem_cons_self)).depth_lt
        rw [← htables₂]
        exact ih hr₂ hatz hnot' (by omega)

/-- A scope of a DIE: the DIE, or one above it that has named children. -/
def IsScopeOf (t : List Node) (x s : Node) : Prop :=
  s = x ∨ Below Node.depth t s x ∧ s.offset ≠ 0 ∧ withNamedChildren s.tag = true

/-- The end of a path from a DIE that shows its first name outside of its unit. -/
def VisibleEnd (h : WellFormed t) (attrs : ℕ → AttributeMap) (path : List String) (d : ℕ) : Prop :=
  ∃ name rest off, path = name :: rest ∧ Shows t attrs name off ∧ endFrom h attrs rest off = some d

/-- What resolving in scopes is to find: the end of the path from the innermost scope that has one,
or else from a DIE that shows the first name outside of its unit. -/
def FindsInScopes (h : WellFormed t) (attrs : ℕ → AttributeMap) (path : List String) (x : Node)
    (res : Option ℕ) : Prop :=
  (∃ s, IsScopeOf t x s ∧ scopeEnd h attrs path s = res ∧ res.isSome = true ∧
      ∀ s', IsScopeOf t x s' → (scopeEnd h attrs path s').isSome = true → Encloses t s s') ∨
    (∀ s, IsScopeOf t x s → scopeEnd h attrs path s = none) ∧
      match res with
      | some d => VisibleEnd h attrs path d
      | none => ∀ d, ¬VisibleEnd h attrs path d

/-- **The scopes are those above**, where no DIE has the tag 0. -/
theorem Consistent.mem_scopes (h : Consistent t r) (htags : ∀ y ∈ t, y.tag = 0 → y.offset = 0)
    (hx : x ∈ t) : z ∈ x :: scopes t x ↔ IsScopeOf t x z := by
  have hs := h.wellFormed.sorted
  rw [List.mem_cons]
  refine or_congr_right ⟨fun hz => ?_, ?_⟩
  · obtain ⟨hmem, hnamed⟩ := List.mem_filter.1 hz
    refine ⟨h.below_of_mem_scopes hx hz, fun h0 => ?_, hnamed⟩
    have htag := List.mem_takeWhile_imp hmem
    rw [(h.wellFormed.eq_root_iff (h.below_of_mem_scopes hx hz).mem_left).1 h0] at htag
    exact absurd htag (by decide)
  · rintro ⟨hbelow, h0, hnamed⟩
    refine List.mem_filter.2 ⟨?_, hnamed⟩
    -- Whatever is met before it is below it, and so has a tag.
    obtain ⟨hall, hpairwise⟩ := h.ancestors hx
    obtain ⟨before, after, hsplit⟩ := List.append_of_mem ((hall z).2 hbelow)
    rw [hsplit] at hpairwise hall ⊢
    have hbefore : ∀ u ∈ before, decide (u.tag ≠ 0) = true := by
      intro u hu
      have hzu := (List.pairwise_append.1 hpairwise).2.2 u hu z List.mem_cons_self
      have hut := ((hall u).1 (List.mem_append_left _ hu)).mem_left
      refine decide_eq_true fun htag => ?_
      have := hzu.key_lt hs
      have := htags u hut htag
      omega
    have hz : decide (z.tag ≠ 0) = true := decide_eq_true fun htag =>
      h0 (htags z hbelow.mem_left htag)
    rw [List.takeWhile_append_of_pos hbefore, List.takeWhile_cons, if_pos hz]
    simp

theorem Consistent.pairwise_scopes (h : Consistent t r) (hx : x ∈ t) :
    (x :: scopes t x).Pairwise fun a b => Below Node.depth t b a := by
  refine List.pairwise_cons.2 ⟨fun z hz => h.below_of_mem_scopes hx hz, ?_⟩
  exact ((h.ancestors hx).2.sublist (List.takeWhile_prefix _).sublist).filter _

theorem Surveyed.mem_rootEnds (h : Surveyed t r) {d : ℕ} :
    d ∈ rootEnds h.settled.consistent.wellFormed r.tables path ↔
      VisibleEnd h.settled.consistent.wellFormed r.tables.attrs path d := by
  cases path with
  | nil => simp [rootEnds, VisibleEnd]
  | cons name path =>
    rw [rootEnds, h.mem_visibleEnds]
    constructor
    · rintro ⟨off, hshows, hend⟩
      exact ⟨name, path, off, rfl, hshows, hend⟩
    · rintro ⟨_, _, off, heq, hshows, hend⟩
      obtain ⟨rfl, rfl⟩ := List.cons.inj heq
      exact ⟨off, hshows, hend⟩

/-- The first of the ends is what resolving in scopes is to find. -/
theorem Surveyed.findsInScopes (h : Surveyed t r) (htags : ∀ y ∈ t, y.tag = 0 → y.offset = 0)
    (hx : x ∈ t) : FindsInScopes h.settled.consistent.wellFormed r.tables.attrs path x
      (scopedEnds h.settled.consistent.wellFormed r.tables path (x :: scopes t x)).head? := by
  have hc := h.settled.consistent
  have hscope : ∀ s, s ∈ x :: scopes t x ↔ IsScopeOf t x s := fun s => hc.mem_scopes htags hx
  rw [scopedEnds, List.head?_append, List.head?_filterMap]
  cases hfirst : (x :: scopes t x).findSome? (scopeEnd hc.wellFormed r.tables.attrs path) with
  | some d =>
    rw [Option.some_or]
    obtain ⟨before, s, after, hsplit, hs, hnone⟩ := List.findSome?_eq_some_iff.1 hfirst
    refine .inl ⟨s, (hscope s).1 (by rw [hsplit]; simp), hs, rfl, ?_⟩
    intro s' hs' hsome
    have hmem := (hscope s').2 hs'
    have hpairwise := hc.pairwise_scopes hx
    rw [hsplit] at hmem hpairwise
    rcases List.mem_append.1 hmem with hmem | hmem
    · rw [hnone s' hmem] at hsome
      exact absurd hsome (by decide)
    · rcases List.mem_cons.1 hmem with rfl | hmem
      · exact .inl rfl
      · exact .inr (List.rel_of_pairwise_cons (List.pairwise_append.1 hpairwise).2.1 hmem)
  | none =>
    rw [Option.none_or]
    refine .inr ⟨fun s hs => List.findSome?_eq_none_iff.1 hfirst s ((hscope s).2 hs), ?_⟩
    cases hroot : rootEnds hc.wellFormed r.tables path with
    | nil =>
      intro d hd
      have := h.mem_rootEnds.2 hd
      rw [hroot] at this
      exact absurd this List.not_mem_nil
    | cons d ds => exact h.mem_rootEnds.1 (by rw [hroot]; exact List.mem_cons_self)

/-- `scoped_resolve` answers with the first of the ends. -/
theorem scopedResolve_answers (srk : Srk31 fuel) (h : Surveyed t r) (hfuel : EnoughFuel t fuel)
    (hat : HeldAt t r x it) :
    Surveys t (scopedResolve fuel srk it path) r fun res _ => res.map Iterator.offset =
      (scopedEnds h.settled.consistent.wellFormed r.tables path (x :: scopes t x)).head? := by
  have hdepth := (h.settled.consistent.depth_le_offset hat.mem).trans_lt (hfuel.2 x hat.mem)
  refine (scopedResolveAll_answers srk h hfuel hat (show enough 1 [] = false by decide)
    hdepth).bind ?_
  rintro res r₁ hr₁ - hres
  rw [List.map_nil, List.nil_append, upTo, if_neg Nat.one_ne_zero] at hres
  refine StateReturns.pure hr₁ ?_
  rw [← List.head?_map, hres, List.head?_take, if_neg Nat.one_ne_zero]

/-- **`scoped_resolve` answers with the end of the path from the innermost scope that has one**, or
else from among what is visible outside of its unit, if there is any. -/
theorem scopedResolve_innermost (srk : Srk31 fuel) (h : Surveyed t r) (hfuel : EnoughFuel t fuel)
    (htags : ∀ y ∈ t, y.tag = 0 → y.offset = 0) (hat : HeldAt t r x it) :
    Surveys t (scopedResolve fuel srk it path) r fun res _ =>
      FindsInScopes h.settled.consistent.wellFormed r.tables.attrs path x
        (res.map Iterator.offset) := by
  refine (scopedResolve_answers srk h hfuel hat).mono ?_
  rintro res r₁ - - hres
  rw [hres]
  exact h.findsInScopes htags hat.mem

end Resolve

section Examples

/-- The root of the small file, where the parents of both DIEs are cached and the child of the unit
is named. -/
def knownNamedRoot : Root :=
  { knownRoot with tables := { knownRoot.tables with attrs := namedAttrs } }

theorem surveyed_knownNamedRoot : Surveyed smallTree knownNamedRoot := by
  refine surveyed_of_empty ⟨settled_knownRoot.consistent.withTables _,
    settled_knownRoot.rooted.of_caches rfl rfl rfl⟩ rfl rfl ?_
  intro x hx v hv
  have hnone : (namedAttrs x.offset).find dwAtVisibility = none := by
    unfold namedAttrs
    split_ifs <;> rfl
  rw [show knownNamedRoot.tables.attrs = namedAttrs from rfl, hnone] at hv
  exact absurd hv (by simp)

theorem heldAt_knownNamedRoot :
    HeldAt smallTree knownNamedRoot ⟨20, 2, 0x24, false⟩ ⟨20, some 2, false⟩ :=
  ⟨by decide, ⟨rfl, .inl rfl⟩, .inr rfl⟩

/-- From the child its own name is resolved in the unit. -/
theorem scopedResolve_knownNamedRoot :
    Surveys smallTree (scopedResolve 30 (.described 30) ⟨20, some 2, false⟩ ["a"]) knownNamedRoot
      fun res _ => FindsInScopes wellFormed_smallTree namedAttrs ["a"] ⟨20, 2, 0x24, false⟩
        (res.map Iterator.offset) :=
  scopedResolve_innermost (.described 30) surveyed_knownNamedRoot enoughFuel_smallTree (by decide)
    heldAt_knownNamedRoot

-- It is found in the unit, and once more from the root.
example : ((scopedResolveAll 30 (.described 30) 30 ⟨20, some 2, false⟩ ["a"] [] 0 knownNamedRoot).map
    fun res => res.1.map Iterator.offset) = .ok [20, 20] := rfl

end Examples

end Dies
end Dwarfpp
