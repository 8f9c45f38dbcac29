/-
# Paths of names from the root

`resolve_all_visible_from_root` of `include/dwarfpp/root-inl.hpp`, of a path of any length: from each
DIE below a unit that shows the first name, `resolve_all` goes on with the rest.  The DIEs in the
cache come first, and then, unless the cache is complete, those that a sweep finds beside them.

What is in the cache shows the name it is under, and has its parent cached; all that shows a name is
there once the cache is complete (`CacheTrue`).  A search leaves it so, whatever it asks about
twice.  The answer is the ends of the path, up to the limit (`resolveVisible_answers`).
-/

import Dwarfpp.Dies.Resolve
import Dwarfpp.Dies.VisibleNameRuns

namespace Dwarfpp
namespace Dies

open Lib
open Lib.Preorder hiding firstChild nextSibling

section Model

variable (fuel : ℕ)

/-- The loop over what is in the cache, and whether that is enough. -/
def resolveVisibleCached (path : List String) (max : ℕ) :
    List ℕ → List Iterator → RootM (List Iterator × Bool)
  | [], results => return (results, false)
  | off :: offs, results => do
    let i ← pos off (some 2) none none
    let results ← resolveAll fuel i path results max
    if enough max results then return (results, true)
    else resolveVisibleCached path max offs results

variable (srk : Srk31 fuel)

/-- The loop over `visible_named_grandchildren()`.  A DIE that was hit in the cache is skipped. -/
def resolveVisibleSwept (name : String) (path : List String) (hitInCache : List ℕ) (max : ℕ) :
    ℕ → List Iterator → List Iterator → RootM (List Iterator)
  | 0, _, _ => throw .outOfSteps
  | _ + 1, [], results => return results
  | n + 1, it :: queue, results => do
    let r ← get
    let found := nameOf r.tables.attrs it.offset = some name ∧ it.offset ∉ hitInCache
    let results ← if found then resolveAll fuel it path results max else pure results
    if found ∧ enough max results then return results
    else
      let next ← srk.increment (it :: queue)
      let next ← srk.select (isVisibleAndNamed fuel srk) fuel next
      resolveVisibleSwept name path hitInCache max n next results

/-- `resolve_all_visible_from_root`, which adds to `results`. -/
def resolveVisible (path : List String) (results : List Iterator) (max : ℕ) :
    RootM (List Iterator) :=
  match path with
  | [] => return results
  | name :: path => do
    let r ← get
    let hitInCache := r.tables.cached name
    let (results, done) ← resolveVisibleCached fuel path max hitInCache results
    if done then return results
    else
      let r ← get
      if r.tables.visibleNamedGrandchildrenIsComplete then return results
      else
        let start ← grandchildren fuel
        let start ← srk.select (isVisibleAndNamed fuel srk) fuel start
        resolveVisibleSwept fuel srk name path hitInCache max fuel start results

/-- On a path of one name it is the search for that name. -/
theorem resolveVisible_singleton (name : String) (max : ℕ) :
    resolveVisible fuel srk [name] [] max = resolveAllVisibleFromRoot fuel srk name max := by
  have hcached : ∀ (offs : List ℕ) (results : List Iterator), enough max results = false →
      resolveVisibleCached fuel [] max offs results = do
        let results ← resolveCached max offs results
        return (results, enough max results) := by
    intro offs
    induction offs with
    | nil =>
      intro results hnot
      rw [resolveVisibleCached, resolveCached, pure_bind, hnot]
    | cons off offs ih =>
      intro results _
      rw [resolveVisibleCached, resolveCached, bind_assoc]
      refine congrArg _ (funext fun i => ?_)
      rw [resolveAll, pure_bind]
      cases henough : enough max (results ++ [i]) with
      | true => rw [if_pos rfl, if_pos rfl, pure_bind, henough]
      | false => rw [if_neg (by decide), if_neg (by decide), ih _ henough]
  have hswept : ∀ (hits : List ℕ) (n : ℕ) (its results : List Iterator),
      resolveVisibleSwept fuel srk name [] hits max n its results =
        resolveSwept fuel srk name hits max n its results := by
    intro hits n
    induction n with
    | zero => exact fun _ _ => rfl
    | succ n ih =>
      intro its results
      cases its with
      | nil => rfl
      | cons it queue =>
        rw [resolveVisibleSwept, resolveSwept]
        refine congrArg _ (funext fun r => ?_)
        dsimp only
        by_cases hfound : nameOf r.tables.attrs it.offset = some name ∧ it.offset ∉ hits
        · simp only [if_pos hfound, resolveAll, pure_bind, ih]
        · simp only [if_neg hfound, pure_bind, ih]
  have hnot : enough max [] = false := by
    rw [← Bool.not_eq_true, enough_iff, List.length_nil]
    omega
  rw [resolveVisible, resolveAllVisibleFromRoot]
  refine congrArg _ (funext fun r => ?_)
  dsimp only
  rw [hcached _ _ hnot, bind_assoc]
  refine congrArg _ (funext fun results => ?_)
  rw [pure_bind]
  dsimp only
  refine congrArg _ ?_
  rw [resolveUncached]
  simp only [hswept]

end Model

variable {t : List Node} {r r' : Root} {fuel : ℕ} {srk : Srk31 fuel} {x : Node} {l : List Node}
  {q f : List (List Node)} {it : Iterator} {queue its : List Iterator} {max : ℕ}

section Looks

/-- From `r` the computation returns, and leaves the root settled; it may change the tables. -/
abbrev Looks (t : List Node) {α : Type} (x : RootM α) (r : Root) (post : α → Root → Prop) : Prop :=
  StateReturns (Settled t) Kept x r post

theorem Kept.parentsKept (h : Kept r r') : ParentsKept r r' := ⟨h.dbg, h.parents⟩

theorem ParentsKept.kept (h : ParentsKept r r') : Kept r r' := ⟨h.dbg, h.parents⟩

theorem looks {α : Type} {m : RootM α} {p s : α → Root → Prop} (h : Searches t m r p)
    (h' : StaysRooted m r s) : Looks t m r p := by
  obtain ⟨a, r', hrun, hr', hkept, hp⟩ := h
  exact ⟨a, r', hrun, ⟨hr', (h'.of_eq_ok hrun).1⟩, hkept, hp⟩

theorem looks_of_arrives {α : Type} {m : RootM α} {p : α → Root → Prop} (h : Arrives t m r p) :
    Looks t m r fun a r' => p a r' ∧ r'.tables = r.tables := by
  obtain ⟨a, r', hrun, hr', hmoved, hp⟩ := h
  exact ⟨a, r', hrun, hr', hmoved.kept.kept, hp, hmoved.tables⟩

/-- Going on from a settled root. -/
theorem StaysRooted.bind_looks {α β : Type} {m : RootM α} {g : α → RootM β}
    {p : α → Root → Prop} {s : β → Root → Prop} (h : Looks t m r p)
    (hg : ∀ a r', Settled t r' → Kept r r' → p a r' → StaysRooted (g a) r' s) :
    StaysRooted (m >>= g) r s := by
  obtain ⟨a, r', hrun, hr', hkept, hp⟩ := h
  refine StateReturnsUnless.bind (p := fun a₁ r₁ => a₁ = a ∧ r₁ = r')
    (.inl ⟨a, r', hrun, hr'.rooted, hkept.parentsKept, rfl, rfl⟩) ?_
  rintro a₁ r₁ - - ⟨rfl, rfl⟩
  exact hg a₁ r₁ hr' hkept hp

end Looks

section Sweep

theorem AtFrontier.depth_isSome (h : AtFrontier t r (it :: queue) f) : it.depth.isSome = true := by
  cases h.placed with
  | cons hit _ =>
    obtain ⟨x, l, -, -, hd⟩ := hit
    rw [hd]
    rfl

theorem increment_rooted (h : Rooted r) (hd : it.depth.isSome = true) :
    StaysRooted (srk.increment (it :: queue)) r fun _ _ => True := by
  rw [srk.increment_cons]
  refine (moveToNextSibling_rooted leavesKnown_withDepth h hd).bind ?_
  rintro res r₁ hr₁ - -
  cases res with
  | none => exact StateReturnsUnless.pure hr₁ trivial
  | some sibling => exact StateReturnsUnless.pure hr₁ trivial

theorem increment_looks (h : Settled t r) (hat : AtFrontier t r (it :: queue) ((x :: l) :: q)) :
    Looks t (srk.increment (it :: queue)) r fun its r' =>
      AtFrontier t r' its (skip Node.depth (x :: l) q) ∧ r'.tables = r.tables :=
  looks (searches_of_reaches (increment_reaches srk h.consistent hat))
    (increment_rooted h.rooted hat.depth_isSome)

theorem isVisibleAndNamed_rooted (h : Settled t r)
    (hconstant : ConstantVisibility t r.tables.attrs)
    (hat : AtFrontier t r (it :: queue) ((x :: l) :: q)) :
    StaysRooted (isVisibleAndNamed fuel srk (it :: queue)) r fun _ _ => True := by
  obtain ⟨hit, -⟩ := List.forall₂_cons.1 hat.placed
  obtain ⟨x', l', heq, hoff, -⟩ := hit
  obtain ⟨rfl, rfl⟩ := List.cons.inj heq
  have hx := mem_of_suffix (hat.places _ List.mem_cons_self).2
  refine StateReturnsUnless.bind (p := fun _ r₁ => r₁ = r)
    (.inl ⟨_, r, globalNameHere_eq (hoff ▸ hconstant x hx), h.rooted, Std.Refl.refl r, rfl⟩) ?_
  rintro name r₁ hr₁ - -
  have henter : StaysRooted (enterUnder name it.offset) r₁ fun _ _ => True := by
    cases name with
    | none => exact StateReturnsUnless.pure hr₁ trivial
    | some name =>
      exact (StateReturns.modify (hr₁.of_caches rfl rfl rfl) ⟨rfl, fun _ hc => hc⟩ trivial).unless
  refine henter.bind ?_
  rintro - r₂ hr₂ - -
  refine (increment_rooted hr₂ hat.depth_isSome).bind ?_
  rintro next r₃ hr₃ - -
  refine StateReturnsUnless.bind (p := fun _ _ => True) ?_ ?_
  · unfold markIfDone
    split_ifs
    · exact (StateReturns.modify (hr₃.of_caches rfl rfl rfl) ⟨rfl, fun _ hc => hc⟩ trivial).unless
    · exact StateReturnsUnless.pure hr₃ trivial
  · rintro - r₄ hr₄ - -
    exact StateReturnsUnless.pure hr₄ trivial

theorem select_rooted (h : Settled t r) (hconstant : ConstantVisibility t r.tables.attrs)
    (hat : AtFrontier t r its f) {n : ℕ} (hn : (visitedOffsets f).length < n) :
    StaysRooted (srk.select (isVisibleAndNamed fuel srk) n its) r fun _ _ => True := by
  induction n generalizing r its f with
  | zero => omega
  | succ n ih =>
    cases hplaced : hat.placed with
    | nil =>
      rw [srk.select_nil]
      exact StateReturnsUnless.pure h.rooted trivial
    | @cons it s queue q hit hq =>
      obtain ⟨x, l, rfl, -⟩ := id hit
      rw [visitedOffsets_skip, List.length_cons] at hn
      rw [srk.select_cons]
      refine StaysRooted.bind_looks (looks (isVisibleAndNamed_searches h.consistent hconstant hat)
        (isVisibleAndNamed_rooted h hconstant hat)) ?_
      rintro visible r₁ hr₁ hkept₁ ⟨-, htables₁⟩
      have hattrs₁ : r₁.tables.attrs = r.tables.attrs := by
        rw [htables₁]
        rfl
      split_ifs
      · exact StateReturnsUnless.pure hr₁.rooted trivial
      · refine StaysRooted.bind_looks (increment_looks hr₁ (hat.kept hkept₁)) ?_
        rintro next r₂ hr₂ - ⟨hnext, htables₂⟩
        exact ih hr₂ (by rwa [htables₂, hattrs₁]) hnext (by omega)

theorem grandchildrenFrom_rooted (h : Rooted r) {res : Option Iterator} (hres : Leads (some 1) r res)
    {n : ℕ} : StaysRooted (grandchildrenFrom fuel n res) r fun _ _ => True := by
  induction n generalizing r res with
  | zero => exact staysRooted_error rfl
  | succ n ih =>
    cases res with
    | none => exact StateReturnsUnless.pure h trivial
    | some cu =>
      obtain ⟨hk, hd⟩ := hres cu rfl
      refine (firstChild_rooted h hk).bind ?_
      rintro first r₁ hr₁ - -
      refine (strides_nextUnit r₁ cu hr₁ (by rw [hd]; rfl)).bind ?_
      rintro next r₂ hr₂ - hnext
      rw [hd] at hnext
      refine (ih hr₂ hnext).bind ?_
      rintro rest r₃ hr₃ - -
      exact StateReturnsUnless.pure hr₃ trivial

theorem grandchildren_rooted (h : Rooted r) :
    StaysRooted (grandchildren fuel) r fun _ _ => True := by
  refine (firstChild_rooted h (.inl rfl)).bind ?_
  rintro child r₁ hr₁ - hchild
  refine (skipToUnit_rooted hr₁ rfl hchild).bind ?_
  rintro unit r₂ hr₂ - hunit
  exact grandchildrenFrom_rooted hr₂ hunit

end Sweep

section Limit

/-- As many as the limit allows; 0 is no limit. -/
def upTo (max : ℕ) (l : List ℕ) : List ℕ := if max = 0 then l else l.take max

theorem upTo_append {l : List ℕ} (h : max = l.length) (hne : max ≠ 0) (rest : List ℕ) :
    upTo max (l ++ rest) = l := by
  rw [upTo, if_neg hne, List.take_append_of_le_length h.le, h, List.take_length]

theorem upTo_of_not_enough {results : List Iterator} (h : enough max results = false) :
    upTo max (results.map Iterator.offset) = results.map Iterator.offset := by
  rw [← Bool.not_eq_true, enough_iff] at h
  rw [upTo]
  split_ifs with h0
  · rfl
  · exact List.take_of_length_le (by rw [List.length_map]; omega)

/-- What was not enough, and is with one more, is as much as the limit. -/
theorem max_of_enough {results : List Iterator} {found : Option Iterator}
    (h : enough max results = false) (h' : enough max (results ++ found.toList) = true) :
    max ≠ 0 ∧ max = ((results ++ found.toList).map Iterator.offset).length := by
  rw [← Bool.not_eq_true, enough_iff] at h
  rw [enough_iff] at h'
  have hone : found.toList.length ≤ 1 := by cases found <;> simp
  rw [List.length_map]
  rw [List.length_append] at h' ⊢
  omega

end Limit

section Ends

variable {attrs : ℕ → AttributeMap} {path : List String} {name : String}

/-- The end of the path from the DIE at an offset. -/
def endFrom (h : WellFormed t) (attrs : ℕ → AttributeMap) (path : List String) (off : ℕ) :
    Option ℕ :=
  ((naiveFind t off).bind fun x => (namedTree h attrs).firstMatch x path).map Node.offset

theorem endFrom_offset (h : WellFormed t) (hx : x ∈ t) :
    endFrom h attrs path x.offset =
      ((namedTree h attrs).firstMatch x path).map Node.offset := by
  rw [endFrom, naiveFind_offset h.sorted hx]
  rfl

/-- What a loop has gathered: all of it, or as much as the limit allows. -/
def Gathered (max : ℕ) (all : List ℕ) (res : List Iterator × Bool) : Prop :=
  match res.2 with
  | true => ∀ rest, upTo max (all ++ rest) = res.1.map Iterator.offset
  | false => enough max res.1 = false ∧ res.1.map Iterator.offset = all

/-- An iterator for a DIE below a unit. -/
theorem posGrandchild_arrives (h : Settled t r) {off : ℕ} (hoff : off ∈ grandchildOffsets t)
    (hk : Known r off) :
    Arrives t (pos off (some 2) none none) r fun i r' =>
      ∃ x ∈ t, x.offset = off ∧ FoundAt t r' x i := by
  obtain ⟨x, hx, hd, rfl⟩ := mem_grandchildOffsets.1 hoff
  have h0 : x.offset ≠ 0 := fun h0 => by
    have := (h.consistent.wellFormed.depth_eq_zero_iff hx).2 h0
    omega
  refine (arrives (pos_reaches h.consistent hx ?_ (by simp) (fun hz => absurd hz h0)
    fun _ => h.consistent.exists_parent hx h0) (pos_rooted h.rooted (by simp)
      fun _ hlive lib hdbg => h.known_unit hx hd hk hlive lib hdbg)).mono ?_
  · rintro d ⟨⟩
    exact hd.symm
  · rintro i r' - hmoved ⟨⟨hi, hdi, -⟩, -⟩
    refine ⟨x, hx, rfl, hx, hi, ?_, hk.mono hmoved.kept⟩
    rw [hd]
    exact hdi.imp_right fun hn => ⟨hn.1, .inl hn.2⟩

variable (hfuel : EnoughFuel t fuel)
include hfuel

/-- **From what is in the cache** the rest of the path is gone. -/
theorem resolveVisibleCached_arrives (h : Settled t r) (hattrs : r.tables.attrs = attrs)
    {offs : List ℕ} (hoffs : ∀ off ∈ offs, off ∈ grandchildOffsets t ∧ Known r off)
    {results : List Iterator} (hnot : enough max results = false) :
    Arrives t (resolveVisibleCached fuel path max offs results) r fun res _ =>
      Gathered max (results.map Iterator.offset ++
        offs.filterMap (endFrom h.consistent.wellFormed attrs path)) res := by
  induction offs generalizing r results with
  | nil =>
    rw [List.filterMap_nil, List.append_nil]
    exact StateReturns.pure h ⟨hnot, rfl⟩
  | cons off offs ih =>
    obtain ⟨hoff, hk⟩ := hoffs off List.mem_cons_self
    refine (posGrandchild_arrives h hoff hk).bind ?_
    rintro i r₁ hr₁ hmoved₁ ⟨x, hx, rfl, hi⟩
    refine (resolveAll_arrives hfuel hr₁ (by rw [hmoved₁.tables, hattrs]) hi results max).bind ?_
    rintro results' r₂ hr₂ hmoved₂ ⟨found, rfl, hfound⟩
    have hends : results.map Iterator.offset ++ (x.offset :: offs).filterMap
        (endFrom h.consistent.wellFormed attrs path) =
        (results ++ found.toList).map Iterator.offset ++
          offs.filterMap (endFrom h.consistent.wellFormed attrs path) := by
      rw [List.filterMap_cons, endFrom_offset h.consistent.wellFormed hx, ← hfound]
      cases found <;> simp
    rw [hends]
    cases henough : enough max (results ++ found.toList) with
    | true =>
      obtain ⟨hne, hmax⟩ := max_of_enough hnot henough
      rw [if_pos rfl]
      refine StateReturns.pure hr₂ fun rest => ?_
      rw [List.append_assoc]
      exact upTo_append hmax hne _
    | false =>
      rw [if_neg (by decide)]
      refine ih hr₂ (by rw [hmoved₂.tables, hmoved₁.tables, hattrs]) (fun o ho => ?_) henough
      obtain ⟨ho', hko⟩ := hoffs o (List.mem_cons_of_mem _ ho)
      exact ⟨ho', (hko.mono hmoved₁.kept).mono hmoved₂.kept⟩

/-- What a sweep leaves: it has asked about the first of what it was to visit, and whatever it
entered has its parent cached. -/
structure Swept (f : List (List Node)) (r r' : Root) : Prop where
  asked : ∃ offs rest, visitedOffsets f = offs ++ rest ∧ r'.tables = r.tables.tested offs rest ∧
    ∀ o ∈ offs, (visibleName r.tables.attrs o).isSome = true → Known r' o

/-- **The sweep** goes on from each DIE that shows the name and was not in the cache. -/
theorem resolveVisibleSwept_looks (srk : Srk31 fuel) (hits : List ℕ) (h : Settled t r)
    (hattrs : r.tables.attrs = attrs) (hconstant : ConstantVisibility t attrs)
    (hat : AtFrontier t r its f) {results : List Iterator} (hnot : enough max results = false)
    {n : ℕ} (hn : (visitedOffsets f).length < n) (hlength : (visitedOffsets f).length < fuel) :
    Looks t (srk.select (isVisibleAndNamed fuel srk) fuel its >>= fun start =>
        resolveVisibleSwept fuel srk name path hits max n start results) r fun res r' =>
      Swept f r r' ∧ res.map Iterator.offset = upTo max (results.map Iterator.offset ++
        ((visitedOffsets f).filter (answers attrs name hits)).filterMap
          (endFrom h.consistent.wellFormed attrs path)) := by
  induction n generalizing r its f results with
  | zero => omega
  | succ n ih =>
    refine (looks (select_searches h.consistent (hattrs ▸ hconstant) hat hlength)
      (select_rooted h (hattrs ▸ hconstant) hat hlength)).bind ?_
    rintro its' r₁ hr₁ - ⟨us, f', hat', hsplit, hnone, hend⟩
    rw [hattrs] at hnone hend
    have hfiltered : us.filter (answers attrs name hits) = [] :=
      List.filter_eq_nil_iff.2 fun u hu => by simp [answers_eq_false (hnone u hu)]
    rcases hend with ⟨rfl, htables₁⟩ | ⟨g, gs, hg, hvisible, htables₁⟩
    · -- Nothing is left that shows a name.
      obtain rfl := List.forall₂_nil_right_iff.1 hat'.placed
      rw [show visitedOffsets [] = [] from rfl, List.append_nil] at hsplit
      refine StateReturns.pure hr₁ ⟨⟨us, [], by rw [hsplit, List.append_nil], htables₁, ?_⟩, ?_⟩
      · intro o ho hsome
        rw [hattrs, hnone o ho] at hsome
        exact absurd hsome (by decide)
      · rw [hsplit, hfiltered, List.filterMap_nil, List.append_nil, upTo_of_not_enough hnot]
    · have hattrs₁ : r₁.tables.attrs = attrs := by
        rw [htables₁]
        exact hattrs
      cases hplaced : hat'.placed with
      | nil => exact absurd hg (by simp [visitedOffsets, visited])
      | @cons it s queue q hit hq =>
      obtain ⟨x, l, rfl, hoff, hd⟩ := id hit
      have hx := mem_of_suffix (hat'.places _ List.mem_cons_self).2
      have hg' := hg
      rw [visitedOffsets_skip] at hg'
      obtain ⟨rfl, hgs⟩ := List.cons.inj hg'
      have hkx : Known r₁ x.offset := or_iff_not_imp_left.2
        (hat'.known _ List.mem_cons_self x rfl)
      have hfound : FoundAt t r₁ x it := ⟨hx, hoff, .inl hd, hkx⟩
      have hentered : ∀ {r₂}, Kept r₁ r₂ → ∀ o ∈ us ++ [x.offset],
          (visibleName attrs o).isSome = true → Known r₂ o := by
        intro r₂ hkept o ho hsome
        rcases List.mem_append.1 ho with ho | ho
        · rw [hnone o ho] at hsome
          exact absurd hsome (by decide)
        · rw [List.mem_singleton.1 ho]
          exact hkx.mono hkept.parentsKept
      have hends : ((visitedOffsets f).filter (answers attrs name hits)).filterMap
          (endFrom h.consistent.wellFormed attrs path) =
          ([x.offset].filter (answers attrs name hits)).filterMap
            (endFrom h.consistent.wellFormed attrs path) ++
          (gs.filter (answers attrs name hits)).filterMap
            (endFrom h.consistent.wellFormed attrs path) := by
        rw [hsplit, hg, List.filter_append, hfiltered, List.nil_append,
          ← List.singleton_append (x := x.offset), List.filter_append, List.filterMap_append]
      rw [hends, resolveVisibleSwept]
      refine StateReturns.get_bind ?_
      rw [hattrs₁, hoff]
      dsimp only
      -- Where the loop goes on behind the DIE, it adds what it finds there.
      have hgo : ∀ {r₂} (results' : List Iterator), Settled t r₂ → Kept r₁ r₂ →
          r₂.tables = r₁.tables → enough max results' = false →
          results'.map Iterator.offset = results.map Iterator.offset ++
            ([x.offset].filter (answers attrs name hits)).filterMap
              (endFrom h.consistent.wellFormed attrs path) →
          Looks t (srk.increment (it :: queue) >>= fun next =>
            srk.select (isVisibleAndNamed fuel srk) fuel next >>= fun start =>
              resolveVisibleSwept fuel srk name path hits max n start results') r₂ fun res r' =>
            Swept f r r' ∧ res.map Iterator.offset = upTo max (results.map Iterator.offset ++
              (([x.offset].filter (answers attrs name hits)).filterMap
                (endFrom h.consistent.wellFormed attrs path) ++
              (gs.filter (answers attrs name hits)).filterMap
                (endFrom h.consistent.wellFormed attrs path))) := by
        intro r₂ results' hr₂ hkept₂ htables₂ hnot' hresults
        refine (increment_looks hr₂ (hat'.kept hkept₂)).bind ?_
        rintro next r₃ hr₃ hkept₃ ⟨hnext, htables₃⟩
        rw [hsplit, hg, List.length_append, List.length_cons] at hn hlength
        refine (ih hr₃ (by rw [htables₃, htables₂, hattrs₁]) hnext hnot' (by rw [hgs]; omega)
          (by rw [hgs]; omega)).mono ?_
        rintro res r₄ - hkept₄ ⟨⟨offs, rest, hoffs, htables₄, hknown⟩, hres⟩
        rw [htables₃, htables₂] at hknown htables₄
        rw [hgs] at hoffs hres
        refine ⟨⟨us ++ x.offset :: offs, rest, ?_, ?_, ?_⟩, ?_⟩
        · rw [hsplit, hg, hoffs, List.append_assoc, List.cons_append]
        · rw [htables₄, htables₁, hoffs, tested_append]
          simp
        · intro o ho hsome
          rw [hattrs] at hsome
          rw [← List.singleton_append, ← List.append_assoc] at ho
          rcases List.mem_append.1 ho with ho | ho
          · exact hentered (IsTrans.trans _ _ _ hkept₂ (IsTrans.trans _ _ _ hkept₃ hkept₄)) o ho
              hsome
          · exact hknown o ho (by rwa [hattrs₁])
        · rw [hres, hresults, List.append_assoc]
      by_cases hmatches : nameOf attrs x.offset = some name ∧ x.offset ∉ hits
      · have hyes := (answers_iff hvisible).1 hmatches
        simp only [if_pos hmatches]
        refine (looks_of_arrives (resolveAll_arrives hfuel hr₁ hattrs₁ hfound results max)).bind ?_
        rintro results' r₂ hr₂ hkept₂ ⟨⟨found, rfl, hfirst⟩, htables₂⟩
        have hsame : (results ++ found.toList).map Iterator.offset =
            results.map Iterator.offset ++ ([x.offset].filter (answers attrs name hits)).filterMap
              (endFrom h.consistent.wellFormed attrs path) := by
          rw [List.filter_cons_of_pos hyes, List.filter_nil, List.filterMap_cons,
            endFrom_offset h.consistent.wellFormed hx, ← hfirst]
          cases found <;> simp
        cases henough : enough max (results ++ found.toList) with
        | true =>
          rw [if_pos ⟨hmatches, rfl⟩]
          refine StateReturns.pure hr₂ ⟨⟨us ++ [x.offset], gs, ?_, ?_, ?_⟩, ?_⟩
          · rw [hsplit, hg]
            simp
          · rw [htables₂, htables₁]
          · intro o ho hsome
            exact hentered hkept₂ o ho (hattrs ▸ hsome)
          · obtain ⟨hne, hmax⟩ := max_of_enough hnot henough
            rw [← List.append_assoc, ← hsame]
            exact (upTo_append hmax hne _).symm
        | false =>
          rw [if_neg fun hno => absurd hno.2 (by decide)]
          exact hgo _ hr₂ hkept₂ htables₂ henough hsame
      · have hno : answers attrs name hits x.offset = false := by
          rw [← Bool.not_eq_true, ← answers_iff hvisible]
          exact hmatches
        simp only [if_neg hmatches, pure_bind]
        rw [if_neg fun hyes => hmatches hyes.1]
        refine hgo results hr₁ (Std.Refl.refl r₁) rfl hnot ?_
        rw [List.filter_cons_of_neg (by simp [hno])]
        simp

end Ends

section Answers

variable {name : String} {path : List String}

/-- What is in the cache shows the name it is under, and has its parent cached; once the cache is
complete, all that shows a name is there. -/
structure CacheTrue (t : List Node) (r : Root) : Prop where
  sound : ∀ name off, (name, off) ∈ r.tables.visibleNamedGrandchildrenCache →
    Shows t r.tables.attrs name off ∧ Known r off
  complete : r.tables.visibleNamedGrandchildrenIsComplete = true → ∀ name off,
    Shows t r.tables.attrs name off → (name, off) ∈ r.tables.visibleNamedGrandchildrenCache

/-- **What a root must be for names to be resolved.** -/
structure Surveyed (t : List Node) (r : Root) : Prop where
  settled : Settled t r
  cache : CacheTrue t r
  visibility : ConstantVisibility t r.tables.attrs

/-- Being asked about names, a root forgets no parent and leaves all attributes. -/
structure Asked (r r' : Root) : Prop where
  kept : ParentsKept r r'
  attrs : r'.tables.attrs = r.tables.attrs

instance : Std.Refl Asked := ⟨fun r => ⟨Std.Refl.refl r, rfl⟩⟩

instance : IsTrans Root Asked :=
  ⟨fun _ _ _ h h' => ⟨IsTrans.trans _ _ _ h.kept h'.kept, h'.attrs.trans h.attrs⟩⟩

/-- From `r` the computation returns, and leaves a root where names can be resolved. -/
abbrev Surveys (t : List Node) {α : Type} (x : RootM α) (r : Root) (post : α → Root → Prop) : Prop :=
  StateReturns (Surveyed t) Asked x r post

/-- A root that is made has nothing in the cache. -/
theorem surveyed_of_empty (h : Settled t r)
    (hcache : r.tables.visibleNamedGrandchildrenCache = [])
    (hincomplete : r.tables.visibleNamedGrandchildrenIsComplete = false)
    (hvisibility : ConstantVisibility t r.tables.attrs) : Surveyed t r := by
  refine ⟨h, ⟨fun name off hin => ?_, fun hcomplete => ?_⟩, hvisibility⟩
  · rw [hcache] at hin
    exact absurd hin List.not_mem_nil
  · rw [hincomplete] at hcomplete
    exact absurd hcomplete (by decide)

/-- Moving about leaves the cache as it is. -/
theorem surveys_of_arrives {α : Type} {m : RootM α} {p : α → Root → Prop} (h : Surveyed t r)
    (hm : Arrives t m r p) : Surveys t m r fun a r' => p a r' ∧ r'.tables = r.tables := by
  obtain ⟨a, r', hrun, hr', hmoved, hp⟩ := hm
  refine ⟨a, r', hrun, ⟨hr', ⟨fun name off hin => ?_, fun hcomplete name off hshows => ?_⟩, ?_⟩,
    ⟨hmoved.kept, by rw [hmoved.tables]⟩, hp, hmoved.tables⟩
  · rw [hmoved.tables] at hin ⊢
    obtain ⟨hshows, hk⟩ := h.cache.sound name off hin
    exact ⟨hshows, hk.mono hmoved.kept⟩
  · rw [hmoved.tables] at hcomplete hshows ⊢
    exact h.cache.complete hcomplete name off hshows
  · rw [hmoved.tables]
    exact h.visibility

/-- **A sweep leaves the cache true**, whatever it has asked about twice. -/
theorem CacheTrue.swept (h : CacheTrue t r) (hkept : ParentsKept r r') (hswept : Swept f r r')
    (hf : visitedOffsets f = grandchildOffsets t) : CacheTrue t r' := by
  obtain ⟨offs, rest, hoffs, htables, hknown⟩ := hswept
  have hattrs : r'.tables.attrs = r.tables.attrs := by
    rw [htables]
    rfl
  have hentered : ∀ name off, (name, off) ∈ r'.tables.visibleNamedGrandchildrenCache ↔
      (name, off) ∈ r.tables.visibleNamedGrandchildrenCache ∨
        off ∈ offs ∧ visibleName r.tables.attrs off = some name := by
    intro name off
    rw [htables, Tables.tested, List.mem_append]
    refine or_congr_right ?_
    simp only [List.mem_filterMap, Option.map_eq_some_iff, Prod.mk.injEq]
    constructor
    · rintro ⟨o, ho, n, hn, rfl, rfl⟩
      exact ⟨ho, hn⟩
    · rintro ⟨ho, hn⟩
      exact ⟨off, ho, name, hn, rfl, rfl⟩
  constructor
  · intro name off hin
    rw [hattrs]
    rcases (hentered name off).1 hin with hin | ⟨ho, hname⟩
    · obtain ⟨hshows, hk⟩ := h.sound name off hin
      exact ⟨hshows, hk.mono hkept⟩
    · have hmem : off ∈ grandchildOffsets t := by
        rw [← hf, hoffs]
        exact List.mem_append_left _ ho
      exact ⟨⟨hmem, hname⟩, hknown off ho (by rw [hname]; rfl)⟩
  · intro hcomplete name off hshows
    rw [hattrs] at hshows
    rw [hentered]
    rw [htables] at hcomplete
    rcases Bool.or_eq_true_iff.1 hcomplete with hc | hc
    · exact .inl (h.complete hc name off hshows)
    · -- Nothing is left to ask about.
      obtain ⟨-, hempty⟩ := Bool.and_eq_true_iff.1 hc
      rw [List.isEmpty_iff.1 hempty, List.append_nil] at hoffs
      exact .inr ⟨by rw [← hoffs, hf]; exact hshows.1, hshows.2⟩

/-- The ends of the path from the DIEs that show its first name: first those in the cache, then those
that are not. -/
def visibleEnds (h : WellFormed t) (tables : Tables) (name : String) (path : List String) :
    List ℕ :=
  (tables.cached name ++ if tables.visibleNamedGrandchildrenIsComplete then []
    else (grandchildOffsets t).filter (answers tables.attrs name (tables.cached name))).filterMap
      (endFrom h tables.attrs path)

/-- **The ends are those from all DIEs that show the name.** -/
theorem Surveyed.mem_visibleEnds (h : Surveyed t r) {d : ℕ} :
    d ∈ visibleEnds h.settled.consistent.wellFormed r.tables name path ↔
      ∃ off, Shows t r.tables.attrs name off ∧
        endFrom h.settled.consistent.wellFormed r.tables.attrs path off = some d := by
  rw [visibleEnds, List.mem_filterMap]
  refine exists_congr fun off => and_congr_left fun _ => ?_
  rw [List.mem_append, mem_cached]
  constructor
  · rintro (hin | hin)
    · exact (h.cache.sound name off hin).1
    · split_ifs at hin
      · exact absurd hin List.not_mem_nil
      · obtain ⟨hmem, hanswers⟩ := List.mem_filter.1 hin
        exact ⟨hmem, (of_decide_eq_true hanswers).1⟩
  · intro hshows
    by_cases hin : (name, off) ∈ r.tables.visibleNamedGrandchildrenCache
    · exact .inl hin
    · right
      rw [if_neg fun hcomplete => hin (h.cache.complete hcomplete name off hshows)]
      exact List.mem_filter.2 ⟨hshows.1, decide_eq_true ⟨hshows.2, fun hc => hin (mem_cached.1 hc)⟩⟩

/-- **`resolve_all_visible_from_root` adds the ends of the path**, as many as the limit allows. -/
theorem resolveVisible_answers (srk : Srk31 fuel) (h : Surveyed t r) (hfuel : EnoughFuel t fuel)
    {results : List Iterator} (hnot : enough max results = false) :
    Surveys t (resolveVisible fuel srk (name :: path) results max) r fun res _ =>
      res.map Iterator.offset = upTo max (results.map Iterator.offset ++
        visibleEnds h.settled.consistent.wellFormed r.tables name path) := by
  have hcached : ∀ off ∈ r.tables.cached name, off ∈ grandchildOffsets t ∧ Known r off := by
    intro off hoff
    obtain ⟨hshows, hk⟩ := h.cache.sound name off (mem_cached.1 hoff)
    exact ⟨hshows.1, hk⟩
  refine StateReturns.get_bind ?_
  dsimp only
  refine (surveys_of_arrives h (resolveVisibleCached_arrives hfuel h.settled rfl hcached
    hnot)).bind ?_
  rintro ⟨results', done⟩ r₁ hr₁ - ⟨hgathered, htables₁⟩
  rw [visibleEnds, List.filterMap_append, ← List.append_assoc]
  cases done with
  | true => exact StateReturns.pure hr₁ (hgathered _).symm
  | false =>
    obtain ⟨hnot', hresults⟩ := hgathered
    dsimp only at hnot' hresults ⊢
    rw [if_neg Bool.false_ne_true, ← hresults]
    refine StateReturns.get_bind ?_
    rw [htables₁]
    cases hcomplete : r.tables.visibleNamedGrandchildrenIsComplete with
    | true =>
      rw [if_pos rfl, if_pos rfl, List.filterMap_nil, List.append_nil, upTo_of_not_enough hnot']
      exact StateReturns.pure hr₁ rfl
    | false =>
      rw [if_neg (by decide), if_neg (by decide)]
      obtain ⟨start, r₂, hrun₂, hr₂, hkept₂, ⟨f, hat, hvisited⟩, htables₂⟩ :=
        looks (searches_of_reaches (grandchildren_reaches hr₁.settled.consistent hfuel))
          (grandchildren_rooted hr₁.settled.rooted)
      have hoffsets : visitedOffsets f = grandchildOffsets t :=
        congrArg (List.map Node.offset) hvisited
      have hlength : (visitedOffsets f).length < fuel := by
        rw [hoffsets, grandchildOffsets, List.length_map]
        exact (List.length_filter_le _ _).trans_lt hfuel.1
      rw [htables₁] at htables₂
      have hattrs₂ : r₂.tables.attrs = r.tables.attrs := by rw [htables₂]
      have hsweep : Looks t (srk.select (isVisibleAndNamed fuel srk) fuel start >>= fun start =>
          resolveVisibleSwept fuel srk name path (r.tables.cached name) max fuel start results') r₂
          _ := resolveVisibleSwept_looks hfuel srk (r.tables.cached name) hr₂ hattrs₂ h.visibility
            hat hnot' hlength hlength
      obtain ⟨res, r₃, hrun₃, hr₃, hkept₃, hswept, hres⟩ := hsweep
      have hattrs₃ : r₃.tables.attrs = r.tables.attrs := by
        obtain ⟨offs, rest, -, htables₃, -⟩ := hswept
        rw [htables₃, htables₂]
        rfl
      refine ⟨res, r₃, ?_, ⟨hr₃, ?_, by rw [hattrs₃]; exact h.visibility⟩, ⟨?_, ?_⟩, ?_⟩
      · change (grandchildren fuel r₁).bind _ = _
        rw [hrun₂]
        exact hrun₃
      · exact hr₁.cache.swept (IsTrans.trans _ _ _ hkept₂ hkept₃).parentsKept
          ⟨by simpa only [htables₂, htables₁] using hswept.asked⟩ hoffsets
      · exact (IsTrans.trans _ _ _ hkept₂ hkept₃).parentsKept
      · rw [hattrs₃, htables₁]
      · rw [hoffsets] at hres
        exact hres

end Answers

end Dies
end Dwarfpp
