/-
# Clients that ask for names

A client of a root may also ask for names: those visible outside of their units, whole paths of them,
and paths resolved in the scopes of an iterator it holds.  The answers come out of a cache that
sweeps and named DIEs fill, and `make_new` and `insert` change what there is to find, in between.
Over any order of such actions the cache stays true, and each answer is what the tree of that moment
has (`names_of_run`).

What a search finds is dropped; a client goes on from there by `find`.
-/

import Dwarfpp.Dies.RootRuns
import Dwarfpp.Dies.ScopedResolve

namespace Dwarfpp
namespace Dies

open Lib
open Lib.Preorder hiding firstChild nextSibling

section Model

/-- What a client does that moves about, makes DIEs, inserts attributes in them, and asks for names. -/
inductive NameAction
  | navigate (a : Action)
  | insertAttribute (k attr : ℕ) (value : AttributeValue ℕ ℕ)
  | findOne (name : String)
  | findAll (name : String)
  | resolveVisible (path : List String) (max : ℕ)
  | scopedResolve (k : ℕ) (path : List String)
  | scopedResolveAll (k : ℕ) (path : List String) (max : ℕ)

/-- What it sees then: one offset or none, or as many as there are. -/
inductive NameAnswer
  | navigated (ans : Answer)
  | inserted
  | first (off : Option ℕ)
  | all (offs : List ℕ)
  deriving DecidableEq

/-- The offset of what is found, if anything is. -/
def NameAnswer.ofOption (res : Option Iterator) : NameAnswer := .first (res.map Iterator.offset)

/-- The offsets of what is found. -/
def NameAnswer.ofList (res : List Iterator) : NameAnswer := .all (res.map Iterator.offset)

/-- Asking for something, and holding what was held. -/
def Client.ask {α : Type} (c : Client) (x : RootM α) (see : α → NameAnswer) :
    Except Fault (NameAnswer × Client) := do
  let (a, r) ← x c.root
  return (see a, ⟨r, c.held⟩)

variable (fuel : ℕ) (srk : Srk31 fuel) (hasCase : ℕ → Bool)

/-- What an action comes to. -/
def Client.nameAct (c : Client) : NameAction → Except Fault (NameAnswer × Client)
  | .navigate a => do
    let (ans, c') ← c.act fuel hasCase a
    return (.navigated ans, c')
  | .insertAttribute k attr value =>
    match c.held[k]? with
    | some it => c.ask (insertAttribute fuel it.offset attr value) fun _ => .inserted
    | none => .error .undefinedBehaviour
  | .findOne name => c.ask (findVisibleGrandchildNamed fuel srk name) .ofOption
  | .findAll name => c.ask (findAllVisibleGrandchildrenNamed fuel srk name) .ofList
  | .resolveVisible path max => c.ask (resolveVisible fuel srk path [] max) .ofList
  | .scopedResolve k path =>
    match c.held[k]? with
    | some it => c.ask (scopedResolve fuel srk it path) .ofOption
    | none => .error .undefinedBehaviour
  | .scopedResolveAll k path max =>
    match c.held[k]? with
    | some it => c.ask (scopedResolveAll fuel srk fuel it path [] max) .ofList
    | none => .error .undefinedBehaviour

/-- A DIE that has its name gets no visibility any more, since only its name enters it in the cache,
and names and visibilities have the forms that belong to them. -/
def NameAction.Allowed (c : Client) : NameAction → Prop
  | .insertAttribute k attr value =>
    ∀ it, c.held[k]? = some it → Insertable c.root.tables.attrs it.offset attr value
  | _ => True

/-- The steps of such a client. -/
def Client.NameStep (c : Client) (l : NameAction × NameAnswer) (c' : Client) : Prop :=
  l.1.Allowed c ∧ c.nameAct fuel srk hasCase l.1 = .ok (l.2, c')

end Model

section Tree

/-- A well-formed tree with the attributes of its DIEs, and where in it a client stands. -/
structure NamedPlaces where
  places : Places
  wellFormed : WellFormed places.tree
  attrs : ℕ → AttributeMap

/-- The attributes after an action that moves about or makes a DIE: a new DIE has none. -/
def attrsAfter (attrs : ℕ → AttributeMap) : Action → Answer → ℕ → AttributeMap
  | .makeNew _ _, .position (some off) => Function.update attrs off OrderedMap.empty
  | _, _ => attrs

/-- An attribute that is there is left. -/
def attrsWith (attrs : ℕ → AttributeMap) (off attr : ℕ) (value : AttributeValue ℕ ℕ) :
    ℕ → AttributeMap :=
  if ((attrs off).find attr).isSome then attrs else withAttribute attrs off attr value

/-- The list is of the ends of a path from what shows its first name, in whatever order. -/
def NamedPlaces.Visible (s : NamedPlaces) (path : List String) (v : List ℕ) : Prop :=
  ∀ d, d ∈ v ↔ VisibleEnd s.wellFormed s.attrs path d

/-- The ends of a path from a DIE and from the scopes above it, the nearest first. -/
def NamedPlaces.scopeEnds (s : NamedPlaces) (x : Node) (path : List String) : List ℕ :=
  (x :: scopes s.places.tree x).filterMap (scopeEnd s.wellFormed s.attrs path)

/-- The same actions, asked of the tree and its attributes as they are. -/
inductive NamedPlaces.Step (s : NamedPlaces) : NameAction × NameAnswer → NamedPlaces → Prop
  | navigate {a : Action} {ans : Answer} {p : Places} {hp : WellFormed p.tree}
      (hstep : s.places.Step (a, ans) p) :
      Step s (.navigate a, .navigated ans) ⟨p, hp, attrsAfter s.attrs a ans⟩
  | insertAttribute {k attr : ℕ} {value : AttributeValue ℕ ℕ} {x : Node}
      (hx : s.places.held[k]? = some x) (hmemory : x.inMemory = true) :
      Step s (.insertAttribute k attr value, .inserted)
        ⟨s.places, s.wellFormed, attrsWith s.attrs x.offset attr value⟩
  | findOne {name : String} {v : List ℕ} (hv : s.Visible [name] v) :
      Step s (.findOne name, .first v.head?) s
  | findAll {name : String} {v : List ℕ} (hv : s.Visible [name] v) :
      Step s (.findAll name, .all v) s
  | resolveVisible {path : List String} {max : ℕ} {v : List ℕ} (hv : s.Visible path v) :
      Step s (.resolveVisible path max, .all (upTo max v)) s
  | scopedResolve {k : ℕ} {path : List String} {x : Node} {v : List ℕ}
      (hx : s.places.held[k]? = some x) (hv : s.Visible path v) :
      Step s (.scopedResolve k path, .first (s.scopeEnds x path ++ v).head?) s
  | scopedResolveAll {k : ℕ} {path : List String} {max : ℕ} {x : Node} {v : List ℕ}
      (hx : s.places.held[k]? = some x) (hv : s.Visible path v) :
      Step s (.scopedResolveAll k path max, .all (upTo max (s.scopeEnds x path ++ v))) s

end Tree

variable {t : List Node} {r r' : Root} {fuel : ℕ} {srk : Srk31 fuel} {hasCase : ℕ → Bool}
  {x n : Node} {it : Iterator} {attrs : ℕ → AttributeMap} {name : String} {off attr : ℕ}
  {value : AttributeValue ℕ ℕ}

section Shows

/-- A new DIE, which has no attributes, changes nothing in what shows. -/
theorem shows_withChild (hx : x ∈ t) (hfresh : ∀ y ∈ t, y.offset ≠ n.offset) :
    Shows (withChild t x n) (Function.update attrs n.offset OrderedMap.empty) name off ↔
      Shows t attrs name off := by
  unfold Shows
  by_cases hoff : off = n.offset
  · subst hoff
    refine iff_of_false (fun h => ?_) fun h => ?_
    · have := h.2
      simp [visibleName, nameOf] at this
    · obtain ⟨y, hy, -, heq⟩ := mem_grandchildOffsets.1 h.1
      exact hfresh y hy heq
  · rw [visibleName_congr (Function.update_of_ne hoff _ _)]
    refine and_congr_left fun _ => ?_
    simp only [mem_grandchildOffsets, mem_withChild hx]
    constructor
    · rintro ⟨y, rfl | hy, hd, heq⟩
      · exact absurd heq.symm hoff
      · exact ⟨y, hy, hd, heq⟩
    · rintro ⟨y, hy, hd, heq⟩
      exact ⟨y, .inr hy, hd, heq⟩

/-- An attribute that was not there makes nothing show but the name of a DIE below a unit. -/
theorem shows_withAttribute (hsorted : Sorted Node.offset t) (hx : x ∈ t)
    (hinsertable : Insertable attrs x.offset attr value)
    (hthere : (attrs x.offset).find attr = none) :
    Shows t (withAttribute attrs x.offset attr value) name off ↔ Shows t attrs name off ∨
      (attr = dwAtName ∧ x.depth = 2) ∧ off = x.offset ∧
        visibleName (withAttribute attrs x.offset attr value) x.offset = some name := by
  by_cases hattr : attr = dwAtName
  · subst hattr
    by_cases hoff : off = x.offset
    · subst hoff
      have hbefore : ¬Shows t attrs name x.offset := fun h => by
        have hname := nameOf_of_visibleName h.2
        unfold nameOf at hname
        rw [hthere] at hname
        exact absurd hname (by simp)
      have hgrandchild : x.offset ∈ grandchildOffsets t ↔ x.depth = 2 := by
        rw [mem_grandchildOffsets]
        constructor
        · rintro ⟨y, hy, hd, heq⟩
          rwa [← hsorted.eq_of_key_eq hy hx heq]
        · exact fun hd => ⟨x, hx, hd, rfl⟩
      simp only [or_iff_right hbefore, true_and]
      exact and_congr_left fun _ => hgrandchild
    · rw [or_iff_left fun h => hoff h.2.1]
      unfold Shows
      rw [visibleName_withAttribute_of_ne hoff]
  · rw [or_iff_left fun h => hattr h.1.1]
    unfold Shows
    rw [visibleName_withAttribute hinsertable hattr]

end Shows

section Cache

/-- What shows as before is in the cache as before. -/
theorem CacheTrue.of_shows {t' : List Node} (h : CacheTrue t r) (hkept : ParentsKept r r')
    (hcache : r'.tables.visibleNamedGrandchildrenCache = r.tables.visibleNamedGrandchildrenCache)
    (hcomplete : r'.tables.visibleNamedGrandchildrenIsComplete =
      r.tables.visibleNamedGrandchildrenIsComplete)
    (hshows : ∀ name off, Shows t' r'.tables.attrs name off ↔ Shows t r.tables.attrs name off) :
    CacheTrue t' r' := by
  constructor
  · intro name off hin
    rw [hcache] at hin
    obtain ⟨hs, hk⟩ := h.sound name off hin
    exact ⟨(hshows name off).2 hs, hk.mono hkept⟩
  · intro hc name off hs
    rw [hcache]
    exact h.complete (hcomplete ▸ hc) name off ((hshows name off).1 hs)

/-- **A new DIE** leaves the cache true. -/
theorem CacheTrue.makeNew (h : CacheTrue t r) (hx : x ∈ t)
    (hfresh : ∀ y ∈ t, y.offset ≠ n.offset) (hkept : ParentsKept r r')
    (htables : r'.tables =
      { r.tables with attrs := Function.update r.tables.attrs n.offset OrderedMap.empty }) :
    CacheTrue (withChild t x n) r' := by
  refine h.of_shows hkept (by rw [htables]) (by rw [htables]) fun name off => ?_
  rw [htables]
  exact shows_withChild hx hfresh

theorem constantVisibility_makeNew (h : ConstantVisibility t attrs) (hx : x ∈ t)
    (hfresh : ∀ y ∈ t, y.offset ≠ n.offset) : ConstantVisibility (withChild t x n)
      (Function.update attrs n.offset OrderedMap.empty) := by
  intro y hy v hv
  rcases (mem_withChild hx).1 hy with rfl | hy
  · simp at hv
  · rw [Function.update_of_ne (hfresh y hy)] at hv
    exact h y hy v hv

/-- What the insertion enters in the cache. -/
theorem mem_inserted {tables : Tables} {depth : ℕ} {o : ℕ} :
    (name, o) ∈ (tables.inserted off depth attr value).visibleNamedGrandchildrenCache ↔
      (name, o) ∈ tables.visibleNamedGrandchildrenCache ∨
        (attr = dwAtName ∧ depth = 2) ∧ o = off ∧
          visibleName (withAttribute tables.attrs off attr value) off = some name := by
  rw [Tables.inserted, List.mem_append]
  refine or_congr_right ?_
  split_ifs with hentered
  · rw [and_iff_right hentered]
    cases visibleName (withAttribute tables.attrs off attr value) off with
    | none => simp
    | some m =>
      rw [Option.map_some, Option.toList_some, List.mem_singleton, Prod.mk.injEq,
        Option.some.injEq, and_comm, eq_comm (a := name)]
  · exact iff_of_false List.not_mem_nil fun h => hentered h.1

/-- **An attribute that was not there** leaves the cache true. -/
theorem CacheTrue.inserted (h : CacheTrue t r) (hsorted : Sorted Node.offset t) (hx : x ∈ t)
    (hknown : Known r x.offset) (hinsertable : Insertable r.tables.attrs x.offset attr value)
    (hthere : (r.tables.attrs x.offset).find attr = none) (hkept : ParentsKept r r')
    (htables : r'.tables = r.tables.inserted x.offset x.depth attr value) : CacheTrue t r' := by
  have hattrs : r'.tables.attrs = withAttribute r.tables.attrs x.offset attr value := by
    rw [htables]
    rfl
  constructor
  · intro name off hin
    rw [htables, mem_inserted] at hin
    rw [hattrs, shows_withAttribute hsorted hx hinsertable hthere]
    rcases hin with hin | hin
    · obtain ⟨hs, hk⟩ := h.sound name off hin
      exact ⟨.inl hs, hk.mono hkept⟩
    · refine ⟨.inr hin, ?_⟩
      rw [hin.2.1]
      exact hknown.mono hkept
  · intro hc name off hs
    rw [hattrs, shows_withAttribute hsorted hx hinsertable hthere] at hs
    rw [htables, mem_inserted]
    refine hs.imp_left fun hs => h.complete ?_ name off hs
    rw [htables] at hc
    exact hc

end Cache

section Insert

/-- A DIE in memory enters the cache without failing. -/
theorem updateCacheOnInsert_returns (h : Settled t r) (hfuel : EnoughFuel t fuel) (hx : x ∈ t)
    (hmemory : x.inMemory = true) (hvisibility : ConstantVisibility t r.tables.attrs) (attr : ℕ) :
    StateReturns (Settled t) ParentsKept (updateCacheOnInsert fuel x.offset attr) r
      fun _ _ => True := by
  rw [updateCacheOnInsert]
  split_ifs
  · have hlive : (r.liveDies x.offset).isSome = true := by
      obtain ⟨u, -, hlive, -⟩ := h.consistent.memoryLive x hx hmemory
      rw [hlive]
      rfl
    have hpos : pos x.offset none none none r = .ok (⟨x.offset, none, true⟩, r) := by
      rw [pos_eq_ite (by simp), if_pos hlive]
      rfl
    refine StateReturns.bind (p := fun i r₁ => i = ⟨x.offset, none, true⟩ ∧ r₁ = r)
      ⟨_, r, hpos, h, Std.Refl.refl r, rfl, rfl⟩ ?_
    rintro i r₁ - - ⟨rfl, rfl⟩
    obtain ⟨i, r₂, hdepth, hr₂, hmoved, -, -⟩ :=
      withDepth_arrives hfuel h hx (show Standing x ⟨x.offset, none, true⟩ from ⟨rfl, .inr ⟨rfl, rfl⟩⟩)
    refine StateReturns.bind (p := fun _ r' => r₂ = r')
      ⟨i, r₂, hdepth, hr₂, hmoved.kept, rfl⟩ ?_
    rintro i' r' - - rfl
    split_ifs
    · refine StateReturns.bind (p := fun _ r'' => r₂ = r'') ⟨_, r₂, globalNameHere_eq ?_, hr₂,
        Std.Refl.refl r₂, rfl⟩ ?_
      · rw [hmoved.tables]
        exact hvisibility x hx
      · rintro name r'' - - rfl
        cases name with
        | none => exact StateReturns.pure hr₂ trivial
        | some name =>
          exact StateReturns.modify ⟨hr₂.consistent.withTables _, hr₂.rooted.of_caches rfl rfl rfl⟩
            ⟨rfl, fun _ hc => hc⟩ trivial
    · exact StateReturns.pure hr₂ trivial
  · exact StateReturns.pure h trivial

/-- **An attribute inserted in a DIE in memory** leaves a root where names can be resolved, with the
attribute that was there, or else the new one. -/
theorem insertAttribute_returns (h : Surveyed t r) (hfuel : EnoughFuel t fuel) (hx : x ∈ t)
    (hknown : Known r x.offset) (hmemory : x.inMemory = true)
    (hinsertable : Insertable r.tables.attrs x.offset attr value) :
    ∃ r', insertAttribute fuel x.offset attr value r = .ok ((), r') ∧ Surveyed t r' ∧
      ParentsKept r r' ∧ r'.tables.attrs = attrsWith r.tables.attrs x.offset attr value := by
  have hrequire : (require (r.isInMemory x.offset = true) : RootM Unit) r = .ok ((), r) :=
    if_pos ((h.settled.consistent.isInMemory hx).trans hmemory)
  have hvisibility := constantVisibility_withAttribute h.visibility hinsertable
  rw [attrsWith]
  cases hthere : (r.tables.attrs x.offset).find attr with
  | some v =>
    refine ⟨r, ?_, h, Std.Refl.refl r, rfl⟩
    change (require (r.isInMemory x.offset = true) r).bind _ = _
    rw [hrequire]
    change (ite _ _ _ : RootM Unit) r = _
    rw [if_pos (by rw [hthere]; rfl)]
    rfl
  | none =>
    have hreturns : StateReturns (Settled t) ParentsKept (insertAttribute fuel x.offset attr value)
        r fun _ _ => True := by
      refine StateReturns.get_bind ?_
      refine StateReturns.bind (p := fun _ r₁ => r = r₁)
        ⟨(), r, hrequire, h.settled, Std.Refl.refl r, rfl⟩ ?_
      rintro - r₁ - - rfl
      rw [if_neg (by rw [hthere]; decide)]
      refine (StateReturns.set (p := fun _ r₁ => Settled t r₁ ∧ r₁.tables.attrs =
        withAttribute r.tables.attrs x.offset attr value) ?_ ⟨rfl, fun _ hc => hc⟩
        ⟨?_, rfl⟩).bind ?_
      · exact ⟨h.settled.consistent.withTables _, h.settled.rooted.of_caches rfl rfl rfl⟩
      · exact ⟨h.settled.consistent.withTables _, h.settled.rooted.of_caches rfl rfl rfl⟩
      · rintro - r₁ - - ⟨hr₁, hattrs₁⟩
        exact updateCacheOnInsert_returns hr₁ hfuel hx hmemory (by rwa [hattrs₁]) attr
    obtain ⟨u, r', hrun, hr', hkept, -⟩ := hreturns
    obtain ⟨y, hy, hoff, -, htables⟩ :=
      insertAttribute_eq_ok h.settled.consistent hfuel hvisibility hthere hrun
    have hsorted := h.settled.consistent.wellFormed.sorted
    obtain rfl := hsorted.eq_of_key_eq hy hx hoff
    have hattrs : r'.tables.attrs = withAttribute r.tables.attrs y.offset attr value := by
      rw [htables]
      rfl
    refine ⟨r', hrun, ⟨hr', ?_, ?_⟩, hkept, hattrs⟩
    · exact h.cache.inserted hsorted hx hknown hinsertable hthere hkept htables
    · rw [hattrs]
      exact hvisibility

end Insert

section Refinement

variable {m : ℕ} {s : NamedPlaces} {c c' : Client}

/-- The root knows the tree and its attributes, what is in its cache is true, and the iterators held
are at the DIEs where the client stands. -/
structure NamesRefine (fuel m : ℕ) (s : NamedPlaces) (c : Client) : Prop where
  places : Refines fuel m s.places c
  cache : CacheTrue s.places.tree c.root
  visibility : ConstantVisibility s.places.tree c.root.tables.attrs
  attrs : c.root.tables.attrs = s.attrs

theorem NamesRefine.of_succ (h : NamesRefine fuel (m + 1) s c) : NamesRefine fuel m s c :=
  ⟨h.places.of_succ, h.cache, h.visibility, h.attrs⟩

theorem NamesRefine.surveyed (h : NamesRefine fuel m s c) : Surveyed s.places.tree c.root :=
  ⟨h.places.settled, h.cache, h.visibility⟩

/-- A root where names can be resolved, reached without forgetting parents, is again such a root. -/
theorem NamesRefine.of_surveyed (h : NamesRefine fuel m s c) (hr' : Surveyed s.places.tree r')
    (hkept : ParentsKept c.root r') {attrs : ℕ → AttributeMap} (hattrs : r'.tables.attrs = attrs) :
    NamesRefine fuel m ⟨s.places, s.wellFormed, attrs⟩ ⟨r', c.held⟩ :=
  ⟨⟨hr'.settled, h.places.roomy, h.places.held.imp fun _ _ hi => hi.mono hkept⟩, hr'.cache,
    hr'.visibility, hattrs⟩

theorem NamesRefine.ask (h : NamesRefine fuel m s c) {α : Type} {x : RootM α}
    {p : α → Root → Prop} (hx : Surveys s.places.tree x c.root p) (see : α → NameAnswer) :
    ∃ a c', c.ask x see = .ok (see a, c') ∧ NamesRefine fuel m s c' ∧ p a c'.root := by
  obtain ⟨a, r', hrun, hr', hasked, hp⟩ := hx
  refine ⟨a, ⟨r', c.held⟩, ?_, h.of_surveyed hr' hasked.kept (hasked.attrs.trans h.attrs), hp⟩
  rw [Client.ask, hrun]
  rfl

/-- What a root answers from is what there is to find. -/
theorem NamesRefine.visible (h : NamesRefine fuel m s c) (path : List String) :
    s.Visible path (rootEnds s.wellFormed c.root.tables path) := by
  intro d
  rw [← h.attrs]
  exact h.surveyed.mem_rootEnds

theorem NamesRefine.resolveVisible (h : NamesRefine fuel m s c) (srk : Srk31 fuel)
    (path : List String) (max : ℕ) :
    Surveys s.places.tree (resolveVisible fuel srk path [] max) c.root fun res _ =>
      res.map Iterator.offset = upTo max (rootEnds s.wellFormed c.root.tables path) := by
  cases path with
  | nil =>
    have hnil : upTo max [] = [] := by simp [upTo]
    rw [rootEnds, hnil]
    exact StateReturns.pure h.surveyed rfl
  | cons name path =>
    have hnot : enough max [] = false := by
      rw [← Bool.not_eq_true, enough_iff, List.length_nil]
      omega
    exact resolveVisible_answers srk h.surveyed h.places.roomy.enoughFuel hnot

/-- What can be asked of the client without failing. -/
def NameAction.Answerable (c : Client) : NameAction → Prop
  | .navigate a => a.Navigates c.held.length
  | .insertAttribute k _ _ => ∃ it, c.held[k]? = some it ∧ c.root.isInMemory it.offset = true
  | .scopedResolve k _ => k < c.held.length
  | .scopedResolveAll k _ _ => k < c.held.length
  | _ => True

theorem Places.Step.tree_eq {p p' : Places} {a : Action} {ans : Answer} {k : ℕ}
    (hstep : p.Step (a, ans) p') (ha : a.Navigates k) : p'.tree = p.tree := by
  cases hstep with
  | makeNew => exact ha.elim
  | _ => rfl

theorem attrsAfter_of_navigates {a : Action} {k : ℕ} (ha : a.Navigates k) (ans : Answer) :
    attrsAfter attrs a ans = attrs := by
  cases a with
  | makeNew k tag => exact ha.elim
  | _ => rfl

theorem NamesRefine.heldAt (h : NamesRefine fuel m s c) {k : ℕ} (hit : c.held[k]? = some it) :
    ∃ x, s.places.held[k]? = some x ∧ HeldAt s.places.tree c.root x it :=
  exists_getElem?_of_forall₂ h.places.held hit

/-- **Asking never fails**, and is what it is in the tree. -/
theorem NamesRefine.answers (h : NamesRefine fuel m s c) {a : NameAction} (ha : a.Answerable c)
    (hallowed : a.Allowed c) : ∃ ans c', c.nameAct fuel srk hasCase a = .ok (ans, c') ∧
      ∃ s', s.Step (a, ans) s' ∧ NamesRefine fuel m s' c' := by
  have hfuel := h.places.roomy.enoughFuel
  cases a with
  | navigate a =>
    obtain ⟨ans, c', hact, hmoved, p, hstep, hp⟩ := h.places.navigates ha
    have htree := hstep.tree_eq ha
    have hattrs : c'.root.tables.attrs = attrsAfter s.attrs a ans := by
      rw [attrsAfter_of_navigates ha, hmoved.tables, h.attrs]
    refine ⟨.navigated ans, c', ?_, _,
      @NamedPlaces.Step.navigate s a ans p hp.settled.consistent.wellFormed hstep, hp, ?_, ?_,
      hattrs⟩
    · rw [Client.nameAct, hact]
      rfl
    · rw [htree]
      exact h.cache.of_shows hmoved.kept (by rw [hmoved.tables]) (by rw [hmoved.tables])
        fun name off => by rw [hmoved.tables]
    · rw [htree, hmoved.tables]
      exact h.visibility
  | insertAttribute k attr value =>
    obtain ⟨it, hit, hin⟩ := ha
    obtain ⟨x, hx, hat⟩ := h.heldAt hit
    have hmemory : x.inMemory = true := by
      rw [← h.places.settled.consistent.isInMemory hat.mem, ← hat.standing.1]
      exact hin
    have hinsertable : Insertable c.root.tables.attrs x.offset attr value := by
      rw [← hat.standing.1]
      exact hallowed it hit
    obtain ⟨r', hrun, hr', hkept, hattrs⟩ := insertAttribute_returns h.surveyed hfuel hat.mem
      hat.known hmemory hinsertable
    refine ⟨.inserted, ⟨r', c.held⟩, ?_, _, .insertAttribute hx hmemory,
      h.of_surveyed hr' hkept (hattrs.trans (by rw [h.attrs]))⟩
    simp only [Client.nameAct, hit, Client.ask, hat.standing.1, hrun]
    rfl
  | findOne name =>
    have hone : Surveys s.places.tree (findVisibleGrandchildNamed fuel srk name) c.root
        fun res _ => res.map Iterator.offset =
          (rootEnds s.wellFormed c.root.tables [name]).head? := by
      rw [findVisibleGrandchildNamed, ← resolveVisible_singleton]
      refine (h.resolveVisible srk [name] 1).bind ?_
      rintro res r' hr' - hres
      refine StateReturns.pure hr' ?_
      rw [upTo, if_neg Nat.one_ne_zero] at hres
      rw [← List.head?_map, hres, List.head?_take, if_neg Nat.one_ne_zero]
    obtain ⟨res, c', hact, hc', hres⟩ := h.ask hone .ofOption
    refine ⟨_, c', hact, s, ?_, hc'⟩
    rw [NameAnswer.ofOption, hres]
    exact .findOne (h.visible [name])
  | findAll name =>
    have hall := h.resolveVisible srk [name] 0
    rw [resolveVisible_singleton] at hall
    obtain ⟨res, c', hact, hc', hres⟩ := h.ask hall .ofList
    refine ⟨_, c', hact, s, ?_, hc'⟩
    rw [NameAnswer.ofList, hres]
    exact .findAll (h.visible [name])
  | resolveVisible path max =>
    obtain ⟨res, c', hact, hc', hres⟩ := h.ask (h.resolveVisible srk path max) .ofList
    refine ⟨_, c', hact, s, ?_, hc'⟩
    rw [NameAnswer.ofList, hres]
    exact .resolveVisible (h.visible path)
  | scopedResolve k path =>
    obtain ⟨x, hx, hat⟩ := h.heldAt (List.getElem?_eq_getElem ha)
    have hone : Surveys s.places.tree (scopedResolve fuel srk c.held[k] path) c.root _ :=
      scopedResolve_answers srk h.surveyed hfuel hat
    obtain ⟨res, c', hact, hc', hres⟩ := h.ask hone .ofOption
    refine ⟨.ofOption res, c', ?_, s, ?_, hc'⟩
    · simp only [Client.nameAct, List.getElem?_eq_getElem ha]
      exact hact
    · rw [NameAnswer.ofOption, hres, scopedEnds, h.attrs]
      exact .scopedResolve hx (h.visible path)
  | scopedResolveAll k path max =>
    obtain ⟨x, hx, hat⟩ := h.heldAt (List.getElem?_eq_getElem ha)
    have hdepth := (h.places.settled.consistent.depth_le_offset hat.mem).trans_lt
      (hfuel.2 x hat.mem)
    have hnot : enough max [] = false := by
      rw [← Bool.not_eq_true, enough_iff, List.length_nil]
      omega
    have hall : Surveys s.places.tree (scopedResolveAll fuel srk fuel c.held[k] path [] max) c.root
        _ := scopedResolveAll_answers srk h.surveyed hfuel hat hnot hdepth
    obtain ⟨res, c', hact, hc', hres⟩ := h.ask hall .ofList
    refine ⟨.ofList res, c', ?_, s, ?_, hc'⟩
    · simp only [Client.nameAct, List.getElem?_eq_getElem ha]
      exact hact
    · rw [NameAnswer.ofList, hres, scopedEnds, h.attrs]
      exact .scopedResolveAll hx (h.visible path)

/-- **A new DIE** leaves the cache true, and without attributes. -/
theorem NamesRefine.makeNew (h : NamesRefine fuel (m + 1) s c) {k tag : ℕ} {ans : Answer}
    (hact : c.act fuel hasCase (.makeNew k tag) = .ok (ans, c')) :
    ∃ s', s.Step (.navigate (.makeNew k tag), .navigated ans) s' ∧ NamesRefine fuel m s' c' := by
  obtain ⟨⟨p, hstep, hp⟩, hkept, off, rfl, htables⟩ := h.places.makeNew hact
  cases hstep with
  | @makeNew _ _ x n hx hn hfresh hnext =>
    obtain ⟨i, -, hat⟩ := exists_getElem?_of_forall₂ h.places.held.flip hx
    refine ⟨_, @NamedPlaces.Step.navigate s _ _ _ hp.settled.consistent.wellFormed
      (.makeNew hx hn hfresh hnext), hp, ?_, ?_, ?_⟩
    · exact h.cache.makeNew hat.mem hfresh hkept htables
    · rw [htables]
      exact constantVisibility_makeNew h.visibility hat.mem hfresh
    · rw [htables, h.attrs]
      rfl

/-- What comes to something could be asked, or makes a DIE. -/
theorem Client.answerable_of_nameAct {a : NameAction} {ans : NameAnswer}
    (hact : c.nameAct fuel srk hasCase a = .ok (ans, c')) :
    a.Answerable c ∨ ∃ k tag ans', a = .navigate (.makeNew k tag) ∧ ans = .navigated ans' ∧
      c.act fuel hasCase (.makeNew k tag) = .ok (ans', c') := by
  cases a with
  | navigate a =>
    obtain ⟨⟨ans', c''⟩, hact', heq⟩ := bind_eq_ok.1 hact
    obtain ⟨rfl, rfl⟩ := Prod.mk.inj (Except.ok.inj heq)
    rcases Client.navigates_of_act hact' with ha | ⟨k, tag, rfl⟩
    · exact .inl ha
    · exact .inr ⟨k, tag, ans', rfl, rfl, hact'⟩
  | insertAttribute k attr value =>
    cases hit : c.held[k]? with
    | none =>
      simp only [Client.nameAct, hit] at hact
      exact absurd hact (by simp)
    | some it =>
      simp only [Client.nameAct, hit] at hact
      obtain ⟨⟨u, r'⟩, hinsert, -⟩ := bind_eq_ok.1 hact
      obtain ⟨_, r₁, hreq, -⟩ := stateT_bind_eq_ok (stateT_get_bind_eq_ok hinsert)
      exact .inl ⟨it, hit, (require_eq_ok hreq).1⟩
  | findOne name => exact .inl trivial
  | findAll name => exact .inl trivial
  | resolveVisible path max => exact .inl trivial
  | scopedResolve k path =>
    refine .inl (lt_length_of_getElem? fun hk => ?_)
    simp [Client.nameAct, hk] at hact
  | scopedResolveAll k path max =>
    refine .inl (lt_length_of_getElem? fun hk => ?_)
    simp [Client.nameAct, hk] at hact

/-- **The root simulates the tree with its names.** -/
theorem simulation_names :
    Simulation (Client.NameStep fuel srk hasCase) NamedPlaces.Step (NamesRefine fuel) := by
  intro m s c ⟨a, ans⟩ c' href ⟨hallowed, hact⟩
  rcases Client.answerable_of_nameAct hact with ha | ⟨k, tag, ans', rfl, rfl, hmake⟩
  · obtain ⟨ans', c'', hact', s', hs, href'⟩ := href.of_succ.answers ha hallowed
    obtain ⟨rfl, rfl⟩ := Prod.mk.inj (Except.ok.inj (hact'.symm.trans hact))
    exact ⟨s', hs, href'⟩
  · exact href.makeNew hmake

/-- **A client that asks for names sees the tree.**  Any run of such a client, from a root with an empty
cache, is a run of the tree and its attributes with the same actions and the same answers; after it
the root knows both, and each iterator held is at its DIE.  From there asking does not fail. -/
theorem names_of_run {t₀ : List Node} {r₀ : Root} (h₀ : Settled t₀ r₀)
    (hcache : r₀.tables.visibleNamedGrandchildrenCache = [])
    (hincomplete : r₀.tables.visibleNamedGrandchildrenIsComplete = false)
    (hvisibility : ConstantVisibility t₀ r₀.tables.attrs)
    {trace : List (NameAction × NameAnswer)} (hroom : Roomy t₀ trace.length fuel)
    (hrun : Traces (Client.NameStep fuel srk hasCase) ⟨r₀, []⟩ trace c) :
    ∃ s, Traces NamedPlaces.Step ⟨⟨t₀, []⟩, h₀.consistent.wellFormed, r₀.tables.attrs⟩ trace s ∧
      Consistent s.places.tree c.root ∧ c.root.tables.attrs = s.attrs ∧
      List.Forall₂ Standing s.places.held c.held ∧
      ∀ a : NameAction, a.Answerable c → a.Allowed c →
        ∃ ans c', c.nameAct fuel srk hasCase a = .ok (ans, c') := by
  have hsurveyed := surveyed_of_empty h₀ hcache hincomplete hvisibility
  obtain ⟨s, hs, href⟩ := simulation_names.traces (n := 0)
    (a := ⟨⟨t₀, []⟩, h₀.consistent.wellFormed, r₀.tables.attrs⟩)
    ⟨⟨h₀, hroom, .nil⟩, hsurveyed.cache, hvisibility, rfl⟩ hrun
  refine ⟨s, hs, href.places.settled.consistent, href.attrs,
    href.places.held.imp fun _ _ hi => hi.standing, fun a ha hallowed => ?_⟩
  obtain ⟨ans, c', hact, -⟩ := href.answers ha hallowed
  exact ⟨ans, c', hact⟩

end Refinement

section Examples

/-- The client of the small file, after so many actions. -/
def smallClient (as : List NameAction) : Client :=
  as.foldl (fun c a => ((c.nameAct 40 (.described 40) (fun _ => true) a).toOption.map
    Prod.snd).getD c) ⟨smallRoot 11 20, []⟩

theorem smallClient_step {as : List NameAction} {trace : List (NameAction × NameAnswer)}
    (a : NameAction) (ans : NameAnswer)
    (h : Traces (Client.NameStep 40 (.described 40) fun _ => true) ⟨smallRoot 11 20, []⟩ trace
      (smallClient as))
    (hallowed : a.Allowed (smallClient as))
    (hans : (((smallClient as).nameAct 40 (.described 40) (fun _ => true) a).toOption.map
      Prod.fst) = some ans) :
    Traces (Client.NameStep 40 (.described 40) fun _ => true) ⟨smallRoot 11 20, []⟩
      (trace ++ [(a, ans)]) (smallClient (as ++ [a])) := by
  refine h.snoc ⟨hallowed, ?_⟩
  dsimp only
  rw [show smallClient (as ++ [a]) = (((smallClient as).nameAct 40 (.described 40) (fun _ => true)
    a).toOption.map Prod.snd).getD (smallClient as) from List.foldl_append]
  cases hact : (smallClient as).nameAct 40 (.described 40) (fun _ => true) a with
  | error e =>
    rw [hact] at hans
    exact absurd hans (by simp [Except.toOption])
  | ok p =>
    rw [hact] at hans
    obtain rfl : p.1 = ans := Option.some.inj hans
    rfl

/-- The client of the small file finds nothing under a name, makes a DIE under the unit, names it, and
finds it: from the root, and from the DIE beside it, where it is found in the unit too. -/
def namesTrace : List (NameAction × NameAnswer) :=
  [(.navigate (.find 11), .navigated (.position (some 11))),
    (.findAll "b", .all []),
    (.navigate (.makeNew 0 0x24), .navigated (.position (some 21))),
    (.insertAttribute 1 dwAtName (.string "b"), .inserted),
    (.findAll "b", .all [21]),
    (.navigate (.find 20), .navigated (.position (some 20))),
    (.scopedResolveAll 2 ["b"] 0, .all [21, 21])]

theorem traces_names : Traces (Client.NameStep 40 (.described 40) fun _ => true)
    ⟨smallRoot 11 20, []⟩ namesTrace (smallClient (namesTrace.map Prod.fst)) := by
  have h₁ := @smallClient_step [] _ (.navigate (.find 11)) (.navigated (.position (some 11)))
    .nil trivial (by decide +kernel)
  have h₂ := smallClient_step (.findAll "b") (.all []) h₁ trivial (by decide +kernel)
  have h₃ := smallClient_step (.navigate (.makeNew 0 0x24)) (.navigated (.position (some 21))) h₂
    trivial (by decide +kernel)
  have h₄ := smallClient_step (.insertAttribute 1 dwAtName (.string "b")) .inserted h₃
    (fun it _ => ⟨fun _ => ⟨"b", rfl⟩, fun hattr => absurd hattr (by decide)⟩) (by decide +kernel)
  have h₅ := smallClient_step (.findAll "b") (.all [21]) h₄ trivial (by decide +kernel)
  have h₆ := smallClient_step (.navigate (.find 20)) (.navigated (.position (some 20))) h₅ trivial
    (by decide +kernel)
  exact smallClient_step (.scopedResolveAll 2 ["b"] 0) (.all [21, 21]) h₆ trivial
    (by decide +kernel)

theorem names_smallRoot : ∃ s : NamedPlaces, Traces NamedPlaces.Step
      ⟨⟨smallTree, []⟩, wellFormed_smallTree, fun _ => OrderedMap.empty⟩ namesTrace s ∧
    Consistent s.places.tree (smallClient (namesTrace.map Prod.fst)).root ∧
    (smallClient (namesTrace.map Prod.fst)).root.tables.attrs = s.attrs ∧
    List.Forall₂ Standing s.places.held (smallClient (namesTrace.map Prod.fst)).held ∧
    ∀ a : NameAction, a.Answerable (smallClient (namesTrace.map Prod.fst)) →
      a.Allowed (smallClient (namesTrace.map Prod.fst)) → ∃ ans c',
        (smallClient (namesTrace.map Prod.fst)).nameAct 40 (.described 40) (fun _ => true) a =
          .ok (ans, c') :=
  names_of_run ⟨consistent_smallRoot, rooted_make _ _ _⟩ rfl rfl (fun _ _ _ hv => by cases hv)
    ⟨by decide, by decide⟩ traces_names

end Examples

end Dies
end Dwarfpp
