/-
# Visible names after a run of searches

The cache of visible names is good when it has nothing twice and nothing wrong, and all
where it is said to be complete (`CacheSound`).  A search of a root with a good cache
answers with the DIEs below the units that show the name, each once, or with one of
them.  It leaves the cache good if the sweep asks about no DIE that is in it
(`Fresh`), and so do new DIEs in memory that get a name
(`visible_of_run`).

A sweep that asks about a DIE again enters it again, and the next search has it
twice (`findAll_twoNames`).
-/

import Dwarfpp.Dies.VisibleNames

namespace Dwarfpp
namespace Dies

open Lib
open Lib.Preorder hiding firstChild nextSibling

variable {t : List Node} {r r' : Root} {fuel : ℕ} {srk : Srk31 fuel} {name : String} {one : Bool}

section Answers

/-- The cache has nothing twice and nothing wrong, and all where it is said to be complete. -/
structure CacheSound (t : List Node) (tables : Tables) : Prop where
  nodup : tables.visibleNamedGrandchildrenCache.Nodup
  sound : ∀ name off, (name, off) ∈ tables.visibleNamedGrandchildrenCache →
    off ∈ grandchildOffsets t ∧ visibleName tables.attrs off = some name
  complete : tables.visibleNamedGrandchildrenIsComplete = true → ∀ off ∈ grandchildOffsets t,
    ∀ name, visibleName tables.attrs off = some name →
      (name, off) ∈ tables.visibleNamedGrandchildrenCache

/-- A DIE below a unit that shows the name. -/
def Shows (t : List Node) (attrs : ℕ → AttributeMap) (name : String) (off : ℕ) : Prop :=
  off ∈ grandchildOffsets t ∧ visibleName attrs off = some name

theorem mem_cached {tables : Tables} {off : ℕ} :
    off ∈ tables.cached name ↔ (name, off) ∈ tables.visibleNamedGrandchildrenCache := by
  simp [Tables.cached]

theorem CacheSound.nodup_cached {tables : Tables} (h : CacheSound t tables) (name : String) :
    (tables.cached name).Nodup := by
  refine List.Nodup.map_on ?_ (h.nodup.filter _)
  rintro ⟨n, off⟩ hn ⟨n', off'⟩ hn' heq
  have h₁ : n = name := of_decide_eq_true (List.mem_filter.1 hn).2
  have h₂ : n' = name := of_decide_eq_true (List.mem_filter.1 hn').2
  rw [h₁, h₂]
  exact congrArg (Prod.mk name) heq

theorem nodup_grandchildOffsets (h : Sorted Node.offset t) : (grandchildOffsets t).Nodup :=
  List.pairwise_map.2 ((h.filter _).imp fun hlt => hlt.ne)

theorem sweptUntil_false (p : ℕ → Bool) (gs : List ℕ) : sweptUntil p false gs = gs := by
  induction gs with
  | nil => rfl
  | cons g gs ih =>
    rw [sweptUntil, Bool.false_and, if_neg (by decide), ih]

/-- Up to the first that `p` holds of there is one that `p` holds of, if there is any. -/
theorem exists_mem_sweptUntil (one : Bool) {p : ℕ → Bool} {gs : List ℕ} {g : ℕ} (hg : g ∈ gs)
    (hp : p g = true) :
    ∃ g' ∈ sweptUntil p one gs, p g' = true := by
  induction gs with
  | nil => exact absurd hg (by simp)
  | cons g₀ gs ih =>
    rw [sweptUntil]
    split_ifs with h₀
    · exact ⟨g₀, List.mem_singleton_self _, (Bool.and_eq_true_iff.1 h₀).2⟩
    · rcases List.mem_cons.1 hg with rfl | hg
      · exact ⟨g, List.mem_cons_self, hp⟩
      · obtain ⟨g', hg', hp'⟩ := ih hg
        exact ⟨g', List.mem_cons_of_mem _ hg', hp'⟩

theorem sweptUntil_sublist {p : ℕ → Bool} {gs : List ℕ} : (sweptUntil p one gs).Sublist gs := by
  induction gs with
  | nil => exact List.Sublist.refl []
  | cons g gs ih =>
    rw [sweptUntil]
    split_ifs
    · exact (List.nil_sublist gs).cons_cons g
    · exact ih.cons_cons g

theorem asked_sublist {tables : Tables} :
    (tables.asked t name one).Sublist (grandchildOffsets t) := by
  rw [Tables.asked]
  split
  · exact List.nil_sublist _
  · exact sweptUntil_sublist

/-- What a search answers with shows the name. -/
theorem CacheSound.shows {tables : Tables} (h : CacheSound t tables) {off : ℕ}
    (hoff : off ∈ tables.cached name ∨ off ∈ (tables.asked t name one).filter
      (answers tables.attrs name (tables.cached name))) : Shows t tables.attrs name off := by
  rcases hoff with hoff | hoff
  · exact h.sound name off (mem_cached.1 hoff)
  · obtain ⟨hasked, hanswers⟩ := List.mem_filter.1 hoff
    exact ⟨asked_sublist.subset hasked, (of_decide_eq_true hanswers).1⟩

/-- **The search for all** answers with what shows the name, each once. -/
theorem CacheSound.answers_all (name : String) {tables : Tables} (h : CacheSound t tables)
    (hsorted : Sorted Node.offset t) :
    (tables.cached name ++ (tables.asked t name false).filter
      (answers tables.attrs name (tables.cached name))).Nodup ∧
    ∀ off, off ∈ tables.cached name ++ (tables.asked t name false).filter
      (answers tables.attrs name (tables.cached name)) ↔ Shows t tables.attrs name off := by
  have hasked : tables.visibleNamedGrandchildrenIsComplete = true ∨
      tables.asked t name false = grandchildOffsets t := by
    cases hc : tables.visibleNamedGrandchildrenIsComplete with
    | true => exact .inl rfl
    | false => exact .inr (by simp [Tables.asked, hc, sweptUntil_false])
  constructor
  · refine List.nodup_append'.2 ⟨h.nodup_cached name,
      ((nodup_grandchildOffsets hsorted).sublist asked_sublist).filter _, ?_⟩
    intro off hoff hoff'
    exact (of_decide_eq_true (List.mem_filter.1 hoff').2).2 hoff
  · intro off
    constructor
    · exact fun hoff => h.shows (List.mem_append.1 hoff)
    · rintro ⟨hmem, hname⟩
      by_cases hcached : off ∈ tables.cached name
      · exact List.mem_append_left _ hcached
      · rcases hasked with hcomplete | hasked
        · exact absurd (mem_cached.2 (h.complete hcomplete off hmem name hname)) hcached
        · refine List.mem_append_right _ (List.mem_filter.2 ⟨?_, decide_eq_true ⟨hname, hcached⟩⟩)
          rw [hasked]
          exact hmem

/-- **The search for one** has an answer if there is one. -/
theorem CacheSound.answers_one {tables : Tables} (h : CacheSound t tables) {off : ℕ}
    (hshows : Shows t tables.attrs name off) :
    (tables.cached name).take 1 ++ (tables.asked t name true).filter
      (answers tables.attrs name (tables.cached name)) ≠ [] := by
  intro hnil
  obtain ⟨hcached, hasked⟩ := List.append_eq_nil_iff.1 hnil
  have hnone : tables.cached name = [] := by
    cases hc : tables.cached name with
    | nil => rfl
    | cons c cs =>
      rw [hc] at hcached
      exact absurd hcached (by simp)
  cases hc : tables.visibleNamedGrandchildrenIsComplete with
  | true =>
    have := mem_cached.2 (h.complete hc off hshows.1 name hshows.2)
    rw [hnone] at this
    exact absurd this (by simp)
  | false =>
    have hswept : tables.asked t name true =
        sweptUntil (answers tables.attrs name (tables.cached name)) true (grandchildOffsets t) := by
      simp [Tables.asked, hc, hnone]
    obtain ⟨g, hg, hp⟩ := exists_mem_sweptUntil true hshows.1
      (p := answers tables.attrs name (tables.cached name))
      (decide_eq_true ⟨hshows.2, by rw [hnone]; simp⟩)
    rw [hswept] at hasked
    exact absurd (List.mem_filter.2 ⟨hg, hp⟩) (by rw [hasked]; simp)

end Answers

section Searches

/-- The sweep asks about no DIE that is in the cache. -/
def Fresh (t : List Node) (tables : Tables) (name : String) (one : Bool) : Prop :=
  ∀ off ∈ tables.asked t name one, ∀ n, visibleName tables.attrs off = some n →
    (n, off) ∉ tables.visibleNamedGrandchildrenCache

/-- **Asking about DIEs that are not in it** keeps the cache good. -/
theorem CacheSound.tested {tables : Tables} (h : CacheSound t tables)
    (hsorted : Sorted Node.offset t) (hfresh : Fresh t tables name one) {rest : List ℕ}
    (hrest : tables.asked t name one ≠ [] →
      grandchildOffsets t = tables.asked t name one ++ rest) :
    CacheSound t (tables.tested (tables.asked t name one) rest) := by
  have hmem : ∀ n off, (n, off) ∈ (tables.asked t name one).filterMap (fun off =>
      (visibleName tables.attrs off).map fun name => (name, off)) ↔
      off ∈ tables.asked t name one ∧ visibleName tables.attrs off = some n := by
    intro n off
    simp only [List.mem_filterMap, Option.map_eq_some_iff, Prod.mk.injEq]
    constructor
    · rintro ⟨o, ho, m, hm, rfl, rfl⟩
      exact ⟨ho, hm⟩
    · rintro ⟨ho, hn⟩
      exact ⟨off, ho, n, hn, rfl, rfl⟩
  have hasked : (tables.asked t name one).Nodup :=
    (nodup_grandchildOffsets hsorted).sublist asked_sublist
  refine ⟨List.nodup_append'.2 ⟨h.nodup, ?_, ?_⟩, ?_, ?_⟩
  · refine hasked.filterMap ?_
    rintro a b ⟨n, off⟩ ha hb
    obtain ⟨m, -, hm⟩ := Option.map_eq_some_iff.1 ha
    obtain ⟨m', -, hm'⟩ := Option.map_eq_some_iff.1 hb
    exact (Prod.mk.inj hm).2.trans (Prod.mk.inj hm').2.symm
  · rintro ⟨n, off⟩ hcached hentered
    obtain ⟨ho, hn⟩ := (hmem n off).1 hentered
    exact hfresh off ho n hn hcached
  · intro n off hin
    rcases List.mem_append.1 hin with hcached | hentered
    · exact h.sound n off hcached
    · obtain ⟨ho, hn⟩ := (hmem n off).1 hentered
      exact ⟨asked_sublist.subset ho, hn⟩
  · intro hcomplete off ho n hn
    rcases Bool.or_eq_true_iff.1 hcomplete with hc | hc
    · exact List.mem_append_left _ (h.complete hc off ho n hn)
    · obtain ⟨hne, hempty⟩ := Bool.and_eq_true_iff.1 hc
      have hall := hrest (by rintro heq; simp [heq] at hne)
      rw [List.isEmpty_iff.1 hempty, List.append_nil] at hall
      exact List.mem_append_right _ ((hmem n off).2 ⟨hall ▸ ho, hn⟩)

/-- What a search needs of a root: it knows the tree, and its cache is good. -/
structure Searchable (t : List Node) (r : Root) : Prop where
  consistent : Consistent t r
  cache : CacheSound t r.tables
  visibility : ConstantVisibility t r.tables.attrs

theorem Searchable.resolve (srk : Srk31 fuel) (h : Searchable t r) (hfuel : EnoughFuel t fuel)
    (name : String) (one : Bool) :
    Searches t (resolveAllVisibleFromRoot fuel srk name (if one then 1 else 0)) r fun res r' =>
      (Fresh t r.tables name one → Searchable t r') ∧
        res.map Iterator.offset =
          (if one then (r.tables.cached name).take 1 else r.tables.cached name) ++
            (r.tables.asked t name one).filter
              (answers r.tables.attrs name (r.tables.cached name)) := by
  have hcached : ∀ off ∈ r.tables.cached name, off ∈ grandchildOffsets t :=
    fun off hoff => (h.cache.sound name off (mem_cached.1 hoff)).1
  refine (resolveAllVisibleFromRoot_searches h.consistent hfuel h.visibility hcached).mono ?_
  rintro res r' hr' - ⟨rest, htables, hrest, hres⟩
  refine ⟨fun hfresh => ⟨hr', ?_, ?_⟩, hres⟩
  · rw [htables]
    exact h.cache.tested h.consistent.wellFormed.sorted hfresh hrest
  · rw [htables]
    exact h.visibility

/-- **`find_all_visible_grandchildren_named`** answers with each DIE below a unit that shows the name,
once, and with no other. -/
theorem Searchable.findAll (srk : Srk31 fuel) (h : Searchable t r) (hfuel : EnoughFuel t fuel)
    (name : String) :
    ∃ res r', findAllVisibleGrandchildrenNamed fuel srk name r = .ok (res, r') ∧
      (Fresh t r.tables name false → Searchable t r') ∧
      (res.map Iterator.offset).Nodup ∧
      ∀ off, off ∈ res.map Iterator.offset ↔ Shows t r.tables.attrs name off := by
  obtain ⟨res, r', hrun, -, -, hsearchable, hres⟩ := h.resolve srk hfuel name false
  obtain ⟨hnodup, hmem⟩ := h.cache.answers_all name h.consistent.wellFormed.sorted
  refine ⟨res, r', hrun, hsearchable, ?_, ?_⟩
  · rw [hres]
    exact hnodup
  · rw [hres]
    exact hmem

/-- **`find_visible_grandchild_named`** answers with a DIE below a unit that shows the name, if there
is one. -/
theorem Searchable.findOne (srk : Srk31 fuel) (h : Searchable t r) (hfuel : EnoughFuel t fuel)
    (name : String) :
    ∃ res r', findVisibleGrandchildNamed fuel srk name r = .ok (res, r') ∧
      (Fresh t r.tables name true → Searchable t r') ∧
      (∀ it, res = some it → Shows t r.tables.attrs name it.offset) ∧
      (res = none ↔ ∀ off, ¬Shows t r.tables.attrs name off) := by
  obtain ⟨res, r', hrun, -, -, hsearchable, hres⟩ := h.resolve srk hfuel name true
  have hshows : ∀ it ∈ res, Shows t r.tables.attrs name it.offset := by
    intro it hit
    have hmem : it.offset ∈ res.map Iterator.offset := List.mem_map_of_mem hit
    rw [hres] at hmem
    exact h.cache.shows ((List.mem_append.1 hmem).imp_left List.mem_of_mem_take)
  refine ⟨res.head?, r', ?_, hsearchable, fun it hit => hshows it (List.mem_of_mem_head? hit), ?_⟩
  · change (resolveAllVisibleFromRoot fuel srk name 1 r).bind _ = _
    rw [show (1 : ℕ) = if true then 1 else 0 from rfl, hrun]
    rfl
  · rw [List.head?_eq_none_iff]
    constructor
    · rintro rfl off hoff
      exact h.cache.answers_one hoff hres.symm
    · intro hno
      exact List.eq_nil_iff_forall_not_mem.2 fun it hit => hno _ (hshows it hit)

end Searches

section Insertion

variable {hasCase : ℕ → Bool} {x n : Node} {off attr : ℕ} {value : AttributeValue ℕ ℕ}
  {attrs : ℕ → AttributeMap}

theorem visibleName_congr {attrs' : ℕ → AttributeMap} (h : attrs' off = attrs off) :
    visibleName attrs' off = visibleName attrs off := by
  unfold visibleName nameOf
  rw [h]

/-- The new DIE has an offset of its own. -/
theorem Call.offset_ne (h : Consistent t r) (hfuel : EnoughFuel t fuel)
    (hcall : Call hasCase fuel t r x n r') {y : Node} (hy : y ∈ t) : y.offset ≠ n.offset := by
  obtain ⟨pre, w, rest, rfl, -, -, heq⟩ := withChild_eq hcall.mem
  have hsorted := (hcall.consistent h hfuel).1.wellFormed.sorted
  rw [heq, show pre ++ x :: (w ++ n :: rest) = (pre ++ x :: w) ++ n :: rest by simp] at hsorted
  obtain ⟨-, hlater, hbefore⟩ := List.pairwise_append.1 hsorted
  rw [show pre ++ x :: (w ++ rest) = (pre ++ x :: w) ++ rest by simp] at hy
  rcases List.mem_append.1 hy with hy | hy
  · exact (hbefore y hy n List.mem_cons_self).ne
  · exact ((List.pairwise_cons.1 hlater).1 y hy).ne'

/-- **A new DIE**, which has no attributes, leaves the cache good. -/
theorem Call.searchable (h : Searchable t r) (hfuel : EnoughFuel t fuel)
    (hcall : Call hasCase fuel t r x n r') : Searchable (withChild t x n) r' := by
  have hr' := (hcall.consistent h.consistent hfuel).1
  have htables := hcall.tables h.consistent hfuel
  have hne : ∀ off ∈ grandchildOffsets t, off ≠ n.offset := by
    intro off hoff
    obtain ⟨y, hy, -, rfl⟩ := mem_grandchildOffsets.1 hoff
    exact hcall.offset_ne h.consistent hfuel hy
  have hold : ∀ off, off ≠ n.offset → visibleName r'.tables.attrs off =
      visibleName r.tables.attrs off := by
    intro off hoff
    rw [htables]
    exact visibleName_congr (Function.update_of_ne hoff _ _)
  have hnew : visibleName r'.tables.attrs n.offset = none := by
    rw [htables]
    simp [visibleName, nameOf]
  have hmem : ∀ {off}, off ∈ grandchildOffsets (withChild t x n) →
      off = n.offset ∨ off ∈ grandchildOffsets t := by
    intro off hoff
    obtain ⟨y, hy, hd, rfl⟩ := mem_grandchildOffsets.1 hoff
    rcases (mem_withChild hcall.mem).1 hy with rfl | hy
    · exact .inl rfl
    · exact .inr (mem_grandchildOffsets.2 ⟨y, hy, hd, rfl⟩)
  refine ⟨hr', ⟨?_, ?_, ?_⟩, ?_⟩
  · rw [htables]
    exact h.cache.nodup
  · intro name off hin
    rw [htables] at hin
    obtain ⟨hoff, hname⟩ := h.cache.sound name off hin
    obtain ⟨y, hy, hd, rfl⟩ := mem_grandchildOffsets.1 hoff
    refine ⟨mem_grandchildOffsets.2 ⟨y, (mem_withChild hcall.mem).2 (.inr hy), hd, rfl⟩, ?_⟩
    rw [hold _ (hne _ hoff)]
    exact hname
  · intro hcomplete off hoff name hname
    rcases hmem hoff with rfl | hoff
    · rw [hnew] at hname
      exact absurd hname (by simp)
    · rw [hold off (hne off hoff)] at hname
      rw [htables] at hcomplete ⊢
      exact h.cache.complete hcomplete off hoff name hname
  · intro y hy v hv
    rw [htables] at hv
    rcases (mem_withChild hcall.mem).1 hy with rfl | hy
    · simp at hv
    · have hoff := hcall.offset_ne h.consistent hfuel hy
      dsimp only at hv
      rw [Function.update_of_ne hoff] at hv
      exact h.visibility y hy v hv

/-- The attribute inserted has the form that belongs to it, and a DIE that has its name gets no
visibility any more. -/
def Insertable (attrs : ℕ → AttributeMap) (off attr : ℕ) (value : AttributeValue ℕ ℕ) : Prop :=
  (attr = dwAtName → ∃ s, value = .string s) ∧
    (attr = dwAtVisibility → (∃ v, value = .other v) ∧ nameOf attrs off = none)

/-- The attributes with one inserted. -/
def withAttribute (attrs : ℕ → AttributeMap) (off attr : ℕ) (value : AttributeValue ℕ ℕ) :
    ℕ → AttributeMap :=
  Function.update attrs off ((attrs off).insert attr value)

theorem visibleName_withAttribute_of_ne {o : ℕ} (hne : o ≠ off) :
    visibleName (withAttribute attrs off attr value) o = visibleName attrs o :=
  visibleName_congr (Function.update_of_ne hne _ _)

theorem find_withAttribute (a : ℕ) :
    (withAttribute attrs off attr value off).find a =
      if a = attr then some value else (attrs off).find a := by
  rw [withAttribute, Function.update_self, OrderedMap.find_insert]

/-- Other attributes than the name leave what a DIE shows. -/
theorem visibleName_withAttribute (hinsertable : Insertable attrs off attr value)
    (hattr : attr ≠ dwAtName) (o : ℕ) :
    visibleName (withAttribute attrs off attr value) o = visibleName attrs o := by
  by_cases ho : o = off
  · subst ho
    have hname : nameOf (withAttribute attrs o attr value) o = nameOf attrs o := by
      unfold nameOf
      rw [find_withAttribute, if_neg (Ne.symm hattr)]
    unfold visibleName
    rw [hname]
    cases hn : nameOf attrs o with
    | none => rfl
    | some name =>
      dsimp only
      have hvisibility : attr ≠ dwAtVisibility := by
        rintro rfl
        rw [(hinsertable.2 rfl).2] at hn
        exact absurd hn (by simp)
      rw [find_withAttribute, if_neg (Ne.symm hvisibility)]
  · exact visibleName_withAttribute_of_ne ho

theorem constantVisibility_withAttribute (h : ConstantVisibility t attrs)
    (hinsertable : Insertable attrs off attr value) :
    ConstantVisibility t (withAttribute attrs off attr value) := by
  intro y hy v hv
  by_cases hoff : y.offset = off
  · rw [hoff, find_withAttribute] at hv
    split_ifs at hv with hattr
    · obtain ⟨⟨c, rfl⟩, -⟩ := hinsertable.2 hattr.symm
      exact ⟨c, (Option.some.inj hv).symm⟩
    · exact h y hy v (hoff ▸ hv)
  · rw [withAttribute, Function.update_of_ne hoff] at hv
    exact h y hy v hv

/-- A name that was not there enters the cache, if it shows. -/
theorem CacheSound.enter {tables : Tables} (h : CacheSound t tables) (attr : ℕ)
    (value : AttributeValue ℕ ℕ)
    (hnone : nameOf tables.attrs off = none) (hoff : off ∈ grandchildOffsets t) :
    CacheSound t { tables with
      attrs := withAttribute tables.attrs off attr value
      visibleNamedGrandchildrenCache := tables.visibleNamedGrandchildrenCache ++
        ((visibleName (withAttribute tables.attrs off attr value) off).map fun name =>
          (name, off)).toList } := by
  have hnew : ∀ name o, (name, o) ∈ tables.visibleNamedGrandchildrenCache → o ≠ off := by
    rintro name o hin rfl
    have hname := nameOf_of_visibleName (h.sound name o hin).2
    rw [hnone] at hname
    exact absurd hname (by simp)
  have hmem : ∀ name o, (name, o) ∈ ((visibleName (withAttribute tables.attrs off attr value) off).map
      fun name => (name, off)).toList ↔
      o = off ∧ visibleName (withAttribute tables.attrs off attr value) off = some name := by
    intro name o
    cases visibleName (withAttribute tables.attrs off attr value) off with
    | none => simp
    | some m =>
      rw [Option.map_some, Option.toList_some, List.mem_singleton, Prod.mk.injEq,
        Option.some.injEq, and_comm, eq_comm (a := name)]
  refine ⟨List.nodup_append'.2 ⟨h.nodup, ?_, ?_⟩, ?_, ?_⟩
  · cases visibleName (withAttribute tables.attrs off attr value) off <;> simp
  · rintro ⟨name, o⟩ hin hentered
    exact hnew name o hin ((hmem name o).1 hentered).1
  · intro name o hin
    rcases List.mem_append.1 hin with hin | hin
    · refine ⟨(h.sound name o hin).1, ?_⟩
      dsimp only
      rw [visibleName_withAttribute_of_ne (hnew name o hin)]
      exact (h.sound name o hin).2
    · obtain ⟨rfl, hname⟩ := (hmem name o).1 hin
      exact ⟨hoff, hname⟩
  · intro hcomplete o ho name hname
    by_cases heq : o = off
    · subst heq
      exact List.mem_append_right _ ((hmem name o).2 ⟨rfl, hname⟩)
    · dsimp only at hname
      rw [visibleName_withAttribute_of_ne heq] at hname
      exact List.mem_append_left _ (h.complete hcomplete o ho name hname)

/-- What is no grandchild can change what it shows. -/
theorem CacheSound.of_attrs {tables : Tables} (h : CacheSound t tables)
    (hsame : ∀ o ∈ grandchildOffsets t, visibleName attrs o = visibleName tables.attrs o) :
    CacheSound t { tables with attrs := attrs } where
  nodup := h.nodup
  sound name off hin := by
    obtain ⟨hoff, hname⟩ := h.sound name off hin
    exact ⟨hoff, (hsame off hoff).trans hname⟩
  complete hcomplete off hoff name hname :=
    h.complete hcomplete off hoff name ((hsame off hoff).symm.trans hname)

theorem enterUnder_eq_ok {name : Option String} {u : Unit}
    (hrun : enterUnder name off r = .ok (u, r')) : r' = { r with tables := { r.tables with
      visibleNamedGrandchildrenCache := r.tables.visibleNamedGrandchildrenCache ++
        (name.map fun name => (name, off)).toList } } := by
  cases name with
  | none =>
    obtain rfl := (Prod.mk.inj (Except.ok.inj hrun)).2
    simp
  | some name =>
    obtain rfl := (Prod.mk.inj (Except.ok.inj hrun)).2
    rfl

/-- What inserting an attribute that a DIE does not have makes of the tables.  A DIE at depth `depth`
enters the cache under a name that shows. -/
def Tables.inserted (tables : Tables) (off depth attr : ℕ) (value : AttributeValue ℕ ℕ) : Tables :=
  { tables with
    attrs := withAttribute tables.attrs off attr value
    visibleNamedGrandchildrenCache := tables.visibleNamedGrandchildrenCache ++
      if attr = dwAtName ∧ depth = 2 then
        ((visibleName (withAttribute tables.attrs off attr value) off).map fun name =>
          (name, off)).toList
      else [] }

/-- **Inserting an attribute** that a DIE in memory does not have. -/
theorem insertAttribute_eq_ok (h : Consistent t r) (hfuel : EnoughFuel t fuel)
    (hvisibility : ConstantVisibility t (withAttribute r.tables.attrs off attr value))
    (hthere : (r.tables.attrs off).find attr = none) {u : Unit}
    (hrun : insertAttribute fuel off attr value r = .ok (u, r')) :
    ∃ x ∈ t, x.offset = off ∧ Consistent t r' ∧
      r'.tables = r.tables.inserted off x.depth attr value := by
  obtain ⟨_, r₀, hreq, hrun⟩ := stateT_bind_eq_ok (stateT_get_bind_eq_ok hrun)
  obtain ⟨hmemory, heq⟩ := require_eq_ok hreq
  rw [heq, if_neg (by rw [hthere]; decide)] at hrun
  obtain ⟨_, r₁, hset, hrun⟩ := stateT_bind_eq_ok hrun
  obtain rfl := (Prod.mk.inj (Except.ok.inj hset)).2
  obtain ⟨d, hd⟩ : ∃ d, r.liveDies off = some d := by
    unfold Root.isInMemory at hmemory
    cases hl : r.liveDies off with
    | none =>
      rw [hl] at hmemory
      exact absurd hmemory (by simp)
    | some d => exact ⟨d, rfl⟩
  obtain ⟨x, hx, rfl, -, -⟩ := h.live off d hd
  refine ⟨x, hx, rfl, ?_⟩
  unfold Tables.inserted
  rw [updateCacheOnInsert] at hrun
  by_cases hattr : attr = dwAtName
  · subst hattr
    rw [if_pos rfl] at hrun
    obtain ⟨found, r₂, hpos, hrun⟩ := stateT_bind_eq_ok hrun
    rw [pos_eq_ite (by simp), if_pos (Option.isSome_iff_exists.2 ⟨d, hd⟩)] at hpos
    obtain ⟨rfl, rfl⟩ := Prod.mk.inj (Except.ok.inj hpos)
    obtain ⟨found, r₃, hdepth, hrun⟩ := stateT_bind_eq_ok hrun
    obtain ⟨hr₃, hmoved, -, hfound, -⟩ := (withDepth_reaches
      (h.withTables { r.tables with
        attrs := withAttribute r.tables.attrs x.offset dwAtName value })
      hx rfl (.inr ⟨rfl, rfl⟩) (hfuel.2 x hx) hfuel.1).unless (c := True) |>.of_eq_ok hdepth
    have htables := hmoved.tables
    dsimp only at htables
    rw [hfound] at hrun
    split_ifs at hrun with hd2
    · obtain ⟨name, r₄, hglobal, hrun⟩ := stateT_bind_eq_ok hrun
      rw [globalNameHere_eq (by rw [htables]; exact hvisibility x hx)] at hglobal
      obtain ⟨rfl, rfl⟩ := Prod.mk.inj (Except.ok.inj hglobal)
      obtain rfl := enterUnder_eq_ok hrun
      refine ⟨hr₃.withTables _, ?_⟩
      rw [htables]
      simp [Option.some.inj hd2]
    · obtain rfl := (Prod.mk.inj (Except.ok.inj hrun)).2
      refine ⟨hr₃, ?_⟩
      rw [htables, if_neg fun hx2 => hd2 (congrArg some hx2.2), List.append_nil]
  · rw [if_neg hattr] at hrun
    obtain rfl := (Prod.mk.inj (Except.ok.inj hrun)).2
    refine ⟨h.withTables _, ?_⟩
    rw [if_neg fun hname => hattr hname.1, List.append_nil]
    rfl

/-- The tables that the insertion leaves have a good cache. -/
theorem CacheSound.inserted {tables : Tables} (h : CacheSound t tables)
    (hsorted : Sorted Node.offset t) (hinsertable : Insertable tables.attrs x.offset attr value)
    (hthere : (tables.attrs x.offset).find attr = none) (hx : x ∈ t) :
    CacheSound t (tables.inserted x.offset x.depth attr value) := by
  unfold Tables.inserted
  by_cases hattr : attr = dwAtName
  · subst hattr
    by_cases hd : x.depth = 2
    · rw [if_pos ⟨rfl, hd⟩]
      refine h.enter dwAtName value ?_ (mem_grandchildOffsets.2 ⟨x, hx, hd, rfl⟩)
      unfold nameOf
      rw [hthere]
    · rw [if_neg fun hname => hd hname.2, List.append_nil]
      refine h.of_attrs fun o ho => visibleName_withAttribute_of_ne ?_
      rintro rfl
      obtain ⟨y, hy, hdy, hyx⟩ := mem_grandchildOffsets.1 ho
      rw [hsorted.eq_of_key_eq hy hx hyx] at hdy
      exact hd hdy
  · rw [if_neg fun hname => hattr hname.1, List.append_nil]
    exact h.of_attrs fun o _ => visibleName_withAttribute hinsertable hattr o

/-- **An attribute inserted in a DIE in memory** leaves the cache good: the DIE enters it under a name
that shows. -/
theorem insertAttribute_searchable (h : Searchable t r) (hfuel : EnoughFuel t fuel)
    (hinsertable : Insertable r.tables.attrs off attr value) {u : Unit}
    (hrun : insertAttribute fuel off attr value r = .ok (u, r')) : Searchable t r' := by
  have hvisibility := constantVisibility_withAttribute h.visibility hinsertable
  cases hthere : (r.tables.attrs off).find attr with
  | none =>
    obtain ⟨x, hx, rfl, hr', htables⟩ :=
      insertAttribute_eq_ok h.consistent hfuel hvisibility hthere hrun
    refine ⟨hr', ?_, ?_⟩
    · rw [htables]
      exact h.cache.inserted h.consistent.wellFormed.sorted hinsertable hthere hx
    · rw [htables]
      exact hvisibility
  | some v =>
    obtain ⟨_, r₀, hreq, hrun⟩ := stateT_bind_eq_ok (stateT_get_bind_eq_ok hrun)
    obtain ⟨-, heq⟩ := require_eq_ok hreq
    rw [heq, if_pos (by rw [hthere]; rfl)] at hrun
    obtain rfl := (Prod.mk.inj (Except.ok.inj hrun)).2
    exact h

end Insertion

section Runs

variable {hasCase : ℕ → Bool}

/-- Runs of searches whose sweeps ask about no DIE that is in the cache, of calls of `make_new`, and of
insertions of attributes. -/
inductive VisibleRun (hasCase : ℕ → Bool) (srk : Srk31 fuel) (t₀ : List Node) (r₀ : Root) :
    List Node → Root → Prop
  | nil : VisibleRun hasCase srk t₀ r₀ t₀ r₀
  | findOne {t : List Node} {r r' : Root} {name : String} {res : Option Iterator}
      (h : VisibleRun hasCase srk t₀ r₀ t r) (fresh : Fresh t r.tables name true)
      (hrun : findVisibleGrandchildNamed fuel srk name r = .ok (res, r')) :
      VisibleRun hasCase srk t₀ r₀ t r'
  | findAll {t : List Node} {r r' : Root} {name : String} {res : List Iterator}
      (h : VisibleRun hasCase srk t₀ r₀ t r) (fresh : Fresh t r.tables name false)
      (hrun : findAllVisibleGrandchildrenNamed fuel srk name r = .ok (res, r')) :
      VisibleRun hasCase srk t₀ r₀ t r'
  | makeNew {t : List Node} {r r' : Root} {x n : Node} (h : VisibleRun hasCase srk t₀ r₀ t r)
      (hcall : Call hasCase fuel t r x n r') :
      VisibleRun hasCase srk t₀ r₀ (withChild t x n) r'
  | insertAttribute {t : List Node} {r r' : Root} {off attr : ℕ} {value : AttributeValue ℕ ℕ}
      {u : Unit} (h : VisibleRun hasCase srk t₀ r₀ t r)
      (insertable : Insertable r.tables.attrs off attr value)
      (hrun : insertAttribute fuel off attr value r = .ok (u, r')) :
      VisibleRun hasCase srk t₀ r₀ t r'

theorem VisibleRun.searchable {t₀ : List Node} {r₀ : Root} (h₀ : Searchable t₀ r₀)
    (hrun : VisibleRun hasCase srk t₀ r₀ t r) (hfuel : EnoughFuel t fuel) : Searchable t r := by
  induction hrun with
  | nil => exact h₀
  | findOne _ fresh hsearch ih =>
    obtain ⟨res, r', hrun, hr', -⟩ := (ih hfuel).findOne srk hfuel _
    obtain ⟨-, rfl⟩ := Prod.mk.inj (Except.ok.inj (hrun.symm.trans hsearch))
    exact hr' fresh
  | findAll _ fresh hsearch ih =>
    obtain ⟨res, r', hrun, hr', -⟩ := (ih hfuel).findAll srk hfuel _
    obtain ⟨-, rfl⟩ := Prod.mk.inj (Except.ok.inj (hrun.symm.trans hsearch))
    exact hr' fresh
  | makeNew _ hcall ih =>
    have hsmaller := hfuel.of_withChild hcall.mem
    exact hcall.searchable (ih hsmaller) hsmaller
  | insertAttribute _ insertable hinsert ih =>
    exact insertAttribute_searchable (ih hfuel) hfuel insertable hinsert

/-- **Searches after a run.**  After any run from a root with an empty cache, of searches whose sweeps
ask about no DIE that is in the cache, of calls of `make_new` and of insertions of
attributes, a search for all answers with each DIE below a unit that shows the name,
once, and with no other; a search for one answers with such a DIE just if there is one. -/
theorem visible_of_run {t₀ : List Node} {r₀ : Root} (h₀ : Consistent t₀ r₀)
    (hcache : r₀.tables.visibleNamedGrandchildrenCache = [])
    (hincomplete : r₀.tables.visibleNamedGrandchildrenIsComplete = false)
    (hvisibility : ConstantVisibility t₀ r₀.tables.attrs)
    (hrun : VisibleRun hasCase srk t₀ r₀ t r) (hfuel : EnoughFuel t fuel) (name : String) :
    (∃ res r', findAllVisibleGrandchildrenNamed fuel srk name r = .ok (res, r') ∧
      (res.map Iterator.offset).Nodup ∧
      ∀ off, off ∈ res.map Iterator.offset ↔ Shows t r.tables.attrs name off) ∧
    ∃ res r', findVisibleGrandchildNamed fuel srk name r = .ok (res, r') ∧
      (∀ it, res = some it → Shows t r.tables.attrs name it.offset) ∧
      (res = none ↔ ∀ off, ¬Shows t r.tables.attrs name off) := by
  have hsound : CacheSound t₀ r₀.tables := by
    refine ⟨?_, ?_, fun hcomplete => ?_⟩
    · rw [hcache]
      exact List.nodup_nil
    · intro n off hin
      rw [hcache] at hin
      exact absurd hin (by simp)
    · rw [hincomplete] at hcomplete
      exact absurd hcomplete (by decide)
  have hsearchable := hrun.searchable ⟨h₀, hsound, hvisibility⟩ hfuel
  obtain ⟨res, r', hall, -, hnodup, hmem⟩ := hsearchable.findAll srk hfuel name
  obtain ⟨res', r'', hone, -, hshows, hnone⟩ := hsearchable.findOne srk hfuel name
  exact ⟨⟨res, r', hall, hnodup, hmem⟩, res', r'', hone, hshows, hnone⟩

end Runs

section Examples

/-- The child of the unit of the small file is named. -/
def namedAttrs (off : ℕ) : AttributeMap :=
  if off = 20 then OrderedMap.empty.insert dwAtName (.string "a") else OrderedMap.empty

/-- A new root of the small file with that name. -/
def namedRoot : Root := Root.make (some (smallFile 11 20)) namedAttrs false

/-- A search for all after another. -/
theorem visible_namedRoot : ∃ found r₁,
    findAllVisibleGrandchildrenNamed 30 (.described 30) "b" namedRoot = .ok (found, r₁) ∧
    ∃ res r', findAllVisibleGrandchildrenNamed 30 (.described 30) "a" r₁ = .ok (res, r') ∧
      (res.map Iterator.offset).Nodup ∧
      ∀ off, off ∈ res.map Iterator.offset ↔ Shows smallTree r₁.tables.attrs "a" off := by
  have hconsistent : Consistent smallTree namedRoot :=
    consistent_make wellFormed_smallTree (by rintro lib ⟨⟩; exact serves_smallFile) file_smallTree
      (by simp) _ _
  have hvisibility : ConstantVisibility smallTree namedRoot.tables.attrs := by
    intro x hx v hv
    have hnone : (namedAttrs x.offset).find dwAtVisibility = none := by
      unfold namedAttrs
      split_ifs <;> rfl
    rw [show namedRoot.tables.attrs = namedAttrs from rfl, hnone] at hv
    exact absurd hv (by simp)
  obtain ⟨found, r₁, hrun⟩ : ∃ found r₁, findAllVisibleGrandchildrenNamed 30 (.described 30) "b"
      namedRoot = .ok (found, r₁) := ⟨_, _, rfl⟩
  refine ⟨found, r₁, hrun, ?_⟩
  exact (visible_of_run hconsistent rfl rfl hvisibility
    (show VisibleRun (fun _ => true) _ _ _ _ _ from
      .findAll .nil (fun _ _ _ _ => List.not_mem_nil) hrun) ⟨by decide, by decide⟩ "a").1

/-- The answers about a file with two DIEs below its unit. -/
def twoNamesFile : Libdwarf where
  child off := if off = 11 then some 20 else none
  siblingof off := if off = 20 then some 30 else none
  offdie off := off = 11 ∨ off = 20 ∨ off = 30
  tag off := if off = 11 then dwTagCompileUnit else 0x24
  cuDieoffset _ := 11
  cuHeaders := [.version4 4 11 100]

/-- Their names. -/
def twoNamesAttrs (off : ℕ) : AttributeMap :=
  if off = 20 then OrderedMap.empty.insert dwAtName (.string "a")
  else if off = 30 then OrderedMap.empty.insert dwAtName (.string "b")
  else OrderedMap.empty

/-- A search for one stops at the first DIE, and a search for all enters it again.  The next search
answers with it twice. -/
theorem findAll_twoNames :
    ((do
        let _ ← findVisibleGrandchildNamed 40 (.described 40) "a"
        let _ ← findAllVisibleGrandchildrenNamed 40 (.described 40) "b"
        findAllVisibleGrandchildrenNamed 40 (.described 40) "a" : RootM (List Iterator))
      (Root.make (some twoNamesFile) twoNamesAttrs false)).map
        (fun res => res.1.map Iterator.offset) = .ok [20, 20] := rfl

end Examples

end Dies
end Dwarfpp
