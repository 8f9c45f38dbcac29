/-
# Strong components found

`get_scc` of `src/dies.cpp` keeps its answers with the types, and a later call does not
follow edges to a type that has one.  The types of a component have the same answer
or none, so that no component is cut: every call answers with the edges of the
type's component, or none if the type is on no cycle, whatever the calls before
(`answersRight_iff`).  This takes that the first edges of all types reached are found
and that the types on cycles have abstract names.
-/

import Dwarfpp.Types.AbstractName
import Dwarfpp.Types.SccAssembly

namespace Dwarfpp
namespace Types

open Lib Relation

variable {ι : Type}

section Definitions

variable (g : TypeGraph ι)

/-- An edge leads from one type to another. -/
def Refers (u v : Option ι) : Prop := ∃ e ∈ edgesOf g u, e.target = v

/-- The type is on a cycle. -/
def OnCycle (t : ι) : Prop := TransGen (Refers g) (some t) (some t)

/-- The type reaches another one and is reached by it. -/
def SameComponent (t : ι) (v : Option ι) : Prop :=
  ReflTransGen (Refers g) (some t) v ∧ ReflTransGen (Refers g) v (some t)

/-- An edge of the graph. -/
def IsEdge (x : TypeEdge ι) : Prop := ⟨x.target, x.label⟩ ∈ edgesOf g x.source

/-- What `get_scc` is to answer: nothing for a type on no cycle, and else the edges within the
type's component. -/
def RightAnswer (t : ι) (r : Option (TypeScc ι)) : Prop :=
  (r = none ↔ ¬OnCycle g t) ∧ ∀ scc, r = some scc → ∀ x,
    x ∈ scc.edges ↔ IsEdge g x ∧ SameComponent g t x.source ∧ SameComponent g t x.target

/-- The calls on types that are no declarations have right answers, and the same ones for the types
of one component. -/
def AnswersRight (queries : List ι) (results : List (Option (TypeScc ι))) : Prop :=
  List.Forall₂ (fun t r => (g t).declaration ≠ some true → RightAnswer g t r) queries results ∧
    ∀ p ∈ queries.zip results, ∀ q ∈ queries.zip results, (g p.1).declaration ≠ some true →
      (g q.1).declaration ≠ some true → SameComponent g p.1 (some q.1) → p.2 = q.2

/-- A search from the type fails no assertion, and the types on cycles that it finds have names. -/
def SearchFinds (t : ι) : Prop :=
  FirstEdgesFound g (some t) ∧
    ∀ u, ReflTransGen (Refers g) (some t) (some u) → OnCycle g u →
      ∃ fuel s, abstractName g fuel (some u) = .ok s

variable [LinearOrder ι]

/-- A sequence of calls. -/
def runGetScc (fuel : ℕ) :
    List ι → StateT (SccCache ι) (Except Fault) (List (Option (TypeScc ι)))
  | [] => return []
  | t :: queries => do
    let r ← getScc g fuel t
    let rs ← runGetScc fuel queries
    return r :: rs

end Definitions

section Graph

variable {g : TypeGraph ι} {t u : ι} {v : Option ι}

/-- `void` leads nowhere. -/
theorem eq_none_of_reaches (h : ReflTransGen (Refers g) none v) : v = none := by
  induction h with
  | refl => rfl
  | @tail x y _ hxy ih =>
    subst ih
    obtain ⟨e, he, -⟩ := hxy
    exact absurd he List.not_mem_nil

/-- **A type is on a cycle** if and only if its component has an edge. -/
theorem onCycle_iff : OnCycle g t ↔
    ∃ x, IsEdge g x ∧ SameComponent g t x.source ∧ SameComponent g t x.target := by
  constructor
  · intro h
    obtain ⟨v, ⟨e, he, rfl⟩, hback⟩ := TransGen.head'_iff.1 h
    exact ⟨⟨some t, e.reason, e.target⟩, he, ⟨.refl, .refl⟩, .single ⟨e, he, rfl⟩, hback⟩
  · rintro ⟨x, hedge, ⟨hsource, -⟩, -, htarget⟩
    have hstep : Refers g x.source x.target := ⟨_, hedge, rfl⟩
    exact TransGen.trans_right hsource (TransGen.head' hstep htarget)

theorem SameComponent.symm (h : SameComponent g t (some u)) : SameComponent g u (some t) :=
  ⟨h.2, h.1⟩

theorem SameComponent.trans (h : SameComponent g t (some u)) (h' : SameComponent g u v) :
    SameComponent g t v := ⟨h.1.trans h'.1, h'.2.trans h.2⟩

theorem OnCycle.of_sameComponent (h : OnCycle g t) (htu : SameComponent g t (some u)) :
    OnCycle g u := TransGen.trans_right htu.2 (TransGen.trans_left h htu.1)

/-- Types of one component have the same right answers. -/
theorem RightAnswer.of_sameComponent {r : Option (TypeScc ι)} (h : RightAnswer g t r)
    (htu : SameComponent g t (some u)) : RightAnswer g u r := by
  have hsame : ∀ v, SameComponent g t v ↔ SameComponent g u v := fun v =>
    ⟨fun hv => htu.symm.trans hv, fun hv => htu.trans hv⟩
  obtain ⟨hnone, hedges⟩ := h
  refine ⟨?_, fun scc hscc x => ?_⟩
  · rw [hnone, onCycle_iff, onCycle_iff]
    simp only [hsame]
  · rw [hedges scc hscc x, hsame, hsame]

end Graph

section Cache

variable (g : TypeGraph ι)

/-- The answers kept are right, and those of one component the same. -/
structure CacheRight (cache : SccCache ι) : Prop where
  right : ∀ t r, cache t = some r → RightAnswer g t r
  same : ∀ t u r, cache t = some r → SameComponent g t (some u) → cache u = some r

variable {g} {cache : SccCache ι}

theorem cacheRight_empty : CacheRight g (fun _ => none) :=
  ⟨fun _ _ h => (nomatch h), fun _ _ _ h => (nomatch h)⟩

/-- **The component of a type without an answer has none**, so that the search goes through it. -/
theorem CacheRight.fresh_of_sameComponent (h : CacheRight g cache) {u : ι} {v w : Option ι}
    (hu : cache u = none) (huv : SameComponent g u v) (hvw : ReflTransGen (Refers g) v w)
    (hwu : ReflTransGen (Refers g) w (some u)) :
    ReflTransGen (FreshEdge g fun t => (cache t).isSome) v w := by
  have huncached : ∀ x, SameComponent g u (some x) → cache x = none := by
    intro x hx
    by_contra hsome
    obtain ⟨r, hr⟩ := Option.ne_none_iff_exists'.1 hsome
    rw [h.same x u r hr hx.symm] at hu
    exact Option.some_ne_none r hu
  induction hvw using ReflTransGen.head_induction_on with
  | refl => exact .refl
  | @head x z hxz hzw ih =>
    have huz : SameComponent g u z := ⟨huv.1.tail hxz, hzw.trans hwu⟩
    obtain ⟨e, he, rfl⟩ := hxz
    refine .head (List.mem_map_of_mem (List.mem_filter.2 ⟨he, ?_⟩)) (ih huz)
    cases htarget : e.target with
    | none => rfl
    | some w' =>
      rw [htarget] at huz
      simp [huncached w' huz]

theorem refers_of_freshEdge {cached : ι → Bool} {v w : Option ι} (h : FreshEdge g cached v w) :
    Refers g v w ∧ w.any cached = false := by
  obtain ⟨e, he, rfl⟩ := List.mem_map.1 h
  obtain ⟨hmem, hfresh⟩ := List.mem_filter.1 he
  exact ⟨⟨e, hmem, rfl⟩, by simpa using hfresh⟩

theorem reaches_of_fresh {cached : ι → Bool} {v w : Option ι}
    (h : ReflTransGen (FreshEdge g cached) v w) : ReflTransGen (Refers g) v w :=
  h.lift id fun _ _ hedge => (refers_of_freshEdge hedge).1

theorem installed_eq_none_iff {scc : TypeScc ι} : installed scc = none ↔ ∀ x, x ∉ scc.edges := by
  rw [installed, ← List.eq_nil_iff_forall_not_mem]
  by_cases h : scc.edges = []
  · rw [if_pos h]
    exact iff_of_true rfl h
  · rw [if_neg h]
    exact iff_of_false (Option.some_ne_none _) h

theorem installed_eq_some {scc scc' : TypeScc ι} (h : installed scc = some scc') : scc = scc' := by
  rw [installed] at h
  split_ifs at h
  exact Option.some.inj h

/-- Answers that are kept in the end are right. -/
theorem CacheRight.answersRight (h : CacheRight g cache) {queries : List ι}
    {results : List (Option (TypeScc ι))}
    (hall : List.Forall₂ (fun t r => (g t).declaration ≠ some true → cache t = some r)
      queries results) : AnswersRight g queries results := by
  have hright : List.Forall₂ (fun t r => (g t).declaration ≠ some true → RightAnswer g t r)
      queries results :=
    hall.imp fun t r (hr : (g t).declaration ≠ some true → cache t = some r) hdecl =>
      h.right t r (hr hdecl)
  refine ⟨hright, fun p hp q hq hpd hqd hsame => ?_⟩
  have hkept : ∀ p ∈ queries.zip results, (g p.1).declaration ≠ some true →
      cache p.1 = some p.2 := fun p hp => (List.forall₂_iff_zip.1 hall).2 hp
  have hpr := hkept p hp hpd
  have hqr := hkept q hq hqd
  rw [h.same p.1 q.1 p.2 hpr hsame] at hqr
  exact Option.some.inj hqr

/-- All types that have names have them at one bound of the recursion. -/
theorem exists_names [Fintype ι] (g : TypeGraph ι) : ∃ n, ∃ name : Option ι → String, ∀ fuel, n ≤ fuel →
    ∀ u, (∃ k s, abstractName g k (some u) = .ok s) →
      abstractName g fuel (some u) = .ok (name (some u)) := by
  have hchoice : ∀ u, ∃ k s, (∃ k s, abstractName g k (some u) = .ok s) →
      abstractName g k (some u) = .ok s := by
    intro u
    by_cases h : ∃ k s, abstractName g k (some u) = .ok s
    · obtain ⟨k, s, hs⟩ := h
      exact ⟨k, s, fun _ => hs⟩
    · exact ⟨0, "", fun h' => absurd h' h⟩
  choose k s hs using hchoice
  refine ⟨Finset.univ.sup k, fun v => v.elim "" s, fun fuel hfuel u hu => ?_⟩
  exact abstractName_mono ((Finset.le_sup (Finset.mem_univ u)).trans hfuel) _ _ (hs u hu)

/-- The bound on the steps of a search. -/
theorem enough_steps [Fintype ι] {t : ι} {cached : ι → Bool} {fuel : ℕ}
    (hfuel : 2 * Fintype.card (Option ι) + 1 ≤ fuel) :
    2 * Fintype.card (Option ι) + 2 ≤ fuel + (PathSearch.visit ⟨[], [], []⟩ (some t)
      (freshTargets cached (edgesOf g (some t)))).vertices.length := by
  have hlength : (PathSearch.visit ⟨[], [], []⟩ (some t)
      (freshTargets cached (edgesOf g (some t)))).vertices.length = 1 := rfl
  omega

end Cache

section Components

variable [LinearOrder ι] {components : List (List (Option ι))} {v w : Option ι} {i : ℕ}

theorem componentOf_lt (h : componentOf components v = some i) : i < components.length := by
  induction components with
  | nil => exact nomatch h
  | cons c cs ih =>
    rw [componentOf] at h
    rw [List.length_cons]
    split_ifs at h
    · obtain rfl := Option.some.inj h
      exact Nat.lt_succ_self _
    · exact (ih h).trans (Nat.lt_succ_self _)

/-- **Types are of one component** if and only if they have one number. -/
theorem componentOf_eq_iff (hnodup : components.flatten.Nodup) {c : List (Option ι)}
    (hc : c ∈ components) (hv : v ∈ c) (hi : componentOf components v = some i) :
    componentOf components w = some i ↔ w ∈ c := by
  induction components with
  | nil => exact absurd hc List.not_mem_nil
  | cons d cs ih =>
    obtain ⟨-, hcs, hdisjoint⟩ := List.nodup_append'.1 hnodup
    rw [componentOf] at hi ⊢
    rcases List.mem_cons.1 hc with rfl | hc
    · rw [if_pos hv] at hi
      obtain rfl := Option.some.inj hi
      by_cases hw : w ∈ c
      · rw [if_pos hw]
        exact iff_of_true rfl hw
      · rw [if_neg hw]
        exact iff_of_false (fun h => absurd (componentOf_lt h) (lt_irrefl _)) hw
    · have hoff : ∀ x ∈ c, x ∉ d := fun x hx hxd =>
        hdisjoint hxd (List.mem_flatten.2 ⟨c, hc, hx⟩)
      rw [if_neg (hoff v hv)] at hi
      by_cases hw : w ∈ d
      · rw [if_pos hw]
        refine iff_of_false (fun h => ?_) fun hwc => hoff w hwc hw
        have := componentOf_lt hi
        have := Option.some.inj h
        omega
      · rw [if_neg hw]
        exact ih hcs hc hi

end Components

section Call

variable [LinearOrder ι] {g : TypeGraph ι} {cache : SccCache ι} {t : ι} {b : SccBuilder ι}
  {s : PathSearch (Option ι)}

variable (g cache t) in
/-- A search from a type without an answer is over. -/
structure Searched (b : SccBuilder ι) (s : PathSearch (Option ι)) : Prop where
  done : Done g (fun u => (cache u).isSome) (some t) b s
  answers : CacheRight g cache
  new : cache t = none

/-- What the search has come to. -/
theorem Searched.mem_iff (h : Searched g cache t b s) {v : Option ι} :
    v ∈ s.components.flatten ↔ ReflTransGen (FreshEdge g fun u => (cache u).isSome) (some t) v :=
  h.done.inv.mem_components_iff h.done.path

theorem Searched.nodup (h : Searched g cache t b s) : s.components.flatten.Nodup :=
  (List.nodup_append.1 h.done.inv.nodup).2.1

/-- It has come to types without answers only. -/
theorem Searched.uncached (h : Searched g cache t b s) {u : ι}
    (hu : some u ∈ s.components.flatten) : cache u = none := by
  cases (h.mem_iff.1 hu).cases_tail with
  | inl heq =>
    obtain rfl := Option.some.inj heq
    exact h.new
  | inr hstep =>
    obtain ⟨v, -, hedge⟩ := hstep
    simpa using (refers_of_freshEdge hedge).2

theorem Searched.reaches (h : Searched g cache t b s) {v : Option ι}
    (hv : v ∈ s.components.flatten) : ReflTransGen (Refers g) (some t) v :=
  reaches_of_fresh (h.mem_iff.1 hv)

/-- **Its components are those of the graph.** -/
theorem Searched.mem_component_iff (h : Searched g cache t b s) {c : List (Option ι)}
    (hc : c ∈ s.components) {u : ι} (hu : some u ∈ c) {v : Option ι} :
    v ∈ c ↔ SameComponent g u v := by
  have huncached := h.uncached (List.mem_flatten.2 ⟨c, hc, hu⟩)
  rw [h.done.inv.mem_component_iff hc hu]
  constructor
  · exact fun ⟨huv, hvu⟩ => ⟨reaches_of_fresh huv, reaches_of_fresh hvu⟩
  · rintro ⟨huv, hvu⟩
    exact ⟨h.answers.fresh_of_sameComponent huncached ⟨.refl, .refl⟩ huv hvu,
      h.answers.fresh_of_sameComponent huncached ⟨huv, hvu⟩ hvu .refl⟩

/-- What `void` is in has no edge. -/
theorem Searched.void (h : Searched g cache t b s) {c : List (Option ι)} (hc : c ∈ s.components)
    (hvoid : none ∈ c) {v : Option ι} (hv : v ∈ c) : v = none := by
  cases v with
  | none => rfl
  | some u => exact nomatch eq_none_of_reaches ((h.mem_component_iff hc hv).1 hvoid).2

/-- The component with a type in it. -/
theorem Searched.exists_component (h : Searched g cache t b s) {v : Option ι} {i : ℕ}
    (hi : componentOf s.components v = some i) :
    ∃ c ∈ s.components, v ∈ c ∧ ∀ w, componentOf s.components w = some i ↔ w ∈ c := by
  have hv : v ∈ s.components.flatten := by
    by_contra hnot
    rw [componentOf_eq_none_iff.2 hnot] at hi
    exact nomatch hi
  obtain ⟨c, hc, hvc⟩ := List.mem_flatten.1 hv
  exact ⟨c, hc, hvc, fun w => componentOf_eq_iff h.nodup hc hvc hi⟩

/-- Two ends of an edge in one component are types on cycles. -/
theorem Searched.ends (h : Searched g cache t b s) {x : TypeEdge ι} {i : ℕ} (hedge : IsEdge g x)
    (hsource : componentOf s.components x.source = some i)
    (htarget : componentOf s.components x.target = some i) :
    ∃ u w, x.source = some u ∧ x.target = some w ∧ SameComponent g u (some w) ∧ OnCycle g u := by
  obtain ⟨c, hc, hsourcec, hiff⟩ := h.exists_component hsource
  have htargetc := (hiff _).1 htarget
  obtain ⟨u, hu⟩ : ∃ u, x.source = some u := by
    refine Option.ne_none_iff_exists'.1 fun hnone => ?_
    rw [IsEdge, hnone] at hedge
    exact absurd hedge List.not_mem_nil
  obtain ⟨w, hw⟩ : ∃ w, x.target = some w := by
    refine Option.ne_none_iff_exists'.1 fun hnone => ?_
    have hvoid := h.void hc (hnone ▸ htargetc) hsourcec
    rw [hu] at hvoid
    exact nomatch hvoid
  rw [hu] at hsourcec
  have hsame : SameComponent g u x.target := (h.mem_component_iff hc hsourcec).1 htargetc
  refine ⟨u, w, hu, hw, hw ▸ hsame, onCycle_iff.2 ⟨x, hedge, ?_, hsame⟩⟩
  rw [hu]
  exact ⟨.refl, .refl⟩

variable (g) in
/-- The components have the edges within them. -/
def EdgesAssembled (components : List (List (Option ι))) (sccs : ℕ → TypeScc ι) : Prop :=
  ∀ i x, x ∈ (sccs i).edges ↔ IsEdge g x ∧ componentOf components x.source = some i ∧
    componentOf components x.target = some i

/-- The answers after a search, by the components that it has found. -/
def answersAfter (components : List (List (Option ι))) (sccs : ℕ → TypeScc ι)
    (cache : SccCache ι) : SccCache ι := fun u =>
  match componentOf components (some u) with
  | some i => some (installed (sccs i))
  | none => cache u

theorem answersAfter_of_component {components : List (List (Option ι))} {sccs : ℕ → TypeScc ι}
    {u : ι} {i : ℕ} (h : componentOf components (some u) = some i) :
    answersAfter components sccs cache u = some (installed (sccs i)) := by
  rw [answersAfter, h]

theorem answersAfter_of_none {components : List (List (Option ι))} {sccs : ℕ → TypeScc ι}
    {u : ι} (h : componentOf components (some u) = none) :
    answersAfter components sccs cache u = cache u := by
  rw [answersAfter, h]

/-- **What is installed is right.** -/
theorem Searched.rightAnswer (h : Searched g cache t b s) {sccs : ℕ → TypeScc ι}
    (hedges : EdgesAssembled g s.components sccs) {u : ι} {i : ℕ}
    (hi : componentOf s.components (some u) = some i) : RightAnswer g u (installed (sccs i)) := by
  obtain ⟨c, hc, hu, hiff⟩ := h.exists_component hi
  have hmem : ∀ x, x ∈ (sccs i).edges ↔
      IsEdge g x ∧ SameComponent g u x.source ∧ SameComponent g u x.target := by
    intro x
    rw [hedges, hiff, hiff, h.mem_component_iff hc hu, h.mem_component_iff hc hu]
  constructor
  · rw [installed_eq_none_iff, onCycle_iff]
    simp only [hmem, not_exists]
  · intro scc hscc
    rw [← installed_eq_some hscc]
    exact hmem

/-- A type that has an answer is in none of the components. -/
theorem Searched.componentOf_cached (h : Searched g cache t b s) {u : ι} (hu : cache u ≠ none) :
    componentOf s.components (some u) = none :=
  componentOf_eq_none_iff.2 fun hmem => hu (h.uncached hmem)

/-- **After the search** the answers are right still. -/
theorem Searched.cacheRight (h : Searched g cache t b s) {sccs : ℕ → TypeScc ι}
    (hedges : EdgesAssembled g s.components sccs) :
    CacheRight g (answersAfter s.components sccs cache) := by
  have hsplit : ∀ u, (∃ i, componentOf s.components (some u) = some i) ∨
      componentOf s.components (some u) = none := fun u => by
    cases componentOf s.components (some u) <;> simp
  refine ⟨fun u r hu => ?_, fun u w r hu hsame => ?_⟩
  · rcases hsplit u with ⟨i, hui⟩ | hui
    · rw [answersAfter_of_component hui] at hu
      obtain rfl := Option.some.inj hu
      exact h.rightAnswer hedges hui
    · rw [answersAfter_of_none hui] at hu
      exact h.answers.right u r hu
  · rcases hsplit u with ⟨i, hui⟩ | hui
    · rw [answersAfter_of_component hui] at hu
      obtain ⟨c, hc, hmem, hiff⟩ := h.exists_component hui
      rw [answersAfter_of_component ((hiff _).2 ((h.mem_component_iff hc hmem).2 hsame)), hu]
    · rw [answersAfter_of_none hui] at hu
      have hw : cache w = some r := h.answers.same u w r hu hsame
      rw [answersAfter_of_none (h.componentOf_cached (by rw [hw]; exact Option.some_ne_none _)), hw]

variable (g) in
/-- The types on cycles that a type reaches have these names. -/
def NamesOnCycles (fuel : ℕ) (name : Option ι → String) (t : ι) : Prop :=
  ∀ u, ReflTransGen (Refers g) (some t) (some u) → OnCycle g u →
    abstractName g fuel (some u) = .ok (name (some u))

theorem Searched.componentOf_entry (h : Searched g cache t b s) {m : WithTop ι × ℕ} :
    m ∈ b.componentNumbers.entries ↔ componentOf s.components m.1 = some m.2 := by
  have hkey : offsetKey m.1 = m.1 := by
    obtain ⟨v, i⟩ := m
    cases v <;> rfl
  have hnumber : b.componentNumbers.find m.1 = componentOf s.components m.1 :=
    (congrArg _ hkey).symm.trans (h.done.tables.numbers m.1)
  exact (OrderedMap.mem_entries_iff _).trans ⟨hnumber.symm.trans, hnumber.trans⟩

theorem Searched.mem_innerEdges (h : Searched g cache t b s) {i : ℕ} {es : List (OutgoingEdge ι)}
    {e : OutgoingEdge ι} : e ∈ innerEdges b.componentNumbers i es ↔
      e ∈ es ∧ componentOf s.components e.target = some i := by
  rw [innerEdges, List.mem_filter, decide_eq_true_iff, h.done.tables.numbers]

/-- **The components get their edges.** -/
theorem Searched.assembled (h : Searched g cache t b s) (hfound : FirstEdgesFound g (some t))
    {fuel : ℕ} {name : Option ι → String} (hnames : NamesOnCycles g fuel name t) :
    ∃ sccs, b.componentNumbers.entries.foldlM (addMember g fuel b.componentNumbers)
        (fun _ => ⟨[], some 0⟩) = .ok sccs ∧ EdgesAssembled g s.components sccs := by
  have hreach : ∀ {v i}, componentOf s.components v = some i →
      ReflTransGen (Refers g) (some t) v := by
    intro v i hi
    obtain ⟨c, hc, hv, -⟩ := h.exists_component hi
    exact h.reaches (List.mem_flatten.2 ⟨c, hc, hv⟩)
  have hfirst : ∀ m ∈ b.componentNumbers.entries, HasFirstEdge g m.1 := fun m hm =>
    hfound _ (hreach (h.componentOf_entry.1 hm))
  have hnamed : NamesGiven g fuel name b.componentNumbers b.componentNumbers.entries := by
    intro m hm e he
    obtain ⟨hedge, htarget⟩ := h.mem_innerEdges.1 he
    have hsource := h.componentOf_entry.1 hm
    obtain ⟨u, w, hu, hw, hsame, hcycle⟩ :=
      h.ends (x := ⟨m.1, e.reason, e.target⟩) hedge hsource htarget
    dsimp only at hu hw
    rw [hu] at hsource ⊢
    rw [hw]
    exact ⟨hnames w ((hreach hsource).trans hsame.1) (hcycle.of_sameComponent hsame),
      hnames u (hreach hsource) hcycle⟩
  refine ⟨_, foldlM_addMember hfirst hnamed _, fun i x => ?_⟩
  rw [mem_foldl_memberScc]
  constructor
  · rintro (hx | ⟨m, hm, e, he, rfl⟩)
    · exact absurd hx List.not_mem_nil
    · obtain ⟨hm', hi⟩ := List.mem_filter.1 hm
      obtain rfl := of_decide_eq_true hi
      obtain ⟨hedge, htarget⟩ := h.mem_innerEdges.1 he
      exact ⟨hedge, h.componentOf_entry.1 hm', htarget⟩
  · rintro ⟨hedge, hsource, htarget⟩
    exact .inr ⟨(x.source, i), List.mem_filter.2 ⟨h.componentOf_entry.2 hsource, by simp⟩,
      ⟨x.target, x.label⟩, h.mem_innerEdges.2 ⟨hedge, htarget⟩, rfl⟩

/-- **A call on a type without an answer** gives all types of the components found theirs. -/
theorem getScc_new [Fintype ι] (hcache : CacheRight g cache) (hnew : cache t = none)
    (hdecl : (g t).declaration ≠ some true) (hfound : FirstEdgesFound g (some t)) {fuel : ℕ}
    {name : Option ι → String} (hnames : NamesOnCycles g fuel name t)
    (hfuel : 2 * Fintype.card (Option ι) + 1 ≤ fuel) :
    ∃ r cache', getScc g fuel t cache = .ok (r, cache') ∧ CacheRight g cache' ∧
      cache' t = some r ∧ ∀ u r', cache u = some r' → cache' u = some r' := by
  have hwhite := white_start (g := g) (fun u => (cache u).isSome) t
  obtain ⟨b, s, hrun, hdone⟩ :=
    hwhite.run (fun v hv => hfound v (reaches_of_fresh hv)) (enough_steps hfuel)
  have h : Searched g cache t b s := ⟨hdone, hcache, hnew⟩
  obtain ⟨sccs, hsccs, hedges⟩ := h.assembled hfound hnames
  have hvoid : ∀ i, componentOf s.components none = some i → (sccs i).edges = [] := by
    intro i hi
    refine List.eq_nil_iff_forall_not_mem.2 fun x hx => ?_
    obtain ⟨hedge, hsource, htarget⟩ := (hedges i x).1 hx
    obtain ⟨u, w, hu, -⟩ := h.ends hedge hsource htarget
    obtain ⟨c, hc, hmem, hiff⟩ := h.exists_component hi
    have := h.void hc hmem ((hiff _).1 (hu ▸ hsource))
    exact nomatch this
  have hinstall : (List.range b.componentCount).foldlM (installAll b.componentMembers sccs) cache =
      .ok (answersAfter s.components sccs cache) := by
    rw [h.done.tables.members, foldlM_installAll h.nodup hvoid List.nodup_range
      fun u hu _ => h.uncached hu]
    refine congrArg Except.ok (funext fun u => ?_)
    rw [answersAfter]
    cases hi : componentOf s.components (some u) with
    | none => rfl
    | some i =>
      dsimp only
      rw [if_pos (List.mem_range.2 (h.done.tables.count ▸ componentOf_lt hi))]
  obtain ⟨i, hi⟩ : ∃ i, componentOf s.components (some t) = some i :=
    Option.ne_none_iff_exists'.1 fun hnone =>
      componentOf_eq_none_iff.1 hnone (h.mem_iff.2 .refl)
  refine ⟨installed (sccs i), answersAfter s.components sccs cache, ?_, h.cacheRight hedges,
    answersAfter_of_component hi, fun u r' hu => ?_⟩
  · rw [getScc, hnew]
    dsimp only
    rw [if_neg hdecl, hrun, ok_bind, hsccs, ok_bind, hinstall, ok_bind,
      answersAfter_of_component hi]
    rfl
  · rw [answersAfter_of_none (h.componentOf_cached (by rw [hu]; exact Option.some_ne_none _)), hu]

end Call

section Calls

variable [LinearOrder ι] {g : TypeGraph ι}

/-- No answer is given up. -/
def KeepsAnswers (cache cache' : SccCache ι) : Prop :=
  ∀ u r, cache u = some r → cache' u = some r

variable {fuel : ℕ}

/-- The first call returns if all do. -/
theorem getScc_of_runGetScc {t : ι} {queries : List ι} {cache cache' : SccCache ι}
    {results : List (Option (TypeScc ι))}
    (hrun : runGetScc g fuel (t :: queries) cache = .ok (results, cache')) :
    ∃ r cache₁, getScc g fuel t cache = .ok (r, cache₁) := by
  obtain ⟨⟨r, cache₁⟩, hcall, -⟩ := bind_eq_ok.1 hrun
  exact ⟨r, cache₁, hcall⟩

variable [Fintype ι] {name : Option ι → String}

/-- **One call**, after any that came before. -/
theorem getScc_right
    (hfound : ∀ t, (g t).declaration ≠ some true → FirstEdgesFound g (some t))
    (hnames : ∀ t, (g t).declaration ≠ some true → NamesOnCycles g fuel name t)
    (hfuel : 2 * Fintype.card (Option ι) + 1 ≤ fuel) {cache : SccCache ι}
    (hcache : CacheRight g cache) (t : ι) :
    ∃ r cache', getScc g fuel t cache = .ok (r, cache') ∧ CacheRight g cache' ∧
      KeepsAnswers cache cache' ∧ ((g t).declaration ≠ some true → cache' t = some r) := by
  cases hold : cache t with
  | some r =>
    refine ⟨r, cache, ?_, hcache, fun _ _ h => h, fun _ => hold⟩
    rw [getScc, hold]
  | none =>
    by_cases hdecl : (g t).declaration = some true
    · refine ⟨none, cache, ?_, hcache, fun _ _ h => h, fun h => absurd hdecl h⟩
      rw [getScc, hold]
      exact if_pos hdecl
    · obtain ⟨r, cache', hrun, hright, hstored, hkeeps⟩ :=
        getScc_new hcache hold hdecl (hfound t hdecl) (hnames t hdecl) hfuel
      exact ⟨r, cache', hrun, hright, hkeeps, fun _ => hstored⟩

/-- **A sequence of calls**: in the end all their answers are kept. -/
theorem runGetScc_right
    (hfound : ∀ t, (g t).declaration ≠ some true → FirstEdgesFound g (some t))
    (hnames : ∀ t, (g t).declaration ≠ some true → NamesOnCycles g fuel name t)
    (hfuel : 2 * Fintype.card (Option ι) + 1 ≤ fuel) {cache : SccCache ι}
    (hcache : CacheRight g cache) (queries : List ι) :
    ∃ results cache', runGetScc g fuel queries cache = .ok (results, cache') ∧
      CacheRight g cache' ∧ KeepsAnswers cache cache' ∧
      List.Forall₂ (fun t r => (g t).declaration ≠ some true → cache' t = some r)
        queries results := by
  induction queries generalizing cache with
  | nil => exact ⟨[], cache, rfl, hcache, fun _ _ h => h, .nil⟩
  | cons t queries ih =>
    obtain ⟨r, cache₁, hcall, hright₁, hkeeps₁, hstored⟩ :=
      getScc_right hfound hnames hfuel hcache t
    obtain ⟨rs, cache₂, hcalls, hright₂, hkeeps₂, hall⟩ := ih hright₁
    refine ⟨r :: rs, cache₂, ?_, hright₂, fun u r h => hkeeps₂ u r (hkeeps₁ u r h),
      .cons (fun hdecl => hkeeps₂ t r (hstored hdecl)) hall⟩
    rw [runGetScc]
    exact bind_eq_ok.2 ⟨(r, cache₁), hcall, bind_eq_ok.2 ⟨(rs, cache₂), hcalls, rfl⟩⟩

/-- **A first call that returns** has found the first edges, and names for the types on cycles. -/
theorem searchFinds_of_getScc (hfuel : 2 * Fintype.card (Option ι) + 1 ≤ fuel) {t : ι}
    (hdecl : (g t).declaration ≠ some true) {r : Option (TypeScc ι)} {cache : SccCache ι}
    (hcall : getScc g fuel t (fun _ => none) = .ok (r, cache)) : SearchFinds g t := by
  rw [getScc] at hcall
  dsimp only at hcall
  rw [if_neg hdecl] at hcall
  obtain ⟨b, hrun, hcall⟩ := bind_eq_ok.1 hcall
  obtain ⟨sccs, hsccs, -⟩ := bind_eq_ok.1 hcall
  have hfresh : ∀ {v w}, ReflTransGen (Refers g) v w →
      ReflTransGen (FreshEdge g fun _ => false) v w := by
    refine fun h => h.lift id fun v w hstep => ?_
    obtain ⟨e, he, rfl⟩ := hstep
    exact List.mem_map_of_mem (List.mem_filter.2 ⟨he, by simp⟩)
  have hwhite := white_start (g := g) (fun _ => false) t
  have hfirst := hwhite.of_run
    (fun v hv => .inl (show v = some t by simpa [PathSearch.Visited, PathSearch.visit] using hv))
    (enough_steps hfuel) hrun
  have hfound : FirstEdgesFound g (some t) := fun v hv => hfirst v (hfresh hv)
  obtain ⟨b', s, hrun', hdone⟩ := hwhite.run hfirst (enough_steps hfuel)
  obtain rfl := Except.ok.inj (hrun.symm.trans hrun')
  have h : Searched g (fun _ => none) t b s := ⟨hdone, cacheRight_empty, rfl⟩
  refine ⟨hfound, fun u hu hcycle => ?_⟩
  obtain ⟨v, ⟨e, he, rfl⟩, hback⟩ := TransGen.head'_iff.1 hcycle
  obtain ⟨i, hi⟩ : ∃ i, componentOf s.components (some u) = some i :=
    Option.ne_none_iff_exists'.1 fun hnone =>
      componentOf_eq_none_iff.1 hnone (h.mem_iff.2 (hfresh hu))
  obtain ⟨c, hc, hmem, hiff⟩ := h.exists_component hi
  have htarget : componentOf s.components e.target = some i :=
    (hiff _).2 ((h.mem_component_iff hc hmem).2 ⟨.single ⟨e, he, rfl⟩, hback⟩)
  obtain ⟨s', hs'⟩ := of_foldlM_addMember hsccs (some u, i) (h.componentOf_entry.2 hi) e
    (h.mem_innerEdges.2 ⟨he, htarget⟩)
  exact ⟨fuel, s', hs'⟩

/-- **`get_scc` is right** in every sequence of calls if and only if no type that it comes to fails
the search. -/
theorem answersRight_iff :
    (∃ n, ∀ fuel, n < fuel → ∀ queries, ∃ results cache,
      runGetScc g fuel queries (fun _ => none) = .ok (results, cache) ∧
        AnswersRight g queries results) ↔
      ∀ t, (g t).declaration ≠ some true → SearchFinds g t := by
  constructor
  · rintro ⟨n, hruns⟩ t hdecl
    obtain ⟨results, cache, hrun, -⟩ :=
      hruns (n + 1 + (2 * Fintype.card (Option ι) + 1)) (by omega) [t]
    obtain ⟨r, cache₁, hcall⟩ := getScc_of_runGetScc hrun
    exact searchFinds_of_getScc (by omega) hdecl hcall
  · intro hfinds
    obtain ⟨n, name, hname⟩ := exists_names g
    refine ⟨n + 2 * Fintype.card (Option ι) + 1, fun fuel hfuel queries => ?_⟩
    have hnames : ∀ t, (g t).declaration ≠ some true → NamesOnCycles g fuel name t :=
      fun t hdecl u hu hcycle => hname fuel (by omega) u ((hfinds t hdecl).2 u hu hcycle)
    obtain ⟨results, cache, hrun, hright, -, hall⟩ :=
      runGetScc_right (fun t hdecl => (hfinds t hdecl).1) hnames (by omega) cacheRight_empty queries
    exact ⟨results, cache, hrun, hright.answersRight hall⟩

/-- **A search that comes to a string type fails an assertion.** -/
theorem not_answersRight_stringArray :
    ¬∃ n, ∀ fuel, n < fuel → ∀ queries, ∃ results cache,
      runGetScc stringArray fuel queries (fun _ => none) = .ok (results, cache) ∧
        AnswersRight stringArray queries results := by
  rintro ⟨n, hruns⟩
  obtain ⟨results, cache, hrun, -⟩ :=
    hruns (n + 1 + (2 * Fintype.card (Option (Fin 2)) + 1)) (by omega) [0]
  obtain ⟨r, cache₁, hcall⟩ := getScc_of_runGetScc hrun
  obtain ⟨hfound, -⟩ := searchFinds_of_getScc (by omega) (by decide) hcall
  exact hfound (some 1) (.single ⟨⟨some 1, .type 0⟩, List.mem_singleton_self _, rfl⟩)

end Calls

end Types
end Dwarfpp
