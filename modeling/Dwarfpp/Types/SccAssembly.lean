/-
# Assembling strong components

What `get_scc` makes of the components its search has found (`Types/SccBuilder.lean`):
each type adds the edges that stay in its component, with the abstract names of their
ends, and every component is installed in its types.  Nothing fails if the types have
their first edges found, the ends of these edges have names, and no type of a component
has an answer already.
-/

import Dwarfpp.Types.SccSearch

namespace Dwarfpp
namespace Types

open Lib

variable {ι : Type}

section Assemble

variable {g : TypeGraph ι} {fuel : ℕ} {name : Option ι → String}

theorem outgoingEdges_eq {v : Option ι} (h : HasFirstEdge g v) :
    outgoingEdges g v = .ok (edgesOf g v) := by
  obtain ⟨first, hfirst⟩ := hasFirstEdge_iff.1 h
  rw [edgesOf_eq hfirst, outgoingEdges, hfirst]
  rfl

variable [LinearOrder ι]

/-- The edges that stay in the component `c`. -/
def innerEdges (numbers : OrderedMap (WithTop ι) ℕ) (c : ℕ) (es : List (OutgoingEdge ι)) :
    List (OutgoingEdge ι) :=
  es.filter fun e => numbers.find (offsetKey e.target) = some c

/-- An edge of a component is added, its ends having names. -/
def addInner (name : Option ι → String) (source : Option ι)
    (acc : List (TypeEdge ι) × EdgesSorted) (e : OutgoingEdge ι) :
    List (TypeEdge ι) × EdgesSorted :=
  (acc.1.insert ⟨source, e.reason, e.target⟩, acc.2.insert (toLex (name e.target, name source)) ())

theorem addEdge_inner {numbers : OrderedMap (WithTop ι) ℕ} {c : ℕ}
    {acc : List (TypeEdge ι) × EdgesSorted} {e : OutgoingEdge ι} {u : ι}
    (hinner : numbers.find (offsetKey e.target) = some c) (hreason : ReasonOf g u e.reason) :
    addEdge g fuel numbers c acc e = do
      let targetName ← abstractName g fuel e.target
      let sourceName ← abstractName g fuel (some u)
      return (acc.1.insert ⟨some u, e.reason, e.target⟩,
        acc.2.insert (toLex (targetName, sourceName)) ()) := by
  rw [addEdge, if_pos hinner, hreason.answers.1]
  rfl

theorem addEdge_outer {numbers : OrderedMap (WithTop ι) ℕ} {c : ℕ}
    {acc : List (TypeEdge ι) × EdgesSorted} {e : OutgoingEdge ι}
    (houter : numbers.find (offsetKey e.target) ≠ some c) :
    addEdge g fuel numbers c acc e = .ok acc := if_neg houter

/-- **The edges of a type of a component**, if the ends of those that stay in it have names. -/
theorem foldlM_addEdge {numbers : OrderedMap (WithTop ι) ℕ} {c : ℕ} {u : ι}
    {es : List (OutgoingEdge ι)} (hreason : ∀ e ∈ es, ReasonOf g u e.reason)
    (hname : ∀ e ∈ innerEdges numbers c es, abstractName g fuel e.target = .ok (name e.target) ∧
      abstractName g fuel (some u) = .ok (name (some u)))
    (acc : List (TypeEdge ι) × EdgesSorted) :
    es.foldlM (addEdge g fuel numbers c) acc =
      .ok ((innerEdges numbers c es).foldl (addInner name (some u)) acc) := by
  induction es generalizing acc with
  | nil => rfl
  | cons e es ih =>
    have hrest := ih fun e he => hreason e (List.mem_cons_of_mem _ he)
    rw [List.foldlM_cons]
    by_cases hinner : numbers.find (offsetKey e.target) = some c
    · have hcons : innerEdges numbers c (e :: es) = e :: innerEdges numbers c es :=
        List.filter_cons_of_pos (by simp [hinner])
      rw [hcons] at hname ⊢
      obtain ⟨htarget, hsource⟩ := hname e List.mem_cons_self
      rw [addEdge_inner hinner (hreason e List.mem_cons_self), htarget, hsource]
      exact hrest (fun e he => hname e (List.mem_cons_of_mem _ he)) _
    · have hcons : innerEdges numbers c (e :: es) = innerEdges numbers c es :=
        List.filter_cons_of_neg (by simp [hinner])
      rw [hcons] at hname ⊢
      rw [addEdge_outer hinner]
      exact hrest hname _

/-- **If they are added, they have names.** -/
theorem names_of_foldlM_addEdge {numbers : OrderedMap (WithTop ι) ℕ} {c : ℕ} {u : ι}
    {es : List (OutgoingEdge ι)} (hreason : ∀ e ∈ es, ReasonOf g u e.reason)
    {acc acc' : List (TypeEdge ι) × EdgesSorted}
    (hrun : es.foldlM (addEdge g fuel numbers c) acc = .ok acc') :
    ∀ e ∈ innerEdges numbers c es, ∃ n, abstractName g fuel (some u) = .ok n := by
  induction es generalizing acc with
  | nil => exact fun e he => absurd he List.not_mem_nil
  | cons e es ih =>
    rw [List.foldlM_cons] at hrun
    obtain ⟨acc₁, hfirst, hrun⟩ := bind_eq_ok.1 hrun
    intro e' he'
    rw [innerEdges, List.mem_filter, decide_eq_true_iff] at he'
    obtain ⟨hmem, hinner⟩ := he'
    rcases List.mem_cons.1 hmem with rfl | hmem
    · have hadded := (addEdge_inner hinner (hreason e' List.mem_cons_self)).symm.trans hfirst
      obtain ⟨targetName, -, hadded⟩ := bind_eq_ok.1 hadded
      obtain ⟨n, hn, -⟩ := bind_eq_ok.1 hadded
      exact ⟨n, hn⟩
    · refine ih (fun e he => hreason e (List.mem_cons_of_mem _ he)) hrun e' ?_
      rw [innerEdges, List.mem_filter, decide_eq_true_iff]
      exact ⟨hmem, hinner⟩

/-- The edges added. -/
theorem mem_foldl_addInner {source : Option ι} {es : List (OutgoingEdge ι)}
    {acc : List (TypeEdge ι) × EdgesSorted} {x : TypeEdge ι} :
    x ∈ (es.foldl (addInner name source) acc).1 ↔
      x ∈ acc.1 ∨ ∃ e ∈ es, x = ⟨source, e.reason, e.target⟩ := by
  induction es generalizing acc with
  | nil => simp
  | cons e es ih =>
    rw [List.foldl_cons, ih, addInner, List.mem_insert_iff]
    simp only [List.mem_cons, exists_eq_or_imp]
    tauto

variable (g name) in
/-- What a type adds to its component. -/
def memberScc (numbers : OrderedMap (WithTop ι) ℕ) (c : ℕ) (scc : TypeScc ι) (v : Option ι) :
    TypeScc ι :=
  let acc := (innerEdges numbers c (edgesOf g v)).foldl (addInner name v) (scc.edges, .empty)
  ⟨acc.1, shiftInEdges scc.edgesSummary (acc.2.entries.map (·.1))⟩

variable (g fuel name) in
/-- The ends of the edges within components have names. -/
def NamesGiven (numbers : OrderedMap (WithTop ι) ℕ) (members : List (WithTop ι × ℕ)) : Prop :=
  ∀ m ∈ members, ∀ e ∈ innerEdges numbers m.2 (edgesOf g m.1),
    abstractName g fuel e.target = .ok (name e.target) ∧
      abstractName g fuel m.1 = .ok (name m.1)

theorem addMember_eq {numbers : OrderedMap (WithTop ι) ℕ} {m : WithTop ι × ℕ}
    (hfirst : HasFirstEdge g m.1)
    (hname : ∀ e ∈ innerEdges numbers m.2 (edgesOf g m.1),
      abstractName g fuel e.target = .ok (name e.target) ∧ abstractName g fuel m.1 = .ok (name m.1))
    (sccs : ℕ → TypeScc ι) :
    addMember g fuel numbers sccs m =
      .ok (Function.update sccs m.2 (memberScc g name numbers m.2 (sccs m.2) m.1)) := by
  have hedges : (edgesOf g m.1).foldlM (addEdge g fuel numbers m.2) ((sccs m.2).edges, .empty) =
      .ok ((innerEdges numbers m.2 (edgesOf g m.1)).foldl (addInner name m.1)
        ((sccs m.2).edges, .empty)) := by
    obtain ⟨v, c⟩ := m
    cases v with
    | top => rfl
    | coe u =>
      refine foldlM_addEdge (fun e he => ?_) hname _
      obtain ⟨u', heq, hreason⟩ := reasonOf_mem_edgesOf he
      rwa [← Option.some.inj heq] at hreason
  rw [addMember, outgoingEdges_eq hfirst, ok_bind]
  dsimp only
  rw [hedges]
  rfl

/-- **The components after all types.** -/
theorem foldlM_addMember {numbers : OrderedMap (WithTop ι) ℕ} {members : List (WithTop ι × ℕ)}
    (hfirst : ∀ m ∈ members, HasFirstEdge g m.1)
    (hname : NamesGiven g fuel name numbers members) (sccs : ℕ → TypeScc ι) :
    members.foldlM (addMember g fuel numbers) sccs = .ok fun c =>
      (members.filter fun m => m.2 = c).foldl (fun scc m => memberScc g name numbers c scc m.1)
        (sccs c) := by
  induction members generalizing sccs with
  | nil => rfl
  | cons m members ih =>
    rw [List.foldlM_cons, addMember_eq (hfirst m List.mem_cons_self) (hname m List.mem_cons_self),
      ok_bind, ih (fun m hm => hfirst m (List.mem_cons_of_mem _ hm))
        (fun m hm => hname m (List.mem_cons_of_mem _ hm))]
    refine congrArg Except.ok (funext fun c => ?_)
    by_cases hc : m.2 = c
    · subst hc
      rw [List.filter_cons_of_pos (by simp), List.foldl_cons, Function.update_self]
    · rw [List.filter_cons_of_neg (by simp [hc]), Function.update_of_ne (Ne.symm hc)]

/-- Its edges. -/
theorem mem_foldl_memberScc {numbers : OrderedMap (WithTop ι) ℕ} {c : ℕ}
    {members : List (WithTop ι × ℕ)} {scc : TypeScc ι} {x : TypeEdge ι} :
    x ∈ (members.foldl (fun scc m => memberScc g name numbers c scc m.1) scc).edges ↔
      x ∈ scc.edges ∨ ∃ m ∈ members, ∃ e ∈ innerEdges numbers c (edgesOf g m.1),
        x = ⟨m.1, e.reason, e.target⟩ := by
  induction members generalizing scc with
  | nil => simp
  | cons m members ih =>
    have hmember : x ∈ (memberScc g name numbers c scc m.1).edges ↔ x ∈ scc.edges ∨
        ∃ e ∈ innerEdges numbers c (edgesOf g m.1), x = ⟨m.1, e.reason, e.target⟩ :=
      mem_foldl_addInner
    rw [List.foldl_cons, ih, hmember]
    simp only [List.mem_cons, exists_eq_or_imp, or_assoc]

/-- **If all types are added**, their first edges are found, and the sources of the edges within
components have names. -/
theorem of_foldlM_addMember {numbers : OrderedMap (WithTop ι) ℕ} {members : List (WithTop ι × ℕ)}
    {sccs sccs' : ℕ → TypeScc ι} (hrun : members.foldlM (addMember g fuel numbers) sccs = .ok sccs') :
    ∀ m ∈ members, ∀ e ∈ innerEdges numbers m.2 (edgesOf g m.1),
      ∃ n, abstractName g fuel m.1 = .ok n := by
  induction members generalizing sccs with
  | nil => exact fun m hm => absurd hm List.not_mem_nil
  | cons m members ih =>
    rw [List.foldlM_cons] at hrun
    obtain ⟨sccs₁, hfirst, hrun⟩ := bind_eq_ok.1 hrun
    intro m' hm'
    rcases List.mem_cons.1 hm' with rfl | hm'
    · intro e he
      obtain ⟨edges, hedges, hadded⟩ := bind_eq_ok.1 hfirst
      obtain ⟨acc, hacc, -⟩ := bind_eq_ok.1 hadded
      have hedges' : edges = edgesOf g m'.1 := by
        unfold edgesOf
        rw [hedges]
      subst hedges'
      obtain ⟨v, c⟩ := m'
      cases v with
      | top => exact absurd he List.not_mem_nil
      | coe u =>
        refine names_of_foldlM_addEdge (fun e he => ?_) hacc e he
        obtain ⟨u', heq, hreason⟩ := reasonOf_mem_edgesOf he
        rwa [← Option.some.inj heq] at hreason
    · exact ih hrun m' hm'

end Assemble

section Install

variable {components : List (List (Option ι))}

theorem map_snd_memberEntries :
    ((memberEntries components).map (·.2)).Perm components.flatten := by
  induction components with
  | nil => exact .refl _
  | cons c cs ih =>
    have hmap : (c.map (cs.length, ·)).map (·.2) = c := by
      rw [List.map_map]
      exact List.map_id _
    rw [memberEntries, List.map_append, hmap, List.flatten_cons]
    exact (ih.append_right c).trans List.perm_append_comm

variable [LinearOrder ι]

/-- **The types of a component** have its number. -/
theorem mem_memberEntries_iff (hnodup : components.flatten.Nodup) {i : ℕ} {v : Option ι} :
    (i, v) ∈ memberEntries components ↔ componentOf components v = some i := by
  induction components with
  | nil => simp [memberEntries, componentOf]
  | cons c cs ih =>
    rw [List.flatten_cons] at hnodup
    obtain ⟨-, hcs, hdisjoint⟩ := List.nodup_append'.1 hnodup
    rw [memberEntries, componentOf, List.mem_append, ih hcs, List.mem_map]
    by_cases hv : v ∈ c
    · have hnone : componentOf cs v = none := componentOf_eq_none_iff.2 (hdisjoint hv)
      rw [if_pos hv, hnone]
      constructor
      · rintro (h | ⟨w, -, h⟩)
        · cases h
        · rw [(Prod.mk.inj h).1]
      · intro h
        exact .inr ⟨v, hv, by rw [Option.some.inj h]⟩
    · rw [if_neg hv]
      refine or_iff_left ?_
      rintro ⟨w, hw, h⟩
      exact hv ((Prod.mk.inj h).2 ▸ hw)

/-- What is installed in the types of a component. -/
def installed (scc : TypeScc ι) : Option (TypeScc ι) := if scc.edges = [] then none else some scc

/-- **A component is installed** in its types. -/
theorem foldlM_installIn {scc : TypeScc ι} {vs : List (Option ι)} (hnodup : vs.Nodup)
    (hvoid : none ∈ vs → scc.edges = []) {cache : SccCache ι}
    (hnew : ∀ t, some t ∈ vs → cache t = none) :
    vs.foldlM (installIn scc) cache =
      .ok fun t => if some t ∈ vs then some (installed scc) else cache t := by
  induction vs generalizing cache with
  | nil => rfl
  | cons v vs ih =>
    obtain ⟨hv, hvs⟩ := List.nodup_cons.1 hnodup
    rw [List.foldlM_cons]
    cases v with
    | none =>
      rw [installIn, if_pos (hvoid List.mem_cons_self), ok_bind,
        ih hvs (fun h => absurd h hv) fun t ht => hnew t (List.mem_cons_of_mem _ ht)]
      simp
    | some u =>
      have hstep : installIn scc cache (some u) =
          .ok (Function.update cache u (some (installed scc))) := by
        rw [installIn, installed]
        split_ifs
        · rfl
        · rw [assert_ok (hnew u List.mem_cons_self)]
          rfl
      have hrest : ∀ t, some t ∈ vs → Function.update cache u (some (installed scc)) t = none := by
        intro t ht
        rw [Function.update_of_ne fun h : t = u => hv (h ▸ ht)]
        exact hnew t (List.mem_cons_of_mem _ ht)
      rw [hstep, ok_bind, ih hvs (fun h => hvoid (List.mem_cons_of_mem _ h)) hrest]
      refine congrArg Except.ok (funext fun t => ?_)
      by_cases htu : t = u
      · subst htu
        simp
      · simp [htu]

/-- **All components are installed.** -/
theorem foldlM_installAll (hnodup : components.flatten.Nodup) {sccs : ℕ → TypeScc ι}
    (hvoid : ∀ i, componentOf components none = some i → (sccs i).edges = []) {is : List ℕ}
    (his : is.Nodup) {cache : SccCache ι}
    (hnew : ∀ t, some t ∈ components.flatten → (∃ i ∈ is, componentOf components (some t) = some i) →
      cache t = none) :
    is.foldlM (installAll (memberEntries components) sccs) cache = .ok fun t =>
      match componentOf components (some t) with
      | some i => if i ∈ is then some (installed (sccs i)) else cache t
      | none => cache t := by
  induction is generalizing cache with
  | nil =>
    refine congrArg Except.ok (funext fun t => ?_)
    cases componentOf components (some t) <;> simp
  | cons i is ih =>
    obtain ⟨hi, his⟩ := List.nodup_cons.1 his
    have hmem : ∀ v, v ∈ ((memberEntries components).filter fun m => m.1 = i).map (·.2) ↔
        componentOf components v = some i := by
      intro v
      rw [List.mem_map, ← mem_memberEntries_iff hnodup]
      constructor
      · rintro ⟨⟨j, w⟩, hm, rfl⟩
        rw [List.mem_filter, decide_eq_true_iff] at hm
        obtain ⟨hm, rfl⟩ := hm
        exact hm
      · exact fun h => ⟨(i, v), List.mem_filter.2 ⟨h, by simp⟩, rfl⟩
    have hnodup' : (((memberEntries components).filter fun m => m.1 = i).map (·.2)).Nodup :=
      (map_snd_memberEntries.nodup_iff.2 hnodup).sublist (List.filter_sublist.map _)
    have hflat : ∀ t i, componentOf components (some t) = some i → some t ∈ components.flatten := by
      intro t i h
      by_contra hnot
      rw [componentOf_eq_none_iff.2 hnot] at h
      exact nomatch h
    rw [List.foldlM_cons, installAll, foldlM_installIn hnodup' (fun h => hvoid i ((hmem none).1 h))
      fun t ht => hnew t (hflat t i ((hmem _).1 ht)) ⟨i, List.mem_cons_self, (hmem _).1 ht⟩, ok_bind,
      ih his fun t ht ⟨j, hj, hcomp⟩ => ?_]
    · refine congrArg Except.ok (funext fun t => ?_)
      simp only [hmem]
      cases hcomp : componentOf components (some t) with
      | none => simp
      | some j =>
        by_cases hji : j = i
        · subst hji
          simp [hi]
        · simp [hji]
    · simp only [hmem]
      have hne : componentOf components (some t) ≠ some i := by
        rw [hcomp]
        exact fun h => hi (Option.some.inj h ▸ hj)
      rw [if_neg hne]
      exact hnew t ht ⟨j, List.mem_cons_of_mem _ hj, hcomp⟩

end Install

end Types
end Dwarfpp
