/-
# The types without a code

A call of `summary_code` returns no code exactly if the type reaches one that has
none by itself (`containmentSummaryCode_eq_none_iff`), along the types whose codes
its code is made from.  `ReachStep` spells these out as the source documents them,
by what the DIEs hold, and `LacksCode` which types the chains end at.  Whatever
calls came before, and so whatever is cached, there is a chain exactly if there is
no code (`summaryCodes_absent_iff`).

A pointer is the one place where the two differ: its code is made from its target's
alone, but it has none if its ultimate pointee is incomplete, which the targets lead
to (`ultimateReached_links`).
-/

import Dwarfpp.Types.SummaryCache

namespace Dwarfpp
namespace Types

open Lib Relation

variable {ι : Type} {g : TypeGraph ι} {fuel : ℕ} {t u : ι}

section Steps

variable (g)

/-- `find_type()` finds the type that the DIE has itself, if it has one. -/
def FindsOwnType : Prop := ∀ t u, (g t).type = some u → (g t).findType = some u

/-- The ultimate pointee of a pointer is found. -/
def HasPointee (t u : ι) : Prop := ∃ fuel, findUltimateReachedType g fuel t = .ok (some u)

/-- The steps by which a type reaches another: to its concrete type or its definition, from a
pointer to its ultimate pointee or its target, and from what contains types or names them to
those of them that hold no address. -/
inductive ReachStep (t : ι) : ι → Prop
  | concrete {u : ι} (hchains : (g t).tag.chains = true) (hconcrete : HasConcrete g t (some u)) :
      ReachStep t u
  | definition {u : ι} (hdecl : (g t).isDeclaration = true)
      (hdefinition : findDefinition g t = some u) : ReachStep t u
  | pointee {u : ι} (haddress : (g t).tag.addressHolding = true) (hpointee : HasPointee g t u) :
      ReachStep t u
  | target {u : ι} (haddress : (g t).tag.addressHolding = true)
      (htarget : (g t).findType = some u) : ReachStep t u
  | member {u : ι} {k : ℕ} {c : DataMember ι} {offset : BitVec 64}
      (hcls : (g t).tag.cls = .withDataMembers) (hdecl : (g t).isDeclaration = false)
      (hmember : (g t).dataMembers[k]? = some c)
      (hoffset : (g t).memberOffset k c = .ok (some offset)) (htype : c.type = some u)
      (hnot : ¬HoldsAddress g u) : ReachStep t u
  | element {u : ι} (htag : (g t).tag = .arrayType) (helement : HasElement g t (some u))
      (hnot : (g u).tag.addressHolding = false) : ReachStep t u
  | result {u : ι} (hcls : (g t).tag.cls = .typeDescribingSubprogram)
      (hresult : (g t).type = some u) (hnot : ¬HoldsAddress g u) : ReachStep t u
  | parameter {u : ι} {fp : FormalParameter ι} (hcls : (g t).tag.cls = .typeDescribingSubprogram)
      (hparameter : fp ∈ (g t).formalParameters) (htype : fp.findType = some u)
      (hnot : ¬HoldsAddress g u) : ReachStep t u
  | enumBase {u : ι} (htag : (g t).tag = .enumerationType)
      (hbase : (g t).enumBaseType = .ok (some u)) : ReachStep t u
  | subrangeBase {u : ι} (htag : (g t).tag = .subrangeType) (hbase : (g t).type = some u) :
      ReachStep t u

/-- The incomplete types: an unspecified type, a declaration whose definition is not found, and an
array whose ultimate element is void. -/
def LacksCode (t : ι) : Prop :=
  (g t).tag = .unspecifiedType ∨ ((g t).isDeclaration = true ∧ findDefinition g t = none) ∨
    ((g t).tag = .arrayType ∧ HasElement g t none)

end Steps

theorem cls_of_isDeclaration (h : (g t).isDeclaration = true) :
    (g t).tag.cls = .withDataMembers := (of_decide_eq_true h).1

/-- A definition that is found is no declaration. -/
theorem isDeclaration_of_findDefinition (h : findDefinition g t = some u) :
    (g u).isDeclaration = false := by
  cases hdecl : (g t).isDeclaration with
  | false =>
    rw [findDefinition, hdecl] at h
    obtain rfl := Option.some.inj h
    exact hdecl
  | true =>
    rw [findDefinition, if_pos hdecl] at h
    cases hname : (g t).name with
    | none =>
      rw [hname] at h
      exact nomatch h
    | some name =>
      simp only [hname] at h
      split_ifs at h
      have hfound := List.find?_some h
      rw [decide_eq_true_eq] at hfound
      exact decide_eq_false fun hu => hfound.2.2 hu.2

/-- A declaration that is left as an ultimate pointee has no definition. -/
theorem findDefinition_eq_none (h : findUltimateReachedType g fuel t = .ok (some u))
    (hdecl : (g u).isDeclaration = true) : findDefinition g u = none := by
  obtain ⟨o, -, h⟩ := bind_eq_ok.1 h
  cases o with
  | none => exact nomatch h
  | some w =>
    have hu : (findDefinition g w).getD w = u := Option.some.inj (Except.ok.inj h)
    cases hw : findDefinition g w with
    | none =>
      rw [hw] at hu
      exact hu ▸ hw
    | some d =>
      rw [hw] at hu
      have hfalse := isDeclaration_of_findDefinition hw
      rw [show d = u from hu, hdecl] at hfalse
      cases hfalse

/-! ### Links and steps -/

/-- A pointer or a reference has the class of a chain that goes no further. -/
theorem addressHolding_iff : (g t).tag.addressHolding = true ↔
    (g t).tag.chains = false ∧ (g t).tag.cls = .typeChain := by
  cases (g t).tag <;> simp [Tag.addressHolding, Tag.chains, Tag.cls]

theorem isDeclaration_of_cls (h : (g t).tag.cls ≠ .withDataMembers) :
    (g t).isDeclaration = false := decide_eq_false fun hdecl => h hdecl.1

theorem tag_of_cls_array : (g t).tag.cls = .array ↔ (g t).tag = .arrayType := by
  cases (g t).tag <;> simp [Tag.cls]

theorem tag_of_cls_unspecified : (g t).tag.cls = .unspecified ↔ (g t).tag = .unspecifiedType := by
  cases (g t).tag <;> simp [Tag.cls]

theorem tag_of_cls_enumeration : (g t).tag.cls = .enumeration ↔ (g t).tag = .enumerationType := by
  cases (g t).tag <;> simp [Tag.cls]

theorem tag_of_cls_subrange : (g t).tag.cls = .subrange ↔ (g t).tag = .subrangeType := by
  cases (g t).tag <;> simp [Tag.cls]

theorem chains_of_cls (h : (g t).tag.cls = .withDataMembers ∨ (g t).tag.cls = .array ∨
    (g t).tag.cls = .typeDescribingSubprogram ∨ (g t).tag.cls = .enumeration ∨
    (g t).tag.cls = .subrange ∨ (g t).tag.cls = .unspecified) : (g t).tag.chains = false := by
  cases htag : (g t).tag <;> simp_all [Tag.cls, Tag.chains]

/-- Every link is a step. -/
theorem CodeLink.reachStep (h : CodeLink g t u) : ReachStep g t u := by
  unfold CodeLink at h
  split_ifs at h with hchains hdecl
  · exact .concrete hchains h
  · exact .definition hdecl h
  · have hdefined := eq_false_of_ne_true hdecl
    split at h
    · exact .enumBase (tag_of_cls_enumeration.1 ‹_›) h
    · exact .subrangeBase (tag_of_cls_subrange.1 ‹_›) h
    · obtain ⟨hmem, hnot⟩ := h
      rcases List.mem_cons.1 hmem with hresult | hmem
      · exact .result ‹_› hresult.symm hnot
      · obtain ⟨fp, hfp, htype⟩ := List.mem_map.1 hmem
        exact .parameter ‹_› hfp htype hnot
    · exact .target (addressHolding_iff.2 ⟨eq_false_of_ne_true hchains, ‹_›⟩) h.2
    · obtain ⟨k, c, offset, hmember, hoffset, htype, hnot⟩ := h
      exact .member ‹_› hdefined hmember hoffset htype hnot
    · exact .element (tag_of_cls_array.1 ‹_›) h.1 h.2
    · exact h.elim

/-- A type without a code by itself is incomplete, or a pointer whose ultimate pointee is. -/
theorem Incomplete.reaches (h : Incomplete g t) :
    ∃ u, ReflTransGen (ReachStep g) t u ∧ LacksCode g u := by
  unfold Incomplete at h
  split_ifs at h with hchains hdecl
  · exact ⟨t, .refl, .inr (.inl ⟨hdecl, h⟩)⟩
  · split at h
    · exact ⟨t, .refl, .inl (tag_of_cls_unspecified.1 ‹_›)⟩
    · obtain ⟨fuel, u, hu, hincomplete⟩ := h
      have haddress := addressHolding_iff.2 ⟨eq_false_of_ne_true hchains, ‹_›⟩
      exact ⟨u, .single (.pointee haddress ⟨fuel, hu⟩),
        .inr (.inl ⟨hincomplete, findDefinition_eq_none hu hincomplete⟩)⟩
    · exact ⟨t, .refl, .inr (.inr ⟨tag_of_cls_array.1 ‹_›, h⟩)⟩
    · exact h.elim

theorem LacksCode.incomplete (h : LacksCode g t) : Incomplete g t := by
  unfold Incomplete
  rcases h with htag | ⟨hdecl, hdefinition⟩ | ⟨htag, helement⟩
  · have hcls := tag_of_cls_unspecified.2 htag
    rw [chains_of_cls (by simp [hcls]), isDeclaration_of_cls (by simp [hcls])]
    simp [hcls]
  · rw [chains_of_cls (.inl (cls_of_isDeclaration hdecl)), hdecl]
    simpa using hdefinition
  · have hcls := tag_of_cls_array.2 htag
    rw [chains_of_cls (by simp [hcls]), isDeclaration_of_cls (by simp [hcls])]
    simpa [hcls] using helement

/-- Every step is a link, except from a pointer to its ultimate pointee, and from a pointer to an
incomplete type. -/
theorem ReachStep.codeLink (h : ReachStep g t u) :
    CodeLink g t u ∨ ((g t).tag.addressHolding = true ∧ (PointsToIncomplete g t ∨
      HasPointee g t u)) := by
  cases h with
  | pointee haddress hpointee => exact .inr ⟨haddress, .inr hpointee⟩
  | target haddress htarget =>
    by_cases hincomplete : PointsToIncomplete g t
    · exact .inr ⟨haddress, .inl hincomplete⟩
    · obtain ⟨hchains, hcls⟩ := addressHolding_iff.1 haddress
      left
      rw [CodeLink, hchains, isDeclaration_of_cls (by simp [hcls])]
      simpa [hcls] using ⟨hincomplete, htarget⟩
  | concrete hchains hconcrete =>
    left
    rw [CodeLink, if_pos hchains]
    exact hconcrete
  | definition hdecl hdefinition =>
    left
    rw [CodeLink, chains_of_cls (.inl (cls_of_isDeclaration hdecl)), hdecl]
    simpa using hdefinition
  | member hcls hdecl hmember hoffset htype hnot =>
    left
    rw [CodeLink, chains_of_cls (.inl hcls), hdecl]
    simpa [hcls] using ⟨_, _, hmember, ⟨_, hoffset⟩, htype, hnot⟩
  | element htag helement hnot =>
    left
    have hcls := tag_of_cls_array.2 htag
    rw [CodeLink, chains_of_cls (by simp [hcls]), isDeclaration_of_cls (by simp [hcls])]
    simpa [hcls] using ⟨helement, hnot⟩
  | result hcls hresult hnot =>
    left
    rw [CodeLink, chains_of_cls (by simp [hcls]), isDeclaration_of_cls (by simp [hcls])]
    simpa [hcls] using ⟨.inl hresult.symm, hnot⟩
  | parameter hcls hparameter htype hnot =>
    left
    rw [CodeLink, chains_of_cls (by simp [hcls]), isDeclaration_of_cls (by simp [hcls])]
    simpa [hcls] using ⟨.inr ⟨_, hparameter, htype⟩, hnot⟩
  | enumBase htag hbase =>
    left
    have hcls := tag_of_cls_enumeration.2 htag
    rw [CodeLink, chains_of_cls (by simp [hcls]), isDeclaration_of_cls (by simp [hcls])]
    simpa [hcls] using hbase
  | subrangeBase htag hbase =>
    left
    have hcls := tag_of_cls_subrange.2 htag
    rw [CodeLink, chains_of_cls (by simp [hcls]), isDeclaration_of_cls (by simp [hcls])]
    simpa [hcls] using hbase

/-! ### Ultimate pointees -/

/-- A link leads to the concrete type of a type that has another. -/
theorem concrete_link (h : getConcreteType g fuel t = .ok (some u)) :
    ReflTransGen (CodeLink g) t u := by
  cases hchains : (g t).tag.chains with
  | true =>
    refine .single ?_
    rw [CodeLink, if_pos hchains]
    exact ⟨fuel, h⟩
  | false =>
    obtain rfl := Option.some.inj (getConcreteType_self hchains h)
    exact .refl

/-- Links lead from a pointer to where its targets end, unless it points to an incomplete type. -/
theorem ultimateReached_links (hown : FindsOwnType g) {w : ι}
    (h : ultimateReachedType g fuel t = .ok (some w))
    (hcomplete : (g ((findDefinition g w).getD w)).isDeclaration = false) :
    ReflTransGen (CodeLink g) t w := by
  induction fuel generalizing t with
  | zero => cases h
  | succ fuel ih =>
    have hpointee : findUltimateReachedType g (fuel + 1) t =
        .ok (some ((findDefinition g w).getD w)) := bind_eq_ok.2 ⟨some w, h, rfl⟩
    rw [ultimateReachedType] at h
    split_ifs at h with haddress
    · obtain ⟨hchains, hcls⟩ := addressHolding_iff.1 haddress
      cases htype : (g t).type with
      | none =>
        rw [htype] at h
        cases h
      | some u =>
        simp only [htype] at h
        obtain ⟨o, ho, h⟩ := bind_eq_ok.1 h
        cases o with
        | none => cases h
        | some next =>
          have hlink : CodeLink g t u := by
            rw [CodeLink, hchains, isDeclaration_of_cls (by simp [hcls])]
            simp only [hcls, Bool.false_eq_true, if_false]
            refine ⟨fun hincomplete => ?_, hown t u htype⟩
            rw [pointsToIncomplete_iff hpointee, Option.any_some, hcomplete] at hincomplete
            cases hincomplete
          exact .head hlink ((concrete_link ho).trans (ih h))
    · obtain rfl := Option.some.inj (Except.ok.inj h)
      exact .refl

/-- **So links lead from a pointer to its ultimate pointee**, too. -/
theorem HasPointee.links (hown : FindsOwnType g) (h : HasPointee g t u)
    (hcomplete : ¬PointsToIncomplete g t) : ReflTransGen (CodeLink g) t u := by
  obtain ⟨fuel, h⟩ := h
  have hdefined : (g u).isDeclaration = false := by
    rw [pointsToIncomplete_iff h] at hcomplete
    exact eq_false_of_ne_true hcomplete
  obtain ⟨o, ho, h⟩ := bind_eq_ok.1 h
  cases o with
  | none => exact nomatch h
  | some w =>
    obtain rfl : (findDefinition g w).getD w = u := Option.some.inj (Except.ok.inj h)
    refine (ultimateReached_links hown ho hdefined).trans ?_
    cases hw : findDefinition g w with
    | none => exact .refl
    | some d =>
      cases hdecl : (g w).isDeclaration with
      | false =>
        rw [findDefinition, hdecl] at hw
        obtain rfl := Option.some.inj hw
        exact .refl
      | true =>
        refine .single ?_
        rw [CodeLink, chains_of_cls (.inl (cls_of_isDeclaration hdecl)), hdecl]
        exact hw

/-- Chains of steps end at an incomplete type exactly if chains of links end at a type without a
code. -/
theorem reaches_lacksCode_iff (hown : FindsOwnType g) :
    (∃ u, ReflTransGen (ReachStep g) t u ∧ LacksCode g u) ↔
      ∃ u, ReflTransGen (CodeLink g) t u ∧ Incomplete g u := by
  constructor
  · rintro ⟨u, hreach, hlacks⟩
    induction hreach using ReflTransGen.head_induction_on with
    | refl => exact ⟨u, .refl, hlacks.incomplete⟩
    | head hstep _ ih =>
      obtain ⟨v, hlinks, hincomplete⟩ := ih
      rcases hstep.codeLink with hlink | ⟨haddress, hpointer⟩
      · exact ⟨v, .head hlink hlinks, hincomplete⟩
      · rename_i t w _
        obtain ⟨hchains, hcls⟩ := addressHolding_iff.1 haddress
        by_cases hpoints : PointsToIncomplete g t
        · refine ⟨t, .refl, ?_⟩
          rw [Incomplete, hchains, isDeclaration_of_cls (by simp [hcls])]
          simpa [hcls] using hpoints
        · exact ⟨v, ((hpointer.resolve_left hpoints).links hown hpoints).trans hlinks, hincomplete⟩
  · rintro ⟨u, hlinks, hincomplete⟩
    obtain ⟨v, hreach, hlacks⟩ := hincomplete.reaches
    exact ⟨v, (hlinks.lift id fun _ _ => CodeLink.reachStep).trans hreach, hlacks⟩

/-! ### Absence -/

variable [DecidableEq ι] {r : SummaryWord}

/-- **A type has no code exactly if links lead to one that has none by itself.** -/
theorem containmentSummaryCode_eq_none_iff (h : containmentSummaryCode g fuel t = .ok r) :
    r = none ↔ ∃ u, ReflTransGen (CodeLink g) t u ∧ Incomplete g u := by
  induction fuel generalizing t r with
  | zero => exact nomatch h
  | succ fuel ih =>
    obtain ⟨s, hsummary, hcode⟩ := bind_eq_ok.1 h
    obtain ⟨hcalls, hincomplete⟩ := containmentSummary_spec hsummary
    have hreturns := (s.code_returns_iff rfl).1 ⟨r, hcode⟩
    rw [Summary.code_eq_none_iff rfl hcode, hincomplete]
    constructor
    · rintro (hself | ⟨u, hu, hnone⟩)
      · exact ⟨t, .refl, hself⟩
      · obtain ⟨v, hlinks, hv⟩ := (ih hnone).1 rfl
        exact ⟨v, .head ((hcalls u).1 hu) hlinks, hv⟩
    · rintro ⟨v, hlinks, hv⟩
      rcases hlinks.cases_head with rfl | ⟨u, hlink, hlinks⟩
      · exact .inl hv
      · have hu := (hcalls u).2 hlink
        obtain ⟨r', hr'⟩ := hreturns u hu
        have hnone : r' = none := (ih hr').2 ⟨v, hlinks, hv⟩
        exact .inr ⟨u, hu, hnone ▸ hr'⟩

/-- **Whatever calls came before, a call returns no code exactly if its type reaches an incomplete
one.** -/
theorem summaryCodes_absent_iff (hown : FindsOwnType g) {ts : List ι} {codes : List SummaryWord}
    {cache : SummaryCache ι}
    (h : ts.mapM (summaryCode g fuel) (fun _ => none) = .ok (codes, cache)) :
    List.Forall₂ (fun t code =>
      code = none ↔ ∃ u, ReflTransGen (ReachStep g) t u ∧ LacksCode g u) ts codes := by
  have hsound := mapM_summaryCode_sound fuel ts _ codes cache soundCache_empty h
  refine hsound.2.imp fun t code hcode => ?_
  obtain ⟨n, hn⟩ := hcode
  rw [containmentSummaryCode_eq_none_iff hn, reaches_lacksCode_iff hown]

/-- A structure that holds a pointer to a declared one. -/
def holdsOpaque : TypeGraph (Fin 3)
  | 0 => { (default : TypeDie (Fin 3)) with
      tag := .structureType, name := some "S"
      dataMembers := [⟨false, some 1, some 1, none, none⟩] }
  | 1 => { (default : TypeDie (Fin 3)) with
      tag := .pointerType, type := some 2, findType := some 2 }
  | 2 => { (default : TypeDie (Fin 3)) with
      tag := .structureType, name := some "opaque", declaration := some true, depth := 2 }

/-- The pointer has no code, the structure that holds it has one. -/
theorem holdsOpaque_absent :
    List.Forall₂ (fun t (code : SummaryWord) => code = none ↔
        ∃ u, ReflTransGen (ReachStep holdsOpaque) t u ∧ LacksCode holdsOpaque u)
      [1, 0] [none, some 0x6c711941] := by
  have hcodes : ([1, 0].mapM (summaryCode holdsOpaque 5) (fun _ => none)).map Prod.fst =
      .ok [none, some 0x6c711941] := by decide +kernel
  cases hrun : [1, 0].mapM (summaryCode holdsOpaque 5) (fun _ => none) with
  | error f =>
    rw [hrun] at hcodes
    exact nomatch hcodes
  | ok found =>
    obtain ⟨codes, cache⟩ := found
    rw [hrun] at hcodes
    obtain rfl := Except.ok.inj hcodes
    exact summaryCodes_absent_iff (by unfold FindsOwnType; decide) hrun

/-- An array whose element is `const void`. -/
def voidArray : TypeGraph (Fin 2)
  | 0 => { (default : TypeDie (Fin 2)) with tag := .arrayType, type := some 1, findType := some 1 }
  | 1 => { (default : TypeDie (Fin 2)) with tag := .constType }

/-- A structure declared before it is defined, with a member of an unspecified type. -/
def declaredFirst : TypeGraph (Fin 3)
  | 0 => { (default : TypeDie (Fin 3)) with
      tag := .structureType, name := some "S", declaration := some true, depth := 2
      laterSiblings := [1] }
  | 1 => { (default : TypeDie (Fin 3)) with
      tag := .structureType, name := some "S", depth := 2
      dataMembers := [⟨false, some 2, some 2, none, none⟩] }
  | 2 => { (default : TypeDie (Fin 3)) with
      tag := .unspecifiedType, name := some "decltype(nullptr)", depth := 2 }

/-- There is no code for the array, with nothing incomplete in its graph, and none for the
declaration, which reaches nothing incomplete but by its definition. -/
theorem voidArray_declaredFirst_absent :
    ((∃ cache, summaryCode voidArray 5 0 (fun _ => none) = .ok (none, cache)) ∧
        ∀ u, (voidArray u).tag ≠ .unspecifiedType ∧ (voidArray u).isDeclaration = false) ∧
      (∃ cache, summaryCode declaredFirst 5 0 (fun _ => none) = .ok (none, cache)) ∧
        ∀ u, ReflTransGen (fun t u => ReachStep declaredFirst t u ∧
            (declaredFirst t).isDeclaration = false) 0 u →
          (declaredFirst u).tag ≠ .unspecifiedType ∧ findDefinition declaredFirst u ≠ none := by
  refine ⟨⟨⟨_, rfl⟩, by decide⟩, ⟨_, rfl⟩, fun u hreach => ?_⟩
  rcases hreach.cases_head with rfl | ⟨v, hstep, -⟩
  · decide
  · cases hstep.2

end Types
end Dwarfpp
