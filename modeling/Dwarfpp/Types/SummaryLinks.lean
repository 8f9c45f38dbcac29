/-
# What a summary code depends on

`CodeLink` says which types' codes a type's code is made from, and `Incomplete`
which types have no code by themselves, both in terms of the DIEs: this is all
that the summary of a type tells about whether its code is found and whether
there is one (`containmentSummary_spec`).
-/

import Dwarfpp.Types.SummaryCode

namespace Dwarfpp
namespace Types

open Lib

variable {ι : Type}

/-! ### The calls of a summary -/

/-- The type whose code is shifted in. -/
def Shift.call : Shift ι → Option ι
  | .code t => t
  | _ => none

/-- The types whose codes a summary asks for. -/
def Summary.calls : Summary ι → List ι
  | .zero | .absent => []
  | .same t => [t]
  | .shifts l => l.filterMap Shift.call

/-- Whether a summary comes to no code whatever the codes it asks for. -/
def Summary.incomplete : Summary ι → Prop
  | .zero | .same _ => False
  | .absent => True
  | .shifts l => .invalid ∈ l

section Calls

variable {rec : Option ι → Except Fault SummaryWord} {word : SummaryWord}

theorem shiftIn_eq_none {arg : BitVec 32} : shiftIn word arg = none ↔ word = none := by
  cases word <;> simp [shiftIn, zeroCheck]

theorem shiftInString_eq_none {s : String} : shiftInString word s = none ↔ word = none := by
  have hfold : ∀ (l : List UInt8) (word : SummaryWord),
      l.foldl (fun val c => shiftIn val ((BitVec.ofNat 8 c.toNat).signExtend 32)) word = none ↔
        word = none := by
    intro l
    induction l with
    | nil => exact fun word => Iff.rfl
    | cons c l ih => exact fun word => (ih _).trans shiftIn_eq_none
  rw [shiftInString, zeroCheck, Option.map_eq_none_iff, hfold]

theorem shiftInOption_eq_none {code : SummaryWord} :
    shiftInOption word code = none ↔ word = none ∨ code = none := by
  cases code with
  | none => exact iff_of_true rfl (.inr rfl)
  | some arg => exact shiftIn_eq_none.trans ⟨.inl, fun h => h.elim id fun h => nomatch h⟩

/-- One shift: it returns if the code it asks for does, and ends without a code if there was none,
or it is that of no code. -/
theorem into_spec (hvoid : rec none = .ok (some 0)) (s : Shift ι) :
    ((∃ r, s.into rec word = .ok r) ↔ ∀ u, s.call = some u → ∃ r, rec (some u) = .ok r) ∧
      ∀ r, s.into rec word = .ok r →
        (r = none ↔ word = none ∨ s = .invalid ∨
          ∃ u, s.call = some u ∧ rec (some u) = .ok none) := by
  cases s with
  | value arg =>
    refine ⟨iff_of_true ⟨_, rfl⟩ fun u hu => (nomatch hu), fun r hr => ?_⟩
    obtain rfl := Except.ok.inj hr
    rw [shiftIn_eq_none]
    simp [Shift.call]
  | string str =>
    refine ⟨iff_of_true ⟨_, rfl⟩ fun u hu => (nomatch hu), fun r hr => ?_⟩
    obtain rfl := Except.ok.inj hr
    rw [shiftInString_eq_none]
    simp [Shift.call]
  | invalid =>
    refine ⟨iff_of_true ⟨_, rfl⟩ fun u hu => (nomatch hu), fun r hr => ?_⟩
    obtain rfl := Except.ok.inj hr
    exact iff_of_true rfl (.inr (.inl rfl))
  | code t =>
    cases t with
    | none =>
      have hinto : (Shift.code none : Shift ι).into rec word = .ok (shiftInOption word (some 0)) := by
        rw [Shift.into, hvoid]
        rfl
      rw [hinto]
      refine ⟨iff_of_true ⟨_, rfl⟩ fun u hu => (nomatch hu), fun r hr => ?_⟩
      obtain rfl := Except.ok.inj hr
      rw [shiftInOption_eq_none]
      simp [Shift.call]
    | some u =>
      cases hu : rec (some u) with
      | error e =>
        have hinto : (Shift.code (some u)).into rec word = .error e := by
          rw [Shift.into, hu]
          rfl
        rw [hinto]
        refine ⟨iff_of_false (fun ⟨r, hr⟩ => nomatch hr) fun h => ?_, fun r hr => (nomatch hr)⟩
        obtain ⟨r, hr⟩ := h u rfl
        rw [hu] at hr
        cases hr
      | ok code =>
        have hinto : (Shift.code (some u)).into rec word = .ok (shiftInOption word code) := by
          rw [Shift.into, hu]
          rfl
        rw [hinto]
        constructor
        · refine iff_of_true ⟨_, rfl⟩ fun v hv => ?_
          obtain rfl := Option.some.inj hv
          exact ⟨code, hu⟩
        · intro r hr
          obtain rfl := Except.ok.inj hr
          rw [shiftInOption_eq_none]
          simp [Shift.call, hu]

/-- The same of a sequence of shifts. -/
theorem foldlM_into_spec (hvoid : rec none = .ok (some 0)) (l : List (Shift ι)) :
    ((∃ r, l.foldlM (Shift.into rec) word = .ok r) ↔
        ∀ u ∈ l.filterMap Shift.call, ∃ r, rec (some u) = .ok r) ∧
      ∀ r, l.foldlM (Shift.into rec) word = .ok r →
        (r = none ↔ word = none ∨ .invalid ∈ l ∨
          ∃ u ∈ l.filterMap Shift.call, rec (some u) = .ok none) := by
  induction l generalizing word with
  | nil =>
    refine ⟨iff_of_true ⟨word, rfl⟩ fun u hu => absurd hu List.not_mem_nil, fun r hr => ?_⟩
    obtain rfl := Except.ok.inj hr
    simp
  | cons s l ih =>
    obtain ⟨hreturns, hnone⟩ := @into_spec ι rec word hvoid s
    constructor
    · constructor
      · rintro ⟨r, h⟩ u hu
        obtain ⟨w, hw, h⟩ := foldlM_cons_eq_ok.1 h
        obtain ⟨s', hs', hcall⟩ := List.mem_filterMap.1 hu
        rcases List.mem_cons.1 hs' with rfl | hs'
        · exact hreturns.1 ⟨w, hw⟩ u hcall
        · exact ih.1.1 ⟨r, h⟩ u (List.mem_filterMap.2 ⟨s', hs', hcall⟩)
      · intro h
        obtain ⟨w, hw⟩ := hreturns.2 fun u hu => h u (List.mem_filterMap.2 ⟨s, .head _, hu⟩)
        have hrest : ∀ u ∈ l.filterMap Shift.call, ∃ r, rec (some u) = .ok r := fun u hu => by
          obtain ⟨s', hs', hcall⟩ := List.mem_filterMap.1 hu
          exact h u (List.mem_filterMap.2 ⟨s', .tail _ hs', hcall⟩)
        obtain ⟨r, hr⟩ := ih.1.2 hrest
        exact ⟨r, foldlM_cons_eq_ok.2 ⟨w, hw, hr⟩⟩
    · intro r h
      obtain ⟨w, hw, h⟩ := foldlM_cons_eq_ok.1 h
      rw [ih.2 r h, hnone w hw]
      simp only [List.mem_filterMap, List.mem_cons]
      constructor
      · rintro ((h | rfl | ⟨u, hu, hr⟩) | h | ⟨u, ⟨s', hs', hu⟩, hr⟩)
        · exact .inl h
        · exact .inr (.inl (.inl rfl))
        · exact .inr (.inr ⟨u, ⟨s, .inl rfl, hu⟩, hr⟩)
        · exact .inr (.inl (.inr h))
        · exact .inr (.inr ⟨u, ⟨s', .inr hs', hu⟩, hr⟩)
      · rintro (h | (rfl | h) | ⟨u, ⟨s', rfl | hs', hu⟩, hr⟩)
        · exact .inl (.inl h)
        · exact .inl (.inr (.inl rfl))
        · exact .inr (.inl h)
        · exact .inl (.inr (.inr ⟨u, hu, hr⟩))
        · exact .inr (.inr ⟨u, ⟨s', hs', hu⟩, hr⟩)

/-- **A summary has its code found if the codes it asks for are found.** -/
theorem Summary.code_returns_iff (hvoid : rec none = .ok (some 0)) (s : Summary ι) :
    (∃ r, s.code rec = .ok r) ↔ ∀ u ∈ s.calls, ∃ r, rec (some u) = .ok r := by
  cases s with
  | zero | absent => exact iff_of_true ⟨_, rfl⟩ fun u hu => absurd hu List.not_mem_nil
  | same t =>
    show (∃ r, rec (some t) = .ok r) ↔ ∀ u ∈ [t], ∃ r, rec (some u) = .ok r
    rw [List.forall_mem_singleton]
  | shifts l => exact (foldlM_into_spec hvoid l).1

/-- **There is no code if the summary is incomplete or there is none for a type it asks for.** -/
theorem Summary.code_eq_none_iff (hvoid : rec none = .ok (some 0)) {s : Summary ι}
    {r : SummaryWord} (h : s.code rec = .ok r) :
    r = none ↔ s.incomplete ∨ ∃ u ∈ s.calls, rec (some u) = .ok none := by
  cases s with
  | zero =>
    obtain rfl := Except.ok.inj h
    simp [Summary.incomplete, Summary.calls]
  | absent =>
    obtain rfl := Except.ok.inj h
    simp [Summary.incomplete]
  | same t =>
    change rec (some t) = .ok r at h
    simp [Summary.incomplete, Summary.calls, h]
  | shifts l =>
    rw [(foldlM_into_spec hvoid l).2 r h]
    simp [Summary.incomplete, Summary.calls]

end Calls

/-! ### A longer recursion -/

section Mono

variable {g : TypeGraph ι} {fuel fuel' : ℕ}

theorem ultimateElementType_mono (h : fuel ≤ fuel') (t : ι) :
    Below (ultimateElementType g fuel t) (ultimateElementType g fuel' t) := by
  induction fuel generalizing fuel' t with
  | zero => exact Below.error _ _
  | succ fuel ih =>
    obtain ⟨fuel', rfl⟩ : ∃ k, fuel' = k + 1 := ⟨fuel' - 1, by omega⟩
    have hle : fuel ≤ fuel' := by omega
    rw [ultimateElementType, ultimateElementType]
    split_ifs
    · cases (g t).type with
      | none => exact Below.refl _
      | some el =>
        refine (getConcreteType_mono hle el).bind fun o => ?_
        cases o with
        | none => exact Below.refl _
        | some next => exact ih hle next
    · exact Below.refl _

theorem ultimateElementCount_mono (h : fuel ≤ fuel') (count : ℕ) (t : ι) :
    Below (ultimateElementCount g fuel count t) (ultimateElementCount g fuel' count t) := by
  induction fuel generalizing fuel' count t with
  | zero => exact Below.error _ _
  | succ fuel ih =>
    obtain ⟨fuel', rfl⟩ : ∃ k, fuel' = k + 1 := ⟨fuel' - 1, by omega⟩
    have hle : fuel ≤ fuel' := by omega
    rw [ultimateElementCount, ultimateElementCount]
    split_ifs
    · refine (Below.refl _).bind fun o => ?_
      cases o with
      | none => exact Below.refl _
      | some n =>
        cases (g t).type with
        | none => exact Below.refl _
        | some el =>
          refine (getConcreteType_mono hle el).bind fun o => ?_
          cases o with
          | none => exact Below.refl _
          | some next => exact ih hle _ next
    · exact Below.refl _

theorem ultimateReachedType_mono (h : fuel ≤ fuel') (t : ι) :
    Below (ultimateReachedType g fuel t) (ultimateReachedType g fuel' t) := by
  induction fuel generalizing fuel' t with
  | zero => exact Below.error _ _
  | succ fuel ih =>
    obtain ⟨fuel', rfl⟩ : ∃ k, fuel' = k + 1 := ⟨fuel' - 1, by omega⟩
    have hle : fuel ≤ fuel' := by omega
    rw [ultimateReachedType, ultimateReachedType]
    split_ifs
    · cases (g t).type with
      | none => exact Below.refl _
      | some u =>
        refine (getConcreteType_mono hle u).bind fun o => ?_
        cases o with
        | none => exact Below.refl _
        | some next => exact ih hle next
    · exact Below.refl _

theorem findUltimateReachedType_mono (h : fuel ≤ fuel') (t : ι) :
    Below (findUltimateReachedType g fuel t) (findUltimateReachedType g fuel' t) :=
  (ultimateReachedType_mono h t).bind fun _ => Below.refl _

theorem incorporateType_mono (h : fuel ≤ fuel') (o : Option ι) :
    Below (incorporateType g fuel o) (incorporateType g fuel' o) := by
  cases o with
  | none => exact Below.refl _
  | some t =>
    refine (getConcreteType_mono h t).bind fun c => ?_
    cases c with
    | none => exact Below.refl _
    | some c =>
      dsimp only
      split_ifs
      · exact (abstractName_mono h _).bind fun _ => Below.refl _
      · exact Below.refl _

theorem elementShift_mono (h : fuel ≤ fuel') (o : Option ι) :
    Below (elementShift g fuel o) (elementShift g fuel' o) := by
  cases o with
  | none => exact Below.refl _
  | some el =>
    rw [elementShift, elementShift]
    split_ifs
    · exact (abstractName_mono h _).bind fun _ => Below.refl _
    · exact Below.refl _

theorem memberShifts_mono (h : fuel ≤ fuel') (d : TypeDie ι) (k : ℕ) (c : DataMember ι) :
    Below (memberShifts g fuel d k c) (memberShifts g fuel' d k c) := by
  refine (Below.refl _).bind fun o => ?_
  cases o with
  | none => exact Below.refl _
  | some offset =>
    cases c.type with
    | none => exact Below.refl _
    | some u => exact (incorporateType_mono h (some u)).bind fun _ => Below.refl _

theorem concreteSummary_mono (h : fuel ≤ fuel') (t : ι) :
    Below (concreteSummary g fuel t) (concreteSummary g fuel' t) := by
  unfold concreteSummary
  cases (g t).tag.cls with
  | base | enumeration | subrange | string | unspecified | typedef | ptrToMember =>
    exact Below.refl _
  | typeDescribingSubprogram =>
    refine (incorporateType_mono h _).bind fun _ => ?_
    exact (Below.mapM (fun fp => incorporateType_mono h _) _).bind fun _ => Below.refl _
  | typeChain => exact (findUltimateReachedType_mono h t).bind fun _ => Below.refl _
  | withDataMembers =>
    exact (Below.mapM (fun x => memberShifts_mono h _ _ _) _).bind fun _ => Below.refl _
  | array =>
    refine (ultimateElementType_mono h t).bind fun o => ?_
    refine (ultimateElementCount_mono h 1 t).bind fun _ => ?_
    exact (elementShift_mono h o).bind fun _ => Below.refl _

variable [DecidableEq ι]

theorem containmentSummary_mono (h : fuel ≤ fuel') (t : ι) :
    Below (containmentSummary g fuel t) (containmentSummary g fuel' t) := by
  refine (getConcreteType_mono h t).bind fun o => ?_
  cases o with
  | none => exact Below.refl _
  | some concrete =>
    dsimp only
    split_ifs
    · exact Below.refl _
    · exact Below.refl _
    · exact concreteSummary_mono h t

end Mono

/-! ### The links -/

section Links

variable (g : TypeGraph ι)

/-- The concrete type of a type is found. -/
def HasConcrete (t : ι) (o : Option ι) : Prop := ∃ fuel, getConcreteType g fuel t = .ok o

/-- A type's concrete type is a pointer or a reference. -/
def HoldsAddress (t : ι) : Prop := ∃ c, HasConcrete g t (some c) ∧ (g c).tag.addressHolding = true

/-- A pointer's ultimate pointee is a declaration, also after a definition was looked for. -/
def PointsToIncomplete (t : ι) : Prop :=
  ∃ fuel u, findUltimateReachedType g fuel t = .ok (some u) ∧ (g u).isDeclaration = true

/-- The ultimate element type of an array is found. -/
def HasElement (t : ι) (o : Option ι) : Prop := ∃ fuel, ultimateElementType g fuel t = .ok o

/-- The types whose codes a type's code is made from: its concrete type, the definition of a
declaration, the base type of an enumeration or a subrange, and where they hold no address, the
types of members with an offset, of array elements, of parameters and of results; and the target
of a pointer that does not point to an incomplete type. -/
def CodeLink (t u : ι) : Prop :=
  if (g t).tag.chains then HasConcrete g t (some u)
  else if (g t).isDeclaration then findDefinition g t = some u
  else
    match (g t).tag.cls with
    | .enumeration => (g t).enumBaseType = .ok (some u)
    | .subrange => (g t).type = some u
    | .typeDescribingSubprogram =>
      some u ∈ (g t).type :: (g t).formalParameters.map (·.findType) ∧ ¬HoldsAddress g u
    | .typeChain => ¬PointsToIncomplete g t ∧ (g t).findType = some u
    | .withDataMembers =>
      ∃ k c offset, (g t).dataMembers[k]? = some c ∧ (g t).memberOffset k c = .ok (some offset) ∧
        c.type = some u ∧ ¬HoldsAddress g u
    | .array => HasElement g t (some u) ∧ (g u).tag.addressHolding = false
    | _ => False

/-- The types that have no code by themselves: an unspecified type, a declaration without a
definition, a pointer to one, and an array without an element type. -/
def Incomplete (t : ι) : Prop :=
  if (g t).tag.chains then False
  else if (g t).isDeclaration then findDefinition g t = none
  else
    match (g t).tag.cls with
    | .unspecified => True
    | .typeChain => PointsToIncomplete g t
    | .array => HasElement g t none
    | _ => False

end Links

section Found

variable {g : TypeGraph ι} {fuel : ℕ} {t : ι}

/-- What is found with some number of steps and with another is the same. -/
theorem found_unique {α : Type} {f : ℕ → Except Fault α}
    (hmono : ∀ n m, n ≤ m → Below (f n) (f m)) {n m : ℕ} {a b : α} (ha : f n = .ok a)
    (hb : f m = .ok b) : a = b := by
  rcases Nat.le_total n m with hle | hle
  · exact Except.ok.inj ((hmono n m hle a ha).symm.trans hb)
  · exact Except.ok.inj (ha.symm.trans (hmono m n hle b hb))

theorem HasConcrete.unique {o o' : Option ι} (h : HasConcrete g t o) (h' : HasConcrete g t o') :
    o = o' := by
  obtain ⟨n, hn⟩ := h
  obtain ⟨m, hm⟩ := h'
  exact found_unique (fun _ _ hle => getConcreteType_mono hle t) hn hm

theorem hasElement_iff {o o' : Option ι} (h : ultimateElementType g fuel t = .ok o) :
    HasElement g t o' ↔ o = o' := by
  constructor
  · rintro ⟨m, hm⟩
    exact found_unique (fun _ _ hle => ultimateElementType_mono hle t) h hm
  · rintro rfl
    exact ⟨fuel, h⟩

theorem pointsToIncomplete_iff {o : Option ι} (h : findUltimateReachedType g fuel t = .ok o) :
    PointsToIncomplete g t ↔ (o.any fun u => (g u).isDeclaration) = true := by
  rw [Option.any_eq_true]
  constructor
  · rintro ⟨m, u, hm, hu⟩
    obtain rfl := found_unique (fun _ _ hle => findUltimateReachedType_mono hle t) h hm
    exact ⟨u, rfl, hu⟩
  · rintro ⟨u, rfl, hu⟩
    exact ⟨fuel, u, h, hu⟩

theorem holdsAddress_iff {o : Option ι} (h : getConcreteType g fuel t = .ok o) :
    HoldsAddress g t ↔ ∃ c, o = some c ∧ (g c).tag.addressHolding = true := by
  constructor
  · rintro ⟨c, hc, haddress⟩
    exact ⟨c, HasConcrete.unique ⟨fuel, h⟩ hc, haddress⟩
  · rintro ⟨c, rfl, haddress⟩
    exact ⟨c, ⟨fuel, h⟩, haddress⟩

/-- A type is incorporated by its code unless it holds an address. -/
theorem incorporateType_spec {o : Option ι} {s : Shift ι} (h : incorporateType g fuel o = .ok s) :
    s ≠ .invalid ∧ ∀ u, s.call = some u ↔ o = some u ∧ ¬HoldsAddress g u := by
  cases o with
  | none =>
    obtain rfl := Except.ok.inj h
    exact ⟨nofun, fun u => iff_of_false nofun fun hu => nomatch hu.1⟩
  | some t =>
    obtain ⟨c, hc, h⟩ := bind_eq_ok.1 h
    have hself : ¬HoldsAddress g t → (Shift.code (some t)) ≠ .invalid ∧
        ∀ u, (Shift.code (some t)).call = some u ↔ some t = some u ∧ ¬HoldsAddress g u := by
      refine fun hnot => ⟨nofun, fun u => ⟨fun hu => ⟨hu, ?_⟩, fun hu => hu.1⟩⟩
      obtain rfl := Option.some.inj hu
      exact hnot
    cases c with
    | none =>
      obtain rfl := Except.ok.inj h
      exact hself fun hholds => by
        obtain ⟨c, hsome, -⟩ := (holdsAddress_iff hc).1 hholds
        cases hsome
    | some c =>
      dsimp only at h
      split_ifs at h with haddress
      · obtain ⟨name, -, h⟩ := bind_eq_ok.1 h
        obtain rfl := Except.ok.inj h
        refine ⟨nofun, fun u => iff_of_false nofun ?_⟩
        rintro ⟨hu, hnot⟩
        obtain rfl := Option.some.inj hu
        exact hnot ((holdsAddress_iff hc).2 ⟨c, rfl, haddress⟩)
      · obtain rfl := Except.ok.inj h
        exact hself fun hholds => by
          obtain ⟨c', hsome, haddress'⟩ := (holdsAddress_iff hc).1 hholds
          obtain rfl := Option.some.inj hsome
          exact haddress haddress'

/-- The element of an array, too, and there is no code without an element type. -/
theorem elementShift_spec {o : Option ι} {s : Shift ι} (h : elementShift g fuel o = .ok s) :
    (s = .invalid ↔ o = none) ∧
      ∀ u, s.call = some u ↔ o = some u ∧ (g u).tag.addressHolding = false := by
  cases o with
  | none =>
    obtain rfl := Except.ok.inj h
    exact ⟨iff_of_true rfl rfl, fun u => iff_of_false nofun fun hu => nomatch hu.1⟩
  | some el =>
    rw [elementShift] at h
    split_ifs at h with haddress
    · obtain ⟨name, -, h⟩ := bind_eq_ok.1 h
      obtain rfl := Except.ok.inj h
      refine ⟨iff_of_false nofun nofun, fun u => iff_of_false nofun ?_⟩
      rintro ⟨hu, hnot⟩
      obtain rfl := Option.some.inj hu
      rw [haddress] at hnot
      cases hnot
    · obtain rfl := Except.ok.inj h
      refine ⟨iff_of_false nofun nofun, fun u => ⟨fun hu => ⟨hu, ?_⟩, fun hu => hu.1⟩⟩
      obtain rfl := Option.some.inj hu
      exact eq_false_of_ne_true haddress

/-- A data member is incorporated if it has an offset. -/
theorem memberShifts_spec {d : TypeDie ι} {k : ℕ} {c : DataMember ι} {l : List (Shift ι)}
    (h : memberShifts g fuel d k c = .ok l) :
    .invalid ∉ l ∧ ∀ u, (∃ s ∈ l, s.call = some u) ↔
      ∃ offset, d.memberOffset k c = .ok (some offset) ∧ c.type = some u ∧ ¬HoldsAddress g u := by
  obtain ⟨o, ho, h⟩ := bind_eq_ok.1 h
  cases o with
  | none =>
    obtain rfl := Except.ok.inj h
    refine ⟨List.not_mem_nil, fun u => iff_of_false ?_ ?_⟩
    · rintro ⟨s, hs, -⟩
      exact List.not_mem_nil hs
    · rintro ⟨offset, hoffset, -⟩
      rw [ho] at hoffset
      cases hoffset
  | some offset =>
    cases htype : c.type with
    | none =>
      rw [htype] at h
      exact nomatch h
    | some u =>
      simp only [htype] at h
      obtain ⟨s, hs, h⟩ := bind_eq_ok.1 h
      obtain rfl := Except.ok.inj h
      obtain ⟨hinvalid, hcall⟩ := incorporateType_spec hs
      refine ⟨fun hmem => ?_, fun v => ?_⟩
      · rcases List.mem_cons.1 hmem with heq | hmem
        · cases heq
        · exact hinvalid (List.mem_singleton.1 hmem).symm
      · rw [← htype] at hcall ⊢
        constructor
        · rintro ⟨s', hs', hv⟩
          rcases List.mem_cons.1 hs' with rfl | hs'
          · cases hv
          · obtain rfl := List.mem_singleton.1 hs'
            exact ⟨offset, ho, (hcall v).1 hv⟩
        · rintro ⟨-, -, hv⟩
          exact ⟨s, List.mem_cons_of_mem _ List.mem_cons_self, (hcall v).2 hv⟩

/-- Enumerators ask for no code. -/
theorem enumeratorShifts_spec {last : BitVec 32} {es : List Enumerator} {l : List (Shift ι)}
    (h : enumeratorShifts last es = .ok l) : .invalid ∉ l ∧ ∀ s ∈ l, s.call = none := by
  induction es generalizing last l with
  | nil =>
    obtain rfl := Except.ok.inj h
    exact ⟨List.not_mem_nil, fun s hs => absurd hs List.not_mem_nil⟩
  | cons e es ih =>
    have hcons : ∀ {name : String} {v last : BitVec 32} {l : List (Shift ι)},
        (do let rest ← enumeratorShifts last es; return .string name :: .value v :: rest) =
          Except.ok l → .invalid ∉ l ∧ ∀ s ∈ l, s.call = none := by
      intro name v last l h
      obtain ⟨rest, hrest, h⟩ := bind_eq_ok.1 h
      obtain rfl := Except.ok.inj h
      obtain ⟨hinvalid, hcall⟩ := ih hrest
      simp only [List.mem_cons, reduceCtorEq, false_or]
      refine ⟨hinvalid, fun s hs => ?_⟩
      rcases hs with rfl | rfl | hs
      · rfl
      · rfl
      · exact hcall s hs
    rw [enumeratorShifts] at h
    obtain ⟨name, -, h⟩ := bind_eq_ok.1 h
    cases hv : e.constValue with
    | some v =>
      rw [hv] at h
      exact hcons h
    | none =>
      rw [hv] at h
      dsimp only at h
      split_ifs at h
      · cases h
      · exact hcons h

/-- A summary of shifts asks for the codes of its shifts, and is incomplete with an invalid one. -/
theorem shifts_spec {l : List (Shift ι)} {p : ι → Prop} {q : Prop}
    (hcall : ∀ u, (∃ s ∈ l, s.call = some u) ↔ p u) (hinvalid : .invalid ∈ l ↔ q) :
    (∀ u, u ∈ (Summary.shifts l).calls ↔ p u) ∧ ((Summary.shifts l).incomplete ↔ q) :=
  ⟨fun u => List.mem_filterMap.trans (hcall u), hinvalid⟩

/-- What the links say of a concrete type that is no declaration. -/
theorem concreteSummary_spec (hchains : (g t).tag.chains = false)
    (hdecl : (g t).isDeclaration = false) {s : Summary ι}
    (h : concreteSummary g fuel t = .ok s) :
    (∀ u, u ∈ s.calls ↔ CodeLink g t u) ∧ (s.incomplete ↔ Incomplete g t) := by
  unfold CodeLink Incomplete
  simp only [hchains, hdecl, Bool.false_eq_true, if_false]
  cases hcls : (g t).tag.cls <;> simp only [concreteSummary, hcls] at h
  case base =>
    obtain ⟨-, -, h⟩ := bind_eq_ok.1 h
    obtain rfl := Except.ok.inj h
    refine shifts_spec (fun u => ?_) ?_
    · simp [Shift.call, Shift.nat]
    · simp [Shift.nat]
  case unspecified =>
    obtain rfl := Except.ok.inj h
    exact ⟨fun u => iff_of_false List.not_mem_nil id, iff_of_true trivial trivial⟩
  case string =>
    have hlength : ∀ {o : Except Fault ℕ},
        (do let n ← o; return Summary.shifts [.nat Tag.stringType.value, .nat n]) = .ok s →
          (∀ u, u ∈ s.calls ↔ False) ∧ (s.incomplete ↔ False) := by
      intro o ho
      obtain ⟨n, -, ho⟩ := bind_eq_ok.1 ho
      obtain rfl := Except.ok.inj ho
      refine shifts_spec (fun u => ?_) ?_
      · simp [Shift.call, Shift.nat]
      · simp [Shift.nat]
    cases hlen : (g t).stringLength <;> simp only [hlen] at h
    · cases hfixed : (g t).fixedLengthInBytes <;> simp only [hfixed] at h
      · exact hlength h
      · exact hlength h
    · exact hlength h
  case typedef | ptrToMember => exact nomatch h
  case subrange =>
    obtain rfl := Except.ok.inj h
    refine shifts_spec (fun u => ?_) ?_
    · simp [Shift.call, Shift.nat, or_and_right, exists_or]
    · simp [Shift.nat]
  case enumeration =>
    obtain ⟨es, hes, h⟩ := bind_eq_ok.1 h
    obtain ⟨base, hbase, h⟩ := bind_eq_ok.1 h
    obtain rfl := Except.ok.inj h
    obtain ⟨hinvalid, hcall⟩ := enumeratorShifts_spec hes
    refine shifts_spec (fun u => ?_) ?_
    · have hno : ¬∃ s ∈ es, s.call = some u := fun ⟨s, hs, hu⟩ => by
        rw [hcall s hs] at hu
        cases hu
      simp only [List.mem_cons, List.mem_append, or_and_right, exists_or, hno, false_or,
        exists_eq_left]
      simp [Shift.call, hbase]
    · simp [hinvalid]
  case typeDescribingSubprogram =>
    obtain ⟨result, hresult, h⟩ := bind_eq_ok.1 h
    obtain ⟨arguments, harguments, h⟩ := bind_eq_ok.1 h
    obtain rfl := Except.ok.inj h
    obtain ⟨hinvalid, hcall⟩ := incorporateType_spec hresult
    have hargs := @mem_mapM_iff _ _ _ _ _ _ harguments
    refine shifts_spec (fun u => ?_) ?_
    · have hdots : ¬∃ s ∈ (if (g t).isVariadic then [Shift.string "..."] else []),
          s.call = some u := by
        split_ifs <;> simp [Shift.call]
      have harg : (∃ s ∈ arguments, s.call = some u) ↔
          ∃ fp ∈ (g t).formalParameters, fp.findType = some u ∧ ¬HoldsAddress g u := by
        constructor
        · rintro ⟨s, hs, hu⟩
          obtain ⟨fp, hfp, hs⟩ := hargs.1 hs
          exact ⟨fp, hfp, ((incorporateType_spec hs).2 u).1 hu⟩
        · rintro ⟨fp, hfp, hu⟩
          obtain ⟨s, hs⟩ := mapM_returns_iff.1 ⟨_, harguments⟩ fp hfp
          exact ⟨s, hargs.2 ⟨fp, hfp, hs⟩, ((incorporateType_spec hs).2 u).2 hu⟩
      simp only [List.mem_cons, List.mem_append, or_and_right, exists_or, hdots, or_false,
        exists_eq_left, harg, hcall]
      simp only [Shift.call, reduceCtorEq, false_or, List.mem_map]
      tauto
    · simp only [List.mem_cons, List.mem_append, hinvalid.symm, reduceCtorEq, false_or]
      refine iff_of_false (fun hmem => ?_) id
      rcases hmem with hmem | hmem
      · obtain ⟨fp, -, hs⟩ := hargs.1 hmem
        exact (incorporateType_spec hs).1 rfl
      · split_ifs at hmem
        · cases List.mem_singleton.1 hmem
        · exact List.not_mem_nil hmem
  case typeChain =>
    obtain ⟨pointee, hpointee, h⟩ := bind_eq_ok.1 h
    rw [pointsToIncomplete_iff hpointee]
    split_ifs at h with hincomplete
    · obtain rfl := Except.ok.inj h
      refine ⟨fun u => iff_of_false List.not_mem_nil fun hu => hu.1 hincomplete, ?_⟩
      exact iff_of_true trivial hincomplete
    · obtain ⟨-, -, h⟩ := bind_eq_ok.1 h
      obtain rfl := Except.ok.inj h
      refine shifts_spec (fun u => ?_) ?_
      · simp [Shift.call, Shift.nat, hincomplete]
      · simp [Shift.nat, hincomplete]
  case withDataMembers =>
    obtain ⟨members, hmembers, h⟩ := bind_eq_ok.1 h
    obtain rfl := Except.ok.inj h
    have hmem := @mem_mapM_iff _ _ _ _ _ _ hmembers
    refine shifts_spec (fun u => ?_) ?_
    · simp only [List.mem_cons, or_and_right, exists_or, exists_eq_left, List.mem_flatten]
      simp only [Shift.call, reduceCtorEq, false_or]
      constructor
      · rintro ⟨s, ⟨l, hl, hs⟩, hu⟩
        obtain ⟨⟨c, k⟩, hck, hl⟩ := hmem.1 hl
        obtain ⟨offset, ho⟩ := ((memberShifts_spec hl).2 u).1 ⟨s, hs, hu⟩
        exact ⟨k, c, offset, List.mk_mem_zipIdx_iff_getElem?.1 hck, ho⟩
      · rintro ⟨k, c, offset, hck, ho⟩
        have hzip := List.mk_mem_zipIdx_iff_getElem?.2 hck
        obtain ⟨l, hl⟩ := mapM_returns_iff.1 ⟨_, hmembers⟩ (c, k) hzip
        obtain ⟨s, hs, hu⟩ := ((memberShifts_spec hl).2 u).2 ⟨offset, ho⟩
        exact ⟨s, ⟨l, hmem.2 ⟨(c, k), hzip, hl⟩, hs⟩, hu⟩
    · simp only [List.mem_cons, reduceCtorEq, false_or, List.mem_flatten]
      refine iff_of_false ?_ id
      rintro ⟨l, hl, hs⟩
      obtain ⟨⟨c, k⟩, -, hl⟩ := hmem.1 hl
      exact (memberShifts_spec hl).1 hs
  case array =>
    obtain ⟨el, hel, h⟩ := bind_eq_ok.1 h
    obtain ⟨count, -, h⟩ := bind_eq_ok.1 h
    obtain ⟨element, helement, h⟩ := bind_eq_ok.1 h
    obtain rfl := Except.ok.inj h
    obtain ⟨hinvalid, hcall⟩ := elementShift_spec helement
    refine shifts_spec (fun u => ?_) ?_
    · rw [hasElement_iff hel]
      simp only [List.mem_cons, List.not_mem_nil, or_false, or_and_right, exists_or,
        exists_eq_left, hcall]
      simp [Shift.call, Shift.nat]
    · rw [hasElement_iff hel, ← hinvalid]
      simp [Shift.nat, eq_comm]

/-- A type that chains has another concrete type, or none, and any other type is its own. -/
theorem getConcreteType_self (hchains : (g t).tag.chains = false) {o : Option ι}
    (h : getConcreteType g fuel t = .ok o) : o = some t := by
  cases fuel with
  | zero => exact nomatch h
  | succ fuel =>
    rw [getConcreteType, hchains] at h
    exact (Except.ok.inj h).symm

variable [DecidableEq ι]

/-- **The summary of a type asks for the codes its links lead to, and is incomplete where the type
is.** -/
theorem containmentSummary_spec {s : Summary ι} (h : containmentSummary g fuel t = .ok s) :
    (∀ u, u ∈ s.calls ↔ CodeLink g t u) ∧ (s.incomplete ↔ Incomplete g t) := by
  obtain ⟨o, ho, h⟩ := bind_eq_ok.1 h
  cases hchains : (g t).tag.chains with
  | true =>
    have hlink : ∀ u, CodeLink g t u ↔ o = some u := fun u => by
      rw [CodeLink, if_pos hchains]
      exact ⟨fun hu => HasConcrete.unique ⟨fuel, ho⟩ hu, fun hu => ⟨fuel, hu ▸ ho⟩⟩
    have hcomplete : ¬Incomplete g t := by
      rw [Incomplete, if_pos hchains]
      exact id
    cases o with
    | none =>
      obtain rfl := Except.ok.inj h
      exact ⟨fun u => iff_of_false List.not_mem_nil fun hu => (nomatch (hlink u).1 hu),
        iff_of_false id hcomplete⟩
    | some c =>
      have hne : c ≠ t := by
        rintro rfl
        have hfalse := chains_of_getConcreteType g ho
        rw [hchains] at hfalse
        cases hfalse
      dsimp only at h
      rw [if_pos hne] at h
      obtain rfl := Except.ok.inj h
      refine ⟨fun u => ?_, iff_of_false id hcomplete⟩
      rw [hlink, Summary.calls, List.mem_singleton]
      exact ⟨fun hu => congrArg some hu.symm, fun hu => (Option.some.inj hu).symm⟩
  | false =>
    obtain rfl := getConcreteType_self hchains ho
    dsimp only at h
    rw [if_neg (not_not.2 rfl)] at h
    cases hdecl : (g t).isDeclaration with
    | false =>
      rw [hdecl] at h
      exact concreteSummary_spec hchains hdecl h
    | true =>
      rw [hdecl, if_pos rfl] at h
      unfold CodeLink Incomplete
      simp only [hchains, hdecl, Bool.false_eq_true, if_false, if_true]
      cases hdef : findDefinition g t with
      | none =>
        rw [hdef] at h
        obtain rfl := Except.ok.inj h
        exact ⟨fun u => iff_of_false List.not_mem_nil nofun, iff_of_true trivial rfl⟩
      | some d =>
        rw [hdef] at h
        obtain rfl := Except.ok.inj h
        refine ⟨fun u => ?_, iff_of_false id nofun⟩
        rw [Summary.calls, List.mem_singleton, Option.some.injEq, eq_comm]

end Found

end Types
end Dwarfpp
