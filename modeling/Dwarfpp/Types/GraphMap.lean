/-
# Type graphs inside others

A type DIE's attributes say the same of the DIEs it refers to, whatever those are
called: `TypeDie.map` renames them.  Where a graph lies in another one under other
names, what `may_equal` compares is the same there (`locallyEqual_map`), and so is
structural equality (`bisimilar_map_iff`).
-/

import Dwarfpp.Types.Equal

namespace Dwarfpp
namespace Types

variable {ι κ : Type}

/-- A compile unit with its DIEs renamed. -/
def CompileUnit.map (f : ι → κ) (cu : CompileUnit ι) : CompileUnit κ where
  language := cu.language
  namedChild name := (cu.namedChild name).map f
  baseTypes := cu.baseTypes.map f
  encodingLookup := cu.encodingLookup
  addressSize := cu.addressSize

/-- A member with its types renamed. -/
def DataMember.map (f : ι → κ) (c : DataMember ι) : DataMember κ where
  inheritance := c.inheritance
  type := c.type.map f
  typeHandlingBitfields := c.typeHandlingBitfields.map f
  dataMemberLocation := c.dataMemberLocation
  declaration := c.declaration

/-- A formal parameter with its types renamed. -/
def FormalParameter.map (f : ι → κ) (c : FormalParameter ι) : FormalParameter κ where
  type := c.type.map f
  findType := c.findType.map f

/-- A type DIE with the DIEs it refers to renamed. -/
def TypeDie.map (f : ι → κ) (d : TypeDie ι) : TypeDie κ where
  offset := d.offset
  enclosingCu := d.enclosingCu.map f
  declaration := d.declaration
  tag := d.tag
  name := d.name
  associatedName := d.associatedName
  type := d.type.map f
  findType := d.findType.map f
  encoding := d.encoding
  byteSize := d.byteSize
  bitSize := d.bitSize
  bitOffset := d.bitOffset
  dataBitOffset := d.dataBitOffset
  stringLength := d.stringLength
  lowerBound := d.lowerBound
  upperBound := d.upperBound
  count := d.count
  enumerators := d.enumerators
  subranges := d.subranges.map f
  dataMembers := d.dataMembers.map (·.map f)
  formalParameters := d.formalParameters.map (·.map f)
  isVariadic := d.isVariadic
  addressClass := d.addressClass
  depth := d.depth
  laterSiblings := d.laterSiblings.map f

/-- A graph lies in another one under other names. -/
def LiesIn (g : TypeGraph ι) (f : ι → κ) (h : TypeGraph κ) : Prop := ∀ t, h (f t) = (g t).map f

section Fields

variable {f : ι → κ} {d : TypeDie ι}

theorem members_map : (d.map f).members = d.members.map (·.map f) := by
  rw [TypeDie.members, TypeDie.members]
  exact List.filter_map

theorem complete_map_iff : Complete (d.map f) ↔ Complete d := by
  have hmembers : (∀ c ∈ (d.map f).members, c.typeHandlingBitfields.isSome) ↔
      ∀ c ∈ d.members, c.typeHandlingBitfields.isSome := by
    rw [members_map, List.forall_mem_map]
    simp [DataMember.map]
  have hparameters : (∀ c ∈ (d.map f).formalParameters, c.type.isSome) ↔
      ∀ c ∈ d.formalParameters, c.type.isSome := by
    show (∀ c ∈ d.formalParameters.map (·.map f), c.type.isSome) ↔ _
    rw [List.forall_mem_map]
    simp [FormalParameter.map]
  have helement : (d.map f).type.isSome ↔ d.type.isSome := by simp [TypeDie.map]
  constructor
  · rintro ⟨hname, htype, hm, hp⟩
    exact ⟨hname, fun h => helement.1 (htype h), fun h => hmembers.1 (hm h),
      fun h => hparameters.1 (hp h)⟩
  · rintro ⟨hname, htype, hm, hp⟩
    exact ⟨hname, fun h => helement.2 (htype h), fun h => hmembers.2 (hm h),
      fun h => hparameters.2 (hp h)⟩

end Fields

section Relations

variable {f : ι → κ} {S : κ → κ → Prop}

theorem voidOr_map {a b : Option ι} :
    VoidOr S (a.map f) (b.map f) ↔ VoidOr (fun x y => S (f x) (f y)) a b := by
  cases a <;> cases b <;> exact Iff.rfl

theorem given_map {a b : Option ι} :
    Given S (a.map f) (b.map f) ↔ Given (fun x y => S (f x) (f y)) a b := by
  cases a <;> cases b <;> simp [Given]

variable {g : TypeGraph ι} {h : TypeGraph κ}

/-- The references of a DIE, in the other graph. -/
theorem references_map (hmap : LiesIn g f h) (t : ι) :
    references h (f t) = (references g t).map f := by
  have hsubranges : ((g t).map f).subranges.filterMap (fun s => (h s).type) =
      ((g t).subranges.filterMap fun s => (g s).type).map f := by
    show ((g t).subranges.map f).filterMap (fun s => (h s).type) = _
    rw [List.filterMap_map, List.map_filterMap]
    refine List.filterMap_congr fun s _ => ?_
    rw [Function.comp_apply, hmap s]
    rfl
  have hmembers : ((g t).map f).members.filterMap (·.typeHandlingBitfields) =
      ((g t).members.filterMap (·.typeHandlingBitfields)).map f := by
    rw [members_map, List.filterMap_map, List.map_filterMap]
    rfl
  have hparameters : ((g t).map f).formalParameters.filterMap (·.type) =
      ((g t).formalParameters.filterMap (·.type)).map f := by
    show ((g t).formalParameters.map (·.map f)).filterMap (·.type) = _
    rw [List.filterMap_map, List.map_filterMap]
    rfl
  have htype : ((g t).map f).type.toList = (g t).type.toList.map f := by
    show ((g t).type.map f).toList = _
    cases (g t).type <;> rfl
  rw [references, references, hmap t, hsubranges, hmembers, hparameters, htype]
  simp only [List.map_append]

theorem tag_of_cls_ptrToMember {tag : Tag} (h : tag.cls = .ptrToMember) :
    tag = .ptrToMemberType := by
  cases tag <;> first | rfl | exact nomatch h

/-- **What an override compares is the same in the other graph.** -/
theorem locallyEqual_map (hmap : LiesIn g f h) (t u : ι) :
    LocallyEqual h S (f t) (f u) ↔ LocallyEqual g (fun x y => S (f x) (f y)) t u := by
  have hcls : (h (f t)).tag.cls = (g t).tag.cls := by rw [hmap t]; rfl
  by_cases hptr : (g t).tag = .ptrToMemberType
  · have hptr' : (h (f t)).tag = .ptrToMemberType := by rw [hmap t]; exact hptr
    exact iff_of_false (not_locallyEqual_ptrToMember h S hptr' (f u))
      (not_locallyEqual_ptrToMember g _ hptr u)
  unfold LocallyEqual
  rw [hcls, hmap t, hmap u]
  cases hc : (g t).tag.cls with
  | base | unspecified | string => exact Iff.rfl
  | subrange => exact and_congr_right' (and_congr_left' voidOr_map)
  | enumeration => exact and_congr_right' (and_congr_left' voidOr_map)
  | typeChain => exact and_congr_right' voidOr_map
  | typedef => exact and_congr_right' (and_congr_right' voidOr_map)
  | array =>
    refine and_congr_right' (and_congr ?_ given_map)
    show List.Forall₂ (fun a b => Given S (h a).type (h b).type) ((g t).subranges.map f)
      ((g u).subranges.map f) ↔ _
    have hrel : (fun a b => Given S (h (f a)).type (h (f b)).type) =
        fun a b => Given (fun x y => S (f x) (f y)) (g a).type (g b).type := by
      funext a b
      rw [hmap a, hmap b]
      exact propext given_map
    rw [List.forall₂_map_left_iff, List.forall₂_map_right_iff, hrel]
  | ptrToMember => exact absurd (tag_of_cls_ptrToMember hc) hptr
  | withDataMembers =>
    have hrel : (fun a b : DataMember ι =>
        VoidOr S (a.map f).typeHandlingBitfields (b.map f).typeHandlingBitfields ∧
          (a.map f).dataMemberLocation = (b.map f).dataMemberLocation) = fun a b =>
        VoidOr (fun x y => S (f x) (f y)) a.typeHandlingBitfields b.typeHandlingBitfields ∧
          a.dataMemberLocation = b.dataMemberLocation := by
      funext a b
      exact propext (and_congr_left' voidOr_map)
    refine and_congr_right' ?_
    rw [members_map, members_map, List.forall₂_map_left_iff, List.forall₂_map_right_iff, hrel]
  | typeDescribingSubprogram =>
    have hrel : (fun a b : FormalParameter ι => VoidOr S (b.map f).type (a.map f).type) =
        fun a b => VoidOr (fun x y => S (f x) (f y)) b.type a.type := by
      funext a b
      exact propext voidOr_map
    refine and_congr_right' (and_congr (and_congr_left' voidOr_map) ?_)
    show List.Forall₂ (fun a b => VoidOr S b.type a.type) ((g t).formalParameters.map (·.map f))
      ((g u).formalParameters.map (·.map f)) ↔ _
    rw [List.forall₂_map_left_iff, List.forall₂_map_right_iff, hrel]

variable {code : ι → Option (BitVec 32)} {code' : κ → Option (BitVec 32)}

theorem quickTests_map_iff (hmap : LiesIn g f h) (hcode : ∀ t, code' (f t) = code t) (t u : ι) :
    QuickTests h code' (f t) (f u) ↔ QuickTests g code t u := by
  rw [QuickTests, QuickTests, hmap t, hmap u, hcode t, hcode u]
  exact Iff.rfl

/-- **Structural equality is the same in the other graph.** -/
theorem bisimilar_map_iff (hmap : LiesIn g f h) (hf : Function.Injective f)
    (hcode : ∀ t, code' (f t) = code t) {t u : ι} :
    Bisimilar h code' (f t) (f u) ↔ Bisimilar g code t u := by
  constructor
  · rintro ⟨R, hR, htu⟩
    refine ⟨fun a b => R (f a) (f b), fun a b hab hne => ?_, htu⟩
    obtain ⟨hq, hl, hl'⟩ := hR _ _ hab fun heq => hne (hf heq)
    exact ⟨(quickTests_map_iff hmap hcode a b).1 hq, (locallyEqual_map hmap a b).1 hl,
      (locallyEqual_map hmap b a).1 hl'⟩
  · rintro ⟨R, hR, htu⟩
    refine ⟨fun x y => ∃ a b, x = f a ∧ y = f b ∧ R a b, ?_, t, u, rfl, rfl, htu⟩
    rintro _ _ ⟨a, b, rfl, rfl, hab⟩ hne
    have hle : ∀ x y, R x y → ∃ a b, f x = f a ∧ f y = f b ∧ R a b :=
      fun x y hxy => ⟨x, y, rfl, rfl, hxy⟩
    obtain ⟨hq, hl, hl'⟩ := hR a b hab fun heq => hne (congrArg f heq)
    exact ⟨(quickTests_map_iff hmap hcode a b).2 hq,
      (locallyEqual_map hmap a b).2 (locallyEqual_mono g a b hle hl),
      (locallyEqual_map hmap b a).2 (locallyEqual_mono g b a hle hl')⟩

end Relations

end Types
end Dwarfpp
