/-
# A call for the type of a bitfield

What `find_or_create_type_handling_bitfields` does to a root that knows its tree, if it
returns.  It moves about the tree (`findType_ifReturns`, `printTree_ifReturns`), sweeps
the visible names (`keepEqualInBits_ifReturns`), or creates a base type below the synthetic
CU, which it may create first (`createBaseType_eq_ok`).

A call that asks for a named base type gives the first visible one with the bits wanted,
in the order of the search, or creates one (`findOrCreate_eq_ok`).
-/

import Dwarfpp.Dies.BitfieldTypes
import Dwarfpp.Dies.ReferenceRuns

namespace Dwarfpp
namespace Dies

open Lib
open Lib.Preorder hiding firstChild nextSibling

variable {t : List Node} {r r' : Root} {fuel : ℕ} {x : Node}

section Reading

/-- `pos` gives the DIE that is there. -/
theorem pos_ifReturns (h : Consistent t r) (off : ℕ) :
    IfReturns t (pos off none none none) r fun it _ =>
      ∃ x ∈ t, x.offset = it.offset ∧ x.offset ≠ 0 := by
  cases hd : dieAt t off with
  | none => exact .inr ⟨trivial, .noEntry, pos_of_dieAt_none h hd (by simp) none⟩
  | some x =>
    obtain ⟨hx, rfl, h0⟩ := (dieAt_eq_some h.wellFormed.sorted).1 hd
    exact (pos_of_dieAt h hd).unless.mono fun it _ _ _ hit => ⟨x, hx, hit.symm, h0⟩

/-- A reference is followed, or asserted to be one. -/
theorem followRef_ifReturns (h : Consistent t r) (v : AttributeValue ℕ ℕ) {α : Type}
    {f : Iterator → RootM α} {post : α → Root → Prop}
    (hf : ∀ it r₁, Consistent t r₁ → IfReturns t (f it) r₁ post) :
    IfReturns t (do
      let target ← v.getRefiter
      let it ← pos target none none none
      f it) r post := by
  cases v with
  | ref target =>
    refine (pos_ifReturns h target).bind ?_
    rintro it r₁ hr₁ - -
    exact hf it r₁ hr₁
  | flag b => exact .inr ⟨trivial, .assertFailed, rfl⟩
  | string s => exact .inr ⟨trivial, .assertFailed, rfl⟩
  | other n => exact .inr ⟨trivial, .assertFailed, rfl⟩

theorem findAttrOf_ifReturns (h : Consistent t r) (n off a : ℕ) :
    IfReturns t (findAttrOf n off a) r fun _ _ => True := by
  induction n generalizing r off with
  | zero => exact ifReturns_outOfSteps
  | succ n ih =>
    refine StateReturnsUnless.get_bind ?_
    split
    · exact StateReturnsUnless.pure h trivial
    · exact followRef_ifReturns h _ fun origin r₁ hr₁ => ih hr₁ origin.offset
    · refine followRef_ifReturns h _ fun decl r₁ hr₁ => ?_
      refine StateReturnsUnless.get_bind ?_
      exact StateReturnsUnless.pure hr₁ trivial
    · exact StateReturnsUnless.pure h trivial

/-- The type of a member is a DIE of the tree. -/
theorem findType_ifReturns (h : Consistent t r) (off : ℕ) :
    IfReturns t (findType fuel off) r fun res _ =>
      ∀ it, res = some it → ∃ x ∈ t, x.offset = it.offset ∧ x.offset ≠ 0 := by
  refine (findAttrOf_ifReturns h fuel off dwAtType).bind ?_
  rintro v r₁ hr₁ - -
  split
  · refine (pos_ifReturns hr₁ _).bind ?_
    rintro it r₂ hr₂ - hit
    refine StateReturnsUnless.pure hr₂ ?_
    rintro _ ⟨⟩
    exact hit
  · refine StateReturnsUnless.pure hr₁ ?_
    intro it hit
    exact absurd hit (by simp)

theorem isA_ifReturns (h : Consistent t r) (hx : x ∈ t) (h0 : x.offset ≠ 0) {it : Iterator}
    (hoff : it.offset = x.offset) (tag : ℕ) :
    IfReturns t (isA tag it) r fun b _ => b = decide (x.tag = tag) := by
  refine (specHere_ifReturns h hx h0 hoff).bind ?_
  rintro - r₁ hr₁ - -
  refine StateReturnsUnless.get_bind ?_
  rw [hoff, hr₁.tagHere hx h0]
  exact StateReturnsUnless.pure hr₁ rfl

theorem asA_ifReturns (h : Consistent t r) (hx : x ∈ t) (h0 : x.offset ≠ 0) {it : Iterator}
    (hoff : it.offset = x.offset) (tag : ℕ) :
    IfReturns t (asA tag it) r fun res _ => res = if x.tag = tag then some it else none := by
  refine (isA_ifReturns h hx h0 hoff tag).bind ?_
  rintro b r₁ hr₁ - rfl
  by_cases htag : x.tag = tag
  · rw [if_pos htag, if_pos (decide_eq_true htag)]
    exact StateReturnsUnless.pure hr₁ rfl
  · rw [if_neg htag, if_neg (by simpa using htag)]
    exact StateReturnsUnless.pure hr₁ rfl

end Reading

section Printing

variable {cu : Iterator}

theorem printFrom_ifReturns {s : List Node} (h : Consistent t r) (hfuel : EnoughFuel t fuel)
    (hs : s <:+ t) (h0 : ∀ y ∈ s, y.offset ≠ 0) {res : Option Iterator} (hat : TraversalAt s res)
    (startOffset startDepth n : ℕ) :
    IfReturns t (printFrom fuel startOffset startDepth n res) r fun _ _ => True := by
  induction n generalizing r s res with
  | zero => exact ifReturns_outOfSteps
  | succ n ih =>
    cases s with
    | nil =>
      obtain rfl : res = none := hat
      exact StateReturnsUnless.pure h trivial
    | cons x l =>
      obtain ⟨it, rfl, hit⟩ := hat
      have hx := mem_of_suffix hs
      refine (withDepth_reaches h hx hit.1 hit.2 (hfuel.2 x hx) hfuel.1).unless.bind ?_
      rintro it' r₁ hr₁ - ⟨hoff, hd, -⟩
      split
      · refine (specHere_ifReturns hr₁ hx (h0 x List.mem_cons_self) hoff).bind ?_
        rintro - r₂ hr₂ - -
        refine (dfIncrement_unless hr₂ hfuel hs ⟨hoff, .inl hd⟩ fun _ _ _ _ _ => trivial).bind ?_
        rintro next r₃ hr₃ - ⟨hnext, -⟩
        exact ih hr₃ ((List.suffix_cons x l).trans hs)
          (fun y hy => h0 y (List.mem_cons_of_mem x hy)) (.of_isAt hnext)
      · exact StateReturnsUnless.pure hr₁ trivial

/-- Printing moves about the tree. -/
theorem printTree_ifReturns (h : Consistent t r) (hfuel : EnoughFuel t fuel) (hx : x ∈ t)
    (h0 : x.offset ≠ 0) (hcu : Standing x cu) :
    IfReturns t (printTree fuel cu) r fun _ _ => True := by
  refine (withDepth_reaches h hx hcu.1 hcu.2 (hfuel.2 x hx) hfuel.1).unless.bind ?_
  rintro it r₁ hr₁ - ⟨hoff, hd, -⟩
  obtain ⟨l, hl⟩ := exists_suffix_of_mem hx
  refine printFrom_ifReturns hr₁ hfuel hl ?_ ⟨it, rfl, hoff, .inl hd⟩ _ _ _
  intro y hy
  rcases List.mem_cons.1 hy with rfl | hy
  · exact h0
  · have hlt := List.rel_of_pairwise_cons (h.wellFormed.sorted.suffix hl) hy
    omega

end Printing

section Search

/-- A base type with these bits. -/
def Root.fits (r : Root) (bits : ℕ × ℕ) (off : ℕ) : Bool :=
  r.tagHere off = dwTagBaseType ∧ bitSizeAndOffset r.tables.attrs off = some bits

theorem fits_iff {bits : ℕ × ℕ} {off : ℕ} : r.fits bits off = true ↔
    r.tagHere off = dwTagBaseType ∧ bitSizeAndOffset r.tables.attrs off = some bits := by
  rw [Root.fits, decide_eq_true_iff]

/-- The bits are read off the attributes. -/
theorem bitSizeAndOffset_congr {attrs attrs' : ℕ → AttributeMap} {off : ℕ}
    (h : attrs' off = attrs off) : bitSizeAndOffset attrs' off = bitSizeAndOffset attrs off := by
  unfold bitSizeAndOffset calculateByteSize getUnsigned
  rw [h]

/-- What is known of a DIE does not change with what is learnt or made. -/
theorem fits_congr {t' : List Node} (h : Consistent t r) (h' : Consistent t' r') (hx : x ∈ t)
    (hx' : x ∈ t') (h0 : x.offset ≠ 0)
    (hattrs : r'.tables.attrs x.offset = r.tables.attrs x.offset) (bits : ℕ × ℕ) :
    r'.fits bits x.offset = r.fits bits x.offset := by
  unfold Root.fits
  rw [h'.tagHere hx' h0, h.tagHere hx h0, bitSizeAndOffset_congr hattrs]

theorem equalInBits_ifReturns (h : Consistent t r) (hx : x ∈ t) (h0 : x.offset ≠ 0)
    {it : Iterator} (hoff : it.offset = x.offset) (size offset : ℕ) :
    IfReturns t (equalInBits size offset it) r fun b _ =>
      b = r.fits (size, offset) x.offset := by
  refine (asA_ifReturns h hx h0 hoff dwTagBaseType).bind ?_
  rintro res r₁ hr₁ hmoved rfl
  by_cases htag : x.tag = dwTagBaseType
  · rw [if_pos htag]
    refine StateReturnsUnless.get_bind ?_
    rw [hmoved.tables, hoff]
    cases hbits : bitSizeAndOffset r.tables.attrs x.offset with
    | none => exact .inr ⟨trivial, .undefinedBehaviour, rfl⟩
    | some bits =>
      refine StateReturnsUnless.pure hr₁ ?_
      rw [Root.fits, h.tagHere hx h0, hbits]
      simp [htag]
  · rw [if_neg htag]
    refine StateReturnsUnless.pure hr₁ ?_
    rw [Root.fits, h.tagHere hx h0]
    simp [htag]

/-- **`std::remove_if` keeps the base types with these bits**, in their order. -/
theorem keepEqualInBits_ifReturns (h : Consistent t r) (size offset : ℕ) {its : List Iterator}
    (hits : ∀ it ∈ its, ∃ x ∈ t, x.offset = it.offset ∧ x.offset ≠ 0) :
    IfReturns t (keepEqualInBits size offset its) r fun kept _ =>
      kept = its.filter fun it => r.fits (size, offset) it.offset := by
  induction its generalizing r with
  | nil => exact StateReturnsUnless.pure h rfl
  | cons it its ih =>
    obtain ⟨x, hx, hoff, h0⟩ := hits it List.mem_cons_self
    refine (equalInBits_ifReturns h hx h0 hoff.symm size offset).bind ?_
    rintro b r₁ hr₁ hmoved rfl
    have hrest : ∀ it' ∈ its, ∃ x ∈ t, x.offset = it'.offset ∧ x.offset ≠ 0 :=
      fun it' hit' => hits it' (List.mem_cons_of_mem it hit')
    refine (ih hr₁ hrest).bind ?_
    rintro kept r₂ hr₂ - rfl
    refine StateReturnsUnless.pure hr₂ ?_
    have hsame : its.filter (fun it => r₁.fits (size, offset) it.offset) =
        its.filter fun it => r.fits (size, offset) it.offset := by
      refine List.filter_congr fun it' hit' => ?_
      obtain ⟨y, hy, hyoff, hy0⟩ := hrest it' hit'
      rw [← hyoff]
      exact fits_congr h hr₁ hy hy hy0 (by rw [hmoved.tables]) (size, offset)
    rw [hsame, List.filter_cons, hoff]

end Search

section Insertion

variable {attrs : ℕ → AttributeMap} {m : AttributeMap} {off attr : ℕ}
  {value : AttributeValue ℕ ℕ}

theorem withAttribute_update :
    withAttribute (Function.update attrs off m) off attr value =
      Function.update attrs off (m.insert attr value) := by
  unfold withAttribute
  rw [Function.update_self, Function.update_idem]

/-- Another attribute than the name, inserted in a DIE in memory that does not have it. -/
theorem insertPlain_eq_ok (h : Consistent t r) (hfuel : EnoughFuel t fuel)
    (hvisibility : ConstantVisibility t r.tables.attrs)
    (hattrs : r.tables.attrs = Function.update attrs off m) (hm : m.find attr = none)
    (hname : attr ≠ dwAtName) (hvis : attr ≠ dwAtVisibility) {u : Unit}
    (hrun : insertAttribute fuel off attr value r = .ok (u, r')) :
    Consistent t r' ∧ ConstantVisibility t r'.tables.attrs ∧
      r'.tables = { r.tables with attrs := Function.update attrs off (m.insert attr value) } := by
  have hinsertable : Insertable r.tables.attrs off attr value :=
    ⟨fun h => absurd h hname, fun h => absurd h hvis⟩
  have hvisibility' := constantVisibility_withAttribute hvisibility hinsertable
  obtain ⟨x, -, -, hr', htables⟩ := insertAttribute_eq_ok h hfuel hvisibility'
    (by rw [hattrs, Function.update_self, hm]) hrun
  unfold Tables.inserted at htables
  rw [if_neg fun h => hname h.1, List.append_nil] at htables
  refine ⟨hr', ?_, ?_⟩
  · rw [htables]
    exact hvisibility'
  · rw [htables, hattrs, withAttribute_update]

/-- The name, inserted in a DIE in memory that is without attributes or has just others, none of them
the visibility. -/
theorem insertName_eq_ok (h : Consistent t r) (hfuel : EnoughFuel t fuel)
    (hvisibility : ConstantVisibility t r.tables.attrs) (hx : x ∈ t)
    (hattrs : r.tables.attrs = Function.update attrs x.offset m) (hm : m.find dwAtName = none)
    (hvis : m.find dwAtVisibility = none) {name : String} {u : Unit}
    (hrun : insertAttribute fuel x.offset dwAtName (.string name) r = .ok (u, r')) :
    Consistent t r' ∧ ConstantVisibility t r'.tables.attrs ∧
      r'.tables = { r.tables with
        attrs := Function.update attrs x.offset (m.insert dwAtName (.string name))
        visibleNamedGrandchildrenCache := r.tables.visibleNamedGrandchildrenCache ++
          if x.depth = 2 then [(name, x.offset)] else [] } := by
  have hinsertable : Insertable r.tables.attrs x.offset dwAtName (.string name) :=
    ⟨fun _ => ⟨name, rfl⟩, fun h => absurd h (by decide)⟩
  have hvisibility' := constantVisibility_withAttribute hvisibility hinsertable
  obtain ⟨y, hy, hyoff, hr', htables⟩ := insertAttribute_eq_ok h hfuel hvisibility'
    (by rw [hattrs, Function.update_self, hm]) hrun
  obtain rfl := h.wellFormed.sorted.eq_of_key_eq hy hx hyoff
  have hnone : (m.insert dwAtName (.string name)).find dwAtVisibility = none := by
    rw [OrderedMap.find_insert, if_neg (by decide), hvis]
  have hshown : visibleName (Function.update attrs y.offset (m.insert dwAtName (.string name)))
      y.offset = some name := by
    unfold visibleName nameOf
    rw [Function.update_self, OrderedMap.find_insert, if_pos rfl, hnone]
    simp
  unfold Tables.inserted at htables
  rw [hattrs, withAttribute_update, hshown] at htables
  refine ⟨hr', ?_, ?_⟩
  · rw [hattrs, withAttribute_update] at hvisibility'
    rw [htables]
    exact hvisibility'
  · rw [htables]
    simp

/-- A DIE just made. -/
theorem Call.visibility {hasCase : ℕ → Bool} {n : Node} (h : Consistent t r)
    (hfuel : EnoughFuel t fuel) (hcall : Call hasCase fuel t r x n r')
    (hvisibility : ConstantVisibility t r.tables.attrs) :
    ConstantVisibility (withChild t x n) r'.tables.attrs := by
  rw [hcall.tables h hfuel]
  intro y hy v hv
  rcases (mem_withChild hcall.mem).1 hy with rfl | hy
  · simp at hv
  · dsimp only at hv
    rw [Function.update_of_ne (hcall.offset_ne h hfuel hy)] at hv
    exact hvisibility y hy v hv

end Insertion

section Creation

variable {hasCase : ℕ → Bool} {cu bt it : Iterator} {name : String} {size offset : ℕ} {u : Node}

/-- The attributes of a base type that is created. -/
def bitfieldAttributes (name : String) (size offset encoding : ℕ) : AttributeMap :=
  ((((OrderedMap.empty.insert dwAtName (.string name)).insert dwAtBitSize (.other size)).insert
    dwAtDataBitOffset (.other offset)).insert dwAtEncoding (.other encoding)).insert dwAtByteSize
      (.other (bytesForBits ((offset + size) % 2 ^ 64)))

/-- What creating a base type at `off` makes of the tables. -/
def Tables.withBaseType (tables : Tables) (name : String) (size offset encoding off : ℕ) : Tables :=
  { tables with
    attrs := Function.update tables.attrs off (bitfieldAttributes name size offset encoding)
    visibleNamedGrandchildrenCache := tables.visibleNamedGrandchildrenCache ++ [(name, off)] }

/-- **The base type created** is the last child of the CU, has an offset of its own, and enters the
cache of visible names. -/
theorem createBelow_eq_ok (h : Consistent t r) (hvisibility : ConstantVisibility t r.tables.attrs)
    (hu : u ∈ t) (hd : u.depth = 1) (hcu : Standing u cu) (hbt : ∃ y ∈ t, y.offset = bt.offset)
    (hrun : createBelow (fuel + 1) hasCase cu name size offset bt r = .ok (it, r'))
    (hfuel : EnoughFuel (withChild t u ⟨it.offset, 2, dwTagBaseType, true⟩) fuel) :
    (∀ y ∈ t, y.offset ≠ it.offset) ∧
      Consistent (withChild t u ⟨it.offset, 2, dwTagBaseType, true⟩) r' ∧
      ConstantVisibility (withChild t u ⟨it.offset, 2, dwTagBaseType, true⟩) r'.tables.attrs ∧
      ∃ encoding, getUnsigned r.tables.attrs bt.offset dwAtEncoding = some encoding ∧
        r'.tables = r.tables.withBaseType name size offset encoding it.offset := by
  obtain ⟨created, r₁, hmake, hrun⟩ := stateT_bind_eq_ok hrun
  obtain ⟨_, r₂, hname, hrun⟩ := stateT_bind_eq_ok hrun
  obtain ⟨_, r₃, hsize, hrun⟩ := stateT_bind_eq_ok hrun
  obtain ⟨_, r₄, hoffset, hrun⟩ := stateT_bind_eq_ok hrun
  replace hrun := stateT_get_bind_eq_ok hrun
  cases hencoding : getUnsigned r₄.tables.attrs bt.offset dwAtEncoding with
  | none =>
    rw [hencoding] at hrun
    exact absurd hrun (by simp [throw, throwThe, MonadExceptOf.throw, StateT.lift])
  | some encoding =>
  rw [hencoding] at hrun
  obtain ⟨_, r₅, hinsert, hrun⟩ := stateT_bind_eq_ok hrun
  obtain ⟨_, r₆, hbytes, hrun⟩ := stateT_bind_eq_ok hrun
  obtain ⟨_, r₇, hprint, hrun⟩ := stateT_bind_eq_ok hrun
  obtain ⟨rfl, rfl⟩ := Prod.mk.inj (Except.ok.inj hrun)
  -- The DIE is made, without attributes.
  have hcall : Call hasCase fuel t r u ⟨created.offset, 2, dwTagBaseType, true⟩ r₁ :=
    ⟨hu, by simp [hd, dwTagBaseType, dwTagCompileUnit], by simp [hd], by simp, rfl, cu, created,
      hcu, hmake, rfl⟩
  have hsmaller := hfuel.of_withChild hu
  have hfuel' := hfuel.mono (Nat.le_succ fuel)
  have hnew := (mem_withChild (n := ⟨created.offset, 2, dwTagBaseType, true⟩) hu).2 (.inl rfl)
  have hr₁ := (hcall.consistent h hsmaller).1
  have htables₁ := hcall.tables h hsmaller
  have hattrs₁ := congrArg Tables.attrs htables₁
  -- It gets its attributes.
  obtain ⟨hr₂, hvis₂, htables₂⟩ := insertName_eq_ok hr₁ hfuel'
    (hcall.visibility h hsmaller hvisibility) hnew hattrs₁ rfl rfl hname
  obtain ⟨hr₃, hvis₃, htables₃⟩ := insertPlain_eq_ok hr₂ hfuel' hvis₂
    (congrArg Tables.attrs htables₂) (by rfl) (by decide) (by decide) hsize
  obtain ⟨hr₄, hvis₄, htables₄⟩ := insertPlain_eq_ok hr₃ hfuel' hvis₃
    (congrArg Tables.attrs htables₃) (by rfl) (by decide) (by decide) hoffset
  obtain ⟨hr₅, hvis₅, htables₅⟩ := insertPlain_eq_ok hr₄ hfuel' hvis₄
    (congrArg Tables.attrs htables₄) (by rfl) (by decide) (by decide) hinsert
  obtain ⟨hr₆, hvis₆, htables₆⟩ := insertPlain_eq_ok hr₅ hfuel' hvis₅
    (congrArg Tables.attrs htables₅) (by rfl) (by decide) (by decide) hbytes
  obtain ⟨hr₇, hmoved, -⟩ := (printTree_ifReturns hr₆ hfuel'
    ((mem_withChild hu).2 (.inr hu)) (by
      intro h0
      have := (h.wellFormed.depth_eq_zero_iff hu).2 h0
      omega) hcu).of_eq_ok hprint
  have hne : ∀ y ∈ t, y.offset ≠ created.offset := fun y hy => hcall.offset_ne h hsmaller hy
  refine ⟨hne, hr₇, ?_, encoding, ?_, ?_⟩
  · rw [hmoved.tables]
    exact hvis₆
  · obtain ⟨y, hy, hyoff⟩ := hbt
    rw [htables₄] at hencoding
    unfold getUnsigned at hencoding ⊢
    dsimp only at hencoding
    rwa [Function.update_of_ne (hyoff ▸ hne y hy)] at hencoding
  · rw [hmoved.tables, htables₆, htables₅, htables₄, htables₃, htables₂, htables₁]
    rfl

/-- The synthetic CU at `off`. -/
def syntheticUnit (off : ℕ) : Node := ⟨off, 1, dwTagCompileUnit, true⟩

theorem syntheticUnit_ne_zero (h : Consistent t r) {off : ℕ} (hmem : syntheticUnit off ∈ t) :
    off ≠ 0 := by
  intro h0
  have hd := (h.wellFormed.depth_eq_zero_iff hmem).2 h0
  simp [syntheticUnit] at hd

/-- `make_new` gives an iterator at the new DIE. -/
theorem makeNew_standing {tag : ℕ} {parent it : Iterator} (h : Consistent t r)
    (hfuel : EnoughFuel t fuel) (hx : x ∈ t) (htag : tag = dwTagCompileUnit ↔ x.depth = 0)
    (hlevel : x.depth + 1 < 2 ^ 16) (hit : Standing x parent)
    (hrun : makeNew (fuel + 1) hasCase parent tag r = .ok (it, r')) :
    Standing ⟨it.offset, x.depth + 1, tag, true⟩ it := by
  obtain ⟨pre, w, rest, rfl, hw, hrest, -⟩ := withChild_eq hx
  exact (makeNew_insert h hfuel hw hrest htag hlevel hit hrun).2.1

/-- The tree once the synthetic CU, which is at `off`, is there. -/
def withUnit (t : List Node) (syntheticCu : Option ℕ) (off : ℕ) : List Node :=
  if syntheticCu = none then withChild t rootNode (syntheticUnit off) else t

theorem mem_withUnit (hroot : rootNode ∈ t) {syntheticCu : Option ℕ} {off : ℕ} {y : Node}
    (hy : y ∈ t) : y ∈ withUnit t syntheticCu off := by
  unfold withUnit
  split_ifs
  · exact (mem_withChild hroot).2 (.inr hy)
  · exact hy

/-- What a call may do to the tables on its way: the DIEs of `t` keep their attributes, and the rest
stays. -/
def OnlyNew (t : List Node) (tables tables' : Tables) : Prop :=
  tables' = { tables with attrs := tables'.attrs } ∧
    ∀ y ∈ t, tables'.attrs y.offset = tables.attrs y.offset

variable {syntheticCu syntheticCu' : Option ℕ} {off : ℕ}

/-- **The synthetic CU** is there, or is made under the root position. -/
theorem getOrCreateSyntheticCu_eq_ok (h : Consistent t r)
    (hvisibility : ConstantVisibility t r.tables.attrs)
    (hunit : ∀ off, syntheticCu = some off → syntheticUnit off ∈ t)
    (hrun : getOrCreateSyntheticCu (fuel + 1) hasCase syntheticCu r =
      .ok ((some cu, syntheticCu'), r'))
    (hfuel : ∀ off, syntheticCu' = some off → EnoughFuel (withUnit t syntheticCu off) fuel) :
    ∃ off, syntheticCu' = some off ∧ Standing (syntheticUnit off) cu ∧
      syntheticUnit off ∈ withUnit t syntheticCu off ∧
      Consistent (withUnit t syntheticCu off) r' ∧
      ConstantVisibility (withUnit t syntheticCu off) r'.tables.attrs ∧
      OnlyNew t r.tables r'.tables := by
  have hroot := h.wellFormed.root_mem
  cases syntheticCu with
  | some off =>
    have hmem := hunit off rfl
    obtain ⟨res, r₁, hfind, hrun⟩ := stateT_bind_eq_ok hrun
    cases res with
    | none =>
      obtain ⟨hcu, -⟩ := Prod.mk.inj (Except.ok.inj hrun)
      exact absurd (Prod.mk.inj hcu).1 (by simp)
    | some found =>
    obtain ⟨res, r₂, hasA, hrun⟩ := stateT_bind_eq_ok hrun
    obtain ⟨hpair, rfl⟩ := Prod.mk.inj (Except.ok.inj hrun)
    obtain ⟨rfl, rfl⟩ := Prod.mk.inj hpair
    have hfuel' := (hfuel off rfl).mono (Nat.le_succ fuel)
    unfold withUnit at hfuel' ⊢
    rw [if_neg (by simp)] at hfuel'
    simp only [reduceCtorEq, if_false]
    obtain ⟨hr₁, hmoved₁, hloc⟩ := (find_locates h hfuel' off).unless (c := True)
      |>.of_eq_ok hfind
    rcases hloc with ⟨y, hy, hyoff, -, it, hit, hoff, hdepth⟩ | ⟨hnone, -⟩
    · obtain rfl := Option.some.inj hit
      obtain rfl : y = syntheticUnit off := h.wellFormed.sorted.eq_of_key_eq hy hmem hyoff
      have h0 := syntheticUnit_ne_zero h hmem
      obtain ⟨hr₂, hmoved₂, hcu⟩ := (asA_ifReturns hr₁ hmem h0 hoff dwTagCompileUnit).of_eq_ok hasA
      rw [if_pos (by rfl)] at hcu
      obtain rfl := Option.some.inj hcu
      have htables : r₂.tables = r.tables := hmoved₂.tables.trans hmoved₁.tables
      refine ⟨off, rfl, ⟨hoff, hdepth⟩, hmem, hr₂, ?_, ?_⟩
      · rw [htables]
        exact hvisibility
      · rw [htables]
        exact ⟨rfl, fun _ _ => rfl⟩
    · exact absurd hnone (by simp)
  | none =>
    obtain ⟨created, r₁, hmake, hrun⟩ := stateT_bind_eq_ok hrun
    obtain ⟨_, r₂, hlanguage, hrun⟩ := stateT_bind_eq_ok hrun
    obtain ⟨_, r₃, hname, hrun⟩ := stateT_bind_eq_ok hrun
    obtain ⟨res, r₄, hasA, hrun⟩ := stateT_bind_eq_ok hrun
    obtain ⟨hpair, rfl⟩ := Prod.mk.inj (Except.ok.inj hrun)
    obtain ⟨rfl, rfl⟩ := Prod.mk.inj hpair
    have hfuel := hfuel created.offset rfl
    refine ⟨created.offset, rfl, ?_⟩
    unfold withUnit at hfuel ⊢
    rw [if_pos rfl] at hfuel ⊢
    have hcall : Call hasCase fuel t r rootNode (syntheticUnit created.offset) r₁ :=
      ⟨hroot, by simp [syntheticUnit, rootNode], rfl, by simp [syntheticUnit], rfl, Root.begin,
        created, ⟨rfl, .inl rfl⟩, hmake, rfl⟩
    have hsmaller := hfuel.of_withChild hroot
    have hfuel' := hfuel.mono (Nat.le_succ fuel)
    have hnew := (mem_withChild (n := syntheticUnit created.offset) hroot).2 (.inl rfl)
    have htables₁ := hcall.tables h hsmaller
    obtain ⟨hr₂, hvis₂, htables₂⟩ := insertPlain_eq_ok (hcall.consistent h hsmaller).1 hfuel'
      (hcall.visibility h hsmaller hvisibility) (congrArg Tables.attrs htables₁) (by rfl)
      (by decide) (by decide) hlanguage
    obtain ⟨hr₃, hvis₃, htables₃⟩ := insertName_eq_ok hr₂ hfuel' hvis₂ hnew
      (congrArg Tables.attrs htables₂) (by rfl) (by rfl) hname
    have h0 := syntheticUnit_ne_zero hr₃ hnew
    obtain ⟨hr₄, hmoved₄, hcu⟩ := (asA_ifReturns hr₃ hnew h0 rfl dwTagCompileUnit).of_eq_ok hasA
    rw [if_pos (by rfl)] at hcu
    obtain rfl := Option.some.inj hcu
    refine ⟨makeNew_standing h hsmaller hroot (by decide) (by decide) ⟨rfl, .inl rfl⟩ hmake, hnew,
      hr₄, ?_, ?_⟩
    · rw [hmoved₄.tables]
      exact hvis₃
    · rw [hmoved₄.tables, htables₃, htables₂, htables₁]
      refine ⟨?_, fun y hy => ?_⟩
      · simp [syntheticUnit]
      · exact Function.update_of_ne (hcall.offset_ne h hsmaller hy) _ _

end Creation

section Call

/-- What a call needs of a root and keeps: the root knows the tree, the visibilities are constants,
the cache of visible names has DIEs under names that they have, and the synthetic CU is one. -/
structure Ready (t : List Node) (r : Root) (syntheticCu : Option ℕ) : Prop where
  consistent : Consistent t r
  visibility : ConstantVisibility t r.tables.attrs
  cache : ∀ name off, (name, off) ∈ r.tables.visibleNamedGrandchildrenCache →
    off ∈ grandchildOffsets t ∧ nameOf r.tables.attrs off = some name
  unit : ∀ off, syntheticCu = some off → syntheticUnit off ∈ t

/-- What a search for all of a name answers with, in order: what is cached, and then what is swept. -/
def searchOrder (t : List Node) (tables : Tables) (name : String) : List ℕ :=
  tables.cached name ++
    (tables.asked t name false).filter (answers tables.attrs name (tables.cached name))

theorem cached_tested (tables : Tables) (offs rest : List ℕ) (name : String) :
    (tables.tested offs rest).cached name = tables.cached name ++
      offs.filter fun off => visibleName tables.attrs off = some name := by
  unfold Tables.tested Tables.cached
  rw [List.filter_append, List.map_append]
  congr 1
  induction offs with
  | nil => rfl
  | cons off offs ih =>
    rw [List.filterMap_cons, List.filter_cons]
    cases hname : visibleName tables.attrs off with
    | none => simpa using ih
    | some n =>
      by_cases hn : n = name
      · simpa [hn] using ih
      · simpa [hn] using ih

/-- **A search leaves its answers in the cache**: what comes first there is what came first. -/
theorem find_cached_tested (t : List Node) (tables : Tables) (rest : List ℕ) (name : String)
    (p : ℕ → Bool) :
    ((tables.tested (tables.asked t name false) rest).cached name).find? p =
      (searchOrder t tables name).find? p := by
  rw [cached_tested, searchOrder, List.find?_append, List.find?_append]
  cases hcached : (tables.cached name).find? p with
  | some off => rfl
  | none =>
    rw [Option.none_or, Option.none_or, List.find?_filter, List.find?_filter]
    congr 1
    funext off
    cases hp : p off with
    | false => simp
    | true =>
      have hnot : off ∉ tables.cached name := fun hin =>
        absurd hp (List.find?_eq_none.1 hcached off hin)
      simp [answers, hnot]

theorem mem_searchOrder {syntheticCu : Option ℕ} (h : Ready t r syntheticCu) {name : String}
    {off : ℕ} (hoff : off ∈ searchOrder t r.tables name) :
    ∃ y ∈ t, y.offset = off ∧ y.offset ≠ 0 ∧ nameOf r.tables.attrs off = some name := by
  have hmem : off ∈ grandchildOffsets t ∧ nameOf r.tables.attrs off = some name := by
    rcases List.mem_append.1 hoff with hoff | hoff
    · exact h.cache name off (mem_cached.1 hoff)
    · obtain ⟨hasked, hanswers⟩ := List.mem_filter.1 hoff
      exact ⟨asked_sublist.subset hasked, nameOf_of_visibleName (of_decide_eq_true hanswers).1⟩
  obtain ⟨y, hy, hd, rfl⟩ := mem_grandchildOffsets.1 hmem.1
  refine ⟨y, hy, rfl, fun h0 => ?_, hmem.2⟩
  have := (h.consistent.wellFormed.depth_eq_zero_iff hy).2 h0
  omega

variable {syntheticCu syntheticCu' : Option ℕ} {srk : Srk31 (fuel + 1)} {hasCase : ℕ → Bool}
  {name : String} {size offset : ℕ} {bt it : Iterator}

/-- A search keeps a root ready. -/
theorem Ready.tested {rest : List ℕ} (h : Ready t r syntheticCu) (hr' : Consistent t r')
    (htables : r'.tables = r.tables.tested (r.tables.asked t name false) rest) :
    Ready t r' syntheticCu := by
  refine ⟨hr', ?_, ?_, h.unit⟩
  · rw [htables]
    exact h.visibility
  · intro n off hin
    rw [htables] at hin ⊢
    rcases List.mem_append.1 hin with hin | hin
    · exact h.cache n off hin
    · obtain ⟨o, ho, hn⟩ := List.mem_filterMap.1 hin
      obtain ⟨m, hm, hpair⟩ := Option.map_eq_some_iff.1 hn
      obtain ⟨rfl, rfl⟩ := Prod.mk.inj hpair
      exact ⟨asked_sublist.subset ho, nameOf_of_visibleName hm⟩

/-- **The search and what is kept of it.** -/
theorem search_eq_ok (h : Ready t r syntheticCu) (hfuel : EnoughFuel t fuel)
    {res kept : List Iterator} {r₁ : Root}
    (hsearch : findAllVisibleGrandchildrenNamed (fuel + 1) srk name r = .ok (res, r₁))
    (hkeep : keepEqualInBits size offset res r₁ = .ok (kept, r')) :
    Ready t r' syntheticCu ∧
      kept.map Iterator.offset = (searchOrder t r.tables name).filter (r.fits (size, offset)) ∧
      ∃ rest, r'.tables = r.tables.tested (r.tables.asked t name false) rest := by
  have hsearches : Searches t (resolveAllVisibleFromRoot (fuel + 1) srk name
      (if false then 1 else 0)) r _ :=
    resolveAllVisibleFromRoot_searches h.consistent (hfuel.mono (Nat.le_succ fuel)) h.visibility
      fun off hoff => (h.cache name off (mem_cached.1 hoff)).1
  obtain ⟨hr₁, -, rest, htables₁, -, hres⟩ := (hsearches.unless (c := True)).of_eq_ok hsearch
  have hready₁ := h.tested hr₁ htables₁
  replace hres : res.map Iterator.offset = searchOrder t r.tables name := hres
  have hits : ∀ it ∈ res, ∃ x ∈ t, x.offset = it.offset ∧ x.offset ≠ 0 := by
    intro it hit
    obtain ⟨y, hy, hyoff, h0, -⟩ := mem_searchOrder h
      (hres ▸ List.mem_map_of_mem (f := Iterator.offset) hit)
    exact ⟨y, hy, hyoff, h0⟩
  obtain ⟨hr', hmoved, rfl⟩ := (keepEqualInBits_ifReturns hr₁ size offset hits).of_eq_ok hkeep
  have htables : r'.tables = r.tables.tested (r.tables.asked t name false) rest :=
    hmoved.tables.trans htables₁
  refine ⟨h.tested hr' htables, ?_, rest, htables⟩
  rw [← hres, List.filter_map]
  congr 1
  refine List.filter_congr fun it hit => ?_
  obtain ⟨y, hy, hyoff, h0⟩ := hits it hit
  rw [Function.comp_apply, ← hyoff]
  exact fits_congr h.consistent hr₁ hy hy h0 (by rw [htables₁]; rfl) (size, offset)

/-- The tree after a call that gave the DIE at `d`.  If no base type of that name has the bits, the
DIE is the last child of the synthetic CU. -/
def treeAfter (t : List Node) (r : Root) (name : String) (bits : ℕ × ℕ)
    (syntheticCu syntheticCu' : Option ℕ) (d : ℕ) : List Node :=
  match (searchOrder t r.tables name).find? (r.fits bits), syntheticCu' with
  | none, some off =>
    withChild (withUnit t syntheticCu off) (syntheticUnit off) ⟨d, 2, dwTagBaseType, true⟩
  | _, _ => t

theorem sublist_withChild (t : List Node) (x n : Node) : t.Sublist (withChild t x n) := by
  unfold withChild
  induction t with
  | nil => exact List.Sublist.refl []
  | cons y l ih =>
    rw [addLast]
    split_ifs
    · have hsplit : subtree Node.depth (y :: l) ++ after Node.depth (y :: l) = y :: l :=
        subtree_append_after _
      conv_lhs => rw [← hsplit]
      exact (List.Sublist.refl _).append (List.sublist_cons_self n _)
    · exact ih.cons_cons y

theorem EnoughFuel.sublist {t' : List Node} (h : EnoughFuel t' fuel) (hsub : t.Sublist t') :
    EnoughFuel t fuel :=
  ⟨hsub.length_le.trans_lt h.1, fun y hy => h.2 y (hsub.subset hy)⟩

theorem sublist_treeAfter (t : List Node) (r : Root) (name : String) (bits : ℕ × ℕ)
    (syntheticCu syntheticCu' : Option ℕ) (d : ℕ) :
    t.Sublist (treeAfter t r name bits syntheticCu syntheticCu' d) := by
  unfold treeAfter
  split
  · refine List.Sublist.trans ?_ (sublist_withChild _ _ _)
    unfold withUnit
    split_ifs
    · exact sublist_withChild _ _ _
    · exact List.Sublist.refl t
  · exact List.Sublist.refl t

theorem treeAfter_found {bits : ℕ × ℕ} {d d' : ℕ}
    (h : (searchOrder t r.tables name).find? (r.fits bits) = some d') :
    treeAfter t r name bits syntheticCu syntheticCu' d = t := by
  unfold treeAfter
  rw [h]

theorem treeAfter_none {bits : ℕ × ℕ} {d off : ℕ}
    (h : (searchOrder t r.tables name).find? (r.fits bits) = none) :
    treeAfter t r name bits syntheticCu (some off) d =
      withChild (withUnit t syntheticCu off) (syntheticUnit off) ⟨d, 2, dwTagBaseType, true⟩ := by
  unfold treeAfter
  rw [h]

/-- How a root goes on: the DIEs of `t` are there still, with their attributes, and the cache of visible
names grows. -/
structure Grows (t : List Node) (r : Root) (t' : List Node) (r' : Root) : Prop where
  mem : ∀ y ∈ t, y ∈ t'
  attrs : ∀ y ∈ t, r'.tables.attrs y.offset = r.tables.attrs y.offset
  cache : r.tables.visibleNamedGrandchildrenCache <+: r'.tables.visibleNamedGrandchildrenCache

theorem Grows.refl (t : List Node) (r : Root) : Grows t r t r :=
  ⟨fun _ h => h, fun _ _ => rfl, List.prefix_rfl⟩

theorem Grows.trans {t' t'' : List Node} {r'' : Root} (h : Grows t r t' r')
    (h' : Grows t' r' t'' r'') : Grows t r t'' r'' :=
  ⟨fun y hy => h'.mem y (h.mem y hy), fun y hy => (h'.attrs y (h.mem y hy)).trans (h.attrs y hy),
    h.cache.trans h'.cache⟩

theorem Grows.cached {t' : List Node} (h : Grows t r t' r') (name : String) :
    r.tables.cached name <+: r'.tables.cached name :=
  (h.cache.filter _).map _

/-- What a call comes to that wants a base type `name` of these bits: the first in the order of the
search, or one that is created. -/
inductive Outcome (t : List Node) (r : Root) (name : String) (bits : ℕ × ℕ) (encoding : Option ℕ)
    (d : ℕ) (t' : List Node) (r' : Root) : Prop
  | found (old : d ∈ t.map Node.offset)
      (first : (searchOrder t r.tables name).find? (r.fits bits) = some d)
      (cached : (r'.tables.cached name).find? (r.fits bits) = some d)
  | created (new : d ∉ t.map Node.offset)
      (none : (searchOrder t r.tables name).find? (r.fits bits) = none)
      (mem : ⟨d, 2, dwTagBaseType, true⟩ ∈ t')
      (attrs : ∃ e, encoding = some e ∧
        r'.tables.attrs d = bitfieldAttributes name bits.1 bits.2 e)
      (cached : ∃ offs, r'.tables.cached name = offs ++ [d] ∧ ∀ off ∈ offs,
        off ∈ t.map Node.offset ∧ r.fits bits off = false)

/-- **What is created** below the synthetic CU. -/
theorem createBaseType_eq_ok (h : Ready t r syntheticCu) (hbt : ∃ y ∈ t, y.offset = bt.offset)
    (hrun : createBaseType (fuel + 1) hasCase name size offset bt syntheticCu r =
      .ok ((it, syntheticCu'), r'))
    (hfuel : ∀ off, syntheticCu' = some off → EnoughFuel (withChild (withUnit t syntheticCu off)
      (syntheticUnit off) ⟨it.offset, 2, dwTagBaseType, true⟩) fuel) :
    it.offset ∉ t.map Node.offset ∧ ∃ off t', syntheticCu' = some off ∧
      t' = withChild (withUnit t syntheticCu off) (syntheticUnit off)
        ⟨it.offset, 2, dwTagBaseType, true⟩ ∧
      Ready t' r' syntheticCu' ∧ Grows t r t' r' ∧ ⟨it.offset, 2, dwTagBaseType, true⟩ ∈ t' ∧
      (∃ e, getUnsigned r.tables.attrs bt.offset dwAtEncoding = some e ∧
        r'.tables.attrs it.offset = bitfieldAttributes name size offset e) ∧
      r'.tables.visibleNamedGrandchildrenCache =
        r.tables.visibleNamedGrandchildrenCache ++ [(name, it.offset)] := by
  obtain ⟨⟨res, cu'⟩, r₁, hunit, hrun⟩ := stateT_bind_eq_ok hrun
  cases res with
  | none => exact absurd hrun (by simp [throw, throwThe, MonadExceptOf.throw, StateT.lift])
  | some cu =>
  obtain ⟨created, r₂, hcreate, hrun⟩ := stateT_bind_eq_ok hrun
  obtain ⟨hpair, rfl⟩ := Prod.mk.inj (Except.ok.inj hrun)
  obtain ⟨rfl, rfl⟩ := Prod.mk.inj hpair
  obtain ⟨off, rfl, hcu, hmem, hr₁, hvis₁, honly, hkept⟩ :=
    getOrCreateSyntheticCu_eq_ok h.consistent h.visibility h.unit hunit
      fun off hoff => (hfuel off hoff).sublist (sublist_withChild _ _ _)
  have hfuel := hfuel off rfl
  have hin : ∀ y ∈ t, y ∈ withUnit t syntheticCu off :=
    fun y hy => mem_withUnit h.consistent.wellFormed.root_mem hy
  obtain ⟨y, hy, hyoff⟩ := hbt
  obtain ⟨hnew, hr₂, hvis₂, e, hencoding, htables₂⟩ :=
    createBelow_eq_ok hr₁ hvis₁ hmem rfl hcu ⟨y, hin y hy, hyoff⟩ hcreate hfuel
  have hfresh : created.offset ∉ t.map Node.offset := by
    intro hmem
    obtain ⟨z, hz, hzoff⟩ := List.mem_map.1 hmem
    exact hnew z (hin z hz) hzoff
  have hattrs : ∀ z ∈ t, r₂.tables.attrs z.offset = r.tables.attrs z.offset := by
    intro z hz
    rw [htables₂, ← hkept z hz]
    exact Function.update_of_ne (hnew z (hin z hz)) _ _
  have hself : r₂.tables.attrs created.offset = bitfieldAttributes name size offset e := by
    rw [htables₂]
    exact Function.update_self _ _ _
  have hcache : r₂.tables.visibleNamedGrandchildrenCache =
      r.tables.visibleNamedGrandchildrenCache ++ [(name, created.offset)] := by
    rw [htables₂, honly]
    rfl
  have hmem' : ∀ z ∈ withUnit t syntheticCu off, z ∈ withChild (withUnit t syntheticCu off)
      (syntheticUnit off) ⟨created.offset, 2, dwTagBaseType, true⟩ :=
    fun z hz => (mem_withChild hmem).2 (.inr hz)
  have hlast : (⟨created.offset, 2, dwTagBaseType, true⟩ : Node) ∈
      withChild (withUnit t syntheticCu off) (syntheticUnit off)
        ⟨created.offset, 2, dwTagBaseType, true⟩ := (mem_withChild hmem).2 (.inl rfl)
  refine ⟨hfresh, off, _, rfl, rfl, ⟨hr₂, hvis₂, ?_, ?_⟩,
    ⟨fun z hz => hmem' z (hin z hz), hattrs, ?_⟩, hlast, ⟨e, ?_, hself⟩, hcache⟩
  · intro n o ho
    rw [hcache] at ho
    rcases List.mem_append.1 ho with ho | ho
    · obtain ⟨hoff, hname⟩ := h.cache n o ho
      obtain ⟨z, hz, hd, rfl⟩ := mem_grandchildOffsets.1 hoff
      refine ⟨mem_grandchildOffsets.2 ⟨z, hmem' z (hin z hz), hd, rfl⟩, ?_⟩
      unfold nameOf at hname ⊢
      rwa [hattrs z hz]
    · obtain ⟨rfl, rfl⟩ := Prod.mk.inj (List.mem_singleton.1 ho)
      refine ⟨mem_grandchildOffsets.2 ⟨_, hlast, rfl, rfl⟩, ?_⟩
      unfold nameOf
      rw [hself]
      rfl
  · rintro _ ⟨⟩
    exact hmem' _ hmem
  · rw [hcache]
    exact List.prefix_append _ _
  · unfold getUnsigned at hencoding ⊢
    rwa [← hyoff, ← hkept y hy, hyoff]

/-- **The search by name and bits.** -/
theorem findOrCreateNamed_eq_ok (h : Ready t r syntheticCu)
    (hbt : ∃ y ∈ t, y.offset = bt.offset)
    (hrun : findOrCreateNamed (fuel + 1) hasCase srk name size offset bt syntheticCu r =
      .ok ((it, syntheticCu'), r'))
    {t' : List Node}
    (ht' : t' = treeAfter t r name (size, offset) syntheticCu syntheticCu' it.offset)
    (hfuel : EnoughFuel t' fuel) :
    Ready t' r' syntheticCu' ∧ Grows t r t' r' ∧
      Outcome t r name (size, offset) (getUnsigned r.tables.attrs bt.offset dwAtEncoding)
        it.offset t' r' := by
  have hsub : t.Sublist t' := ht' ▸ sublist_treeAfter t r name (size, offset) _ _ _
  obtain ⟨res, r₁, hsearch, hrun⟩ := stateT_bind_eq_ok hrun
  obtain ⟨kept, r₂, hkeep, hrun⟩ := stateT_bind_eq_ok hrun
  obtain ⟨hready₂, hkept, rest, htables₂⟩ :=
    search_eq_ok h (hfuel.sublist hsub) hsearch hkeep
  have hgrows₂ : Grows t r t r₂ := by
    refine ⟨fun _ hy => hy, fun _ _ => by rw [htables₂]; rfl, ?_⟩
    rw [htables₂]
    exact List.prefix_append _ _
  have hfind := find_cached_tested t r.tables rest name (r.fits (size, offset))
  rw [← htables₂] at hfind
  have hhead : (kept.map Iterator.offset).head? =
      (searchOrder t r.tables name).find? (r.fits (size, offset)) := by
    rw [hkept, List.head?_filter]
  cases kept with
  | cons first kept =>
    obtain ⟨hpair, rfl⟩ := Prod.mk.inj (Except.ok.inj hrun)
    obtain ⟨rfl, rfl⟩ := Prod.mk.inj hpair
    rw [List.map_cons, List.head?_cons] at hhead
    obtain ⟨y, hy, hyoff, -, -⟩ := mem_searchOrder h (List.mem_of_find?_eq_some hhead.symm)
    have hold : first.offset ∈ t.map Node.offset := List.mem_map.2 ⟨y, hy, hyoff⟩
    rw [treeAfter_found hhead.symm] at ht'
    subst ht'
    exact ⟨hready₂, hgrows₂, .found hold hhead.symm (hfind.trans hhead.symm)⟩
  | nil =>
    rw [List.map_nil, List.head?_nil] at hhead
    have htree : ∀ off, syntheticCu' = some off → t' = withChild (withUnit t syntheticCu off)
        (syntheticUnit off) ⟨it.offset, 2, dwTagBaseType, true⟩ := by
      rintro off rfl
      rw [ht', treeAfter_none hhead.symm]
    obtain ⟨hnew, off, t'', hoff, rfl, hready, hgrows, hmem, ⟨e, he, hattrs⟩, hcache⟩ :=
      createBaseType_eq_ok hready₂ hbt hrun fun off hoff => htree off hoff ▸ hfuel
    rw [← htree off hoff] at hready hgrows hmem
    refine ⟨hready, hgrows₂.trans hgrows, .created hnew hhead.symm hmem ⟨e, ?_, hattrs⟩
      ⟨r₂.tables.cached name, ?_, fun off hoff => ⟨?_, ?_⟩⟩⟩
    · rw [htables₂] at he
      exact he
    · unfold Tables.cached
      rw [hcache, List.filter_append, List.map_append]
      simp
    · have hmem₂ := (hready₂.cache name off (mem_cached.1 hoff)).1
      obtain ⟨z, hz, -, rfl⟩ := mem_grandchildOffsets.1 hmem₂
      exact List.mem_map_of_mem hz
    · rw [← hhead] at hfind
      exact Bool.eq_false_iff.2 (List.find?_eq_none.1 hfind off hoff)

end Call

end Dies
end Dwarfpp
