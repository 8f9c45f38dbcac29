/-
# What the overrides of `may_equal` decide

`LocallyEqual g S t u` is the condition `t`'s override of `may_equal` puts on
`u`, where `S` says which of the types they refer to are equal.  `mayEqual_decides`
proves it decided, in any monad, whenever the questions it asks are answered.
-/

import Mathlib
import Dwarfpp.Types.MayEqual

namespace Dwarfpp
namespace Types

open Lib Dwarfpp.Expr

section Condition

variable {ι : Type} (g : TypeGraph ι) (S : ι → ι → Prop)

/-- Corresponding references: `void` corresponds to `void` only. -/
def VoidOr : Option ι → Option ι → Prop
  | none, none => True
  | some a, some b => S a b
  | _, _ => False

/-- Every reference of ours corresponds to one of theirs. -/
def Given (a b : Option ι) : Prop := ∀ x, a = some x → ∃ y, b = some y ∧ S x y

/-- **The condition of each class.** -/
def LocallyEqual (t u : ι) : Prop :=
  match (g t).tag.cls with
  | .base => (g t).tag = (g u).tag ∧ (g t).name = (g u).name ∧ (g t).encoding = (g u).encoding ∧
      (g t).byteSize = (g u).byteSize ∧ (g t).bitSize = (g u).bitSize ∧
      (g t).bitOffset = (g u).bitOffset
  | .unspecified => (g u).tag = (g t).tag
  | .string => (g t).tag = (g u).tag ∧ (g t).name = (g u).name ∧
      (g u).stringLength = (g t).stringLength ∧
      ((g t).stringLength = none → (g t).byteSize = (g u).byteSize)
  | .subrange => ((g t).tag = (g u).tag ∧ (g t).name = (g u).name) ∧
      VoidOr S (g t).type (g u).type ∧ (g t).lowerBound = (g u).lowerBound ∧
      (g t).upperBound = (g u).upperBound ∧ (g t).count = (g u).count
  | .enumeration => ((g t).tag = (g u).tag ∧ (g t).name = (g u).name) ∧
      VoidOr S (g t).type (g u).type ∧ (g t).enumerators = (g u).enumerators
  | .array => ((g t).tag = (g u).tag ∧ (g t).name = (g u).name) ∧
      List.Forall₂ (fun a b => Given S (g a).type (g b).type) (g t).subranges (g u).subranges ∧
      Given S (g t).type (g u).type
  | .typedef => (∃ name, (g t).name = some name ∧ (g u).tag = .typedef ∧
        (g u).name = some name) ∧
      (g t).tag = (g u).tag ∧ VoidOr S (g t).type (g u).type
  | .ptrToMember => ∃ fuel c a, getConcreteType g fuel u = .ok (some c) ∧
      (g c).tag = .ptrToMemberType ∧ (g c).type = some a ∧ Given S (some a) (g t).type
  | .typeChain => (g t).tag = (g u).tag ∧ VoidOr S (g t).type (g u).type
  | .withDataMembers => ((g t).tag = (g u).tag ∧ (g t).name = (g u).name ∧
        ((g t).name = none → (g t).associatedName = (g u).associatedName)) ∧
      List.Forall₂ (fun a b => VoidOr S a.typeHandlingBitfields b.typeHandlingBitfields ∧
        a.dataMemberLocation = b.dataMemberLocation) (g t).members (g u).members
  | .typeDescribingSubprogram => ((g t).tag = (g u).tag ∧ (g t).name = (g u).name) ∧
      (VoidOr S (g t).type (g u).type ∧ (g t).isVariadic = (g u).isVariadic) ∧
      List.Forall₂ (fun a b => VoidOr S b.type a.type) (g t).formalParameters
        (g u).formalParameters

/-- The types a type refers to. -/
def references (t : ι) : List ι :=
  (g t).type.toList ++ (g t).subranges.filterMap (fun s => (g s).type) ++
    (g t).members.filterMap (·.typeHandlingBitfields) ++ (g t).formalParameters.filterMap (·.type)

/-- The attributes that `may_equal` asserts to be there, or dereferences. -/
structure Complete (d : TypeDie ι) : Prop where
  typedefNamed : d.tag = .typedef → d.name.isSome
  elementType : d.tag = .arrayType → d.type.isSome
  memberTypes : d.tag.cls = .withDataMembers → ∀ c ∈ d.members, c.typeHandlingBitfields.isSome
  parameterTypes : d.tag.cls = .typeDescribingSubprogram →
    ∀ c ∈ d.formalParameters, c.type.isSome

instance (d : TypeDie ι) : Decidable (Complete d) :=
  decidable_of_iff
    ((d.tag = .typedef → d.name.isSome) ∧ (d.tag = .arrayType → d.type.isSome) ∧
      (d.tag.cls = .withDataMembers → ∀ c ∈ d.members, c.typeHandlingBitfields.isSome) ∧
      (d.tag.cls = .typeDescribingSubprogram → ∀ c ∈ d.formalParameters, c.type.isSome))
    ⟨fun ⟨hn, he, hm, hp⟩ => ⟨hn, he, hm, hp⟩, fun ⟨hn, he, hm, hp⟩ => ⟨hn, he, hm, hp⟩⟩

variable {S} in
theorem VoidOr.mono {S' : ι → ι → Prop} (h : ∀ a b, S a b → S' a b) {a b : Option ι}
    (hab : VoidOr S a b) : VoidOr S' a b := by
  cases a <;> cases b
  · trivial
  · exact hab
  · exact hab
  · exact h _ _ hab

variable {S} in
theorem Given.mono {S' : ι → ι → Prop} (h : ∀ a b, S a b → S' a b) {a b : Option ι}
    (hab : Given S a b) : Given S' a b := by
  intro x hx
  obtain ⟨y, hy, hxy⟩ := hab x hx
  exact ⟨y, hy, h x y hxy⟩

theorem locallyEqual_mono (t u : ι) : Monotone fun S => LocallyEqual g S t u := by
  intro S S' hS h
  have hv : ∀ {a b : Option ι}, VoidOr S a b → VoidOr S' a b := VoidOr.mono hS
  have hg : ∀ {a b : Option ι}, Given S a b → Given S' a b := Given.mono hS
  unfold LocallyEqual at h ⊢
  cases hcls : (g t).tag.cls <;> rw [hcls] at h
  case base | unspecified | string => exact h
  case subrange => exact h.imp_right (And.imp_left hv)
  case enumeration => exact h.imp_right (And.imp_left hv)
  case array => exact h.imp_right fun h => ⟨h.1.imp fun _ _ => hg, hg h.2⟩
  case typedef => exact h.imp_right (And.imp_right hv)
  case ptrToMember =>
    obtain ⟨fuel, c, a, hc, htag, ha, hab⟩ := h
    exact ⟨fuel, c, a, hc, htag, ha, hg hab⟩
  case typeChain => exact h.imp_right hv
  case withDataMembers => exact h.imp_right fun h => h.imp fun _ _ => And.imp_left hv
  case typeDescribingSubprogram =>
    exact h.imp_right fun h => ⟨h.1.imp_left hv, h.2.imp fun _ _ => hv⟩

/-- No two pointers to members are ever found equal: a concrete type is never one. -/
theorem not_locallyEqual_ptrToMember {t : ι} (ht : (g t).tag = .ptrToMemberType) (u : ι) :
    ¬LocallyEqual g S t u := by
  rw [LocallyEqual, ht]
  rintro ⟨fuel, c, a, hc, htag, -⟩
  have := chains_of_getConcreteType g hc
  rw [htag] at this
  exact nomatch this

variable {g S} in
/-- Every override compares the tags. -/
theorem tag_eq_of_locallyEqual {t u : ι} (h : LocallyEqual g S t u) : (g t).tag = (g u).tag := by
  unfold LocallyEqual at h
  cases hcls : (g t).tag.cls <;> rw [hcls] at h
  case base | string => exact h.1
  case unspecified => exact h.symm
  case subrange | enumeration | array | typeDescribingSubprogram | withDataMembers => exact h.1.1
  case typedef => exact h.2.1
  case typeChain => exact h.1
  case ptrToMember =>
    obtain ⟨fuel, c, a, hc, htag, -⟩ := h
    have := chains_of_getConcreteType g hc
    rw [htag] at this
    exact nomatch this

end Condition

section Decides

variable {m : Type → Type} [Monad m] (M : Returns m)
variable {ι : Type} {g : TypeGraph ι} {fuel : ℕ} {equal : Compare m ι}
variable {certain : Prop} {S : ι → ι → Prop}

/-- A result that is not `UNEQUAL` exactly if `p` holds, and by no assumption if `certain`. -/
def Decides (certain : Prop) (p : Prop) (r : EqualResult) : Prop :=
  (r ≠ .unequal ↔ p) ∧ (certain → r ≠ .equalByAssumption)

theorem decides_ofBool {p : Prop} {b : Bool} (h : b = true ↔ p) :
    Decides certain p (.ofBool b) := by
  cases b with
  | false => exact ⟨⟨fun h' => absurd rfl h', fun hp => absurd (h.2 hp) Bool.false_ne_true⟩,
      fun _ => EqualResult.noConfusion⟩
  | true => exact ⟨⟨fun _ => h.1 rfl, fun _ => EqualResult.noConfusion⟩,
      fun _ => EqualResult.noConfusion⟩

theorem decides_unequal {p : Prop} (h : ¬p) : Decides certain p .unequal :=
  ⟨⟨fun h' => absurd rfl h', fun hp => absurd hp h⟩, fun _ => EqualResult.noConfusion⟩

theorem decides_equal {p : Prop} (h : p) : Decides certain p .equal :=
  ⟨⟨fun _ => h, fun _ => EqualResult.noConfusion⟩, fun _ => EqualResult.noConfusion⟩

/-- The questions about the types `asked` are answered: `equal` returns, and decides `S`.  If
`askedVoid`, it also answers about `void`. -/
structure Answers (certain askedVoid : Prop) (asked S : ι → ι → Prop) (equal : Compare m ι)
    (asm : Assumptions ι) : Prop where
  type : ∀ a b, asked a b → M.Ret (equal a (some b) asm) (Decides certain (S a b))
  void : askedVoid → ∀ a, M.Ret (equal a none asm) (· = .unequal)

variable {M} {askedVoid : Prop} {asked : ι → ι → Prop} {asm : Assumptions ι}

theorem referencesEqual_decides (h : Answers M certain askedVoid asked S equal asm) {a b : Option ι}
    (hab : ∀ x y, a = some x → b = some y → asked x y) :
    M.Ret (referencesEqual equal asm a b) (Decides certain (VoidOr S a b)) := by
  cases a with
  | none =>
    cases b with
    | none => exact M.ret_pure (decides_equal trivial)
    | some y => exact M.ret_pure (decides_unequal id)
  | some x =>
    cases b with
    | none => exact M.ret_pure (decides_unequal id)
    | some y => exact h.type x y (hab x y rfl rfl)

/-- One reference of ours, against whatever theirs is. -/
theorem given_decides (h : Answers M certain askedVoid asked S equal asm) {x : ι} {b : Option ι}
    (hxb : ∀ y, b = some y → asked x y) (hb : askedVoid ∨ b.isSome) :
    M.Ret (equal x b asm) (Decides certain (Given S (some x) b)) := by
  cases b with
  | none =>
    refine M.ret_mono (h.void (hb.resolve_right Bool.false_ne_true) x) ?_
    rintro r rfl
    refine decides_unequal fun hg => ?_
    obtain ⟨y, hy, -⟩ := hg x rfl
    exact nomatch hy
  | some y =>
    refine M.ret_mono (h.type x y (hxb y rfl)) fun r hr => ⟨hr.1.trans ?_, hr.2⟩
    constructor
    · intro hxy x' hx'
      obtain rfl := Option.some.inj hx'
      exact ⟨y, rfl, hxy⟩
    · intro hg
      obtain ⟨y', hy', hxy⟩ := hg x rfl
      obtain rfl := Option.some.inj hy'
      exact hxy

theorem subrangesMayEqual_decides (h : Answers M certain askedVoid asked S equal asm)
    {os ts : List ι}
    (hot : ∀ a ∈ os, ∀ b ∈ ts, ∀ x y, (g a).type = some x → (g b).type = some y → asked x y)
    (hvoid : askedVoid ∨ ∀ p ∈ os.zip ts, (g p.1).type.isSome → (g p.2).type.isSome) :
    M.Ret (subrangesMayEqual g equal asm os ts)
      (fun r => r = true ↔ List.Forall₂ (fun a b => Given S (g a).type (g b).type) os ts) := by
  induction os generalizing ts with
  | nil =>
    cases ts with
    | nil => exact M.ret_pure (by simp)
    | cons b ts => exact M.ret_pure (by simp)
  | cons a os ih =>
    cases ts with
    | nil => exact M.ret_pure (by simp)
    | cons b ts =>
      have hrest : M.Ret (subrangesMayEqual g equal asm os ts) _ := ih (fun a' ha' b' hb' =>
        hot a' (List.mem_cons_of_mem _ ha') b' (List.mem_cons_of_mem _ hb'))
        (hvoid.imp_right fun hv p hp => hv p (List.mem_cons_of_mem _ hp))
      rw [subrangesMayEqual]
      cases ha : (g a).type with
      | none =>
        refine M.ret_mono hrest fun r hr => hr.trans ?_
        have hnone : Given S none (g b).type := fun x hx => nomatch hx
        simp [ha, hnone]
      | some x =>
        have hb : askedVoid ∨ (g b).type.isSome :=
          hvoid.imp_right fun hv => hv (a, b) List.mem_cons_self (Option.isSome_iff_exists.2 ⟨x, ha⟩)
        refine M.ret_bind (given_decides h (fun y hy =>
          hot a List.mem_cons_self b List.mem_cons_self x y ha hy) hb) fun r hr => ?_
        by_cases hne : r = .unequal
        · have hng : ¬Given S (some x) (g b).type := fun hg => hr.1.2 hg hne
          rw [if_neg (not_not.2 hne)]
          exact M.ret_pure (by simp [ha, hng])
        · have hg : Given S (some x) (g b).type := hr.1.1 hne
          rw [if_pos hne]
          exact M.ret_mono hrest fun r hr => hr.trans (by simp [ha, hg])

variable [MonadExceptOf Fault m]

/-- The members of two types, compared in order. -/
theorem membersMayEqual_decides {recursive : Assumptions ι}
    (h : Answers M certain askedVoid asked S equal recursive) {os ts : List (DataMember ι)}
    (ho : ∀ c ∈ os, c.typeHandlingBitfields.isSome) (ht : ∀ c ∈ ts, c.typeHandlingBitfields.isSome)
    (hot : ∀ a ∈ os, ∀ b ∈ ts, ∀ x y, a.typeHandlingBitfields = some x →
      b.typeHandlingBitfields = some y → asked x y)
    {ret : EqualResult} (hret : Decides certain True ret) :
    M.Ret (membersMayEqual equal asm recursive os ts ret) (Decides certain
      (List.Forall₂ (fun a b => VoidOr S a.typeHandlingBitfields b.typeHandlingBitfields ∧
        a.dataMemberLocation = b.dataMemberLocation) os ts)) := by
  induction os generalizing ts ret with
  | nil =>
    cases ts with
    | nil =>
      refine M.ret_pure ⟨hret.1.trans ?_, hret.2⟩
      simp
    | cons b ts => exact M.ret_pure (decides_unequal (by simp))
  | cons a os ih =>
    cases ts with
    | nil => exact M.ret_pure (decides_unequal (by simp))
    | cons b ts =>
      obtain ⟨x, hx⟩ := Option.isSome_iff_exists.1 (ho a List.mem_cons_self)
      obtain ⟨y, hy⟩ := Option.isSome_iff_exists.1 (ht b List.mem_cons_self)
      rw [membersMayEqual, hx, hy]
      refine M.ret_bind
        (h.type x y (hot a List.mem_cons_self b List.mem_cons_self x y hx hy)) fun r hr => ?_
      by_cases hne : r = .unequal
      · have hn : ¬S x y := fun hS => hr.1.2 hS hne
        rw [if_pos hne]
        exact M.ret_pure (decides_unequal (by simp [hx, hy, VoidOr, hn]))
      · have hS : S x y := hr.1.1 hne
        rw [if_neg hne]
        by_cases hloc : a.dataMemberLocation = b.dataMemberLocation
        · rw [if_pos hloc]
          refine M.ret_mono (ih (fun c hc => ho c (List.mem_cons_of_mem _ hc))
            (fun c hc => ht c (List.mem_cons_of_mem _ hc))
            (fun a' ha' b' hb' => hot a' (List.mem_cons_of_mem _ ha') b'
              (List.mem_cons_of_mem _ hb')) ?_) fun r' hr' => ⟨hr'.1.trans ?_, hr'.2⟩
          · split_ifs with hby
            · exact ⟨⟨fun _ => trivial, fun _ => EqualResult.noConfusion⟩,
                fun hc => absurd hby.1 (hr.2 hc)⟩
            · exact hret
          · simp [hx, hy, VoidOr, hS, hloc]
        · rw [if_neg hloc]
          exact M.ret_pure (decides_unequal (by simp [hloc]))

/-- The formal parameters of two types, compared in order. -/
theorem formalParametersMayEqual_decides (h : Answers M certain askedVoid asked S equal asm)
    {os ts : List (FormalParameter ι)}
    (ho : ∀ c ∈ os, c.type.isSome) (ht : ∀ c ∈ ts, c.type.isSome)
    (hot : ∀ a ∈ os, ∀ b ∈ ts, ∀ x y, a.type = some x → b.type = some y → asked y x)
    {ret : EqualResult} (hret : Decides certain True ret) :
    M.Ret (formalParametersMayEqual equal asm os ts ret) (Decides certain
      (List.Forall₂ (fun a b => VoidOr S b.type a.type) os ts)) := by
  induction os generalizing ts ret with
  | nil =>
    cases ts with
    | nil =>
      refine M.ret_pure ⟨hret.1.trans ?_, hret.2⟩
      simp
    | cons b ts => exact M.ret_pure (decides_unequal (by simp))
  | cons a os ih =>
    cases ts with
    | nil => exact M.ret_pure (decides_unequal (by simp))
    | cons b ts =>
      obtain ⟨x, hx⟩ := Option.isSome_iff_exists.1 (ho a List.mem_cons_self)
      obtain ⟨y, hy⟩ := Option.isSome_iff_exists.1 (ht b List.mem_cons_self)
      rw [formalParametersMayEqual, hx, hy]
      refine M.ret_bind
        (h.type y x (hot a List.mem_cons_self b List.mem_cons_self x y hx hy)) fun r hr => ?_
      by_cases hne : r = .unequal
      · have hn : ¬S y x := fun hS => hr.1.2 hS hne
        rw [if_pos hne]
        exact M.ret_pure (decides_unequal (by simp [hx, hy, VoidOr, hn]))
      · have hS : S y x := hr.1.1 hne
        rw [if_neg hne]
        refine M.ret_mono (ih (fun c hc => ho c (List.mem_cons_of_mem _ hc))
          (fun c hc => ht c (List.mem_cons_of_mem _ hc))
          (fun a' ha' b' hb' => hot a' (List.mem_cons_of_mem _ ha') b'
            (List.mem_cons_of_mem _ hb')) ?_) fun r' hr' => ⟨hr'.1.trans ?_, hr'.2⟩
        · split_ifs with hby
          · exact ⟨⟨fun _ => trivial, fun _ => EqualResult.noConfusion⟩,
              fun hc => absurd hby (hr.2 hc)⟩
          · exact hret
        · simp [hx, hy, VoidOr, hS]

/-- The assumptions under which the overrides ask about references. -/
def nextAssumptions [DecidableEq ι] (g : TypeGraph ι) (t u : ι) (asm : Assumptions ι) :
    Assumptions ι :=
  if (g t).tag.cls = .withDataMembers then asm.insert (t, u) else asm

/-- The pairs of types the comparisons of `t` and `u`, either way round, ask about. -/
def Asked (g : TypeGraph ι) (t u x y : ι) : Prop :=
  (x ∈ references g t ∧ y ∈ references g u) ∨ (x ∈ references g u ∧ y ∈ references g t)

theorem type_mem_references {t x : ι} (h : (g t).type = some x) : x ∈ references g t := by
  simp [references, h]

theorem subrange_mem_references {t s x : ι} (hs : s ∈ (g t).subranges) (h : (g s).type = some x) :
    x ∈ references g t := by
  simp only [references, List.mem_append, List.mem_filterMap]
  exact .inl (.inl (.inr ⟨s, hs, h⟩))

theorem member_mem_references {t x : ι} {c : DataMember ι} (hc : c ∈ (g t).members)
    (h : c.typeHandlingBitfields = some x) : x ∈ references g t := by
  simp only [references, List.mem_append, List.mem_filterMap]
  exact .inl (.inr ⟨c, hc, h⟩)

theorem parameter_mem_references {t x : ι} {c : FormalParameter ι}
    (hc : c ∈ (g t).formalParameters) (h : c.type = some x) : x ∈ references g t := by
  simp only [references, List.mem_append, List.mem_filterMap]
  exact .inr ⟨c, hc, h⟩

theorem asked_type {t u x y : ι} (hx : (g t).type = some x) (hy : (g u).type = some y) :
    Asked g t u x y := .inl ⟨type_mem_references hx, type_mem_references hy⟩

/-- No subrange of ours with a base type meets one of theirs without. -/
def SubrangesTyped (g : TypeGraph ι) (t u : ι) : Prop :=
  ∀ p ∈ (g t).subranges.zip (g u).subranges, (g p.1).type.isSome → (g p.2).type.isSome

theorem tag_eq_arrayType {t : ι} (h : (g t).tag.cls = .array) : (g t).tag = .arrayType := by
  cases htag : (g t).tag <;> rw [htag] at h <;> first | rfl | exact nomatch h

theorem tag_eq_typedef {t : ι} (h : (g t).tag.cls = .typedef) : (g t).tag = .typedef := by
  cases htag : (g t).tag <;> rw [htag] at h <;> first | rfl | exact nomatch h

theorem tag_eq_ptrToMember {t : ι} (h : (g t).tag.cls = .ptrToMember) :
    (g t).tag = .ptrToMemberType := by
  cases htag : (g t).tag <;> rw [htag] at h <;> first | rfl | exact nomatch h

/-- **Each override decides its condition.**  It asks no question where the tags differ. -/
theorem mayEqual_decides [DecidableEq ι] {t u : ι} (ht : Complete (g t)) (hu : Complete (g u))
    (hfuel : ∃ c, getConcreteType g fuel u = .ok c)
    (hvoid : askedVoid ∨ ((g t).tag = .arrayType → (g t).tag = (g u).tag → (g t).name = (g u).name →
      SubrangesTyped g t u))
    (h : (g t).tag = (g u).tag →
      Answers M certain askedVoid (Asked g t u) S equal (nextAssumptions g t u asm)) :
    M.Ret (mayEqual g fuel equal t u asm) (Decides certain (LocallyEqual g S t u)) := by
  have hans : (g t).tag = (g u).tag → (g t).tag.cls ≠ .withDataMembers →
      Answers M certain askedVoid (Asked g t u) S equal asm := by
    intro htag hcls
    have hall := h htag
    rwa [nextAssumptions, if_neg hcls] at hall
  have href : (g t).tag = (g u).tag → (g t).tag.cls ≠ .withDataMembers →
      M.Ret (referencesEqual equal asm (g t).type (g u).type)
        (Decides certain (VoidOr S (g t).type (g u).type)) := fun htag hcls =>
    referencesEqual_decides (hans htag hcls) fun x y hx hy => asked_type hx hy
  have hchain : (g t).tag.cls ≠ .withDataMembers →
      M.Ret (typeChainMayEqual equal (g t) (g u) asm)
        (Decides certain ((g t).tag = (g u).tag ∧ VoidOr S (g t).type (g u).type)) := by
    intro hcls
    rw [typeChainMayEqual]
    by_cases htag : (g t).tag = (g u).tag
    · rw [if_pos htag]
      refine M.ret_bind (href htag hcls) fun r hr => M.ret_pure (decides_ofBool ?_)
      rw [decide_eq_true_iff, hr.1, and_iff_right htag]
    · rw [if_neg htag]
      exact M.ret_pure (decides_unequal fun h => htag h.1)
  rw [mayEqual, LocallyEqual]
  cases hcls : (g t).tag.cls with
  | base => exact M.ret_pure (decides_ofBool decide_eq_true_iff)
  | unspecified => exact M.ret_pure (decides_ofBool decide_eq_true_iff)
  | string => exact M.ret_pure (decides_ofBool decide_eq_true_iff)
  | subrange =>
    dsimp only
    rw [subrangeMayEqual]
    by_cases hname : (g t).tag = (g u).tag ∧ (g t).name = (g u).name
    · rw [if_pos hname]
      refine M.ret_bind (href hname.1 (by simp [hcls])) fun r hr => M.ret_pure (decides_ofBool ?_)
      rw [decide_eq_true_iff, hr.1, and_iff_right hname]
    · rw [if_neg hname]
      exact M.ret_pure (decides_unequal fun h => hname h.1)
  | enumeration =>
    dsimp only
    rw [enumerationMayEqual]
    by_cases hname : (g t).tag = (g u).tag ∧ (g t).name = (g u).name
    · rw [if_pos hname]
      refine M.ret_bind (href hname.1 (by simp [hcls])) fun r hr => M.ret_pure (decides_ofBool ?_)
      rw [decide_eq_true_iff, hr.1, and_iff_right hname]
    · rw [if_neg hname]
      exact M.ret_pure (decides_unequal fun h => hname h.1)
  | array =>
    dsimp only
    rw [arrayMayEqual]
    by_cases hname : (g t).tag = (g u).tag ∧ (g t).name = (g u).name
    · have hask := hans hname.1 (by simp [hcls])
      rw [if_pos hname]
      refine M.ret_bind (subrangesMayEqual_decides hask (fun a ha b hb x y hx hy =>
        .inl ⟨subrange_mem_references ha hx, subrange_mem_references hb hy⟩)
        (hvoid.imp_right fun hv => hv (tag_eq_arrayType hcls) hname.1 hname.2)) fun r hr => ?_
      cases r with
      | false =>
        exact M.ret_pure (decides_unequal fun h => Bool.false_ne_true (hr.2 h.2.1))
      | true =>
        have harray := tag_eq_arrayType hcls
        obtain ⟨x, hx⟩ := Option.isSome_iff_exists.1 (ht.elementType harray)
        have hb : (g u).type.isSome := hu.elementType (hname.1.symm.trans harray)
        rw [if_pos rfl, hx]
        refine M.ret_bind (given_decides hask (fun y hy => asked_type hx hy) (.inr hb))
          fun r' hr' => M.ret_pure (decides_ofBool ?_)
        rw [decide_eq_true_iff, hr'.1, and_iff_right hname, and_iff_right (hr.1 rfl)]
    · rw [if_neg hname]
      exact M.ret_pure (decides_unequal fun h => hname h.1)
  | typedef =>
    obtain ⟨name, hn⟩ := Option.isSome_iff_exists.1 (ht.typedefNamed (tag_eq_typedef hcls))
    dsimp only
    rw [typedefMayEqual, hn]
    by_cases hname : (g u).tag = .typedef ∧ (g u).name = some name
    · dsimp only
      rw [if_pos hname]
      refine M.ret_mono (hchain (by simp [hcls])) fun r hr => ⟨hr.1.trans ?_, hr.2⟩
      simp [hname]
    · dsimp only
      rw [if_neg hname]
      refine M.ret_pure (decides_unequal ?_)
      rintro ⟨⟨name', hn', hname'⟩, -⟩
      obtain rfl := Option.some.inj hn'
      exact hname hname'
  | ptrToMember =>
    have hnot := not_locallyEqual_ptrToMember g S (tag_eq_ptrToMember hcls) u
    rw [LocallyEqual, hcls] at hnot
    obtain ⟨c, hc⟩ := hfuel
    dsimp only
    rw [ptrToMemberMayEqual, hc]
    refine M.ret_bind (p := (· = c)) (M.ret_pure rfl) ?_
    rintro c' rfl
    cases c' with
    | none => exact M.ret_pure (decides_unequal hnot)
    | some c =>
      have hne : (g c).tag ≠ .ptrToMemberType := fun hc' => by
        have := chains_of_getConcreteType g hc
        rw [hc'] at this
        exact nomatch this
      dsimp only
      rw [if_neg hne]
      exact M.ret_pure (decides_unequal hnot)
  | typeChain => exact hchain (by simp [hcls])
  | withDataMembers =>
    dsimp only
    rw [withDataMembersMayEqual]
    by_cases hname : (g t).tag = (g u).tag ∧ (g t).name = (g u).name ∧
        ((g t).name = none → (g t).associatedName = (g u).associatedName)
    · have hask := h hname.1
      rw [nextAssumptions, if_pos hcls] at hask
      rw [if_pos hname]
      refine M.ret_mono (membersMayEqual_decides hask (ht.memberTypes hcls)
        (hu.memberTypes (hname.1 ▸ hcls)) (fun a ha b hb x y hx hy =>
          .inl ⟨member_mem_references ha hx, member_mem_references hb hy⟩)
        (decides_equal trivial)) fun r hr => ⟨hr.1.trans ?_, hr.2⟩
      rw [and_iff_right hname]
    · rw [if_neg hname]
      exact M.ret_pure (decides_unequal fun h => hname h.1)
  | typeDescribingSubprogram =>
    dsimp only
    rw [typeDescribingSubprogramMayEqual]
    by_cases hname : (g t).tag = (g u).tag ∧ (g t).name = (g u).name
    · rw [if_pos hname]
      refine M.ret_bind (href hname.1 (by simp [hcls])) fun r hr => ?_
      by_cases hret : r ≠ .unequal ∧ (g t).isVariadic = (g u).isVariadic
      · rw [if_pos hret]
        refine M.ret_mono (formalParametersMayEqual_decides (hans hname.1 (by simp [hcls]))
          (ht.parameterTypes hcls)
          (hu.parameterTypes (hname.1 ▸ hcls)) (fun a ha b hb x y hx hy =>
            .inr ⟨parameter_mem_references hb hy, parameter_mem_references ha hx⟩)
          ⟨iff_of_true hret.1 trivial, hr.2⟩) fun r' hr' => ⟨hr'.1.trans ?_, hr'.2⟩
        rw [and_iff_right hname, and_iff_right ⟨hr.1.1 hret.1, hret.2⟩]
      · rw [if_neg hret]
        exact M.ret_pure (decides_unequal fun h => hret ⟨hr.1.2 h.2.1.1, h.2.1.2⟩)
    · rw [if_neg hname]
      exact M.ret_pure (decides_unequal fun h => hname h.1)

end Decides

end Types
end Dwarfpp
