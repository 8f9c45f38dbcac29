/-
# Abstract equality and abstract names

Wherever comparisons come to an end, `types_abstractly_equal` is symmetric, and answers `true` just
for types of one form.  Such types need not have one name: an array's element type and the type
of a subrange are printed but not compared.  `typesAbstractlyEqual_right_iff` says when every
comparison of a graph ends, is symmetric, and finds equal only what has one name.
-/

import Dwarfpp.Types.Forms
import Dwarfpp.Types.SummaryTermination

namespace Dwarfpp
namespace Types

open Lib

variable {ι : Type}

section Defs

variable (g : TypeGraph ι) (containingType : ι → Option ι)

/-- The type's abstract name. -/
def Named (t : Option ι) (s : String) : Prop := Settles (fun fuel => abstractName g fuel t) s

def SameName (t u : Option ι) : Prop := ∃ s, Named g t s ∧ Named g u s

/-- The comparison of two types ends, is symmetric, and says equal only where the names are. -/
def EqualRight (t u : Option ι) : Prop :=
  ∃ b, ComparesTo g containingType t u b ∧ ComparesTo g containingType u t b ∧
    (b = true → SameName g t u)

/-- The arguments of a function type as its abstract name prints them. -/
def argumentNames (fuel : ℕ) (t : ι) : Except Fault (List String) :=
  (g t).formalParameters.zipIdx.mapM fun (fp, argnum) => do
    let s ← abstractName g fuel fp.findType
    return "__ARG" ++ toString argnum ++ "_" ++ s

def HasArgumentNames (t : ι) (s : String) : Prop :=
  ∃ arguments, Settles (fun fuel => argumentNames g fuel t) arguments ∧ String.join arguments = s

/-- What it takes: concrete types are found, arrays have an element type, no comparison comes down
to itself; sets, files and pointers to members are kept apart from types with a form; and what is
printed but not compared agrees. -/
structure ComparedAsNamed : Prop where
  concrete : ∀ t, ∃ c, HasConcreteType g (some t) c
  element : ∀ t, (g t).tag = .arrayType → (g t).type.isSome = true
  ends : WellFounded (Calls (checks g))
  passedOver : PassedOverApart g
  base : ∀ t u, (g t).tag = .baseType → head g t = head g u →
    ∃ s, (g t).getCanonicalName = .ok s ∧ (g u).getCanonicalName = .ok s
  array : ∀ t u, (g t).tag = .arrayType → head g t = head g u → SameName g (g t).type (g u).type
  subrange : ∀ t u, (g t).tag = .subrangeType → head g t = head g u →
    SameName g (g t).type (g u).type
  subprogram : ∀ t u, (g t).tag.cls = .typeDescribingSubprogram →
    (g u).tag.cls = .typeDescribingSubprogram → SameForm g (some t) (some u) →
      ∃ s, HasArgumentNames g t s ∧ HasArgumentNames g u s

end Defs

section Names

variable {g : TypeGraph ι} {t : ι} {o c : Option ι} {s : String}

theorem named_step {body : ℕ → Except Fault String}
    (h : ∀ n, abstractName g (n + 1) (some t) = body n) : Named g (some t) s ↔ Settles body s := by
  rw [Named, ← Settles.succ_iff]
  exact ⟨fun hs => hs.congr fun n => (h n).symm, fun hs => hs.congr h⟩

/-- A name with something put before it. -/
theorem settles_append (front : String) :
    Settles (fun n => do let e ← abstractName g n o; return front ++ e) s ↔
      ∃ e, Named g o e ∧ s = front ++ e := by
  rw [Settles.bind_iff (fun _ _ h => abstractName_mono h o) fun _ _ _ _ => Below.refl _]
  refine exists_congr fun e => and_congr Iff.rfl ?_
  exact Settles.const_iff.trans ⟨fun h => (Except.ok.inj h).symm, fun h => h ▸ rfl⟩

theorem named_none : Named g none "void" := Settles.succ (Settles.const rfl)

theorem named_base_iff (htag : (g t).tag = .baseType) :
    Named g (some t) s ↔ (g t).getCanonicalName = .ok s := by
  have hstep (n : ℕ) : abstractName g (n + 1) (some t) = (g t).getCanonicalName := by
    rw [abstractName, htag]
    rfl
  rw [named_step hstep, Settles.const_iff]

theorem named_arbitrary_iff
    (hcls : (g t).tag.cls = .withDataMembers ∨ (g t).tag.cls = .enumeration) :
    Named g (some t) s ↔ (g t).arbitraryName = s := by
  have hstep (n : ℕ) : abstractName g (n + 1) (some t) = .ok (g t).arbitraryName := by
    rw [abstractName]
    cases htag : (g t).tag <;> simp_all [Tag.mark, Tag.cls]
  rw [named_step hstep, Settles.const_iff]
  exact ⟨Except.ok.inj, congrArg _⟩

theorem named_string (htag : (g t).tag = .stringType) :
    Named g (some t) ("__STR" ++ toString ((g t).fixedLengthInBytes.getD 0) ++ "__1") := by
  refine Settles.succ ((Settles.const rfl).congr fun n => ?_)
  rw [abstractName, htag]
  rfl

theorem named_mark_iff {mark : String} (hmark : (g t).tag.mark = some mark) :
    Named g (some t) s ↔ ∃ e, Named g (g t).type e ∧ s = mark ++ e := by
  have hstep (n : ℕ) : abstractName g (n + 1) (some t) =
      (do let e ← abstractName g n (g t).type; return mark ++ e) := by
    rw [abstractName, hmark]
  rw [named_step hstep, settles_append]

/-- What is printed before the name of an array's element type. -/
def arrayFront (count : Option ℕ) : String :=
  "__ARR" ++ (match count with | some n => toString n | none => "") ++ "_"

theorem named_array_iff {count : Option ℕ} (htag : (g t).tag = .arrayType)
    (hcount : elementCount g t = .ok count) :
    Named g (some t) s ↔ ∃ e, Named g (g t).type e ∧ s = arrayFront count ++ e := by
  have hstep (n : ℕ) : abstractName g (n + 1) (some t) =
      (do let e ← abstractName g n (g t).type; return arrayFront count ++ e) := by
    rw [abstractName, htag]
    simp only [Tag.mark, Tag.cls, hcount, ok_bind]
    rfl
  rw [named_step hstep, settles_append]

/-- What is printed before the name of a subrange's type. -/
def subrangeFront (lowerBound upperBound : Option ℕ) : String :=
  "__SUBR" ++ toString (lowerBound.getD 0) ++ "_" ++
    toString (match upperBound, lowerBound with
      | some u, some l => unsignedSub u l
      | _, _ => 0) ++ "_"

theorem named_subrange_iff (htag : (g t).tag = .subrangeType) :
    Named g (some t) s ↔ ∃ e, Named g (g t).type e ∧
      s = subrangeFront (g t).lowerBound (g t).upperBound ++ e := by
  have hstep (n : ℕ) : abstractName g (n + 1) (some t) =
      (do let e ← abstractName g n (g t).type
          return subrangeFront (g t).lowerBound (g t).upperBound ++ e) := by
    rw [abstractName, htag]
    rfl
  rw [named_step hstep, settles_append]

/-- The name of a function type, from what is printed for its arguments and the name of its
result. -/
def subprogramName (arguments : String) (variadic : Bool) (result : String) : String :=
  "__FUN_FROM_" ++ arguments ++ (if variadic then "__VA_" else "") ++ "__FUN_TO_" ++ result

theorem argumentNames_mono {n m : ℕ} (h : n ≤ m) (t : ι) :
    Below (argumentNames g n t) (argumentNames g m t) :=
  Below.mapM (fun _ => (abstractName_mono h _).bind fun _ => Below.refl _) _

theorem named_subprogram_iff (hcls : (g t).tag.cls = .typeDescribingSubprogram) :
    Named g (some t) s ↔ ∃ a r, HasArgumentNames g t a ∧ Named g (g t).type r ∧
      s = subprogramName a (g t).isVariadic r := by
  let result (n : ℕ) (arguments : List String) : Except Fault String := do
    let r ← abstractName g n (g t).type
    return subprogramName (String.join arguments) (g t).isVariadic r
  have hstep (n : ℕ) : abstractName g (n + 1) (some t) = argumentNames g n t >>= result n := by
    rw [abstractName]
    cases htag : (g t).tag <;> simp [htag, Tag.cls] at hcls <;> rfl
  rw [named_step hstep, Settles.bind_iff (fun _ _ h => argumentNames_mono h t)
    fun _ _ _ h => (abstractName_mono h _).bind fun _ => Below.refl _]
  constructor
  · rintro ⟨arguments, harguments, hresult⟩
    rw [Settles.bind_iff (fun _ _ h => abstractName_mono h _) fun _ _ _ _ => Below.refl _]
      at hresult
    obtain ⟨r, hr, hs⟩ := hresult
    exact ⟨_, r, ⟨arguments, harguments, rfl⟩, hr, (Except.ok.inj (Settles.const_iff.1 hs)).symm⟩
  · rintro ⟨_, r, ⟨arguments, harguments, rfl⟩, hr, rfl⟩
    exact ⟨arguments, harguments, Settles.bind hr (Settles.const rfl)⟩

/-- A type that is looked through has the name of its concrete type. -/
theorem named_concrete {t : Option ι} (hcomparable : Comparable g t)
    (hconcrete : HasConcreteType g t c) (h : Named g c s) : Named g t s := by
  cases t with
  | none =>
    rw [hconcrete.unique hasConcreteType_none] at h
    exact h
  | some t =>
    cases hchains : (g t).tag.chains with
    | false =>
      rw [hconcrete.unique (hasConcreteType_self hchains)] at h
      exact h
    | true =>
      have hmark : (g t).tag.mark = none := by
        cases htag : (g t).tag <;> simp_all [Comparable, Tag.chains, Tag.passedOver, Tag.mark]
      refine Settles.succ ((Settles.bind (h := abstractName g) hconcrete h).congr fun n => ?_)
      exact abstractName_through hchains hmark

end Names

section Agreement

variable {g : TypeGraph ι} {containingType : ι → Option ι} {t u v w c : Option ι} {x y m : ι}
  {f : Form} {cs : List (Check (Option ι × Option ι))}

/-- Names with the same front agree if what follows does. -/
theorem sameName_append_iff {front : String}
    (ht : ∀ s, Named g t s ↔ ∃ e, Named g v e ∧ s = front ++ e)
    (hu : ∀ s, Named g u s ↔ ∃ e, Named g w e ∧ s = front ++ e) :
    SameName g t u ↔ SameName g v w := by
  constructor
  · rintro ⟨s, hst, hsu⟩
    obtain ⟨e, he, rfl⟩ := (ht s).1 hst
    obtain ⟨e', he', heq⟩ := (hu _).1 hsu
    rw [← (String.append_right_inj front).1 heq] at he'
    exact ⟨e, he, he'⟩
  · rintro ⟨e, he, he'⟩
    exact ⟨front ++ e, (ht _).2 ⟨e, he, rfl⟩, (hu _).2 ⟨e, he', rfl⟩⟩

/-- **Types of one form have one name.** -/
theorem sameName_of_form (hg : ComparedAsNamed g) (ht : HasForm g t f) (hu : HasForm g u f) :
    SameName g t u := by
  induction ht generalizing u with
  | void hcomparable hnone =>
    cases hu with
    | void hcomparable' hnone' =>
      exact ⟨"void", named_concrete hcomparable hnone named_none,
        named_concrete hcomparable' hnone' named_none⟩
  | @type t x h fs hcomparable hx hheadx hlength hparts ih =>
    cases hu with
    | @type _ y _ _ hcomparable' hy hheady hlength' hparts' =>
      suffices hxy : SameName g (some x) (some y) by
        obtain ⟨s, hsx, hsy⟩ := hxy
        exact ⟨s, named_concrete hcomparable hx hsx, named_concrete hcomparable' hy hsy⟩
      have hheads : head g x = head g y := hheadx.trans hheady.symm
      have hhasx := (head_eq_iff h).1 hheadx
      have hhasy := (head_eq_iff h).1 hheady
      -- the pointee, or the result
      have hfirst : ∀ {a b as bs}, parts g x = a :: as → parts g y = b :: bs →
          SameName g a b := by
        intro a b as bs hpartsx hpartsy
        rw [hpartsx] at hlength ih
        rw [hpartsy] at hparts'
        obtain _ | ⟨f, fs⟩ := fs
        · exact nomatch hlength
        · exact ih a f List.mem_cons_self (hparts' b f List.mem_cons_self)
      cases h with
      | base =>
        obtain ⟨s, hsx, hsy⟩ := hg.base x y hhasx.1 hheads
        exact ⟨s, (named_base_iff hhasx.1).2 hsx, (named_base_iff hhasy.1).2 hsy⟩
      | members name =>
        exact ⟨name, (named_arbitrary_iff (.inl hhasx.1)).2 hhasx.2,
          (named_arbitrary_iff (.inl hhasy.1)).2 hhasy.2⟩
      | enumeration name =>
        exact ⟨name, (named_arbitrary_iff (.inr (by rw [hhasx.1]; rfl))).2 hhasx.2,
          (named_arbitrary_iff (.inr (by rw [hhasy.1]; rfl))).2 hhasy.2⟩
      | array count =>
        exact (sameName_append_iff (fun _ => named_array_iff hhasx.1 hhasx.2)
          fun _ => named_array_iff hhasy.1 hhasy.2).2 (hg.array x y hhasx.1 hheads)
      | subrange lower upper =>
        obtain ⟨htagx, rfl, rfl⟩ := hhasx
        obtain ⟨htagy, hlower, hupper⟩ := hhasy
        refine (sameName_append_iff (fun _ => named_subrange_iff htagx) fun _ => ?_).2
          (hg.subrange x y htagx hheads)
        rw [← hlower, ← hupper]
        exact named_subrange_iff htagy
      | string length =>
        refine ⟨_, named_string hhasx.1, ?_⟩
        rw [hhasx.2, ← hhasy.2]
        exact named_string hhasy.1
      | address tag =>
        have hname := hfirst (parts_of_head hheadx) (parts_of_head hheady)
        obtain ⟨mark, hmark⟩ : ∃ mark, (g x).tag.mark = some mark := by
          cases htag : (g x).tag <;> simp_all [HasHead, Tag.addressHolding, Tag.mark]
        refine (sameName_append_iff (fun _ => named_mark_iff hmark) fun _ => named_mark_iff ?_).2
          hname
        rw [hhasy.2, ← hhasx.2, hmark]
      | subprogram variadic =>
        obtain ⟨r, hrx, hry⟩ := hfirst (parts_of_head hheadx) (parts_of_head hheady)
        have hform : SameForm g (some x) (some y) :=
          ⟨_, .type (comparable_concrete hx) (hasConcreteType_concrete hx) hheadx hlength hparts,
            .type (comparable_concrete hy) (hasConcreteType_concrete hy) hheady hlength' hparts'⟩
        obtain ⟨a, hax, hay⟩ := hg.subprogram x y hhasx.1 hhasy.1 hform
        refine ⟨_, (named_subprogram_iff hhasx.1).2 ⟨a, r, hax, hrx, rfl⟩, ?_⟩
        rw [hhasx.2, ← hhasy.2]
        exact (named_subprogram_iff hhasy.1).2 ⟨a, r, hay, hry, rfl⟩

/-! ### Where comparisons are right -/

/-- A comparison answers `true` where all checks hold. -/
theorem comparesTo_true_iff :
    ComparesTo g containingType t u true ↔ AllHold (checks g) (t, u) :=
  (typesAbstractlyEqual_checks g containingType).settles_true_iff (p := (t, u))

theorem exists_concrete (hg : ∀ t, ∃ c, HasConcreteType g (some t) c) (t : Option ι) :
    ∃ c, HasConcreteType g t c := by
  cases t with
  | none => exact ⟨none, hasConcreteType_none⟩
  | some t => exact hg t

/-- The checks of every comparison can be made out. -/
theorem exists_checks (hg : ComparedAsNamed g) (p : Option ι × Option ι) :
    ∃ cs, HasChecks (checks g) p cs := by
  have hself : ∀ (t : ι) (u : Option ι), ∃ cs, HasChecks (checks g) (some t, u) cs := by
    intro t u
    obtain ⟨d, hd⟩ := exists_concrete hg.concrete u
    cases hfalls : (g t).tag.fallsBack with
    | true =>
      obtain ⟨c, hc⟩ := hg.concrete t
      exact ⟨_, hasChecks_fallsBack hfalls hc hd⟩
    | false =>
      suffices hown : ∃ cs, ownChecks g t d = .ok cs by
        obtain ⟨cs, hcs⟩ := hown
        exact ⟨cs, hasChecks_override hfalls hd hcs⟩
      unfold ownChecks
      split
      · exact ⟨_, rfl⟩
      · cases d with
        | none => exact ⟨_, rfl⟩
        | some y =>
          exact concreteChecks_returns (fun h => elementCount_returns_iff.2 (hg.element t h))
            fun h => elementCount_returns_iff.2 (hg.element y h)
  match p with
  | (none, none) => exact ⟨[], Settles.const rfl⟩
  | (some t, u) => exact hself t u
  | (none, some u) =>
    obtain ⟨cs, hcs⟩ := hself u none
    exact ⟨cs, hcs⟩

/-- **Under the condition comparisons are right.** -/
theorem ComparedAsNamed.equalRight (hg : ComparedAsNamed g) (t u : Option ι) :
    EqualRight g containingType t u := by
  have hends : ∀ p : Option ι × Option ι, ∃ b, ComparesTo g containingType p.1 p.2 b :=
    (typesAbstractlyEqual_checks g containingType).settles_all_iff.2 ⟨exists_checks hg, hg.ends⟩
  obtain ⟨b, hb⟩ := hends (t, u)
  obtain ⟨b', hb'⟩ := hends (u, t)
  have hform : ∀ {v w : Option ι} {b : Bool}, ComparesTo g containingType v w b →
      (b = true ↔ SameForm g v w) := by
    intro v w b hb
    constructor
    · rintro rfl
      exact sameForm_of_allHold hg.passedOver (comparesTo_true_iff.1 hb)
    · intro h
      exact hb.unique (comparesTo_true_iff.2 (allHold_of_sameForm h))
  have heq : b' = b := by
    rw [Bool.eq_iff_iff, hform hb, hform hb']
    exact ⟨SameForm.symm, SameForm.symm⟩
  refine ⟨b, hb, heq ▸ hb', fun htrue => ?_⟩
  obtain ⟨f, ht, hu⟩ := (hform hb).1 htrue
  exact sameName_of_form hg ht hu

/-! ### What right comparisons need -/

theorem not_allHold_passedOver (hm : (g m).tag.passedOver = true) :
    ¬AllHold (checks g) (some m, u) := by
  rintro ⟨hcs, hdecided, -⟩
  obtain ⟨d, -, ⟨hfalls, -⟩ | ⟨-, hown⟩⟩ := hasChecks_cases hcs
  · cases htag : (g m).tag <;> simp_all [Tag.passedOver, Tag.fallsBack]
  · unfold ownChecks at hown
    rw [if_pos hm] at hown
    obtain rfl := Except.ok.inj hown
    cases hdecided _ (List.mem_singleton_self _)

/-- A comparison sees of the argument its concrete type only. -/
theorem allHold_of_concrete (h : AllHold (checks g) (some x, u)) (hu : HasConcreteType g u c)
    (hv : HasConcreteType g v c) : AllHold (checks g) (some x, v) := by
  obtain ⟨hcs, hdecided, hcall⟩ := h
  obtain ⟨d, hd, hcases⟩ := hasChecks_cases hcs
  obtain rfl := hd.unique hu
  rcases hcases with ⟨hfalls, c, hc, rfl⟩ | ⟨hfalls, hown⟩
  · exact .intro (hasChecks_fallsBack hfalls hc hv) hdecided hcall
  · exact .intro (hasChecks_override hfalls hv hown) hdecided hcall

section Right

variable (hright : ∀ t u, EqualRight g containingType t u)
include hright

theorem sameName_of_right (h : SameForm g t u) : SameName g t u := by
  obtain ⟨b, hb, -, hname⟩ := hright t u
  exact hname (hb.unique (comparesTo_true_iff.2 (allHold_of_sameForm h)))

/-- Types of one head without parts have one name. -/
theorem sameName_of_heads {h : Head} (hx : head g x = some h) (hy : head g y = some h)
    (hnil : ∀ d : TypeDie ι, h.parts d = []) : SameName g (some x) (some y) := by
  refine sameName_of_right hright (sameForm_of_parts (hasConcreteType_of_head hx)
    (hasConcreteType_of_head hy) hx hy ?_)
  rw [parts_of_head hx, parts_of_head hy, hnil, hnil]
  exact .nil

/-- **Sets, files and pointers to members are kept apart.** -/
theorem passedOverApart_of_right : PassedOverApart g := by
  intro m t c hm ht hmc htc f hf
  have hself : AllHold (checks g) (some t, some t) := allHold_of_sameForm ⟨f, hf, hf⟩
  have htrue : ComparesTo g containingType (some t) (some m) true :=
    comparesTo_true_iff.2 (allHold_of_concrete hself htc hmc)
  obtain ⟨b, hb, hb', -⟩ := hright (some t) (some m)
  rw [hb.unique htrue] at hb'
  exact not_allHold_passedOver hm (comparesTo_true_iff.1 hb')

/-- What function types of one form print for their arguments agrees. -/
theorem argumentNames_of_right (hx : (g x).tag.cls = .typeDescribingSubprogram)
    (hy : (g y).tag.cls = .typeDescribingSubprogram) (h : SameForm g (some x) (some y)) :
    ∃ s, HasArgumentNames g x s ∧ HasArgumentNames g y s := by
  have hconcrete : ∀ {z}, (g z).tag.cls = .typeDescribingSubprogram →
      HasConcreteType g (some z) (some z) := fun hz =>
    hasConcreteType_of_head ((head_eq_iff (.subprogram _)).2 ⟨hz, rfl⟩)
  obtain ⟨h', hheadx, hheady, hparts⟩ := h.parts (hconcrete hx) (hconcrete hy)
  obtain rfl := Option.some.inj
    (hheadx.symm.trans ((head_eq_iff (.subprogram _)).2 ⟨hx, rfl⟩))
  obtain ⟨-, hvariadic⟩ := (head_eq_iff (.subprogram _)).1 hheady
  rw [parts_of_head hheadx, parts_of_head hheady] at hparts
  obtain ⟨r, hr, hr'⟩ := sameName_of_right hright (List.forall₂_cons.1 hparts).1
  obtain ⟨s, hs, hs'⟩ := sameName_of_right hright h
  obtain ⟨a, r₁, ha, hr₁, rfl⟩ := (named_subprogram_iff hx).1 hs
  obtain ⟨a', r₂, ha', hr₂, heq⟩ := (named_subprogram_iff hy).1 hs'
  -- the results are named alike, so the rest of the names agrees
  rw [hr₁.unique hr, hr₂.unique hr', hvariadic, subprogramName, subprogramName,
    String.append_left_inj, String.append_left_inj, String.append_left_inj,
    String.append_right_inj] at heq
  exact ⟨a, ha, heq ▸ ha'⟩

end Right

/-- **Every comparison of a graph is right exactly under the condition.** -/
theorem typesAbstractlyEqual_right_iff :
    (∀ t u, EqualRight g containingType t u) ↔ ComparedAsNamed g := by
  refine ⟨fun hright => ?_, fun hg t u => hg.equalRight t u⟩
  obtain ⟨hchecks, hends⟩ :=
    (typesAbstractlyEqual_checks g containingType).settles_all_iff.1 fun p => by
      obtain ⟨b, hb, -⟩ := hright p.1 p.2
      exact ⟨b, hb⟩
  have hconcrete : ∀ t, ∃ c, HasConcreteType g (some t) c := by
    intro t
    obtain ⟨cs, hcs⟩ := hchecks (some t, some t)
    obtain ⟨d, hd, -⟩ := hasChecks_cases hcs
    exact ⟨d, hd⟩
  have helement : ∀ t, (g t).tag = .arrayType → (g t).type.isSome = true := by
    intro t htag
    obtain ⟨cs, hcs⟩ := hchecks (some t, some t)
    obtain ⟨d, hd, ⟨hfalls, -⟩ | ⟨-, hown⟩⟩ := hasChecks_cases hcs
    · rw [htag] at hfalls
      exact nomatch hfalls
    · rw [hd.unique (hasConcreteType_self (by rw [htag]; rfl))] at hown
      simp only [ownChecks, htag, Tag.passedOver, concreteChecks, if_true, if_false,
        Bool.false_eq_true] at hown
      obtain ⟨n, hn, -⟩ := bind_eq_ok.1 hown
      exact elementCount_returns_iff.1 ⟨n, hn⟩
  exact
    { concrete := hconcrete
      element := helement
      ends := hends
      passedOver := passedOverApart_of_right hright
      base := by
        intro t u htag hheads
        have ht := (head_eq_iff (g := g) (u := t) (.base _ _ _ _)).2 ⟨htag, rfl, rfl, rfl, rfl⟩
        have hu := hheads ▸ ht
        obtain ⟨s, hst, hsu⟩ := sameName_of_heads hright ht hu fun _ => rfl
        exact ⟨s, (named_base_iff htag).1 hst, (named_base_iff ((head_eq_iff _).1 hu).1).1 hsu⟩
      array := by
        intro t u htag hheads
        obtain ⟨n, hn⟩ := elementCount_returns_iff.2 (helement t htag)
        have ht := (head_eq_iff (g := g) (u := t) (.array _)).2 ⟨htag, hn⟩
        have hu := hheads ▸ ht
        obtain ⟨htagu, hnu⟩ := (head_eq_iff (g := g) (u := u) (.array _)).1 hu
        exact (sameName_append_iff (fun _ => named_array_iff htag hn)
          fun _ => named_array_iff htagu hnu).1 (sameName_of_heads hright ht hu fun _ => rfl)
      subrange := by
        intro t u htag hheads
        have ht := (head_eq_iff (g := g) (u := t) (.subrange _ _)).2 ⟨htag, rfl, rfl⟩
        have hu := hheads ▸ ht
        obtain ⟨htagu, hlower, hupper⟩ := (head_eq_iff (g := g) (u := u) (.subrange _ _)).1 hu
        refine (sameName_append_iff (fun _ => named_subrange_iff htag) fun _ => ?_).1
          (sameName_of_heads hright ht hu fun _ => rfl)
        rw [← hlower, ← hupper]
        exact named_subrange_iff htagu
      subprogram := fun t u ht hu h => argumentNames_of_right hright ht hu h }

end Agreement

/-! ### Two arrays -/

/-- `struct a x[10]` and `struct b y[10]`, each array with its subrange. -/
def twoArrays : TypeGraph (Fin 6)
  | 0 => { (default : TypeDie (Fin 6)) with tag := .structureType, name := some "a" }
  | 1 => { (default : TypeDie (Fin 6)) with tag := .structureType, name := some "b" }
  | 2 => { (default : TypeDie (Fin 6)) with tag := .arrayType, type := some 0, subranges := [4] }
  | 3 => { (default : TypeDie (Fin 6)) with tag := .arrayType, type := some 1, subranges := [5] }
  | _ => { (default : TypeDie (Fin 6)) with tag := .subrangeType, count := some 10 }

/-- **Arrays of different structures are equal as long as they are of one length.** -/
theorem not_equalRight_twoArrays :
    (∀ t, ¬Relation.TransGen (ContainsByValue twoArrays) t t) ∧
      ¬EqualRight twoArrays (fun _ => none) (some 2) (some 3) := by
  constructor
  · refine acyclic_of_rank (fun t => t.val) fun t u h => ?_
    match t, h with
    | 0, ⟨_, hmem, _⟩ => exact absurd hmem List.not_mem_nil
    | 1, ⟨_, hmem, _⟩ => exact absurd hmem List.not_mem_nil
    | 2, h =>
      obtain rfl := Option.some.inj (show some 0 = some u from h)
      decide
    | 3, h =>
      obtain rfl := Option.some.inj (show some 1 = some u from h)
      decide
    | 4, h => exact h.elim
    | 5, h => exact h.elim
  · rintro ⟨b, hb, -, hname⟩
    have harray : head twoArrays 2 = some (.array (some 10)) ∧
        head twoArrays 3 = some (.array (some 10)) := ⟨rfl, rfl⟩
    have hform : SameForm twoArrays (some 2) (some 3) :=
      sameForm_of_parts (hasConcreteType_of_head harray.1) (hasConcreteType_of_head harray.2)
        harray.1 harray.2 .nil
    have htrue : ComparesTo twoArrays (fun _ => none) (some 2) (some 3) true :=
      comparesTo_true_iff.2 (allHold_of_sameForm hform)
    obtain ⟨s, ha, hb⟩ : SameName twoArrays (some 0) (some 1) :=
      (sameName_append_iff (fun _ => named_array_iff rfl rfl) fun _ => named_array_iff rfl rfl).1
        (hname (hb.unique htrue))
    rw [named_arbitrary_iff (.inl rfl)] at ha hb
    exact absurd (ha.trans hb.symm) (by decide)

end Types
end Dwarfpp
