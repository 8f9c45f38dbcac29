/-
# The forms of types

What `abstractly_equals` looks at of a type is a tree, its form: the head of its concrete type and
the forms of the parts.  Types of one form are abstractly equal in either order
(`allHold_of_sameForm`).  The converse holds if no type with a form shares its concrete type with
a set, a file or a pointer to a member (`sameForm_of_allHold`).
-/

import Dwarfpp.Types.AbstractlyEqual

namespace Dwarfpp
namespace Types

open Lib

variable {ι : Type}

/-- What the comparison of types looks at of a type. -/
inductive Form
  | void
  | type (head : Head) (parts : List Form)

/-- The types compared in turn, by the head. -/
def Head.parts (d : TypeDie ι) : Head → List (Option ι)
  | .address _ => [d.type]
  | .subprogram _ => d.type :: d.formalParameters.map (·.type)
  | _ => []

section Defs

variable (g : TypeGraph ι)

/-- The type's concrete type. -/
def HasConcreteType (t c : Option ι) : Prop := Settles (fun fuel => concreteOf g fuel t) c

/-- The type is void, or compares otherwise than always `false`. -/
def Comparable : Option ι → Prop
  | none => True
  | some t => (g t).tag.passedOver = false

/-- The type has the form. -/
inductive HasForm : Option ι → Form → Prop
  | void {t : Option ι} (hcomparable : Comparable g t) (hconcrete : HasConcreteType g t none) :
      HasForm t .void
  | type {t : Option ι} {x : ι} {h : Head} {fs : List Form} (hcomparable : Comparable g t)
      (hconcrete : HasConcreteType g t (some x)) (hhead : head g x = some h)
      (hlength : (parts g x).length = fs.length)
      (hparts : ∀ a f, (a, f) ∈ (parts g x).zip fs → HasForm a f) :
      HasForm t (.type h fs)

/-- The types have a form in common. -/
def SameForm (t u : Option ι) : Prop := ∃ f, HasForm g t f ∧ HasForm g u f

end Defs

section Facts

variable {g : TypeGraph ι} {t u c d : Option ι} {x y : ι} {f : Form}
  {r : Option ι × Option ι → Prop} {cs : List (Check (Option ι × Option ι))}

/-! ### Concrete types -/

theorem hasConcreteType_none : HasConcreteType g none none := Settles.const rfl

theorem hasConcreteType_self (h : (g x).tag.chains = false) :
    HasConcreteType g (some x) (some x) := by
  refine Settles.succ ((Settles.const rfl).congr fun n => ?_)
  rw [concreteOf, getConcreteType, if_neg (by simp [h])]

theorem chains_of_hasConcreteType (h : HasConcreteType g t (some x)) :
    (g x).tag.chains = false := by
  obtain ⟨n, hn⟩ := h.exists_run
  exact chains_of_concreteOf hn

/-- A concrete type is its own. -/
theorem hasConcreteType_concrete (h : HasConcreteType g t c) : HasConcreteType g c c := by
  cases c with
  | none => exact hasConcreteType_none
  | some x => exact hasConcreteType_self (chains_of_hasConcreteType h)

theorem comparable_concrete (h : HasConcreteType g t c) : Comparable g c := by
  cases c with
  | none => trivial
  | some x =>
    have hchains := chains_of_hasConcreteType h
    rw [Comparable]
    cases htag : (g x).tag <;> simp_all [Tag.chains, Tag.passedOver]

/-! ### Forms -/

/-- **A type has the form of its concrete type.** -/
theorem hasForm_iff (hcomparable : Comparable g t) (hconcrete : HasConcreteType g t c) :
    HasForm g t f ↔ HasForm g c f := by
  have hself := hasConcreteType_concrete hconcrete
  have hcomparable' := comparable_concrete hconcrete
  constructor
  · intro h
    cases h with
    | void _ hnone =>
      obtain rfl := hconcrete.unique hnone
      exact .void hcomparable' hself
    | type _ hsome hhead hlength hparts =>
      obtain rfl := hconcrete.unique hsome
      exact .type hcomparable' hself hhead hlength hparts
  · intro h
    cases h with
    | void _ hnone =>
      obtain rfl := hself.unique hnone
      exact .void hcomparable hconcrete
    | type _ hsome hhead hlength hparts =>
      obtain rfl := hself.unique hsome
      exact .type hcomparable hconcrete hhead hlength hparts

theorem SameForm.symm (h : SameForm g t u) : SameForm g u t := by
  obtain ⟨f, ht, hu⟩ := h
  exact ⟨f, hu, ht⟩

theorem exists_forms {as bs : List (Option ι)} (h : List.Forall₂ (SameForm g) as bs) :
    ∃ fs, List.Forall₂ (HasForm g) as fs ∧ List.Forall₂ (HasForm g) bs fs := by
  induction h with
  | nil => exact ⟨[], .nil, .nil⟩
  | cons hab _ ih =>
    obtain ⟨f, ha, hb⟩ := hab
    obtain ⟨fs, has, hbs⟩ := ih
    exact ⟨f :: fs, .cons ha has, .cons hb hbs⟩

theorem forall₂_of_forms {as bs : List (Option ι)} {fs : List Form}
    (has : List.Forall₂ (fun a f => ∀ b, HasForm g b f → r (a, b)) as fs)
    (hbs : List.Forall₂ (HasForm g) bs fs) : List.Forall₂ (fun a b => r (a, b)) as bs := by
  induction has generalizing bs with
  | nil =>
    obtain rfl := List.forall₂_nil_right_iff.1 hbs
    exact .nil
  | cons ha _ ih =>
    obtain ⟨b, bs', hb, hbs', rfl⟩ := List.forall₂_cons_right_iff.1 hbs
    exact .cons (ha b hb) (ih hbs')

/-- Two concrete types with a form in common have one head, and parts with forms in common. -/
theorem SameForm.parts (hx : HasConcreteType g (some x) (some x))
    (hy : HasConcreteType g (some y) (some y)) (h : SameForm g (some x) (some y)) :
    ∃ h, head g x = some h ∧ head g y = some h ∧
      List.Forall₂ (SameForm g) (parts g x) (parts g y) := by
  obtain ⟨f, hformx, hformy⟩ := h
  cases hformx with
  | void _ hnone => exact nomatch hx.unique hnone
  | @type _ x' h fs _ hx' hheadx hlength hparts =>
    obtain rfl := Option.some.inj (hx.unique hx')
    cases hformy with
    | @type _ y' _ _ _ hy' hheady hlength' hparts' =>
      obtain rfl := Option.some.inj (hy.unique hy')
      refine ⟨h, hheadx, hheady, ?_⟩
      exact forall₂_of_forms (r := fun p => SameForm g p.1 p.2)
        (List.forall₂_iff_zip.2 ⟨hlength, fun hmem b hb => ⟨_, hparts _ _ hmem, hb⟩⟩)
        (List.forall₂_iff_zip.2 ⟨hlength', fun hmem => hparts' _ _ hmem⟩)

/-- Two concrete types with one head have a form in common if their parts have, pairwise. -/
theorem sameForm_of_parts {h : Head} (hx : HasConcreteType g t (some x))
    (hy : HasConcreteType g u (some y)) (hheadx : head g x = some h) (hheady : head g y = some h)
    (hparts : List.Forall₂ (SameForm g) (parts g x) (parts g y)) :
    SameForm g (some x) (some y) := by
  obtain ⟨fs, hxs, hys⟩ := exists_forms hparts
  obtain ⟨hxlength, hxzip⟩ := List.forall₂_iff_zip.1 hxs
  obtain ⟨hylength, hyzip⟩ := List.forall₂_iff_zip.1 hys
  exact ⟨.type h fs,
    .type (comparable_concrete hx) (hasConcreteType_concrete hx) hheadx hxlength fun _ _ => hxzip,
    .type (comparable_concrete hy) (hasConcreteType_concrete hy) hheady hylength fun _ _ => hyzip⟩

/-! ### The checks and the forms -/

theorem parameterChecks_hold_iff (fps fps' : List (FormalParameter ι)) :
    (∀ c ∈ parameterChecks fps fps', c.Holds r) ↔
      List.Forall₂ (fun a b => r (a, b)) (fps.map (·.type)) (fps'.map (·.type)) := by
  induction fps, fps' using parameterChecks.induct with
  | case1 => simp [parameterChecks]
  | case2 => simp [parameterChecks, Check.Holds]
  | case3 => simp [parameterChecks, Check.Holds]
  | case4 fp fps fp' fps' ih =>
    rw [parameterChecks, List.forall_mem_cons, ih]
    simp [Check.Holds]

/-- The parts are read off the head. -/
theorem parts_of_head {h : Head} (hhead : head g x = some h) : parts g x = h.parts (g x) := by
  rw [head_eq_iff] at hhead
  unfold parts
  cases h <;> cases htag : (g x).tag <;>
    simp_all [HasHead, Head.parts, Tag.cls, Tag.addressHolding]

/-- Where there are no parts the heads are all there is. -/
theorem head_agrees_iff {h : Head} (hx : head g x = some h)
    (hnil : ∀ z, h.parts (g z) = []) :
    head g y = head g x ↔ ∃ h, head g x = some h ∧ head g y = some h ∧
      List.Forall₂ (fun a b => r (a, b)) (parts g x) (parts g y) := by
  constructor
  · intro hy
    rw [hx] at hy
    refine ⟨h, hx, hy, ?_⟩
    rw [parts_of_head hx, parts_of_head hy, hnil, hnil]
    exact .nil
  · rintro ⟨h', hx', hy', -⟩
    rw [hx', hy']

/-- One head, one class. -/
theorem cls_of_hasHead {h : Head} (hx : HasHead g x h) (hy : HasHead g y h) :
    (g y).tag.cls = (g x).tag.cls := by
  cases h with
  | base | enumeration | array | subrange | string => rw [hx.1, hy.1]
  | members | subprogram => exact hy.1.trans hx.1.symm
  | address => rw [hx.2, hy.2]

/-- One head, one tag, but for the classes with several. -/
theorem tag_of_hasHead {h : Head} (hx : HasHead g x h) (hy : HasHead g y h)
    (hmembers : (g x).tag.cls ≠ .withDataMembers)
    (hsubprogram : (g x).tag.cls ≠ .typeDescribingSubprogram) : (g y).tag = (g x).tag := by
  cases h with
  | base | enumeration | array | subrange | string => exact hy.1.trans hx.1.symm
  | address => exact hy.2.trans hx.2.symm
  | members => exact absurd hx.1 hmembers
  | subprogram => exact absurd hx.1 hsubprogram

/-- **The checks on two concrete types are that their heads agree, and their parts pairwise.** -/
theorem concreteChecks_hold_iff (hr : ∀ a b, r (a, b) → r (b, a))
    (hpassed : (g x).tag.passedOver = false) (hfalls : (g x).tag.fallsBack = false)
    (h : concreteChecks g x y = .ok cs) :
    (∀ c ∈ cs, c.Holds r) ↔ ∃ h, head g x = some h ∧ head g y = some h ∧
      List.Forall₂ (fun a b => r (a, b)) (parts g x) (parts g y) := by
  -- the class of the argument is not the right one
  have hother : (∀ h, HasHead g x h → ¬HasHead g y h) →
      ((∀ c ∈ [Check.decided false], c.Holds r) ↔ ∃ h, head g x = some h ∧ head g y = some h ∧
        List.Forall₂ (fun a b => r (a, b)) (parts g x) (parts g y)) := by
    intro hne
    refine iff_of_false (fun hall => by cases hall _ (List.mem_singleton_self _)) ?_
    rintro ⟨h, hx, hy, -⟩
    exact hne h ((head_eq_iff h).1 hx) ((head_eq_iff h).1 hy)
  rw [concreteChecks] at h
  cases htag : (g x).tag <;> simp only [htag, Tag.passedOver, Tag.fallsBack] at h hpassed hfalls
  case typedef | constType | volatileType | restrictType | packedType | sharedType
      | unspecifiedType => cases hfalls
  case setType | fileType | ptrToMemberType => cases hpassed
  case arrayType =>
    by_cases hy : (g y).tag = .arrayType
    · rw [if_pos hy] at h
      obtain ⟨count, hcount, h⟩ := bind_eq_ok.1 h
      obtain ⟨ownCount, hownCount, h⟩ := bind_eq_ok.1 h
      obtain rfl := Except.ok.inj h
      have hheadx : head g x = some (.array ownCount) := (head_eq_iff _).2 ⟨htag, hownCount⟩
      have hheady : head g y = some (.array count) := (head_eq_iff _).2 ⟨hy, hcount⟩
      rw [← head_agrees_iff hheadx fun _ => rfl, hheadx, hheady]
      simp [Check.Holds]
    · rw [if_neg hy] at h
      obtain rfl := Except.ok.inj h
      refine hother fun h hx hy' => hy ?_
      rw [tag_of_hasHead hx hy' (by rw [htag]; decide) (by rw [htag]; decide), htag]
  case pointerType | referenceType | rvalueReferenceType =>
    have hheadx := (head_eq_iff (g := g) (u := x) (.address _)).2 ⟨by rw [htag]; rfl, htag⟩
    split_ifs at h with hy
    · obtain rfl := Except.ok.inj h
      have hheady := (head_eq_iff (g := g) (u := y) (.address _)).2 ⟨by rw [hy]; rfl, hy⟩
      rw [List.forall_mem_singleton]
      constructor
      · intro hcall
        refine ⟨_, hheadx, hheady, ?_⟩
        rw [parts_of_head hheadx, parts_of_head hheady]
        exact .cons (hr _ _ hcall) .nil
      · rintro ⟨h', hx', hy', hparts⟩
        rw [parts_of_head hheadx, parts_of_head hheady] at hparts
        exact hr _ _ (List.forall₂_cons.1 hparts).1
    · obtain rfl := Except.ok.inj h
      refine hother fun h hx hy' => hy ?_
      rw [tag_of_hasHead hx hy' (by rw [htag]; decide) (by rw [htag]; decide), htag]
  case subroutineType | subprogram =>
    have hheadx := (head_eq_iff (g := g) (u := x) (.subprogram _)).2 ⟨by rw [htag]; rfl, rfl⟩
    split_ifs at h with hy
    · obtain rfl := Except.ok.inj h
      have hheady := (head_eq_iff (g := g) (u := y) (.subprogram _)).2 ⟨hy, rfl⟩
      rw [List.forall_mem_cons, List.forall_mem_cons, parameterChecks_hold_iff,
        parts_of_head hheadx, parts_of_head hheady, hheadx, hheady]
      simp only [Head.parts, List.forall₂_cons]
      constructor
      · rintro ⟨hresult, hvariadic, hparameters⟩
        refine ⟨_, rfl, ?_, hr _ _ hresult, hparameters⟩
        rw [of_decide_eq_true hvariadic]
      · rintro ⟨h, hx, hy, hresult, hparameters⟩
        refine ⟨hr _ _ hresult, decide_eq_true ?_, hparameters⟩
        exact Head.subprogram.inj (Option.some.inj (hy.trans hx.symm))
    · obtain rfl := Except.ok.inj h
      refine hother fun h hx hy' => hy ?_
      rw [cls_of_hasHead hx hy', htag]
      rfl
  all_goals
    obtain rfl := Except.ok.inj h
    rw [List.forall_mem_singleton]
    show decide _ = true ↔ _
    rw [decide_eq_true_eq]
    obtain ⟨h, hx, hnil⟩ : ∃ h, head g x = some h ∧ ∀ z, h.parts (g z) = [] := by
      simp [head, htag, Head.parts]
    exact head_agrees_iff hx hnil

/-- The checks on two concrete types can be made out if arrays can be counted. -/
theorem concreteChecks_returns (hx : (g x).tag = .arrayType → ∃ n, elementCount g x = .ok n)
    (hy : (g y).tag = .arrayType → ∃ n, elementCount g y = .ok n) :
    ∃ cs, concreteChecks g x y = .ok cs := by
  unfold concreteChecks
  split
  · rename_i htagx
    split
    · rename_i htagy
      obtain ⟨n, hn⟩ := hx htagx
      obtain ⟨n', hn'⟩ := hy htagy
      rw [hn, hn']
      exact ⟨_, rfl⟩
    · exact ⟨_, rfl⟩
  all_goals try split
  all_goals exact ⟨_, rfl⟩

theorem counted_of_head {h : Head} (hhead : head g x = some h) (htag : (g x).tag = .arrayType) :
    ∃ n, elementCount g x = .ok n := by
  rw [head_eq_iff] at hhead
  cases h <;> simp_all [HasHead, Tag.cls, Tag.addressHolding]

/-! ### Equality and forms -/

theorem chains_eq_false (hpassed : (g x).tag.passedOver = false)
    (hfalls : (g x).tag.fallsBack = false) : (g x).tag.chains = false := by
  cases htag : (g x).tag <;> simp_all [Tag.chains, Tag.passedOver, Tag.fallsBack]

theorem fallsBack_of_head {h : Head} (hx : head g x = some h) : (g x).tag.fallsBack = false := by
  rw [head_eq_iff] at hx
  cases h <;> cases htag : (g x).tag <;>
    simp_all [HasHead, Tag.cls, Tag.addressHolding, Tag.fallsBack]

theorem hasConcreteType_of_head {h : Head} (hx : head g x = some h) :
    HasConcreteType g (some x) (some x) := by
  refine hasConcreteType_self ?_
  rw [head_eq_iff] at hx
  cases h <;> cases htag : (g x).tag <;>
    simp_all [HasHead, Tag.cls, Tag.addressHolding, Tag.chains]

/-- The checks on a type with an override. -/
theorem hasChecks_override (hfalls : (g x).tag.fallsBack = false) (hd : HasConcreteType g u d)
    (hcs : ownChecks g x d = .ok cs) : HasChecks (checks g) (some x, u) cs := by
  refine (Settles.bind (h := fun _ => ownChecks g x) hd (Settles.const hcs)).congr fun n => ?_
  show overrideChecks g n x u = _
  rw [overrideChecks]
  refine bind_congr fun c => ?_
  rw [hfalls]
  rfl

/-- The check on a type without one. -/
theorem hasChecks_fallsBack (hfalls : (g x).tag.fallsBack = true)
    (hc : HasConcreteType g (some x) c) (hd : HasConcreteType g u d) :
    HasChecks (checks g) (some x, u) [.call (c, d)] := by
  let call (d c : Option ι) : Except Fault (List (Check (Option ι × Option ι))) :=
    .ok [.call (c, d)]
  refine (Settles.bind (h := fun n d => concreteOf g n (some x) >>= call d) hd
    (Settles.bind (h := fun _ => call d) hc (Settles.const rfl))).congr fun n => ?_
  show overrideChecks g n x u = _
  rw [overrideChecks]
  refine bind_congr fun c => ?_
  rw [hfalls]
  rfl

/-- What the checks on a type can be. -/
theorem hasChecks_cases (h : HasChecks (checks g) (some x, u) cs) :
    ∃ d, HasConcreteType g u d ∧
      (((g x).tag.fallsBack = true ∧ ∃ c, HasConcreteType g (some x) c ∧ cs = [.call (c, d)]) ∨
        ((g x).tag.fallsBack = false ∧ ownChecks g x d = .ok cs)) := by
  obtain ⟨n, hn⟩ := h.exists_run
  replace hn : overrideChecks g n x u = .ok cs := hn
  obtain ⟨d, hd, hn⟩ := bind_eq_ok.1 hn
  refine ⟨d, Settles.of_mono (fun _ _ h => concreteOf_mono h u) hd, ?_⟩
  split_ifs at hn with hfalls
  · obtain ⟨c, hc, hn⟩ := bind_eq_ok.1 hn
    obtain rfl := Except.ok.inj hn
    exact .inl ⟨hfalls, c, Settles.of_mono (fun _ _ h => getConcreteType_mono h x) hc, rfl⟩
  · exact .inr ⟨eq_false_of_ne_true hfalls, hn⟩

/-- An override's checks that hold compare two concrete types. -/
theorem ownChecks_cases (h : ownChecks g x d = .ok cs) (hall : ∀ c ∈ cs, c.Holds r) :
    (g x).tag.passedOver = false ∧ ∃ y, d = some y ∧ concreteChecks g x y = .ok cs := by
  unfold ownChecks at h
  split_ifs at h with hpassed
  · obtain rfl := Except.ok.inj h
    exact nomatch hall _ (List.mem_singleton_self _)
  · cases d with
    | none =>
      obtain rfl := Except.ok.inj h
      exact nomatch hall _ (List.mem_singleton_self _)
    | some y => exact ⟨eq_false_of_ne_true hpassed, y, rfl, h⟩

/-- No type with a form has the same concrete type as one that always compares `false`. -/
def PassedOverApart (g : TypeGraph ι) : Prop :=
  ∀ m t c, (g m).tag.passedOver = true → (g t).tag.passedOver = false →
    HasConcreteType g (some m) c → HasConcreteType g (some t) c → ∀ f, ¬HasForm g (some t) f

theorem comparable_of_form {z : ι} (hg : PassedOverApart g) (hu : HasConcreteType g u c)
    (hz : (g z).tag.passedOver = false) (hc : HasConcreteType g (some z) c)
    (hf : HasForm g (some z) f) : Comparable g u := by
  cases u with
  | none => trivial
  | some m =>
    refine eq_false_of_ne_true fun hm => ?_
    exact hg m z c hm hz hu hc f hf

theorem HasForm.of_none (h : HasForm g none f) : f = .void := by
  cases h with
  | void => rfl
  | type _ hsome => exact nomatch hasConcreteType_none.unique hsome

theorem HasForm.of_void (h : HasForm g c .void) (hc : HasConcreteType g c c) : c = none := by
  cases h with
  | void _ hnone => exact hc.unique hnone

/-- **What comes out equal has one form.** -/
theorem sameForm_of_allHold (hg : PassedOverApart g) {p : Option ι × Option ι}
    (h : AllHold (checks g) p) : SameForm g p.1 p.2 := by
  -- the type asked has a form in common with the concrete type of the other
  have hself : ∀ {t : ι} {u : Option ι} {cs}, HasChecks (checks g) (some t, u) cs →
      (∀ c ∈ cs, c.Holds fun p => SameForm g p.1 p.2) → SameForm g (some t) u := by
    intro t u cs hcs hall
    obtain ⟨d, hd, ⟨hfalls, c, hc, rfl⟩ | ⟨hfalls, hcs⟩⟩ := hasChecks_cases hcs
    · obtain ⟨f, hformc, hformd⟩ : SameForm g c d := hall _ (List.mem_singleton_self _)
      have hpassed : (g t).tag.passedOver = false := by
        cases htag : (g t).tag <;> simp_all [Tag.passedOver, Tag.fallsBack]
      have hform : HasForm g (some t) f := (hasForm_iff (t := some t) hpassed hc).2 hformc
      refine ⟨f, hform, (hasForm_iff ?_ hd).2 hformd⟩
      cases d with
      | some y =>
        exact comparable_of_form hg hd (comparable_concrete hd) (hasConcreteType_concrete hd) hformd
      | none =>
        obtain rfl := hformd.of_none
        rw [hformc.of_void (hasConcreteType_concrete hc)] at hc
        exact comparable_of_form hg hd hpassed hc hform
    · obtain ⟨hpassed, y, rfl, hconcrete⟩ := ownChecks_cases hcs hall
      obtain ⟨h, hheadx, hheady, hparts⟩ :=
        (concreteChecks_hold_iff (fun a b => SameForm.symm) hpassed hfalls hconcrete).1 hall
      have ht : HasConcreteType g (some t) (some t) :=
        hasConcreteType_self (chains_eq_false hpassed hfalls)
      obtain ⟨f, hformt, hformy⟩ := sameForm_of_parts ht hd hheadx hheady hparts
      refine ⟨f, hformt, (hasForm_iff ?_ hd).2 hformy⟩
      exact comparable_of_form hg hd (comparable_concrete hd) (hasConcreteType_concrete hd) hformy
  induction h with
  | @intro p cs hcs hdecided _ ih =>
    have hall : ∀ c ∈ cs, c.Holds fun p => SameForm g p.1 p.2 := by
      intro c hc
      cases c with
      | decided b => exact hdecided b hc
      | call q => exact ih q hc
    obtain ⟨_ | t, u⟩ := p
    · cases u with
      | none => exact ⟨.void, .void trivial hasConcreteType_none, .void trivial hasConcreteType_none⟩
      | some u => exact (hself (t := u) (u := none) hcs hall).symm
    · exact hself hcs hall

/-- Types are equal if their concrete types have one head and equal parts. -/
theorem allHold_of_parts {h : Head} (ht : Comparable g t) (hx : HasConcreteType g t (some x))
    (hy : HasConcreteType g u (some y)) (hhead : head g x = some h) (hheady : head g y = some h)
    (hr : ∀ a b, r (a, b) → r (b, a)) (hrall : ∀ q, r q → AllHold (checks g) q)
    (hparts : List.Forall₂ (fun a b => r (a, b)) (parts g x) (parts g y)) :
    AllHold (checks g) (t, u) := by
  obtain ⟨cs, hcs⟩ := concreteChecks_returns (counted_of_head hhead) (counted_of_head hheady)
  have hall : ∀ c ∈ cs, c.Holds (AllHold (checks g)) := by
    intro c hc
    have hholds := (concreteChecks_hold_iff hr (comparable_concrete hx)
      (fallsBack_of_head hhead) hcs).2 ⟨h, hhead, hheady, hparts⟩ c hc
    cases c with
    | decided b => exact hholds
    | call q => exact hrall q hholds
  have hxy : ∀ {v}, HasConcreteType g v (some y) → AllHold (checks g) (some x, v) := by
    intro v hv
    have hown : ownChecks g x (some y) = .ok cs := by
      rw [ownChecks, if_neg (by simpa [Comparable] using comparable_concrete hx)]
      exact hcs
    exact .intro (hasChecks_override (fallsBack_of_head hhead) hv hown) (fun b hb => hall _ hb)
      fun q hq => hall _ hq
  obtain _ | t := t
  · cases hasConcreteType_none.unique hx
  · cases hfalls : (g t).tag.fallsBack with
    | true =>
      refine .intro (hasChecks_fallsBack hfalls hx hy) (fun b hb => ?_) fun q hq => ?_
      · cases List.mem_singleton.1 hb
      · obtain rfl := Check.call.inj (List.mem_singleton.1 hq)
        exact hxy (hasConcreteType_concrete hy)
    | false =>
      have hself := hasConcreteType_self (chains_eq_false ht hfalls)
      rw [hself.unique hx]
      exact hxy hy

theorem allHold_of_void (ht : Comparable g t) (hu : Comparable g u)
    (hnonet : HasConcreteType g t none) (hnoneu : HasConcreteType g u none) :
    AllHold (checks g) (t, u) := by
  have hvoid : AllHold (checks g) (none, none) :=
    .intro (Settles.const rfl) (fun b hb => absurd hb List.not_mem_nil)
      fun q hq => absurd hq List.not_mem_nil
  have hsome : ∀ {t u}, Comparable g (some t) → HasConcreteType g (some t) none →
      HasConcreteType g u none → AllHold (checks g) (some t, u) := by
    intro t u ht hnonet hnoneu
    have hfalls : (g t).tag.fallsBack = true := by
      refine eq_true_of_ne_false fun hfalls => ?_
      exact nomatch (hasConcreteType_self (chains_eq_false ht hfalls)).unique hnonet
    refine .intro (hasChecks_fallsBack hfalls hnonet hnoneu) (fun b hb => ?_) fun q hq => ?_
    · exact nomatch List.mem_singleton.1 hb
    · obtain rfl := Check.call.inj (List.mem_singleton.1 hq)
      exact hvoid
  match t, u with
  | none, none => exact hvoid
  | some t, u => exact hsome ht hnonet hnoneu
  | none, some u =>
    have h := hsome hu hnoneu hasConcreteType_none
    cases h with
    | intro hcs hdecided hcall => exact .intro hcs hdecided hcall

/-- **Types of one form come out equal, in either order.** -/
theorem allHold_of_sameForm (h : SameForm g t u) : AllHold (checks g) (t, u) := by
  obtain ⟨f, ht, hu⟩ := h
  suffices hboth : AllHold (checks g) (t, u) ∧ AllHold (checks g) (u, t) from hboth.1
  induction ht generalizing u with
  | void hcomparable hnone =>
    cases hu with
    | void hcomparable' hnone' =>
      exact ⟨allHold_of_void hcomparable hcomparable' hnone hnone',
        allHold_of_void hcomparable' hcomparable hnone' hnone⟩
  | @type t x h fs hcomparable hx hheadx hlength _ ih =>
    cases hu with
    | @type _ y _ _ hcomparable' hy hheady hlength' hparts' =>
      -- the parts are equal in either order by induction
      let r : Option ι × Option ι → Prop := fun p =>
        AllHold (checks g) (p.1, p.2) ∧ AllHold (checks g) (p.2, p.1)
      have hparts : List.Forall₂ (fun a b => r (a, b)) (parts g x) (parts g y) :=
        forall₂_of_forms (List.forall₂_iff_zip.2 ⟨hlength, fun hmem b hb => ih _ _ hmem hb⟩)
          (List.forall₂_iff_zip.2 ⟨hlength', fun hmem => hparts' _ _ hmem⟩)
      have hflip : List.Forall₂ (fun a b => r (a, b)) (parts g y) (parts g x) :=
        (List.Forall₂.imp (fun _ _ hab => hab.symm) hparts).flip
      constructor
      · exact allHold_of_parts (r := r) hcomparable hx hy hheadx hheady (fun _ _ => And.symm)
          (fun _ => And.left) hparts
      · exact allHold_of_parts (r := r) hcomparable' hy hx hheady hheadx (fun _ _ => And.symm)
          (fun _ => And.left) hflip

end Facts

end Types
end Dwarfpp
