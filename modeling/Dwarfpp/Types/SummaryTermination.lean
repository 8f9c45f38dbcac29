/-
# Where summary codes and abstract names are found

On a finite graph every call of `summary_code`, whatever is cached, and of
`abstract_name_for_type` ends if no type's name is made from its own name and no
type's code from its own code; and it is only then that all end, if the checks on the
way are passed (`summaries_end`).  That no type contains itself is not enough
(`memberPointer_runs_on`): a pointer to a member does not cut a cycle, since it chains
on to the type of the member.

The proof goes through each function once, for a set `p` of faults that either has
`outOfSteps` in it, or asks for steps enough to follow all links (`Enough`,
`EnoughCode`); and either has the other faults, or asks for the checks (`Checked`).
-/

import Dwarfpp.Types.SummaryCache

namespace Dwarfpp
namespace Types

open Lib Dwarfpp.Expr Relation

variable {ι : Type} {g : TypeGraph ι} {p : Fault → Prop} {fuel : ℕ} {t u : ι} {o : Option ι}

/-! ### Computations without loops -/

/-- A computation without a loop of its own, if it returns or its faults are allowed. -/
theorem Throws.check {α : Type} {x : Except Fault α} (hx : Throws (· ≠ .outOfSteps) x)
    (h : (∃ a, x = .ok a) ∨ ∀ f, f ≠ .outOfSteps → p f) : Throws p x :=
  h.elim Throws.of_returns hx.imp

theorem deref_throws {α : Type} (o : Option α) : Throws (· ≠ .outOfSteps) (deref o) := by
  cases o with
  | none => exact Throws.error (nofun)
  | some a => exact Throws.ok a

theorem assert_throws (q : Prop) [Decidable q] : Throws (· ≠ .outOfSteps) (assert q) := by
  by_cases h : q
  · rw [assert_ok h]
    exact Throws.ok ()
  · rw [assert_error h]
    exact Throws.error (nofun)

theorem getCanonicalName_throws (d : TypeDie ι) :
    Throws (· ≠ .outOfSteps) d.getCanonicalName := by
  rw [TypeDie.getCanonicalName]
  split_ifs
  · exact Throws.ok _
  · refine (deref_throws _).bind fun byteSize _ => ?_
    refine ((deref_throws _).bind fun _ _ => Throws.ok _).bind fun size _ => ?_
    exact (assert_throws _).bind fun _ _ => Throws.ok _

theorem elementCount_throws (t : ι) : Throws (· ≠ .outOfSteps) (elementCount g t) := by
  refine ((assert_throws _).bind fun _ _ => Throws.ok _).bind fun counts _ => ?_
  split
  · exact Throws.ok _
  · exact Throws.ok _

theorem enumeratorShifts_throws (last : BitVec 32) (es : List Enumerator) :
    Throws (· ≠ .outOfSteps) (enumeratorShifts last es : Except Fault (List (Shift ι))) := by
  induction es generalizing last with
  | nil => exact Throws.ok _
  | cons e es ih =>
    rw [enumeratorShifts]
    refine (deref_throws _).bind fun name _ => ?_
    cases e.constValue with
    | some v => exact (ih _).bind fun _ _ => Throws.ok _
    | none =>
      dsimp only
      split_ifs
      · exact Throws.error (by decide)
      · exact (ih _).bind fun _ _ => Throws.ok _

theorem enumBaseType_throws (d : TypeDie ι) : Throws (· ≠ .outOfSteps) d.enumBaseType := by
  rw [TypeDie.enumBaseType]
  cases d.type with
  | some u => exact Throws.ok _
  | none =>
    dsimp only
    rw [CompileUnit.implicitEnumBaseType]
    split_ifs
    · split
      · exact Throws.ok _
      · exact Throws.error (nofun)
    · exact Throws.ok _

theorem evalOp_throws (ctx : EvalContext) (i : ExprInstr) (st : EvalState) (op : DwOp) :
    Throws (· ≠ .outOfSteps) (evalOp ctx i st op) := by
  have hunary : ∀ f : BitVec 64 → Except Fault (BitVec 64),
      (∀ x, Throws (· ≠ .outOfSteps) (f x)) → Throws (· ≠ .outOfSteps) (st.unary f) := by
    intro f hf
    rw [EvalState.unary]
    split
    · exact (hf _).bind fun _ _ => Throws.ok _
    · exact Throws.error (nofun)
  have hbinary : ∀ f : BitVec 64 → BitVec 64 → Except Fault (BitVec 64),
      (∀ x y, Throws (· ≠ .outOfSteps) (f x y)) → Throws (· ≠ .outOfSteps) (st.binary f) := by
    intro f hf
    rw [EvalState.binary]
    split
    · exact (hf _ _).bind fun _ _ => Throws.ok _
    · exact Throws.error (nofun)
  have hindex : ∀ idx, Throws (· ≠ .outOfSteps) (st.index idx) := by
    intro idx
    rw [EvalState.index]
    split
    · exact Throws.ok _
    · exact Throws.error (nofun)
  have hreg : ∀ n, Throws (· ≠ .outOfSteps) (ctx.reg n) := by
    intro n
    rw [EvalContext.reg]
    split
    · exact Throws.ok _
    · exact Throws.error (nofun)
  have hfbreg : Throws (· ≠ .outOfSteps) ctx.fbreg := by
    rw [EvalContext.fbreg]
    split
    · exact Throws.ok _
    · exact Throws.error (nofun)
  cases op <;> simp only [evalOp]
  case dup | drop | «over» | pick => exact (hindex _).bind fun _ _ => Throws.ok _
  case breg | bregx => exact (hreg _).bind fun _ _ => Throws.ok _
  case fbreg | callFrameCfa => exact hfbreg.bind fun _ _ => Throws.ok _
  case deref | derefSize => exact Throws.error (nofun)
  case xderef | xderefSize =>
    split_ifs
    · exact Throws.error (nofun)
    · exact Throws.error (nofun)
  case swap | rot =>
    split
    · exact Throws.ok _
    · exact Throws.error (nofun)
  case abs =>
    refine hunary _ fun x => ?_
    rw [absOp]
    split_ifs
    · exact Throws.error (nofun)
    · exact Throws.ok _
    · exact Throws.ok _
  case neg | not | plusUconst => exact hunary _ fun x => Throws.ok _
  case and | or | xor | plus | minus | mul => exact hbinary _ fun x y => Throws.ok _
  case div | mod =>
    refine hbinary _ fun x y => ?_
    rw [divOp]
    split_ifs
    · exact Throws.error (nofun)
    · exact Throws.ok _
  case shl | shr | shra =>
    refine hbinary _ fun x y => ?_
    rw [shiftOp]
    split_ifs
    · exact Throws.ok _
    · exact Throws.error (nofun)
  case eq | ge | gt | le | lt | ne => exact hbinary _ fun x y => Throws.ok _
  all_goals exact Throws.ok _

theorem evaluator_throws (ctx : EvalContext) (l : List ExprInstr) (s : List (BitVec 64)) :
    Throws (· ≠ .outOfSteps) (evaluator ctx l s) := by
  have hloop : ∀ (l : List ExprInstr) (st : EvalState),
      Throws (· ≠ .outOfSteps) (evalLoop ctx l st) := by
    intro l
    induction l with
    | nil => exact fun st => Throws.ok _
    | cons i l ih =>
      intro st
      rw [evalLoop]
      split_ifs
      · exact Throws.ok _
      · refine Throws.bind ?_ fun st' _ => ih st'
        rw [evalInstr]
        split
        · exact evalOp_throws _ _ _ _
        · exact Throws.error (by decide)
  rw [evaluator_eq]
  exact (hloop _ _).bind fun _ _ => Throws.ok _

theorem byteOffsetInEnclosingType_throws (d : TypeDie ι) (k : ℕ) (c : DataMember ι) :
    Throws (· ≠ .outOfSteps) (d.byteOffsetInEnclosingType k c) := by
  have hvalue : ∀ l : List ExprInstr, Throws (· ≠ .outOfSteps)
      (do let v ← evaluator ⟨none, none⟩ l [0]; v.tos) := by
    intro l
    refine (evaluator_throws _ _ _).bind fun v _ => ?_
    rw [Evaluator.tos]
    split_ifs
    · exact Throws.error (by decide)
    · exact Throws.ok _
    · split
      · exact Throws.ok _
      · exact Throws.error (by decide)
  by_cases hdecl : c.declaration = some true
  · rw [TypeDie.byteOffsetInEnclosingType, if_pos hdecl]
    exact Throws.ok _
  · rw [TypeDie.byteOffsetInEnclosingType, if_neg hdecl]
    split
    · by_cases hfirst : d.dataMembers.findIdx (fun c => c.declaration ≠ some true) = k ∨
          d.tag = .unionType
      · rw [if_pos hfirst]
        exact Throws.ok _
      · rw [if_neg hfirst]
        exact Throws.ok _
    · split
      · exact Throws.ok _
      · rename_i f _ heq
        exact Throws.error (hvalue _ f heq)
      · exact Throws.ok _
    · exact Throws.ok _

theorem memberOffset_throws (d : TypeDie ι) (k : ℕ) (c : DataMember ι) :
    Throws (· ≠ .outOfSteps) (d.memberOffset k c) := by
  rw [TypeDie.memberOffset]
  by_cases hdecl : c.declaration = some true
  · rw [if_pos hdecl]
    exact Throws.ok _
  · rw [if_neg hdecl]
    split
    · exact Throws.ok _
    · exact byteOffsetInEnclosingType_throws d k c

/-! ### Names -/

section Names

variable (g)

/-- There are steps enough to find the name of a type, unless `p` allows for running out of
them. -/
def Enough (p : Fault → Prop) (fuel : ℕ) (o : Option ι) : Prop :=
  p .outOfSteps ∨ ∃ rank : ι → ℕ, (∀ t u, NameLink g t u → rank u < rank t) ∧
    o.elim 0 (fun t => rank t + 1) < fuel

end Names

theorem Enough.zero (h : Enough g p 0 o) : p .outOfSteps :=
  h.elim id fun ⟨_, _, hless⟩ => absurd hless (Nat.not_lt_zero _)

theorem Enough.succ (h : Enough g p fuel o) : Enough g p (fuel + 1) o :=
  h.imp_right fun ⟨rank, hrank, hless⟩ => ⟨rank, hrank, Nat.lt_succ_of_lt hless⟩

/-- One step fewer is enough for a type that the name is made from. -/
theorem Enough.operand (h : Enough g p (fuel + 1) (some t)) (ho : o ∈ nameOperands g t) :
    Enough g p fuel o := by
  refine h.imp_right fun ⟨rank, hrank, hless⟩ => ⟨rank, hrank, ?_⟩
  change rank t + 1 < fuel + 1 at hless
  cases o with
  | none => exact Nat.zero_lt_of_lt (Nat.lt_of_succ_lt_succ hless)
  | some u =>
    have hu : rank u < rank t := hrank t u ho
    show rank u + 1 < fuel
    omega

theorem getConcreteType_throws (h : Enough g p (fuel + 1) (some t)) :
    Throws p (getConcreteType g fuel t) := by
  induction fuel generalizing t with
  | zero =>
    refine Throws.error (h.elim id fun ⟨rank, _, hless⟩ => ?_)
    change rank t + 1 < 1 at hless
    omega
  | succ fuel ih =>
    rw [getConcreteType]
    split_ifs with hchains
    · cases htype : (g t).type with
      | none => exact Throws.ok _
      | some u =>
        refine ih (h.operand ?_)
        rw [nameOperands_of_chains hchains, htype]
        exact List.mem_singleton_self _
    · exact Throws.ok _

/-- What is enough for a type is enough for its concrete type. -/
theorem Enough.concrete (h : Enough g p fuel (some t)) (ho : getConcreteType g fuel t = .ok o) :
    Enough g p fuel o := by
  refine h.imp_right fun ⟨rank, hrank, hless⟩ => ⟨rank, hrank, ?_⟩
  change rank t + 1 < fuel at hless
  obtain ⟨o', ho', hc⟩ := getConcreteType_of_rank hrank (show rank t < fuel by omega)
  obtain rfl := Except.ok.inj (ho.symm.trans ho')
  cases o with
  | none => exact Nat.zero_lt_of_lt hless
  | some c =>
    show rank c + 1 < fuel
    rcases hc c rfl with ⟨rfl, -⟩ | hlower
    · exact hless
    · omega

/-- One step fewer is enough for the concrete type of a type that has another. -/
theorem Enough.through (h : Enough g p (fuel + 1) (some t)) (hchains : (g t).tag.chains = true)
    (ho : getConcreteType g fuel t = .ok o) : Enough g p fuel o := by
  refine h.imp_right fun ⟨rank, hrank, hless⟩ => ⟨rank, hrank, ?_⟩
  change rank t + 1 < fuel + 1 at hless
  obtain ⟨o', ho', hc⟩ := getConcreteType_of_rank hrank (show rank t < fuel by omega)
  obtain rfl := Except.ok.inj (ho.symm.trans ho')
  cases o with
  | none => exact Nat.zero_lt_of_lt (Nat.lt_of_succ_lt_succ hless)
  | some c =>
    show rank c + 1 < fuel
    rcases hc c rfl with ⟨-, hfalse⟩ | hlower
    · rw [hchains] at hfalse
      cases hfalse
    · omega

/-- The checks of the names are passed, unless `p` allows for their faults. -/
def NamesPass (g : TypeGraph ι) (p : Fault → Prop) : Prop :=
  (∀ t, NameChecked g t) ∨ ∀ f, f ≠ .outOfSteps → p f

/-- **The printing of a name ends in no other fault.** -/
theorem abstractName_throws (hpass : NamesPass g p) (h : Enough g p fuel o) :
    Throws p (abstractName g fuel o) := by
  induction fuel generalizing o with
  | zero => exact Throws.error h.zero
  | succ fuel ih =>
    cases o with
    | none => exact Throws.ok _
    | some t =>
      have hone : ∀ {o : Option ι} {f : String → String}, o ∈ nameOperands g t →
          Throws p (do let x ← abstractName g fuel o; return f x) := fun ho =>
        (ih (h.operand ho)).bind fun _ _ => Throws.ok _
      by_cases hthrough : (g t).tag.chains = true ∧ (g t).tag.mark = none
      · rw [abstractName_through hthrough.1 hthrough.2]
        exact (getConcreteType_throws h).bind fun c hc => ih (h.through hthrough.1 hc)
      · rw [abstractName]
        cases hmark : (g t).tag.mark with
        | some mark =>
          refine hone ?_
          unfold nameOperands
          cases htag : (g t).tag <;> simp_all [Tag.mark, Tag.cls]
        | none =>
          have hops : ∀ {l}, nameOperands g t = l → ∀ o ∈ l, o ∈ nameOperands g t :=
            fun hl o ho => hl ▸ ho
          cases hcls : (g t).tag.cls <;> simp only
          case unspecified | string | withDataMembers | enumeration => exact Throws.ok _
          case base =>
            refine Throws.check (getCanonicalName_throws _) (hpass.imp_left fun hchecked => ?_)
            have ht := hchecked t
            rw [NameChecked, hcls] at ht
            exact ht
          case subrange =>
            exact hone (hops (by rw [nameOperands, hcls]) _ (List.mem_singleton_self _))
          case array =>
            refine Throws.bind ?_ fun n _ =>
              hone (hops (by rw [nameOperands, hcls]) _ (List.mem_singleton_self _))
            refine Throws.check (elementCount_throws t) (hpass.imp_left fun hchecked => ?_)
            have ht := hchecked t
            rw [NameChecked, hcls] at ht
            exact elementCount_returns_iff.2 ht
          case typeDescribingSubprogram =>
            have hsub : nameOperands g t =
                (g t).formalParameters.map (·.findType) ++ [(g t).type] := by
              rw [nameOperands, hcls]
            refine Throws.bind (Throws.mapM ?_) fun args _ =>
              hone (hops hsub _ (List.mem_append_right _ (List.mem_singleton_self _)))
            rintro ⟨fp, k⟩ hfp
            have hmem := List.mem_of_getElem? (List.mk_mem_zipIdx_iff_getElem?.1 hfp)
            exact hone (hops hsub _ (List.mem_append_left _ (List.mem_map_of_mem hmem)))
          all_goals
            refine absurd ⟨?_, hmark⟩ hthrough
            cases htag : (g t).tag <;> simp_all [Tag.chains, Tag.mark, Tag.cls]

/-! ### Ultimate elements and pointees -/

theorem nameOperands_of_array (h : (g t).tag = .arrayType) :
    nameOperands g t = [(g t).type] := by
  rw [nameOperands, h]
  rfl

theorem nameOperands_of_addressHolding (h : (g t).tag.addressHolding = true) :
    nameOperands g t = [(g t).type] := by
  unfold nameOperands
  cases htag : (g t).tag <;> simp_all [Tag.addressHolding, Tag.cls]

theorem ultimateElementType_throws (h : Enough g p fuel (some t)) :
    Throws p (ultimateElementType g fuel t) := by
  induction fuel generalizing t with
  | zero => exact Throws.error h.zero
  | succ fuel ih =>
    rw [ultimateElementType]
    split_ifs with harray
    · cases htype : (g t).type with
      | none => exact Throws.ok _
      | some el =>
        have hel : Enough g p fuel (some el) := h.operand (by
          rw [nameOperands_of_array harray, htype]
          exact List.mem_singleton_self _)
        refine (getConcreteType_throws hel.succ).bind fun o ho => ?_
        cases o with
        | none => exact Throws.ok _
        | some next => exact ih (hel.concrete ho)
    · exact Throws.ok _

theorem ultimateElementCount_throws (hpass : NamesPass g p) (h : Enough g p fuel (some t))
    (count : ℕ) : Throws p (ultimateElementCount g fuel count t) := by
  induction fuel generalizing t count with
  | zero => exact Throws.error h.zero
  | succ fuel ih =>
    rw [ultimateElementCount]
    split_ifs with harray
    · refine Throws.bind ?_ fun n _ => ?_
      · refine Throws.check (elementCount_throws t) (hpass.imp_left fun hchecked => ?_)
        have ht := hchecked t
        rw [NameChecked, harray] at ht
        exact elementCount_returns_iff.2 ht
      · cases n with
        | none => exact Throws.ok _
        | some n =>
          cases htype : (g t).type with
          | none => exact Throws.ok _
          | some el =>
            have hel : Enough g p fuel (some el) := h.operand (by
              rw [nameOperands_of_array harray, htype]
              exact List.mem_singleton_self _)
            refine (getConcreteType_throws hel.succ).bind fun o ho => ?_
            cases o with
            | none => exact Throws.ok _
            | some next => exact ih (hel.concrete ho) _
    · exact Throws.ok _

theorem findUltimateReachedType_throws (h : Enough g p fuel (some t)) :
    Throws p (findUltimateReachedType g fuel t) := by
  refine Throws.bind ?_ fun _ _ => Throws.ok _
  induction fuel generalizing t with
  | zero => exact Throws.error h.zero
  | succ fuel ih =>
    rw [ultimateReachedType]
    split_ifs with haddress
    · cases htype : (g t).type with
      | none => exact Throws.ok _
      | some u =>
        have hu : Enough g p fuel (some u) := h.operand (by
          rw [nameOperands_of_addressHolding haddress, htype]
          exact List.mem_singleton_self _)
        refine (getConcreteType_throws hu.succ).bind fun o ho => ?_
        cases o with
        | none => exact Throws.ok _
        | some next => exact ih (hu.concrete ho)
    · exact Throws.ok _

/-! ### Summaries -/

variable (g) in
/-- What the code of a type takes for granted: that base types, arrays and strings have their
sizes, enumerators their names and values an `int` holds, members with an offset their types, and
that no address class is given. -/
def Checked (t : ι) : Prop :=
  NameChecked g t ∧
    match (g t).tag.cls with
    | .base => (g t).byteSize.isSome
    | .enumeration =>
      (∃ l : List (Shift ι), enumeratorShifts (-1) (g t).enumerators = .ok l) ∧
        ∃ o, (g t).enumBaseType = .ok o
    | .typeChain => (g t).addressClass.getD 0 = 0
    | .withDataMembers =>
      ∀ c k, (g t).dataMembers[k]? = some c →
        ∃ o, (g t).memberOffset k c = .ok o ∧ (o.isSome → c.type.isSome)
    | .string => (g t).stringLength.isSome ∨ (g t).byteSize.isSome
    | _ => True

/-- The checks are passed, unless `p` allows for their faults. -/
def Passes (g : TypeGraph ι) (p : Fault → Prop) : Prop :=
  (∀ t, Checked g t) ∨ ∀ f, f ≠ .outOfSteps → p f

theorem Passes.names (h : Passes g p) : NamesPass g p :=
  h.imp_left fun hchecked t => (hchecked t).1

theorem incorporateType_throws (hpass : NamesPass g p) (h : ∀ o, Enough g p fuel o)
    (o : Option ι) : Throws p (incorporateType g fuel o) := by
  cases o with
  | none => exact Throws.ok _
  | some t =>
    refine (getConcreteType_throws (h _).succ).bind fun c _ => ?_
    cases c with
    | none => exact Throws.ok _
    | some c =>
      dsimp only
      split_ifs
      · exact (abstractName_throws hpass (h _)).bind fun _ _ => Throws.ok _
      · exact Throws.ok _

theorem elementShift_throws (hpass : NamesPass g p) (h : ∀ o, Enough g p fuel o)
    (o : Option ι) : Throws p (elementShift g fuel o) := by
  cases o with
  | none => exact Throws.ok _
  | some el =>
    rw [elementShift]
    split_ifs
    · exact (abstractName_throws hpass (h _)).bind fun _ _ => Throws.ok _
    · exact Throws.ok _

theorem memberShifts_throws (hpass : NamesPass g p) (h : ∀ o, Enough g p fuel o) {d : TypeDie ι}
    {k : ℕ} {c : DataMember ι}
    (hc : (∃ o, d.memberOffset k c = .ok o ∧ (o.isSome → c.type.isSome)) ∨
      ∀ f, f ≠ .outOfSteps → p f) : Throws p (memberShifts g fuel d k c) := by
  refine Throws.bind ?_ fun o ho => ?_
  · exact Throws.check (memberOffset_throws d k c) (hc.imp_left fun ⟨o, ho, _⟩ => ⟨o, ho⟩)
  · cases o with
    | none => exact Throws.ok _
    | some offset =>
      cases htype : c.type with
      | none =>
        refine Throws.error (hc.elim (fun ⟨o, ho', htyped⟩ => ?_) fun hp => hp _ nofun)
        obtain rfl := Except.ok.inj (ho.symm.trans ho')
        rw [htype] at htyped
        exact nomatch htyped rfl
      | some u => exact (incorporateType_throws hpass h _).bind fun _ _ => Throws.ok _

/-- **The summary of a type ends in no other fault**, given one that chains no further. -/
theorem concreteSummary_throws (hpass : Passes g p) (h : ∀ o, Enough g p fuel o)
    (hchains : (g t).tag.chains = false) : Throws p (concreteSummary g fuel t) := by
  unfold concreteSummary
  cases hcls : (g t).tag.cls <;> simp only
  case base =>
    refine Throws.bind ?_ fun _ _ => Throws.ok _
    refine Throws.check (assert_throws _) (hpass.imp_left fun hchecked => ?_)
    have ht := (hchecked t).2
    rw [hcls] at ht
    exact ⟨(), assert_ok ht⟩
  case enumeration =>
    have henum := hpass.imp_left fun hchecked => (hchecked t).2
    simp only [hcls] at henum
    refine (Throws.check (enumeratorShifts_throws _ _) (henum.imp_left And.left)).bind fun _ _ => ?_
    exact (Throws.check (enumBaseType_throws _) (henum.imp_left And.right)).bind fun _ _ =>
      Throws.ok _
  case subrange | unspecified => exact Throws.ok _
  case typeDescribingSubprogram =>
    refine (incorporateType_throws hpass.names h _).bind fun _ _ => ?_
    refine (Throws.mapM fun fp _ => incorporateType_throws hpass.names h _).bind fun _ _ => ?_
    exact Throws.ok _
  case typeChain =>
    refine (findUltimateReachedType_throws (h _)).bind fun o _ => ?_
    split_ifs
    · exact Throws.ok _
    · refine Throws.bind ?_ fun _ _ => Throws.ok _
      refine Throws.check (assert_throws _) (hpass.imp_left fun hchecked => ?_)
      have ht := (hchecked t).2
      rw [hcls] at ht
      exact ⟨(), assert_ok ht⟩
  case withDataMembers =>
    refine Throws.bind (Throws.mapM ?_) fun _ _ => Throws.ok _
    rintro ⟨c, k⟩ hck
    refine memberShifts_throws hpass.names h (hpass.imp_left fun hchecked => ?_)
    have ht := (hchecked t).2
    rw [hcls] at ht
    exact ht c k (List.mk_mem_zipIdx_iff_getElem?.1 hck)
  case array =>
    refine (ultimateElementType_throws (h _)).bind fun _ _ => ?_
    refine (ultimateElementCount_throws hpass.names (h _) _).bind fun _ _ => ?_
    exact (elementShift_throws hpass.names h _).bind fun _ _ => Throws.ok _
  case string =>
    cases hlen : (g t).stringLength with
    | some l => exact Throws.ok _
    | none =>
      cases hfixed : (g t).fixedLengthInBytes with
      | some n => exact Throws.ok _
      | none =>
        refine Throws.bind (Throws.error ?_) fun _ _ => Throws.ok _
        refine hpass.elim (fun hchecked => ?_) fun hp => hp _ (by decide)
        have ht := (hchecked t).2
        rw [TypeDie.fixedLengthInBytes, hlen] at hfixed
        simp [hcls, hlen, show (g t).byteSize = none from hfixed] at ht
  case typedef | ptrToMember =>
    cases htag : (g t).tag <;> simp_all [Tag.cls, Tag.chains]

/-! ### Codes -/

variable [DecidableEq ι]

theorem containmentSummary_throws (hpass : Passes g p) (h : ∀ o, Enough g p fuel o) (t : ι) :
    Throws p (containmentSummary g fuel t) := by
  refine (getConcreteType_throws (h _).succ).bind fun o ho => ?_
  cases o with
  | none => exact Throws.ok _
  | some concrete =>
    dsimp only
    split_ifs with hne
    · exact Throws.ok _
    · split
      · exact Throws.ok _
      · exact Throws.ok _
    · refine concreteSummary_throws hpass h ?_
      obtain rfl := not_not.1 hne
      exact chains_of_getConcreteType g ho

omit [DecidableEq ι] in
/-- The cached computation of a summary's code ends in no other fault than its calls do. -/
theorem Summary.code_throws {f : ι → StateT (SummaryCache ι) (Except Fault) SummaryWord}
    {s : Summary ι} (h : ∀ u ∈ s.calls, ∀ cache, Throws p (f u cache)) (cache : SummaryCache ι) :
    Throws p (s.code (summaryCodeForType f) cache) := by
  cases s with
  | zero | absent => exact Throws.ok _
  | same t => exact h t (List.mem_singleton_self _) cache
  | shifts l =>
    have hshifts : ∀ (word : SummaryWord) (cache : SummaryCache ι),
        Throws p (l.foldlM (Shift.into (summaryCodeForType f)) word cache) := by
      change ∀ u ∈ l.filterMap Shift.call, _ at h
      induction l with
      | nil => exact fun word cache => Throws.ok _
      | cons s l ih =>
        intro word cache
        rw [List.foldlM_cons]
        have hrest := ih fun u hu => h u (by
          obtain ⟨s', hs', hcall⟩ := List.mem_filterMap.1 hu
          exact List.mem_filterMap.2 ⟨s', List.mem_cons_of_mem _ hs', hcall⟩)
        refine Throws.bind (x := s.into (summaryCodeForType f) word cache) ?_
          fun r _ => hrest r.1 r.2
        cases s with
        | value | string | invalid => exact Throws.ok _
        | code o =>
          cases o with
          | none => exact Throws.ok _
          | some u =>
            have hu := h u (List.mem_filterMap.2 ⟨_, List.mem_cons_self, rfl⟩)
            exact Throws.bind (x := f u cache) (hu cache) fun _ _ => Throws.ok _
    exact hshifts (some 0) cache

variable (g) in
/-- There are steps enough to find the code of a type, unless `p` allows for running out of
them. -/
def EnoughCode (p : Fault → Prop) (fuel : ℕ) (t : ι) : Prop :=
  p .outOfSteps ∨ ∃ (rank codeRank : ι → ℕ) (n : ℕ), (∀ t u, NameLink g t u → rank u < rank t) ∧
    (∀ t u, CodeLink g t u → codeRank u < codeRank t) ∧ (∀ t, rank t ≤ n) ∧
      n + 2 + codeRank t < fuel

omit [DecidableEq ι] in
theorem EnoughCode.enough (h : EnoughCode g p (fuel + 1) t) (o : Option ι) :
    Enough g p fuel o := by
  refine h.imp_right fun ⟨rank, codeRank, n, hrank, _, hbound, hless⟩ => ⟨rank, hrank, ?_⟩
  cases o with
  | none =>
    show 0 < fuel
    omega
  | some u =>
    have hu := hbound u
    show rank u + 1 < fuel
    omega

omit [DecidableEq ι] in
theorem EnoughCode.link (h : EnoughCode g p (fuel + 1) t) (hlink : CodeLink g t u) :
    EnoughCode g p fuel u := by
  refine h.imp_right fun ⟨rank, codeRank, n, hrank, hcode, hbound, hless⟩ =>
    ⟨rank, codeRank, n, hrank, hcode, hbound, ?_⟩
  have hu := hcode t u hlink
  omega

/-- **A call ends in no other fault**, whatever is cached. -/
theorem summaryCode_throws (hpass : Passes g p) (h : EnoughCode g p fuel t)
    (cache : SummaryCache ι) : Throws p (summaryCode g fuel t cache) := by
  induction fuel generalizing t cache with
  | zero =>
    refine Throws.error (h.elim id fun ⟨_, _, _, _, _, _, hless⟩ => ?_)
    exact absurd hless (Nat.not_lt_zero _)
  | succ fuel ih =>
    rw [summaryCode_run]
    cases cache t with
    | some code => exact Throws.ok _
    | none =>
      refine (containmentSummary_throws hpass h.enough t).bind fun s hs => ?_
      refine (Summary.code_throws (fun u hu => ?_) cache).bind fun r _ => Throws.ok _
      exact ih (h.link (((containmentSummary_spec hs).1 u).1 hu))

/-- **From a type whose code is found no chain of links leads on for ever.** -/
theorem acc_of_containmentSummaryCode {r : SummaryWord}
    (h : containmentSummaryCode g fuel t = .ok r) : Acc (fun u t => CodeLink g t u) t := by
  induction fuel generalizing t r with
  | zero => exact nomatch h
  | succ fuel ih =>
    obtain ⟨s, hs, hcode⟩ := bind_eq_ok.1 h
    refine Acc.intro t fun u hu => ?_
    have hcall := ((containmentSummary_spec hs).1 u).2 hu
    obtain ⟨r', hr'⟩ := (s.code_returns_iff rfl).1 ⟨r, hcode⟩ u hcall
    exact ih hr'

variable (g) in
/-- Every call of `summary_code`, whatever is cached, and of `abstract_name_for_type` ends. -/
def SummariesEnd : Prop :=
  ∃ n, ∀ fuel, n < fuel → ∀ t,
    (∀ cache, summaryCode g fuel t cache ≠ .error .outOfSteps) ∧
      abstractName g fuel (some t) ≠ .error .outOfSteps

variable (g) in
/-- No type's abstract name is made from its own name, and no type's code from its own code. -/
def SummariesAcyclic : Prop :=
  (∀ t, ¬TransGen (NameLink g) t t) ∧ ∀ t, ¬TransGen (CodeLink g) t t

/-- Every call ends if nothing is made from itself. -/
theorem SummariesAcyclic.end [Finite ι] (h : SummariesAcyclic g) : SummariesEnd g := by
  obtain ⟨rank, hrank⟩ := exists_rank h.1
  obtain ⟨codeRank, hcodeRank⟩ := exists_rank h.2
  obtain ⟨n, hn⟩ := exists_bound rank
  obtain ⟨m, hm⟩ := exists_bound codeRank
  have hpass : Passes g (· ≠ .outOfSteps) := .inr fun f hf => hf
  refine ⟨n + 2 + m, fun fuel hfuel t => ⟨fun cache hout => ?_, fun hout => ?_⟩⟩
  · have hless : n + 2 + codeRank t < fuel := by
      have ht := hm t
      omega
    have henough : EnoughCode g (· ≠ .outOfSteps) fuel t :=
      .inr ⟨rank, codeRank, n, hrank, hcodeRank, hn, hless⟩
    exact summaryCode_throws hpass henough cache _ hout rfl
  · have henough : Enough g (· ≠ .outOfSteps) fuel (some t) := by
      refine .inr ⟨rank, hrank, ?_⟩
      have ht := hn t
      show rank t + 1 < fuel
      omega
    exact abstractName_throws hpass.names henough _ hout rfl

/-- Nothing is made from itself where every call ends and the checks are passed: the calls then
return. -/
theorem SummariesEnd.acyclic (hchecked : ∀ t, Checked g t) (h : SummariesEnd g) :
    SummariesAcyclic g := by
  obtain ⟨n, hn⟩ := h
  have hpass : Passes g (· = .outOfSteps) := .inl hchecked
  have hnever : ∀ {α : Type} {x : Except Fault α}, x ≠ .error .outOfSteps →
      ∀ f, f = .outOfSteps → x ≠ .error f := fun hx f hf => hf ▸ hx
  refine ⟨acyclic_of_acc fun t => ?_, acyclic_of_acc fun t => ?_⟩
  · obtain ⟨-, hname⟩ := hn (n + 1) (Nat.lt_succ_self n) t
    obtain ⟨s, hs⟩ := (abstractName_throws hpass.names (.inl rfl)).returns (hnever hname)
    exact acc_of_abstractName hs
  · obtain ⟨hcode, -⟩ := hn (n + 1) (Nat.lt_succ_self n) t
    obtain ⟨⟨r, cache⟩, hrun⟩ :=
      (summaryCode_throws hpass (.inl rfl) _).returns (hnever (hcode fun _ => none))
    obtain ⟨-, k, hfound⟩ := summaryCode_keeps (n + 1) t _ r cache soundCache_empty hrun
    exact acc_of_containmentSummaryCode hfound

/-- **Every call ends if nothing is made from itself, and where the checks are passed, only
then.** -/
theorem summaries_end_iff [Finite ι] :
    (SummariesAcyclic g → SummariesEnd g) ∧
      ((∀ t, Checked g t) → (SummariesEnd g ↔ SummariesAcyclic g)) :=
  ⟨SummariesAcyclic.end, fun hchecked => ⟨SummariesEnd.acyclic hchecked, SummariesAcyclic.end⟩⟩

/-- A structure with a pointer to its own type and an `int`. -/
def linkedNode : TypeGraph (Fin 3)
  | 0 => { (default : TypeDie (Fin 3)) with
      tag := .structureType, name := some "node"
      dataMembers := [⟨false, some 1, some 1, some [⟨[⟨0x23, 0, 0, 0⟩], 0, 0⟩], none⟩,
        ⟨false, some 2, some 2, some [⟨[⟨0x23, 8, 0, 0⟩], 0, 0⟩], none⟩] }
  | 1 => { (default : TypeDie (Fin 3)) with
      tag := .pointerType, type := some 0, findType := some 0 }
  | 2 => { (default : TypeDie (Fin 3)) with
      tag := .baseType, name := some "int", encoding := 5, byteSize := some 4
      enclosingCu := { (default : CompileUnit (Fin 3)) with
        encodingLookup := fun _ => "DW_ATE_signed" } }

theorem linkedNode_acyclic : SummariesAcyclic linkedNode := by
  constructor
  · refine acyclic_of_rank (fun t => if t = 1 then 1 else 0) fun t u h => ?_
    match t, h with
    | 0, h => exact absurd h List.not_mem_nil
    | 1, h =>
      obtain rfl := Option.some.inj (List.mem_singleton.1 h)
      decide
    | 2, h => exact absurd h List.not_mem_nil
  · refine acyclic_of_rank (fun t => if t = 1 then 2 else if t = 0 then 1 else 0) fun t u h => ?_
    match t, h with
    | 0, ⟨k, c, _, hk, _, htype, hnot⟩ =>
      match k, hk with
      | 0, hk =>
        obtain rfl := Option.some.inj hk
        obtain rfl := Option.some.inj htype
        exact absurd ⟨1, ⟨1, rfl⟩, rfl⟩ hnot
      | 1, hk =>
        obtain rfl := Option.some.inj hk
        obtain rfl := Option.some.inj htype
        decide
      | k + 2, hk => exact nomatch hk
    | 1, ⟨_, hu⟩ =>
      obtain rfl := Option.some.inj hu
      decide
    | 2, h => exact h.elim

/-- The pointer in the structure cuts the cycle. -/
theorem linkedNode_ends :
    SummariesEnd linkedNode ∧ (SummariesEnd linkedNode ↔ SummariesAcyclic linkedNode) := by
  refine ⟨summaries_end_iff.1 linkedNode_acyclic, summaries_end_iff.2 fun t => ?_⟩
  match t with
  | 0 =>
    refine ⟨trivial, fun c k hk => ?_⟩
    match k, hk with
    | 0, hk =>
      obtain rfl := Option.some.inj hk
      exact ⟨some 0, by decide, fun _ => rfl⟩
    | 1, hk =>
      obtain rfl := Option.some.inj hk
      exact ⟨some 8, by decide, fun _ => rfl⟩
    | k + 2, hk => exact nomatch hk
  | 1 => exact ⟨trivial, rfl⟩
  | 2 => exact ⟨⟨"int$32", by decide +kernel⟩, rfl⟩

/-- What by-value containment is: of members in structures, of elements in arrays, and of the
targets of typedefs and qualified types. -/
def ContainsByValue (g : TypeGraph ι) (t u : ι) : Prop :=
  match (g t).tag with
  | .structureType | .unionType | .classType | .interfaceType =>
    ∃ c ∈ (g t).dataMembers, c.type = some u
  | .arrayType | .typedef | .constType | .volatileType | .restrictType | .packedType
  | .sharedType => (g t).type = some u
  | _ => False

/-- A class with a pointer to a member of itself that is of its own type. -/
def memberPointer : TypeGraph (Fin 2)
  | 0 => { (default : TypeDie (Fin 2)) with
      tag := .classType, name := some "S"
      dataMembers := [⟨false, some 1, some 1, none, none⟩] }
  | 1 => { (default : TypeDie (Fin 2)) with
      tag := .ptrToMemberType, type := some 0, findType := some 0 }

/-- The class does not contain itself, and its code is not found in any number of steps. -/
theorem memberPointer_runs_on :
    (∀ t, ¬TransGen (ContainsByValue memberPointer) t t) ∧
      ∀ fuel, summaryCode memberPointer fuel 0 (fun _ => none) = .error .outOfSteps := by
  constructor
  · refine acyclic_of_rank (fun t => 1 - t.val) fun t u h => ?_
    match t, h with
    | 0, h =>
      obtain ⟨c, hc, hu⟩ := h
      obtain rfl := List.mem_singleton.1 hc
      obtain rfl := Option.some.inj hu
      decide
    | 1, h => exact h.elim
  · have hboth : ∀ fuel, summaryCode memberPointer fuel 0 (fun _ => none) = .error .outOfSteps ∧
        summaryCode memberPointer fuel 1 (fun _ => none) = .error .outOfSteps := by
      intro fuel
      induction fuel with
      | zero => exact ⟨rfl, rfl⟩
      | succ fuel ih =>
        match fuel, ih with
        | 0, _ => exact ⟨rfl, rfl⟩
        | 1, _ => exact ⟨rfl, rfl⟩
        | fuel + 2, ih =>
          obtain ⟨hclass, hpointer⟩ := ih
          have hinto : ∀ word : SummaryWord,
              (Shift.code (some 1)).into (summaryCodeForType (summaryCode memberPointer (fuel + 2)))
                word (fun _ => none) = .error .outOfSteps := by
            intro word
            show (summaryCode memberPointer (fuel + 2) 1 (fun _ => none) >>= _) = _
            rw [hpointer]
            rfl
          constructor
          · rw [summaryCode_run]
            show ((Shift.code (some 1)).into
              (summaryCodeForType (summaryCode memberPointer (fuel + 2))) _ (fun _ => none) >>= _)
                >>= _ = _
            rw [hinto]
            rfl
          · rw [summaryCode_run]
            show (summaryCode memberPointer (fuel + 2) 0 (fun _ => none) >>= _) = _
            rw [hclass]
            rfl
    exact fun fuel => (hboth fuel).1

end Types
end Dwarfpp
