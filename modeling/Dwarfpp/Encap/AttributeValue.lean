/-
# Attribute values as values

`encap::attribute_value` of `include/dwarfpp/attr.hpp` and `src/attr.cpp` is a tagged union
that owns what some of its forms point to.  Its copy constructor, its destructor and
`operator==` each tell the forms apart on their own.  A value is kept as a value ought to be
just for the forms that are neither `NO_ATTR`, which is not copied, nor `BLOCK` or `REF`, which
are compared by their pointers, nor `UNRECOG`, which is not equal to itself
(`hasValueSemantics_iff`).

Of `loc_expr` the reference to the specification, which is never compared, is left out.
-/

import Dwarfpp.Dies.StaticLocation
import Dwarfpp.Lib.Heap

namespace Dwarfpp
namespace Encap

open Lib
open Dies (DwarfRange)
open Dwarfpp.Expr (LocExpr)

/-- `attribute_value::form`. -/
inductive Form
  | noAttr | addr | flag | unsigned | signed | block | string | ref | loclist | rangelist | unrecog
  deriving DecidableEq, Repr

/-- `weak_ref`.  Roots are told apart by their number. -/
structure WeakRef where
  off : BitVec 64
  abs : Bool
  referencingOff : BitVec 64
  pRoot : ℕ
  referencingAttr : BitVec 16
  deriving DecidableEq, Repr

/-- What the owning pointers of the union point to. -/
inductive Pointee
  | block (bytes : List (BitVec 8))
  | string (s : String)
  | ref (r : WeakRef)
  | loclist (l : List LocExpr)
  | rangelist (l : List DwarfRange)
  deriving DecidableEq, Repr

/-- The forms that own a pointee. -/
inductive OwnedForm
  | block | string | ref | loclist | rangelist
  deriving DecidableEq, Repr

/-- The discriminant and the union, where `P` is what the owning forms have. -/
inductive Held (P : Type)
  | noAttr
  | flag (b : BitVec 32)
  | unsigned (u : BitVec 64)
  | signed (s : BitVec 64)
  | addr (a : BitVec 64)
  | owned (f : OwnedForm) (p : P)
  | unrecog
  deriving DecidableEq, Repr

/-- `attribute_value`, whose owning forms have a pointer. -/
structure AttributeValue where
  origForm : BitVec 16
  held : Held ℕ
  deriving DecidableEq, Repr

def OwnedForm.form : OwnedForm → Form
  | .block => .block
  | .string => .string
  | .ref => .ref
  | .loclist => .loclist
  | .rangelist => .rangelist

/-- `get_form()`. -/
def AttributeValue.getForm (v : AttributeValue) : Form :=
  match v.held with
  | .noAttr => .noAttr
  | .flag _ => .flag
  | .unsigned _ => .unsigned
  | .signed _ => .signed
  | .addr _ => .addr
  | .owned f _ => f.form
  | .unrecog => .unrecog

namespace AttributeValue

variable (h : Heap Pointee)

/-- `new T(*p)`, and `clone()` of a `weak_ref`. -/
def copyPointee (f : OwnedForm) (p : ℕ) : Except Fault (Held ℕ × Heap Pointee) :=
  match h.cells p with
  | some a => .ok (.owned f h.next, h.new a)
  | none => .error .undefinedBehaviour

/-- The copy constructor. -/
def copy (av : AttributeValue) : Except Fault (AttributeValue × Heap Pointee) := do
  let (held, h) ←
    match av.held with
    | .flag b => .ok (.flag b, h)
    | .unsigned u => .ok (.unsigned u, h)
    | .signed s => .ok (.signed s, h)
    | .owned f p => copyPointee h f p
    | .addr a => .ok (.addr a, h)
    | .unrecog => .ok (.unrecog, h)
    -- the `default` of the source
    | .noAttr => .error .assertFailed
  return (⟨av.origForm, held⟩, h)

/-- `*p == *q`. -/
def equalPointees (p q : ℕ) : Except Fault Bool :=
  match h.cells p, h.cells q with
  | some a, some b => .ok (a = b)
  | _, _ => .error .undefinedBehaviour

/-- `operator==`. -/
def equal (v w : AttributeValue) : Except Fault Bool :=
  match v.held, w.held with
  | .noAttr, .noAttr => .ok true
  | .flag a, .flag b => .ok (a = b)
  | .unsigned a, .unsigned b => .ok (a = b)
  | .signed a, .signed b => .ok (a = b)
  | .owned .block p, .owned .block q => .ok (p = q)
  | .owned .string p, .owned .string q => equalPointees h p q
  | .owned .ref p, .owned .ref q => .ok (p = q)
  | .addr a, .addr b => .ok (a = b)
  | .owned .loclist p, .owned .loclist q => equalPointees h p q
  | .owned .rangelist p, .owned .rangelist q => equalPointees h p q
  -- `UNRECOG`, and different forms
  | _, _ => .ok false

/-- The destructor. -/
def destroy (v : AttributeValue) : Except Fault (Heap Pointee) :=
  match v.held with
  | .owned _ p =>
    match h.delete p with
    | some h => .ok h
    | none => .error .undefinedBehaviour
  | _ => .ok h

/-- The form and what is held. -/
def contents (v : AttributeValue) : Option (Held Pointee) :=
  match v.held with
  | .noAttr => some .noAttr
  | .flag b => some (.flag b)
  | .unsigned u => some (.unsigned u)
  | .signed s => some (.signed s)
  | .addr a => some (.addr a)
  | .owned f p => (h.cells p).map (.owned f)
  | .unrecog => some .unrecog

end AttributeValue

/-- The entries of an `attribute_map`, in the order of the attributes. -/
abbrev AttributeMap := List (BitVec 16 × AttributeValue)

/-- The copy constructor of an `attribute_map`. -/
def AttributeMap.copy : AttributeMap → Heap Pointee → Except Fault (AttributeMap × Heap Pointee)
  | [], h => .ok ([], h)
  | (k, v) :: m, h => do
    let (v', h) ← v.copy h
    let (m', h) ← AttributeMap.copy m h
    return ((k, v') :: m', h)

/-- `operator==` of an `attribute_map`. -/
def AttributeMap.equal (h : Heap Pointee) : AttributeMap → AttributeMap → Except Fault Bool
  | [], [] => .ok true
  | (k, v) :: m, (k', v') :: m' =>
    if k = k' then do
      if ← v.equal h v' then AttributeMap.equal h m m' else return false
    else .ok false
  | _, _ => .ok false

/-! ### What values ought to be -/

/-- A value is copied: the copy is equal to it, has the same form and contents, and keeps them when
the value is destroyed. -/
def CopiedRight (h : Heap Pointee) (v : AttributeValue) : Prop :=
  ∃ v' h', v.copy h = .ok (v', h') ∧ v'.equal h' v = .ok true ∧
    v'.contents h' = v.contents h ∧
    ∃ h'', v.destroy h' = .ok h'' ∧ v'.contents h'' = v.contents h

/-- The attribute values of some forms have the semantics of values. -/
structure HasValueSemantics (forms : Set Form) : Prop where
  copied : ∀ h (v : AttributeValue), v.getForm ∈ forms → (v.contents h).isSome = true → CopiedRight h v
  equal : ∃ R : Held Pointee → Held Pointee → Prop, Equivalence R ∧
    ∀ h (v w : AttributeValue) c d, v.getForm ∈ forms → w.getForm ∈ forms → v.contents h = some c →
      w.contents h = some d → ∃ b, v.equal h w = .ok b ∧ (b = true ↔ R c d)
  maps : ∀ h (m : AttributeMap),
    (∀ e ∈ m, e.2.getForm ∈ forms ∧ (e.2.contents h).isSome = true) →
      ∃ m' h', m.copy h = .ok (m', h') ∧ AttributeMap.equal h' m' m = .ok true

section Facts

variable {h h' : Heap Pointee} {v w : AttributeValue} {c d : Held Pointee}

theorem contents_mono (hext : h.Extends h') (hc : v.contents h = some c) :
    v.contents h' = some c := by
  obtain ⟨o, held⟩ := v
  cases held with
  | owned f p =>
    obtain ⟨a, ha, rfl⟩ := Option.map_eq_some_iff.1 hc
    exact Option.map_eq_some_iff.2 ⟨a, hext p a ha, rfl⟩
  | _ => exact hc

/-- **A copy has the form and the contents of the value**, in a cell of its own. -/
theorem copy_eq_ok (hform : v.getForm ≠ .noAttr) (hc : v.contents h = some c) :
    ∃ v' h', v.copy h = .ok (v', h') ∧ h.Extends h' ∧ v'.contents h' = some c ∧
      v'.getForm = v.getForm ∧
      ∀ f p f' p', v.held = .owned f p → v'.held = .owned f' p' → p' ≠ p := by
  obtain ⟨o, held⟩ := v
  cases held with
  | noAttr => exact absurd rfl hform
  | owned f p =>
    obtain ⟨a, ha, rfl⟩ := Option.map_eq_some_iff.1 hc
    refine ⟨⟨o, .owned f h.next⟩, h.new a, ?_, Heap.extends_new,
      Option.map_eq_some_iff.2 ⟨a, Heap.cells_new_next, rfl⟩, rfl, ?_⟩
    · simp only [AttributeValue.copy, AttributeValue.copyPointee, ha]
      rfl
    · rintro f' p' f'' p'' hv hv'
      injection hv with _ hp
      injection hv' with _ hp'
      have := Heap.lt_next ha
      omega
  | _ => exact ⟨_, h, rfl, .refl h, hc, rfl, fun f p f' p' hv => nomatch hv⟩

/-- **Where the pointees are compared**, the values are equal if and only if their forms and contents
are. -/
theorem equal_eq (hblock : v.getForm ≠ .block) (href : v.getForm ≠ .ref)
    (hunrecog : v.getForm ≠ .unrecog) (hc : v.contents h = some c) (hd : w.contents h = some d) :
    v.equal h w = .ok (c = d) := by
  obtain ⟨o, held⟩ := v
  obtain ⟨o', held'⟩ := w
  cases held with
  | owned f p =>
    obtain ⟨a, ha, rfl⟩ := Option.map_eq_some_iff.1 hc
    cases held' with
    | owned f' q =>
      obtain ⟨b, hb, rfl⟩ := Option.map_eq_some_iff.1 hd
      cases f with
      | block => exact absurd rfl hblock
      | ref => exact absurd rfl href
      | string | loclist | rangelist =>
        cases f' <;> simp [AttributeValue.equal, AttributeValue.equalPointees, ha, hb]
    | _ =>
      obtain rfl := Option.some.inj hd
      cases f <;> simp [AttributeValue.equal]
  | unrecog => exact absurd rfl hunrecog
  | _ =>
    obtain rfl := Option.some.inj hc
    cases held' with
    | owned f' q =>
      obtain ⟨b, hb, rfl⟩ := Option.map_eq_some_iff.1 hd
      simp [AttributeValue.equal]
    | _ =>
      obtain rfl := Option.some.inj hd
      simp [AttributeValue.equal]

/-- A value can be destroyed, and another one with a cell of its own keeps its contents. -/
theorem exists_destroy (hc : v.contents h = some c) (hd : w.contents h = some d)
    (hown : ∀ f p f' p', v.held = .owned f p → w.held = .owned f' p' → p' ≠ p) :
    ∃ h', v.destroy h = .ok h' ∧ w.contents h' = some d := by
  obtain ⟨o, held⟩ := v
  cases held with
  | owned f p =>
    obtain ⟨a, ha, rfl⟩ := Option.map_eq_some_iff.1 hc
    obtain ⟨h', hdelete, hothers⟩ := Heap.exists_delete ha
    refine ⟨h', by simp only [AttributeValue.destroy, hdelete], ?_⟩
    obtain ⟨o', held'⟩ := w
    cases held' with
    | owned f' q =>
      have hcell : h'.cells q = h.cells q := hothers q (hown f p f' q rfl rfl)
      exact (congrArg (Option.map _) hcell).trans hd
    | _ => exact hd
  | _ => exact ⟨h, rfl, hd⟩

end Facts

/-- The forms whose values are kept as values. -/
def KeptAsValue (f : Form) : Prop := f ≠ .noAttr ∧ f ≠ .block ∧ f ≠ .ref ∧ f ≠ .unrecog

section Kept

variable {h : Heap Pointee} {v : AttributeValue} {c : Held Pointee}

theorem KeptAsValue.copied (hkept : KeptAsValue v.getForm) (hc : v.contents h = some c) :
    CopiedRight h v := by
  obtain ⟨hno, hblock, href, hunrecog⟩ := hkept
  obtain ⟨v', h', hcopy, hext, hc', hform, hown⟩ := copy_eq_ok hno hc
  have hv := contents_mono hext hc
  obtain ⟨h'', hdestroy, hkeeps⟩ := exists_destroy hv hc' hown
  refine ⟨v', h', hcopy, ?_, hc'.trans hc.symm, h'', hdestroy, hkeeps.trans hc.symm⟩
  rw [equal_eq (hform ▸ hblock) (hform ▸ href) (hform ▸ hunrecog) hc' hv]
  simp

/-- **A map of such values is copied to an equal one.** -/
theorem KeptAsValue.map_copied {m : AttributeMap}
    (hm : ∀ e ∈ m, KeptAsValue e.2.getForm ∧ ∃ c, e.2.contents h = some c) :
    ∃ m' h', m.copy h = .ok (m', h') ∧ h.Extends h' ∧
      ∀ h'', h'.Extends h'' → AttributeMap.equal h'' m' m = .ok true := by
  induction m generalizing h with
  | nil => exact ⟨[], h, rfl, .refl h, fun _ _ => rfl⟩
  | cons e m ih =>
    obtain ⟨k, v⟩ := e
    obtain ⟨⟨hno, hblock, href, hunrecog⟩, c, hc⟩ := hm (k, v) List.mem_cons_self
    obtain ⟨v', h₁, hcopy, hext₁, hc', hform, -⟩ := copy_eq_ok hno hc
    obtain ⟨m', h₂, hrest, hext₂, hequal⟩ := ih fun e he =>
      have ⟨hkept, d, hd⟩ := hm e (List.mem_cons_of_mem _ he)
      ⟨hkept, d, contents_mono hext₁ hd⟩
    refine ⟨(k, v') :: m', h₂, ?_, hext₁.trans hext₂, fun h₃ hext₃ => ?_⟩
    · rw [AttributeMap.copy, hcopy, ok_bind]
      dsimp only
      rw [hrest]
      rfl
    · have hv := contents_mono (hext₁.trans (hext₂.trans hext₃)) hc
      have hv' := contents_mono (hext₂.trans hext₃) hc'
      have heq : v'.equal h₃ v = .ok true := by
        rw [equal_eq (hform ▸ hblock) (hform ▸ href) (hform ▸ hunrecog) hv' hv]
        simp
      rw [AttributeMap.equal, if_pos rfl, heq, ok_bind, if_pos rfl]
      exact hequal h₃ hext₃

end Kept

/-- **Values that are compared by their pointers** are not equal to their copies. -/
theorem not_copiedRight_of_pointers {h : Heap Pointee} {o : BitVec 16} {f : OwnedForm} {p : ℕ}
    {a : Pointee} (ha : h.cells p = some a) (hf : f = .block ∨ f = .ref) :
    ¬CopiedRight h ⟨o, .owned f p⟩ := by
  rintro ⟨v', h', hcopy, hequal, -⟩
  have hcopy' : AttributeValue.copy h ⟨o, .owned f p⟩ = .ok (⟨o, .owned f h.next⟩, h.new a) := by
    simp only [AttributeValue.copy, AttributeValue.copyPointee, ha]
    rfl
  obtain ⟨rfl, rfl⟩ := Prod.mk.inj (Except.ok.inj (hcopy.symm.trans hcopy'))
  have hne : h.next ≠ p := (Heap.lt_next ha).ne'
  rcases hf with rfl | rfl
  · exact hne (of_decide_eq_true (Except.ok.inj hequal))
  · exact hne (of_decide_eq_true (Except.ok.inj hequal))

/-- **The values of some forms have the semantics of values** if and only if none of these forms is
`NO_ATTR`, `BLOCK`, `REF` or `UNRECOG`. -/
theorem hasValueSemantics_iff (forms : Set Form) :
    HasValueSemantics forms ↔ ∀ f ∈ forms, KeptAsValue f := by
  constructor
  · intro hsem f hf
    refine ⟨?_, ?_, ?_, ?_⟩
    · rintro rfl
      obtain ⟨v', h', hcopy, -⟩ := hsem.copied Heap.empty ⟨0, .noAttr⟩ hf rfl
      exact nomatch hcopy
    · rintro rfl
      exact not_copiedRight_of_pointers Heap.cells_new_next (.inl rfl)
        (hsem.copied (Heap.empty.new (.block [])) ⟨0, .owned .block 0⟩ hf rfl)
    · rintro rfl
      exact not_copiedRight_of_pointers Heap.cells_new_next (.inr rfl)
        (hsem.copied (Heap.empty.new (.ref ⟨0, false, 0, 0, 0⟩)) ⟨0, .owned .ref 0⟩ hf rfl)
    · rintro rfl
      obtain ⟨v', h', hcopy, hequal, -⟩ := hsem.copied Heap.empty ⟨0, .unrecog⟩ hf rfl
      obtain ⟨rfl, rfl⟩ := Prod.mk.inj (Except.ok.inj hcopy)
      exact nomatch hequal
  · intro hkept
    refine ⟨fun h v hv hc => ?_, ⟨Eq, eq_equivalence, fun h v w c d hv _ hc hd => ?_⟩,
      fun h m hm => ?_⟩
    · obtain ⟨c, hc⟩ := Option.isSome_iff_exists.1 hc
      exact (hkept _ hv).copied hc
    · obtain ⟨-, hblock, href, hunrecog⟩ := hkept _ hv
      exact ⟨_, equal_eq hblock href hunrecog hc hd, by simp⟩
    · obtain ⟨m', h', hcopy, -, hequal⟩ := KeptAsValue.map_copied fun e he =>
        ⟨hkept _ (hm e he).1, Option.isSome_iff_exists.1 (hm e he).2⟩
      exact ⟨m', h', hcopy, hequal h' (.refl h')⟩

/-- A block of one byte is not equal to its copy. -/
theorem not_hasValueSemantics_univ : ¬HasValueSemantics Set.univ := fun hsem =>
  not_copiedRight_of_pointers Heap.cells_new_next (.inl rfl)
    (hsem.copied (Heap.empty.new (.block [1])) ⟨0x0a, .owned .block 0⟩ trivial rfl)

end Encap
end Dwarfpp
