/-
# The types of bitfields over runs of calls

A bitfield member asks for a base type: a name, an encoding, a size and an offset in bits
(`Asks`).  The search goes by the name and the bits.  So the first base type found may
have another encoding than the member's, and a type created whose bits do not fit
an `unsigned` is not found again.  An answer has all that the member asks for just if
neither happens (`Meets`).

After any run of calls for any members each answer is right just if the condition was met,
and if it was always met, then members that ask for the same get the same DIE, and
at most one is created for them (`bitfieldTypes_of_run`).
-/

import Mathlib
import Dwarfpp.Dies.BitfieldCalls
import Dwarfpp.Lib.FindOrCreate

namespace Dwarfpp
namespace Dies

open Lib
open Lib.Preorder hiding firstChild nextSibling

/-- What a bitfield member asks for.  `bits` are the size and the offset. -/
structure Combination where
  name : String
  encoding : Option ℕ
  bits : ℕ × ℕ

variable {t t' : List Node} {r r' : Root} {fuel m : ℕ} {c : Combination}
  {syntheticCu syntheticCu' : Option ℕ} {srk : Srk31 (fuel + 1)} {hasCase : ℕ → Bool}

/-- The member at `m` is a bitfield whose type is a named base type: it asks for that name and
encoding, and for its own bits. -/
structure Asks (fuel : ℕ) (r : Root) (m : ℕ) (c : Combination) : Prop where
  bitfield : isBitfield r.tables.attrs m = true
  type : ∃ bt r₁ bits, findType fuel m r = .ok (some bt, r₁) ∧
    r.tagHere bt.offset = dwTagBaseType ∧ bitSizeAndOffset r.tables.attrs bt.offset = some bits ∧
    nameOf r.tables.attrs bt.offset = some c.name ∧
    getUnsigned r.tables.attrs bt.offset dwAtEncoding = c.encoding ∧
    effectiveBits r.tables.attrs m bits = c.bits

theorem Asks.unique {c' : Combination} (h : Asks fuel r m c) (h' : Asks fuel r m c') : c = c' := by
  obtain ⟨bt, r₁, bits, hfind, -, hbits, hname, hencoding, heffective⟩ := h.type
  obtain ⟨bt', r₁', bits', hfind', -, hbits', hname', hencoding', heffective'⟩ := h'.type
  obtain ⟨hbt, -⟩ := Prod.mk.inj (Except.ok.inj (hfind.symm.trans hfind'))
  obtain rfl := Option.some.inj hbt
  obtain rfl := Option.some.inj (hbits.symm.trans hbits')
  obtain ⟨name, encoding, bits⟩ := c
  obtain ⟨name', encoding', bits'⟩ := c'
  dsimp only at hname hname' hencoding hencoding' heffective heffective'
  simp only [Combination.mk.injEq]
  exact ⟨Option.some.inj (hname.symm.trans hname'), hencoding.symm.trans hencoding',
    heffective.symm.trans heffective'⟩

/-- What a call for a member that asks for `c` comes to. -/
structure Answers (t : List Node) (r : Root) (c : Combination) (syntheticCu syntheticCu' : Option ℕ)
    (d : ℕ) (r' : Root) : Prop where
  ready : Ready (treeAfter t r c.name c.bits syntheticCu syntheticCu' d) r' syntheticCu'
  grows : Grows t r (treeAfter t r c.name c.bits syntheticCu syntheticCu' d) r'
  outcome : Outcome t r c.name c.bits c.encoding d
    (treeAfter t r c.name c.bits syntheticCu syntheticCu' d) r'

section Moving

/-- Moving about changes no tags. -/
theorem tagHere_of_moved (h : Consistent t r) (h' : Consistent t r') (hmoved : Moved r r') :
    r'.tagHere = r.tagHere := by
  funext off
  by_cases hd : ∃ x ∈ t, x.offset = off ∧ off ≠ 0
  · obtain ⟨x, hx, rfl, h0⟩ := hd
    rw [h.tagHere hx h0, h'.tagHere hx h0]
  · have hnone : ∀ {r : Root}, Consistent t r → r.liveDies off = none := by
      intro r h
      cases hlive : r.liveDies off with
      | none => rfl
      | some d =>
        obtain ⟨x, hx, hoff, h0, -⟩ := h.live off d hlive
        exact absurd ⟨x, hx, hoff, h0⟩ hd
    unfold Root.tagHere
    rw [hnone h, hnone h', hmoved.dbg]

theorem fits_of_moved (h : Consistent t r) (h' : Consistent t r') (hmoved : Moved r r') :
    r'.fits = r.fits := by
  funext bits off
  unfold Root.fits
  rw [tagHere_of_moved h h' hmoved, hmoved.tables]

theorem Ready.moved (h : Ready t r syntheticCu) (h' : Consistent t r') (hmoved : Moved r r') :
    Ready t r' syntheticCu := by
  refine ⟨h', ?_, ?_, h.unit⟩
  · rw [hmoved.tables]
    exact h.visibility
  · rw [hmoved.tables]
    exact h.cache

/-- What a call comes to from where moving about leads. -/
theorem Answers.of_moved {d : ℕ} {r₁ : Root} (htables : r₁.tables = r.tables)
    (hfits : r₁.fits = r.fits) (h : Answers t r₁ c syntheticCu syntheticCu' d r') :
    Answers t r c syntheticCu syntheticCu' d r' := by
  have htree : treeAfter t r₁ c.name c.bits syntheticCu syntheticCu' d =
      treeAfter t r c.name c.bits syntheticCu syntheticCu' d := by
    unfold treeAfter
    rw [htables, hfits]
  obtain ⟨hready, ⟨hmem, hattrs, hcache⟩, houtcome⟩ := h
  rw [htree] at hready hmem houtcome
  refine ⟨hready, ⟨hmem, htables ▸ hattrs, htables ▸ hcache⟩, ?_⟩
  cases houtcome with
  | found old first cached =>
    rw [htables, hfits] at first
    rw [hfits] at cached
    exact .found old first cached
  | created new none mem attrs cached =>
    rw [htables, hfits] at none
    rw [hfits] at cached
    exact .created new none mem attrs cached

end Moving

/-- **A call that returns** answers what the member asks for, or just finds the member's type. -/
theorem findOrCreate_eq_ok {res : Option Iterator} (h : Ready t r syntheticCu)
    (hrun : findOrCreateTypeHandlingBitfields (fuel + 1) hasCase srk m syntheticCu r =
      .ok ((res, syntheticCu'), r')) :
    (∃ c it, res = some it ∧ Asks (fuel + 1) r m c ∧
      (EnoughFuel (treeAfter t r c.name c.bits syntheticCu syntheticCu' it.offset) fuel →
        Answers t r c syntheticCu syntheticCu' it.offset r')) ∨
    ((∀ c, ¬Asks (fuel + 1) r m c) ∧ syntheticCu' = syntheticCu ∧ Consistent t r' ∧
      r'.tables = r.tables) := by
  obtain ⟨type, r₁, htype, hrun⟩ := stateT_bind_eq_ok (stateT_get_bind_eq_ok hrun)
  obtain ⟨hr₁, hmoved₁, hin⟩ := (findType_ifReturns h.consistent m).of_eq_ok htype
  -- Whatever else returns, returns the type of the member.
  have hother : (∀ c, ¬Asks (fuel + 1) r m c) → ∀ {r₂}, Consistent t r₂ → Moved r r₂ →
      ((type, syntheticCu), r₂) = ((res, syntheticCu'), r') →
      (∀ c, ¬Asks (fuel + 1) r m c) ∧ syntheticCu' = syntheticCu ∧ Consistent t r' ∧
        r'.tables = r.tables := by
    intro hno r₂ hr₂ hmoved heq
    obtain ⟨hpair, rfl⟩ := Prod.mk.inj heq
    exact ⟨hno, (Prod.mk.inj hpair).2.symm, hr₂, hmoved.tables⟩
  cases hbitfield : isBitfield r.tables.attrs m with
  | false =>
    rw [hbitfield] at hrun
    refine .inr (hother (fun c hc => ?_) hr₁ hmoved₁ (Except.ok.inj hrun))
    rw [hc.bitfield] at hbitfield
    exact absurd hbitfield (by decide)
  | true =>
  rw [hbitfield, if_neg (by decide)] at hrun
  cases type with
  | none =>
    refine .inr (hother (fun c hc => ?_) hr₁ hmoved₁ (Except.ok.inj hrun))
    obtain ⟨bt, r₂, bits, hfind, -⟩ := hc.type
    exact absurd (Prod.mk.inj (Except.ok.inj (htype.symm.trans hfind))).1 (by simp)
  | some bt =>
  obtain ⟨y, hy, hyoff, h0⟩ := hin bt rfl
  obtain ⟨b, r₂, hasA, hrun⟩ := stateT_bind_eq_ok hrun
  obtain ⟨hr₂, hmoved₂, rfl⟩ := (isA_ifReturns hr₁ hy h0 hyoff.symm dwTagBaseType).of_eq_ok hasA
  have hmoved := IsTrans.trans _ _ _ hmoved₁ hmoved₂
  have hbt : ∀ c, Asks (fuel + 1) r m c → y.tag = dwTagBaseType ∧
      (bitSizeAndOffset r.tables.attrs bt.offset).isSome ∧
      nameOf r.tables.attrs bt.offset = some c.name := by
    intro c hc
    obtain ⟨bt', r₃, bits, hfind, htag, hbits, hname, -⟩ := hc.type
    obtain rfl := Option.some.inj (Prod.mk.inj (Except.ok.inj (htype.symm.trans hfind))).1
    rw [← hyoff, h.consistent.tagHere hy h0] at htag
    exact ⟨htag, by rw [hbits]; rfl, hname⟩
  by_cases htag : y.tag = dwTagBaseType
  · rw [if_pos (decide_eq_true htag)] at hrun
    replace hrun := stateT_get_bind_eq_ok hrun
    rw [hmoved.tables] at hrun
    cases hbits : bitSizeAndOffset r.tables.attrs bt.offset with
    | none =>
      rw [hbits] at hrun
      exact absurd hrun (by simp [throw, throwThe, MonadExceptOf.throw, StateT.lift])
    | some bits =>
    cases hname : nameOf r.tables.attrs bt.offset with
    | none =>
      rw [hbits, hname] at hrun
      refine .inr (hother (fun c hc => ?_) hr₂ hmoved (Except.ok.inj hrun))
      rw [(hbt c hc).2.2] at hname
      exact absurd hname (by simp)
    | some name =>
    rw [hbits, hname] at hrun
    obtain ⟨⟨it, cu'⟩, r₃, hnamed, hrun⟩ := stateT_bind_eq_ok hrun
    obtain ⟨hpair, rfl⟩ := Prod.mk.inj (Except.ok.inj hrun)
    obtain ⟨rfl, rfl⟩ := Prod.mk.inj hpair
    refine .inl ⟨⟨name, getUnsigned r.tables.attrs bt.offset dwAtEncoding,
      effectiveBits r.tables.attrs m bits⟩, it, rfl, ⟨hbitfield, bt, r₁, bits, htype, ?_, hbits,
        hname, rfl, rfl⟩, fun hfuel => ?_⟩
    · rw [← hyoff, h.consistent.tagHere hy h0, htag]
    · have hfits := fits_of_moved h.consistent hr₂ hmoved
      refine Answers.of_moved hmoved.tables hfits ?_
      obtain ⟨hready, hgrows, houtcome⟩ := findOrCreateNamed_eq_ok (h.moved hr₂ hmoved)
        ⟨y, hy, hyoff⟩ hnamed rfl (by
          unfold treeAfter at hfuel ⊢
          rwa [hmoved.tables, hfits])
      rw [hmoved.tables] at houtcome
      exact ⟨hready, hgrows, houtcome⟩
  · rw [if_neg (by simpa using htag)] at hrun
    exact .inr (hother (fun c hc => htag (hbt c hc).1) hr₂ hmoved (Except.ok.inj hrun))

section Right

/-- The DIE at `d` is a base type that has all that is asked for. -/
structure Faithful (r : Root) (c : Combination) (d : ℕ) : Prop where
  baseType : r.tagHere d = dwTagBaseType
  name : nameOf r.tables.attrs d = some c.name
  encoding : getUnsigned r.tables.attrs d dwAtEncoding = c.encoding
  bits : bitSizeAndOffset r.tables.attrs d = some c.bits

/-- The first base type of that name with the bits asked for, in the order of the search, has the
encoding; or there is none, and the bits are `unsigned` numbers. -/
def Meets (t : List Node) (r : Root) (c : Combination) : Prop :=
  match (searchOrder t r.tables c.name).find? (r.fits c.bits) with
  | some d => getUnsigned r.tables.attrs d dwAtEncoding = c.encoding
  | none => c.bits.1 < 2 ^ 32 ∧ c.bits.2 < 2 ^ 32

/-- The bits of a base type that is created. -/
theorem bitSizeAndOffset_bitfieldAttributes {attrs : ℕ → AttributeMap} {name : String}
    {size offset encoding d : ℕ} (h : attrs d = bitfieldAttributes name size offset encoding) :
    bitSizeAndOffset attrs d = some (toUnsigned size, toUnsigned offset) := by
  unfold bitSizeAndOffset getUnsigned
  rw [h]
  rfl

theorem toUnsigned_pair_iff {bits : ℕ × ℕ} :
    (toUnsigned bits.1, toUnsigned bits.2) = bits ↔ bits.1 < 2 ^ 32 ∧ bits.2 < 2 ^ 32 := by
  obtain ⟨size, offset⟩ := bits
  simp only [toUnsigned, Prod.mk.injEq]
  omega

/-- What is known of a DIE of the tree stays. -/
theorem Grows.fits (h : Grows t r t' r') (hr : Consistent t r) (hr' : Consistent t' r') {d : ℕ}
    (hd : ∃ y ∈ t, y.offset = d ∧ y.offset ≠ 0) (bits : ℕ × ℕ) :
    r'.fits bits d = r.fits bits d := by
  obtain ⟨y, hy, rfl, h0⟩ := hd
  exact fits_congr hr hr' hy (h.mem y hy) h0 (h.attrs y hy) bits

theorem Grows.faithful_iff (h : Grows t r t' r') (hr : Consistent t r) (hr' : Consistent t' r')
    {d : ℕ} (hd : ∃ y ∈ t, y.offset = d ∧ y.offset ≠ 0) :
    Faithful r' c d ↔ Faithful r c d := by
  obtain ⟨y, hy, rfl, h0⟩ := hd
  have htag : r'.tagHere y.offset = r.tagHere y.offset := by
    rw [hr.tagHere hy h0, hr'.tagHere (h.mem y hy) h0]
  have hattrs := h.attrs y hy
  have hname : nameOf r'.tables.attrs y.offset = nameOf r.tables.attrs y.offset := by
    unfold nameOf
    rw [hattrs]
  have hencoding : getUnsigned r'.tables.attrs y.offset dwAtEncoding =
      getUnsigned r.tables.attrs y.offset dwAtEncoding := by
    unfold getUnsigned
    rw [hattrs]
  have hbits := bitSizeAndOffset_congr hattrs
  constructor
  · rintro ⟨h₁, h₂, h₃, h₄⟩
    exact ⟨htag ▸ h₁, hname ▸ h₂, hencoding ▸ h₃, hbits ▸ h₄⟩
  · rintro ⟨h₁, h₂, h₃, h₄⟩
    exact ⟨htag ▸ h₁, hname ▸ h₂, hencoding ▸ h₃, hbits ▸ h₄⟩

variable {d : ℕ}

/-- The DIE that is answered is in the tree. -/
theorem Answers.mem (h : Ready t r syntheticCu)
    (hanswers : Answers t r c syntheticCu syntheticCu' d r') :
    ∃ y ∈ treeAfter t r c.name c.bits syntheticCu syntheticCu' d,
      y.offset = d ∧ y.offset ≠ 0 := by
  cases hanswers.outcome with
  | found old first cached =>
    obtain ⟨y, hy, hyoff, h0, -⟩ := mem_searchOrder h (List.mem_of_find?_eq_some first)
    exact ⟨y, hanswers.grows.mem y hy, hyoff, h0⟩
  | created new none mem attrs cached =>
    refine ⟨_, mem, rfl, fun h0 => ?_⟩
    have := (hanswers.ready.consistent.wellFormed.depth_eq_zero_iff mem).2 h0
    simp at this

/-- **An answer has all that is asked for just if the condition is met.** -/
theorem Answers.faithful_iff (h : Ready t r syntheticCu)
    (hanswers : Answers t r c syntheticCu syntheticCu' d r') : Faithful r' c d ↔ Meets t r c := by
  unfold Meets
  cases hanswers.outcome with
  | found old first cached =>
    obtain ⟨y, hy, hyoff, h0, hname⟩ := mem_searchOrder h (List.mem_of_find?_eq_some first)
    obtain ⟨htag, hbits⟩ := fits_iff.1 (List.find?_some first)
    rw [first, hanswers.grows.faithful_iff h.consistent hanswers.ready.consistent
      ⟨y, hy, hyoff, h0⟩]
    exact ⟨fun hf => hf.encoding, fun hencoding => ⟨htag, hname, hencoding, hbits⟩⟩
  | created new none mem attrs cached =>
    obtain ⟨e, hencoding, hattrs⟩ := attrs
    obtain ⟨y, hy, hyoff, h0⟩ := hanswers.mem h
    have hbits := bitSizeAndOffset_bitfieldAttributes hattrs
    rw [none]
    dsimp only
    rw [← toUnsigned_pair_iff]
    constructor
    · intro hf
      exact Option.some.inj (hbits.symm.trans hf.bits)
    · intro heq
      refine ⟨?_, ?_, ?_, hbits.trans (congrArg some heq)⟩
      · exact hanswers.ready.consistent.tagHere mem (hyoff ▸ h0)
      · unfold nameOf
        rw [hattrs]
        rfl
      · unfold getUnsigned
        rw [hattrs, hencoding]
        rfl

/-- What a root finds among the visible names that it has seen. -/
def Root.firstFitting (r : Root) (c : Combination) : Option ℕ :=
  (r.tables.cached c.name).find? (r.fits c.bits)

theorem Ready.cached_mem (h : Ready t r syntheticCu) {name : String} {off : ℕ}
    (hoff : off ∈ r.tables.cached name) : ∃ y ∈ t, y.offset = off ∧ y.offset ≠ 0 := by
  obtain ⟨y, hy, hyoff, h0, -⟩ := mem_searchOrder h (List.mem_append_left _ hoff)
  exact ⟨y, hy, hyoff, h0⟩

/-- **What is found first is found first again.** -/
theorem Grows.keeps (h : Grows t r t' r') (hr : Ready t r syntheticCu)
    (hr' : Consistent t' r') : Keeps r.firstFitting r'.firstFitting := by
  intro c d hfound
  unfold Root.firstFitting at hfound ⊢
  obtain ⟨more, hmore⟩ := h.cached c.name
  rw [← hmore, List.find?_append, List.find?_congr fun off hoff =>
    h.fits hr.consistent hr' (hr.cached_mem hoff) c.bits, hfound]
  rfl

/-- The answer is what the root finds first from then on, if the condition was met. -/
theorem Answers.firstFitting (h : Ready t r syntheticCu)
    (hanswers : Answers t r c syntheticCu syntheticCu' d r') (hmeets : Meets t r c) :
    r'.firstFitting c = some d := by
  have hsame : ∀ off, (∃ y ∈ t, y.offset = off ∧ y.offset ≠ 0) →
      r'.fits c.bits off = r.fits c.bits off := fun off hoff =>
    hanswers.grows.fits h.consistent hanswers.ready.consistent hoff c.bits
  have hfaithful := (hanswers.faithful_iff h).2 hmeets
  have hfits : r'.fits c.bits d = true := fits_iff.2 ⟨hfaithful.baseType, hfaithful.bits⟩
  unfold Root.firstFitting
  cases hanswers.outcome with
  | found old first cached =>
    have htree : treeAfter t r c.name c.bits syntheticCu syntheticCu' d = t :=
      treeAfter_found first
    have hready := hanswers.ready
    rw [htree] at hready
    rw [List.find?_congr fun off hoff => hsame off (hready.cached_mem hoff)]
    exact cached
  | created new none mem attrs cached =>
    obtain ⟨offs, hcached, hoffs⟩ := cached
    rw [hcached, List.find?_append]
    have hnone : offs.find? (r'.fits c.bits) = Option.none := by
      refine List.find?_eq_none.2 fun off hoff => ?_
      obtain ⟨hmem, hno⟩ := hoffs off hoff
      obtain ⟨y, hy, hyoff⟩ := List.mem_map.1 hmem
      have h0 : y.offset ≠ 0 := by
        have hin : off ∈ r'.tables.cached c.name := by
          rw [hcached]
          exact List.mem_append_left _ hoff
        obtain ⟨z, -, hzoff, h0⟩ := hanswers.ready.cached_mem hin
        rwa [hyoff, ← hzoff]
      rw [hsame off ⟨y, hy, hyoff, h0⟩, hno]
      decide
    rw [hnone, Option.none_or]
    simp [hfits]

end Right

section Runs

/-- An answer in a run: what was asked for, the DIE, whether it was created, and whether the condition
was met. -/
structure BitfieldAnswer where
  wanted : Combination
  die : ℕ
  created : Bool
  met : Prop

/-- Runs of calls for any members, with their answers to bitfields. -/
inductive BitfieldRun (hasCase : ℕ → Bool) (srk : Srk31 (fuel + 1)) (t₀ : List Node) (r₀ : Root)
    (syntheticCu₀ : Option ℕ) : List Node → Root → Option ℕ → List BitfieldAnswer → Prop
  | nil : BitfieldRun hasCase srk t₀ r₀ syntheticCu₀ t₀ r₀ syntheticCu₀ []
  | bitfield {t : List Node} {r r' : Root} {syntheticCu syntheticCu' : Option ℕ}
      {answers : List BitfieldAnswer} {m : ℕ} {c : Combination} {it : Iterator}
      (h : BitfieldRun hasCase srk t₀ r₀ syntheticCu₀ t r syntheticCu answers)
      (asks : Asks (fuel + 1) r m c)
      (hrun : findOrCreateTypeHandlingBitfields (fuel + 1) hasCase srk m syntheticCu r =
        .ok ((some it, syntheticCu'), r')) :
      BitfieldRun hasCase srk t₀ r₀ syntheticCu₀
        (treeAfter t r c.name c.bits syntheticCu syntheticCu' it.offset) r' syntheticCu'
        (answers ++ [⟨c, it.offset, it.offset ∉ t.map Node.offset, Meets t r c⟩])
  | other {t : List Node} {r r' : Root} {syntheticCu syntheticCu' : Option ℕ}
      {answers : List BitfieldAnswer} {m : ℕ} {res : Option Iterator}
      (h : BitfieldRun hasCase srk t₀ r₀ syntheticCu₀ t r syntheticCu answers)
      (asks : ∀ c, ¬Asks (fuel + 1) r m c)
      (hrun : findOrCreateTypeHandlingBitfields (fuel + 1) hasCase srk m syntheticCu r =
        .ok ((res, syntheticCu'), r')) :
      BitfieldRun hasCase srk t₀ r₀ syntheticCu₀ t r' syntheticCu' answers

/-- What holds after any run. -/
structure RunInvariant (t : List Node) (r : Root) (syntheticCu : Option ℕ)
    (answers : List BitfieldAnswer) : Prop where
  ready : Ready t r syntheticCu
  mem : ∀ a ∈ answers, ∃ y ∈ t, y.offset = a.die ∧ y.offset ≠ 0
  faithful : ∀ a ∈ answers, Faithful r a.wanted a.die ↔ a.met
  run : (∀ a ∈ answers, a.met) →
    AnswerRun r.firstFitting (answers.map fun a => ⟨a.wanted, a.die, a.created⟩)

variable {answers : List BitfieldAnswer}

/-- What an answer for a bitfield keeps. -/
theorem RunInvariant.bitfield {d : ℕ} (h : RunInvariant t r syntheticCu answers)
    (hanswers : Answers t r c syntheticCu syntheticCu' d r') :
    RunInvariant (treeAfter t r c.name c.bits syntheticCu syntheticCu' d) r' syntheticCu'
      (answers ++ [⟨c, d, d ∉ t.map Node.offset, Meets t r c⟩]) := by
  have hready := hanswers.ready
  have hgrows := hanswers.grows
  refine ⟨hready, ?_, ?_, fun hmet => ?_⟩
  · intro a ha
    rcases List.mem_append.1 ha with ha | ha
    · obtain ⟨y, hy, hyoff, h0⟩ := h.mem a ha
      exact ⟨y, hgrows.mem y hy, hyoff, h0⟩
    · obtain rfl := List.mem_singleton.1 ha
      exact hanswers.mem h.ready
  · intro a ha
    rcases List.mem_append.1 ha with ha | ha
    · rw [hgrows.faithful_iff h.ready.consistent hready.consistent (h.mem a ha)]
      exact h.faithful a ha
    · obtain rfl := List.mem_singleton.1 ha
      exact hanswers.faithful_iff h.ready
  · have hrun := h.run fun a ha => hmet a (List.mem_append_left _ ha)
    have hmeets : Meets t r c := hmet _ (List.mem_append_right _ (List.mem_singleton_self _))
    rw [List.map_append, List.map_singleton]
    refine hrun.answer (hgrows.keeps h.ready hready.consistent)
      (hanswers.firstFitting h.ready hmeets) fun hcreated => ?_
    -- Nothing that is cached fits where a base type is created.
    cases hanswers.outcome with
    | found old first cached => exact absurd old (of_decide_eq_true hcreated)
    | created new none mem attrs cached =>
      rw [searchOrder, List.find?_append, Option.or_eq_none_iff] at none
      exact none.1

/-- What a call for another member keeps. -/
theorem RunInvariant.other (h : RunInvariant t r syntheticCu answers) (hr' : Consistent t r')
    (htables : r'.tables = r.tables) : RunInvariant t r' syntheticCu answers := by
  have hgrows : Grows t r t r' :=
    ⟨fun _ hy => hy, fun _ _ => by rw [htables], by rw [htables]⟩
  refine ⟨⟨hr', ?_, ?_, h.ready.unit⟩, h.mem, fun a ha => ?_, fun hmet => ?_⟩
  · rw [htables]
    exact h.ready.visibility
  · rw [htables]
    exact h.ready.cache
  · rw [hgrows.faithful_iff h.ready.consistent hr' (h.mem a ha)]
    exact h.faithful a ha
  · exact (h.run hmet).keep (hgrows.keeps h.ready hr')

variable {t₀ : List Node} {r₀ : Root} {syntheticCu₀ : Option ℕ}

theorem BitfieldRun.invariant (h₀ : Ready t₀ r₀ syntheticCu₀)
    (hrun : BitfieldRun hasCase srk t₀ r₀ syntheticCu₀ t r syntheticCu answers)
    (hfuel : EnoughFuel t fuel) : RunInvariant t r syntheticCu answers := by
  induction hrun with
  | nil =>
    refine ⟨h₀, ?_, ?_, fun _ => .nil _⟩
    · simp
    · simp
  | @bitfield t r r' cu cu' answers m c it h asks hcall ih =>
    have hsmaller := hfuel.sublist (sublist_treeAfter t r c.name c.bits cu cu' it.offset)
    have hinv := ih hsmaller
    rcases findOrCreate_eq_ok hinv.ready hcall with
      ⟨c', it', hit, hasks, hanswers⟩ | ⟨hno, -⟩
    · obtain rfl := asks.unique hasks
      obtain rfl := Option.some.inj hit
      exact hinv.bitfield (hanswers hfuel)
    · exact absurd asks (hno c)
  | @other t r r' cu cu' answers m res h asks hcall ih =>
    have hinv := ih hfuel
    rcases findOrCreate_eq_ok hinv.ready hcall with ⟨c, it, -, hasks, -⟩ | ⟨-, rfl, hr', htables⟩
    · exact absurd hasks (asks c)
    · exact hinv.other hr' htables

/-- **The types of bitfields.**  After any run of calls, each answer has all that was asked for just
if the condition was met.  If it was met each time, members that asked for the same got the same
DIE, which was created for the first of them or for none. -/
theorem bitfieldTypes_of_run (h₀ : Ready t₀ r₀ syntheticCu₀)
    (hrun : BitfieldRun hasCase srk t₀ r₀ syntheticCu₀ t r syntheticCu answers)
    (hfuel : EnoughFuel t fuel) :
    (∀ a ∈ answers, Faithful r a.wanted a.die ↔ a.met) ∧
      ((∀ a ∈ answers, a.met) → answers.Pairwise fun a b =>
        a.wanted = b.wanted → a.die = b.die ∧ b.created = false) := by
  have hinv := hrun.invariant h₀ hfuel
  refine ⟨hinv.faithful, fun hmet => ?_⟩
  exact List.pairwise_map.1 (hinv.run hmet).once

end Runs

section Examples

/-- The answers about a file with a structure, its member, and a base type. -/
def memberFile : Libdwarf where
  child off := if off = 11 then some 20 else if off = 20 then some 30 else none
  siblingof off := if off = 20 then some 40 else none
  offdie off := off = 11 ∨ off = 20 ∨ off = 30 ∨ off = 40
  tag off := if off = 11 then dwTagCompileUnit else if off = 20 then 0x13
    else if off = 30 then 0x0d else dwTagBaseType
  cuDieoffset _ := 11
  cuHeaders := [.version4 4 11 100]

/-- Its tree. -/
def memberTree : List Node :=
  [rootNode, ⟨11, 1, dwTagCompileUnit, false⟩, ⟨20, 2, 0x13, false⟩, ⟨30, 3, 0x0d, false⟩,
    ⟨40, 2, dwTagBaseType, false⟩]

/-- The member has three bits, and its type is a signed `int` of four bytes. -/
def memberAttrs (off : ℕ) : AttributeMap :=
  if off = 30 then (OrderedMap.empty.insert dwAtType (.ref 40)).insert dwAtBitSize (.other 3)
  else if off = 40 then
    ((OrderedMap.empty.insert dwAtName (.string "int")).insert dwAtByteSize (.other 4)).insert
      dwAtEncoding (.other 5)
  else OrderedMap.empty

/-- A new root for the file. -/
def memberRoot : Root := Root.make (some memberFile) memberAttrs false

theorem suffix_memberTree {x : Node} {l : List Node} (h : x :: l <:+ memberTree) :
    x :: l = memberTree ∨ x :: l = memberTree.drop 1 ∨ x :: l = memberTree.drop 2 ∨
      x :: l = memberTree.drop 3 ∨ x :: l = memberTree.drop 4 := by
  unfold memberTree at h ⊢
  simpa [List.suffix_cons_iff] using h

theorem file_memberTree : ∀ x ∈ memberTree, x.inMemory = false := by decide

theorem wellFormed_memberTree : WellFormed memberTree where
  rooted := ⟨_, rfl, by decide⟩
  steps := by simp [memberTree, rootNode, Steps]
  sorted := by simp [memberTree, rootNode, Sorted]
  units := by decide
  levels := by decide
  memoryChild x l y l' hx _ hm := by
    rw [file_memberTree x (mem_of_suffix hx)] at hm
    exact absurd hm (by decide)
  memorySibling x l y l' hx _ hm := by
    rw [file_memberTree x (mem_of_suffix hx)] at hm
    exact absurd hm (by decide)

theorem serves_memberFile : Serves memberFile memberTree where
  child x l hx _ h0 := by
    rcases suffix_memberTree hx with h | h | h | h | h <;> obtain ⟨rfl, rfl⟩ := List.cons.inj h
    · exact absurd rfl h0
    · rfl
    · rfl
    · rfl
    · rfl
  siblingof x l hx _ hd := by
    rcases suffix_memberTree hx with h | h | h | h | h <;> obtain ⟨rfl, rfl⟩ := List.cons.inj h
    · exact absurd hd (by decide)
    · exact absurd hd (by decide)
    · rfl
    · rfl
    · rfl
  offdie off := by
    simp only [memberFile, memberTree, rootNode, decide_eq_true_eq, List.mem_cons,
      List.not_mem_nil, or_false, exists_eq_or_imp, exists_eq_left, true_and]
    omega
  tag := by decide
  cuDieoffset x y hpar _ hd := by
    have hx : x.depth = 1 := by
      obtain ⟨-, -, -, -, hxd, -⟩ := hpar
      omega
    have hall : ∀ z ∈ memberTree, z.depth = 1 → z.offset = 11 := by decide
    exact (hall x (isParent_mem hpar).1 hx).symm
  unitOf x _ _ _ := ⟨⟨11, 1, dwTagCompileUnit, false⟩, by decide, rfl, rfl⟩
  units := ⟨rfl, rfl, by simp⟩
  firstUnit := by simp [memberFile, CompileUnit.version4]
  allUnits := by decide

/-- A new root is ready. -/
theorem ready_make {t : List Node} {dbg : Option Libdwarf} {attrs : ℕ → AttributeMap}
    (h : Consistent t (Root.make dbg attrs false)) (hvisibility : ConstantVisibility t attrs) :
    Ready t (Root.make dbg attrs false) none := by
  refine ⟨h, hvisibility, ?_, ?_⟩
  · simp [Root.make]
  · simp

theorem ready_memberRoot : Ready memberTree memberRoot none := by
  refine ready_make (consistent_make wellFormed_memberTree
    (by rintro lib ⟨⟩; exact serves_memberFile) file_memberTree (by simp) _ _) ?_
  have hnone : ∀ x ∈ memberTree, (memberAttrs x.offset).find dwAtVisibility = none := by decide
  intro x hx v hv
  rw [hnone x hx] at hv
  exact absurd hv (by simp)

/-- What the member asks for, and the tree after it has been created. -/
def threeBits : Combination := ⟨"int", some 5, (3, 0)⟩

def threeBitsTree : List Node :=
  memberTree ++ [syntheticUnit 41, ⟨42, 2, dwTagBaseType, true⟩]

/-- A computation that is seen to return. -/
theorem exists_run {α : Type} {x : RootM α} {r : Root} (p : α → Root → Prop)
    [∀ a r', Decidable (p a r')] (h : (x r).toOption.any (fun q => p q.1 q.2) = true) :
    ∃ a r', x r = .ok (a, r') ∧ p a r' := by
  cases hx : x r with
  | error e =>
    rw [hx] at h
    simp [Except.toOption] at h
  | ok q =>
    rw [hx] at h
    exact ⟨q.1, q.2, rfl, of_decide_eq_true h⟩

/-- What is read of the member and of its type, which is at 40. -/
def ReadsThreeBits (r : Root) : Prop :=
  isBitfield r.tables.attrs 30 = true ∧ r.tagHere 40 = dwTagBaseType ∧
    bitSizeAndOffset r.tables.attrs 40 = some (32, 0) ∧ nameOf r.tables.attrs 40 = some "int" ∧
    getUnsigned r.tables.attrs 40 dwAtEncoding = some 5 ∧
    effectiveBits r.tables.attrs 30 (32, 0) = (3, 0) ∧
    (findType 61 30 r).toOption.any (fun q => q.1.map Iterator.offset = some 40) = true

instance (r : Root) : Decidable (ReadsThreeBits r) := by
  unfold ReadsThreeBits
  infer_instance

theorem asks_threeBits {r : Root} (h : ReadsThreeBits r) : Asks 61 r 30 threeBits := by
  obtain ⟨hbitfield, htag, hbits, hname, hencoding, heffective, htype⟩ := h
  obtain ⟨type, r₁, hrun, htype⟩ := exists_run
    (fun (a : Option Iterator) _ => a.map Iterator.offset = some 40) htype
  obtain ⟨bt, rfl, hoff⟩ := Option.map_eq_some_iff.1 htype
  rw [← hoff] at htag hbits hname hencoding
  exact ⟨hbitfield, bt, r₁, (32, 0), hrun, htag, hbits, hname, hencoding, heffective⟩

/-- A base type of three bits is created for the member, and found for it the next time. -/
theorem bitfieldTypes_memberRoot : ∃ r answers,
    BitfieldRun (fun _ => true) (.described 61) memberTree memberRoot none threeBitsTree r (some 41)
        answers ∧
      answers.map BitfieldAnswer.die = [42, 42] ∧ (∀ a ∈ answers, Faithful r a.wanted a.die) ∧
      answers.Pairwise fun a b => a.wanted = b.wanted → a.die = b.die ∧ b.created = false := by
  -- The first call creates the type behind all DIEs of the file.
  obtain ⟨⟨type, cu⟩, r₁, hrun₁, hdie, rfl, hreads, hfound, hencoding, hagain⟩ :=
    exists_run (r := memberRoot)
      (x := findOrCreateTypeHandlingBitfields 61 (fun _ => true) (.described 61) 30 none)
      (fun a r₁ => a.1.map Iterator.offset = some 42 ∧ a.2 = some 41 ∧ ReadsThreeBits r₁ ∧
        (searchOrder threeBitsTree r₁.tables "int").find? (r₁.fits (3, 0)) = some 42 ∧
        getUnsigned r₁.tables.attrs 42 dwAtEncoding = some 5 ∧
        (findOrCreateTypeHandlingBitfields 61 (fun _ => true) (.described 61) 30 (some 41)
          r₁).toOption.any (fun q => q.1.1.map Iterator.offset = some 42 ∧ q.1.2 = some 41) = true)
      (by decide +kernel)
  obtain ⟨it, rfl, hoff⟩ := Option.map_eq_some_iff.1 hdie
  obtain ⟨⟨type, cu⟩, r₂, hrun₂, hdie', rfl⟩ := exists_run
    (fun (a : Option Iterator × Option ℕ) _ => a.1.map Iterator.offset = some 42 ∧ a.2 = some 41)
    hagain
  obtain ⟨it', rfl, hoff'⟩ := Option.map_eq_some_iff.1 hdie'
  have hnone : (searchOrder memberTree memberRoot.tables "int").find? (memberRoot.fits (3, 0)) =
      none := by decide +kernel
  have htree₁ : treeAfter memberTree memberRoot threeBits.name threeBits.bits none (some 41)
      it.offset = threeBitsTree := by
    rw [hoff]
    exact (treeAfter_none hnone).trans rfl
  have htree₂ : treeAfter threeBitsTree r₁ threeBits.name threeBits.bits (some 41) (some 41)
      it'.offset = threeBitsTree := treeAfter_found hfound
  have hmeets₁ : Meets memberTree memberRoot threeBits := by
    unfold Meets
    rw [show threeBits.name = "int" from rfl, show threeBits.bits = (3, 0) from rfl, hnone]
    decide
  have hmeets₂ : Meets threeBitsTree r₁ threeBits := by
    unfold Meets
    rw [show threeBits.name = "int" from rfl, show threeBits.bits = (3, 0) from rfl, hfound]
    exact hencoding
  have hstart : BitfieldRun (fun _ => true) (.described 61) memberTree memberRoot none memberTree
      memberRoot none [] := .nil
  have hfirst := hstart.bitfield (asks_threeBits (by decide +kernel)) hrun₁
  rw [htree₁] at hfirst
  have hsecond := hfirst.bitfield (asks_threeBits hreads) hrun₂
  rw [htree₂] at hsecond
  obtain ⟨hfaithful, honce⟩ := bitfieldTypes_of_run ready_memberRoot hsecond
    ⟨by decide, by decide⟩
  suffices hmet : ∀ a ∈ _, BitfieldAnswer.met a from
    ⟨r₂, _, hsecond, by simp [hoff, hoff'], fun a ha => (hfaithful a ha).2 (hmet a ha), honce hmet⟩
  intro a ha
  simp only [List.nil_append, List.mem_append, List.mem_singleton] at ha
  rcases ha with rfl | rfl
  · exact hmeets₁
  · exact hmeets₂

end Examples

end Dies
end Dwarfpp
