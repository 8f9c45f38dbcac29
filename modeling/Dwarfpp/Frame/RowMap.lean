/-
# When the decoded row map is minimal

`instrs_results::rows` is a Boost `interval_map`: it joins touching segments
whose sets of definitions compare equal, element by element with
`register_def::operator==`.  The operator has a case for each kind with an
operand and for `UNDEFINED`, but none for `SAME_VALUE` and `INDETERMINATE`
(`beq_iff`), so a definition of one of these kinds is not equal to itself.
`decode_minimal_iff` says exactly when the map has two touching segments with
the same rules: when a row with such a definition is filed right after a row
with the same rules.
-/

import Dwarfpp.Frame.Agreement

namespace Dwarfpp
namespace Frame

open Lib Dwarfpp.Expr

/-- `register_def::operator==`. -/
def RegisterDef.beq (d r : RegisterDef) : Bool :=
  if d.k ≠ r.k then false
  else
    (d.k = .undefined && d.value.mUndefined = r.value.mUndefined)
    || (d.k = .savedAtOffsetFromCfa &&
      d.value.mSavedAtOffsetFromCfa = r.value.mSavedAtOffsetFromCfa)
    || (d.k = .valIsOffsetFromCfa && d.value.mValIsOffsetFromCfa = r.value.mValIsOffsetFromCfa)
    || (d.k = .register && d.value.mRegisterPlusOffset = r.value.mRegisterPlusOffset)
    || (d.k = .savedAtExpr && d.value.mSavedAtExpr = r.value.mSavedAtExpr)
    || (d.k = .valOfExpr && d.value.mValOfExpr = r.value.mValOfExpr)

/-- Equality of two `set<pair<int, register_def>>`. -/
def entriesBeq : List (ℤ × RegisterDef) → List (ℤ × RegisterDef) → Bool
  | [], [] => true
  | (reg, d) :: l, (reg', d') :: l' => reg = reg' && d.beq d' && entriesBeq l l'
  | _, _ => false

/-- `instrs_results::rows` as the interval map keeps them, joined. -/
def InstrsResults.rowMap (res : InstrsResults) : IntervalMap ℕ (ℤ × RegisterDef) :=
  res.rows.joined entriesBeq

/-- The same registers with the same rules. -/
def SameRules : List (ℤ × RegisterDef) → List (ℤ × RegisterDef) → Prop :=
  List.Forall₂ fun e e' => e.1 = e'.1 ∧ e.2.rule = e'.2.rule

/-- No two touching segments carry the same rules. -/
def MinimalRows (res : InstrsResults) : Prop := IntervalMap.Minimal SameRules res.rowMap

/-- The definition is of a kind that `operator==` has a case for. -/
def RegisterDef.Comparable (d : RegisterDef) : Prop := d.k ≠ .sameValue ∧ d.k ≠ .indeterminate

/-- All definitions of the row are. -/
def ComparableEntries (entries : List (ℤ × RegisterDef)) : Prop :=
  ∀ e ∈ entries, e.2.Comparable

/-! ### The operator -/

/-- The field for `UNDEFINED` is as it was initialised: nothing writes it. -/
def RegisterDef.Plain (d : RegisterDef) : Prop := d.value.mUndefined = 0

def PlainEntries (entries : List (ℤ × RegisterDef)) : Prop := ∀ e ∈ entries, e.2.Plain

/-- **`operator==` is equality of rules, except on two kinds.** -/
theorem beq_iff {d r : RegisterDef} (hd : d.Plain) (hr : r.Plain) :
    d.beq r ↔ d.rule = r.rule ∧ d.Comparable := by
  obtain ⟨k, v⟩ := d
  obtain ⟨k', v'⟩ := r
  unfold RegisterDef.Plain at hd hr
  cases k <;> cases k' <;>
    simp_all [RegisterDef.beq, RegisterDef.rule, RegisterDef.Comparable, Prod.ext_iff]

theorem entriesBeq_iff {l l' : List (ℤ × RegisterDef)} (hl : PlainEntries l)
    (hl' : PlainEntries l') : entriesBeq l l' ↔ SameRules l l' ∧ ComparableEntries l := by
  induction l generalizing l' with
  | nil =>
    cases l' with
    | nil => exact ⟨fun _ => ⟨.nil, fun e he => absurd he List.not_mem_nil⟩, fun _ => rfl⟩
    | cons e' l' => exact ⟨fun h => (nomatch h), fun h => (nomatch h.1)⟩
  | cons e l ih =>
    obtain ⟨reg, d⟩ := e
    cases l' with
    | nil => exact ⟨fun h => (nomatch h), fun h => (nomatch h.1)⟩
    | cons e' l' =>
      obtain ⟨reg', d'⟩ := e'
      obtain ⟨hd, hl⟩ := List.forall_mem_cons.1 hl
      obtain ⟨hd', hl'⟩ := List.forall_mem_cons.1 hl'
      rw [entriesBeq, Bool.and_eq_true, Bool.and_eq_true, decide_eq_true_iff, beq_iff hd hd',
        ih hl hl', SameRules, List.forall₂_cons]
      unfold ComparableEntries
      rw [List.forall_mem_cons]
      constructor
      · rintro ⟨⟨hreg, hrule, hc⟩, hsame, hcs⟩
        exact ⟨⟨⟨hreg, hrule⟩, hsame⟩, hc, hcs⟩
      · rintro ⟨⟨⟨hreg, hrule⟩, hsame⟩, hc, hcs⟩
        exact ⟨⟨hreg, hrule, hc⟩, hsame, hcs⟩

theorem SameRules.refl (l : List (ℤ × RegisterDef)) : SameRules l l :=
  List.forall₂_same.2 fun _ _ => ⟨rfl, rfl⟩

theorem SameRules.symm {l l' : List (ℤ × RegisterDef)} (h : SameRules l l') : SameRules l' l :=
  List.Forall₂.flip (h.imp fun _ _ h => ⟨h.1.symm, h.2.symm⟩)

theorem SameRules.trans {l₁ l₂ l₃ : List (ℤ × RegisterDef)} (h : SameRules l₁ l₂)
    (h' : SameRules l₂ l₃) : SameRules l₁ l₃ := by
  induction h generalizing l₃ with
  | nil =>
    cases h'
    exact .nil
  | cons hab _ ih =>
    cases h' with
    | cons hbc hrest => exact .cons ⟨hab.1.trans hbc.1, hab.2.trans hbc.2⟩ (ih hrest)

/-- Definitions that compare equal have the same rule. -/
theorem rule_of_beq {d r : RegisterDef} (h : d.beq r) : d.rule = r.rule := by
  obtain ⟨k, v⟩ := d
  obtain ⟨k', v'⟩ := r
  cases k <;> cases k' <;> simp_all [RegisterDef.beq, RegisterDef.rule]

theorem sameRules_of_beq {l l' : List (ℤ × RegisterDef)} (h : entriesBeq l l') :
    SameRules l l' := by
  induction l generalizing l' with
  | nil =>
    cases l' with
    | nil => exact .nil
    | cons e' l' => cases h
  | cons e l ih =>
    obtain ⟨reg, d⟩ := e
    cases l' with
    | nil => cases h
    | cons e' l' =>
      obtain ⟨reg', d'⟩ := e'
      rw [entriesBeq, Bool.and_eq_true, Bool.and_eq_true, decide_eq_true_iff] at h
      exact .cons ⟨h.1.1, rule_of_beq h.1.2⟩ (ih h.2)

/-! ### Plain definitions -/

/-- All definitions that an interpretation left are plain. -/
structure PlainResults (r : InstrsResults) : Prop where
  row : PlainEntries r.unfinishedRow.entries
  rows : ∀ s ∈ r.rows, PlainEntries s.values

/-- All definitions of a working state are plain. -/
structure PlainState (st : InterpState) : Prop extends PlainResults st.result where
  remembered : ∀ row ∈ st.rememberedRowDefs, PlainEntries row.entries

theorem mem_of_findEntry {reg : ℤ} {d : RegisterDef} {l : List (ℤ × RegisterDef)}
    (h : findEntry reg l = some d) : ∃ e ∈ l, e.2 = d := by
  induction l with
  | nil => cases h
  | cons e l ih =>
    rw [findEntry] at h
    split_ifs at h with hreg
    · exact ⟨e, List.mem_cons_self, Option.some.inj h⟩
    · obtain ⟨e', he', hd⟩ := ih h
      exact ⟨e', List.mem_cons_of_mem e he', hd⟩

theorem PlainEntries.get {row : Row} (h : PlainEntries row.entries) (reg : ℤ) :
    (Row.get row reg).Plain := by
  unfold Row.get
  cases hfind : row.find reg with
  | none => rfl
  | some d =>
    obtain ⟨e, he, rfl⟩ := mem_of_findEntry hfind
    exact h e he

theorem Writes.plain {d d' : RegisterDef} (h : Writes d d') (hd : d.Plain) : d'.Plain := by
  cases h <;> exact hd

theorem Restores.plain {initial : Option InstrsResults} {d : RegisterDef}
    (h : Restores initial d) (hinit : ∀ r, initial = some r → PlainResults r) : d.Plain := by
  cases h with
  | unfinished hfind =>
    obtain ⟨e, he, rfl⟩ := mem_of_findEntry hfind
    exact (hinit _ rfl).row e he
  | filed x hfind =>
    obtain ⟨e, he, rfl⟩ := mem_of_findEntry hfind
    obtain ⟨s, hs, hes⟩ := List.mem_flatMap.1 he
    unfold IntervalMap.valuesAt at hes
    split_ifs at hes
    · exact (hinit _ rfl).rows s hs e hes
    · exact absurd hes List.not_mem_nil
  | nowhere => rfl

theorem PlainEntries.insert {row : Row} (h : PlainEntries row.entries) {reg : ℤ} {d : RegisterDef}
    (hd : d.Plain) : PlainEntries (row.insert reg d).entries := by
  intro e he
  rcases mem_insertEntry he with rfl | he
  · exact hd
  · exact h e he

theorem plain_add {rows : IntervalMap ℕ (ℤ × RegisterDef)} {lower upper : ℕ}
    {entries : List (ℤ × RegisterDef)} (h : ∀ s ∈ rows, PlainEntries s.values)
    (he : PlainEntries entries) : ∀ s ∈ rows.add lower upper entries, PlainEntries s.values := by
  intro s hs
  obtain hs | ⟨heq, -⟩ := IntervalMap.mem_add hs
  · exact h s hs
  · rw [heq]
    exact he

section Step

variable {fs : FrameSection} {initial : Option InstrsResults} {st st' : InterpState}
  {op : FrameOp}

theorem PlainState.step (h : PlainState st) (hinit : ∀ r, initial = some r → PlainResults r)
    (hstep : interpretInstr fs st initial op = .ok st') : PlainState st' := by
  cases interpretInstr_effect hstep with
  | advance a => exact ⟨⟨h.row, plain_add h.rows h.row⟩, h.remembered⟩
  | set reg d hd =>
    have hplain : d.Plain := hd.elim (fun hw => hw.plain (h.row.get reg)) fun hr => hr.plain hinit
    exact ⟨⟨h.row.insert hplain, h.rows⟩, h.remembered⟩
  | restoreState row rest hrest =>
    have hrem := h.remembered
    rw [hrest] at hrem
    exact ⟨⟨hrem row List.mem_cons_self, h.rows⟩, fun r hr => hrem r (List.mem_cons_of_mem row hr)⟩
  | rememberState =>
    refine ⟨h.toPlainResults, fun r hr => ?_⟩
    rcases List.mem_cons.1 hr with rfl | hr
    · exact h.row
    · exact h.remembered r hr
  | skip => exact h

theorem PlainState.run {ops : List FrameOp} (h : PlainState st)
    (hinit : ∀ r, initial = some r → PlainResults r)
    (hrun : ops.foldlM (fun st op => interpretInstr fs st initial op) st = .ok st') :
    PlainState st' :=
  foldlM_invariant (fun _ _ _ hp hs => PlainState.step hp hinit hs) h hrun

end Step

theorem plain_startState {addr : BitVec 64} {initial : Option InstrsResults}
    (h : ∀ r, initial = some r → PlainResults r) : PlainState (startState addr initial) := by
  cases initial with
  | none =>
    exact ⟨⟨fun e he => absurd he List.not_mem_nil, fun s hs => absurd hs List.not_mem_nil⟩,
      fun r hr => absurd hr List.not_mem_nil⟩
  | some r =>
    exact ⟨⟨(h r rfl).row, fun s hs => absurd hs List.not_mem_nil⟩,
      fun r hr => absurd hr List.not_mem_nil⟩

/-! ### Filing a row -/

/-- The current row carries the rules of the row filed last, which ends where it starts. -/
def Repeats (st : InterpState) : Prop :=
  ∃ s, st.result.rows.getLast? = some s ∧ s.upper = st.addr.toNat ∧
    SameRules s.values st.row.entries

/-- From a state on, whenever a row is filed that repeats the one before it, its definitions
are of kinds that `operator==` has a case for: at each advance, and at the end, where it is
filed up to `highPc`. -/
def RepeatsComparable (fs : FrameSection) (initial : Option InstrsResults) (highPc : BitVec 64) :
    List FrameOp → InterpState → Prop
  | [], st => st.addr < highPc → Repeats st → ComparableEntries st.row.entries
  | op :: ops, st => ∀ st', interpretInstr fs st initial op = .ok st' →
      (st.addr < st'.addr → Repeats st → ComparableEntries st.row.entries) ∧
        RepeatsComparable fs initial highPc ops st'

/-- The rows filed so far are in order, below the location, and each has a rule. -/
structure Filing (st : InterpState) : Prop extends PlainState st where
  ordered : st.result.rows.Ordered
  ends : st.result.rows.EndsBy st.addr.toNat
  ruled : ∀ s ∈ st.result.rows, s.values ≠ []

/-- The kinds without a case are told by the rule. -/
theorem comparable_iff (d : RegisterDef) :
    d.Comparable ↔ d.rule ≠ some .sameValue ∧ d.rule ≠ none := by
  obtain ⟨k, v⟩ := d
  cases k <;> simp [RegisterDef.Comparable, RegisterDef.rule]

theorem SameRules.comparable {l l' : List (ℤ × RegisterDef)} (h : SameRules l l')
    (hc : ComparableEntries l') : ComparableEntries l := by
  induction h with
  | nil => exact hc
  | cons hab _ ih =>
    obtain ⟨hb, hl'⟩ := List.forall_mem_cons.1 hc
    refine List.forall_mem_cons.2 ⟨?_, ih hl'⟩
    rw [comparable_iff, hab.2, ← comparable_iff]
    exact hb

section Filing

variable {fs : FrameSection} {initial : Option InstrsResults} {st st' : InterpState}
  {op : FrameOp}

theorem ruled_add {rows : IntervalMap ℕ (ℤ × RegisterDef)} {lower upper : ℕ}
    {entries : List (ℤ × RegisterDef)} (h : ∀ s ∈ rows, s.values ≠ []) :
    ∀ s ∈ rows.add lower upper entries, s.values ≠ [] := by
  intro s hs
  obtain hs | ⟨heq, hne⟩ := IntervalMap.mem_add hs
  · exact h s hs
  · rwa [heq]

theorem Filing.step (h : Filing st) (hinit : ∀ r, initial = some r → PlainResults r)
    (hstep : interpretInstr fs st initial op = .ok st') : Filing st' := by
  have hplain := h.toPlainState.step hinit hstep
  obtain ⟨hrows, haddr⟩ | ⟨hadv, hrows⟩ := interpretInstr_rows hstep
  · exact ⟨hplain, by rw [hrows]; exact h.ordered, by rw [hrows, haddr]; exact h.ends,
      by rw [hrows]; exact h.ruled⟩
  · rw [BitVec.lt_def] at hadv
    exact ⟨hplain, by rw [hrows]; exact h.ordered.add h.ends,
      by rw [hrows]; exact h.ends.add hadv.le, by rw [hrows]; exact ruled_add h.ruled⟩

theorem Filing.run {ops : List FrameOp} (h : Filing st)
    (hinit : ∀ r, initial = some r → PlainResults r)
    (hrun : ops.foldlM (fun st op => interpretInstr fs st initial op) st = .ok st') :
    Filing st' :=
  foldlM_invariant (fun _ _ _ hp hs => Filing.step hp hinit hs) h hrun

/-- Filing the current row keeps the map minimal unless it repeats the last row and cannot
be compared with it. -/
theorem Filing.minimal_add (h : Filing st) (upper : BitVec 64) :
    IntervalMap.Minimal SameRules (IntervalMap.joined entriesBeq
        (st.result.rows.add st.addr.toNat upper.toNat st.row.entries)) ↔
      IntervalMap.Minimal SameRules (st.result.rows.joined entriesBeq) ∧
        (st.addr < upper → Repeats st → ComparableEntries st.row.entries) := by
  rw [IntervalMap.minimal_joined_add_iff SameRules.refl (fun _ _ => SameRules.symm)
    (fun _ _ _ => SameRules.trans) (fun _ _ => sameRules_of_beq) h.ordered h.ends, BitVec.lt_def]
  have hbeq : ∀ s, st.result.rows.getLast? = some s →
      (entriesBeq s.values st.row.entries ↔
        SameRules s.values st.row.entries ∧ ComparableEntries s.values) := fun s hs =>
    entriesBeq_iff (h.rows s (List.mem_of_getLast? hs)) h.row
  refine and_congr_right fun _ => ⟨fun hlast hlt hrep => ?_, fun hlast hlt _ s hs htouch hsame => ?_⟩
  · obtain ⟨s, hs, htouch, hsame⟩ := hrep
    by_cases hne : st.row.entries = []
    · rw [hne]
      exact fun e he => absurd he List.not_mem_nil
    · have hc := ((hbeq s hs).1 (hlast hlt hne s hs htouch hsame)).2
      exact hsame.symm.comparable hc
  · exact (hbeq s hs).2 ⟨hsame, hsame.comparable (hlast hlt ⟨s, hs, htouch, hsame⟩)⟩

/-- **The run, from any state on.** -/
theorem Filing.minimal_run (h : Filing st) (hinit : ∀ r, initial = some r → PlainResults r)
    {highPc : BitVec 64} {ops : List FrameOp}
    (hrun : ops.foldlM (fun st op => interpretInstr fs st initial op) st = .ok st') :
    MinimalRows (st'.result.addUnfinishedRow highPc) ↔
      IntervalMap.Minimal SameRules (st.result.rows.joined entriesBeq) ∧
        RepeatsComparable fs initial highPc ops st := by
  induction ops generalizing st with
  | nil =>
    obtain rfl := Except.ok.inj hrun
    exact h.minimal_add highPc
  | cons op ops ih =>
    obtain ⟨st₁, hst₁, hrest⟩ := foldlM_cons_eq_ok.1 hrun
    have hstep : IntervalMap.Minimal SameRules (st₁.result.rows.joined entriesBeq) ↔
        IntervalMap.Minimal SameRules (st.result.rows.joined entriesBeq) ∧
          (st.addr < st₁.addr → Repeats st → ComparableEntries st.row.entries) := by
      obtain ⟨hrows, haddr⟩ | ⟨-, hrows⟩ := interpretInstr_rows hst₁
      · rw [hrows, haddr]
        exact (and_iff_left fun hlt => absurd hlt (BitVec.lt_irrefl _)).symm
      · rw [hrows]
        exact h.minimal_add st₁.addr
    rw [ih (h.step hinit hst₁) hrest, hstep, and_assoc]
    refine and_congr_right fun _ => ⟨fun hall st'' hst'' => ?_, fun hall => hall st₁ hst₁⟩
    obtain rfl := Except.ok.inj (hst₁.symm.trans hst'')
    exact hall

end Filing

/-! ### `Fde::decode` -/

/-- Along the walk over the FDE's instructions, a row that repeats the one filed before it
has only definitions of kinds that `operator==` has a case for. -/
def RepeatsAreComparable (fs : FrameSection) (fuel : ℕ) (fde : Fde) : Prop :=
  ∀ initialResult finalResult ops pos,
    decodeWalks fs fuel fde = .ok (initialResult, finalResult) →
    frameInstrlist (instrsInput fs fde.cie fde.instrBytesBegin fde.instrBytesLength) fuel
      fde.instrBytesBegin = .ok (ops, pos) →
    RepeatsComparable fs (some initialResult) (fde.lowPc + fde.funcLength + 1) ops
      (startState initialResult.unfinishedRowAddr (some initialResult))

/-- A decoding is a run over the FDE's instructions from a state with no row. -/
theorem decode_filing {fs : FrameSection} {fuel : ℕ} {fde : Fde} {res : InstrsResults}
    (hdecode : decode fs fuel fde = .ok res) :
    ∃ initialResult finalResult ops pos final,
      decodeWalks fs fuel fde = .ok (initialResult, finalResult) ∧
      frameInstrlist (instrsInput fs fde.cie fde.instrBytesBegin fde.instrBytesLength) fuel
        fde.instrBytesBegin = .ok (ops, pos) ∧
      (∀ r, some initialResult = some r → PlainResults r) ∧
      Filing (startState initialResult.unfinishedRowAddr (some initialResult)) ∧
      ops.foldlM (fun st op => interpretInstr fs st (some initialResult) op)
        (startState initialResult.unfinishedRowAddr (some initialResult)) = .ok final ∧
      res = final.result.addUnfinishedRow (fde.lowPc + fde.funcLength + 1) := by
  obtain ⟨initialResult, finalResult, hwalks, rfl⟩ := decode_eq_ok hdecode
  obtain ⟨ops₀, ops, pos, final₀, final, hrun₀, rfl, hlist, hrun, rfl⟩ := decodeWalks_runs hwalks
  have hnone : ∀ r, (none : Option InstrsResults) = some r → PlainResults r := fun r hr => by
    cases hr
  have hplain₀ : PlainState final₀ := (plain_startState hnone).run hnone hrun₀
  have hinit : ∀ r, some final₀.result = some r → PlainResults r := fun r hr =>
    Option.some.inj hr ▸ hplain₀.toPlainResults
  refine ⟨_, _, ops, pos, final, hwalks, hlist, hinit, ?_, hrun, rfl⟩
  exact
    { toPlainState := plain_startState hinit
      ordered := ⟨fun s hs => absurd hs List.not_mem_nil, .nil⟩
      ends := fun s hs => absurd hs List.not_mem_nil
      ruled := fun s hs => absurd hs List.not_mem_nil }

/-- **The decoded row map is minimal exactly when every repeated row is comparable.** -/
theorem decode_minimal_iff {fs : FrameSection} {fuel : ℕ} {fde : Fde} {res : InstrsResults}
    (hdecode : decode fs fuel fde = .ok res) :
    MinimalRows res ↔ RepeatsAreComparable fs fuel fde := by
  obtain ⟨i, f, ops, pos, final, hwalks, hlist, hinit, hstart, hrun, rfl⟩ := decode_filing hdecode
  have hempty : IntervalMap.Minimal SameRules (IntervalMap.joined entriesBeq
      (startState i.unfinishedRowAddr (some i)).result.rows) :=
    fun s hs => absurd hs List.not_mem_nil
  rw [hstart.minimal_run hinit hrun, and_iff_right hempty]
  constructor
  · intro h i' f' ops' pos' hwalks' hlist'
    obtain ⟨rfl, -⟩ := Prod.mk.inj (Except.ok.inj (hwalks.symm.trans hwalks'))
    obtain ⟨rfl, -⟩ := Prod.mk.inj (Except.ok.inj (hlist.symm.trans hlist'))
    exact h
  · intro h
    exact h _ _ ops pos hwalks hlist

/-- The hypothesis of `decode_minimal_iff` is satisfiable. -/
theorem decode_minimal_example :
    ∃ res, decode (exampleSection exampleInitial exampleInstrs) 7
      (exampleFde 1 exampleInitial exampleInstrs) = .ok res ∧
      (MinimalRows res ↔ RepeatsAreComparable (exampleSection exampleInitial exampleInstrs) 7
        (exampleFde 1 exampleInitial exampleInstrs)) := by
  have hrun : (decode (exampleSection exampleInitial exampleInstrs) 7
      (exampleFde 1 exampleInitial exampleInstrs)).toOption.isSome := by
    decide +kernel
  obtain ⟨res, hres⟩ := Option.isSome_iff_exists.1 hrun
  exact ⟨res, toOption_eq_some.1 hres, decode_minimal_iff (toOption_eq_some.1 hres)⟩

/-- A function that leaves register 3 as it was, with its location advanced by 1. -/
def sameValueInstrs : List CfaInstr := [.sameValue 3, .advanceLoc 1]

/-- Whether there are two rows only, which touch and have the same rules. -/
def twoAlike (rows : IntervalMap ℕ (ℤ × RegisterDef)) : Bool :=
  match rows with
  | [s, t] => s.upper = t.lower ∧
      s.values.map (fun e => (e.1, e.2.rule)) = t.values.map fun e => (e.1, e.2.rule)
  | _ => false

/-- The example is decoded to two touching segments with the same rules. -/
theorem sameValue_not_minimal :
    ∃ res, decode (exampleSection exampleInitial sameValueInstrs) 7
      (exampleFde 1 exampleInitial sameValueInstrs) = .ok res ∧ ¬MinimalRows res := by
  have hrun : (decode (exampleSection exampleInitial sameValueInstrs) 7
      (exampleFde 1 exampleInitial sameValueInstrs)).toOption.any (fun res =>
        twoAlike res.rowMap) = true := by
    decide +kernel
  obtain ⟨res, hdecode, htwo⟩ := (Option.any_eq_true _ _).1 hrun
  unfold twoAlike at htwo
  refine ⟨res, toOption_eq_some.1 hdecode, fun hmin => ?_⟩
  split at htwo
  next s t hrows =>
    obtain ⟨htouch, hrules⟩ := of_decide_eq_true htwo
    refine hmin s (by simp [hrows]) t (by simp [hrows]) htouch ?_
    exact (forall₂_of_map_eq hrules).imp fun _ _ h => Prod.mk.inj h
  · cases htwo

end Frame
end Dwarfpp
