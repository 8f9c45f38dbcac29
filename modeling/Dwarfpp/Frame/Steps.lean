/-
# What an instruction does to the working state

`Effect` lists the transitions of the interpreter: a row is filed and the
location advanced, one register of the current row is set, the current row is
replaced by a remembered one, or it is remembered.  A definition is set by
writing one rule over what the register had (`Writes`) or by restoring what the
initial instructions left (`Restores`).  `interpretInstr_effect` is the
inversion that everything about runs is proved from; `decodeWalks` and
`interpretInstructions_run` take `Fde::decode` apart into its two runs.
-/

import Dwarfpp.Frame.Interpret

namespace Dwarfpp
namespace Frame

open Lib Dwarfpp.Expr

/-- One rule is written over a definition. -/
inductive Writes (d : RegisterDef) : RegisterDef → Prop
  | undefinedW : Writes d d.undefinedW
  | sameValueW : Writes d d.sameValueW
  | savedAtOffsetFromCfaW (v : ℤ) : Writes d (d.savedAtOffsetFromCfaW v)
  | valIsOffsetFromCfaW (v : ℤ) : Writes d (d.valIsOffsetFromCfaW v)
  | registerPlusOffsetW (v : ℤ × ℤ) : Writes d (d.registerPlusOffsetW v)
  | savedAtExprW (e : LocExpr) : Writes d (d.savedAtExprW e)
  | valOfExprW (e : LocExpr) : Writes d (d.valOfExprW e)

/-- A definition that `DW_CFA_restore` finds: in the last row of the initial
instructions, in a row they filed, or in none. -/
inductive Restores : Option InstrsResults → RegisterDef → Prop
  | unfinished {r reg d} (h : r.unfinishedRow.find reg = some d) : Restores (some r) d
  | filed {r reg d} (x : ℕ) (h : findEntry reg (r.rows.find x) = some d) : Restores (some r) d
  | nowhere {r} : Restores (some r) default

/-- The transitions of the interpreter. -/
inductive Effect (initial : Option InstrsResults) (st : InterpState) : InterpState → Prop
  | advance (a : BitVec 64) (h : st.addr < a) : Effect initial st { st with result :=
      { st.result with
        rows := st.result.rows.add st.addr.toNat a.toNat st.row.entries
        unfinishedRowAddr := a } }
  | set (reg : ℤ) (d : RegisterDef) (h : Writes (Row.get st.row reg) d ∨ Restores initial d) :
      Effect initial st (st.set reg d)
  | restoreState (row : Row) (rest : List Row) (h : st.rememberedRowDefs = row :: rest) :
      Effect initial st
        { result := { st.result with unfinishedRow := row }, rememberedRowDefs := rest }
  | rememberState :
      Effect initial st { st with rememberedRowDefs := st.row :: st.rememberedRowDefs }
  | skip : Effect initial st st

section Step

variable {fs : FrameSection} {initial : Option InstrsResults} {st st' : InterpState}

/-- Advancing adds the current row up to the new address, and changes nothing else. -/
theorem addNewRow_eq_ok {a : BitVec 64} :
    addNewRow st a = .ok st' ↔ st.addr < a ∧ st' = { st with result :=
      { st.result with
        rows := st.result.rows.add st.addr.toNat a.toNat st.row.entries
        unfinishedRowAddr := a } } := by
  unfold addNewRow
  constructor
  · intro h
    obtain ⟨_, hassert, hret⟩ := bind_eq_ok.1 h
    exact ⟨assert_eq_ok.1 hassert, (Except.ok.inj hret).symm⟩
  · rintro ⟨hlt, rfl⟩
    rw [assert_ok hlt]
    rfl

theorem addNewRow_effect {a : BitVec 64} (h : addNewRow st a = .ok st') :
    Effect initial st st' := by
  obtain ⟨hlt, rfl⟩ := addNewRow_eq_ok.1 h
  exact .advance a hlt

/-- A rule written over a register's own definition. -/
theorem set_effect {reg : ℤ} {d : RegisterDef} (hd : Writes (Row.get st.row reg) d)
    (h : (Except.ok (st.set reg d) : Except Fault InterpState) = .ok st') :
    Effect initial st st' :=
  Except.ok.inj h ▸ .set reg d (.inl hd)

theorem updateCfa_effect {f : ℤ × ℤ → ℤ × ℤ} (h : updateCfa fs st f = .ok st') :
    Effect initial st st' := by
  obtain ⟨_, -, hret⟩ := bind_eq_ok.1 h
  exact set_effect (.registerPlusOffsetW _) hret

theorem makeLocExpr_effect {op : FrameOp} {reg : ℤ} {d : LocExpr → RegisterDef}
    (hd : ∀ e, Writes (Row.get st.row reg) (d e))
    (h : (do
      let e ← makeLocExpr fs op
      return st.set reg (d e)) = .ok st') : Effect initial st st' := by
  obtain ⟨e, -, hret⟩ := bind_eq_ok.1 h
  exact set_effect (hd e) hret

theorem restoreRegister_effect {reg : ℤ} (h : restoreRegister st initial reg = .ok st') :
    Effect initial st st' := by
  unfold restoreRegister at h
  split at h
  · cases h
  · split at h
    next d hd => exact Except.ok.inj h ▸ .set reg d (.inr (.unfinished hd))
    · split at h
      next d hd => exact Except.ok.inj h ▸ .set reg d (.inr (.filed _ hd))
      · exact Except.ok.inj h ▸ .set reg default (.inr .nowhere)

/-- **What one instruction does:** one of the transitions. -/
theorem interpretInstr_effect {op : FrameOp} (h : interpretInstr fs st initial op = .ok st') :
    Effect initial st st' := by
  unfold interpretInstr at h
  cases hcode : CfaOpcode.ofCode op.opcode with
  | none =>
    rw [hcode] at h
    cases h
  | some c =>
    simp only [hcode] at h
    cases c
    case setLoc | advanceLoc | advanceLoc1 | advanceLoc2 | advanceLoc4 =>
      exact addNewRow_effect h
    case defCfaRegister | defCfaOffset | defCfaOffsetSf => exact updateCfa_effect h
    case restore | restoreExtended => exact restoreRegister_effect h
    case expression | defCfaExpression => exact makeLocExpr_effect (fun e => .savedAtExprW e) h
    case valExpression => exact makeLocExpr_effect (fun e => .valOfExprW e) h
    case restoreState =>
      cases hst : st.rememberedRowDefs with
      | nil =>
        rw [hst] at h
        cases h
      | cons row rest =>
        rw [hst] at h
        exact Except.ok.inj h ▸ .restoreState row rest hst
    case rememberState => exact Except.ok.inj h ▸ .rememberState
    case nop | gnuArgsSize => exact Except.ok.inj h ▸ .skip
    case undefined => exact set_effect .undefinedW h
    case sameValue => exact set_effect .sameValueW h
    case offset | offsetExtended | offsetExtendedSf => exact set_effect (.savedAtOffsetFromCfaW _) h
    case valOffset | valOffsetSf => exact set_effect (.valIsOffsetFromCfaW _) h
    case defCfa | defCfaSf | register => exact set_effect (.registerPlusOffsetW _) h

end Step

/-! ### The two walks of `Fde::decode` -/

/-- The results of the two interpretations of `Fde::decode`. -/
def decodeWalks (fs : FrameSection) (fuel : ℕ) (fde : Fde) :
    Except Fault (InstrsResults × InstrsResults) := do
  let initialResult ← interpretInstructions fs fuel fde.cie fde.lowPc fde.cie.initialInstructions
    fde.cie.initialInstructionsLength none
  let finalResult ← interpretInstructions fs fuel fde.cie initialResult.unfinishedRowAddr
    fde.instrBytesBegin fde.instrBytesLength (some initialResult)
  return (initialResult, finalResult)

/-- What `interpret_instructions` gives to `frame_instrlist`. -/
def instrsInput (fs : FrameSection) (cie : Cie) (instrs len : ℕ) : DecodeInput where
  hostBig := fs.hostBig
  useHostByteOrder := true
  addrlen := cie.addressSize
  daf := cie.dataAlignmentFactor
  mem := fs.mem
  limit := instrs + len

/-- The state in which a walk starts. -/
def startState (addr : BitVec 64) : Option InstrsResults → InterpState
  | some initial => ⟨{ initial with rows := [] }, []⟩
  | none => ⟨⟨[], .empty, addr⟩, []⟩

section Run

variable {fs : FrameSection} {fuel : ℕ} {fde : Fde} {initialResult finalResult : InstrsResults}

/-- `Fde::decode` files the last row of the second walk. -/
theorem decode_of_walks (h : decodeWalks fs fuel fde = .ok (initialResult, finalResult)) :
    decode fs fuel fde =
      .ok (finalResult.addUnfinishedRow (fde.lowPc + fde.funcLength + 1)) := by
  obtain ⟨i, hi, hrest⟩ := bind_eq_ok.1 h
  obtain ⟨f, hf, hret⟩ := bind_eq_ok.1 hrest
  obtain ⟨rfl, rfl⟩ := Prod.mk.inj (Except.ok.inj hret)
  rw [decode, hi, ok_bind, hf]
  rfl

theorem decode_eq_ok {res : InstrsResults} (h : decode fs fuel fde = .ok res) :
    ∃ initialResult finalResult, decodeWalks fs fuel fde = .ok (initialResult, finalResult) ∧
      res = finalResult.addUnfinishedRow (fde.lowPc + fde.funcLength + 1) := by
  obtain ⟨i, hi, hrest⟩ := bind_eq_ok.1 h
  obtain ⟨f, hf, hret⟩ := bind_eq_ok.1 hrest
  refine ⟨i, f, ?_, (Except.ok.inj hret).symm⟩
  rw [decodeWalks, hi, ok_bind, hf]
  rfl

/-- A walk that returned is a run of the instructions. -/
theorem interpretInstructions_run {addr : BitVec 64} {instrs len : ℕ} {cie : Cie}
    {initial : Option InstrsResults} {res : InstrsResults}
    (h : interpretInstructions fs fuel cie addr instrs len initial = .ok res) :
    ∃ (ops : List FrameOp) (pos : ℕ) (final : InterpState),
      frameInstrlist (instrsInput fs cie instrs len) fuel instrs = .ok (ops, pos) ∧
        ops.foldlM (fun st op => interpretInstr fs st initial op) (startState addr initial) =
          .ok final ∧ res = final.result := by
  obtain ⟨⟨ops, pos⟩, hlist, hrest⟩ := bind_eq_ok.1 h
  obtain ⟨final, hfold, hret⟩ := bind_eq_ok.1 hrest
  refine ⟨ops, pos, final, hlist, ?_, (Except.ok.inj hret).symm⟩
  cases initial <;> exact hfold

/-- The two runs of a decoding. -/
theorem decodeWalks_runs (h : decodeWalks fs fuel fde = .ok (initialResult, finalResult)) :
    ∃ (ops₀ ops : List FrameOp) (pos : ℕ) (final₀ final : InterpState),
      ops₀.foldlM (fun st op => interpretInstr fs st none op) (startState fde.lowPc none) =
        .ok final₀ ∧ initialResult = final₀.result ∧
      frameInstrlist (instrsInput fs fde.cie fde.instrBytesBegin fde.instrBytesLength) fuel
        fde.instrBytesBegin = .ok (ops, pos) ∧
      ops.foldlM (fun st op => interpretInstr fs st (some initialResult) op)
        (startState initialResult.unfinishedRowAddr (some initialResult)) = .ok final ∧
      finalResult = final.result := by
  obtain ⟨i, hi, hrest⟩ := bind_eq_ok.1 h
  obtain ⟨f, hf, hret⟩ := bind_eq_ok.1 hrest
  obtain ⟨rfl, rfl⟩ := Prod.mk.inj (Except.ok.inj hret)
  obtain ⟨ops₀, _, final₀, -, hrun₀, heq₀⟩ := interpretInstructions_run hi
  obtain ⟨ops, pos, final, hlist, hrun, heq⟩ := interpretInstructions_run hf
  exact ⟨ops₀, ops, pos, final₀, final, hrun₀, heq₀, hlist, hrun, heq⟩

end Run

end Frame
end Dwarfpp
