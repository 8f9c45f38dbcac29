/-
# The interpreter against the DWARF table

`Sim` relates a state of the interpreter to a state of the walk over the table:
the current rows agree, the locations are equal, the remembered rows agree one
by one.  `interpretInstr_sim` is the step: an instruction that meets `Agrees`
takes related states to related states.  `decode_matches_table` is the run: when
every instruction meets `Agrees`, the rules that `Fde::decode` leaves at a
location are those of the table.

`Agrees` names what the interpreter gets wrong: it adds the operand of an
advance to the location without the code alignment factor, cuts a register to 16
bits, files the CFA under a register number, and takes the operands of the two
`DW_CFA_val_offset` opcodes with each other's reader.
-/

import Dwarfpp.Frame.RoundTrip
import Dwarfpp.Frame.Steps
import Dwarfpp.Frame.Table

namespace Dwarfpp
namespace Frame

open Lib Dwarfpp.Expr

/-! ### The condition -/

namespace CfaInstr

/-- The register whose rule the instruction sets. -/
def keyReg : CfaInstr → Option ℕ
  | offset reg _ | offsetExtended reg _ | offsetExtendedSf reg _ | restore reg
  | restoreExtended reg | undefined reg | sameValue reg | register reg _ | expression reg _
  | valOffset reg _ | valOffsetSf reg _ | valExpression reg _ => some reg
  | _ => none

/-- The instruction advances the location by a delta. -/
def IsAdvance : CfaInstr → Prop
  | advanceLoc _ | advanceLoc1 _ | advanceLoc2 _ | advanceLoc4 _ => True
  | _ => False

/-- The factored operand, if any, has a product in the range of `int`. -/
def ProductFits (daf : ℤ) : CfaInstr → Prop
  | offset _ n | offsetExtended _ n | valOffset _ n => -2 ^ 31 ≤ daf * n ∧ daf * n < 2 ^ 31
  | offsetExtendedSf _ n | defCfaSf _ n | defCfaOffsetSf n | valOffsetSf _ n =>
    -2 ^ 31 ≤ daf * n ∧ daf * n < 2 ^ 31
  | _ => True

/-- Operands as an encoder can write them, whose values fit the `int` fields of
`register_def`. -/
structure WellFormed (addrlen : ℕ) (daf : ℤ) (i : CfaInstr) : Prop where
  fixed : i.FixedFits addrlen
  int : i.IntFits
  product : i.ProductFits daf

/-- The condition under which the interpreter follows the standard. -/
structure Agrees (cfaColumn : ℤ) (caf : ℕ) (i : CfaInstr) : Prop where
  reg : i.reg < 2 ^ 16
  key : ∀ r, i.keyReg = some r → (r : ℤ) ≠ cfaColumn
  advance : i.IsAdvance → caf = 1
  valOffset : ∀ r n, i = .valOffset r n → n < 2 ^ (7 * (Leb.ofNat n).length - 1)
  valOffsetSf : ∀ r n, i = .valOffsetSf r n → 0 ≤ n

end CfaInstr

theorem FitsSigned.of_int {x : ℤ} (h : -2 ^ 31 ≤ x ∧ x < 2 ^ 31) : FitsSigned x := fits_of_int h

/-- Under the condition the decoder gives the instruction its meaning. -/
theorem CfaInstr.Agrees.readFaithful {addrlen caf : ℕ} {daf col : ℤ} {i : CfaInstr}
    (h : i.Agrees col caf) (hwf : i.WellFormed addrlen daf) : ReadFaithful daf i := by
  have hprod := hwf.product
  cases i
  case valOffset r n =>
    exact ⟨h.reg, .of_int hprod, .inr (h.valOffset r n rfl)⟩
  case valOffsetSf r z =>
    have hz := hwf.int z (by simp [CfaInstr.lebOperands])
    have hnn := h.valOffsetSf r z rfl
    have hread : unsignedRead (Leb.ofInt z) = z := by
      have heq := (Leb.ofInt z).signed_eq
      rw [if_neg (by rw [Leb.negative_ofInt]; omega), Leb.signed_ofInt] at heq
      rw [unsignedRead_of_lt (by omega)]
      omega
    exact ⟨h.reg, .of_int hprod, by rw [hread, sub_self, mul_zero]; exact dvd_zero _⟩
  case offset r n => exact ⟨h.reg, .of_int hprod⟩
  case offsetExtended r n => exact ⟨h.reg, .of_int hprod⟩
  case offsetExtendedSf r z => exact ⟨h.reg, .of_int hprod⟩
  case defCfaSf r z => exact ⟨h.reg, .of_int hprod⟩
  case defCfaOffsetSf z => exact ⟨h.reg, .of_int hprod⟩
  all_goals exact ⟨h.reg, trivial⟩

/-! ### Reading a decoded instruction -/

/-- What is known of a record that carries the meaning of `i`. -/
structure Carries (mem : Memory) (daf : ℤ) (op : FrameOp) (i : CfaInstr) : Prop where
  code : CfaOpcode.ofCode op.opcode = some i.opcode
  reg : op.fpRegister.toNat = i.reg
  operand : i.opcode ≠ .setLoc → op.fpOffsetOrBlockLen.toInt = i.operand daf
  address : i.opcode = .setLoc → (op.fpOffsetOrBlockLen.toNat : ℤ) = i.operand daf
  block : (if op.fpExprBlock = 0 then [] else
    slice mem op.fpExprBlock op.fpOffsetOrBlockLen.toNat) = i.block

theorem carries_of_view {mem : Memory} {daf : ℤ} {op : FrameOp} {i : CfaInstr}
    (h : op.view mem = some (i.meaning daf)) : Carries mem daf op i := by
  obtain ⟨c, hc, heq⟩ := Option.map_eq_some_iff.1 h
  obtain ⟨rfl, hreg, hoperand, hblock⟩ := Content.mk.inj heq
  refine ⟨hc, hreg, fun hne => ?_, fun heq' => ?_, hblock⟩
  · rwa [if_neg hne] at hoperand
  · rwa [if_pos heq'] at hoperand

theorem toInt32_of_fits {w : BitVec 64} {z : ℤ} (h : w.toInt = z) (hz : -2 ^ 31 ≤ z ∧ z < 2 ^ 31) :
    toInt32 w = z := by
  have hw : w = BitVec.ofInt 64 z := by rw [← h, BitVec.ofInt_toInt]
  have hcut : (BitVec.ofInt 64 z).setWidth 32 = BitVec.ofInt 32 z := by
    apply BitVec.eq_of_toNat_eq
    rw [BitVec.toNat_setWidth, BitVec.toNat_ofInt, BitVec.toNat_ofInt]
    norm_num
    omega
  rw [toInt32, hw, hcut]
  exact BitVec.toInt_ofInt_eq_self (by norm_num) hz.1 hz.2

/-- A field that reads as a natural number has that number as its bits. -/
theorem toNat_of_toInt {w : BitVec 64} {n : ℕ} (h : w.toInt = n) : w.toNat = n := by
  have hlt := w.isLt
  rw [BitVec.toInt_eq_toNat_cond] at h
  split_ifs at h <;> omega

/-- The block of a record: the address is null only when there is none. -/
theorem Carries.slice_eq {mem : Memory} {daf : ℤ} {op : FrameOp} {i : CfaInstr}
    (h : Carries mem daf op i) (hne : i.opcode ≠ .setLoc) (hop : i.operand daf = i.block.length) :
    slice mem op.fpExprBlock op.fpOffsetOrBlockLen.toNat = i.block := by
  have hblock := h.block
  split_ifs at hblock with h0
  · have hlen := toNat_of_toInt ((h.operand hne).trans hop)
    rw [← hblock, List.length_nil] at hlen
    rw [hlen, ← hblock]
    rfl
  · exact hblock

/-! ### One step -/

/-- The states agree. -/
structure Sim (col : ℤ) (st : InterpState) (ts : TableState) : Prop where
  row : RowMatches col st.row.entries ts.row
  loc : st.addr.toNat = ts.loc
  saved : List.Forall₂ (fun (r : Row) t => RowMatches col r.entries t) st.rememberedRowDefs ts.saved

/-- What a restore consults agrees: nothing while the initial instructions run, their
final row, with no rows before it, afterwards. -/
def InitialMatches (col : ℤ) : Option InstrsResults → Option TableRow → Prop
  | none, none => True
  | some r, some row => RowMatches col r.unfinishedRow.entries row ∧ r.rows = []
  | _, _ => False

section Step

variable {col : ℤ} {fs : FrameSection} {cx : TableContext} {initial : Option InstrsResults}
  {st st' : InterpState} {ts ts' : TableState} {op : FrameOp} {i : CfaInstr}

theorem Sim.set {reg : ℕ} {d : RegisterDef} {rule : Option Rule} (h : Sim col st ts)
    (hreg : (reg : ℤ) ≠ col) (hd : d.rule = rule) :
    Sim col (st.set reg d) { ts with row := ts.row.setReg reg rule } :=
  ⟨h.row.setReg hreg hd, h.loc, h.saved⟩

theorem Sim.setCfa {d : RegisterDef} {rule : Rule} (h : Sim col st ts) (hd : d.rule = some rule) :
    Sim col (st.set col d) { ts with row := ts.row.setCfa rule } :=
  ⟨h.row.setCfa hd, h.loc, h.saved⟩

theorem Sim.addNewRow {a : BitVec 64} (h : Sim col st ts) (hstep : addNewRow st a = .ok st') :
    Sim col st' { ts with loc := a.toNat } := by
  obtain ⟨-, rfl⟩ := addNewRow_eq_ok.1 hstep
  exact ⟨h.row, rfl, h.saved⟩

/-- The assertion of an advance rules out a wrap of the address. -/
theorem Sim.advance {delta : ℕ} {w : BitVec 64} (h : Sim col st ts) (hw : w.toInt = delta)
    (hstep : Frame.addNewRow st (st.addr + w) = .ok st') :
    Sim col st' { ts with loc := ts.loc + delta } := by
  have hlt := (addNewRow_eq_ok.1 hstep).1
  have hsim := h.addNewRow hstep
  have hdelta := toNat_of_toInt hw
  have hb := st.addr.isLt
  have hbw := w.isLt
  have hsum : (st.addr + w).toNat = ts.loc + delta := by
    rw [BitVec.lt_def, BitVec.toNat_add] at hlt
    rw [BitVec.toNat_add, ← h.loc]
    omega
  rwa [hsum] at hsim

/-- A definition with a known rule has a known kind and field. -/
theorem rule_register {d : RegisterDef} {r off : ℤ} (h : d.rule = some (.register r off)) :
    d.value.mRegisterPlusOffset = (r, off) := by
  obtain ⟨k, v⟩ := d
  cases k <;> simp [RegisterDef.rule] at h
  exact Prod.ext h.1 h.2

theorem ruleIn_eq_some {row : Row} {reg : ℤ} {rule : Rule} (h : ruleIn row.entries reg = some rule) :
    (row.find reg).isSome ∧ (Row.get row reg).rule = some rule := by
  obtain ⟨d, hd, hrule⟩ := Option.bind_eq_some_iff.1 h
  have hfind : row.find reg = some d := hd
  exact ⟨by rw [hfind]; rfl, by rw [Row.get, hfind]; exact hrule⟩

/-- Replacing one half of a register-and-offset rule for the CFA. -/
theorem Sim.updateCfa {r off : ℤ} {f : ℤ × ℤ → ℤ × ℤ} (h : Sim fs.cfaColumn st ts)
    (hcfa : ts.row.cfa = some (.register r off)) (hstep : updateCfa fs st f = .ok st') :
    Sim fs.cfaColumn st'
      { ts with row := ts.row.setCfa (.register (f (r, off)).1 (f (r, off)).2) } := by
  obtain ⟨_, -, hret⟩ := bind_eq_ok.1 hstep
  obtain rfl := Except.ok.inj hret
  obtain ⟨-, hrule⟩ := ruleIn_eq_some (h.row.1.trans hcfa)
  refine h.setCfa ?_
  rw [rule_register hrule]
  rfl

theorem makeLocExpr_eq {mem : Memory} {daf : ℤ} {e : LocExpr} (hmem : fs.mem = mem)
    (hop : Carries mem daf op i) (hne : i.opcode ≠ .setLoc)
    (hlen : i.operand daf = i.block.length) (hstep : makeLocExpr fs op = .ok e) :
    fs.tryConstruct i.block = some e := by
  unfold makeLocExpr at hstep
  rw [hmem, hop.slice_eq hne hlen] at hstep
  split at hstep
  · next e' he => rw [he, Except.ok.inj hstep]
  · cases hstep

/-- A restore gives the register its rule after the initial instructions. -/
theorem Sim.restore {reg : ℕ} {row : TableRow} (h : Sim col st ts)
    (hinit : InitialMatches col initial (some row)) (hreg : (reg : ℤ) ≠ col)
    (hstep : restoreRegister st initial reg = .ok st') :
    Sim col st' { ts with row := ts.row.setReg reg (row.regs reg) } := by
  cases initial with
  | none => exact absurd hinit id
  | some r =>
    obtain ⟨hrow, hrows⟩ := hinit
    have hrule := hrow.2 reg hreg
    unfold restoreRegister at hstep
    simp only [hrows, IntervalMap.find_nil, findEntry] at hstep
    unfold ruleIn at hrule
    change (r.unfinishedRow.find reg).bind _ = _ at hrule
    cases hfind : r.unfinishedRow.find reg with
    | some d =>
      rw [hfind] at hstep hrule
      obtain rfl := Except.ok.inj hstep
      exact h.set hreg hrule
    | none =>
      rw [hfind] at hstep hrule
      obtain rfl := Except.ok.inj hstep
      exact h.set hreg hrule

/-- The advance of the table, when the code alignment factor is 1. -/
theorem Sim.tableAdvance {delta : ℕ} (h : Sim col st ts) (hok : i.Agrees col cx.caf)
    (hop : Carries fs.mem cx.daf op i) (hne : i.opcode ≠ .setLoc) (hadv : i.IsAdvance)
    (hdelta : i.operand cx.daf = delta)
    (htable : some { ts with loc := ts.loc + delta * cx.caf } = some ts')
    (hstep : Frame.addNewRow st (st.addr + op.fpOffsetOrBlockLen) = .ok st') : Sim col st' ts' := by
  obtain rfl := Option.some.inj htable
  rw [hok.advance hadv, mul_one]
  exact h.advance ((hop.operand hne).trans hdelta) hstep

/-- A change of one half of the CFA rule is in the table only when the rule is a
register and an offset. -/
theorem cfa_register_of_match {g : ℤ → ℤ → TableState}
    (h : (match ts.row.cfa with
      | some (.register r off) => some (g r off)
      | _ => none) = some ts') :
    ∃ r off, ts.row.cfa = some (.register r off) ∧ ts' = g r off := by
  split at h
  · next r off hcfa => exact ⟨r, off, hcfa, (Option.some.inj h).symm⟩
  · cases h

/-- **One instruction keeps the states in agreement.** -/
theorem interpretInstr_sim {addrlen : ℕ} (h : Sim fs.cfaColumn st ts)
    (hinit : InitialMatches fs.cfaColumn initial cx.initial) (hexpr : cx.expr = fs.tryConstruct)
    (hwf : i.WellFormed addrlen cx.daf) (hok : i.Agrees fs.cfaColumn cx.caf)
    (hop : Carries fs.mem cx.daf op i) (hstep : interpretInstr fs st initial op = .ok st')
    (htable : tableStep cx ts i = some ts') : Sim fs.cfaColumn st' ts' := by
  have hprod := hwf.product
  have hkey := hok.key
  have hint : ∀ x ∈ i.lebOperands, -2 ^ 31 ≤ x ∧ x < 2 ^ 31 := hwf.int
  have hoff : i.opcode ≠ .setLoc → -2 ^ 31 ≤ i.operand cx.daf ∧ i.operand cx.daf < 2 ^ 31 →
      toInt32 op.fpOffsetOrBlockLen = i.operand cx.daf :=
    fun hne hfits => toInt32_of_fits (hop.operand hne) hfits
  unfold interpretInstr at hstep
  simp only [hop.code, hop.reg] at hstep
  cases i
  case advanceLoc delta =>
    exact h.tableAdvance hok hop (by simp [CfaInstr.opcode]) trivial rfl htable hstep
  case advanceLoc1 delta =>
    exact h.tableAdvance hok hop (by simp [CfaInstr.opcode]) trivial rfl htable hstep
  case advanceLoc2 delta =>
    exact h.tableAdvance hok hop (by simp [CfaInstr.opcode]) trivial rfl htable hstep
  case advanceLoc4 delta =>
    exact h.tableAdvance hok hop (by simp [CfaInstr.opcode]) trivial rfl htable hstep
  case setLoc addr =>
    have haddr : op.fpOffsetOrBlockLen.toNat = addr :=
      Int.ofNat_inj.1 (hop.address (by simp [CfaInstr.opcode]))
    have hsim := h.addNewRow hstep
    rw [haddr] at hsim
    simp only [tableStep] at htable
    split_ifs at htable
    obtain rfl := Option.some.inj htable
    exact hsim
  case offset r n =>
    obtain rfl := Option.some.inj htable
    obtain rfl := Except.ok.inj hstep
    exact h.set (hkey r rfl) (by rw [hoff (by simp [CfaInstr.opcode]) hprod]; rfl)
  case offsetExtended r n =>
    obtain rfl := Option.some.inj htable
    obtain rfl := Except.ok.inj hstep
    exact h.set (hkey r rfl) (by rw [hoff (by simp [CfaInstr.opcode]) hprod]; rfl)
  case offsetExtendedSf r n =>
    obtain rfl := Option.some.inj htable
    obtain rfl := Except.ok.inj hstep
    exact h.set (hkey r rfl) (by rw [hoff (by simp [CfaInstr.opcode]) hprod]; rfl)
  case valOffset r n =>
    obtain rfl := Option.some.inj htable
    obtain rfl := Except.ok.inj hstep
    exact h.set (hkey r rfl) (by rw [hoff (by simp [CfaInstr.opcode]) hprod]; rfl)
  case valOffsetSf r n =>
    obtain rfl := Option.some.inj htable
    obtain rfl := Except.ok.inj hstep
    exact h.set (hkey r rfl) (by rw [hoff (by simp [CfaInstr.opcode]) hprod]; rfl)
  case restore r =>
    obtain ⟨row, hrow, rfl⟩ := Option.map_eq_some_iff.1 htable
    exact h.restore (hrow ▸ hinit) (hkey r rfl) hstep
  case restoreExtended r =>
    obtain ⟨row, hrow, rfl⟩ := Option.map_eq_some_iff.1 htable
    exact h.restore (hrow ▸ hinit) (hkey r rfl) hstep
  case undefined r =>
    obtain rfl := Option.some.inj htable
    obtain rfl := Except.ok.inj hstep
    exact h.set (hkey r rfl) rfl
  case sameValue r =>
    obtain rfl := Option.some.inj htable
    obtain rfl := Except.ok.inj hstep
    exact h.set (hkey r rfl) rfl
  case register r r' =>
    obtain rfl := Option.some.inj htable
    obtain rfl := Except.ok.inj hstep
    have hr' := hint r' (by simp [CfaInstr.lebOperands])
    exact h.set (hkey r rfl) (by rw [hoff (by simp [CfaInstr.opcode]) hr']; rfl)
  case expression r block =>
    obtain ⟨e, he, rfl⟩ := Option.map_eq_some_iff.1 htable
    obtain ⟨e', hmake, hret⟩ := bind_eq_ok.1 hstep
    obtain rfl := Except.ok.inj hret
    have hblock := makeLocExpr_eq rfl hop (by simp [CfaInstr.opcode]) rfl hmake
    rw [hexpr] at he
    obtain rfl := Option.some.inj (he.symm.trans hblock)
    exact h.set (hkey r rfl) rfl
  case valExpression r block =>
    obtain ⟨e, he, rfl⟩ := Option.map_eq_some_iff.1 htable
    obtain ⟨e', hmake, hret⟩ := bind_eq_ok.1 hstep
    obtain rfl := Except.ok.inj hret
    have hblock := makeLocExpr_eq rfl hop (by simp [CfaInstr.opcode]) rfl hmake
    rw [hexpr] at he
    obtain rfl := Option.some.inj (he.symm.trans hblock)
    exact h.set (hkey r rfl) rfl
  case rememberState =>
    obtain rfl := Option.some.inj htable
    obtain rfl := Except.ok.inj hstep
    exact ⟨h.row, h.loc, .cons h.row h.saved⟩
  case restoreState =>
    obtain ⟨hrow, hloc, hsaved⟩ := h
    obtain ⟨result, remembered⟩ := st
    obtain ⟨loc, trow, saved⟩ := ts
    cases hsaved with
    | nil => cases htable
    | cons htop hrest =>
      obtain rfl := Option.some.inj htable
      obtain rfl := Except.ok.inj hstep
      exact ⟨htop, hloc, hrest⟩
  case defCfa r n =>
    obtain rfl := Option.some.inj htable
    obtain rfl := Except.ok.inj hstep
    have hn := hint n (by simp [CfaInstr.lebOperands])
    exact h.setCfa (by rw [hoff (by simp [CfaInstr.opcode]) hn]; rfl)
  case defCfaSf r n =>
    obtain rfl := Option.some.inj htable
    obtain rfl := Except.ok.inj hstep
    exact h.setCfa (by rw [hoff (by simp [CfaInstr.opcode]) hprod]; rfl)
  case defCfaRegister r =>
    obtain ⟨r', off, hcfa, rfl⟩ := cfa_register_of_match htable
    exact h.updateCfa hcfa hstep
  case defCfaOffset n =>
    obtain ⟨r, off', hcfa, rfl⟩ := cfa_register_of_match htable
    have hn := hint n (by simp [CfaInstr.lebOperands])
    have hsim := h.updateCfa hcfa hstep
    rwa [hoff (by simp [CfaInstr.opcode]) hn] at hsim
  case defCfaOffsetSf n =>
    obtain ⟨r, off', hcfa, rfl⟩ := cfa_register_of_match htable
    have hsim := h.updateCfa hcfa hstep
    rwa [hoff (by simp [CfaInstr.opcode]) hprod] at hsim
  case defCfaExpression block =>
    obtain ⟨e, he, rfl⟩ := Option.map_eq_some_iff.1 htable
    obtain ⟨e', hmake, hret⟩ := bind_eq_ok.1 hstep
    obtain rfl := Except.ok.inj hret
    have hblock := makeLocExpr_eq rfl hop (by simp [CfaInstr.opcode]) rfl hmake
    rw [hexpr] at he
    obtain rfl := Option.some.inj (he.symm.trans hblock)
    exact h.setCfa rfl
  case gnuArgsSize n =>
    obtain rfl := Option.some.inj htable
    obtain rfl := Except.ok.inj hstep
    exact h
  case nop =>
    obtain rfl := Option.some.inj htable
    obtain rfl := Except.ok.inj hstep
    exact h

end Step

/-! ### The rows of a run -/

section Rows

variable {fs : FrameSection} {initial : Option InstrsResults} {st st' : InterpState}

/-- The rows and the address are as they were. -/
def SameRows (st st' : InterpState) : Prop :=
  st'.result.rows = st.result.rows ∧ st'.addr = st.addr

/-- The current row was added up to a later address, where the next row starts. -/
def AddsRow (st st' : InterpState) : Prop :=
  st.addr < st'.addr ∧ st'.result.rows =
    st.result.rows.add st.addr.toNat st'.addr.toNat st.row.entries

/-- **What one instruction does to the rows:** nothing, or it adds the current one. -/
theorem interpretInstr_rows {op : FrameOp} (hstep : interpretInstr fs st initial op = .ok st') :
    SameRows st st' ∨ AddsRow st st' := by
  cases interpretInstr_effect hstep with
  | advance a hlt => exact .inr ⟨hlt, rfl⟩
  | set reg d => exact .inl ⟨rfl, rfl⟩
  | restoreState row rest => exact .inl ⟨rfl, rfl⟩
  | rememberState => exact .inl ⟨rfl, rfl⟩
  | skip => exact .inl ⟨rfl, rfl⟩

/-- Below the current address the rows are settled: a run changes them no more. -/
theorem run_find_of_lt {pc : ℕ} {ops : List FrameOp} (hpc : pc < st.addr.toNat)
    (hrun : ops.foldlM (fun st op => interpretInstr fs st initial op) st = .ok st') :
    st'.result.rows.find pc = st.result.rows.find pc ∧ pc < st'.addr.toNat := by
  refine foldlM_invariant (p := fun s => s.result.rows.find pc = st.result.rows.find pc ∧
    pc < s.addr.toNat) ?_ ⟨rfl, hpc⟩ hrun
  rintro s op s' ⟨hfind, hlt⟩ hstep
  obtain ⟨hrows, haddr⟩ | ⟨hadv, hrows⟩ := interpretInstr_rows hstep
  · exact ⟨by rw [hrows, hfind], by rwa [haddr]⟩
  · rw [BitVec.lt_def] at hadv
    refine ⟨?_, by omega⟩
    rw [hrows, IntervalMap.find_add, if_neg (by omega), List.append_nil, hfind]

end Rows

/-! ### The run -/

/-- **The row in force.**  From related states, with no row beyond the current
address, the run leaves at `pc` the row that the table has there. -/
theorem run_matches_table {addrlen pc : ℕ} {highPc : BitVec 64} {fs : FrameSection}
    {cx : TableContext} {initial : Option InstrsResults}
    (hinit : InitialMatches fs.cfaColumn initial cx.initial) (hexpr : cx.expr = fs.tryConstruct)
    {ops : List FrameOp} {is : List CfaInstr}
    (hops : List.Forall₂ (fun op i => Carries fs.mem cx.daf op i ∧
      i.WellFormed addrlen cx.daf ∧ i.Agrees fs.cfaColumn cx.caf) ops is)
    {st st' : InterpState} {ts : TableState} {row : TableRow} (h : Sim fs.cfaColumn st ts)
    (hends : st.result.rows.EndsBy st.addr.toNat) (hlow : st.addr.toNat ≤ pc)
    (hhigh : pc < highPc.toNat)
    (hrun : ops.foldlM (fun st op => interpretInstr fs st initial op) st = .ok st')
    (htable : tableAt cx pc is ts = some row) :
    RowMatches fs.cfaColumn ((st'.result.addUnfinishedRow highPc).rows.find pc) row := by
  induction hops generalizing st ts with
  | nil =>
    obtain rfl := Except.ok.inj hrun
    obtain rfl := Option.some.inj htable
    rw [InstrsResults.addUnfinishedRow, IntervalMap.find_add, hends.find hlow, List.nil_append,
      if_pos ⟨hlow, hhigh⟩]
    exact h.row
  | cons hop _ ih =>
    obtain ⟨hcarries, hwf, hok⟩ := hop
    obtain ⟨st₁, hst₁, hrest⟩ := foldlM_cons_eq_ok.1 hrun
    rw [tableAt] at htable
    split at htable
    · cases htable
    next ts₁ hts₁ =>
      have hsim := interpretInstr_sim h hinit hexpr hwf hok hcarries hst₁ hts₁
      obtain ⟨hrows, haddr⟩ | ⟨hadv, hrows⟩ := interpretInstr_rows hst₁
      · rw [if_neg (by rw [← hsim.loc, haddr]; omega)] at htable
        exact ih hsim (by rw [hrows, haddr]; exact hends) (by rwa [haddr]) hrest htable
      · rw [BitVec.lt_def] at hadv
        by_cases hpc : pc < st₁.addr.toNat
        · rw [if_pos (by rwa [← hsim.loc])] at htable
          obtain rfl := Option.some.inj htable
          obtain ⟨hfind, hlt⟩ := run_find_of_lt hpc hrest
          rw [InstrsResults.addUnfinishedRow, IntervalMap.find_add,
            if_neg (by rintro ⟨hle, -⟩; exact absurd hlt (not_lt.2 hle)), List.append_nil, hfind,
            hrows, IntervalMap.find_add, hends.find hlow, List.nil_append, if_pos ⟨hlow, hpc⟩]
          exact h.row
        · rw [if_neg (by rwa [← hsim.loc])] at htable
          exact ih hsim (by rw [hrows]; exact hends.add hadv.le) (not_lt.1 hpc) hrest htable

/-- A block holds the standard encoding of well-formed instructions. -/
structure HoldsInstrs (fs : FrameSection) (cie : Cie) (start len : ℕ) (is : List CfaInstr) :
    Prop where
  holds : HoldsAt fs.mem start (encodeList fs.hostBig true cie.addressSize is)
  length : len = (encodeList fs.hostBig true cie.addressSize is).length
  limit : start + len < 2 ^ 64
  wellFormed : ∀ i ∈ is, i.WellFormed cie.addressSize cie.dataAlignmentFactor.toInt

theorem forall₂_of_map_eq {α β γ : Type} {f : α → γ} {g : β → γ} {as : List α} {bs : List β}
    (h : as.map f = bs.map g) : List.Forall₂ (fun a b => f a = g b) as bs := by
  rw [← List.forall₂_eq_eq_eq, List.forall₂_map_left_iff, List.forall₂_map_right_iff] at h
  exact h

theorem Forall₂.and_right {α β : Type} {r : α → β → Prop} {p : β → Prop} {as : List α}
    {bs : List β} (h : List.Forall₂ r as bs) (hp : ∀ b ∈ bs, p b) :
    List.Forall₂ (fun a b => r a b ∧ p b) as bs := by
  induction h with
  | nil => exact .nil
  | cons hr _ ih =>
    exact .cons ⟨hr, hp _ (by simp)⟩ (ih fun b hb => hp b (List.mem_cons_of_mem _ hb))

/-- An interpretation that returned is a run over records that carry the meaning of
the instructions. -/
theorem interpretInstructions_eq_ok {fs : FrameSection} {fuel start length caf : ℕ} {cie : Cie}
    {addr : BitVec 64} {initial : Option InstrsResults} {res : InstrsResults}
    {is : List CfaInstr} (haddr : cie.addressSize = 4 ∨ cie.addressSize = 8)
    (hblock : HoldsInstrs fs cie start length is) (hok : ∀ i ∈ is, i.Agrees fs.cfaColumn caf)
    (hrun : interpretInstructions fs fuel cie addr start length initial = .ok res) :
    ∃ ops final, List.Forall₂ (fun op i => Carries fs.mem cie.dataAlignmentFactor.toInt op i ∧
        i.WellFormed cie.addressSize cie.dataAlignmentFactor.toInt ∧ i.Agrees fs.cfaColumn caf)
        ops is ∧
      ops.foldlM (fun st op => interpretInstr fs st initial op)
        (match initial with
          | some initial => ⟨{ initial with rows := [] }, []⟩
          | none => ⟨⟨[], .empty, addr⟩, []⟩) = .ok final ∧ res = final.result := by
  obtain ⟨⟨ops, pos⟩, hlist, hrest⟩ := bind_eq_ok.1 hrun
  obtain ⟨final, hfold, hret⟩ := bind_eq_ok.1 hrest
  have hfixed : ∀ i ∈ is, i.FixedFits cie.addressSize := fun i hi => (hblock.wellFormed i hi).fixed
  have hint : ∀ i ∈ is, i.IntFits := fun i hi => (hblock.wellFormed i hi).int
  set inp : DecodeInput := ⟨fs.hostBig, true, cie.addressSize, cie.dataAlignmentFactor, fs.mem,
    start + length⟩ with hinp
  have hencode := frameInstrlist_encode inp haddr hblock.limit hfixed hint
    (by rw [hinp, hblock.length]) hblock.holds (Nat.le_max_right fuel is.length)
  obtain ⟨ops', hread, hview⟩ := (readBackList_view_iff inp haddr hfixed hint
    hblock.holds).2 fun i hi => (hok i hi).readFaithful (hblock.wellFormed i hi)
  rw [frameInstrlist_mono hlist (Nat.le_max_left fuel is.length), hread] at hencode
  obtain ⟨rfl, -⟩ := Prod.mk.inj (Except.ok.inj hencode)
  refine ⟨ops, final, ?_, hfold, (Except.ok.inj hret).symm⟩
  refine Forall₂.and_right ((forall₂_of_map_eq hview).imp fun op i h => carries_of_view h) ?_
  exact fun i hi => ⟨hblock.wellFormed i hi, hok i hi⟩

/-- An instruction that does not advance the location leaves it. -/
theorem tableStep_loc {cx : TableContext} {ts ts' : TableState} {i : CfaInstr}
    (hadv : ¬i.IsAdvance) (hset : i.opcode ≠ .setLoc) (h : tableStep cx ts i = some ts') :
    ts'.loc = ts.loc := by
  cases i
  case advanceLoc | advanceLoc1 | advanceLoc2 | advanceLoc4 => exact absurd trivial hadv
  case setLoc => exact absurd rfl hset
  case restore | restoreExtended | expression | valExpression | defCfaExpression =>
    obtain ⟨_, -, rfl⟩ := Option.map_eq_some_iff.1 h
    rfl
  case restoreState =>
    obtain ⟨loc, row, saved⟩ := ts
    cases saved with
    | nil => cases h
    | cons row saved =>
      obtain rfl := Option.some.inj h
      rfl
  case defCfaRegister | defCfaOffset | defCfaOffsetSf =>
    obtain ⟨_, _, -, rfl⟩ := cfa_register_of_match h
    rfl
  all_goals
    obtain rfl := Option.some.inj h
    rfl

/-! ### `Fde::decode` -/

/-- The blocks of an FDE and its CIE hold the standard encoding of well-formed
instructions, and the initial ones do not advance the location. -/
structure HoldsFde (fs : FrameSection) (fde : Fde) (initialInstrs instrs : List CfaInstr) :
    Prop where
  addressSize : fde.cie.addressSize = 4 ∨ fde.cie.addressSize = 8
  initial : HoldsInstrs fs fde.cie fde.cie.initialInstructions fde.cie.initialInstructionsLength
    initialInstrs
  instrs : HoldsInstrs fs fde.cie fde.instrBytesBegin fde.instrBytesLength instrs
  stays : ∀ i ∈ initialInstrs, ¬i.IsAdvance ∧ i.opcode ≠ .setLoc

/-- Whenever decoding accepts the FDE, the rules it leaves at each location of the
function are those of the table there. -/
def DecodeMatches (fs : FrameSection) (fde : Fde) (initialInstrs instrs : List CfaInstr) : Prop :=
  ∀ fuel res, decode fs fuel fde = .ok res →
    ∀ (pc : ℕ) row, fde.lowPc.toNat ≤ pc → pc < fde.lowPc.toNat + fde.funcLength.toNat →
      fdeTableAt fde.cie.codeAlignmentFactor.toNat fde.cie.dataAlignmentFactor.toInt
        fs.tryConstruct fde.lowPc.toNat initialInstrs instrs pc = some row →
      RowMatches fs.cfaColumn (res.rows.find pc) row

/-- The initial instructions leave related states, no row and the start address. -/
theorem initial_run {fs : FrameSection} {addrlen : ℕ} {addr : BitVec 64} {cx : TableContext}
    (hcx : cx.initial = none) (hexpr : cx.expr = fs.tryConstruct) {ops : List FrameOp}
    {is : List CfaInstr}
    (hops : List.Forall₂ (fun op i => Carries fs.mem cx.daf op i ∧
      i.WellFormed addrlen cx.daf ∧ i.Agrees fs.cfaColumn cx.caf) ops is)
    (hstays : ∀ i ∈ is, ¬i.IsAdvance ∧ i.opcode ≠ .setLoc) {final : InterpState}
    {ts : TableState}
    (hrun : ops.foldlM (fun st op => interpretInstr fs st none op) ⟨⟨[], .empty, addr⟩, []⟩ =
      .ok final) (htable : tableRun cx ⟨addr.toNat, .empty, []⟩ is = some ts) :
    Sim fs.cfaColumn final ts ∧ final.result.rows = [] ∧ ts.loc = addr.toNat := by
  refine foldlM_simulation
    (r := fun st ts => Sim fs.cfaColumn st ts ∧ st.result.rows = [] ∧ ts.loc = addr.toNat)
    ?_ (Forall₂.and_right hops hstays) ?_ hrun htable
  · rintro st ts op i st' ts' ⟨hsim, hrows, hloc⟩ ⟨⟨hcarries, hwf, hok⟩, hadv, hset⟩ hst' hts'
    have hinit : InitialMatches fs.cfaColumn none cx.initial := by rw [hcx]; exact trivial
    have hsim' := interpretInstr_sim hsim hinit hexpr hwf hok hcarries hst' hts'
    have hloc' := tableStep_loc hadv hset hts'
    refine ⟨hsim', ?_, hloc'.trans hloc⟩
    obtain ⟨hsame, -⟩ | ⟨hlt, -⟩ := interpretInstr_rows hst'
    · rw [hsame, hrows]
    · rw [BitVec.lt_def, hsim.loc, hsim'.loc, hloc'] at hlt
      exact absurd hlt (lt_irrefl _)
  · exact ⟨⟨⟨rfl, fun _ _ => rfl⟩, rfl, .nil⟩, rfl, rfl⟩

/-- **`Fde::decode` computes the table of the standard** when every instruction meets
`Agrees` and the function does not end at the top of the address space. -/
theorem decode_matches_table {fs : FrameSection} {fde : Fde} {initialInstrs instrs : List CfaInstr}
    (hfde : HoldsFde fs fde initialInstrs instrs)
    (hok : ∀ i ∈ initialInstrs ++ instrs,
      i.Agrees fs.cfaColumn fde.cie.codeAlignmentFactor.toNat)
    (hend : fde.lowPc.toNat + fde.funcLength.toNat + 1 < 2 ^ 64) :
    DecodeMatches fs fde initialInstrs instrs := by
  intro fuel res hdecode pc row hlow hhigh htable
  obtain ⟨initialResult, hinitial, hrest⟩ := bind_eq_ok.1 hdecode
  obtain ⟨finalResult, hfinal, hret⟩ := bind_eq_ok.1 hrest
  obtain rfl := Except.ok.inj hret
  obtain ⟨ts, hts, hrow⟩ := Option.bind_eq_some_iff.1 htable
  obtain ⟨ops₀, final₀, hops₀, hrun₀, rfl⟩ := interpretInstructions_eq_ok hfde.addressSize
    hfde.initial (fun i hi => hok i (List.mem_append_left _ hi)) hinitial
  obtain ⟨ops, final, hops, hrun, rfl⟩ := interpretInstructions_eq_ok hfde.addressSize
    hfde.instrs (fun i hi => hok i (List.mem_append_right _ hi)) hfinal
  obtain ⟨hsim, hrows, hloc⟩ := initial_run rfl rfl hops₀ hfde.stays hrun₀ hts
  have hhighPc : (fde.lowPc + fde.funcLength + 1).toNat =
      fde.lowPc.toNat + fde.funcLength.toNat + 1 := by
    have hone : (1 : BitVec 64).toNat = 1 := rfl
    rw [BitVec.toNat_add, BitVec.toNat_add, hone]
    omega
  have hstart : final₀.result.unfinishedRowAddr.toNat = fde.lowPc.toNat := hsim.loc.trans hloc
  have hinit : InitialMatches fs.cfaColumn (some final₀.result)
      (TableContext.mk fde.cie.codeAlignmentFactor.toNat fde.cie.dataAlignmentFactor.toInt
        (some ts.row) fs.tryConstruct).initial := ⟨hsim.row, hrows⟩
  have hsim' : Sim fs.cfaColumn ⟨{ final₀.result with rows := [] }, []⟩ ⟨ts.loc, ts.row, []⟩ :=
    ⟨hsim.row, hsim.loc, .nil⟩
  refine run_matches_table hinit rfl hops hsim' (fun s hs => absurd hs List.not_mem_nil)
    ?_ ?_ hrun hrow
  · exact hstart.le.trans hlow
  · rw [hhighPc]
    omega

/-! ### Two FDEs -/

/-- A little-endian section with the initial instructions at address 16 and those of
the FDE at address 128; no block is an expression. -/
def exampleSection (initialInstrs instrs : List CfaInstr) : FrameSection where
  mem := fun a =>
    if a < 128 then memoryOf 16 (encodeList false true 8 initialInstrs) a
    else memoryOf 128 (encodeList false true 8 instrs) a
  hostBig := false
  cfaColumn := 1436
  tryConstruct := fun _ => none

/-- A function of 16 bytes at `0x1000`. -/
def exampleFde (caf : BitVec 64) (initialInstrs instrs : List CfaInstr) : Fde where
  cie :=
    { codeAlignmentFactor := caf
      dataAlignmentFactor := -8
      addressSize := 8
      initialInstructions := 16
      initialInstructionsLength := (encodeList false true 8 initialInstrs).length }
  lowPc := 0x1000
  funcLength := 16
  instrBytesBegin := 128
  instrBytesLength := (encodeList false true 8 instrs).length

/-- `def_cfa r7+8; offset r16 at cfa-8`. -/
def exampleInitial : List CfaInstr := [.defCfa 7 8, .offset 16 1]

/-- A push and its undoing, with the row saved around it. -/
def exampleInstrs : List CfaInstr :=
  [.advanceLoc 1, .rememberState, .defCfaOffset 16, .offset 6 2, .advanceLoc 4, .restoreState,
    .restore 16]

theorem wellFormed_of_decide {addrlen : ℕ} {daf : ℤ} {is : List CfaInstr}
    (h : ∀ i ∈ is, i.FixedFits addrlen ∧ i.IntFits) (hp : ∀ i ∈ is, i.ProductFits daf) :
    ∀ i ∈ is, i.WellFormed addrlen daf := fun i hi => ⟨(h i hi).1, (h i hi).2, hp i hi⟩

theorem example_holds (caf : BitVec 64) :
    HoldsFde (exampleSection exampleInitial exampleInstrs)
      (exampleFde caf exampleInitial exampleInstrs) exampleInitial exampleInstrs where
  addressSize := .inr rfl
  initial :=
    { holds := by
        show HoldsAt _ 16 (encodeList false true 8 exampleInitial)
        exact holdsAt_of_getD (by decide)
      length := rfl
      limit := by
        show 16 + (encodeList false true 8 exampleInitial).length < 2 ^ 64
        decide
      wellFormed := wellFormed_of_decide
        (show ∀ i ∈ exampleInitial, i.FixedFits 8 ∧ i.IntFits by decide)
        (by simp [exampleInitial, CfaInstr.ProductFits, exampleFde]) }
  instrs :=
    { holds := by
        show HoldsAt _ 128 (encodeList false true 8 exampleInstrs)
        exact holdsAt_of_getD (by decide)
      length := rfl
      limit := by
        show 128 + (encodeList false true 8 exampleInstrs).length < 2 ^ 64
        decide
      wellFormed := wellFormed_of_decide
        (show ∀ i ∈ exampleInstrs, i.FixedFits 8 ∧ i.IntFits by decide)
        (by simp [exampleInstrs, CfaInstr.ProductFits, exampleFde]) }
  stays := by simp [exampleInitial, CfaInstr.IsAdvance, CfaInstr.opcode]

theorem example_agrees :
    ∀ i ∈ exampleInitial ++ exampleInstrs, i.Agrees 1436 1 := by
  intro i hi
  refine ⟨?_, ?_, fun _ => rfl, ?_, ?_⟩ <;> revert i <;>
    simp [exampleInitial, exampleInstrs, CfaInstr.reg, CfaInstr.keyReg]

/-- The hypotheses of `decode_matches_table` are satisfiable, with a code alignment
factor of 1. -/
theorem decode_matches_example :
    DecodeMatches (exampleSection exampleInitial exampleInstrs)
      (exampleFde 1 exampleInitial exampleInstrs) exampleInitial exampleInstrs :=
  decode_matches_table (example_holds 1) example_agrees (by decide)

/-- The CFA rule that decoding leaves at an address, when it accepts the FDE. -/
def decodedCfa (fs : FrameSection) (fuel : ℕ) (fde : Fde) (pc : ℕ) : Option (Option Rule) :=
  (decode fs fuel fde).toOption.map fun res => ruleIn (res.rows.find pc) fs.cfaColumn

/-- **Decoding never reads the code alignment factor.** -/
theorem decode_caf (fs : FrameSection) (fuel : ℕ) (fde : Fde) (caf : BitVec 64) :
    decode fs fuel { fde with cie := { fde.cie with codeAlignmentFactor := caf } } =
      decode fs fuel fde := by
  unfold decode interpretInstructions
  rfl

/-- **The interpreter does not scale an advance.**  For every code alignment factor
above 1 the second row of the example starts later than `0x1001`, where decoding
starts it whatever the factor. -/
theorem advance_not_scaled {caf : BitVec 64} (hcaf : 1 < caf.toNat) :
    ¬DecodeMatches (exampleSection exampleInitial exampleInstrs)
      (exampleFde caf exampleInitial exampleInstrs) exampleInitial exampleInstrs := by
  intro hmatches
  have hcode : decodedCfa (exampleSection exampleInitial exampleInstrs) 7
      (exampleFde 1 exampleInitial exampleInstrs) 0x1001 = some (some (.register 7 16)) := by
    decide +kernel
  have htable : (fdeTableAt caf.toNat (-8) (fun _ => none) 0x1000 exampleInitial exampleInstrs
      0x1001).map TableRow.cfa = some (some (.register 7 8)) := by
    have hpc : 0x1001 < 0x1000 + 1 * caf.toNat := by omega
    simp only [fdeTableAt, exampleInitial, tableRun, List.foldlM_cons, List.foldlM_nil, tableStep,
      Option.bind_eq_bind, Option.bind_some, Option.pure_def, exampleInstrs, tableAt, if_pos hpc]
    rfl
  obtain ⟨row, hrow, hcfa⟩ := Option.map_eq_some_iff.1 htable
  obtain ⟨res, hres, hfound⟩ := Option.map_eq_some_iff.1 hcode
  have hdecode : decode (exampleSection exampleInitial exampleInstrs) 7
      (exampleFde caf exampleInitial exampleInstrs) = .ok res := by
    rw [← decode_caf _ _ _ caf] at hres
    exact toOption_eq_some.1 hres
  have hlow : (0x1000 : BitVec 64).toNat ≤ 0x1001 := by decide
  have hhigh : 0x1001 < (0x1000 : BitVec 64).toNat + (16 : BitVec 64).toNat := by decide
  have hrule := (hmatches 7 res hdecode 0x1001 row hlow hhigh hrow).1
  have hdiff := hfound.symm.trans (hrule.trans hcfa)
  cases hdiff

/-- The example with a code alignment factor of 4 meets every assumption but is not
decoded to its table. -/
theorem example_not_matched :
    HoldsFde (exampleSection exampleInitial exampleInstrs)
        (exampleFde 4 exampleInitial exampleInstrs) exampleInitial exampleInstrs ∧
      ¬DecodeMatches (exampleSection exampleInitial exampleInstrs)
        (exampleFde 4 exampleInitial exampleInstrs) exampleInitial exampleInstrs :=
  ⟨example_holds 4, advance_not_scaled (by decide)⟩

end Frame
end Dwarfpp
