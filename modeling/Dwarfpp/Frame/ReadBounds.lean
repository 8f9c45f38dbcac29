/-
# When decoding stays within its block

`frame_instrlist` is given the bytes `[first, limit)`.  Its readers check the
cursor against `limit` before they read (`readUleb128Log_reads` and its
companions), but two places do not: `DW_CFA_advance_loc1` takes its operand with
`*pos++`, and a block is skipped with `pos += len` whatever its length.  The
length has 64 bits, so a skip may even go back, to a byte before the block or to
one that was decoded already.

`decodesWithin_iff` says exactly when the decoder stays within the block and
ends: at every position it reaches the operand of `DW_CFA_advance_loc1` is
there, no skip has led before the block and no operation is undefined; and every
block fits, unless an assertion rejects the input.
-/

import Dwarfpp.Frame.ReadLog

namespace Dwarfpp
namespace Frame

open Lib

/-- The address lies in `[cur, limit)`. -/
def Inside (cur limit a : ℕ) : Prop := cur ≤ a ∧ a < limit

/-- An assertion failed or an operation is undefined. -/
def IsCheck (e : Fault) : Prop := e = .assertFailed ∨ e = .undefinedBehaviour

/-- A reader reads between the cursor and the limit and advances the cursor. -/
def Reads {α : Type} (cur limit : ℕ) : ReadLog (α × ℕ) → Prop :=
  Logged.Spec (Inside cur limit) (fun r => cur < r.2 ∧ r.2 ≤ limit) IsCheck

section Readers

variable {mem : Memory} {cur limit : ℕ}

theorem Inside.mono {cur' a : ℕ} (h : Inside cur' limit a) (hle : cur ≤ cur') :
    Inside cur limit a := ⟨hle.trans h.1, h.2⟩

/-- What is read after an operand is read behind it. -/
theorem Reads.bind {α β : Type} {q : β → Prop} {x : ReadLog (α × ℕ)} {f : α × ℕ → ReadLog β}
    (hx : Reads cur limit x) (hf : ∀ v pos, cur < pos → pos ≤ limit →
      Logged.Spec (Inside pos limit) q IsCheck (f (v, pos))) :
    Logged.Spec (Inside cur limit) q IsCheck (x >>= f) :=
  Logged.Spec.bind hx fun ⟨v, pos⟩ ⟨hlt, hle⟩ =>
    (hf v pos hlt hle).mono (fun _ ha => ha.mono hlt.le) fun _ h => h

theorem assertLog_spec {p : Prop} [Decidable p] {events : ℕ → Prop} :
    Logged.Spec events (fun _ => p) IsCheck (assertLog p) := by
  unfold assertLog
  by_cases h : p
  · rw [assert_ok h]
    exact .pure h
  · rw [assert_error h]
    exact .fail (.inl rfl)

theorem readUleb128LoopLog_reads {start fuel : ℕ} {working : BitVec 64}
    (hfuel : limit - cur < fuel) :
    Reads cur limit (readUleb128LoopLog mem start limit fuel cur working) := by
  induction fuel generalizing cur working with
  | zero => omega
  | succ fuel ih =>
    rw [readUleb128LoopLog]
    have hread (hlim : ¬limit ≤ cur) : Logged.Spec (Inside cur limit) (fun b => b = mem cur) IsCheck
        (readByte mem cur) := .event ⟨le_rfl, not_le.1 hlim⟩ rfl
    split_ifs with hlim hshift
    · exact .fail (.inl rfl)
    · exact (hread hlim).bind fun _ _ => .fail (.inr rfl)
    · refine (hread hlim).bind fun b _ => (hread hlim).bind fun b' _ => ?_
      split_ifs
      · refine (ih (by omega)).mono (fun _ ha => ha.mono (Nat.le_succ cur)) fun r hr => ?_
        exact ⟨(Nat.lt_succ_self cur).trans hr.1, hr.2⟩
      · exact .pure ⟨Nat.lt_succ_self cur, not_le.1 hlim⟩

theorem readUleb128Log_reads : Reads cur limit (readUleb128Log mem cur limit) := by
  refine Logged.Spec.bind (readUleb128LoopLog_reads (by omega)) fun r hr => ?_
  exact assertLog_spec.bind fun _ _ => .pure hr

theorem readSleb128Log_reads : Reads cur limit (readSleb128Log mem cur limit) :=
  Logged.Spec.bind readUleb128Log_reads fun _ hr => .pure hr

theorem wordLeLog_reads {p i n : ℕ} (h : p + i + n ≤ limit) :
    Logged.Spec (Inside (p + i) limit) (fun _ => True) IsCheck (wordLeLog mem p i n) := by
  induction n generalizing i with
  | zero => exact .pure trivial
  | succ n ih =>
    have hread : Logged.Spec (Inside (p + i) limit) (fun _ => True) IsCheck
        (readByte mem (p + i)) := .event ⟨le_rfl, by omega⟩ trivial
    refine hread.bind fun b _ => ?_
    refine Logged.Spec.bind ((ih (i := i + 1) (by omega)).mono
      (fun _ ha => ha.mono (by omega)) fun _ h => h) fun _ _ => .pure trivial

theorem wordBeLog_reads {p n : ℕ} (h : p + n ≤ limit) :
    Logged.Spec (Inside p limit) (fun _ => True) IsCheck (wordBeLog mem p n) := by
  induction n generalizing p with
  | zero => exact .pure trivial
  | succ n ih =>
    have hread : Logged.Spec (Inside p limit) (fun _ => True) IsCheck (readByte mem p) :=
      .event ⟨le_rfl, by omega⟩ trivial
    refine hread.bind fun b _ => ?_
    refine Logged.Spec.bind ((ih (p := p + 1) (by omega)).mono
      (fun _ ha => ha.mono (by omega)) fun _ h => h) fun _ _ => .pure trivial

theorem readLeLog_reads {n : ℕ} (hn : 0 < n) : Reads cur limit (readLeLog n mem cur limit) := by
  refine assertLog_spec.bind fun _ hle => ?_
  have hword : Logged.Spec (Inside (cur + 0) limit) (fun _ => True) IsCheck
      (wordLeLog mem cur 0 n) := wordLeLog_reads hle
  exact hword.bind fun _ _ => .pure ⟨by show cur < cur + n; omega, hle⟩

theorem readBeLog_reads {n : ℕ} (hn : 0 < n) : Reads cur limit (readBeLog n mem cur limit) :=
  assertLog_spec.bind fun _ hle => (wordBeLog_reads hle).bind fun _ _ =>
    .pure ⟨by show cur < cur + n; omega, hle⟩

theorem readAddrLog_reads {hostBig useHostByteOrder : Bool} {addrlen : ℕ} :
    Reads cur limit (readAddrLog hostBig addrlen mem cur limit useHostByteOrder) := by
  refine assertLog_spec.bind fun _ _ => ?_
  simp only
  split_ifs
  · exact readBeLog_reads (by norm_num)
  · exact readBeLog_reads (by norm_num)
  · exact readLeLog_reads (by norm_num)
  · exact readLeLog_reads (by norm_num)

end Readers

/-! ### One instruction -/

/-- Where an instruction leaves the cursor: behind it, or where the skip over its block
leads. -/
def Continues (inp : DecodeInput) (pos : ℕ) (r : FrameOp × ℕ) : Prop :=
  (r.1.fpExprBlock = 0 ∧ pos ≤ r.2) ∨
    (pos < r.1.fpExprBlock ∧ r.1.fpExprBlock ≤ inp.limit ∧
      r.2 = (r.1.fpExprBlock + r.1.fpOffsetOrBlockLen.toNat) % 2 ^ 64)

/-- The operands are read between the cursor and the limit. -/
def ReadsOperands (inp : DecodeInput) (pos : ℕ) : ReadLog (FrameOp × ℕ) → Prop :=
  Logged.Spec (Inside pos inp.limit) (Continues inp pos) IsCheck

section Operands

variable {inp : DecodeInput} {decoded : FrameOp} {pos : ℕ}

theorem fixedOffsetLog_reads {n : ℕ} (hn : 0 < n) (h : decoded.fpExprBlock = 0) :
    ReadsOperands inp pos (fixedOffsetLog inp decoded pos (readLeLog n) (readBeLog n)) := by
  unfold fixedOffsetLog
  split_ifs
  · exact (readLeLog_reads hn).bind fun _ _ hlt _ => .pure (.inl ⟨h, hlt.le⟩)
  · exact (readBeLog_reads hn).bind fun _ _ hlt _ => .pure (.inl ⟨h, hlt.le⟩)

theorem uleb128BlockLog_reads :
    ReadsOperands inp pos (uleb128BlockLog inp decoded pos) :=
  readUleb128Log_reads.bind fun _ _ hlt hle => .pure (.inr ⟨hlt, hle, rfl⟩)

/-- What continues behind a later cursor continues behind this one. -/
theorem Continues.mono {pos' : ℕ} {r : FrameOp × ℕ} (h : Continues inp pos' r) (hle : pos ≤ pos') :
    Continues inp pos r :=
  h.imp (fun h => ⟨h.1, hle.trans h.2⟩) fun h => ⟨hle.trans_lt h.1, h.2⟩

/-- An operand, then others. -/
theorem ReadsOperands.after {α : Type} {x : ReadLog (α × ℕ)} {f : α × ℕ → ReadLog (FrameOp × ℕ)}
    (hx : Reads pos inp.limit x)
    (hf : ∀ v pos', pos < pos' → ReadsOperands inp pos' (f (v, pos'))) :
    ReadsOperands inp pos (x >>= f) :=
  hx.bind fun v pos' hlt _ => (hf v pos' hlt).mono (fun _ h => h) fun _ h => h.mono hlt.le

theorem readsOperands_pure {op : FrameOp} (h : op.fpExprBlock = 0) :
    ReadsOperands inp pos (pure (op, pos)) := .pure (.inl ⟨h, le_rfl⟩)

theorem readsOperands_product {a b : BitVec 64} {f : BitVec 64 → FrameOp}
    (h : ∀ w, (f w).fpExprBlock = 0) :
    ReadsOperands inp pos (do
      let product ← Logged.lift (mulSigned a b)
      pure (f product, pos)) := by
  unfold mulSigned
  split_ifs
  · exact .pure (.inl ⟨h _, le_rfl⟩)
  · exact .fail (.inr rfl)

/-- **Every opcode but `DW_CFA_advance_loc1` checks before it reads.** -/
theorem decodeOperandsLog_reads {b : Byte} (h : decoded.fpExprBlock = 0)
    (hadvance : CfaOpcode.ofCode (opcodeFromByte b) = some .advanceLoc1 → pos < inp.limit) :
    ReadsOperands inp pos (decodeOperandsLog inp decoded pos b) := by
  unfold decodeOperandsLog
  cases hcode : CfaOpcode.ofCode (opcodeFromByte b) with
  | none => exact .fail (.inl rfl)
  | some c =>
    cases c
    case advanceLoc | restore | nop | rememberState | restoreState => exact readsOperands_pure h
    case offset =>
      refine .after readUleb128Log_reads fun _ _ _ => ?_
      exact assertLog_spec.bind fun _ _ => readsOperands_pure h
    case setLoc => exact .after readAddrLog_reads fun _ _ _ => readsOperands_pure h
    case advanceLoc1 =>
      have hread : Logged.Spec (Inside pos inp.limit) (fun _ => True) IsCheck
          (readByte inp.mem pos) := .event ⟨le_rfl, hadvance hcode⟩ trivial
      exact hread.bind fun _ _ => .pure (.inl ⟨h, Nat.le_succ pos⟩)
    case advanceLoc2 | advanceLoc4 => exact fixedOffsetLog_reads (by norm_num) h
    case restoreExtended | undefined | sameValue | defCfaRegister =>
      exact .after readUleb128Log_reads fun _ _ _ => readsOperands_pure h
    case offsetExtended | valOffsetSf | defCfa | register =>
      exact .after readUleb128Log_reads fun _ _ _ =>
        .after readUleb128Log_reads fun _ _ _ => readsOperands_pure h
    case offsetExtendedSf | defCfaSf | valOffset =>
      exact .after readUleb128Log_reads fun _ _ _ =>
        .after readSleb128Log_reads fun _ _ _ => readsOperands_product fun _ => h
    case defCfaOffset | gnuArgsSize =>
      exact .after readUleb128Log_reads fun _ _ _ => readsOperands_pure h
    case defCfaOffsetSf =>
      exact .after readSleb128Log_reads fun _ _ _ => readsOperands_product fun _ => h
    case defCfaExpression => exact uleb128BlockLog_reads
    case expression | valExpression =>
      exact .after readUleb128Log_reads fun _ _ _ => uleb128BlockLog_reads

end Operands

/-- The operand of `DW_CFA_advance_loc1`, if this is the opcode at `pos`, lies in the block. -/
def OperandInside (inp : DecodeInput) (pos : ℕ) : Prop :=
  CfaOpcode.ofCode (opcodeFromByte (inp.mem pos)) = some .advanceLoc1 → pos + 1 < inp.limit

section Instr

variable {inp : DecodeInput} {pos : ℕ}

theorem decodeInstrLog_reads (hpos : pos < inp.limit) (hop : OperandInside inp pos) :
    Logged.Spec (Inside pos inp.limit) (Continues inp (pos + 1)) IsCheck
      (decodeInstrLog inp pos) := by
  have hread : Logged.Spec (Inside pos inp.limit) (fun b => b = inp.mem pos) IsCheck
      (readByte inp.mem pos) := .event ⟨le_rfl, hpos⟩ rfl
  refine hread.bind fun b hb => ?_
  obtain rfl := hb
  exact (decodeOperandsLog_reads rfl hop).mono (fun _ ha => ha.mono (Nat.le_succ pos)) fun _ h => h

/-- The opcode is read. -/
theorem mem_log_opcode : pos ∈ (decodeInstrLog inp pos).log := by
  rw [decodeInstrLog, Logged.log_bind_ok (readByte_result inp.mem pos)]
  exact List.mem_append_left _ (List.mem_singleton.2 rfl)

/-- So is the byte after `DW_CFA_advance_loc1`. -/
theorem mem_log_advance
    (h : CfaOpcode.ofCode (opcodeFromByte (inp.mem pos)) = some .advanceLoc1) :
    pos + 1 ∈ (decodeInstrLog inp pos).log := by
  rw [decodeInstrLog, Logged.log_bind_ok (readByte_result inp.mem pos), decodeOperandsLog, h]
  exact List.mem_append_right _ (List.mem_singleton.2 rfl)

end Instr

/-! ### The run -/

/-- The decoder comes from one position to another. -/
inductive Reaches (inp : DecodeInput) : ℕ → ℕ → Prop
  | refl (pos : ℕ) : Reaches inp pos pos
  | step {pos pos' pos'' : ℕ} {op : FrameOp} (hpos : pos < inp.limit)
    (hstep : decodeInstr inp pos = .ok (op, pos')) (h : Reaches inp pos' pos'') :
    Reaches inp pos pos''

/-- The block that the record names, if any, lies in `[first, limit)`. -/
def BlockInside (first limit : ℕ) (op : FrameOp) : Prop :=
  op.fpExprBlock ≠ 0 →
    first ≤ op.fpExprBlock ∧ op.fpExprBlock + op.fpOffsetOrBlockLen.toNat ≤ limit

/-- **The claim on the decoder:** it ends; it reads only bytes of the block; if it completes,
the blocks it recorded lie in the block; otherwise an assertion failed. -/
def DecodesWithin (inp : DecodeInput) (first : ℕ) : Prop :=
  ∃ fuel, Logged.Spec (Inside first inp.limit) (fun r => ∀ op ∈ r.1, BlockInside first inp.limit op)
    (fun e => e = .assertFailed) (frameInstrlistLog inp fuel first)

/-- What the decoder does not check of the instruction at `pos`. -/
structure Unchecked (inp : DecodeInput) (first pos : ℕ) : Prop where
  start : first ≤ pos
  operand : OperandInside inp pos
  isDefined : decodeInstr inp pos ≠ .error .undefinedBehaviour

/-- The block of the instruction at `pos` ends by the limit. -/
def BlockFits (inp : DecodeInput) (pos : ℕ) : Prop :=
  ∀ op pos', decodeInstr inp pos = .ok (op, pos') → op.fpExprBlock ≠ 0 →
    op.fpExprBlock + op.fpOffsetOrBlockLen.toNat ≤ inp.limit

/-- Every instruction that the decoder comes to meets what is not checked, and either every
block fits or an assertion rejects one of the instructions. -/
structure Contained (inp : DecodeInput) (first : ℕ) : Prop where
  unchecked : ∀ pos, Reaches inp first pos → pos < inp.limit → Unchecked inp first pos
  blocks : (∀ pos, Reaches inp first pos → pos < inp.limit → BlockFits inp pos) ∨
    ∃ pos, Reaches inp first pos ∧ pos < inp.limit ∧ decodeInstr inp pos = .error .assertFailed

section Run

variable {inp : DecodeInput} {first pos : ℕ}

theorem Reaches.tail {pos' : ℕ} {op : FrameOp} (h : Reaches inp first pos) (hpos : pos < inp.limit)
    (hstep : decodeInstr inp pos = .ok (op, pos')) : Reaches inp first pos' := by
  induction h with
  | refl => exact .step hpos hstep (.refl _)
  | step hlt hfirst _ ih => exact .step hlt hfirst (ih hpos hstep)

theorem frameInstrlistLog_succ {fuel : ℕ} (hpos : pos < inp.limit) :
    frameInstrlistLog inp (fuel + 1) pos =
      (decodeInstrLog inp pos >>= fun r => frameInstrlistLog inp fuel r.2 >>= fun rest =>
        pure (r.1 :: rest.1, rest.2)) := by
  rw [frameInstrlistLog, if_pos hpos]

/-- A run that does not stop short takes a step. -/
theorem exists_fuel {fuel : ℕ} (hpos : pos < inp.limit)
    (hend : (frameInstrlistLog inp fuel pos).result ≠ .error .outOfSteps) :
    ∃ n, fuel = n + 1 := by
  cases fuel with
  | zero =>
    rw [frameInstrlistLog, if_pos hpos] at hend
    exact absurd rfl hend
  | succ n => exact ⟨n, rfl⟩

/-- A first instruction that decodes is followed by a run from where it leads. -/
theorem frameInstrlistLog_step (fuel : ℕ) {pos' : ℕ} {op : FrameOp} (hpos : pos < inp.limit)
    (hstep : decodeInstr inp pos = .ok (op, pos')) :
    (frameInstrlistLog inp (fuel + 1) pos).result =
        ((frameInstrlistLog inp fuel pos').result >>= fun rest => .ok (op :: rest.1, rest.2)) ∧
      (frameInstrlistLog inp fuel pos').log ⊆ (frameInstrlistLog inp (fuel + 1) pos).log := by
  have hfirst : (decodeInstrLog inp pos).result = .ok (op, pos') := by
    rw [decodeInstrLog_result, hstep]
  rw [frameInstrlistLog_succ hpos]
  constructor
  · rw [Logged.result_bind, hfirst, ok_bind, Logged.result_bind]
    rfl
  · rw [Logged.log_bind_ok hfirst]
    exact List.Subset.trans (Logged.log_subset_bind _ _) (List.subset_append_right _ _)

/-- **A run that does not stop short shows what the instructions it comes to do:** their
reads, their error, their record. -/
theorem Reaches.shown {fuel : ℕ} (h : Reaches inp first pos) (hpos : pos < inp.limit)
    (hend : (frameInstrlistLog inp fuel first).result ≠ .error .outOfSteps) :
    (decodeInstrLog inp pos).log ⊆ (frameInstrlistLog inp fuel first).log ∧
      (∀ e, decodeInstr inp pos = .error e →
        (frameInstrlistLog inp fuel first).result = .error e) ∧
      ∀ op pos' r, decodeInstr inp pos = .ok (op, pos') →
        (frameInstrlistLog inp fuel first).result = .ok r → op ∈ r.1 := by
  induction h generalizing fuel with
  | refl pos =>
    obtain ⟨fuel, rfl⟩ := exists_fuel hpos hend
    rw [frameInstrlistLog_succ hpos]
    refine ⟨Logged.log_subset_bind _ _, fun e he => ?_, fun op pos' r hop hr => ?_⟩
    · rw [Logged.result_bind, decodeInstrLog_result, he, error_bind]
    · rw [Logged.result_bind, decodeInstrLog_result, hop, ok_bind, Logged.result_bind] at hr
      obtain ⟨rest, -, hret⟩ := bind_eq_ok.1 hr
      obtain rfl := Except.ok.inj hret
      exact List.mem_cons_self
  | step hlt hfirst _ ih =>
    obtain ⟨fuel, rfl⟩ := exists_fuel hlt hend
    obtain ⟨hres, hlog⟩ := frameInstrlistLog_step fuel hlt hfirst
    rw [hres] at hend ⊢
    obtain ⟨hreads, herr, hops⟩ := ih hpos fun hout => hend (by rw [hout]; rfl)
    refine ⟨List.Subset.trans hreads hlog, fun e he => ?_, fun op pos' r hop hr => ?_⟩
    · rw [herr e he]
      rfl
    · obtain ⟨rest, hrest, hret⟩ := bind_eq_ok.1 hr
      obtain rfl := Except.ok.inj hret
      exact List.mem_cons_of_mem _ (hops op pos' rest hop hrest)

/-- An error of a run that does not stop short is that of an instruction it comes to. -/
theorem exists_rejected {fuel : ℕ} {e : Fault}
    (h : (frameInstrlistLog inp fuel first).result = .error e) (he : e ≠ .outOfSteps) :
    ∃ pos, Reaches inp first pos ∧ pos < inp.limit ∧ decodeInstr inp pos = .error e := by
  induction fuel generalizing first with
  | zero =>
    rw [frameInstrlistLog] at h
    split_ifs at h
    · exact absurd (Except.error.inj h).symm he
    · cases h
  | succ fuel ih =>
    by_cases hpos : first < inp.limit
    · cases hstep : decodeInstr inp first with
      | error e' =>
        rw [frameInstrlistLog_succ hpos, Logged.result_bind, decodeInstrLog_result, hstep] at h
        obtain rfl := Except.error.inj h
        exact ⟨first, .refl first, hpos, hstep⟩
      | ok r =>
        rw [(frameInstrlistLog_step fuel hpos hstep).1] at h
        cases hrest : (frameInstrlistLog inp fuel r.2).result with
        | error e' =>
          rw [hrest] at h
          obtain rfl := Except.error.inj h
          obtain ⟨pos, hr, hlt, hrej⟩ := ih hrest
          exact ⟨pos, .step hpos hstep hr, hlt, hrej⟩
        | ok rest =>
          rw [hrest] at h
          cases h
    · rw [frameInstrlistLog, if_neg hpos] at h
      cases h

/-- A decoder that stays within its block meets the condition. -/
theorem DecodesWithin.contained (h : DecodesWithin inp first) : Contained inp first := by
  obtain ⟨fuel, hrun⟩ := h
  have hend : (frameInstrlistLog inp fuel first).result ≠ .error .outOfSteps := fun hout => by
    cases hrun.error _ hout
  refine ⟨fun pos hr hpos => ?_, ?_⟩
  · obtain ⟨hreads, herr, -⟩ := hr.shown hpos hend
    refine ⟨(hrun.log pos (hreads mem_log_opcode)).1, fun hadv => ?_, fun hub => ?_⟩
    · exact (hrun.log _ (hreads (mem_log_advance hadv))).2
    · cases hrun.error _ (herr _ hub)
  · cases hres : (frameInstrlistLog inp fuel first).result with
    | ok r =>
      refine .inl fun pos hr hpos op pos' hop hblock => ?_
      obtain ⟨-, -, hops⟩ := hr.shown hpos hend
      exact (hrun.value r hres op (hops op pos' r hop hres) hblock).2
    | error e =>
      obtain rfl := hrun.error e hres
      exact .inr (exists_rejected hres (by simp))

/-- One instruction that meets what is not checked: its reads lie in the block. -/
theorem Unchecked.spec (h : Unchecked inp first pos) (hpos : pos < inp.limit) :
    Logged.Spec (Inside first inp.limit) (fun r => decodeInstr inp pos = .ok r ∧
      Continues inp (pos + 1) r) (fun e => decodeInstr inp pos = .error e ∧ e = .assertFailed)
      (decodeInstrLog inp pos) := by
  have hreads := decodeInstrLog_reads hpos h.operand
  have hres := decodeInstrLog_result inp pos
  refine ⟨fun a ha => (hreads.log a ha).mono h.start, fun r hr => ⟨hres ▸ hr, hreads.value r hr⟩,
    fun e he => ⟨hres ▸ he, (hreads.error e he).resolve_right ?_⟩⟩
  rintro rfl
  exact h.isDefined (hres ▸ he)

/-- Where an assertion rejects an instruction that the decoder comes to, it stops there. -/
theorem Reaches.rejected (h : Reaches inp first pos) (hpos : pos < inp.limit)
    (hrej : decodeInstr inp pos = .error .assertFailed) {low : ℕ}
    (hall : ∀ p, Reaches inp first p → p < inp.limit → Unchecked inp low p) :
    ∃ fuel, Logged.Spec (Inside low inp.limit) (fun _ => False) (fun e => e = .assertFailed)
      (frameInstrlistLog inp fuel first) := by
  induction h with
  | refl pos =>
    refine ⟨1, ?_⟩
    rw [frameInstrlistLog_succ hpos]
    refine Logged.Spec.bind (q := fun _ => False) ?_ fun _ hr => hr.elim
    have hspec := (hall pos (.refl pos) hpos).spec hpos
    refine ⟨hspec.log, fun r hr => ?_, fun e he => (hspec.error e he).2⟩
    have hok := (hspec.value r hr).1
    rw [hrej] at hok
    cases hok
  | step hlt hfirst _ ih =>
    obtain ⟨fuel, hrest⟩ := ih hpos hrej fun p hr hp => hall p (.step hlt hfirst hr) hp
    refine ⟨fuel + 1, ?_⟩
    rw [frameInstrlistLog_succ hlt]
    have hspec := (hall _ (.refl _) hlt).spec hlt
    refine Logged.Spec.bind (q := fun r => decodeInstr inp _ = .ok r)
      ⟨hspec.log, fun r hr => (hspec.value r hr).1, fun e he => (hspec.error e he).2⟩ fun r hr => ?_
    obtain rfl := Except.ok.inj (hfirst.symm.trans hr)
    exact hrest.bind fun _ hf => hf.elim

/-- Where every block fits, each instruction advances the cursor, and the decoder ends. -/
theorem spec_of_fits (hlimit : inp.limit < 2 ^ 64) {low : ℕ}
    (hall : ∀ p, Reaches inp first p → p < inp.limit → Unchecked inp low p)
    (hfits : ∀ p, Reaches inp first p → p < inp.limit → BlockFits inp p) {fuel : ℕ}
    (hr : Reaches inp first pos) (hfuel : inp.limit - pos ≤ fuel) :
    Logged.Spec (Inside low inp.limit) (fun r => ∀ op ∈ r.1, BlockInside low inp.limit op)
      (fun e => e = .assertFailed) (frameInstrlistLog inp fuel pos) := by
  induction fuel generalizing pos with
  | zero =>
    rw [frameInstrlistLog, if_neg (by omega)]
    exact .pure fun op hop => absurd hop List.not_mem_nil
  | succ fuel ih =>
    by_cases hpos : pos < inp.limit
    · rw [frameInstrlistLog_succ hpos]
      have hun := hall pos hr hpos
      have hspec := hun.spec hpos
      refine Logged.Spec.bind ⟨hspec.log, hspec.value, fun e he => (hspec.error e he).2⟩
        ?_
      rintro r ⟨hstep, hcont⟩
      have hblock := hfits pos hr hpos r.1 r.2 hstep
      have hstart := hun.start
      have hnext : pos < r.2 ∧ BlockInside low inp.limit r.1 := by
        obtain ⟨hnull, hle⟩ | ⟨hlt, hle, hskip⟩ := hcont
        · exact ⟨hle, fun hne => absurd hnull hne⟩
        · have hfit := hblock (by omega)
          rw [Nat.mod_eq_of_lt (by omega)] at hskip
          exact ⟨by omega, fun _ => ⟨by omega, hfit⟩⟩
      refine (ih (hr.tail hpos hstep) (by omega)).bind fun rest hrest => .pure fun op hop => ?_
      obtain rfl | hop := List.mem_cons.1 hop
      · exact hnext.2
      · exact hrest op hop
    · rw [frameInstrlistLog, if_neg hpos]
      exact .pure fun op hop => absurd hop List.not_mem_nil

/-- **When decoding stays within its block.**  The block ends inside the address space. -/
theorem decodesWithin_iff (hlimit : inp.limit < 2 ^ 64) :
    DecodesWithin inp first ↔ Contained inp first := by
  refine ⟨DecodesWithin.contained, fun ⟨hall, hblocks⟩ => ?_⟩
  obtain hfits | ⟨pos, hr, hpos, hrej⟩ := hblocks
  · exact ⟨inp.limit - first, spec_of_fits hlimit hall hfits (.refl first) le_rfl⟩
  · obtain ⟨fuel, hspec⟩ := hr.rejected hpos hrej hall
    exact ⟨fuel, hspec.mono (fun _ h => h) fun _ h => h.elim⟩

end Run

/-! ### Examples -/

/-- A little-endian block of the bytes `bs` at address 16, with the bytes `after` behind it. -/
def exampleBlock (bs after : List Byte) : DecodeInput where
  hostBig := false
  useHostByteOrder := true
  addrlen := 8
  daf := -8
  mem := memoryOf 16 (bs ++ after)
  limit := 16 + bs.length

/-- `DW_CFA_nop`, then `DW_CFA_advance_loc1` as the last byte: its operand is read from
behind the block. -/
theorem advance_reads_outside : ¬DecodesWithin (exampleBlock [0x00, 0x02] [0x05]) 16 := by
  intro h
  have hnop : decodeInstr (exampleBlock [0x00, 0x02] [0x05]) 16 = .ok (FrameOp.ofByte 0x00, 17) := by
    decide +kernel
  have hreach : Reaches (exampleBlock [0x00, 0x02] [0x05]) 16 17 := .step (by decide) hnop (.refl 17)
  have hopcode : CfaOpcode.ofCode (opcodeFromByte ((exampleBlock [0x00, 0x02] [0x05]).mem 17)) =
      some .advanceLoc1 := by
    decide
  have hinside := (h.contained.unchecked 17 hreach (by decide)).operand hopcode
  exact absurd hinside (by decide)

/-- With its operand in the block it is covered by `decodesWithin_iff`. -/
theorem decodesWithin_example :
    DecodesWithin (exampleBlock [0x00, 0x02, 0x05] []) 16 ↔
      Contained (exampleBlock [0x00, 0x02, 0x05] []) 16 :=
  decodesWithin_iff (by decide)

end Frame
end Dwarfpp
