/-
# The pieces of a location expression

`loc_expr::all_pieces`, `loc_expr::byte_pieces` and
`loc_expr::piece_for_byte_offset` (`include/dwarfpp/expr.hpp`, `src/expr.cpp`).
An iterator is a position in the sequence of operations.

The loops are followed along the chunks of the expression that its piece
operations end (`allPiecesLoop_join`, `bytePiecesLoop_join`).  An expression that
has no piece operation, or ends with one, is then cut into exactly its chunks,
each behind the bits of the earlier ones, and an offset is looked up in the
chunk it lands in (`allPieces_partition`).
-/

import Mathlib
import Dwarfpp.Basic
import Dwarfpp.Expr.Opcodes
import Dwarfpp.Lib.PrefixSum
import Dwarfpp.Lib.Run
import Dwarfpp.Lib.Chunks
import Dwarfpp.Lib.Word

namespace Dwarfpp
namespace Expr

open Lib
open Chunk (join join_nil join_cons)

/-- `DW_OP_bit_piece`, which the evaluator has no case for. -/
def bitPieceAtom : BitVec 8 := 0x9d

/-- `DW_OP_piece` or `DW_OP_bit_piece`. -/
def IsPieceOp (i : ExprInstr) : Prop := i.lrAtom = DwOp.piece.atom ∨ i.lrAtom = bitPieceAtom

instance : DecidablePred IsPieceOp := fun i =>
  inferInstanceAs (Decidable (i.lrAtom = DwOp.piece.atom ∨ i.lrAtom = bitPieceAtom))

/-- `lr_number * ((lr_atom == DW_OP_piece) ? 8 : 1)`. -/
def ExprInstr.pieceBits (i : ExprInstr) : BitVec 64 :=
  i.lrNumber * (if i.lrAtom = DwOp.piece.atom then 8 else 1)

/-- `loc_expr::piece`. -/
structure Piece where
  first : ℕ
  second : ℕ
  bitOffset : BitVec 64
  implicitPiece : Bool
  deriving DecidableEq, Repr

namespace Piece

variable (l : List ExprInstr) (p : Piece)

/-- `copy()`. -/
def copy : List ExprInstr := (l.drop p.first).take (p.second - p.first)

/-- `copy_as_if_whole()`. -/
def copyAsIfWhole : Except Fault (List ExprInstr) :=
  if p.implicitPiece then .ok (p.copy l)
  else do
    assert (p.first < p.second)
    return (l.drop p.first).take (p.second - 1 - p.first)

/-- `size_in_bits()`. -/
def sizeInBits : Except Fault (Option (BitVec 64)) :=
  if p.implicitPiece then .ok none
  else match l[p.second - 1]? with
    | some pieceOp => do
      assert (IsPieceOp pieceOp)
      return some pieceOp.pieceBits
    | none => .error .undefinedBehaviour

/-- `size_in_bytes()`. -/
def sizeInBytes : Except Fault (Option (BitVec 64)) := do
  match ← p.sizeInBits l with
  | none => return none
  | some bits => return some (if bits % 8 = 0 then bits / 8 else 1 + bits / 8)

end Piece

/-- The variables of `all_pieces`. -/
structure PieceScan where
  doneUpToHere : ℕ
  doneThisManyBits : BitVec 64
  ps : List Piece

/-- The loop of `all_pieces`, over the operations from the position on. -/
def allPiecesLoop : List ExprInstr → ℕ → PieceScan → PieceScan
  | [], _, s => s
  | i :: rest, pos, s =>
    allPiecesLoop rest (pos + 1)
      (if IsPieceOp i then
        { doneUpToHere := pos + 1
          doneThisManyBits := s.doneThisManyBits + i.pieceBits
          ps := s.ps ++ [⟨s.doneUpToHere, pos + 1, s.doneThisManyBits, false⟩] }
      else s)

/-- `all_pieces()`. -/
def allPieces (l : List ExprInstr) : Except Fault (List Piece) := do
  let s := allPiecesLoop l 0 ⟨0, 0, []⟩
  assert (s.doneUpToHere = l.length ∨ s.doneThisManyBits = 0)
  return if s.doneThisManyBits = 0 then s.ps ++ [⟨0, l.length, 0, true⟩] else s.ps

/-- The variables of `byte_pieces`. -/
structure BytePieceScan where
  doneUpToHere : ℕ
  doneThisManyBytes : BitVec 64
  ps : List (List ExprInstr × BitVec 64)

/-- The loop of `byte_pieces` over the operations of `l` from the position on. -/
def bytePiecesLoop (l : List ExprInstr) :
    List ExprInstr → ℕ → BytePieceScan → Except Fault BytePieceScan
  | [], _, s => .ok s
  | i :: rest, pos, s => do
    let s :=
      if i.lrAtom = DwOp.piece.atom then
        { doneUpToHere := pos + 1
          doneThisManyBytes := s.doneThisManyBytes + i.lrNumber
          ps := s.ps ++ [((l.drop s.doneUpToHere).take (pos - s.doneUpToHere), i.lrNumber)] }
      else s
    assert (i.lrAtom ≠ bitPieceAtom)
    bytePiecesLoop l rest (pos + 1) s

/-- `byte_pieces()`. -/
def bytePieces (l : List ExprInstr) : Except Fault (List (List ExprInstr × BitVec 64)) := do
  let s ← bytePiecesLoop l l 0 ⟨0, 0, []⟩
  assert (s.doneUpToHere = l.length ∨ s.doneThisManyBytes = 0)
  return if s.doneThisManyBytes = 0 then s.ps ++ [(l, 0)] else s.ps

/-- The loop of `piece_for_byte_offset`. -/
def pieceForByteOffsetLoop (offset : BitVec 64) :
    List (List ExprInstr × BitVec 64) → BitVec 64 → Except Fault (List ExprInstr)
  | [], _ => .error .noEntry
  | i :: ps, curOff =>
    if i.2 = 0 then .ok i.1
    else if curOff ≤ offset ∧ offset < curOff + i.2 then .ok i.1
    else pieceForByteOffsetLoop offset ps (curOff + i.2)

/-- `piece_for_byte_offset(offset)`. -/
def pieceForByteOffset (l : List ExprInstr) (offset : BitVec 64) :
    Except Fault (List ExprInstr) := do
  let ps ← bytePieces l
  pieceForByteOffsetLoop offset ps 0

/-- The chunks that piece operations end. -/
abbrev PieceChunk := Chunk IsPieceOp

/-- The number of bits that a piece operation is for. -/
def ExprInstr.pieceSize (i : ExprInstr) : ℕ :=
  i.lrNumber.toNat * (if i.lrAtom = DwOp.piece.atom then 8 else 1)

/-- No piece operation, or one at the end; and sizes in bits that are positive and whose sum does
not overflow. -/
structure Sliceable (l : List ExprInstr) : Prop where
  ends : (∀ i ∈ l, ¬IsPieceOp i) ∨ ∃ i, l.getLast? = some i ∧ IsPieceOp i
  positive : ∀ i ∈ l, IsPieceOp i → 0 < i.lrNumber.toNat
  sum_lt : ((l.filter (IsPieceOp ·)).map ExprInstr.pieceSize).sum < 2 ^ 64

section Loops

/-- The pieces of chunks from a position and a bit offset on. -/
def piecesOf : ℕ → BitVec 64 → List PieceChunk → List Piece
  | _, _, [] => []
  | pos, bits, s :: cs =>
    ⟨pos, pos + s.list.length, bits, false⟩ ::
      piecesOf (pos + s.list.length) (bits + s.last.pieceBits) cs

/-- The bits of chunks. -/
def chunkBits (cs : List PieceChunk) : BitVec 64 :=
  (cs.map fun s => s.last.pieceBits).sum

theorem allPiecesLoop_plain {body : List ExprInstr} (h : ∀ i ∈ body, ¬IsPieceOp i)
    (rest : List ExprInstr) (pos : ℕ) (s : PieceScan) :
    allPiecesLoop (body ++ rest) pos s = allPiecesLoop rest (pos + body.length) s := by
  induction body generalizing pos with
  | nil => rfl
  | cons i body ih =>
    rw [List.cons_append, allPiecesLoop, if_neg (h i List.mem_cons_self),
      ih fun j hj => h j (List.mem_cons_of_mem _ hj), List.length_cons, Nat.add_right_comm,
      Nat.add_assoc]

/-- **The loop cuts off the chunks one by one.** -/
theorem allPiecesLoop_join (cs : List PieceChunk) {tail : List ExprInstr}
    (htail : ∀ i ∈ tail, ¬IsPieceOp i) (pos : ℕ) (bits : BitVec 64) (ps : List Piece) :
    allPiecesLoop (join cs ++ tail) pos ⟨pos, bits, ps⟩ =
      ⟨pos + (join cs).length, bits + chunkBits cs, ps ++ piecesOf pos bits cs⟩ := by
  induction cs generalizing pos bits ps with
  | nil =>
    have h := allPiecesLoop_plain htail [] pos ⟨pos, bits, ps⟩
    rw [List.append_nil] at h
    rw [join_nil, List.nil_append, h]
    simp [allPiecesLoop, chunkBits, piecesOf]
  | cons s cs ih =>
    have hlast : pos + s.body.length + 1 = pos + s.list.length := by
      rw [Chunk.length_list, Nat.add_assoc]
    rw [join_cons, Chunk.list, List.append_assoc, List.append_assoc,
      allPiecesLoop_plain s.plain, List.singleton_append, allPiecesLoop, if_pos s.ends, hlast, ih]
    simp only [piecesOf, chunkBits, List.map_cons, List.sum_cons, List.append_assoc,
      List.singleton_append, List.length_append, Nat.add_assoc, BitVec.add_assoc]
    simp [Chunk.list, Nat.add_assoc, Nat.add_comm 1]

/-- The result of `byte_pieces` on chunks. -/
def bytesOf (cs : List PieceChunk) : List (List ExprInstr × BitVec 64) :=
  cs.map fun s => (s.body, s.last.lrNumber)

/-- The bytes of chunks. -/
def chunkBytes (cs : List PieceChunk) : BitVec 64 := (cs.map fun s => s.last.lrNumber).sum

theorem lrAtom_eq_piece {i : ExprInstr} (h : IsPieceOp i) (hbit : i.lrAtom ≠ bitPieceAtom) :
    i.lrAtom = DwOp.piece.atom := h.resolve_right hbit

theorem bytePiecesLoop_plain {l body : List ExprInstr} (h : ∀ i ∈ body, ¬IsPieceOp i)
    (rest : List ExprInstr) (pos : ℕ) (s : BytePieceScan) :
    bytePiecesLoop l (body ++ rest) pos s = bytePiecesLoop l rest (pos + body.length) s := by
  induction body generalizing pos with
  | nil => rfl
  | cons i body ih =>
    have hi := not_or.1 (h i List.mem_cons_self)
    rw [List.cons_append, bytePiecesLoop, if_neg hi.1, assert_ok hi.2, ok_bind,
      ih fun j hj => h j (List.mem_cons_of_mem _ hj), List.length_cons, Nat.add_right_comm,
      Nat.add_assoc]

/-- **So does the loop of `byte_pieces`, where there is no `DW_OP_bit_piece`.** -/
theorem bytePiecesLoop_join {l : List ExprInstr} (cs : List PieceChunk)
    {tail : List ExprInstr} (htail : ∀ i ∈ tail, ¬IsPieceOp i)
    (hbit : ∀ i ∈ join cs, i.lrAtom ≠ bitPieceAtom) (pos : ℕ) (bytes : BitVec 64)
    (ps : List (List ExprInstr × BitVec 64)) (hl : l.drop pos = join cs ++ tail) :
    bytePiecesLoop l (join cs ++ tail) pos ⟨pos, bytes, ps⟩ =
      .ok ⟨pos + (join cs).length, bytes + chunkBytes cs, ps ++ bytesOf cs⟩ := by
  induction cs generalizing pos bytes ps with
  | nil =>
    have h := bytePiecesLoop_plain (l := l) htail [] pos ⟨pos, bytes, ps⟩
    rw [List.append_nil] at h
    rw [join_nil, List.nil_append, h]
    simp [bytePiecesLoop, chunkBytes, bytesOf]
  | cons s cs ih =>
    have hlast : pos + s.body.length + 1 = pos + s.list.length := by
      rw [Chunk.length_list, Nat.add_assoc]
    rw [join_cons, List.append_assoc] at hl
    have hmarker : s.last.lrAtom ≠ bitPieceAtom :=
      hbit _ (Chunk.last_mem_join List.mem_cons_self)
    have hslice : (l.drop pos).take (pos + s.body.length - pos) = s.body := by
      rw [hl, Nat.add_sub_cancel_left, Chunk.list, List.append_assoc, List.take_left]
    have hrest := ih (fun i hi => hbit i (by simp [hi])) (pos + s.list.length)
      (bytes + s.last.lrNumber) (ps ++ [(s.body, s.last.lrNumber)]) (drop_of_drop_eq_append hl)
    rw [join_cons, Chunk.list, List.append_assoc, List.append_assoc,
      bytePiecesLoop_plain s.plain, List.singleton_append, bytePiecesLoop,
      if_pos (lrAtom_eq_piece s.ends hmarker), assert_ok hmarker, ok_bind, hlast, hslice, hrest]
    simp [Chunk.list, chunkBytes, bytesOf, Nat.add_assoc, Nat.add_comm 1, BitVec.add_assoc]

end Loops

section Slices

variable {l rest : List ExprInstr} {s : PieceChunk} {pos : ℕ} {bits : BitVec 64}

theorem copy_piece (hl : l.drop pos = s.list ++ rest) :
    Piece.copy l ⟨pos, pos + s.list.length, bits, false⟩ = s.list := by
  rw [Piece.copy, hl, Nat.add_sub_cancel_left, List.take_left]

theorem copyAsIfWhole_piece (hl : l.drop pos = s.list ++ rest) :
    Piece.copyAsIfWhole l ⟨pos, pos + s.list.length, bits, false⟩ = .ok s.body := by
  have hlen : pos + s.list.length - 1 - pos = s.body.length := by
    rw [Chunk.length_list]
    omega
  have hlt : pos < pos + s.list.length := by
    rw [Chunk.length_list]
    omega
  show (do
    assert (pos < pos + s.list.length)
    return (l.drop pos).take (pos + s.list.length - 1 - pos)) = _
  rw [assert_ok hlt, ok_bind, hl, hlen, Chunk.list, List.append_assoc, List.take_left]
  rfl

theorem sizeInBits_piece (hl : l.drop pos = s.list ++ rest) :
    Piece.sizeInBits l ⟨pos, pos + s.list.length, bits, false⟩ =
      .ok (some s.last.pieceBits) := by
  have hlast : l[pos + s.list.length - 1]? = some s.last := by
    rw [Chunk.length_list, ← Nat.add_assoc, Nat.add_sub_cancel, ← List.getElem?_drop, hl,
      Chunk.list, List.append_assoc, List.getElem?_append_right (Nat.le_refl _), Nat.sub_self]
    rfl
  show (match l[pos + s.list.length - 1]? with
    | some pieceOp => do
      assert (IsPieceOp pieceOp)
      return some pieceOp.pieceBits
    | none => .error .undefinedBehaviour) = _
  rw [hlast]
  show (do
    assert (IsPieceOp s.last)
    return some s.last.pieceBits) = _
  rw [assert_ok s.ends]
  rfl

/-- The intervals of the pieces hold the operations of the chunks. -/
theorem flatMap_copy_piecesOf (cs : List PieceChunk) {pos : ℕ} (bits : BitVec 64)
    (hl : l.drop pos = join cs ++ rest) :
    (piecesOf pos bits cs).flatMap (Piece.copy l) = join cs := by
  induction cs generalizing pos bits with
  | nil => rfl
  | cons s cs ih =>
    rw [join_cons, List.append_assoc] at hl
    rw [piecesOf, List.flatMap_cons, copy_piece hl, ih _ (drop_of_drop_eq_append hl),
      join_cons]

theorem mapM_sizeInBits_piecesOf (cs : List PieceChunk) {pos : ℕ} (bits : BitVec 64)
    (hl : l.drop pos = join cs ++ rest) :
    (piecesOf pos bits cs).mapM (Piece.sizeInBits l) =
      .ok (cs.map fun s => some s.last.pieceBits) := by
  induction cs generalizing pos bits with
  | nil => rfl
  | cons s cs ih =>
    rw [join_cons, List.append_assoc] at hl
    rw [piecesOf, List.mapM_cons, sizeInBits_piece hl, ok_bind,
      ih _ (drop_of_drop_eq_append hl)]
    rfl

/-- A piece lies behind the bits of the earlier ones. -/
theorem bitOffset_piecesOf (cs : List PieceChunk) (pos : ℕ) (bits : BitVec 64) (k : ℕ)
    (hk : k < (piecesOf pos bits cs).length) :
    (piecesOf pos bits cs)[k].bitOffset = bits + chunkBits (cs.take k) := by
  induction cs generalizing pos bits k with
  | nil => exact absurd hk (Nat.not_lt_zero _)
  | cons s cs ih =>
    cases k with
    | zero => simp [piecesOf, chunkBits]
    | succ k =>
      have hrest := ih (pos + s.list.length) (bits + s.last.pieceBits) k
        (by simpa [piecesOf] using hk)
      simpa [piecesOf, chunkBits, BitVec.add_assoc] using hrest

end Slices

section Sizes

theorem pieceBits_toNat {i : ExprInstr} (h : i.pieceSize < 2 ^ 64) :
    i.pieceBits.toNat = i.pieceSize := by
  rw [ExprInstr.pieceBits, BitVec.toNat_mul, ExprInstr.pieceSize] at *
  split_ifs at h ⊢ with hpiece
  · exact Nat.mod_eq_of_lt h
  · exact Nat.mod_eq_of_lt h

variable {cs : List PieceChunk}

/-- The sizes of chunks. -/
def chunkSizes (cs : List PieceChunk) : List ℕ := cs.map (·.last.pieceSize)

theorem pieceBits_map_toNat (h : (chunkSizes cs).sum < 2 ^ 64) :
    (cs.map fun s => s.last.pieceBits).map BitVec.toNat = chunkSizes cs := by
  rw [List.map_map]
  refine List.map_congr_left fun s hs => pieceBits_toNat ?_
  have hle : s.last.pieceSize ≤ (chunkSizes cs).sum :=
    List.le_sum_of_mem (List.mem_map.2 ⟨s, hs, rfl⟩)
  omega

theorem chunkBits_toNat (h : (chunkSizes cs).sum < 2 ^ 64) :
    (chunkBits cs).toNat = (chunkSizes cs).sum := by
  have hmap := pieceBits_map_toNat h
  rw [chunkBits, toNat_sum (by rw [hmap]; exact h), hmap]

theorem lrNumber_le_pieceSize (i : ExprInstr) : i.lrNumber.toNat ≤ i.pieceSize := by
  rw [ExprInstr.pieceSize]
  split_ifs
  · exact Nat.le_mul_of_pos_right _ (by decide)
  · exact Nat.le_of_eq (Nat.mul_one _).symm

/-- The bytes do not overflow where the bits do not. -/
theorem bytes_sum_le (cs : List PieceChunk) :
    ((bytesOf cs).map (·.2.toNat)).sum ≤ (chunkSizes cs).sum := by
  rw [bytesOf, chunkSizes, List.map_map]
  exact List.sum_le_sum fun s _ => lrNumber_le_pieceSize s.last

theorem chunkBytes_toNat (h : (chunkSizes cs).sum < 2 ^ 64) :
    (chunkBytes cs).toNat = ((bytesOf cs).map (·.2.toNat)).sum := by
  have hmap : (cs.map fun s => s.last.lrNumber).map BitVec.toNat =
      (bytesOf cs).map (·.2.toNat) := by
    rw [bytesOf, List.map_map, List.map_map]
    rfl
  have hle := bytes_sum_le cs
  rw [chunkBytes, toNat_sum (by rw [hmap]; omega), hmap]

/-- A `DW_OP_piece` of so many bits is one of so many bytes. -/
theorem sizeInBytes_of_piece {n : BitVec 64} (h : n.toNat * 8 < 2 ^ 64) :
    (if n * 8 % 8 = 0 then n * 8 / 8 else 1 + n * 8 / 8) = n := by
  have hmul : (n * 8).toNat = n.toNat * 8 := by
    rw [BitVec.toNat_mul]
    exact Nat.mod_eq_of_lt h
  have hmod : n * 8 % 8 = 0 := by
    apply BitVec.eq_of_toNat_eq
    rw [BitVec.toNat_umod, hmul]
    exact Nat.mul_mod_left _ _
  rw [if_pos hmod]
  apply BitVec.eq_of_toNat_eq
  rw [BitVec.toNat_udiv, hmul]
  exact Nat.mul_div_cancel _ (by decide)

end Sizes

section Lookup

variable {o curOff : BitVec 64}

/-- One round of the lookup: is the offset in the piece that begins at `cur_off`? -/
theorem covers_iff {size : BitVec 64} (hcur : curOff.toNat ≤ o.toNat)
    (hsum : curOff.toNat + size.toNat < 2 ^ 64) :
    (curOff ≤ o ∧ o < curOff + size) ↔ o.toNat - curOff.toNat < size.toNat := by
  have hadd : (curOff + size).toNat = curOff.toNat + size.toNat := by
    rw [BitVec.toNat_add]
    exact Nat.mod_eq_of_lt hsum
  rw [BitVec.le_def, BitVec.lt_def, hadd]
  omega

/-- **The lookup finds the piece in which the offset lands.** -/
theorem pieceForByteOffsetLoop_lands {ps : List (List ExprInstr × BitVec 64)}
    (hpos : ∀ p ∈ ps, p.2 ≠ 0) (hcur : curOff.toNat ≤ o.toNat)
    (hsum : curOff.toNat + (ps.map (·.2.toNat)).sum < 2 ^ 64) {k : ℕ}
    (h : Lands (ps.map (·.2.toNat)) (o.toNat - curOff.toNat) k) :
    ∃ hk : k < ps.length, pieceForByteOffsetLoop o ps curOff = .ok ps[k].1 := by
  induction ps generalizing curOff k with
  | nil => exact absurd h Lands.not_nil
  | cons p ps ih =>
    rw [List.map_cons, List.sum_cons] at hsum
    have hadd : (curOff + p.2).toNat = curOff.toNat + p.2.toNat := by
      rw [BitVec.toNat_add]
      exact Nat.mod_eq_of_lt (by omega)
    have hcovers : curOff ≤ o ∧ o < curOff + p.2 ↔ o.toNat - curOff.toNat < p.2.toNat :=
      covers_iff hcur (by omega)
    rw [pieceForByteOffsetLoop, if_neg (hpos p List.mem_cons_self)]
    cases k with
    | zero =>
      rw [if_pos (hcovers.2 (Lands.cons_zero.1 h))]
      exact ⟨Nat.succ_pos _, rfl⟩
    | succ k =>
      have hle : p.2.toNat ≤ o.toNat - curOff.toNat := (Lands.cons_succ.1 h).1
      have hrest : Lands (ps.map (·.2.toNat)) (o.toNat - curOff.toNat - p.2.toNat) k :=
        (Lands.cons_succ.1 h).2
      rw [if_neg fun hc => absurd (hcovers.1 hc) (Nat.not_lt.2 hle)]
      rw [Nat.sub_sub, ← hadd] at hrest
      obtain ⟨hk, hfound⟩ := ih (fun q hq => hpos q (List.mem_cons_of_mem _ hq)) (by omega)
        (by omega) hrest
      exact ⟨Nat.succ_lt_succ hk, hfound⟩

/-- Beyond the last piece there is none. -/
theorem pieceForByteOffsetLoop_beyond {ps : List (List ExprInstr × BitVec 64)}
    (hpos : ∀ p ∈ ps, p.2 ≠ 0) (hcur : curOff.toNat ≤ o.toNat)
    (hsum : curOff.toNat + (ps.map (·.2.toNat)).sum < 2 ^ 64)
    (h : (ps.map (·.2.toNat)).sum ≤ o.toNat - curOff.toNat) :
    pieceForByteOffsetLoop o ps curOff = .error .noEntry := by
  induction ps generalizing curOff with
  | nil => rfl
  | cons p ps ih =>
    rw [List.map_cons, List.sum_cons] at hsum h
    have hadd : (curOff + p.2).toNat = curOff.toNat + p.2.toNat := by
      rw [BitVec.toNat_add]
      exact Nat.mod_eq_of_lt (by omega)
    rw [pieceForByteOffsetLoop, if_neg (hpos p List.mem_cons_self),
      if_neg fun hc => absurd ((covers_iff hcur (by omega)).1 hc) (by omega)]
    exact ih (fun q hq => hpos q (List.mem_cons_of_mem _ hq)) (by omega) (by omega) (by omega)

end Lookup

/-- The operations of a piece without the one that ends it, and its size in bytes, or 0 for the
whole object. -/
def Piece.asBytes (l : List ExprInstr) (p : Piece) : Except Fault (List ExprInstr × BitVec 64) := do
  let ops ← p.copyAsIfWhole l
  let size ← p.sizeInBytes l
  return (ops, size.getD 0)

/-- The pieces of an expression partition it. -/
structure Partitions (l : List ExprInstr) (ps : List Piece) : Prop where
  /-- The intervals, in order, make up the expression. -/
  concat : ps.flatMap (Piece.copy l) = l
  /-- Each piece lies behind the bits of the earlier ones. -/
  bitOffset : ∃ sizes, ps.mapM (Piece.sizeInBits l) = .ok sizes ∧ ∀ k (hk : k < ps.length),
    ps[k].bitOffset.toNat = ((sizes.take k).map fun size => (size.getD 0).toNat).sum
  /-- A piece is implicit just if no operation ends one. -/
  implicitPiece : ∀ p ∈ ps, p.implicitPiece = true ↔ ∀ i ∈ l, ¬IsPieceOp i

/-- An offset is looked up in the piece it lies in. -/
structure LooksUp (l : List ExprInstr) (ps : List (List ExprInstr × BitVec 64)) : Prop where
  whole : (∀ i ∈ l, ¬IsPieceOp i) → ∀ o, pieceForByteOffset l o = .ok l
  found : (∃ i ∈ l, IsPieceOp i) → ∀ o : BitVec 64, o.toNat < (ps.map (·.2.toNat)).sum →
    ∃ k, ∃ hk : k < ps.length, pieceForByteOffset l o = .ok ps[k].1 ∧
      ∀ j, Lands (ps.map (·.2.toNat)) o.toNat j ↔ j = k
  beyond : (∃ i ∈ l, IsPieceOp i) → ∀ o : BitVec 64, (ps.map (·.2.toNat)).sum ≤ o.toNat →
    pieceForByteOffset l o = .error .noEntry

section Partition

variable {l : List ExprInstr}

/-- An expression without piece operations is one implicit piece. -/
theorem allPieces_plain (h : ∀ i ∈ l, ¬IsPieceOp i) :
    allPieces l = .ok [⟨0, l.length, 0, true⟩] := by
  have hloop : allPiecesLoop l 0 ⟨0, 0, []⟩ = ⟨0, 0, []⟩ := by
    simpa [chunkBits, piecesOf] using allPiecesLoop_join [] h 0 0 []
  rw [allPieces, hloop]
  dsimp only
  rw [assert_ok (.inr rfl)]
  rfl

theorem bytePieces_plain (h : ∀ i ∈ l, ¬IsPieceOp i) : bytePieces l = .ok [(l, 0)] := by
  have hloop : bytePiecesLoop l l 0 ⟨0, 0, []⟩ = .ok ⟨0, 0, []⟩ := by
    simpa [chunkBytes, bytesOf] using
      bytePiecesLoop_join [] h (fun i hi => absurd hi List.not_mem_nil) 0 0 [] (l := l) rfl
  rw [bytePieces, hloop, ok_bind]
  dsimp only
  rw [assert_ok (.inr rfl)]
  rfl

variable {cs : List PieceChunk}

/-- One that ends with a piece operation is the chunks these cut off. -/
theorem allPieces_join (hpos : 0 < (chunkSizes cs).sum) (hsum : (chunkSizes cs).sum < 2 ^ 64) :
    allPieces (join cs) = .ok (piecesOf 0 0 cs) := by
  have hloop : allPiecesLoop (join cs) 0 ⟨0, 0, []⟩ =
      ⟨(join cs).length, chunkBits cs, piecesOf 0 0 cs⟩ := by
    simpa using allPiecesLoop_join cs (fun i hi => absurd hi List.not_mem_nil) 0 0 []
  have hne : chunkBits cs ≠ 0 := by
    intro hzero
    have htoNat := chunkBits_toNat hsum
    rw [hzero] at htoNat
    exact hpos.ne htoNat
  rw [allPieces, hloop]
  dsimp only
  rw [assert_ok (.inl rfl), ok_bind, if_neg hne]
  rfl

theorem bytePieces_join (hbit : ∀ i ∈ join cs, i.lrAtom ≠ bitPieceAtom)
    (hpos : 0 < ((bytesOf cs).map (·.2.toNat)).sum) (hsum : (chunkSizes cs).sum < 2 ^ 64) :
    bytePieces (join cs) = .ok (bytesOf cs) := by
  have hloop : bytePiecesLoop (join cs) (join cs) 0 ⟨0, 0, []⟩ =
      .ok ⟨(join cs).length, chunkBytes cs, bytesOf cs⟩ := by
    have hjoin : (join cs).drop 0 = join cs ++ [] := (List.append_nil _).symm
    have h := bytePiecesLoop_join cs (fun i hi => absurd hi List.not_mem_nil) hbit 0 0 [] hjoin
    simpa using h
  have hne : chunkBytes cs ≠ 0 := by
    intro hzero
    have htoNat := chunkBytes_toNat hsum
    rw [hzero] at htoNat
    exact hpos.ne htoNat
  rw [bytePieces, hloop, ok_bind]
  dsimp only
  rw [assert_ok (.inl rfl), ok_bind, if_neg hne]
  rfl

theorem asBytes_piece {rest : List ExprInstr} {s : PieceChunk} {pos : ℕ} {bits : BitVec 64}
    (hl : l.drop pos = s.list ++ rest) (hbit : s.last.lrAtom ≠ bitPieceAtom)
    (hsize : s.last.pieceSize < 2 ^ 64) :
    Piece.asBytes l ⟨pos, pos + s.list.length, bits, false⟩ = .ok (s.body, s.last.lrNumber) := by
  have hatom := lrAtom_eq_piece s.ends hbit
  rw [ExprInstr.pieceSize, if_pos hatom] at hsize
  rw [Piece.asBytes, copyAsIfWhole_piece hl, ok_bind, Piece.sizeInBytes, sizeInBits_piece hl,
    ok_bind, ExprInstr.pieceBits, if_pos hatom]
  dsimp only
  rw [sizeInBytes_of_piece hsize]
  rfl

/-- **The pieces are those of `byte_pieces`.** -/
theorem mapM_asBytes_piecesOf {rest : List ExprInstr} (cs : List PieceChunk) {pos : ℕ}
    (bits : BitVec 64) (hl : l.drop pos = join cs ++ rest)
    (hbit : ∀ i ∈ join cs, i.lrAtom ≠ bitPieceAtom) (hsum : (chunkSizes cs).sum < 2 ^ 64) :
    (piecesOf pos bits cs).mapM (Piece.asBytes l) = .ok (bytesOf cs) := by
  induction cs generalizing pos bits with
  | nil => rfl
  | cons s cs ih =>
    rw [join_cons, List.append_assoc] at hl
    have hsizes : (chunkSizes (s :: cs)).sum = s.last.pieceSize + (chunkSizes cs).sum := rfl
    rw [piecesOf, List.mapM_cons, asBytes_piece hl
      (hbit _ (Chunk.last_mem_join List.mem_cons_self)) (by omega), ok_bind,
      ih _ (drop_of_drop_eq_append hl) (fun i hi => hbit i (by simp [hi])) (by omega)]
    rfl

theorem exists_join (hends : ∃ i, l.getLast? = some i ∧ IsPieceOp i) :
    ∃ cs : List PieceChunk, cs ≠ [] ∧ l = join cs := by
  obtain ⟨i, hi, hpiece⟩ := hends
  obtain ⟨cs, tail, htail, rfl⟩ := Chunk.exists_chunks IsPieceOp l
  have hnil : tail = [] := by
    by_contra hne
    rw [List.getLast?_append_of_ne_nil _ hne] at hi
    exact htail i (List.mem_of_getLast? hi) hpiece
  subst hnil
  refine ⟨cs, ?_, List.append_nil _⟩
  rintro rfl
  cases hi

theorem chunkSizes_eq_filter (cs : List PieceChunk) :
    chunkSizes cs = ((join cs).filter (IsPieceOp ·)).map ExprInstr.pieceSize := by
  have hfilter : (join cs ++ []).filter (IsPieceOp ·) = cs.map (·.last) :=
    Chunk.filter_join cs fun i hi => absurd hi List.not_mem_nil
  rw [List.append_nil] at hfilter
  rw [hfilter, chunkSizes, List.map_map]
  rfl

/-- An offset is looked up among the chunks. -/
theorem looksUp_join (hne : cs ≠ []) (hpos : ∀ s ∈ cs, 0 < s.last.lrNumber.toNat)
    (hbytes : bytePieces (join cs) = .ok (bytesOf cs)) (hsum : (chunkSizes cs).sum < 2 ^ 64) :
    LooksUp (join cs) (bytesOf cs) := by
  have hsome : ∃ i ∈ join cs, IsPieceOp i := by
    obtain ⟨s, hs⟩ := List.exists_mem_of_ne_nil cs hne
    exact ⟨s.last, Chunk.last_mem_join hs, s.ends⟩
  have hnonzero : ∀ p ∈ bytesOf cs, p.2 ≠ 0 := by
    intro p hp hzero
    obtain ⟨s, hs, rfl⟩ := List.mem_map.1 hp
    have := hpos s hs
    rw [show s.last.lrNumber = 0 from hzero] at this
    exact Nat.lt_irrefl 0 this
  have hle := bytes_sum_le cs
  have hlookup : ∀ o, pieceForByteOffset (join cs) o = pieceForByteOffsetLoop o (bytesOf cs) 0 := by
    intro o
    rw [pieceForByteOffset, hbytes, ok_bind]
  have hzero : (0 : BitVec 64).toNat = 0 := rfl
  constructor
  · intro hnone
    obtain ⟨i, hi, hpiece⟩ := hsome
    exact absurd hpiece (hnone i hi)
  · intro _ o ho
    obtain ⟨k, hk⟩ := Lands.exists_iff.2 ho
    obtain ⟨hlt, hfound⟩ : ∃ hk : k < (bytesOf cs).length,
        pieceForByteOffsetLoop o (bytesOf cs) 0 = .ok (bytesOf cs)[k].1 :=
      pieceForByteOffsetLoop_lands hnonzero (Nat.zero_le _) (by omega) hk
    exact ⟨k, hlt, (hlookup o).trans hfound, fun j => ⟨hk.unique, fun h => h ▸ hk⟩⟩
  · intro _ o ho
    rw [hlookup]
    exact pieceForByteOffsetLoop_beyond hnonzero (Nat.zero_le _) (by omega) (by omega)

theorem partitions_plain (h : ∀ i ∈ l, ¬IsPieceOp i) :
    Partitions l [⟨0, l.length, 0, true⟩] where
  concat := by simp [Piece.copy]
  bitOffset := by
    refine ⟨[none], rfl, fun k hk => ?_⟩
    obtain rfl : k = 0 := Nat.lt_one_iff.1 hk
    rfl
  implicitPiece p hp := by
    obtain rfl := List.mem_singleton.1 hp
    exact iff_of_true rfl h

theorem implicitPiece_piecesOf {p : Piece} {pos : ℕ} {bits : BitVec 64}
    (hp : p ∈ piecesOf pos bits cs) : p.implicitPiece = false := by
  induction cs generalizing pos bits with
  | nil => exact absurd hp List.not_mem_nil
  | cons s cs ih =>
    rcases List.mem_cons.1 hp with rfl | hp
    · rfl
    · exact ih hp

theorem partitions_join (hsum : (chunkSizes cs).sum < 2 ^ 64) :
    Partitions (join cs) (piecesOf 0 0 cs) := by
  have hl : (join cs).drop 0 = join cs ++ [] := (List.append_nil _).symm
  refine ⟨flatMap_copy_piecesOf cs 0 hl, ⟨_, mapM_sizeInBits_piecesOf cs 0 hl, fun k hk => ?_⟩,
    fun p hp => ?_⟩
  · have hsub : ((chunkSizes cs).take k).sum ≤ (chunkSizes cs).sum :=
      (List.take_sublist _ _).sum_le_sum fun _ _ => Nat.zero_le _
    have htake : chunkSizes (cs.take k) = (chunkSizes cs).take k := List.map_take
    have hlt : (chunkSizes (cs.take k)).sum < 2 ^ 64 := by
      rw [htake]
      omega
    have htoNat := chunkBits_toNat hlt
    have hmap := pieceBits_map_toNat hlt
    have hoffset : (piecesOf 0 0 cs)[k].bitOffset = chunkBits (cs.take k) := by
      simpa using bitOffset_piecesOf cs 0 0 k hk
    rw [List.map_map] at hmap
    rw [hoffset, htoNat, ← hmap, ← List.map_take, List.map_map]
    rfl
  · rw [implicitPiece_piecesOf hp]
    refine iff_of_false (by decide) fun hnone => ?_
    have hne : cs ≠ [] := by
      rintro rfl
      exact absurd hp List.not_mem_nil
    obtain ⟨s, hs⟩ := List.exists_mem_of_ne_nil cs hne
    exact hnone s.last (Chunk.last_mem_join hs) s.ends

/-- **The pieces partition the expression**, and without a `DW_OP_bit_piece` those of `byte_pieces`
are the same and an offset is looked up in the one it lies in. -/
theorem allPieces_partition (h : Sliceable l) : ∃ ps, allPieces l = .ok ps ∧ Partitions l ps ∧
    ((∀ i ∈ l, i.lrAtom ≠ bitPieceAtom) → ∃ bytePs, bytePieces l = .ok bytePs ∧
      ps.mapM (Piece.asBytes l) = .ok bytePs ∧ LooksUp l bytePs) := by
  rcases h.ends with hplain | hends
  · refine ⟨_, allPieces_plain hplain, partitions_plain hplain, fun _ => ⟨_,
      bytePieces_plain hplain, ?_, ?_⟩⟩
    · simp [Piece.asBytes, Piece.copyAsIfWhole, Piece.sizeInBytes, Piece.sizeInBits, Piece.copy]
    · have hnot : ¬∃ i ∈ l, IsPieceOp i := fun ⟨i, hi, hpiece⟩ => hplain i hi hpiece
      refine ⟨fun _ o => ?_, fun hsome => absurd hsome hnot, fun hsome => absurd hsome hnot⟩
      rw [pieceForByteOffset, bytePieces_plain hplain]
      rfl
  · obtain ⟨cs, hne, rfl⟩ := exists_join hends
    have hpos : ∀ s ∈ cs, 0 < s.last.lrNumber.toNat := fun s hs =>
      h.positive _ (Chunk.last_mem_join hs) s.ends
    have hsum : (chunkSizes cs).sum < 2 ^ 64 := by
      rw [chunkSizes_eq_filter]
      exact h.sum_lt
    have hbytesPos : 0 < ((bytesOf cs).map (·.2.toNat)).sum := by
      obtain ⟨s, hs⟩ := List.exists_mem_of_ne_nil cs hne
      have hle : s.last.lrNumber.toNat ≤ ((bytesOf cs).map (·.2.toNat)).sum :=
        List.le_sum_of_mem (List.mem_map.2 ⟨_, List.mem_map.2 ⟨s, hs, rfl⟩, rfl⟩)
      exact Nat.lt_of_lt_of_le (hpos s hs) hle
    have hle := bytes_sum_le cs
    refine ⟨_, allPieces_join (by omega) hsum, partitions_join hsum, fun hbit => ?_⟩
    have hbytes := bytePieces_join hbit hbytesPos hsum
    exact ⟨_, hbytes, mapM_asBytes_piecesOf cs 0 (List.append_nil _).symm hbit hsum,
      looksUp_join hne hpos hbytes hsum⟩

end Partition

/-- An object of eight bytes in two registers. -/
def twoRegisters : List ExprInstr :=
  [(DwOp.reg 0).instr, DwOp.piece.instr 4, (DwOp.reg 1).instr, DwOp.piece.instr 4]

theorem twoRegisters_partition : ∃ ps, allPieces twoRegisters = .ok ps ∧
    Partitions twoRegisters ps ∧
    ((∀ i ∈ twoRegisters, i.lrAtom ≠ bitPieceAtom) → ∃ bytePs,
      bytePieces twoRegisters = .ok bytePs ∧
        ps.mapM (Piece.asBytes twoRegisters) = .ok bytePs ∧ LooksUp twoRegisters bytePs) :=
  allPieces_partition ⟨.inr ⟨DwOp.piece.instr 4, rfl, by decide⟩, by decide, by decide⟩

/-- `byte_pieces` has no case for `DW_OP_bit_piece`. -/
theorem pieceForByteOffset_bitPiece : ¬∀ l, Sliceable l → ∀ o,
    Throws (· = .noEntry) (pieceForByteOffset l o) := by
  intro h
  have hthrows := h [(DwOp.reg 0).instr, ⟨bitPieceAtom, 8, 0, 0⟩]
    ⟨.inr ⟨⟨bitPieceAtom, 8, 0, 0⟩, rfl, by decide⟩, by decide, by decide⟩ 0 .assertFailed
    (by decide)
  cases hthrows

end Expr
end Dwarfpp
