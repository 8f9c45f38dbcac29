/-
# Rewriting a location list in terms of the CFA

`rewrite_loclist_in_terms_of_cfa` of `src/frame.cpp`.  An entry that uses registers is
filed under its own interval and once more under the overlap with each row it visits,
there with the register operations replaced for which the row gives a path to the CFA.
What is filed are `pieces`; the list that is returned is the map of them
(`rewriteLoclist_pieces`), ordered by intervals as Boost compares these: the lower
bounds first, then the upper ones, and all empty intervals are equal.

libdwarf's table of FDEs and its `dwarf_get_fde_at_pc` are fields of `FdeTable`, and
`boost::dijkstra_shortest_paths` is a parameter.
-/

import Mathlib
import Dwarfpp.Expr.LoclistEvaluator
import Dwarfpp.Frame.RegisterGraph

namespace Dwarfpp
namespace Frame

open Lib Dwarfpp.Expr

/-- A frame section with its FDEs.  `fdeAtPc` finds the index of an FDE and its bounds. -/
structure FdeTable where
  fs : FrameSection
  fdes : List Fde
  fdeAtPc : BitVec 64 → Option (ℕ × BitVec 64 × BitVec 64)

/-- `find_fde_for_pc()`: an index, that of `fde_end()` for none. -/
def FdeTable.findFdeForPc (table : FdeTable) (pc : BitVec 64) : Except Fault ℕ :=
  match table.fdeAtPc pc with
  | none => .ok table.fdes.length
  | some (found, lopc, hipc) =>
    match table.fdes[found]? with
    | none => .error .assertFailed
    | some f => do
      assert (f.lowPc ≤ lopc ∧ lopc < f.lowPc + f.funcLength)
      assert (f.lowPc ≤ hipc ∧ hipc ≤ f.lowPc + f.funcLength)
      return found

/-! ### Intervals -/

/-- What a `discrete_interval` is compared by: the empty ones are equal and come first. -/
abbrev IntervalKey := ℕ ×ₗ ℕ

def intervalKey (lower upper : ℕ) : IntervalKey :=
  if lower < upper then toLex (lower, upper) else toLex (0, 0)

/-- The interval of an expression. -/
def locExprKey (e : LocExpr) : IntervalKey := intervalKey e.lopc.toNat e.hipc.toNat

/-- `loclist_intervals`, each expression with the bounds of the interval it is filed under. -/
abbrev LoclistIntervals := OrderedMap IntervalKey LocExpr

/-- `loclist_intervals[interval] = expr`, which keeps the interval that is there. -/
def LoclistIntervals.assign (m : LoclistIntervals) (e : LocExpr) : LoclistIntervals :=
  m.insert (locExprKey e)
    (match m.find (locExprKey e) with
    | some old => { e with lopc := old.lopc, hipc := old.hipc }
    | none => e)

/-! ### One row -/

/-- One of `DW_OP_breg0` to `DW_OP_breg31`. -/
def IsBreg (i : ExprInstr) : Prop := 0x70 ≤ i.lrAtom.toNat ∧ i.lrAtom.toNat ≤ 0x8f

instance (i : ExprInstr) : Decidable (IsBreg i) := inferInstanceAs (Decidable (_ ∧ _))

/-- The register of one. -/
def bregNumber (i : ExprInstr) : ℤ := i.lrAtom.toNat - 0x70

/-- An expression uses a register. -/
def UsesBreg (e : LocExpr) : Prop := ∃ i ∈ e.instrs, IsBreg i

instance (e : LocExpr) : Decidable (UsesBreg e) := inferInstanceAs (Decidable (∃ i ∈ _, _))

/-- A row, as the map of decoded rows holds it. -/
abbrev RowSegment := Segment ℕ (ℤ × RegisterDef)

section Rewrite

variable (table : FdeTable) (dijkstra : RegisterGraph → ℤ → ℤ → Option ℤ) (fuel : ℕ)

/-- What an instruction becomes. -/
def rewriteInstr (g : RegisterGraph) (i : ExprInstr) : Except Fault (List ExprInstr) :=
  if ¬IsBreg i then .ok [i]
  else if ¬g.IsVertex table.fs.cfaColumn then .ok [i]
  else do
    match ← findPath g table.fs.cfaColumn (dijkstra g table.fs.cfaColumn) fuel (bregNumber i) 0 with
    | none => return [i]
    | some sumOfDifferences => do
      let offset ← addSigned 64 sumOfDifferences i.lrNumber.toInt
      return [DwOp.callFrameCfa.instr, DwOp.consts.instr (BitVec.ofInt 64 offset), DwOp.plus.instr]

/-- `row_overlap_interval` is not empty. -/
def Overlaps (e : LocExpr) (row : RowSegment) : Prop :=
  max row.lower e.lopc.toNat < min row.upper e.hipc.toNat

instance (e : LocExpr) (row : RowSegment) : Decidable (Overlaps e row) :=
  inferInstanceAs (Decidable (_ < _))

/-- `copied_loc_expr`, for the interval that a row and an expression overlap in. -/
def rewriteRow (e : LocExpr) (row : RowSegment) : Except Fault LocExpr := do
  let g ← registerGraph row.values
  let instrs ← e.instrs.mapM (rewriteInstr table dijkstra fuel g)
  return {
    instrs := instrs.flatten
    lopc := BitVec.ofNat 64 (max row.lower e.lopc.toNat)
    hipc := BitVec.ofNat 64 (min row.upper e.hipc.toNat) }

/-- The loop over the rows of an FDE. -/
def rewriteRows (e : LocExpr) : List RowSegment → LoclistIntervals → Except Fault LoclistIntervals
  | [], m => .ok m
  | row :: rows, m =>
    if Overlaps e row then do
      let copied ← rewriteRow table dijkstra fuel e row
      rewriteRows e rows (m.assign copied)
    else rewriteRows e rows m

/-- The loop over the FDEs, with `prev_fde_lopc`. -/
def rewriteFdes (e : LocExpr) :
    List Fde → BitVec 64 → LoclistIntervals → Except Fault LoclistIntervals
  | [], _, m => .ok m
  | fde :: fdes, prevFdeLopc, m => do
    assert (prevFdeLopc ≤ fde.lowPc)
    let currentDecoded ← decode table.fs fuel fde
    if min (fde.lowPc + fde.funcLength + 1).toNat e.hipc.toNat =
        max fde.lowPc.toNat e.lopc.toNat then return m
    else do
      let m ← rewriteRows table dijkstra fuel e currentDecoded.rowMap m
      rewriteFdes e fdes fde.lowPc m

/-- The FDEs from that for the lower bound on, to that for the upper one if there is one. -/
def FdeTable.fdesFor (e : LocExpr) : Except Fault (List Fde) := do
  let endFde ← table.findFdeForPc e.hipc
  let beginFde ← table.findFdeForPc e.lopc
  return (table.fdes.take (endFde + 1)).drop beginFde

/-- One iteration over the list. -/
def rewriteLocExpr (m : LoclistIntervals) (e : LocExpr) : Except Fault LoclistIntervals :=
  if UsesBreg e then do
    let fdes ← table.fdesFor e
    rewriteFdes table dijkstra fuel e fdes 0 (m.assign e)
  else .ok (m.assign e)

/-- `rewrite_loclist_in_terms_of_cfa`. -/
def rewriteLoclistInTermsOfCfa (l : List LocExpr) : Except Fault (List LocExpr) := do
  let loclistIntervals ← l.foldlM (rewriteLocExpr table dijkstra fuel) .empty
  return loclistIntervals.entries.map (·.2)

/-! ### What is filed -/

/-- The rows of some FDEs that overlap an expression, up to the FDE the loop stops at. -/
def overlappingRows (e : LocExpr) : List Fde → BitVec 64 → Except Fault (List RowSegment)
  | [], _ => .ok []
  | fde :: fdes, prevFdeLopc => do
    assert (prevFdeLopc ≤ fde.lowPc)
    let currentDecoded ← decode table.fs fuel fde
    if min (fde.lowPc + fde.funcLength + 1).toNat e.hipc.toNat =
        max fde.lowPc.toNat e.lopc.toNat then return []
    else do
      let rest ← overlappingRows e fdes fde.lowPc
      return currentDecoded.rowMap.filter (Overlaps e ·) ++ rest

/-- The rows an expression that uses registers is rewritten for. -/
def visitedRows (e : LocExpr) : Except Fault (List RowSegment) := do
  let fdes ← table.fdesFor e
  overlappingRows table fuel e fdes 0

/-- What an entry is filed as. -/
def pieces (e : LocExpr) : Except Fault (List LocExpr) :=
  if UsesBreg e then do
    let rows ← visitedRows table fuel e
    let rewritten ← rows.mapM (rewriteRow table dijkstra fuel e)
    return e :: rewritten
  else .ok [e]

end Rewrite

section Pieces

variable {table : FdeTable} {dijkstra : RegisterGraph → ℤ → ℤ → Option ℤ} {fuel : ℕ}
  {e : LocExpr} {m m' : LoclistIntervals}

theorem rewriteRows_eq_ok {rows : List RowSegment}
    (h : rewriteRows table dijkstra fuel e rows m = .ok m') :
    ∃ rewritten, (rows.filter (Overlaps e ·)).mapM (rewriteRow table dijkstra fuel e) =
        .ok rewritten ∧ m' = rewritten.foldl LoclistIntervals.assign m := by
  induction rows generalizing m with
  | nil =>
    obtain rfl := Except.ok.inj h
    exact ⟨[], rfl, rfl⟩
  | cons row rows ih =>
    rw [rewriteRows] at h
    split_ifs at h with hoverlap
    · obtain ⟨copied, hcopied, h⟩ := bind_eq_ok.1 h
      obtain ⟨rewritten, hrewritten, rfl⟩ := ih h
      refine ⟨copied :: rewritten, ?_, rfl⟩
      rw [List.filter_cons_of_pos (by simpa using hoverlap), List.mapM_cons, hcopied, ok_bind,
        hrewritten]
      rfl
    · rw [List.filter_cons_of_neg (by simpa using hoverlap)]
      exact ih h

/-- The FDEs are gone through row by row. -/
theorem rewriteFdes_eq_ok {fdes : List Fde} {prev : BitVec 64}
    (h : rewriteFdes table dijkstra fuel e fdes prev m = .ok m') :
    ∃ rows rewritten, overlappingRows table fuel e fdes prev = .ok rows ∧
      rows.mapM (rewriteRow table dijkstra fuel e) = .ok rewritten ∧
        m' = rewritten.foldl LoclistIntervals.assign m := by
  induction fdes generalizing prev m with
  | nil =>
    obtain rfl := Except.ok.inj h
    exact ⟨[], [], rfl, rfl, rfl⟩
  | cons fde fdes ih =>
    obtain ⟨u, hassert, h⟩ := bind_eq_ok.1 h
    obtain ⟨decoded, hdecoded, h⟩ := bind_eq_ok.1 h
    rw [overlappingRows, hassert, ok_bind, hdecoded, ok_bind]
    split_ifs at h ⊢ with hstop
    · obtain rfl := Except.ok.inj h
      exact ⟨[], [], rfl, rfl, rfl⟩
    · obtain ⟨m₁, hrows, h⟩ := bind_eq_ok.1 h
      obtain ⟨first, hfirst, rfl⟩ := rewriteRows_eq_ok hrows
      obtain ⟨rows, rewritten, hrest, hrewritten, rfl⟩ := ih h
      refine ⟨_, first ++ rewritten, by rw [hrest]; rfl, ?_, (List.foldl_append ..).symm⟩
      rw [List.mapM_append, hfirst, ok_bind, hrewritten]
      rfl

theorem rewriteLocExpr_eq_ok (h : rewriteLocExpr table dijkstra fuel m e = .ok m') :
    ∃ filed, pieces table dijkstra fuel e = .ok filed ∧
      m' = filed.foldl LoclistIntervals.assign m := by
  rw [rewriteLocExpr] at h
  rw [pieces]
  split_ifs at h ⊢ with huses
  · obtain ⟨fdes, hfdes, h⟩ := bind_eq_ok.1 h
    obtain ⟨rows, rewritten, hrows, hrewritten, rfl⟩ := rewriteFdes_eq_ok h
    refine ⟨e :: rewritten, ?_, rfl⟩
    rw [visitedRows, hfdes, ok_bind, hrows, ok_bind, hrewritten]
    rfl
  · obtain rfl := Except.ok.inj h
    exact ⟨[e], rfl, rfl⟩

/-- **The list that is returned is the map of the pieces of its entries.** -/
theorem rewriteLoclist_pieces {l l' : List LocExpr}
    (h : rewriteLoclistInTermsOfCfa table dijkstra fuel l = .ok l') :
    ∃ filed, l.mapM (pieces table dijkstra fuel) = .ok filed ∧
      l' = (filed.flatten.foldl LoclistIntervals.assign .empty).entries.map (·.2) := by
  obtain ⟨intervals, hfold, h⟩ := bind_eq_ok.1 h
  obtain rfl := Except.ok.inj h
  have hall : ∀ (l : List LocExpr) (m m' : LoclistIntervals),
      l.foldlM (rewriteLocExpr table dijkstra fuel) m = .ok m' →
        ∃ filed, l.mapM (pieces table dijkstra fuel) = .ok filed ∧
          m' = filed.flatten.foldl LoclistIntervals.assign m := by
    intro l
    induction l with
    | nil =>
      intro m m' h
      obtain rfl := Except.ok.inj h
      exact ⟨[], rfl, rfl⟩
    | cons e l ih =>
      intro m m' h
      obtain ⟨m₁, hstep, h⟩ := foldlM_cons_eq_ok.1 h
      obtain ⟨first, hfirst, rfl⟩ := rewriteLocExpr_eq_ok hstep
      obtain ⟨rest, hrest, rfl⟩ := ih _ _ h
      refine ⟨first :: rest, ?_, ?_⟩
      · rw [List.mapM_cons, hfirst, ok_bind, hrest]
        rfl
      · rw [List.flatten_cons, List.foldl_append]
  obtain ⟨filed, hfiled, rfl⟩ := hall l _ _ hfold
  exact ⟨filed, hfiled, rfl⟩

end Pieces

end Frame
end Dwarfpp
