/-
# The addresses that decoded rows cover

An FDE speaks of the function `[low_pc, low_pc + func_length)`.  `Fde::decode`
files the current row up to each advance and the last one up to
`low_pc + func_length + 1`, which is the end of a right-open interval: the
address after the function is covered too (`decode_covered`).  The intervals
never overlap and follow one another from the address that the initial
instructions reach (`Tiles`), so nothing else is wrong with them; but no FDE
whose advances stay within the function is covered exactly
(`decode_range_inexact`).
-/

import Dwarfpp.Frame.Agreement

namespace Dwarfpp
namespace Frame

open Lib Dwarfpp.Expr

/-- The row map has a row at the address. -/
def Covered (rows : IntervalMap ℕ (ℤ × RegisterDef)) (x : ℕ) : Prop := rows.find x ≠ []

/-- The rows cover the addresses of the function and no others. -/
def CoversRange (fde : Fde) (res : InstrsResults) : Prop :=
  ∀ pc : BitVec 64, Covered res.rows pc.toNat ↔
    fde.lowPc.toNat ≤ pc.toNat ∧ pc.toNat < fde.lowPc.toNat + fde.funcLength.toNat

/-- How far the two instruction lists advance the location. -/
def totalAdvance (fs : FrameSection) (fuel : ℕ) (fde : Fde) : Except Fault ℕ := do
  let (_, finalResult) ← decodeWalks fs fuel fde
  return finalResult.unfinishedRowAddr.toNat - fde.lowPc.toNat

theorem totalAdvance_eq_ok {fs : FrameSection} {fuel n : ℕ} {fde : Fde}
    (h : totalAdvance fs fuel fde = .ok n) :
    ∃ initialResult finalResult,
      decodeWalks fs fuel fde = .ok (initialResult, finalResult) ∧
        n = finalResult.unfinishedRowAddr.toNat - fde.lowPc.toNat := by
  obtain ⟨⟨i, f⟩, hwalks, hret⟩ := bind_eq_ok.1 h
  exact ⟨i, f, hwalks, (Except.ok.inj hret).symm⟩

/-! ### No row beyond the location -/

/-- The rows filed so far lie below the location, which is not below `lo`. -/
structure Behind (lo : ℕ) (st : InterpState) : Prop where
  start : lo ≤ st.addr.toNat
  ends : st.result.rows.EndsBy st.addr.toNat

section Step

variable {fs : FrameSection} {initial : Option InstrsResults} {lo : ℕ} {st st' : InterpState}
  {op : FrameOp}

theorem Behind.step (h : Behind lo st) (hstep : interpretInstr fs st initial op = .ok st') :
    Behind lo st' := by
  obtain ⟨hrows, haddr⟩ | ⟨hadv, hrows⟩ := interpretInstr_rows hstep
  · exact ⟨by rw [haddr]; exact h.start, by rw [hrows, haddr]; exact h.ends⟩
  · rw [BitVec.lt_def] at hadv
    exact ⟨h.start.trans hadv.le, by rw [hrows]; exact h.ends.add hadv.le⟩

theorem Behind.run {ops : List FrameOp} (h : Behind lo st)
    (hrun : ops.foldlM (fun st op => interpretInstr fs st initial op) st = .ok st') :
    Behind lo st' :=
  foldlM_invariant (fun _ _ _ hp hs => Behind.step hp hs) h hrun

end Step

/-- A walk starts with no row. -/
theorem behind_startState (addr : BitVec 64) (initial : Option InstrsResults) :
    Behind (startState addr initial).addr.toNat (startState addr initial) := by
  refine ⟨le_rfl, fun s hs => ?_⟩
  cases initial <;> exact absurd hs List.not_mem_nil

/-- The walks go up from `low_pc`, and the second leaves no row beyond its end. -/
theorem walks_behind {fs : FrameSection} {fuel : ℕ} {fde : Fde}
    {initialResult finalResult : InstrsResults}
    (h : decodeWalks fs fuel fde = .ok (initialResult, finalResult)) :
    fde.lowPc.toNat ≤ initialResult.unfinishedRowAddr.toNat ∧
      initialResult.unfinishedRowAddr.toNat ≤ finalResult.unfinishedRowAddr.toNat ∧
      finalResult.rows.EndsBy finalResult.unfinishedRowAddr.toNat := by
  obtain ⟨ops₀, ops, -, final₀, final, hrun₀, rfl, -, hrun, rfl⟩ := decodeWalks_runs h
  have h₀ := (behind_startState fde.lowPc none).run hrun₀
  have h₁ := (behind_startState final₀.result.unfinishedRowAddr (some final₀.result)).run hrun
  exact ⟨h₀.start, h₁.start, h₁.ends⟩

/-- From the end of the second walk on, the rows are the last one. -/
theorem find_last {r : InstrsResults} (hends : r.rows.EndsBy r.unfinishedRowAddr.toNat)
    {highPc : BitVec 64} {x : ℕ} (hx : r.unfinishedRowAddr.toNat ≤ x) :
    (r.addUnfinishedRow highPc).rows.find x =
      if x < highPc.toNat then r.unfinishedRow.entries else [] := by
  rw [InstrsResults.addUnfinishedRow, IntervalMap.find_add, hends.find hx, List.nil_append]
  by_cases hhigh : x < highPc.toNat
  · rw [if_pos ⟨hx, hhigh⟩, if_pos hhigh]
  · rw [if_neg (fun h => hhigh h.2), if_neg hhigh]

theorem toNat_end (fde : Fde) : (fde.lowPc + fde.funcLength + 1).toNat =
    (fde.lowPc.toNat + fde.funcLength.toNat + 1) % 2 ^ 64 := by
  have hone : (1 : BitVec 64).toNat = 1 := rfl
  rw [BitVec.toNat_add, BitVec.toNat_add, hone]
  omega

/-- **No range is covered exactly.**  Where the last row has a rule and its end does not
wrap, it reaches the address after the function; otherwise it does not reach the last
address of the function. -/
theorem decode_range_inexact {fs : FrameSection} {fuel n : ℕ} {fde : Fde}
    (hadvance : totalAdvance fs fuel fde = .ok n) (hn : n < fde.funcLength.toNat) :
    ∃ res, decode fs fuel fde = .ok res ∧ ¬CoversRange fde res := by
  obtain ⟨initialResult, finalResult, hwalks, rfl⟩ := totalAdvance_eq_ok hadvance
  obtain ⟨hlow, hstart, hends⟩ := walks_behind hwalks
  refine ⟨_, decode_of_walks hwalks, fun hcovers => ?_⟩
  have hL := fde.lowPc.isLt
  have hN := fde.funcLength.isLt
  have hend := toNat_end fde
  -- `pc` lies beyond the last advance, so only the last row can cover it
  have hlast : ∀ pc, finalResult.unfinishedRowAddr.toNat ≤ pc → pc < 2 ^ 64 →
      ((if pc < (fde.lowPc + fde.funcLength + 1).toNat then finalResult.unfinishedRow.entries
        else []) ≠ [] ↔ pc < fde.lowPc.toNat + fde.funcLength.toNat) := by
    intro pc hpc hlt
    have hiff := hcovers (BitVec.ofNat 64 pc)
    rw [BitVec.toNat_ofNat, Nat.mod_eq_of_lt hlt, Covered, find_last hends hpc] at hiff
    rw [hiff]
    exact and_iff_right (by omega)
  by_cases hwrap : fde.lowPc.toNat + fde.funcLength.toNat + 1 < 2 ^ 64
  · rw [Nat.mod_eq_of_lt hwrap] at hend
    have hin := (hlast (fde.lowPc.toNat + fde.funcLength.toNat - 1) (by omega) (by omega)).2
      (by omega)
    rw [if_pos (by omega)] at hin
    have hout := (hlast (fde.lowPc.toNat + fde.funcLength.toNat) (by omega) (by omega)).1
    rw [if_pos (by omega)] at hout
    exact absurd (hout hin) (lt_irrefl _)
  · have hin := (hlast (min (fde.lowPc.toNat + fde.funcLength.toNat - 1) (2 ^ 64 - 1)) (by omega)
      (by omega)).2 (by omega)
    rw [if_neg (by omega)] at hin
    exact hin rfl

/-! ### What is covered -/

/-- The rows cover what lies between `lo` and the location, and every row that can become
the current one has a rule. -/
structure Tiles (lo : ℕ) (st : InterpState) : Prop where
  start : lo ≤ st.addr.toNat
  covered : ∀ x, Covered st.result.rows x ↔ lo ≤ x ∧ x < st.addr.toNat
  row : st.row.entries ≠ []
  remembered : ∀ r ∈ st.rememberedRowDefs, r.entries ≠ []

/-- Filing a row that has a rule covers its interval. -/
theorem covered_add {rows : IntervalMap ℕ (ℤ × RegisterDef)} {lower upper x : ℕ}
    {entries : List (ℤ × RegisterDef)} (hne : entries ≠ []) :
    Covered (rows.add lower upper entries) x ↔ Covered rows x ∨ lower ≤ x ∧ x < upper := by
  rw [Covered, IntervalMap.find_add, Covered]
  by_cases hx : lower ≤ x ∧ x < upper
  · simp [hx, hne]
  · simp [hx]

theorem insert_entries_ne_nil (row : Row) (reg : ℤ) (d : RegisterDef) :
    (row.insert reg d).entries ≠ [] := by
  intro hnil
  have hfind := OrderedMap.find_insert row reg reg d
  rw [OrderedMap.find, hnil, if_pos rfl] at hfind
  cases hfind

section Tiles

variable {fs : FrameSection} {initial : Option InstrsResults} {lo : ℕ} {st st' : InterpState}
  {op : FrameOp}

theorem Tiles.step (h : Tiles lo st) (hstep : interpretInstr fs st initial op = .ok st') :
    Tiles lo st' := by
  cases interpretInstr_effect hstep with
  | advance a hlt =>
    rw [BitVec.lt_def] at hlt
    have hstart := h.start
    refine ⟨hstart.trans hlt.le, fun x => ?_, h.row, h.remembered⟩
    rw [covered_add h.row, h.covered]
    show _ ↔ lo ≤ x ∧ x < a.toNat
    omega
  | set reg d => exact ⟨h.start, h.covered, insert_entries_ne_nil st.row reg d, h.remembered⟩
  | restoreState row rest hrest =>
    refine ⟨h.start, h.covered, h.remembered row ?_, fun r hr => h.remembered r ?_⟩
    · rw [hrest]
      exact List.mem_cons_self
    · rw [hrest]
      exact List.mem_cons_of_mem row hr
  | rememberState =>
    refine ⟨h.start, h.covered, h.row, fun r hr => ?_⟩
    obtain rfl | hr := List.mem_cons.1 hr
    · exact h.row
    · exact h.remembered r hr
  | skip => exact h

theorem Tiles.run {ops : List FrameOp} (h : Tiles lo st)
    (hrun : ops.foldlM (fun st op => interpretInstr fs st initial op) st = .ok st') :
    Tiles lo st' :=
  foldlM_invariant (fun _ _ _ hp hs => Tiles.step hp hs) h hrun

end Tiles

/-- **What the decoded rows cover.**  When the initial instructions leave a row with a
rule, the rows cover the addresses from the location they reach to the end of the
function, with the address after it. -/
theorem decode_covered {fs : FrameSection} {fuel : ℕ} {fde : Fde}
    {initialResult finalResult : InstrsResults}
    (hwalks : decodeWalks fs fuel fde = .ok (initialResult, finalResult))
    (hrule : initialResult.unfinishedRow.entries ≠ [])
    (hadvance : finalResult.unfinishedRowAddr.toNat < fde.lowPc.toNat + fde.funcLength.toNat)
    (hend : fde.lowPc.toNat + fde.funcLength.toNat + 1 < 2 ^ 64) (x : ℕ) :
    Covered (finalResult.addUnfinishedRow (fde.lowPc + fde.funcLength + 1)).rows x ↔
      initialResult.unfinishedRowAddr.toNat ≤ x ∧
        x ≤ fde.lowPc.toNat + fde.funcLength.toNat := by
  obtain ⟨ops₀, ops, -, final₀, final, hrun₀, rfl, -, hrun, rfl⟩ := decodeWalks_runs hwalks
  have hstart : Tiles final₀.result.unfinishedRowAddr.toNat
      (startState final₀.result.unfinishedRowAddr (some final₀.result)) :=
    { start := le_rfl
      covered := fun x => ⟨fun h => absurd rfl h, fun h => absurd h.2 (not_lt.2 h.1)⟩
      row := hrule
      remembered := fun r hr => absurd hr List.not_mem_nil }
  have hfinal := hstart.run hrun
  have hlow : final₀.result.unfinishedRowAddr.toNat ≤ final.result.unfinishedRowAddr.toNat :=
    hfinal.start
  show Covered (IntervalMap.add _ _ _ final.row.entries) x ↔ _
  rw [covered_add hfinal.row, hfinal.covered, toNat_end, Nat.mod_eq_of_lt hend]
  show (_ ∧ x < final.result.unfinishedRowAddr.toNat) ∨ _ ↔ _
  omega

/-- The rows of the function of 16 bytes at `0x1000` are those of 17 bytes. -/
theorem decode_covered_example :
    ∃ initialResult finalResult,
      decodeWalks (exampleSection exampleInitial exampleInstrs) 7
        (exampleFde 1 exampleInitial exampleInstrs) = .ok (initialResult, finalResult) ∧
      ∀ x, Covered (finalResult.addUnfinishedRow 0x1011).rows x ↔ 0x1000 ≤ x ∧ x ≤ 0x1010 := by
  have hrun : ((decodeWalks (exampleSection exampleInitial exampleInstrs) 7
      (exampleFde 1 exampleInitial exampleInstrs)).toOption.map fun w =>
        (w.1.unfinishedRow.entries.length, w.1.unfinishedRowAddr, w.2.unfinishedRowAddr)) =
      some (2, 0x1000, 0x1005) := by
    decide +kernel
  obtain ⟨⟨initialResult, finalResult⟩, hwalks, hvalues⟩ := Option.map_eq_some_iff.1 hrun
  obtain ⟨hrule, haddrs⟩ := Prod.mk.inj hvalues
  obtain ⟨hinitial, hfinal⟩ := Prod.mk.inj haddrs
  refine ⟨initialResult, finalResult, toOption_eq_some.1 hwalks, fun x => ?_⟩
  have hcovered := decode_covered (toOption_eq_some.1 hwalks)
    (fun hnil => by rw [hnil] at hrule; cases hrule) (by rw [hfinal]; decide) (by decide) x
  dsimp only at hinitial
  rw [hinitial] at hcovered
  exact hcovered

/-- The function of 16 bytes at `0x1000` has a row at `0x1010`: its initial row has a rule
and its instructions advance by 5 in all. -/
theorem after_function_covered :
    ∃ initialResult finalResult res,
      decodeWalks (exampleSection exampleInitial exampleInstrs) 7
        (exampleFde 1 exampleInitial exampleInstrs) = .ok (initialResult, finalResult) ∧
      initialResult.unfinishedRow.entries ≠ [] ∧
      totalAdvance (exampleSection exampleInitial exampleInstrs) 7
        (exampleFde 1 exampleInitial exampleInstrs) = .ok 5 ∧
      decode (exampleSection exampleInitial exampleInstrs) 7
        (exampleFde 1 exampleInitial exampleInstrs) = .ok res ∧
      Covered res.rows 0x1010 ∧ ¬CoversRange (exampleFde 1 exampleInitial exampleInstrs) res := by
  have hrun : ((decodeWalks (exampleSection exampleInitial exampleInstrs) 7
      (exampleFde 1 exampleInitial exampleInstrs)).toOption.map fun w =>
        (w.1.unfinishedRow.entries.length,
          ((w.2.addUnfinishedRow 0x1011).rows.find 0x1010).length)) = some (2, 2) := by
    decide +kernel
  obtain ⟨⟨initialResult, finalResult⟩, hwalks, hlen⟩ := Option.map_eq_some_iff.1 hrun
  obtain ⟨hrule, hrow⟩ := Prod.mk.inj hlen
  have hcovered : Covered (finalResult.addUnfinishedRow 0x1011).rows 0x1010 := fun hnil => by
    rw [hnil] at hrow
    cases hrow
  refine ⟨initialResult, finalResult, _, toOption_eq_some.1 hwalks, fun hnil => ?_,
    by decide +kernel, decode_of_walks (toOption_eq_some.1 hwalks), hcovered, fun hcovers => ?_⟩
  · rw [hnil] at hrule
    cases hrule
  · exact absurd ((hcovers 0x1010).1 hcovered).2 (by decide)

/-- The hypotheses of `decode_range_inexact` are satisfiable. -/
theorem decode_range_example :
    ∃ res, decode (exampleSection exampleInitial exampleInstrs) 7
      (exampleFde 1 exampleInitial exampleInstrs) = .ok res ∧
      ¬CoversRange (exampleFde 1 exampleInitial exampleInstrs) res :=
  decode_range_inexact
    (show totalAdvance (exampleSection exampleInitial exampleInstrs) 7
      (exampleFde 1 exampleInitial exampleInstrs) = .ok 5 by decide +kernel) (by decide)

end Frame
end Dwarfpp
