/-
# Rewriting a location list with two tables

What a location list is rewritten to depends on the frame section only where an entry
uses registers, and there only on the rules of the row that wins at an address.  Where
these are the same for two tables, so is the expression that is selected
(`selectLocExpr_alike`).
-/

import Dwarfpp.Frame.RewriteEffect

namespace Dwarfpp
namespace Frame

open Lib Dwarfpp.Expr

variable {table table' : FdeTable} {dijkstra : RegisterGraph → ℤ → ℤ → Option ℤ} {fuel : ℕ}
  {l l₁ l₂ : List LocExpr} {e : LocExpr} {vaddr : BitVec 64}

/-- **A list that uses no registers is only put in order.** -/
theorem rewriteLoclist_of_not_usesBreg (h : ∀ e ∈ l, ¬UsesBreg e) :
    rewriteLoclistInTermsOfCfa table dijkstra fuel l =
      .ok ((l.foldl LoclistIntervals.assign .empty).entries.map (·.2)) := by
  have hfold : ∀ (l : List LocExpr) (m : LoclistIntervals), (∀ e ∈ l, ¬UsesBreg e) →
      l.foldlM (rewriteLocExpr table dijkstra fuel) m =
        .ok (l.foldl LoclistIntervals.assign m) := by
    intro l
    induction l with
    | nil => exact fun m _ => rfl
    | cons e l ih =>
      intro m h
      rw [List.forall_mem_cons] at h
      rw [List.foldlM_cons, rewriteLocExpr, if_neg h.1, ok_bind, List.foldl_cons]
      exact ih _ h.2
  rw [rewriteLoclistInTermsOfCfa, hfold l _ h, ok_bind]
  rfl

/-- At an address that no entry has nothing is selected afterwards. -/
theorem selectLocExpr_uncovered
    (hpaths : ∀ g, ShortestPaths g table.fs.cfaColumn (dijkstra g table.fs.cfaColumn))
    (h : rewriteLoclistInTermsOfCfa table dijkstra fuel l = .ok l₁)
    (hnonempty : ∀ e ∈ l, e.lopc < e.hipc) (hplain : Plain table fuel l)
    (hv : vaddr < BitVec.allOnes 64) (hnot : ∀ e ∈ l, ¬e.Covers vaddr) :
    selectLocExpr vaddr 0 l₁ = none := by
  obtain ⟨filed, hfiled, rfl⟩ := rewriteLoclist_pieces h
  have hpieces : ∀ p ∈ filed.flatten, p.lopc < p.hipc ∧ ¬p.IsBaseSelection := by
    intro p hp
    obtain ⟨filed', hmem, hp⟩ := List.mem_flatten.1 hp
    obtain ⟨e, he, hfiled'⟩ := (mem_mapM_iff hfiled).1 hmem
    exact ⟨(pieces_within hpaths (hnonempty e he) hfiled' hp).1,
      not_isBaseSelection hpaths (hnonempty e he) hfiled' hp (hplain e he).1 (hplain e he).2⟩
  rw [foldl_assign_empty fun p hp => (hpieces p hp).1]
  have hmem : ∀ p ∈ (filedPieces filed.flatten).entries.map (·.2), p ∈ filed.flatten := by
    intro p hp
    obtain ⟨x, hx, rfl⟩ := List.mem_map.1 hp
    exact (mem_filedPieces hx).1
  rw [selectLocExpr_eq_find (fun p hp => (hpieces p (hmem p hp)).2)
    fun p hp => appliesAt_iff (hpieces p (hmem p hp)).1 hv]
  refine List.find?_eq_none.2 fun p hp hcov => ?_
  exact not_covers_of_pieces hpaths hnonempty hfiled hnot (hmem p hp) (of_decide_eq_true hcov)

/-- The same rules win at an address of an entry, if any do. -/
def SameWinner (table table' : FdeTable) (fuel : ℕ) (e : LocExpr) (vaddr : BitVec 64) : Prop :=
  ∀ rows rows', visitedRows table fuel e = .ok rows → visitedRows table' fuel e = .ok rows' →
    ∀ values, (∃ row, Wins e vaddr rows row ∧ row.values = values) ↔
      ∃ row, Wins e vaddr rows' row ∧ row.values = values

/-- The operations of the first piece: those of the entry, rewritten with the rules that win. -/
theorem isFirstPiece_instrs {filed : List LocExpr} {p : LocExpr}
    (hpaths : ∀ g, ShortestPaths g table.fs.cfaColumn (dijkstra g table.fs.cfaColumn))
    (hless : e.lopc < e.hipc) (hcovers : e.Covers vaddr)
    (hfiled : pieces table dijkstra fuel e = .ok filed) (hp : IsFirstPiece filed vaddr p)
    (huses : UsesBreg e) :
    ∃ rows, visitedRows table fuel e = .ok rows ∧
      (∀ row, Wins e vaddr rows row → ∃ g is, registerGraph row.values = .ok g ∧
        e.instrs.mapM (rewriteInstr table dijkstra fuel g) = .ok is ∧ p.instrs = is.flatten) ∧
          ((∀ row, ¬Wins e vaddr rows row) → p = e) := by
  have hwithin := fun q hq => (pieces_within hpaths hless hfiled (p := q) hq).1
  rw [pieces, if_pos huses] at hfiled
  obtain ⟨rows, hrows, hfiled⟩ := bind_eq_ok.1 hfiled
  obtain ⟨rewritten, hrewritten, hfiled⟩ := bind_eq_ok.1 hfiled
  obtain rfl := Except.ok.inj hfiled
  refine ⟨rows, hrows, fun row hwins => ?_, fun hno => ?_⟩
  · obtain ⟨q, hq, hrow⟩ := isFirstPiece_of_wins hpaths hless hcovers hrows hrewritten hwins
    obtain rfl := hp.unique hwithin hq
    obtain ⟨g, hg, hrow⟩ := bind_eq_ok.1 hrow
    obtain ⟨is, his, hrow⟩ := bind_eq_ok.1 hrow
    obtain rfl := Except.ok.inj hrow
    exact ⟨g, is, hg, his, rfl⟩
  · by_contra hne
    obtain ⟨row, hrow, -⟩ := exists_wins hpaths hless hcovers hrows hrewritten hp hne
    exact hno row hrow

/-- **Where the same rules win, the same operations are selected.** -/
theorem selectLocExpr_alike (hfs : table'.fs = table.fs)
    (hpaths : ∀ g, ShortestPaths g table.fs.cfaColumn (dijkstra g table.fs.cfaColumn))
    (h₁ : rewriteLoclistInTermsOfCfa table dijkstra fuel l = .ok l₁)
    (h₂ : rewriteLoclistInTermsOfCfa table' dijkstra fuel l = .ok l₂)
    (hnonempty : ∀ e ∈ l, e.lopc < e.hipc)
    (hdisjoint : l.Pairwise fun e e' => e.hipc ≤ e'.lopc ∨ e'.hipc ≤ e.lopc)
    (hplain₁ : Plain table fuel l) (hplain₂ : Plain table' fuel l)
    (he : e ∈ l) (hcovers : e.Covers vaddr)
    (hsame : UsesBreg e → SameWinner table table' fuel e vaddr) :
    ∃ p₁ p₂, selectLocExpr vaddr 0 l₁ = some p₁ ∧ selectLocExpr vaddr 0 l₂ = some p₂ ∧
      p₁.instrs = p₂.instrs := by
  have hpaths' : ∀ g, ShortestPaths g table'.fs.cfaColumn (dijkstra g table'.fs.cfaColumn) := by
    rw [hfs]
    exact hpaths
  have hless := hnonempty e he
  obtain ⟨all₁, hall₁, -⟩ := rewriteLoclist_pieces h₁
  obtain ⟨all₂, hall₂, -⟩ := rewriteLoclist_pieces h₂
  obtain ⟨filed₁, hfiled₁⟩ := mapM_returns_iff.1 ⟨all₁, hall₁⟩ e he
  obtain ⟨filed₂, hfiled₂⟩ := mapM_returns_iff.1 ⟨all₂, hall₂⟩ e he
  obtain ⟨p₁, hp₁⟩ := exists_isFirstPiece
    (fun q hq => (pieces_within hpaths hless hfiled₁ (p := q) hq).1)
    (mem_pieces_self hfiled₁) hcovers
  obtain ⟨p₂, hp₂⟩ := exists_isFirstPiece
    (fun q hq => (pieces_within hpaths' hless hfiled₂ (p := q) hq).1)
    (mem_pieces_self hfiled₂) hcovers
  refine ⟨p₁, p₂,
    selectLocExpr_rewritten hpaths h₁ hnonempty hdisjoint (.inr hplain₁) he hcovers hfiled₁ hp₁,
    selectLocExpr_rewritten hpaths' h₂ hnonempty hdisjoint (.inr hplain₂) he hcovers hfiled₂ hp₂,
    ?_⟩
  by_cases huses : UsesBreg e
  · obtain ⟨rows₁, hrows₁, hwins₁, hself₁⟩ :=
      isFirstPiece_instrs hpaths hless hcovers hfiled₁ hp₁ huses
    obtain ⟨rows₂, hrows₂, hwins₂, hself₂⟩ :=
      isFirstPiece_instrs hpaths' hless hcovers hfiled₂ hp₂ huses
    have hiff := hsame huses rows₁ rows₂ hrows₁ hrows₂
    by_cases hwinner : ∃ row, Wins e vaddr rows₁ row
    · obtain ⟨row₁, hrow₁⟩ := hwinner
      obtain ⟨row₂, hrow₂, hvalues⟩ := (hiff row₁.values).1 ⟨row₁, hrow₁, rfl⟩
      obtain ⟨g, is₁, hg, his₁, hinstrs₁⟩ := hwins₁ row₁ hrow₁
      obtain ⟨g', is₂, hg', his₂, hinstrs₂⟩ := hwins₂ row₂ hrow₂
      rw [hvalues] at hg'
      obtain rfl := Except.ok.inj (hg.symm.trans hg')
      have hrewrite : rewriteInstr table' dijkstra fuel g = rewriteInstr table dijkstra fuel g := by
        funext i
        rw [rewriteInstr, rewriteInstr, hfs]
      rw [hrewrite] at his₂
      rw [hinstrs₁, hinstrs₂, Except.ok.inj (his₁.symm.trans his₂)]
    · have hno₂ : ∀ row, ¬Wins e vaddr rows₂ row := by
        intro row hrow
        obtain ⟨row₁, hrow₁, -⟩ := (hiff row.values).2 ⟨row, hrow, rfl⟩
        exact hwinner ⟨row₁, hrow₁⟩
      rw [hself₁ fun row hrow => hwinner ⟨row, hrow⟩, hself₂ hno₂]
  · rw [pieces, if_neg huses] at hfiled₁ hfiled₂
    obtain rfl := Except.ok.inj hfiled₁
    obtain rfl := Except.ok.inj hfiled₂
    rw [List.mem_singleton.1 hp₁.mem, List.mem_singleton.1 hp₂.mem]

variable (table table' dijkstra fuel l vaddr) in
/-- Two tables rewrite a list of intervals alike at an address: the same rules win there. -/
structure RewrittenAlike : Prop where
  returns : ∃ l₁, rewriteLoclistInTermsOfCfa table dijkstra fuel l = .ok l₁
  returns' : ∃ l₂, rewriteLoclistInTermsOfCfa table' dijkstra fuel l = .ok l₂
  nonempty : ∀ e ∈ l, e.lopc < e.hipc
  disjoint : l.Pairwise fun e e' => e.hipc ≤ e'.lopc ∨ e'.hipc ≤ e.lopc
  plain : Plain table fuel l
  plain' : Plain table' fuel l
  below : vaddr < BitVec.allOnes 64
  winner : ∀ e ∈ l, e.Covers vaddr → UsesBreg e → SameWinner table table' fuel e vaddr

/-- What is selected from the two lists has the same operations. -/
theorem RewrittenAlike.selected (hfs : table'.fs = table.fs)
    (hpaths : ∀ g, ShortestPaths g table.fs.cfaColumn (dijkstra g table.fs.cfaColumn))
    (h : RewrittenAlike table table' dijkstra fuel l vaddr) :
    ∃ l₁ l₂, rewriteLoclistInTermsOfCfa table dijkstra fuel l = .ok l₁ ∧
      rewriteLoclistInTermsOfCfa table' dijkstra fuel l = .ok l₂ ∧
        (selectLocExpr vaddr 0 l₁).map LocExpr.instrs =
          (selectLocExpr vaddr 0 l₂).map LocExpr.instrs := by
  obtain ⟨l₁, h₁⟩ := h.returns
  obtain ⟨l₂, h₂⟩ := h.returns'
  refine ⟨l₁, l₂, h₁, h₂, ?_⟩
  by_cases hcovered : ∃ e ∈ l, e.Covers vaddr
  · obtain ⟨e, he, hcovers⟩ := hcovered
    obtain ⟨p₁, p₂, hp₁, hp₂, hinstrs⟩ := selectLocExpr_alike hfs hpaths h₁ h₂ h.nonempty
      h.disjoint h.plain h.plain' he hcovers (h.winner e he hcovers)
    rw [hp₁, hp₂, Option.map_some, Option.map_some, hinstrs]
  · have hnot : ∀ e ∈ l, ¬e.Covers vaddr := fun e he hcovers => hcovered ⟨e, he, hcovers⟩
    have hpaths' : ∀ g, ShortestPaths g table'.fs.cfaColumn (dijkstra g table'.fs.cfaColumn) := by
      rw [hfs]
      exact hpaths
    rw [selectLocExpr_uncovered hpaths h₁ h.nonempty h.plain h.below hnot,
      selectLocExpr_uncovered hpaths' h₂ h.nonempty h.plain' h.below hnot]

/-- The table with the initial location of every FDE further on by `δ`. -/
def FdeTable.shift (table : FdeTable) (δ : BitVec 64) : FdeTable where
  fs := table.fs
  fdes := table.fdes.map fun fde => { fde with lowPc := fde.lowPc + δ }
  fdeAtPc := fun pc =>
    (table.fdeAtPc (pc - δ)).map fun (found, lopc, hipc) => (found, lopc + δ, hipc + δ)

@[simp] theorem FdeTable.shift_fs (table : FdeTable) (δ : BitVec 64) :
    (table.shift δ).fs = table.fs := rfl

end Frame
end Dwarfpp
