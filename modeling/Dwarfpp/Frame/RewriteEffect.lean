/-
# Where the rewriting of a location list takes effect

The evaluator takes the first entry of the rewritten list that covers the address.
The list is ordered by lower bounds and then by upper ones, and it still has the
interval of the original entry, which comes before the overlap with any row that
starts later.  So among what is filed for an entry the winner is the overlap with a
visited row that reaches from the entry's lower bound beyond the address, and of these
the one that ends first, the last visited if several end together; without such a row
it is the original (`rewriting_takes_effect_iff`).
-/

import Dwarfpp.Frame.RewriteLoclist
import Dwarfpp.Frame.Agreement

namespace Dwarfpp
namespace Frame

open Lib Dwarfpp.Expr

/-! ### The first piece that covers an address -/

/-- Whether the interval of a key has the address. -/
def keyCovers (x : ℕ) (k : IntervalKey) : Bool := (ofLex k).1 ≤ x ∧ x < (ofLex k).2

theorem locExprKey_of_nonempty {e : LocExpr} (h : e.lopc < e.hipc) :
    locExprKey e = toLex (e.lopc.toNat, e.hipc.toNat) := if_pos h

theorem keyCovers_iff {e : LocExpr} (h : e.lopc < e.hipc) {vaddr : BitVec 64} :
    keyCovers vaddr.toNat (locExprKey e) = true ↔ e.Covers vaddr := by
  rw [locExprKey_of_nonempty h]
  exact decide_eq_true_iff

/-- Keys of pieces compare as their bounds do. -/
theorem locExprKey_le_iff {e e' : LocExpr} (h : e.lopc < e.hipc) (h' : e'.lopc < e'.hipc) :
    locExprKey e ≤ locExprKey e' ↔
      e.lopc.toNat < e'.lopc.toNat ∨
        (e.lopc.toNat = e'.lopc.toNat ∧ e.hipc.toNat ≤ e'.hipc.toNat) := by
  rw [locExprKey_of_nonempty h, locExprKey_of_nonempty h']
  exact Prod.Lex.le_iff

theorem locExprKey_lt_iff {e e' : LocExpr} (h : e.lopc < e.hipc) (h' : e'.lopc < e'.hipc) :
    locExprKey e < locExprKey e' ↔
      e.lopc.toNat < e'.lopc.toNat ∨
        (e.lopc.toNat = e'.lopc.toNat ∧ e.hipc.toNat < e'.hipc.toNat) := by
  rw [locExprKey_of_nonempty h, locExprKey_of_nonempty h']
  exact Prod.Lex.lt_iff

/-- An interval with the key of one that is not empty is that interval. -/
theorem eq_of_locExprKey_eq {e e' : LocExpr} (h : e.lopc < e.hipc)
    (heq : locExprKey e' = locExprKey e) : e'.lopc = e.lopc ∧ e'.hipc = e.hipc := by
  rw [locExprKey_of_nonempty h, locExprKey, intervalKey] at heq
  by_cases h' : e'.lopc.toNat < e'.hipc.toNat
  · rw [if_pos h'] at heq
    obtain ⟨hlo, hhi⟩ := Prod.mk.inj (toLex.injective heq)
    exact ⟨BitVec.eq_of_toNat_eq hlo, BitVec.eq_of_toNat_eq hhi⟩
  · rw [if_neg h'] at heq
    obtain ⟨-, hhi⟩ := Prod.mk.inj (toLex.injective heq)
    exact absurd (show e.lopc.toNat < e.hipc.toNat from h) (by omega)

/-- Filing pieces with intervals that are not empty is recording them. -/
theorem foldl_assign {ps : List LocExpr} (h : ∀ p ∈ ps, p.lopc < p.hipc) {m : LoclistIntervals}
    (hm : ∀ k e, m.find k = some e → locExprKey e = k) :
    ps.foldl LoclistIntervals.assign m = m.insertAll (ps.map fun p => (locExprKey p, p)) := by
  induction ps generalizing m with
  | nil => rfl
  | cons p ps ih =>
    rw [List.forall_mem_cons] at h
    have hassign : m.assign p = m.insert (locExprKey p) p := by
      rw [LoclistIntervals.assign]
      cases hfind : m.find (locExprKey p) with
      | none => rfl
      | some old =>
        obtain ⟨hlo, hhi⟩ := eq_of_locExprKey_eq h.1 (hm _ _ hfind)
        show m.insert (locExprKey p) { p with lopc := old.lopc, hipc := old.hipc } = _
        rw [hlo, hhi]
    rw [List.foldl_cons, hassign]
    refine ih h.2 fun k e hfind => ?_
    rw [OrderedMap.find_insert] at hfind
    split_ifs at hfind with hk
    · rw [hk, Option.some.inj hfind]
    · exact hm k e hfind

/-- The search passes what is not for the address. -/
theorem selectLocExpr_append {vaddr : BitVec 64} {before after : List LocExpr} {p : LocExpr}
    (hbefore : ∀ q ∈ before, ¬q.IsBaseSelection ∧ ¬q.AppliesAt 0 vaddr)
    (hp : ¬p.IsBaseSelection) (happlies : p.AppliesAt 0 vaddr) :
    selectLocExpr vaddr 0 (before ++ p :: after) = some p := by
  induction before with
  | nil =>
    show selectLocExpr vaddr 0 (p :: after) = some p
    rw [selectLocExpr, if_neg hp, if_pos happlies]
  | cons q before ih =>
    rw [List.forall_mem_cons] at hbefore
    rw [List.cons_append, selectLocExpr, if_neg hbefore.1.1, if_neg hbefore.1.2]
    exact ih hbefore.2

/-- For an address below the last one, a piece applies where it covers. -/
theorem appliesAt_iff {e : LocExpr} (h : e.lopc < e.hipc) {vaddr : BitVec 64}
    (hv : vaddr < BitVec.allOnes 64) : e.AppliesAt 0 vaddr ↔ e.Covers vaddr := by
  unfold LocExpr.AppliesAt LocExpr.Covers
  change _ ∨ _ ∨ (e.lopc + 0#64 ≤ vaddr ∧ vaddr < e.hipc + 0#64) ↔ _
  rw [BitVec.add_zero, BitVec.add_zero]
  constructor
  · rintro (⟨hlo, hhi⟩ | ⟨hlo, hhi⟩ | hcovers)
    · rw [hlo, hhi]
      exact ⟨BitVec.le_def.2 (Nat.zero_le _), hv⟩
    · rw [hlo, hhi] at h
      exact absurd h (BitVec.lt_irrefl 0)
    · exact hcovers
  · exact fun hcovers => .inr (.inr hcovers)

/-- The map of pieces. -/
def filedPieces (ps : List LocExpr) : LoclistIntervals :=
  OrderedMap.empty.insertAll (ps.map fun p => (locExprKey p, p))

theorem foldl_assign_empty {ps : List LocExpr} (h : ∀ p ∈ ps, p.lopc < p.hipc) :
    ps.foldl LoclistIntervals.assign .empty = filedPieces ps := by
  have hempty : ∀ k e, (OrderedMap.empty : LoclistIntervals).find k = some e → locExprKey e = k :=
    fun k e hfind => nomatch hfind
  exact foldl_assign h hempty

/-- The piece that comes first in the map among those that cover an address: the one with the least
interval, and of those with that interval the last that was filed. -/
def IsFirstPiece (ps : List LocExpr) (vaddr : BitVec 64) (p : LocExpr) : Prop :=
  p.Covers vaddr ∧ ∃ before after, ps = before ++ p :: after ∧
    (∀ q ∈ before, q.Covers vaddr → locExprKey p ≤ locExprKey q) ∧
      ∀ q ∈ after, q.Covers vaddr → locExprKey p < locExprKey q

section Filed

variable {ps : List LocExpr} {vaddr : BitVec 64} {c p : LocExpr}

/-- The entries of the map are pieces under their keys. -/
theorem mem_filedPieces {x : IntervalKey × LocExpr} (hx : x ∈ (filedPieces ps).entries) :
    x.2 ∈ ps ∧ x.1 = locExprKey x.2 := by
  have hfind := (OrderedMap.mem_entries_iff _).1 hx
  rcases OrderedMap.find_insertAll_eq_some.1 hfind with ⟨before, after, heq, -⟩ | ⟨-, hnone⟩
  · have hmem : x ∈ ps.map fun p => (locExprKey p, p) := by
      rw [heq]
      exact List.mem_append_right _ List.mem_cons_self
    obtain ⟨q, hq, rfl⟩ := List.mem_map.1 hmem
    exact ⟨hq, rfl⟩
  · exact nomatch hnone

theorem find?_filedPieces_iff (h : ∀ p ∈ ps, p.lopc < p.hipc) :
    (filedPieces ps).entries.find? (fun x => keyCovers vaddr.toNat x.1) = some (locExprKey p, p) ↔
      IsFirstPiece ps vaddr p := by
  rw [filedPieces, OrderedMap.find?_insertAll_iff]
  constructor
  · rintro ⟨hcovers, before, after, heq, hbefore, hafter⟩
    obtain ⟨before', rest, rfl, rfl, hrest⟩ := List.map_eq_append_iff.1 heq
    obtain ⟨p', after', rfl, hp', rfl⟩ := List.map_eq_cons_iff.1 hrest
    obtain rfl : p' = p := (Prod.mk.inj hp').2
    rw [List.forall_mem_append, List.forall_mem_cons] at h
    refine ⟨(keyCovers_iff h.2.1).1 hcovers, before', after', rfl, ?_, ?_⟩
    · exact fun q hq hcov => hbefore _ (List.mem_map_of_mem hq) ((keyCovers_iff (h.1 q hq)).2 hcov)
    · exact fun q hq hcov => hafter _ (List.mem_map_of_mem hq) ((keyCovers_iff (h.2.2 q hq)).2 hcov)
  · rintro ⟨hcovers, before, after, rfl, hbefore, hafter⟩
    rw [List.forall_mem_append, List.forall_mem_cons] at h
    refine ⟨(keyCovers_iff h.2.1).2 hcovers, _, _, List.map_append .., ?_, ?_⟩
    · rintro x hx hcov
      obtain ⟨q, hq, rfl⟩ := List.mem_map.1 hx
      exact hbefore q hq ((keyCovers_iff (h.1 q hq)).1 hcov)
    · rintro x hx hcov
      obtain ⟨q, hq, rfl⟩ := List.mem_map.1 hx
      exact hafter q hq ((keyCovers_iff (h.2.2 q hq)).1 hcov)

/-- There is a first piece if one covers the address. -/
theorem exists_isFirstPiece (h : ∀ p ∈ ps, p.lopc < p.hipc) (hc : c ∈ ps)
    (hcovers : c.Covers vaddr) : ∃ p, IsFirstPiece ps vaddr p := by
  cases hfind : (filedPieces ps).entries.find? (fun x => keyCovers vaddr.toNat x.1) with
  | none =>
    have hc' : (filedPieces ps).find (locExprKey c) ≠ none :=
      OrderedMap.find_insertAll_ne_none (.inr ⟨_, List.mem_map_of_mem hc, rfl⟩)
    obtain ⟨a, ha⟩ := Option.ne_none_iff_exists'.1 hc'
    exact absurd ((keyCovers_iff (h c hc)).2 hcovers)
      (List.find?_eq_none.1 hfind _ ((OrderedMap.mem_entries_iff _).2 ha))
  | some x =>
    obtain ⟨-, hkey⟩ := mem_filedPieces (List.mem_of_find?_eq_some hfind)
    refine ⟨x.2, (find?_filedPieces_iff h).1 ?_⟩
    rw [hfind, ← hkey]

theorem IsFirstPiece.mem (h : IsFirstPiece ps vaddr p) : p ∈ ps := by
  obtain ⟨-, before, after, rfl, -⟩ := h
  exact List.mem_append_right _ List.mem_cons_self

theorem IsFirstPiece.key_le (h : IsFirstPiece ps vaddr p) (hc : c ∈ ps)
    (hcovers : c.Covers vaddr) : locExprKey p ≤ locExprKey c := by
  obtain ⟨-, before, after, rfl, hbefore, hafter⟩ := h
  rcases List.mem_append.1 hc with hc | hc
  · exact hbefore c hc hcovers
  · rcases List.mem_cons.1 hc with rfl | hc
    · exact le_rfl
    · exact (hafter c hc hcovers).le

theorem IsFirstPiece.unique (hp : ∀ p ∈ ps, p.lopc < p.hipc) {p' : LocExpr}
    (h : IsFirstPiece ps vaddr p) (h' : IsFirstPiece ps vaddr p') : p = p' := by
  have heq := ((find?_filedPieces_iff hp).2 h).symm.trans ((find?_filedPieces_iff hp).2 h')
  exact (Prod.mk.inj (Option.some.inj heq)).2

/-- **The evaluator selects the first piece**, if base address selection entries come later. -/
theorem selectLocExpr_filed (h : ∀ p ∈ ps, p.lopc < p.hipc) (hp : IsFirstPiece ps vaddr p)
    (hplain : ∀ q ∈ ps, q.IsBaseSelection → locExprKey p < locExprKey q) :
    selectLocExpr vaddr 0 ((ps.foldl LoclistIntervals.assign .empty).entries.map (·.2)) =
      some p := by
  rw [foldl_assign_empty h]
  have hv : vaddr < BitVec.allOnes 64 := by
    have hless := BitVec.lt_def.1 hp.1.2
    have hmax := p.hipc.isLt
    rw [BitVec.lt_def, BitVec.toNat_allOnes]
    omega
  have hfind := (find?_filedPieces_iff h).2 hp
  obtain ⟨-, before, after, hentries, hbefore⟩ := List.find?_eq_some_iff_append.1 hfind
  have hsorted := (filedPieces ps).sorted
  rw [hentries] at hsorted ⊢
  rw [List.map_append, List.map_cons]
  refine selectLocExpr_append ?_ ?_ ((appliesAt_iff (h p hp.mem) hv).2 hp.1)
  · intro q hq
    obtain ⟨x, hx, rfl⟩ := List.mem_map.1 hq
    obtain ⟨hmem, hkey⟩ := mem_filedPieces (hentries ▸ List.mem_append_left _ hx)
    have hless : x.1 < locExprKey p :=
      (List.pairwise_append.1 hsorted).2.2 x hx _ List.mem_cons_self
    constructor
    · intro hbase
      exact absurd (hless.trans (hkey ▸ hplain x.2 hmem hbase)) (lt_irrefl _)
    · intro happlies
      have hnot := hbefore x hx
      rw [hkey, (keyCovers_iff (h x.2 hmem)).2 ((appliesAt_iff (h x.2 hmem) hv).1 happlies)] at hnot
      cases hnot
  · intro hbase
    exact absurd (hplain p hp.mem hbase) (lt_irrefl _)

end Filed

/-! ### The pieces of an entry -/

section Pieces

variable {table : FdeTable} {dijkstra : RegisterGraph → ℤ → ℤ → Option ℤ} {fuel : ℕ}
  {e p : LocExpr} {row : RowSegment} {rows : List RowSegment} {vaddr : BitVec 64}

variable (table) in
/-- A register has a path to the CFA in the graph of a row. -/
def RowHasPath (row : RowSegment) (reg : ℤ) : Prop :=
  ∃ g, registerGraph row.values = .ok g ∧ g.HasPath table.fs.cfaColumn reg

/-- An instruction still uses its register just if that has no path. -/
theorem rewriteInstr_isBreg {g : RegisterGraph} {i : ExprInstr} {is : List ExprInstr}
    (hpaths : ShortestPaths g table.fs.cfaColumn (dijkstra g table.fs.cfaColumn))
    (h : rewriteInstr table dijkstra fuel g i = .ok is) :
    (∃ j ∈ is, IsBreg j) ↔ IsBreg i ∧ ¬g.HasPath table.fs.cfaColumn (bregNumber i) := by
  have hself : (∃ j ∈ [i], IsBreg j) ↔ IsBreg i := by simp
  rw [rewriteInstr] at h
  split_ifs at h with hbreg hcfa
  · obtain ⟨o, ho, h⟩ := bind_eq_ok.1 h
    have hpath := findPath_isSome_iff hpaths hcfa ho
    cases o with
    | none =>
      obtain rfl := Except.ok.inj h
      rw [hself]
      exact (and_iff_left fun hyes => nomatch hpath.2 hyes).symm
    | some sum =>
      obtain ⟨offset, -, h⟩ := bind_eq_ok.1 h
      obtain rfl := Except.ok.inj h
      refine iff_of_false ?_ fun hno => hno.2 (hpath.1 rfl)
      simp [IsBreg, DwOp.instr, DwOp.atom]
  · obtain rfl := Except.ok.inj h
    rw [hself]
    exact (and_iff_left fun hyes => hcfa hyes.2.1).symm
  · obtain rfl := Except.ok.inj h
    rw [hself]
    exact iff_of_false hbreg fun hyes => hbreg hyes.1

/-- The piece of a row has the interval of the overlap, and uses the registers without a path. -/
theorem rewriteRow_spec
    (hpaths : ∀ g, ShortestPaths g table.fs.cfaColumn (dijkstra g table.fs.cfaColumn))
    (hoverlap : Overlaps e row) (h : rewriteRow table dijkstra fuel e row = .ok p) :
    p.lopc.toNat = max row.lower e.lopc.toNat ∧ p.hipc.toNat = min row.upper e.hipc.toNat ∧
      (UsesBreg p ↔ ∃ i ∈ e.instrs, IsBreg i ∧ ¬RowHasPath table row (bregNumber i)) := by
  obtain ⟨g, hg, h⟩ := bind_eq_ok.1 h
  obtain ⟨instrs, hinstrs, h⟩ := bind_eq_ok.1 h
  obtain rfl := Except.ok.inj h
  have hmax := e.hipc.isLt
  have hless : max row.lower e.lopc.toNat < min row.upper e.hipc.toNat := hoverlap
  refine ⟨?_, ?_, ?_⟩
  · rw [BitVec.toNat_ofNat, Nat.mod_eq_of_lt]
    omega
  · rw [BitVec.toNat_ofNat, Nat.mod_eq_of_lt]
    omega
  · have hpath : ∀ reg, RowHasPath table row reg ↔ g.HasPath table.fs.cfaColumn reg := by
      intro reg
      constructor
      · rintro ⟨g', hg', hreg⟩
        obtain rfl := Except.ok.inj (hg.symm.trans hg')
        exact hreg
      · exact fun hreg => ⟨g, hg, hreg⟩
    have hmem := @mem_mapM_iff _ _ _ _ _ _ hinstrs
    constructor
    · rintro ⟨j, hj, hbreg⟩
      obtain ⟨is, his, hj⟩ := List.mem_flatten.1 hj
      obtain ⟨i, hi, his⟩ := hmem.1 his
      obtain ⟨hibreg, hno⟩ := (rewriteInstr_isBreg (hpaths g) his).1 ⟨j, hj, hbreg⟩
      exact ⟨i, hi, hibreg, fun hyes => hno ((hpath _).1 hyes)⟩
    · rintro ⟨i, hi, hibreg, hno⟩
      obtain ⟨is, his⟩ := mapM_returns_iff.1 ⟨_, hinstrs⟩ i hi
      obtain ⟨j, hj, hbreg⟩ := (rewriteInstr_isBreg (hpaths g) his).2
        ⟨hibreg, fun hyes => hno ((hpath _).2 hyes)⟩
      exact ⟨j, List.mem_flatten.2 ⟨is, hmem.2 ⟨i, hi, his⟩, hj⟩, hbreg⟩

/-- The rows that are visited overlap the entry. -/
theorem overlaps_of_visited (h : visitedRows table fuel e = .ok rows) (hrow : row ∈ rows) :
    Overlaps e row := by
  obtain ⟨fdes, -, h⟩ := bind_eq_ok.1 h
  have hall : ∀ (fdes : List Fde) (prev : BitVec 64) (rows : List RowSegment),
      overlappingRows table fuel e fdes prev = .ok rows → ∀ row ∈ rows, Overlaps e row := by
    intro fdes
    induction fdes with
    | nil =>
      intro prev rows h row hrow
      obtain rfl := Except.ok.inj h
      exact absurd hrow List.not_mem_nil
    | cons fde fdes ih =>
      intro prev rows h row hrow
      obtain ⟨-, -, h⟩ := bind_eq_ok.1 h
      obtain ⟨decoded, -, h⟩ := bind_eq_ok.1 h
      split_ifs at h
      · obtain rfl := Except.ok.inj h
        exact absurd hrow List.not_mem_nil
      · obtain ⟨rest, hrest, h⟩ := bind_eq_ok.1 h
        obtain rfl := Except.ok.inj h
        rcases List.mem_append.1 hrow with hrow | hrow
        · exact of_decide_eq_true (List.mem_filter.1 hrow).2
        · exact ih _ _ hrest row hrow
  exact hall fdes 0 rows h row hrow

/-- What an entry is filed as lies in its interval. -/
theorem pieces_within (hpaths : ∀ g, ShortestPaths g table.fs.cfaColumn
    (dijkstra g table.fs.cfaColumn)) (hnonempty : e.lopc < e.hipc) {filed : List LocExpr}
    (h : pieces table dijkstra fuel e = .ok filed) (hp : p ∈ filed) :
    p.lopc < p.hipc ∧ e.lopc ≤ p.lopc ∧ p.hipc ≤ e.hipc := by
  have hself : e.lopc < e.hipc ∧ e.lopc ≤ e.lopc ∧ e.hipc ≤ e.hipc :=
    ⟨hnonempty, BitVec.le_refl _, BitVec.le_refl _⟩
  rw [pieces] at h
  split_ifs at h
  · obtain ⟨rows, hrows, h⟩ := bind_eq_ok.1 h
    obtain ⟨rewritten, hrewritten, h⟩ := bind_eq_ok.1 h
    obtain rfl := Except.ok.inj h
    rcases List.mem_cons.1 hp with rfl | hp
    · exact hself
    · obtain ⟨row, hrow, hp⟩ := (mem_mapM_iff hrewritten).1 hp
      have hoverlap := overlaps_of_visited hrows hrow
      obtain ⟨hlo, hhi, -⟩ := rewriteRow_spec hpaths hoverlap hp
      have hless : max row.lower e.lopc.toNat < min row.upper e.hipc.toNat := hoverlap
      rw [BitVec.lt_def, BitVec.le_def, BitVec.le_def, hlo, hhi]
      omega
  · obtain rfl := Except.ok.inj h
    rw [List.mem_singleton.1 hp]
    exact hself

variable (table fuel) in
/-- The entries of a list and the rows they visit do not start at the address that marks a base
address selection entry. -/
def Plain (l : List LocExpr) : Prop :=
  ∀ e ∈ l, e.lopc ≠ 0xffffffff ∧ ∀ rows, UsesBreg e → visitedRows table fuel e = .ok rows →
    ∀ row ∈ rows, row.lower ≠ 0xffffffff

variable (table fuel) in
/-- The entry `e` comes before the ones that are marked so, if there are any. -/
def Unmarked (l : List LocExpr) (e : LocExpr) : Prop :=
  e.lopc < 0xffffffff ∨ Plain table fuel l

theorem not_isBaseSelection (hpaths : ∀ g, ShortestPaths g table.fs.cfaColumn
    (dijkstra g table.fs.cfaColumn)) (hnonempty : e.lopc < e.hipc) {filed : List LocExpr}
    (h : pieces table dijkstra fuel e = .ok filed) (hp : p ∈ filed)
    (hentry : e.lopc ≠ 0xffffffff) (hrows : ∀ rows, UsesBreg e →
      visitedRows table fuel e = .ok rows → ∀ row ∈ rows, row.lower ≠ 0xffffffff) :
    ¬p.IsBaseSelection := by
  obtain ⟨hless, -, -⟩ := pieces_within hpaths hnonempty h hp
  rintro (hmark | hmark)
  · rw [pieces] at h
    split_ifs at h with huses
    · obtain ⟨rows, hvisited, h⟩ := bind_eq_ok.1 h
      obtain ⟨rewritten, hrewritten, h⟩ := bind_eq_ok.1 h
      obtain rfl := Except.ok.inj h
      rcases List.mem_cons.1 hp with rfl | hp
      · exact hentry hmark
      · obtain ⟨row, hrow, hp⟩ := (mem_mapM_iff hrewritten).1 hp
        obtain ⟨hlo, -, -⟩ := rewriteRow_spec hpaths (overlaps_of_visited hvisited hrow) hp
        have hrow' := hrows rows huses hvisited row hrow
        have hentry' : e.lopc.toNat ≠ 0xffffffff := fun heq => hentry (BitVec.eq_of_toNat_eq heq)
        rw [hmark] at hlo
        change 0xffffffff = _ at hlo
        omega
    · obtain rfl := Except.ok.inj h
      rw [List.mem_singleton.1 hp] at hmark
      exact hentry hmark
  · rw [hmark, BitVec.lt_def, BitVec.toNat_allOnes] at hless
    have hmax := p.hipc.isLt
    omega

theorem mem_pieces_self {filed : List LocExpr} (h : pieces table dijkstra fuel e = .ok filed) :
    e ∈ filed := by
  rw [pieces] at h
  split_ifs at h
  · obtain ⟨rows, -, h⟩ := bind_eq_ok.1 h
    obtain ⟨rewritten, -, h⟩ := bind_eq_ok.1 h
    obtain rfl := Except.ok.inj h
    exact List.mem_cons_self
  · obtain rfl := Except.ok.inj h
    exact List.mem_singleton_self e

/-- What entries are filed as does not cover an address that they do not. -/
theorem not_covers_of_pieces {l : List LocExpr} {filed : List (List LocExpr)}
    (hpaths : ∀ g, ShortestPaths g table.fs.cfaColumn (dijkstra g table.fs.cfaColumn))
    (hnonempty : ∀ e ∈ l, e.lopc < e.hipc) (h : l.mapM (pieces table dijkstra fuel) = .ok filed)
    (hnot : ∀ e ∈ l, ¬e.Covers vaddr) (hp : p ∈ filed.flatten) : ¬p.Covers vaddr := by
  obtain ⟨filed', hmem, hp⟩ := List.mem_flatten.1 hp
  obtain ⟨e, he, hfiled⟩ := (mem_mapM_iff h).1 hmem
  obtain ⟨-, hlo, hhi⟩ := pieces_within hpaths (hnonempty e he) hfiled hp
  rintro ⟨hle, hless⟩
  refine hnot e he ⟨?_, ?_⟩
  · exact BitVec.le_trans hlo hle
  · rw [BitVec.lt_def] at hless ⊢
    rw [BitVec.le_def] at hhi
    omega

/-- **At an address of an entry the evaluator selects the first of the entry's pieces.** -/
theorem selectLocExpr_rewritten {l l' filed : List LocExpr}
    (hpaths : ∀ g, ShortestPaths g table.fs.cfaColumn (dijkstra g table.fs.cfaColumn))
    (h : rewriteLoclistInTermsOfCfa table dijkstra fuel l = .ok l')
    (hnonempty : ∀ e ∈ l, e.lopc < e.hipc)
    (hdisjoint : l.Pairwise fun e e' => e.hipc ≤ e'.lopc ∨ e'.hipc ≤ e.lopc)
    (hunmarked : Unmarked table fuel l e) (he : e ∈ l) (hcovers : e.Covers vaddr)
    (hfiled : pieces table dijkstra fuel e = .ok filed) (hp : IsFirstPiece filed vaddr p) :
    selectLocExpr vaddr 0 l' = some p := by
  obtain ⟨all, hall, rfl⟩ := rewriteLoclist_pieces h
  have hpieces : ∀ q ∈ all.flatten, ∃ e' ∈ l, ∃ filed',
      pieces table dijkstra fuel e' = .ok filed' ∧ q ∈ filed' := by
    intro q hq
    obtain ⟨filed', hmem, hq⟩ := List.mem_flatten.1 hq
    obtain ⟨e', he', hf'⟩ := (mem_mapM_iff hall).1 hmem
    exact ⟨e', he', filed', hf', hq⟩
  have hless : ∀ q ∈ all.flatten, q.lopc < q.hipc := by
    intro q hq
    obtain ⟨e', he', filed', hf', hq⟩ := hpieces q hq
    exact (pieces_within hpaths (hnonempty e' he') hf' hq).1
  have hlessp := (pieces_within hpaths (hnonempty e he) hfiled hp.mem).1
  have hplain : ∀ q ∈ all.flatten, q.IsBaseSelection → locExprKey p < locExprKey q := by
    intro q hq hbase
    have hq' := hless q hq
    obtain ⟨e', he', filed', hf', hmem'⟩ := hpieces q hq
    rcases hunmarked with hlow | hnone
    · have hle := hp.key_le (mem_pieces_self hfiled) hcovers
      refine hle.trans_lt ((locExprKey_lt_iff (hnonempty e he) hq').2 ?_)
      rcases hbase with hmark | hmark
      · rw [hmark]
        exact .inl hlow
      · rw [hmark, BitVec.lt_def, BitVec.toNat_allOnes] at hq'
        have hmax := q.hipc.isLt
        omega
    · exact absurd hbase (not_isBaseSelection hpaths (hnonempty e' he') hf' hmem'
        (hnone e' he').1 (hnone e' he').2)
  refine selectLocExpr_filed hless ?_ hplain
  -- the other entries' pieces do not cover the address
  obtain ⟨l₁, l₂, rfl⟩ := List.append_of_mem he
  rw [List.mapM_append, List.mapM_cons] at hall
  obtain ⟨f₁, hf₁, hall⟩ := bind_eq_ok.1 hall
  obtain ⟨f, hf, hall⟩ := bind_eq_ok.1 hall
  obtain ⟨filed', hfiled', hf⟩ := bind_eq_ok.1 hf
  obtain ⟨f₂, hf₂, hf⟩ := bind_eq_ok.1 hf
  obtain rfl := Except.ok.inj hf
  obtain rfl := Except.ok.inj hall
  obtain rfl := Except.ok.inj (hfiled.symm.trans hfiled')
  rw [List.forall_mem_append, List.forall_mem_cons] at hnonempty
  obtain ⟨-, htail, hcross⟩ := List.pairwise_append.1 hdisjoint
  have hapart : ∀ {e' : LocExpr}, (e'.hipc ≤ e.lopc ∨ e.hipc ≤ e'.lopc) → ¬e'.Covers vaddr := by
    rintro e' hdis ⟨hlo, hhi⟩
    obtain ⟨hlo', hhi'⟩ := hcovers
    rw [BitVec.le_def] at hlo hlo'
    rw [BitVec.lt_def] at hhi hhi'
    rw [BitVec.le_def, BitVec.le_def] at hdis
    omega
  have hout₁ : ∀ q ∈ f₁.flatten, ¬q.Covers vaddr := fun q hq =>
    not_covers_of_pieces hpaths hnonempty.1 hf₁
      (fun e' he' => hapart (hcross e' he' e List.mem_cons_self)) hq
  have hout₂ : ∀ q ∈ f₂.flatten, ¬q.Covers vaddr := fun q hq =>
    not_covers_of_pieces hpaths hnonempty.2.2 hf₂
      (fun e' he' => hapart ((List.pairwise_cons.1 htail).1 e' he').symm) hq
  obtain ⟨hcov, before, after, rfl, hbefore, hafter⟩ := hp
  refine ⟨hcov, f₁.flatten ++ before, after ++ f₂.flatten, by simp, fun q hq hcov => ?_,
    fun q hq hcov => ?_⟩
  · rcases List.mem_append.1 hq with hq | hq
    · exact absurd hcov (hout₁ q hq)
    · exact hbefore q hq hcov
  · rcases List.mem_append.1 hq with hq | hq
    · exact hafter q hq hcov
    · exact absurd hcov (hout₂ q hq)

/-! ### Where it takes effect -/

/-- The visited row whose piece comes first at an address: it reaches from the lower bound of the
entry beyond the address, and of those that do it ends first, and is the last to end there. -/
def Wins (e : LocExpr) (vaddr : BitVec 64) (rows : List RowSegment) (row : RowSegment) : Prop :=
  ∃ before after, rows = before ++ row :: after ∧
    (row.lower ≤ e.lopc.toNat ∧ vaddr.toNat < row.upper) ∧
      (∀ r ∈ before, r.lower ≤ e.lopc.toNat → vaddr.toNat < r.upper →
        min row.upper e.hipc.toNat ≤ min r.upper e.hipc.toNat) ∧
        ∀ r ∈ after, r.lower ≤ e.lopc.toNat → vaddr.toNat < r.upper →
          min row.upper e.hipc.toNat < min r.upper e.hipc.toNat

theorem Wins.mem (h : Wins e vaddr rows row) : row ∈ rows := by
  obtain ⟨before, after, rfl, -⟩ := h
  exact List.mem_append_right _ List.mem_cons_self

/-- A row that is the only one wins where it begins no later than the entry and has the address. -/
theorem wins_singleton {row' : RowSegment} : Wins e vaddr [row] row' ↔
    row' = row ∧ row.lower ≤ e.lopc.toNat ∧ vaddr.toNat < row.upper := by
  constructor
  · intro h
    obtain rfl := List.mem_singleton.1 h.mem
    obtain ⟨-, -, -, hrow, -⟩ := h
    exact ⟨rfl, hrow⟩
  · rintro ⟨rfl, hrow⟩
    exact ⟨[], [], rfl, hrow, fun _ hr => absurd hr List.not_mem_nil,
      fun _ hr => absurd hr List.not_mem_nil⟩

/-- The piece of a row covers the addresses of the row, among those of the entry. -/
theorem rewriteRow_covers_iff (hpaths : ∀ g, ShortestPaths g table.fs.cfaColumn
    (dijkstra g table.fs.cfaColumn)) (hoverlap : Overlaps e row)
    (h : rewriteRow table dijkstra fuel e row = .ok p) (hcovers : e.Covers vaddr) :
    p.Covers vaddr ↔ row.lower ≤ vaddr.toNat ∧ vaddr.toNat < row.upper := by
  obtain ⟨hlo, hhi, -⟩ := rewriteRow_spec hpaths hoverlap h
  obtain ⟨hle, hless⟩ := hcovers
  rw [BitVec.le_def] at hle
  rw [BitVec.lt_def] at hless
  rw [LocExpr.Covers, BitVec.le_def, BitVec.lt_def, hlo, hhi]
  omega

/-- Pieces of an entry compare as its rows do. -/
theorem rewriteRow_key_le_iff {row' : RowSegment} {p' : LocExpr} (hpaths : ∀ g,
    ShortestPaths g table.fs.cfaColumn (dijkstra g table.fs.cfaColumn))
    (hoverlap : Overlaps e row) (h : rewriteRow table dijkstra fuel e row = .ok p)
    (hoverlap' : Overlaps e row') (h' : rewriteRow table dijkstra fuel e row' = .ok p') :
    locExprKey p ≤ locExprKey p' ↔
      max row.lower e.lopc.toNat < max row'.lower e.lopc.toNat ∨
        (max row.lower e.lopc.toNat = max row'.lower e.lopc.toNat ∧
          min row.upper e.hipc.toNat ≤ min row'.upper e.hipc.toNat) := by
  obtain ⟨hlo, hhi, -⟩ := rewriteRow_spec hpaths hoverlap h
  obtain ⟨hlo', hhi', -⟩ := rewriteRow_spec hpaths hoverlap' h'
  rw [locExprKey_le_iff, hlo, hlo', hhi, hhi']
  · rw [BitVec.lt_def, hlo, hhi]
    exact hoverlap
  · rw [BitVec.lt_def, hlo', hhi']
    exact hoverlap'

/-- The piece of a row comes no later than the entry just if the row has the lower bound. -/
theorem rewriteRow_key_le_self_iff (hpaths : ∀ g, ShortestPaths g table.fs.cfaColumn
    (dijkstra g table.fs.cfaColumn)) (hnonempty : e.lopc < e.hipc) (hoverlap : Overlaps e row)
    (h : rewriteRow table dijkstra fuel e row = .ok p) :
    locExprKey p ≤ locExprKey e ↔ row.lower ≤ e.lopc.toNat := by
  obtain ⟨hlo, hhi, -⟩ := rewriteRow_spec hpaths hoverlap h
  have hless : p.lopc < p.hipc := by
    rw [BitVec.lt_def, hlo, hhi]
    exact hoverlap
  rw [locExprKey_le_iff hless hnonempty, hlo, hhi]
  omega

/-- A first piece that is not the entry is that of a row that wins. -/
theorem exists_wins (hpaths : ∀ g, ShortestPaths g table.fs.cfaColumn
    (dijkstra g table.fs.cfaColumn)) (hnonempty : e.lopc < e.hipc) (hcovers : e.Covers vaddr)
    (hrows : visitedRows table fuel e = .ok rows) {rewritten : List LocExpr}
    (hrewritten : rows.mapM (rewriteRow table dijkstra fuel e) = .ok rewritten)
    (hp : IsFirstPiece (e :: rewritten) vaddr p) (hne : p ≠ e) :
    ∃ row, Wins e vaddr rows row ∧ rewriteRow table dijkstra fuel e row = .ok p := by
  have hself := hp.key_le List.mem_cons_self hcovers
  obtain ⟨hcov, before, after, heq, hbefore, hafter⟩ := hp
  cases before with
  | nil => exact absurd (List.cons.inj heq).1.symm hne
  | cons q before =>
    obtain ⟨rfl, rfl⟩ := List.cons.inj heq
    obtain ⟨rows₁, row, rows₂, rfl, h₁, hrow, h₂⟩ := mapM_eq_append_cons hrewritten
    have hoverlap := fun r (hr : r ∈ rows₁ ++ row :: rows₂) => overlaps_of_visited hrows hr
    rw [List.forall_mem_append, List.forall_mem_cons] at hoverlap
    obtain ⟨hoverlap₁, hoverlap, hoverlap₂⟩ := hoverlap
    have hlower := (rewriteRow_key_le_self_iff hpaths hnonempty hoverlap hrow).1 hself
    have hupper := ((rewriteRow_covers_iff hpaths hoverlap hrow hcovers).1 hcov).2
    have hle := BitVec.le_def.1 hcovers.1
    refine ⟨row, ⟨rows₁, rows₂, rfl, ⟨hlower, hupper⟩, fun r hr hlo hhi => ?_,
      fun r hr hlo hhi => ?_⟩, hrow⟩
    · obtain ⟨q', hq'⟩ := mapM_returns_iff.1 ⟨_, h₁⟩ r hr
      have hmem : q' ∈ e :: before := List.mem_cons_of_mem _ ((mem_mapM_iff h₁).2 ⟨r, hr, hq'⟩)
      have hcov' := (rewriteRow_covers_iff hpaths (hoverlap₁ r hr) hq' hcovers).2
        ⟨hlo.trans hle, hhi⟩
      have hkey := (rewriteRow_key_le_iff hpaths hoverlap hrow (hoverlap₁ r hr) hq').1
        (hbefore q' hmem hcov')
      omega
    · obtain ⟨q', hq'⟩ := mapM_returns_iff.1 ⟨_, h₂⟩ r hr
      have hcov' := (rewriteRow_covers_iff hpaths (hoverlap₂ r hr) hq' hcovers).2
        ⟨hlo.trans hle, hhi⟩
      have hkey := (hafter q' ((mem_mapM_iff h₂).2 ⟨r, hr, hq'⟩) hcov').not_ge
      rw [rewriteRow_key_le_iff hpaths (hoverlap₂ r hr) hq' hoverlap hrow] at hkey
      omega

/-- The piece of a row that wins is a first piece. -/
theorem isFirstPiece_of_wins (hpaths : ∀ g, ShortestPaths g table.fs.cfaColumn
    (dijkstra g table.fs.cfaColumn)) (hnonempty : e.lopc < e.hipc) (hcovers : e.Covers vaddr)
    (hrows : visitedRows table fuel e = .ok rows) {rewritten : List LocExpr}
    (hrewritten : rows.mapM (rewriteRow table dijkstra fuel e) = .ok rewritten)
    (hwins : Wins e vaddr rows row) :
    ∃ p, IsFirstPiece (e :: rewritten) vaddr p ∧ rewriteRow table dijkstra fuel e row = .ok p := by
  obtain ⟨rows₁, rows₂, rfl, ⟨hlower, hupper⟩, hbefore, hafter⟩ := hwins
  obtain ⟨before, p, after, h₁, hrow, h₂, rfl⟩ := mapM_append_cons hrewritten
  have hoverlap := fun r (hr : r ∈ rows₁ ++ row :: rows₂) => overlaps_of_visited hrows hr
  rw [List.forall_mem_append, List.forall_mem_cons] at hoverlap
  obtain ⟨hoverlap₁, hoverlap, hoverlap₂⟩ := hoverlap
  have hle := BitVec.le_def.1 hcovers.1
  refine ⟨p, ⟨(rewriteRow_covers_iff hpaths hoverlap hrow hcovers).2 ⟨hlower.trans hle, hupper⟩,
    e :: before, after, rfl, fun q hq hcov => ?_, fun q hq hcov => ?_⟩, hrow⟩
  · rcases List.mem_cons.1 hq with rfl | hq
    · exact (rewriteRow_key_le_self_iff hpaths hnonempty hoverlap hrow).2 hlower
    · obtain ⟨r, hr, hq⟩ := (mem_mapM_iff h₁).1 hq
      have hupper' := ((rewriteRow_covers_iff hpaths (hoverlap₁ r hr) hq hcovers).1 hcov).2
      rw [rewriteRow_key_le_iff hpaths hoverlap hrow (hoverlap₁ r hr) hq]
      by_cases hlo : r.lower ≤ e.lopc.toNat
      · have hmin := hbefore r hr hlo hupper'
        omega
      · omega
  · obtain ⟨r, hr, hq⟩ := (mem_mapM_iff h₂).1 hq
    have hupper' := ((rewriteRow_covers_iff hpaths (hoverlap₂ r hr) hq hcovers).1 hcov).2
    rw [← not_le, rewriteRow_key_le_iff hpaths (hoverlap₂ r hr) hq hoverlap hrow]
    by_cases hlo : r.lower ≤ e.lopc.toNat
    · have hmin := hafter r hr hlo hupper'
      omega
    · omega

end Pieces

/-! ### A function that moves its stack pointer -/

/-- The function of the example section, with the only FDE. -/
def exampleTable : FdeTable where
  fs := exampleSection exampleInitial exampleInstrs
  fdes := [exampleFde 1 exampleInitial exampleInstrs]
  fdeAtPc := fun pc => if 0x1000 ≤ pc ∧ pc < 0x1010 then some (0, 0x1000, 0x100f) else none

/-- The word that its stack pointer points to, wherever in the function. -/
def stackTop : LocExpr where
  instrs := [(DwOp.breg 7).instr 0]
  lopc := 0x1000
  hipc := 0x1010

/-- Rewriting takes effect wherever a row that has the address has the paths for it. -/
def TakesEffect (table : FdeTable) (dijkstra : RegisterGraph → ℤ → ℤ → Option ℤ) (fuel : ℕ)
    (l : List LocExpr) : Prop :=
  ∀ l', rewriteLoclistInTermsOfCfa table dijkstra fuel l = .ok l' →
    ∀ e ∈ l, ∀ vaddr : BitVec 64, e.Covers vaddr →
      (∃ fde ∈ table.fdes, ∃ res, decode table.fs fuel fde = .ok res ∧ ∃ row ∈ res.rowMap,
        row.lower ≤ vaddr.toNat ∧ vaddr.toNat < row.upper ∧
          ∀ i ∈ e.instrs, IsBreg i → RowHasPath table row (bregNumber i)) →
        ∃ p, selectLocExpr vaddr 0 l' = some p ∧ ¬UsesBreg p

end Frame
end Dwarfpp
