/-
# The table of references after a run of queries

`referred_from` is the inverse of `refers_to` as long as no reference is recorded
again: each query records its references in both (`Query.tables_eq`), so that the
two stay inverse to each other just if the references are new to them.  Then
the name that an anonymous DIE is associated with is read off the tree, whatever was
asked before (`inverse_of_run`).

Neither holds of every run: a reference that is found twice, or found before the
sweep, is in `referred_from` twice, and the DIE it is to has lost its name
(`find_typedefRoot`).
-/

import Dwarfpp.Dies.References

namespace Dwarfpp
namespace Dies

open Lib
open Lib.Preorder hiding firstChild nextSibling

/-- What is asked of a root. -/
inductive Query
  | find (off : ℕ) (referencer : Option (ℕ ×ₗ ℕ))
  | pos (off : ℕ) (optDepth parentOff : Option ℕ) (referencer : Option (ℕ ×ₗ ℕ))
  | ensureRefersToCacheIsComplete
  | insertAttribute (off attr target : ℕ)
  | findAssociatedName (off : ℕ)

section Model

variable (fuel : ℕ) (isProgramElement : ℕ → Bool)

/-- The answer is the associated name, if that is asked for. -/
def Query.run : Query → RootM (Option String)
  | .find off referencer => do
    let _ ← Dies.find fuel off referencer false
    return none
  | .pos off optDepth parentOff referencer => do
    let _ ← Dies.pos off optDepth parentOff referencer
    return none
  | .ensureRefersToCacheIsComplete => do
    Dies.ensureRefersToCacheIsComplete fuel
    return none
  | .insertAttribute off attr target => do
    Dies.insertAttribute fuel off attr (.ref target)
    return none
  | .findAssociatedName off => Dies.findAssociatedName fuel isProgramElement off

end Model

variable {t : List Node} {r r' : Root} {fuel : ℕ} {isProgramElement : ℕ → Bool}

/-- The references that a query records. -/
def Query.records (t : List Node) (r : Root) : Query → List ((ℕ ×ₗ ℕ) × ℕ)
  | .find off referencer =>
    if (naiveFind t off).isSome then referencer.toList.map fun key => (key, off) else []
  | .pos off optDepth _ referencer =>
    if optDepth = some 0 ∨ (r.liveDies off).isSome then []
    else referencer.toList.map fun key => (key, off)
  | .insertAttribute _ _ _ => []
  | .ensureRefersToCacheIsComplete | .findAssociatedName _ =>
    if r.tables.refersToCacheIsComplete then [] else treeReferences t r.tables.attrs

/-- `pos` is told the depth and the parent of the DIE that is there, if any.  The attribute inserted is
not `DW_AT_name`, which is none for references. -/
def Query.Told (t : List Node) : Query → Prop
  | .pos off optDepth parentOff _ => ∀ x ∈ t, x.offset = off →
      (∀ d, optDepth = some d → d = x.depth) ∧
      ∀ p, parentOff = some p → ∃ z, IsParent Node.depth t z x ∧ z.offset = p
  | .insertAttribute _ attr _ => attr ≠ dwAtName
  | _ => True

/-- What the query records is new to `refers_to`. -/
def Query.Fresh (t : List Node) (r : Root) (q : Query) : Prop :=
  ∀ e ∈ q.records t r, r.tables.refersTo.find e.1 = none

/-- What a query does: it keeps what the root knows, and records its references in the two tables. -/
structure Recorded (t : List Node) (es : List ((ℕ ×ₗ ℕ) × ℕ)) (r r' : Root) : Prop where
  consistent : Consistent t r'
  refersTo : r'.tables.refersTo = r.tables.refersTo.insertAll es
  referredFrom : r'.tables.referredFrom = r.tables.referredFrom ++ es.map Prod.swap

theorem recorded_nil (h : Consistent t r') (htables : r'.tables = r.tables) : Recorded t [] r r' := by
  refine ⟨h, ?_, ?_⟩
  · rw [htables]
    rfl
  · rw [htables, List.map_nil, List.append_nil]

/-- Recording a reference, if there is a referencer. -/
theorem recordReference_recorded (h : Consistent t r) (referencer : Option (ℕ ×ₗ ℕ)) (off : ℕ)
    {u : Unit} (hrun : recordReference referencer off r = .ok (u, r')) :
    Recorded t (referencer.toList.map fun key => (key, off)) r r' := by
  cases referencer with
  | none =>
    obtain rfl := (Prod.mk.inj (Except.ok.inj hrun)).2
    exact recorded_nil h rfl
  | some key =>
    obtain rfl := (Prod.mk.inj (Except.ok.inj hrun)).2
    exact ⟨h.withTables _, rfl, rfl⟩

theorem Recorded.of_moved {r₁ : Root} {es : List ((ℕ ×ₗ ℕ) × ℕ)} (h : Recorded t es r₁ r')
    (hmoved : Moved r r₁) : Recorded t es r r' := by
  refine ⟨h.consistent, ?_, ?_⟩
  · rw [h.refersTo, hmoved.tables]
  · rw [h.referredFrom, hmoved.tables]

theorem Recorded.to_moved {r₁ : Root} {es : List ((ℕ ×ₗ ℕ) × ℕ)} (h : Recorded t es r r₁)
    (hr' : Consistent t r') (hmoved : Moved r₁ r') : Recorded t es r r' := by
  refine ⟨hr', ?_, ?_⟩
  · rw [hmoved.tables, h.refersTo]
  · rw [hmoved.tables, h.referredFrom]

section Find

/-- `find` records the reference to what it finds. -/
theorem find_eq_bind (off : ℕ) (referencer : Option (ℕ ×ₗ ℕ)) (payload : Bool) :
    find fuel off referencer payload = find fuel off none payload >>= fun res =>
      match res with
      | none => return none
      | some it => recordReference referencer it.offset >>= fun _ => return (some it) := by
  unfold find
  rw [bind_assoc]
  refine bind_congr fun res => ?_
  cases res with
  | some it => rfl
  | none =>
    dsimp only
    rw [bind_assoc]
    refine bind_congr fun res => ?_
    cases res <;> rfl

/-- `find_upwards` gives up at once where no DIE is. -/
theorem findUpwards_absent (h : Consistent t r) {off n : ℕ} (hoff : ∀ x ∈ t, x.offset ≠ off) :
    findUpwards (n + 1) off false r = .ok (none, r) := by
  have h0 : off ≠ 0 := fun h0 => hoff rootNode h.wellFormed.root_mem h0.symm
  have hnone : r.parentOf off = none := by
    cases hp : r.parentOf off with
    | none => rfl
    | some p =>
      obtain ⟨x, y, hpar, -, hy⟩ := h.parents off p h0 hp
      exact absurd hy (hoff y (isParent_mem hpar).2)
  have hclimb : climb r.parentOf (n + 1) off 0 = .ok (off, 0) := by
    rw [climb, if_neg h0, hnone]
  change (climb r.parentOf (n + 1) off 0 >>= fun a => pure (a, r)).bind _ = _
  rw [hclimb]
  change (if off = 0 then (_ : RootM (Option Iterator)) else return none) r = _
  rw [if_neg h0]
  rfl

/-- `find` locates the DIE, at whatever offset it is asked for. -/
theorem find_locates (h : Consistent t r) (hfuel : EnoughFuel t fuel) (off : ℕ) :
    Reaches t (find fuel off none false) r fun res r' => Locates t off res r' := by
  by_cases hoff : off < fuel
  · exact (find_reaches h hoff hfuel.1 false).mono fun _ _ _ _ hpost => hpost.1
  · have habsent : ∀ x ∈ t, x.offset ≠ off := fun x hx heq => hoff (heq ▸ hfuel.2 x hx)
    obtain ⟨n, rfl⟩ := Nat.exists_eq_add_of_lt ((Nat.zero_le _).trans_lt hfuel.1)
    rw [Nat.zero_add] at hfuel ⊢
    refine StateReturns.bind (p := fun res r'' => res = none ∧ r'' = r)
      ⟨none, r, findUpwards_absent h habsent, h, Std.Refl.refl r, rfl, rfl⟩ ?_
    rintro - r₁ - - ⟨rfl, rfl⟩
    refine (findDownwards_reaches h off hfuel.1).bind ?_
    rintro res r₂ hr₂ - hfound
    cases res with
    | none => exact StateReturns.pure hr₂ hfound.locates
    | some it => exact StateReturns.pure hr₂ hfound.locates

/-- What a search for `off` says of the tree. -/
theorem Locates.naiveFind {off : ℕ} {res : Option Iterator} (hlocates : Locates t off res r) :
    (Dies.naiveFind t off).isSome = res.isSome ∧ ∀ it, res = some it → it.offset = off := by
  rcases hlocates with ⟨x, hx, hoff, -, it, rfl, hit, -⟩ | ⟨rfl, hno⟩
  · refine ⟨List.find?_isSome.2 ⟨x, hx, decide_eq_true hoff⟩, ?_⟩
    rintro it' ⟨⟩
    exact hit
  · refine ⟨?_, fun it hit => absurd hit (by simp)⟩
    rw [Dies.naiveFind, Option.isSome_none, Bool.eq_false_iff, Ne, List.find?_isSome]
    rintro ⟨x, hx, hoff⟩
    exact hno x hx (of_decide_eq_true hoff)

theorem find_recorded (h : Consistent t r) (hfuel : EnoughFuel t fuel) {off : ℕ}
    {referencer : Option (ℕ ×ₗ ℕ)} {res : Option Iterator}
    (hrun : find fuel off referencer false r = .ok (res, r')) :
    Recorded t ((Query.find off referencer).records t r) r r' := by
  obtain ⟨res₁, r₁, hfind, hr₁, hmoved, hlocates⟩ := find_locates h hfuel off
  obtain ⟨hsome, hoffset⟩ := hlocates.naiveFind
  rw [find_eq_bind] at hrun
  obtain ⟨res₂, r₂, hfind₂, hrun⟩ := stateT_bind_eq_ok hrun
  obtain ⟨rfl, rfl⟩ := Prod.mk.inj (Except.ok.inj (hfind.symm.trans hfind₂))
  rw [Query.records, hsome]
  cases res₁ with
  | none =>
    obtain rfl := (Prod.mk.inj (Except.ok.inj hrun)).2
    exact (recorded_nil hr₁ rfl).of_moved hmoved
  | some it =>
    obtain ⟨_, r₃, hrecord, hrun⟩ := stateT_bind_eq_ok hrun
    obtain rfl := (Prod.mk.inj (Except.ok.inj hrun)).2
    rw [hoffset it rfl] at hrecord
    exact (recordReference_recorded hr₁ referencer off hrecord).of_moved hmoved

end Find

section Pos

variable {off : ℕ} {optDepth parentOff : Option ℕ}

/-- `pos` records the reference to a DIE that is not live. -/
theorem pos_eq_bind (hdepth : optDepth ≠ some 0) (hlive : (r.liveDies off).isSome = false)
    (referencer : Option (ℕ ×ₗ ℕ)) :
    pos off optDepth parentOff referencer r =
      (pos off optDepth parentOff none >>= fun it =>
        recordReference referencer off >>= fun _ => return it) r := by
  change _ = (pos off optDepth parentOff none r).bind _
  rw [pos_eq_ite hdepth, pos_eq_ite hdepth, hlive]
  cases r.dbg.any fun lib => lib.offdie off with
  | false => rfl
  | true =>
    change (ofDie off optDepth r).bind _ = ((ofDie off optDepth r).bind _).bind _
    cases ofDie off optDepth r with
    | error e => rfl
    | ok res => rfl

theorem pos_recorded (h : Consistent t r) {referencer : Option (ℕ ×ₗ ℕ)} {it : Iterator}
    (htold : (Query.pos off optDepth parentOff referencer).Told t)
    (hrun : pos off optDepth parentOff referencer r = .ok (it, r')) :
    Recorded t ((Query.pos off optDepth parentOff referencer).records t r) r r' := by
  rw [Query.records]
  by_cases hz : optDepth = some 0
  · rw [if_pos (.inl hz)]
    replace hrun := stateT_get_bind_eq_ok hrun
    rw [if_pos hz] at hrun
    obtain ⟨_, r₁, hreq, hrun⟩ := stateT_bind_eq_ok hrun
    obtain ⟨_, r₂, hreq₂, hrun⟩ := stateT_bind_eq_ok hrun
    obtain rfl := (Prod.mk.inj (Except.ok.inj hrun)).2
    obtain rfl := (require_eq_ok hreq₂).2.trans (require_eq_ok hreq).2
    exact recorded_nil h rfl
  cases hlive : (r.liveDies off).isSome with
  | true =>
    rw [if_pos (.inr rfl)]
    replace hrun := stateT_get_bind_eq_ok hrun
    rw [if_neg hz, if_pos hlive] at hrun
    obtain rfl := (Prod.mk.inj (Except.ok.inj hrun)).2
    exact recorded_nil h rfl
  | false =>
    rw [if_neg (by simp [hz])]
    rw [pos_eq_bind hz hlive] at hrun
    obtain ⟨it₁, r₁, hpos, hrun⟩ := stateT_bind_eq_ok hrun
    obtain ⟨_, r₂, hrecord, hrun⟩ := stateT_bind_eq_ok hrun
    obtain rfl := (Prod.mk.inj (Except.ok.inj hrun)).2
    cases hd : dieAt t off with
    | none =>
      rw [pos_of_dieAt_none h hd hz] at hpos
      exact absurd hpos (by simp)
    | some x =>
      obtain ⟨hx, rfl, h0⟩ := (dieAt_eq_some h.wellFormed.sorted).1 hd
      obtain ⟨hdepth, hparent⟩ := htold x hx rfl
      obtain ⟨it₂, r₃, hpos₃, hr₃, hmoved, -⟩ := pos_reaches h hx hdepth hparent
        (fun hx0 => absurd hx0 h0) (fun _ => h.exists_parent hx h0)
      obtain ⟨rfl, rfl⟩ := Prod.mk.inj (Except.ok.inj (hpos₃.symm.trans hpos))
      exact (recordReference_recorded hr₃ referencer _ hrecord).of_moved hmoved

end Pos

section Runs

/-- The sweep records the references of the tree, unless it is done. -/
theorem ensureRefersToCacheIsComplete_recorded (h : Consistent t r) (hfuel : EnoughFuel t fuel)
    {u : Unit} (hrun : ensureRefersToCacheIsComplete fuel r = .ok (u, r')) :
    Recorded t (Query.ensureRefersToCacheIsComplete.records t r) r r' := by
  obtain ⟨r₁, hrun₁, hr₁, htables⟩ := ensureRefersToCacheIsComplete_returns h hfuel
  obtain ⟨-, rfl⟩ := Prod.mk.inj (Except.ok.inj (hrun₁.symm.trans hrun))
  rw [Query.records]
  split_ifs at htables ⊢
  · exact recorded_nil hr₁ htables
  · rw [recordAll_eq] at htables
    refine ⟨hr₁, ?_, ?_⟩
    · rw [htables]
    · rw [htables]

theorem insertAttribute_recorded (h : Consistent t r) {off attr target : ℕ} (hattr : attr ≠ dwAtName)
    {u : Unit} (hrun : insertAttribute fuel off attr (.ref target) r = .ok (u, r')) :
    Recorded t [] r r' := by
  obtain ⟨_, r₁, hreq, hrun⟩ := stateT_bind_eq_ok (stateT_get_bind_eq_ok hrun)
  rw [(require_eq_ok hreq).2] at hrun
  split_ifs at hrun
  · obtain rfl := (Prod.mk.inj (Except.ok.inj hrun)).2
    exact recorded_nil h rfl
  · obtain ⟨_, r₂, hset, hrun⟩ := stateT_bind_eq_ok hrun
    rw [updateCacheOnInsert, if_neg hattr] at hrun
    obtain rfl := (Prod.mk.inj (Except.ok.inj hrun)).2
    obtain rfl := (Prod.mk.inj (Except.ok.inj hset)).2
    refine ⟨h.withTables _, rfl, ?_⟩
    rw [List.map_nil, List.append_nil]

/-- **A query that returns records its references**, in both tables. -/
theorem Query.recorded (h : Consistent t r) (hfuel : EnoughFuel t fuel) {q : Query}
    (htold : q.Told t) {answer : Option String}
    (hrun : q.run fuel isProgramElement r = .ok (answer, r')) :
    Recorded t (q.records t r) r r' := by
  cases q with
  | find off referencer =>
    obtain ⟨res, r₁, hfind, hrun⟩ := stateT_bind_eq_ok hrun
    obtain rfl := (Prod.mk.inj (Except.ok.inj hrun)).2
    exact find_recorded h hfuel hfind
  | pos off optDepth parentOff referencer =>
    obtain ⟨it, r₁, hpos, hrun⟩ := stateT_bind_eq_ok hrun
    obtain rfl := (Prod.mk.inj (Except.ok.inj hrun)).2
    exact pos_recorded h htold hpos
  | ensureRefersToCacheIsComplete =>
    obtain ⟨_, r₁, hensure, hrun⟩ := stateT_bind_eq_ok hrun
    obtain rfl := (Prod.mk.inj (Except.ok.inj hrun)).2
    exact ensureRefersToCacheIsComplete_recorded h hfuel hensure
  | insertAttribute off attr target =>
    obtain ⟨_, r₁, hinsert, hrun⟩ := stateT_bind_eq_ok hrun
    obtain rfl := (Prod.mk.inj (Except.ok.inj hrun)).2
    exact insertAttribute_recorded h htold hinsert
  | findAssociatedName off =>
    obtain ⟨_, r₁, hensure, hrun⟩ := stateT_bind_eq_ok hrun
    have hrecorded := ensureRefersToCacheIsComplete_recorded h hfuel hensure
    replace hrun := stateT_get_bind_eq_ok hrun
    generalize r₁.tables.referredFrom.filter (fun e => decide (e.1 = off)) = references at hrun
    rcases references with _ | ⟨⟨_, key⟩, _ | ⟨e, references⟩⟩
    · obtain rfl := (Prod.mk.inj (Except.ok.inj hrun)).2
      exact hrecorded
    · obtain ⟨hr', hmoved, -⟩ := (nameFrom_unless hrecorded.consistent).of_eq_ok hrun
      exact hrecorded.to_moved hr' hmoved
    · obtain rfl := (Prod.mk.inj (Except.ok.inj hrun)).2
      exact hrecorded

/-- What a query records has no key twice. -/
theorem Query.nodup_keys_records (h : Sorted Node.offset t) (q : Query) :
    ((q.records t r).map Prod.fst).Nodup := by
  cases q with
  | find off referencer =>
    rw [Query.records]
    cases referencer <;> split_ifs <;> simp
  | pos off optDepth parentOff referencer =>
    rw [Query.records]
    cases referencer <;> split_ifs <;> simp
  | insertAttribute off attr target => exact List.nodup_nil
  | ensureRefersToCacheIsComplete =>
    unfold Query.records
    split_ifs
    · exact List.nodup_nil
    · exact nodup_keys_treeReferences h
  | findAssociatedName off =>
    unfold Query.records
    split_ifs
    · exact List.nodup_nil
    · exact nodup_keys_treeReferences h

/-- **A query keeps the tables inverse to each other just if what it records is new.** -/
theorem Query.inverse_iff (h : Consistent t r) (hfuel : EnoughFuel t fuel) {q : Query}
    (htold : q.Told t) {answer : Option String}
    (hrun : q.run fuel isProgramElement r = .ok (answer, r'))
    (hinverse : Inverse r.tables.refersTo r.tables.referredFrom) :
    Inverse r'.tables.refersTo r'.tables.referredFrom ↔ q.Fresh t r := by
  have hrecorded := q.recorded h hfuel htold hrun
  rw [hrecorded.refersTo, hrecorded.referredFrom, inverse_insertAll_iff hinverse]
  exact and_iff_left (q.nodup_keys_records h.wellFormed.sorted)

/-- Runs of queries that are told right and record nothing again. -/
inductive Run (t : List Node) (fuel : ℕ) (isProgramElement : ℕ → Bool) : Root → Root → Prop
  | refl {r : Root} : Run t fuel isProgramElement r r
  | step {r₀ r r' : Root} {q : Query} {answer : Option String}
      (run : Run t fuel isProgramElement r₀ r) (told : q.Told t) (fresh : q.Fresh t r)
      (returns : q.run fuel isProgramElement r = .ok (answer, r')) :
      Run t fuel isProgramElement r₀ r'

theorem Run.inverse {r₀ : Root} (h : Consistent t r₀) (hfuel : EnoughFuel t fuel)
    (hinverse : Inverse r₀.tables.refersTo r₀.tables.referredFrom)
    (hrun : Run t fuel isProgramElement r₀ r) :
    Consistent t r ∧ Inverse r.tables.refersTo r.tables.referredFrom := by
  induction hrun with
  | refl => exact ⟨h, hinverse⟩
  | @step r r' q answer run told fresh returns ih =>
    obtain ⟨hr, hinv⟩ := ih
    exact ⟨(q.recorded hr hfuel told returns).consistent,
      (q.inverse_iff hr hfuel told returns hinv).2 fresh⟩

/-- **`referred_from` is the inverse of `refers_to`** after any run, from a root that has recorded
nothing, of queries that record nothing again.  One that did would undo it.  The
associated name of an anonymous program element is then what the tree tells, where `refers_to` is
empty with the sweep to come or lists the references of the tree. -/
theorem inverse_of_run {r₀ : Root} (h : Consistent t r₀) (hfuel : EnoughFuel t fuel)
    (hto : r₀.tables.refersTo = OrderedMap.empty) (hfrom : r₀.tables.referredFrom = [])
    (hrun : Run t fuel isProgramElement r₀ r) :
    Inverse r.tables.refersTo r.tables.referredFrom ∧
      (∀ (q : Query) (answer : Option String) (r' : Root), q.Told t →
        q.run fuel isProgramElement r = .ok (answer, r') →
          (Inverse r'.tables.refersTo r'.tables.referredFrom ↔ q.Fresh t r)) ∧
      (Reading t r → ∀ us ∈ t, us.offset ≠ 0 → isProgramElement us.tag = true →
        nameOf r.tables.attrs us.offset = none →
          (findAssociatedName fuel isProgramElement us.offset r).map Prod.fst =
            associatedName t r.tables.attrs isProgramElement us) := by
  have hempty : Inverse r₀.tables.refersTo r₀.tables.referredFrom := by
    rw [hto, hfrom]
    exact inverse_empty
  obtain ⟨hr, hinverse⟩ := hrun.inverse h hfuel hempty
  refine ⟨hinverse, fun q answer r' htold hq => q.inverse_iff hr hfuel htold hq hinverse, ?_⟩
  intro hreading us hus h0 helement hanonymous
  exact findAssociatedName_eq hr hfuel hinverse hreading hus h0 helement hanonymous

end Runs

section Examples

/-- A reference followed for the first time, in a new root. -/
theorem inverse_smallRoot : ∃ answer r',
    (Query.find 20 (some (toLex (11, 0x49)))).run 30 (fun _ => true)
      (Root.make (some (smallFile 11 20)) (fun _ => OrderedMap.empty) false) = .ok (answer, r') ∧
    Inverse r'.tables.refersTo r'.tables.referredFrom :=
  ⟨_, _, rfl, (inverse_of_run consistent_smallRoot ⟨by decide, by decide⟩ rfl rfl
    (show Run smallTree 30 (fun _ => true) _ _ from
      .step (q := .find 20 (some (toLex (11, 0x49)))) .refl trivial (fun _ _ => rfl) rfl)).1⟩

/-- The answers about a file with a typedef at 20 of the structure at 30. -/
def typedefFile : Libdwarf where
  child off := if off = 11 then some 20 else none
  siblingof off := if off = 20 then some 30 else none
  offdie off := off = 11 ∨ off = 20 ∨ off = 30
  tag off := if off = 11 then dwTagCompileUnit else if off = 20 then 0x16 else 0x13
  cuDieoffset _ := 11
  cuHeaders := [.version4 4 11 100]

/-- The typedef has a name; the structure has none. -/
def typedefAttrs (off : ℕ) : AttributeMap :=
  if off = 20 then
    (OrderedMap.empty.insert dwAtName (.string "T")).insert 0x49 (.ref 30)
  else OrderedMap.empty

/-- A new root of that file. -/
def typedefRoot : Root := Root.make (some typedefFile) typedefAttrs false

/-- The typedef's reference to the structure, once it is followed, is recorded again by following it
and by the sweep.  The structure then has not the name that it had. -/
theorem find_typedefRoot :
    ((do
        let _ ← find 40 30 (some (toLex (20, 0x49))) false
        let _ ← find 40 30 (some (toLex (20, 0x49))) false
        return (← get).tables : RootM Tables) typedefRoot).map
      (fun res => (res.1.refersTo.find (toLex (20, 0x49)),
        res.1.referredFrom.count (30, toLex (20, 0x49)))) = .ok (some 30, 2) ∧
    (findAssociatedName 40 (fun tag => tag = 0x13 ∨ tag = 0x16) 30 typedefRoot).map Prod.fst =
      .ok (some "T") ∧
    ((do
        let _ ← find 40 30 (some (toLex (20, 0x49))) false
        findAssociatedName 40 (fun tag => tag = 0x13 ∨ tag = 0x16) 30) typedefRoot).map Prod.fst =
      .ok none :=
  ⟨rfl, rfl, rfl⟩

end Examples

end Dies
end Dwarfpp
