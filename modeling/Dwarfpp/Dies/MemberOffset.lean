/-
# The offset of a member in its type

`data_member_die::byte_offset_in_enclosing_type` of `src/dies.cpp`.  For a member without a
location it looks for the member before it, in three nested loops over the siblings.  The
middle one runs on until it is at the member itself, so the outer one is done at its first
turn, and what it takes for the previous member is the first one
(`previousMember_eq`).  So every member without a location gets the end of the first member
as its offset, which is right for the second one, and for a later one just if the member
before it ends where the first does (`packsRight_iff`).
-/

import Mathlib
import Dwarfpp.Expr.Evaluator
import Dwarfpp.Expr.LocExpr

namespace Dwarfpp
namespace Dies

open Lib Dwarfpp.Expr

/-- A `data_member_die`: the attributes that are looked at.  Of `DW_AT_type` it is what
`calculate_byte_size` says of the type. -/
structure DataMember where
  declaration : Option Bool
  dataMemberLocation : Option (List LocExpr)
  typeByteSize : Option (Option (BitVec 64))
  deriving DecidableEq, Repr

/-- `get_declaration() && *get_declaration()`. -/
def DataMember.IsDeclaration (m : DataMember) : Prop := m.declaration = some true

instance (m : DataMember) : Decidable m.IsDeclaration := inferInstanceAs (Decidable (_ = _))

/-- The tag of the parent of a member, by what is asked of it. -/
inductive EnclosingTag
  | structureType | classType | interfaceType | unionType | notWithDataMembers
  deriving DecidableEq, Repr

/-- The parent of a member, with its children that are data members, in order. -/
structure EnclosingType where
  tag : EnclosingTag
  members : List DataMember
  deriving DecidableEq, Repr

/-- An iterator over the data members: what is from its position on, each member with its place in
the list. -/
abbrev MemberIter := List (DataMember × ℕ)

/-- The loop that goes to the first member that is no declaration: "at the latest, we should hit
ourselves". -/
def skipDecls : MemberIter → Except Fault MemberIter
  | [] => .error .undefinedBehaviour
  | memb :: rest =>
    if memb.1.IsDeclaration then do
      assert (rest ≠ [])
      skipDecls rest
    else .ok (memb :: rest)

/-- The two inner loops from where the first increment leads: over declarations, and on while the
iterator is neither at its end nor at the member itself. -/
def runToSelf (self : ℕ) : MemberIter → Except Fault MemberIter
  | [] => .error .undefinedBehaviour
  | memb :: rest =>
    if memb.1.IsDeclaration then runToSelf self rest
    else if memb.2 ≠ self then runToSelf self rest
    else .ok (memb :: rest)

theorem length_le_of_runToSelf {self : ℕ} {l next : MemberIter} (h : runToSelf self l = .ok next) :
    next.length ≤ l.length ∧ next ≠ [] := by
  induction l with
  | nil => exact nomatch h
  | cons memb rest ih =>
    rw [runToSelf] at h
    split_ifs at h
    · exact ⟨Nat.le_succ_of_le (ih h).1, (ih h).2⟩
    · exact ⟨Nat.le_succ_of_le (ih h).1, (ih h).2⟩
    · obtain rfl := Except.ok.inj h
      exact ⟨Nat.le_refl _, List.cons_ne_nil _ _⟩

/-- The outer loop, for `a_previous_memb`. -/
def previousMember (self : ℕ) (aPreviousMemb : MemberIter) : Except Fault MemberIter :=
  match _hnext : runToSelf self aPreviousMemb.tail with
  | .error e => .error e
  | .ok nextMemb =>
    -- "break if we hit ourselves"
    if nextMemb.head?.map Prod.snd = some self then .ok aPreviousMemb
    else previousMember self nextMemb
termination_by aPreviousMemb.length
decreasing_by
  obtain ⟨hle, hne⟩ := length_le_of_runToSelf _hnext
  have hpos := List.length_pos_iff.2 hne
  rw [List.length_tail] at hle
  omega

/-- What the location of a member says: its evaluator starts with 0 on the stack. -/
def locationOffset : List LocExpr → Except Fault (Option (BitVec 64))
  | [expr] =>
    match (do let e ← evaluator ⟨none, none⟩ expr.instrs [0]; e.tos) with
    | .ok v => .ok (some v)
    | .error .notSupported => .ok none
    | .error e => .error e
  | _ => .ok none

/-- `byte_offset_in_enclosing_type(assume_packed_if_no_location)`. -/
def byteOffsetInEnclosingType (t : EnclosingType) :
    ℕ → DataMember × ℕ → Bool → Except Fault (Option (BitVec 64))
  | 0, _, _ => .error .outOfSteps
  | steps + 1, self, assumePackedIfNoLocation =>
    if self.1.IsDeclaration ∨ t.tag = .notWithDataMembers then .ok none
    else match self.1.dataMemberLocation with
      | some loclist => locationOffset loclist
      | none => do
        assert (t.members ≠ [])
        let realFirstMemb ← skipDecls t.members.zipIdx
        if realFirstMemb.head?.map Prod.snd = some self.2 ∨ t.tag = .unionType then return some 0
        else if assumePackedIfNoLocation then do
          match ← previousMember self.2 realFirstMemb with
          | [] => return none
          | prevMemb :: _ =>
            match prevMemb.1.typeByteSize.join with
            | none => return none
            | some prevByteSize => do
              let prevMemberOffset ← byteOffsetInEnclosingType t steps prevMemb true
              return prevMemberOffset.map (· + prevByteSize)
        else return none

/-- Where a first member without a location starts, or what its location says. -/
def DataMember.start (m : DataMember) : Except Fault (Option (BitVec 64)) :=
  match m.dataMemberLocation with
  | none => .ok (some 0)
  | some loclist => locationOffset loclist

/-- The size of the type of a member, where it is known. -/
def DataMember.byteSize (m : DataMember) : BitVec 64 := m.typeByteSize.join.getD 0

/-- A member ends where the first one does, which for one without a location means that it is
empty. -/
def DataMember.EndsWith (first m : DataMember) : Prop :=
  match m.dataMemberLocation with
  | none => ∀ v, first.start = .ok (some v) → m.byteSize = 0
  | some loclist => ∀ v, locationOffset loclist = .ok (some v) →
      ∃ w, first.start = .ok (some w) ∧ w + first.byteSize = v + m.byteSize

namespace EnclosingType

variable (t : EnclosingType)

/-- The members that are no declarations, in order. -/
def nonDecls : MemberIter := t.members.zipIdx.filter fun m => ¬m.1.IsDeclaration

/-- The offset of a member, with packing assumed. -/
def packedOffset (self : DataMember × ℕ) : Except Fault (Option (BitVec 64)) :=
  byteOffsetInEnclosingType t (t.members.length + 1) self true

/-- A struct or a class whose members have types of known size. -/
structure IsStruct : Prop where
  tag : t.tag = .structureType ∨ t.tag = .classType
  size : ∀ m ∈ t.nonDecls, m.1.typeByteSize.join.isSome = true

/-- The members without a location are where packing puts them: the first at 0, each other one at
the end of the one before it, and so, if no member has a location, at the sum of the sizes of
those before it. -/
structure PacksRight : Prop where
  first : ∀ m ∈ t.nonDecls.head?, m.1.dataMemberLocation = none → t.packedOffset m = .ok (some 0)
  next : ∀ (k : ℕ) (hk : k + 1 < t.nonDecls.length) (v : BitVec 64),
    t.nonDecls[k + 1].1.dataMemberLocation = none → t.packedOffset t.nonDecls[k] = .ok (some v) →
      t.packedOffset t.nonDecls[k + 1] = .ok (some (v + t.nonDecls[k].1.byteSize))
  sum : (∀ m ∈ t.nonDecls, m.1.dataMemberLocation = none) →
    ∀ (k : ℕ) (hk : k < t.nonDecls.length),
      t.packedOffset t.nonDecls[k] =
        .ok (some ((t.nonDecls.take k).map fun m => m.1.byteSize).sum)

end EnclosingType

section Loops

variable {self : DataMember × ℕ} {l rest : MemberIter}

/-- **The two inner loops run to the member itself.** -/
theorem runToSelf_eq (hmem : self ∈ l) (hself : ¬self.1.IsDeclaration)
    (hinj : ∀ m ∈ l, m.2 = self.2 → m = self) :
    ∃ rest, runToSelf self.2 l = .ok (self :: rest) := by
  induction l with
  | nil => exact absurd hmem List.not_mem_nil
  | cons memb rest ih =>
    rw [List.forall_mem_cons] at hinj
    rw [runToSelf]
    by_cases heq : memb = self
    · obtain rfl := heq
      exact ⟨rest, by rw [if_neg hself, if_neg (not_not_intro rfl)]⟩
    · have hrun := ih ((List.mem_cons.1 hmem).resolve_left (Ne.symm heq)) hinj.2
      have hne : memb.2 ≠ self.2 := fun hidx => heq (hinj.1 hidx)
      rwa [if_pos hne, ite_self]

/-- **What is taken for the previous member is where the search began.** -/
theorem previousMember_eq (hmem : self ∈ l.tail) (hself : ¬self.1.IsDeclaration)
    (hinj : ∀ m ∈ l.tail, m.2 = self.2 → m = self) : previousMember self.2 l = .ok l := by
  obtain ⟨rest, hrun⟩ := runToSelf_eq hmem hself hinj
  rw [previousMember]
  split
  · next e he => exact absurd (he.symm.trans hrun) nofun
  · next next hnext =>
    obtain rfl := Except.ok.inj (hnext.symm.trans hrun)
    exact if_pos rfl

/-- The declarations before the first member are skipped. -/
theorem skipDecls_eq {first : DataMember × ℕ} {others : MemberIter}
    (h : (l.filter fun m => ¬m.1.IsDeclaration) = first :: others) :
    ∃ rest, skipDecls l = .ok (first :: rest) ∧ (first :: rest) <:+ l ∧
      (rest.filter fun m => ¬m.1.IsDeclaration) = others := by
  induction l with
  | nil => exact nomatch h
  | cons memb l ih =>
    rw [skipDecls]
    by_cases hdecl : memb.1.IsDeclaration
    · rw [List.filter_cons_of_neg (by simpa using hdecl)] at h
      obtain ⟨rest, hskip, hsuffix, hrest⟩ := ih h
      have hne : l ≠ [] := fun hnil => by rw [hnil] at h; exact nomatch h
      rw [if_pos hdecl, assert_ok hne, ok_bind]
      exact ⟨rest, hskip, hsuffix.trans (List.suffix_cons _ _), hrest⟩
    · rw [List.filter_cons_of_pos (by simpa using hdecl)] at h
      obtain ⟨rfl, hrest⟩ := List.cons.inj h
      exact ⟨l, if_neg hdecl, List.suffix_refl _, hrest⟩

end Loops

namespace EnclosingType

variable {t : EnclosingType} {first self : DataMember × ℕ} {others : MemberIter}

theorem mem_nonDecls_iff : self ∈ t.nonDecls ↔ self ∈ t.members.zipIdx ∧ ¬self.1.IsDeclaration := by
  rw [nonDecls, List.mem_filter, decide_eq_true_eq]

theorem eq_of_place_eq {m m' : DataMember × ℕ} (hm : m ∈ t.members.zipIdx)
    (hm' : m' ∈ t.members.zipIdx) (h : m.2 = m'.2) : m = m' := by
  rw [List.mem_zipIdx_iff_getElem?] at hm hm'
  rw [h, hm'] at hm
  exact Prod.ext (Option.some.inj hm).symm h

theorem IsStruct.tag_ne (h : t.IsStruct) : t.tag ≠ .notWithDataMembers ∧ t.tag ≠ .unionType := by
  rcases h.tag with htag | htag <;> rw [htag] <;> exact ⟨nofun, nofun⟩

theorem IsStruct.typeByteSize_eq (h : t.IsStruct) (hm : self ∈ t.nonDecls) :
    self.1.typeByteSize.join = some self.1.byteSize := by
  obtain ⟨n, hn⟩ := Option.isSome_iff_exists.1 (h.size self hm)
  rw [DataMember.byteSize, hn]
  rfl

/-- A member with a location is where that says. -/
theorem byteOffset_of_location {loclist : List LocExpr} (h : t.IsStruct) (hm : self ∈ t.nonDecls)
    (hloc : self.1.dataMemberLocation = some loclist) (steps : ℕ) (b : Bool) :
    byteOffsetInEnclosingType t (steps + 1) self b = locationOffset loclist := by
  have hneg : ¬(self.1.IsDeclaration ∨ t.tag = .notWithDataMembers) :=
    not_or_intro (mem_nonDecls_iff.1 hm).2 h.tag_ne.1
  rw [byteOffsetInEnclosingType, if_neg hneg, hloc]

/-- The first member is where its location says, or at 0. -/
theorem byteOffset_first (h : t.IsStruct) (hfirst : t.nonDecls = first :: others) (steps : ℕ)
    (b : Bool) : byteOffsetInEnclosingType t (steps + 1) first b = first.1.start := by
  have hm : first ∈ t.nonDecls := by rw [hfirst]; exact List.mem_cons_self
  obtain ⟨hmem, hdecl⟩ := mem_nonDecls_iff.1 hm
  cases hloc : first.1.dataMemberLocation with
  | some loclist => rw [byteOffset_of_location h hm hloc, DataMember.start, hloc]
  | none =>
    obtain ⟨rest, hskip, -⟩ := skipDecls_eq hfirst
    have hneg : ¬(first.1.IsDeclaration ∨ t.tag = .notWithDataMembers) :=
      not_or_intro hdecl h.tag_ne.1
    have hne : t.members ≠ [] := fun hnil => by rw [hnil] at hmem; exact nomatch hmem
    rw [byteOffsetInEnclosingType, if_neg hneg, hloc, DataMember.start, hloc]
    dsimp only
    rw [assert_ok hne, ok_bind, hskip, ok_bind, if_pos (.inl rfl)]
    rfl

/-- **Every other member without a location is at the end of the first one.** -/
theorem byteOffset_next (h : t.IsStruct) (hfirst : t.nonDecls = first :: others)
    (hself : self ∈ others) (hloc : self.1.dataMemberLocation = none) (steps : ℕ) :
    byteOffsetInEnclosingType t (steps + 2) self true =
      (do let offset ← first.1.start; return offset.map (· + first.1.byteSize)) := by
  have hm : self ∈ t.nonDecls := by rw [hfirst]; exact List.mem_cons_of_mem _ hself
  have hmFirst : first ∈ t.nonDecls := by rw [hfirst]; exact List.mem_cons_self
  obtain ⟨hmem, hdecl⟩ := mem_nonDecls_iff.1 hm
  obtain ⟨rest, hskip, hsuffix, hrest⟩ := skipDecls_eq hfirst
  have hsub : ∀ m ∈ rest, m ∈ t.members.zipIdx :=
    fun m hm => hsuffix.subset (List.mem_cons_of_mem _ hm)
  have hselfRest : self ∈ rest := by
    rw [← hrest] at hself
    exact (List.mem_filter.1 hself).1
  have hnodup : (first :: rest).Nodup :=
    hsuffix.sublist.nodup (List.nodup_zipIdx_map_snd t.members).of_map
  have hplace : first.2 ≠ self.2 := by
    intro heq
    obtain rfl := eq_of_place_eq (mem_nonDecls_iff.1 hmFirst).1 hmem heq
    exact (List.nodup_cons.1 hnodup).1 hselfRest
  have hprev : previousMember self.2 (first :: rest) = .ok (first :: rest) :=
    previousMember_eq hselfRest hdecl fun m hm => eq_of_place_eq (hsub m hm) hmem
  have hneg : ¬(self.1.IsDeclaration ∨ t.tag = .notWithDataMembers) :=
    not_or_intro hdecl h.tag_ne.1
  have hne : t.members ≠ [] := fun hnil => by rw [hnil] at hmem; exact nomatch hmem
  have hhead : ¬((first :: rest).head?.map Prod.snd = some self.2 ∨ t.tag = .unionType) :=
    not_or_intro (fun heq => hplace (Option.some.inj heq)) h.tag_ne.2
  rw [byteOffsetInEnclosingType, if_neg hneg, hloc]
  dsimp only
  rw [assert_ok hne, ok_bind, hskip, ok_bind, if_neg hhead, if_pos rfl, hprev, ok_bind]
  dsimp only
  rw [h.typeByteSize_eq hmFirst]
  dsimp only
  rw [byteOffset_first h hfirst]

/-- There is fuel enough for the member and the first one. -/
theorem packedOffset_eq (h : t.IsStruct) (hfirst : t.nonDecls = first :: others)
    (hself : self ∈ others) :
    t.packedOffset self = match self.1.dataMemberLocation with
      | some loclist => locationOffset loclist
      | none => (do let offset ← first.1.start; return offset.map (· + first.1.byteSize)) := by
  have hm : self ∈ t.nonDecls := by rw [hfirst]; exact List.mem_cons_of_mem _ hself
  obtain ⟨n, hn⟩ : ∃ n, t.members.length = n + 1 := by
    refine Nat.exists_eq_succ_of_ne_zero fun hzero => ?_
    have hmem := (mem_nonDecls_iff.1 hm).1
    rw [List.eq_nil_of_length_eq_zero hzero] at hmem
    exact nomatch hmem
  rw [packedOffset, hn]
  cases hloc : self.1.dataMemberLocation with
  | some loclist => exact byteOffset_of_location h hm hloc _ _
  | none => exact byteOffset_next h hfirst hself hloc n

theorem packedOffset_first (h : t.IsStruct) (hfirst : t.nonDecls = first :: others) :
    t.packedOffset first = first.1.start := byteOffset_first h hfirst _ _

/-- A third or later member without a location has before it one that ends where the first does. -/
def LaterEndWithFirst (t : EnclosingType) : Prop :=
  ∀ first ∈ t.nonDecls.head?, ∀ (k : ℕ) (hk : k + 2 < t.nonDecls.length),
    t.nonDecls[k + 2].1.dataMemberLocation = none → first.1.EndsWith t.nonDecls[k + 1].1

/-- One step of packing behind the second member. -/
theorem next_iff {m : DataMember × ℕ} (h : t.IsStruct) (hfirst : t.nonDecls = first :: others)
    (hm : m ∈ others) (hself : self ∈ others) (hloc : self.1.dataMemberLocation = none) :
    (∀ v, t.packedOffset m = .ok (some v) →
        t.packedOffset self = .ok (some (v + m.1.byteSize))) ↔ first.1.EndsWith m.1 := by
  rw [packedOffset_eq h hfirst hm, packedOffset_eq h hfirst hself, hloc, DataMember.EndsWith]
  dsimp only
  cases hmloc : m.1.dataMemberLocation with
  | none =>
    dsimp only
    cases hstart : first.1.start with
    | error e => exact ⟨fun _ => nofun, fun _ => nofun⟩
    | ok start =>
      cases start with
      | none => exact ⟨fun _ => nofun, fun _ => nofun⟩
      | some w =>
        constructor
        · intro hnext v _
          have heq := Option.some.inj (Except.ok.inj (hnext (w + first.1.byteSize) rfl))
          exact BitVec.add_right_eq_self.1 heq.symm
        · intro hzero v hv
          have hadd : v + 0 = v := BitVec.add_zero v
          rw [hzero w rfl, hadd]
          exact hv
  | some loclist =>
    dsimp only
    refine forall_congr' fun v => imp_congr_right fun hv => ?_
    cases hstart : first.1.start with
    | error e => exact ⟨nofun, fun ⟨w, hw, _⟩ => nomatch hw⟩
    | ok start =>
      cases start with
      | none => exact ⟨nofun, fun ⟨w, hw, _⟩ => nomatch hw⟩
      | some w =>
        constructor
        · intro hnext
          exact ⟨w, rfl, Option.some.inj (Except.ok.inj hnext)⟩
        · rintro ⟨w', hw, heq⟩
          obtain rfl := Option.some.inj (Except.ok.inj hw)
          rw [← heq]
          rfl

theorem getElem_succ_mem (hfirst : t.nonDecls = first :: others) {k : ℕ}
    (hk : k + 1 < t.nonDecls.length) : t.nonDecls[k + 1] ∈ others := by
  have hlen : k < others.length := by
    rw [hfirst, List.length_cons] at hk
    omega
  have hget : t.nonDecls[k + 1] = others[k] := by
    simp only [hfirst, List.getElem_cons_succ]
  rw [hget]
  exact List.getElem_mem hlen

/-- Offsets that follow one another are sums of sizes. -/
theorem sum_of_next (h : t.IsStruct) (hfirst : t.nonDecls = first :: others)
    (hnext : ∀ (k : ℕ) (hk : k + 1 < t.nonDecls.length) (v : BitVec 64),
      t.nonDecls[k + 1].1.dataMemberLocation = none → t.packedOffset t.nonDecls[k] = .ok (some v) →
        t.packedOffset t.nonDecls[k + 1] = .ok (some (v + t.nonDecls[k].1.byteSize)))
    (hnone : ∀ m ∈ t.nonDecls, m.1.dataMemberLocation = none) (k : ℕ)
    (hk : k < t.nonDecls.length) :
    t.packedOffset t.nonDecls[k] =
      .ok (some ((t.nonDecls.take k).map fun m => m.1.byteSize).sum) := by
  induction k with
  | zero =>
    have hhead : t.nonDecls[0] = first := by simp only [hfirst, List.getElem_cons_zero]
    have hloc := hnone first (by rw [hfirst]; exact List.mem_cons_self)
    rw [hhead, packedOffset_first h hfirst, DataMember.start, hloc]
    rfl
  | succ k ih =>
    have hk' : k < t.nonDecls.length := Nat.lt_of_succ_lt hk
    rw [hnext k hk _ (hnone _ (List.getElem_mem hk)) (ih hk'), List.take_succ_eq_append_getElem hk',
      List.map_append, List.sum_append]
    simp

/-- **A struct packs its members right** just if each third or later member without a location has
before it one that ends where the first member does. -/
theorem packsRight_iff (h : t.IsStruct) : t.PacksRight ↔ t.LaterEndWithFirst := by
  constructor
  · intro hpacks first hhead k hk hloc
    obtain ⟨others, hfirst⟩ : ∃ others, t.nonDecls = first :: others :=
      ⟨_, List.eq_cons_of_mem_head? hhead⟩
    exact (next_iff h hfirst (getElem_succ_mem hfirst (Nat.lt_of_succ_lt hk))
      (getElem_succ_mem hfirst hk) hloc).1 fun v hv => hpacks.next (k + 1) hk v hloc hv
  · intro hlater
    cases hfirst : t.nonDecls with
    | nil =>
      have hlen : t.nonDecls.length = 0 := by rw [hfirst, List.length_nil]
      refine ⟨fun m hm => ?_, fun k hk => absurd hk (by omega), fun _ k hk => absurd hk (by omega)⟩
      rw [hfirst] at hm
      exact nomatch hm
    | cons first others =>
      have hnext : ∀ (k : ℕ) (hk : k + 1 < t.nonDecls.length) (v : BitVec 64),
          t.nonDecls[k + 1].1.dataMemberLocation = none →
          t.packedOffset t.nonDecls[k] = .ok (some v) →
          t.packedOffset t.nonDecls[k + 1] = .ok (some (v + t.nonDecls[k].1.byteSize)) := by
        intro k hk v hloc hv
        have hmem := getElem_succ_mem hfirst hk
        cases k with
        | zero =>
          have hhead : t.nonDecls[0] = first := by simp only [hfirst, List.getElem_cons_zero]
          rw [hhead, packedOffset_first h hfirst] at hv
          rw [hhead, packedOffset_eq h hfirst hmem, hloc]
          dsimp only
          rw [hv]
          rfl
        | succ k =>
          have hends := hlater first (by rw [hfirst]; rfl) k hk hloc
          exact (next_iff h hfirst (getElem_succ_mem hfirst (Nat.lt_of_succ_lt hk)) hmem hloc).2
            hends v hv
      refine ⟨fun m hm hloc => ?_, hnext, sum_of_next h hfirst hnext⟩
      rw [hfirst] at hm
      obtain rfl := Option.some.inj hm
      rw [packedOffset_first h hfirst, DataMember.start, hloc]

/-- Three members without a location, of which the second has no size. -/
def emptySecond : EnclosingType :=
  ⟨.classType, [⟨none, none, some (some 4)⟩, ⟨none, none, some (some 0)⟩,
    ⟨none, none, some (some 2)⟩]⟩

theorem emptySecond_packsRight : emptySecond.PacksRight := by
  refine (packsRight_iff ⟨.inr rfl, by decide⟩).2 fun first _ k hk _ => ?_
  have hlen : emptySecond.nonDecls.length = 3 := rfl
  obtain rfl : k = 0 := by omega
  exact fun _ _ => rfl

/-- Three members without a location, with sizes 4, 8 and 2. -/
def threeMembers : EnclosingType :=
  ⟨.structureType, [⟨none, none, some (some 4)⟩, ⟨none, none, some (some 8)⟩,
    ⟨none, none, some (some 2)⟩]⟩

/-- The third of the members is put at 4, where the second one is. -/
theorem not_packsRight_threeMembers : ¬∀ t : EnclosingType, t.IsStruct → t.PacksRight := by
  intro hall
  have hstruct : threeMembers.IsStruct := ⟨.inl rfl, by decide⟩
  have hpacks := hall threeMembers hstruct
  have hends := (@next_iff threeMembers (⟨none, none, some (some 4)⟩, 0)
    (⟨none, none, some (some 2)⟩, 2) _ (⟨none, none, some (some 8)⟩, 1) hstruct rfl (by decide)
    (by decide) rfl).1 fun v hv => hpacks.next 1 (by decide) v rfl hv
  exact absurd (hends 0 rfl) (by decide)

end EnclosingType

end Dies
end Dwarfpp
