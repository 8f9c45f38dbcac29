/-
# Recording a result

The second half of a cached comparison: a type that has no class is put in one,
and `Ready.file` says when the tables are sound afterwards.  From it follow the
specifications of `find_or_create_eq_class`, of both ways to record a result,
and of the whole of `equalThroughCache`.
-/

import Dwarfpp.Types.CacheSteps

namespace Dwarfpp
namespace Types

open Lib

variable {ι : Type} {g : TypeGraph ι} {summaryCode : ι → Option (BitVec 32)}
variable {rank : ι → ℕ} {s s' s'' : EqualityCache ι} {c : ℕ} {z : ι}

section Ready

variable (g summaryCode rank) in
/-- The tables are about to have `z` filed under the class `c`: one whose members are equal to
`z`, or a new one where no class has such members.  `s₁` are the tables before the class was
touched. -/
structure Ready (z : ι) (s s₁ : EqualityCache ι) (c : ℕ) (s' : EqualityCache ι) : Prop where
  sound : Sound g summaryCode s₁
  ext : Extends rank (rank z) s s₁
  classOf : s'.equivalenceClassOf = s₁.equivalenceClassOf
  keeps : ∀ d y, InClass s₁ d y → InClass s' d y
  adds : ∀ d y, InClass s' d y → InClass s₁ d y ∨ (d = c ∧ y = z)
  index : (s'.bySummaryCode = s₁.bySummaryCode ∧
      s'.equivalenceClasses.length = s₁.equivalenceClasses.length ∧
      ∃ x, s₁.equivalenceClassOf x = some c ∧ Bisimilar g summaryCode x z) ∨
    (s'.bySummaryCode = s₁.bySummaryCode ++ [(summaryCode z, c)] ∧
      c = s₁.equivalenceClasses.length ∧
      s'.equivalenceClasses.length = s₁.equivalenceClasses.length + 1 ∧
      ∀ x d, s₁.equivalenceClassOf x = some d → ¬Bisimilar g summaryCode x z)

theorem summaryCode_eq_of_bisimilar {x y : ι} (h : Bisimilar g summaryCode x y) :
    summaryCode x = summaryCode y := by
  rcases bisimilar_iff.1 h with rfl | ⟨hq, -⟩
  · rfl
  · exact summaryCodesAgree_iff.1 hq.2.2

theorem Layered.rank_eq_of_bisimilar (h : Layered g summaryCode rank) {x y : ι}
    (hxy : Bisimilar g summaryCode x y) : rank x = rank y := by
  rcases bisimilar_iff.1 hxy with rfl | ⟨hq, -⟩
  · rfl
  · exact h.same x y hq.1.symm (summaryCodesAgree_iff.1 hq.2.2)

variable {s₁ : EqualityCache ι}

theorem Ready.lt (hr : Ready g summaryCode rank z s s₁ c s') : c < s'.equivalenceClasses.length := by
  rcases hr.index with ⟨-, hlen, x, hx, -⟩ | ⟨-, rfl, hlen, -⟩
  · rw [hlen]
    exact ((hr.sound.mem_iff x c).1 hx).lt
  · omega

variable (h : Cacheable g summaryCode rank)

include h

/-- The types equal to `z` that have a class are in this one. -/
theorem Ready.old_iff (hr : Ready g summaryCode rank z s s₁ c s') {x y : ι} {d : ℕ}
    (hy : Bisimilar g summaryCode y z) (hx : s₁.equivalenceClassOf x = some d) :
    d = c ↔ Bisimilar g summaryCode x y := by
  rcases hr.index with ⟨-, -, w, hw, hwz⟩ | ⟨-, rfl, -, hnone⟩
  · have hwy : Bisimilar g summaryCode w y := h.bisimilar_trans hwz (bisimilar_symm hy)
    rw [hr.sound.decided x w d c hx hw]
    exact ⟨fun hxw => h.bisimilar_trans hxw hwy,
      fun hxy => h.bisimilar_trans hxy (bisimilar_symm hwy)⟩
  · refine iff_of_false ?_ fun hxy => hnone x d hx (h.bisimilar_trans hxy hy)
    rintro rfl
    exact lt_irrefl _ ((hr.sound.mem_iff x _).1 hx).lt

theorem Ready.free (hr : Ready g summaryCode rank z s s₁ c s') {y : ι} {d : ℕ}
    (hy : Bisimilar g summaryCode y z) (hd : s'.equivalenceClassOf y = some d) : d = c := by
  rw [hr.classOf] at hd
  exact (hr.old_iff h hy hd).2 (bisimilar_refl y)

/-- **Filing** `z`, and with it types equal to it. -/
theorem Ready.file (hr : Ready g summaryCode rank z s s₁ c s') {p : ι → Prop} [DecidablePred p]
    (hz : p z) (hp : ∀ y, p y → Bisimilar g summaryCode y z)
    (hclassOf : ∀ y, s''.equivalenceClassOf y = if p y then some c else s'.equivalenceClassOf y)
    (hmem : ∀ d y, InClass s'' d y ↔ InClass s' d y ∨ (d = c ∧ p y))
    (hindex : s''.bySummaryCode = s'.bySummaryCode)
    (hlen : s''.equivalenceClasses.length = s'.equivalenceClasses.length) :
    Sound g summaryCode s'' ∧ Extends rank (rank z + 1) s s'' ∧
      (∀ y, p y → s''.equivalenceClassOf y = some c) ∧
      ∀ y, ¬p y → rank z ≤ rank y → s''.equivalenceClassOf y = s.equivalenceClassOf y := by
  have hkeep : ∀ y, ¬p y → rank z ≤ rank y →
      s''.equivalenceClassOf y = s.equivalenceClassOf y := by
    intro y hy hrank
    rw [hclassOf, if_neg hy, hr.classOf, hr.ext.same y hrank]
  rw [hr.classOf] at hclassOf
  have hfree : ∀ y d, p y → s₁.equivalenceClassOf y = some d → d = c := fun y d hy hd =>
    (hr.old_iff h (hp y hy) hd).2 (bisimilar_refl y)
  refine ⟨?_, ⟨fun y hy => ?_, fun y d hd => ?_, ?_⟩, fun y hy => by rw [hclassOf, if_pos hy], hkeep⟩
  · refine sound_file hr.sound hclassOf (fun d y => (hmem d y).trans ?_) ⟨z, hz⟩
      (fun y hy => summaryCode_eq_of_bisimilar (hp y hy))
      (fun y w hy hw => h.bisimilar_trans (hp y hy) (bisimilar_symm (hp w hw)))
      (fun y x d hy hx => hr.old_iff h (hp y hy) hx) hfree ?_
    · constructor
      · rintro (hd | hd)
        · rcases hr.adds d y hd with hd | ⟨rfl, rfl⟩
          · exact .inl hd
          · exact .inr ⟨rfl, hz⟩
        · exact .inr hd
      · rintro (hd | hd)
        · exact .inl (hr.keeps d y hd)
        · exact .inr hd
    · rw [hindex, hlen]
      rcases hr.index with ⟨hcodes, hlen', x, hx, hxz⟩ | ⟨hcodes, hc, hlen', -⟩
      · refine .inl ⟨hcodes, hlen', ?_⟩
        rw [← summaryCode_eq_of_bisimilar hxz]
        exact hr.sound.indexed x c hx
      · exact .inr ⟨hcodes, hc, hlen'⟩
  · refine hkeep y (fun hpy => ?_) (by omega)
    have := h.layered.rank_eq_of_bisimilar (hp y hpy)
    omega
  · have hd₁ := hr.ext.grows y d hd
    rw [hclassOf]
    split_ifs with hpy
    · rw [hfree y d hpy hd₁]
    · exact hd₁
  · refine hr.ext.index.trans ?_
    rw [hindex]
    rcases hr.index with ⟨hcodes, -⟩ | ⟨hcodes, -⟩
    · rw [hcodes]
    · rw [hcodes]
      exact List.prefix_append _ _

variable [LinearOrder ι]

/-- Filing one type. -/
theorem Ready.file_one (hr : Ready g summaryCode rank z s s₁ c s') :
    let s'' := (s'.insertInClass c z).insertClassOf z c
    Sound g summaryCode s'' ∧ Extends rank (rank z + 1) s s'' ∧
      s''.equivalenceClassOf z = some c ∧
      ∀ y, y ≠ z → rank z ≤ rank y → s''.equivalenceClassOf y = s.equivalenceClassOf y := by
  intro s''
  obtain ⟨hsound, hext, hfiled, hkeep⟩ : Sound g summaryCode s'' ∧
      Extends rank (rank z + 1) s s'' ∧ (∀ y, y = z → s''.equivalenceClassOf y = some c) ∧
      ∀ y, ¬y = z → rank z ≤ rank y → s''.equivalenceClassOf y = s.equivalenceClassOf y :=
    hr.file h rfl
    (by
      rintro y rfl
      exact bisimilar_refl y)
    (fun y => classOf_insertClassOf fun d hd => hr.free h (bisimilar_refl z) hd)
    (fun d y => inClass_insertClassOf.trans (inClass_insertInClass hr.lt))
    bySummaryCode_insertClassOf (length_insertClassOf.trans length_insertInClass)
  exact ⟨hsound, hext, hfiled z rfl, hkeep⟩

/-- Filing two types. -/
theorem Ready.file_two (hr : Ready g summaryCode rank z s s₁ c s') {t : ι}
    (ht : Bisimilar g summaryCode t z) :
    let s'' := (((s'.insertInClass c t).insertInClass c z).insertClassOf z c).insertClassOf t c
    Sound g summaryCode s'' ∧ Extends rank (rank z + 1) s s'' ∧
      s''.equivalenceClassOf z = some c ∧ s''.equivalenceClassOf t = some c := by
  intro s''
  have hclassOf : ∀ y, (((s'.insertInClass c t).insertInClass c z).insertClassOf z
      c).equivalenceClassOf y = if y = z then some c else s'.equivalenceClassOf y := fun y =>
    classOf_insertClassOf fun d hd => hr.free h (bisimilar_refl z) hd
  obtain ⟨hsound, hext, hfiled, -⟩ : Sound g summaryCode s'' ∧ Extends rank (rank z + 1) s s'' ∧
      (∀ y, y = z ∨ y = t → s''.equivalenceClassOf y = some c) ∧
      ∀ y, ¬(y = z ∨ y = t) → rank z ≤ rank y →
        s''.equivalenceClassOf y = s.equivalenceClassOf y :=
    hr.file h (.inl rfl)
    (by
      rintro y (rfl | rfl)
      · exact bisimilar_refl y
      · exact ht)
    (fun y => by
      dsimp only [s'']
      rw [classOf_insertClassOf, hclassOf]
      · by_cases hyt : y = t <;> by_cases hyz : y = z <;> simp [hyt, hyz]
      · intro d hd
        rw [hclassOf] at hd
        split_ifs at hd with htz
        · exact (Option.some.inj hd).symm
        · exact hr.free h ht hd)
    (fun d y => by
      dsimp only [s'']
      rw [inClass_insertClassOf, inClass_insertClassOf, inClass_insertInClass (by simpa using hr.lt),
        inClass_insertInClass hr.lt]
      tauto) (by simp [s'']) (by simp [s''])
  exact ⟨hsound, hext, hfiled z (.inl rfl), hfiled t (.inr rfl)⟩

end Ready

section Classify

theorem modify_run (f : EqualityCache ι → EqualityCache ι) :
    (modify f : CacheM ι PUnit) s = .ok (⟨⟩, f s) := rfl

theorem ready_new (hs : Sound g summaryCode s') (hext : Extends rank (rank z) s s')
    (hnone : ∀ x d, s'.equivalenceClassOf x = some d → ¬Bisimilar g summaryCode x z) :
    Ready g summaryCode rank z s s' s'.equivalenceClasses.length (s'.newClass (summaryCode z)) :=
  ⟨hs, hext, rfl, fun _ _ => inClass_newClass.2, fun _ _ hd => .inl (inClass_newClass.1 hd),
    .inr ⟨rfl, rfl, by simp [EqualityCache.newClass], hnone⟩⟩

/-- A type equal to `z` has a class already. -/
theorem ready_here (hs : Sound g summaryCode s) {x : ι} (hx : s.equivalenceClassOf x = some c)
    (hxz : Bisimilar g summaryCode x z) : Ready g summaryCode rank z s s c s :=
  ⟨hs, Extends.refl s, rfl, fun _ _ => id, fun _ _ => .inl, .inl ⟨rfl, rfl, x, hx, hxz⟩⟩

/-- Both types have classes. -/
def BothFiled (x y : ι) (s : EqualityCache ι) : Prop :=
  ∃ c d, s.equivalenceClassOf x = some c ∧ s.equivalenceClassOf y = some d

theorem missing_or_filed (s : EqualityCache ι) (x y : ι) :
    (s.equivalenceClassOf x = none ∨ s.equivalenceClassOf y = none) ∨ BothFiled x y s := by
  rw [BothFiled]
  cases s.equivalenceClassOf x <;> cases s.equivalenceClassOf y <;> simp

variable [LinearOrder ι]

theorem ready_found (hs : Sound g summaryCode s') (hext : Extends rank (rank z) s s')
    {x : ι} (hx : s'.equivalenceClassOf x = some c) (hxz : Bisimilar g summaryCode x z) :
    Ready g summaryCode rank z s s' c (s'.insertInClass c z) := by
  have hc : c < s'.equivalenceClasses.length := ((hs.mem_iff x c).1 hx).lt
  exact ⟨hs, hext, rfl, fun d y hd => (inClass_insertInClass hc).2 (.inl hd),
    fun d y hd => (inClass_insertInClass hc).1 hd, .inl ⟨rfl, length_insertInClass, x, hx, hxz⟩⟩

variable [Fintype ι] {nocache : ι → ι → CacheM ι EqualResult} {K fuel : ℕ}
variable {self t : ι} (h : Cacheable g summaryCode rank)

include h

/-- `find_or_create_eq_class` finds the class the type belongs in. -/
theorem findOrCreateEqClass_run (hN : NocacheDecides g summaryCode rank nocache K) (hz : rank z ≤ K)
    (hfuel : Fintype.card ι < fuel) (hs : Sound g summaryCode s)
    (hptr : (g z).tag = .ptrToMemberType → s.equivalenceClassOf z = none) :
    ∃ c s₁ s', findOrCreateEqClass fuel nocache z (summaryCode z) s = .ok (c, s') ∧
      Ready g summaryCode rank z s s₁ c s' := by
  obtain ⟨r, s', hrun, s₁, hs₁, hext, hfound⟩ := findEqClass_run h hN hz (j := 0) hs hptr
    (fun i hi => absurd hi (Nat.not_lt_zero i)) (Nat.zero_le _) hfuel
  rw [findOrCreateEqClass, bind_run hrun]
  cases r with
  | some c =>
    obtain ⟨rfl, x, hx, hxz⟩ := hfound
    exact ⟨c, s₁, _, rfl, ready_found hs₁ hext hx hxz⟩
  | none =>
    obtain ⟨rfl, hnone⟩ := hfound
    exact ⟨_, s', _, rfl, ready_new hs₁ hext hnone⟩

/-- A type is put in its class. -/
theorem classify_run (hN : NocacheDecides g summaryCode rank nocache K) (hz : rank z ≤ K)
    (hfuel : Fintype.card ι < fuel) (hs : Sound g summaryCode s)
    (hptr : (g z).tag = .ptrToMemberType → s.equivalenceClassOf z = none) :
    ∃ s', classify summaryCode fuel nocache z s = .ok (⟨⟩, s') ∧ Sound g summaryCode s' ∧
      Extends rank (rank z + 1) s s' ∧ (∃ c, s'.equivalenceClassOf z = some c) ∧
      ∀ y, y ≠ z → rank z ≤ rank y → s'.equivalenceClassOf y = s.equivalenceClassOf y := by
  obtain ⟨c, s₁, s', hrun, hready⟩ := findOrCreateEqClass_run h hN hz hfuel hs hptr
  obtain ⟨hsound, hext, hfiled, hkeep⟩ := hready.file_one h
  refine ⟨(s'.insertInClass c z).insertClassOf z c, ?_, hsound, hext, ⟨c, hfiled⟩, hkeep⟩
  rw [classify, bind_run hrun, modify_run]

/-- A positive result is recorded: afterwards both types are in one class. -/
theorem cachePositive_run (hN : NocacheDecides g summaryCode rank nocache K) (hself : rank self ≤ K)
    (hfuel : Fintype.card ι < fuel) (hs : Sound g summaryCode s)
    (hbis : Bisimilar g summaryCode self t)
    (hmiss : s.equivalenceClassOf self = none ∨ s.equivalenceClassOf t = none) :
    ∃ s' c, cachePositive summaryCode fuel nocache self t (s.equivalenceClassOf self)
        (s.equivalenceClassOf t) s = .ok (⟨⟩, s') ∧ Sound g summaryCode s' ∧
      Extends rank (rank self + 1) s s' ∧ s'.equivalenceClassOf self = some c ∧
      s'.equivalenceClassOf t = some c := by
  cases hcself : s.equivalenceClassOf self with
  | some c =>
    have hct : s.equivalenceClassOf t = none := hmiss.resolve_left (by rw [hcself]; exact nofun)
    rw [hct]
    obtain ⟨hsound, hext, hfiled, -⟩ := (ready_here hs hcself hbis).file_one h
    rw [← h.layered.rank_eq_of_bisimilar hbis] at hext
    exact ⟨_, c, rfl, hsound, hext, hext.grows self c hcself, hfiled⟩
  | none =>
    cases hct : s.equivalenceClassOf t with
    | some c =>
      obtain ⟨hsound, hext, hfiled, -⟩ := (ready_here hs hct (bisimilar_symm hbis)).file_one h
      exact ⟨_, c, rfl, hsound, hext, hfiled, hext.grows t c hct⟩
    | none =>
      obtain ⟨c, s₁, s', hrun, hready⟩ :=
        findOrCreateEqClass_run h hN hself hfuel hs fun _ => hcself
      obtain ⟨hsound, hext, hfiled, hfiled'⟩ := hready.file_two h (bisimilar_symm hbis)
      refine ⟨_, c, ?_, hsound, hext, hfiled, hfiled'⟩
      rw [cachePositive, bind_run hrun, modify_run]

/-- After a class has been ensured, there is one.  The class read before, when the comparison
ended, may be out of date by then, but only in that the type has got one since. -/
theorem ensureClass_run (hN : NocacheDecides g summaryCode rank nocache K) (hz : rank z ≤ K)
    (hfuel : Fintype.card ι < fuel) (hs : Sound g summaryCode s) {cself ct cz : Option ℕ}
    (hcz : ∀ c, cz = some c → s.equivalenceClassOf z = some c ∧ ¬(cself = some c ∧ ct = some c))
    (hptr : (g z).tag = .ptrToMemberType → s.equivalenceClassOf z = cz) :
    ∃ s', ensureClass summaryCode fuel nocache cself ct z cz s = .ok (⟨⟩, s') ∧
      Sound g summaryCode s' ∧ Extends rank (rank z + 1) s s' ∧
      (∃ c, s'.equivalenceClassOf z = some c) ∧
      ∀ y, y ≠ z → rank z ≤ rank y → s'.equivalenceClassOf y = s.equivalenceClassOf y := by
  cases cz with
  | none => exact classify_run h hN hz hfuel hs hptr
  | some c =>
    obtain ⟨hc, hdistinct⟩ := hcz c rfl
    exact ⟨s, cacheAssert_run hdistinct, hs, Extends.refl s, ⟨c, hc⟩, fun _ _ _ => rfl⟩

/-- A negative result is recorded: afterwards both types have a class. -/
theorem cacheNegative_run (hN : NocacheDecides g summaryCode rank nocache K)
    (hself : rank self ≤ K) (ht : rank t ≤ K) (hne : self ≠ t) (hfuel : Fintype.card ι < fuel)
    (hs : Sound g summaryCode s) (hbis : ¬Bisimilar g summaryCode self t) :
    ∃ s' c d, cacheNegative summaryCode fuel nocache self t (s.equivalenceClassOf self)
        (s.equivalenceClassOf t) s = .ok (⟨⟩, s') ∧ Sound g summaryCode s' ∧
      Extends rank (max (rank self) (rank t) + 1) s s' ∧ s'.equivalenceClassOf self = some c ∧
      s'.equivalenceClassOf t = some d := by
  have hdistinct : ∀ c, ¬(s.equivalenceClassOf self = some c ∧ s.equivalenceClassOf t = some c) :=
    fun c ⟨hc, hc'⟩ => hbis ((hs.decided self t c c hc hc').1 rfl)
  have hct : ∀ d, s.equivalenceClassOf t = some d → s.equivalenceClassOf t = some d ∧
      ¬(s.equivalenceClassOf self = some d ∧ s.equivalenceClassOf t = some d) :=
    fun d hd => ⟨hd, hdistinct d⟩
  obtain ⟨s₁, hrun₁, hs₁, hext₁, ⟨d, hd⟩, hkeep⟩ := ensureClass_run h hN ht hfuel hs hct
    fun _ => rfl
  obtain ⟨s₂, hrun₂, hs₂, hext₂, ⟨c, hc⟩, -⟩ := ensureClass_run h hN hself hfuel hs₁
    (fun c hc => ⟨hext₁.grows self c hc, hdistinct c⟩)
    fun htag => hkeep self hne (h.layered.ptrToMemberTop self htag t)
  refine ⟨s₂, c, d, ?_, hs₂, (hext₁.mono (by omega)).trans (hext₂.mono (by omega)), hc,
    hext₂.grows t d hd⟩
  rw [cacheNegative, bind_run hrun₁, hrun₂]

variable (hN : NocacheDecides g summaryCode rank nocache K)
variable (hconcrete : ∀ t, ∃ c, getConcreteType g fuel t = .ok c)
variable (hself : rank self ≤ K) (ht : rank t ≤ K) (hne : self ≠ t)
variable (hfuel : Fintype.card ι < fuel)

include hN hconcrete ht hne

omit h [Fintype ι] in
/-- Two types that have classes are looked up either way round. -/
theorem checkBothWays (hs : Sound g summaryCode s) {c d : ℕ}
    (hc : s.equivalenceClassOf self = some c) (hd : s.equivalenceClassOf t = some d) :
    ∃ b s₁ s₂, checkCachedResult g summaryCode fuel nocache self t self t s = .ok (some b, s₁) ∧
      checkCachedResult g summaryCode fuel nocache self t t self s₁ = .ok (some b, s₂) ∧
      Sound g summaryCode s₂ ∧ Extends rank (rank t) s s₂ ∧
      (b = true ↔ Bisimilar g summaryCode self t) := by
  obtain ⟨s₁, hrun₁, hs₁, hext₁⟩ := checkCachedResult_some hN hconcrete hne ht hs hc hd
  obtain ⟨s₂, hrun₂, hs₂, hext₂⟩ := checkCachedResult_some hN hconcrete hne ht hs₁
    (hext₁.grows t d hd) (hext₁.grows self c hc)
  refine ⟨decide (c = d), s₁, s₂, hrun₁, ?_, hs₂, hext₁.trans hext₂, ?_⟩
  · rw [hrun₂, decide_eq_decide.2 (eq_comm (a := d) (b := c))]
  · rw [decide_eq_true_iff, hs.decided self t c d hc hd]

include hself hfuel

/-- A result is recorded, both assertions about what is read back hold, and both types have
classes. -/
theorem cacheResult_run (hs : Sound g summaryCode s) {r : EqualResult}
    (hr : Decides True (Bisimilar g summaryCode self t) r)
    (hmiss : s.equivalenceClassOf self = none ∨ s.equivalenceClassOf t = none) :
    ∃ s', cacheResult g summaryCode fuel nocache self t r s = .ok (⟨⟩, s') ∧
      Sound g summaryCode s' ∧ Extends rank (max (rank self) (rank t) + 1) s s' ∧
      BothFiled self t s' := by
  obtain ⟨s₁, c, d, hrun₁, hs₁, hext₁, hc, hd⟩ : ∃ s₁ c d,
      (if r ≠ .unequal then cachePositive summaryCode fuel nocache self t
          (s.equivalenceClassOf self) (s.equivalenceClassOf t)
        else cacheNegative summaryCode fuel nocache self t (s.equivalenceClassOf self)
          (s.equivalenceClassOf t)) s = .ok (⟨⟩, s₁) ∧ Sound g summaryCode s₁ ∧
      Extends rank (max (rank self) (rank t) + 1) s s₁ ∧ s₁.equivalenceClassOf self = some c ∧
      s₁.equivalenceClassOf t = some d := by
    by_cases hunequal : r = .unequal
    · rw [if_neg (not_not.2 hunequal)]
      exact cacheNegative_run h hN hself ht hne hfuel hs fun hbis => hr.1.2 hbis hunequal
    · rw [if_pos hunequal]
      obtain ⟨s₁, c, hrun, hs₁, hext, hc, hd⟩ :=
        cachePositive_run h hN hself hfuel hs (hr.1.1 hunequal) hmiss
      exact ⟨s₁, c, c, hrun, hs₁, hext.mono (by omega), hc, hd⟩
  obtain ⟨b, s₂, s₃, hrun₂, hrun₃, hs₃, hext₃, hb⟩ :=
    checkBothWays hN hconcrete ht hne hs₁ hc hd
  have hassert : some b = some (decide (r ≠ .unequal)) := by
    rw [Bool.eq_iff_iff.2 (hb.trans (hr.1.symm.trans (decide_eq_true_iff).symm))]
  refine ⟨s₃, ?_, hs₃, hext₁.trans (hext₃.mono (by omega)), c, d, hext₃.grows self c hc,
    hext₃.grows t d hd⟩
  rw [cacheResult, bind_run (cacheAssert_run hne), bind_run (equivClass_run t),
    bind_run (equivClass_run self)]
  split_ifs at hrun₁ ⊢ <;>
  · rw [bind_run hrun₁]
    dsimp only
    rw [bind_run hrun₂, bind_run (cacheAssert_run hassert), bind_run hrun₃]
    exact cacheAssert_run hassert

/-- **A comparison through the cache** decides bisimilarity, keeps the tables sound and leaves
classes for both types. -/
theorem equalThroughCache_run (hs : Sound g summaryCode s) :
    ∃ r s', equalThroughCache g summaryCode fuel nocache self t s = .ok (r, s') ∧
      Sound g summaryCode s' ∧ Extends rank (max (rank self) (rank t) + 1) s s' ∧
      Decides True (Bisimilar g summaryCode self t) r ∧ BothFiled self t s' := by
  rcases missing_or_filed s self t with hmiss | ⟨c, d, hc, hd⟩
  · obtain ⟨r, s₁, hrun₁, hs₁, hext₁, hr⟩ : ∃ r s₁,
        (if QuickTests g summaryCode self t then nocache self t else pure .unequal :
          CacheM ι EqualResult) s = .ok (r, s₁) ∧ Sound g summaryCode s₁ ∧
        Extends rank (rank t) s s₁ ∧ Decides True (Bisimilar g summaryCode self t) r := by
      by_cases hquick : QuickTests g summaryCode self t
      · rw [if_pos hquick]
        have hcode := summaryCodesAgree_iff.1 hquick.2.2
        obtain ⟨r, s₁, hrun, hs₁, hext, hr⟩ := hN.distinct self t hne hcode ht s hs
        exact ⟨r, s₁, hrun, hs₁, hext, hr.1.trans (h.match_iff hne hcode), hr.2⟩
      · rw [if_neg hquick]
        exact ⟨_, s, rfl, hs, Extends.refl s, decides_unequal fun hbis =>
          hquick ((bisimilar_iff.1 hbis).resolve_left hne).1⟩
    have hby : r ≠ .equalByAssumption := hr.2 trivial
    rcases missing_or_filed s₁ self t with hmiss₁ | ⟨c, d, hc, hd⟩
    · obtain ⟨s', hrun, hs', hext, hboth⟩ :=
        cacheResult_run h hN hconcrete hself ht hne hfuel hs₁ hr hmiss₁
      refine ⟨r, s', ?_, hs', (hext₁.mono (by omega)).trans hext, hr, hboth⟩
      rw [equalThroughCache, bind_run (checkCachedResult_none hmiss)]
      dsimp only
      split_ifs at hrun₁ ⊢ <;>
      · rw [bind_run hrun₁, if_neg hby, bind_run (checkCachedResult_none hmiss₁)]
        dsimp only
        rw [bind_run hrun]
        rfl
    · obtain ⟨s', hrun, hs', hext⟩ := checkCachedResult_some hN hconcrete hne ht hs₁ hc hd
      refine ⟨r, s', ?_, hs', (hext₁.mono (by omega)).trans (hext.mono (by omega)), hr, c, d,
        hext.grows self c hc, hext.grows t d hd⟩
      have hassert : decide (c = d) = decide (r ≠ .unequal) := by
        rw [decide_eq_decide, hr.1, hs₁.decided self t c d hc hd]
      rw [equalThroughCache, bind_run (checkCachedResult_none hmiss)]
      dsimp only
      split_ifs at hrun₁ ⊢ <;>
      · rw [bind_run hrun₁, if_neg hby, bind_run hrun]
        dsimp only
        rw [bind_run (cacheAssert_run hassert)]
        rfl
  · obtain ⟨b, s₁, s₂, hrun₁, hrun₂, hs₂, hext, hb⟩ := checkBothWays hN hconcrete ht hne hs hc hd
    refine ⟨.ofBool b, s₂, ?_, hs₂, hext.mono (by omega), decides_ofBool hb, c, d,
      hext.grows self c hc, hext.grows t d hd⟩
    rw [equalThroughCache, bind_run hrun₁]
    dsimp only
    rw [bind_run hrun₂, bind_run (cacheAssert_run rfl)]
    rfl

end Classify

end Types
end Dwarfpp
