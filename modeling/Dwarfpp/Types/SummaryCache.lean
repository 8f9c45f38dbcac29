/-
# The cache of summary codes

`summaryCode` answers with cached codes, and caches what it computes, unless it
is that there is no code.  Every cache it leaves is sound (`SoundCache`): its
codes are those that the recursion without a cache finds.  So a sequence of
calls returns the codes that are found without the cache
(`mapM_summaryCode_sound`).
-/

import Dwarfpp.Types.SummaryLinks

namespace Dwarfpp
namespace Types

open Lib

variable {ι : Type} [DecidableEq ι] {g : TypeGraph ι} {fuel fuel' : ℕ} {t : ι}

section Uncached

omit [DecidableEq ι] in
theorem Summary.code_mono {rec rec' : Option ι → Except Fault SummaryWord}
    (h : ∀ o, Below (rec o) (rec' o)) (s : Summary ι) : Below (s.code rec) (s.code rec') := by
  cases s with
  | zero | absent => exact Below.refl _
  | same t => exact h (some t)
  | shifts l =>
    refine Below.foldlM (fun w s => ?_) l (some 0)
    cases s with
    | value | string | invalid => exact Below.refl _
    | code o => exact (h o).bind fun _ => Below.refl _

omit [DecidableEq ι] in
theorem summaryCodeForType_below {f f' : ι → Except Fault SummaryWord}
    (h : ∀ t, Below (f t) (f' t)) (o : Option ι) :
    Below (summaryCodeForType f o) (summaryCodeForType f' o) := by
  cases o with
  | none => exact Below.refl _
  | some t => exact h t

/-- **A longer recursion finds the same codes.** -/
theorem containmentSummaryCode_mono (h : fuel ≤ fuel') (t : ι) :
    Below (containmentSummaryCode g fuel t) (containmentSummaryCode g fuel' t) := by
  induction fuel generalizing fuel' t with
  | zero => exact Below.error _ _
  | succ fuel ih =>
    obtain ⟨fuel', rfl⟩ : ∃ k, fuel' = k + 1 := ⟨fuel' - 1, by omega⟩
    have hle : fuel ≤ fuel' := by omega
    refine (containmentSummary_mono hle t).bind fun s => ?_
    exact s.code_mono fun o => summaryCodeForType_below (fun u => ih hle u) o

variable (g) in
/-- A type's code is found without the cache. -/
def HasCode (t : ι) (r : SummaryWord) : Prop := ∃ n, containmentSummaryCode g n t = .ok r

theorem HasCode.unique {r r' : SummaryWord} (h : HasCode g t r) (h' : HasCode g t r') : r = r' := by
  obtain ⟨n, hn⟩ := h
  obtain ⟨m, hm⟩ := h'
  exact found_unique (fun _ _ hle => containmentSummaryCode_mono hle t) hn hm

end Uncached

section Cached

variable {cache cache' : SummaryCache ι}

variable (g) in
/-- What is cached is the code of its type. -/
def SoundCache (cache : SummaryCache ι) : Prop :=
  ∀ t code, cache t = some code → HasCode g t (some code)

theorem soundCache_empty : SoundCache g fun _ => none := fun _ _ h => nomatch h

theorem SoundCache.update {r : SummaryWord} (h : SoundCache g cache) (hr : HasCode g t r) :
    SoundCache g (Function.update cache t r) := by
  intro u code hu
  by_cases heq : u = t
  · subst heq
    rw [Function.update_self] at hu
    exact hu ▸ hr
  · rw [Function.update_of_ne heq] at hu
    exact h u code hu

/-- A call is answered from the cache, or computes. -/
theorem summaryCode_run (cache : SummaryCache ι) :
    summaryCode g (fuel + 1) t cache =
      match cache t with
      | some code => .ok (some code, cache)
      | none => do
        let s ← containmentSummary g fuel t
        let r ← s.code (summaryCodeForType (summaryCode g fuel)) cache
        return (r.1, Function.update r.2 t r.1) := by
  rw [summaryCode]
  show (match cache t with
    | some code => _
    | none => _ : StateT (SummaryCache ι) (Except Fault) SummaryWord) cache = _
  cases cache t with
  | some code => rfl
  | none =>
    show ((liftM (containmentSummary g fuel t) :
      StateT (SummaryCache ι) (Except Fault) (Summary ι)) >>= _) cache = _
    cases containmentSummary g fuel t with
    | error f => rfl
    | ok s => rfl

variable {α β : Type}

variable (g) in
/-- From a sound cache the computation leaves one, and returns what `p` says. -/
def Keeps (x : StateT (SummaryCache ι) (Except Fault) α) (p : α → Prop) : Prop :=
  ∀ cache a cache', SoundCache g cache → x cache = .ok (a, cache') → SoundCache g cache' ∧ p a

theorem Keeps.pure {a : α} {p : α → Prop} (h : p a) :
    Keeps g (Pure.pure a : StateT (SummaryCache ι) (Except Fault) α) p := by
  intro cache a' cache' hs hrun
  obtain ⟨rfl, rfl⟩ := Prod.mk.inj (Except.ok.inj hrun)
  exact ⟨hs, h⟩

theorem Keeps.bind {x : StateT (SummaryCache ι) (Except Fault) α}
    {f : α → StateT (SummaryCache ι) (Except Fault) β} {p : α → Prop} {q : β → Prop}
    (hx : Keeps g x p) (hf : ∀ a, p a → Keeps g (f a) q) : Keeps g (x >>= f) q := by
  intro cache b cache' hs hrun
  obtain ⟨⟨a, cache₁⟩, hx₁, hrun⟩ := bind_eq_ok.1 hrun
  obtain ⟨hs₁, hp⟩ := hx cache a cache₁ hs hx₁
  exact hf a hp cache₁ b cache' hs₁ hrun

/-- With enough steps the shifts of a sequence come to the word. -/
def HasWord (g : TypeGraph ι) (l : List (Shift ι)) (word r : SummaryWord) : Prop :=
  ∃ n, ∀ m, n ≤ m →
    l.foldlM (Shift.into (summaryCodeForType (containmentSummaryCode g m))) word = .ok r

theorem Keeps.shift {f : ι → StateT (SummaryCache ι) (Except Fault) SummaryWord}
    (hf : ∀ t, Keeps g (f t) (HasCode g t)) (word : SummaryWord) (s : Shift ι) :
    Keeps g (s.into (summaryCodeForType f) word) fun r => HasWord g [s] word r := by
  have hpure : ∀ {r : SummaryWord}, (∀ m,
      s.into (summaryCodeForType (containmentSummaryCode g m)) word = .ok r) →
        HasWord g [s] word r := fun h =>
    ⟨0, fun m _ => foldlM_cons_eq_ok.2 ⟨_, h m, rfl⟩⟩
  cases s with
  | value arg => exact Keeps.pure (hpure fun m => rfl)
  | string str => exact Keeps.pure (hpure fun m => rfl)
  | invalid => exact Keeps.pure (hpure fun m => rfl)
  | code o =>
    cases o with
    | none => exact Keeps.pure (hpure fun m => rfl)
    | some t =>
      refine (hf t).bind fun code hcode => Keeps.pure ?_
      obtain ⟨n, hn⟩ := hcode
      refine ⟨n, fun m hm => foldlM_cons_eq_ok.2 ⟨_, ?_, rfl⟩⟩
      exact bind_eq_ok.2 ⟨code, containmentSummaryCode_mono hm t code hn, rfl⟩

theorem Keeps.shifts {f : ι → StateT (SummaryCache ι) (Except Fault) SummaryWord}
    (hf : ∀ t, Keeps g (f t) (HasCode g t)) (word : SummaryWord) (l : List (Shift ι)) :
    Keeps g (l.foldlM (Shift.into (summaryCodeForType f)) word) fun r => HasWord g l word r := by
  induction l generalizing word with
  | nil => exact Keeps.pure ⟨0, fun m _ => rfl⟩
  | cons s l ih =>
    rw [List.foldlM_cons]
    refine (Keeps.shift hf word s).bind fun w hw => ?_
    intro cache r cache' hs hrun
    obtain ⟨hs', n, hn⟩ := ih w cache r cache' hs hrun
    obtain ⟨n₁, hn₁⟩ := hw
    refine ⟨hs', max n n₁, fun m hm => ?_⟩
    obtain ⟨w', hw', hnil⟩ := foldlM_cons_eq_ok.1 (hn₁ m (le_trans (le_max_right _ _) hm))
    obtain rfl := Except.ok.inj hnil
    exact foldlM_cons_eq_ok.2 ⟨w', hw', hn m (le_trans (le_max_left _ _) hm)⟩

/-- **A call leaves a sound cache, and returns the code that is found without it.** -/
theorem summaryCode_keeps (fuel : ℕ) (t : ι) : Keeps g (summaryCode g fuel t) (HasCode g t) := by
  induction fuel generalizing t with
  | zero => exact fun cache r cache' _ h => nomatch h
  | succ fuel ih =>
    intro cache r cache' hs hrun
    rw [summaryCode_run] at hrun
    cases hcache : cache t with
    | some code =>
      rw [hcache] at hrun
      obtain ⟨rfl, rfl⟩ := Prod.mk.inj (Except.ok.inj hrun)
      exact ⟨hs, hs t code hcache⟩
    | none =>
      rw [hcache] at hrun
      obtain ⟨s, hsummary, hrun⟩ := bind_eq_ok.1 hrun
      obtain ⟨⟨r', cache₁⟩, hcode, hrun⟩ := bind_eq_ok.1 hrun
      obtain ⟨rfl, rfl⟩ := Prod.mk.inj (Except.ok.inj hrun)
      have hfound : ∀ n, (∀ m, n ≤ m →
          s.code (summaryCodeForType (containmentSummaryCode g m)) = .ok r') → HasCode g t r' := by
        intro n hn
        refine ⟨max n fuel + 1, bind_eq_ok.2 ⟨s, ?_, hn _ (le_max_left _ _)⟩⟩
        exact containmentSummary_mono (le_max_right _ _) t s hsummary
      have hkept : SoundCache g cache₁ ∧ HasCode g t r' := by
        cases s with
        | zero =>
          obtain ⟨hs₁, h⟩ := Keeps.pure (p := fun r => r = some 0) rfl cache r' cache₁ hs hcode
          exact ⟨hs₁, hfound 0 fun m _ => congrArg Except.ok h.symm⟩
        | absent =>
          obtain ⟨hs₁, h⟩ := Keeps.pure (p := fun r => r = none) rfl cache r' cache₁ hs hcode
          exact ⟨hs₁, hfound 0 fun m _ => congrArg Except.ok h.symm⟩
        | same u =>
          obtain ⟨hs₁, n, hn⟩ := ih u cache r' cache₁ hs hcode
          exact ⟨hs₁, hfound n fun m hm => containmentSummaryCode_mono hm u r' hn⟩
        | shifts l =>
          obtain ⟨hs₁, n, hn⟩ := Keeps.shifts ih (some 0) l cache r' cache₁ hs hcode
          exact ⟨hs₁, hfound n hn⟩
      exact ⟨hkept.1.update hkept.2, hkept.2⟩

/-- **A sequence of calls returns the codes that are found without the cache.** -/
theorem mapM_summaryCode_sound (fuel : ℕ) (ts : List ι) :
    Keeps g (ts.mapM (summaryCode g fuel)) (List.Forall₂ (HasCode g) ts) := by
  induction ts with
  | nil => exact Keeps.pure .nil
  | cons t ts ih =>
    rw [List.mapM_cons]
    exact (summaryCode_keeps fuel t).bind fun r hr => ih.bind fun rs hrs => Keeps.pure (.cons hr hrs)

end Cached

end Types
end Dwarfpp
