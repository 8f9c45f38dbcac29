/-
# Runs of fallible steps

Sequencing in `Except`, the order in which a computation is `Below` one that
returns more often, the errors a computation `Throws`, and rules for a left fold
of a step that may fail: what every step preserves the run preserves
(`foldlM_invariant`), two runs whose steps are related end in related states
(`foldlM_simulation`), and a run that reproduces exactly some steps of another
stays in step with it exactly when it takes no other (`foldlM_lockstep`).
-/

import Mathlib

namespace Dwarfpp
namespace Lib

section Bind

variable {ε α β : Type}

@[simp] theorem ok_bind (a : α) (f : α → Except ε β) : (Except.ok a >>= f) = f a := rfl

@[simp] theorem error_bind (e : ε) (f : α → Except ε β) :
    ((Except.error e : Except ε α) >>= f) = .error e := rfl

/-- A computation that returned went through both of its halves. -/
theorem bind_eq_ok {x : Except ε α} {f : α → Except ε β} {b : β} :
    x >>= f = .ok b ↔ ∃ a, x = .ok a ∧ f a = .ok b := by
  cases x with
  | error e => simp
  | ok a => simp

theorem toOption_eq_some {x : Except ε α} {a : α} : x.toOption = some a ↔ x = .ok a := by
  cases x with
  | error e => exact ⟨fun h => (nomatch h), fun h => (nomatch h)⟩
  | ok b => exact ⟨fun h => by rw [Option.some.inj h], fun h => by rw [Except.ok.inj h]; rfl⟩

end Bind

section Below

variable {ε α β : Type}

/-- Where the first computation returns, the second returns the same. -/
def Below (x y : Except ε α) : Prop := ∀ a, x = .ok a → y = .ok a

theorem Below.refl (x : Except ε α) : Below x x := fun _ h => h

theorem Below.error (e : ε) (y : Except ε α) : Below (.error e) y := fun _ h => nomatch h

theorem Below.bind {x y : Except ε α} {f g : α → Except ε β} (h : Below x y)
    (hf : ∀ a, Below (f a) (g a)) : Below (x >>= f) (y >>= g) := by
  intro b hb
  obtain ⟨a, ha, hb⟩ := bind_eq_ok.1 hb
  exact bind_eq_ok.2 ⟨a, h a ha, hf a b hb⟩

theorem Below.mapM {f g : α → Except ε β} (h : ∀ a, Below (f a) (g a)) (l : List α) :
    Below (l.mapM f) (l.mapM g) := by
  induction l with
  | nil => exact Below.refl _
  | cons a l ih =>
    rw [List.mapM_cons, List.mapM_cons]
    exact (h a).bind fun b => ih.bind fun bs => Below.refl _

theorem Below.foldlM {f g : β → α → Except ε β} (h : ∀ b a, Below (f b a) (g b a)) (l : List α)
    (b : β) : Below (l.foldlM f b) (l.foldlM g b) := by
  induction l generalizing b with
  | nil => exact Below.refl _
  | cons a l ih =>
    rw [List.foldlM_cons, List.foldlM_cons]
    exact (h b a).bind ih

/-- A computation for each element returns if all do. -/
theorem mapM_returns_iff {f : α → Except ε β} {l : List α} :
    (∃ bs, l.mapM f = .ok bs) ↔ ∀ a ∈ l, ∃ b, f a = .ok b := by
  induction l with
  | nil => exact iff_of_true ⟨[], rfl⟩ fun a ha => absurd ha List.not_mem_nil
  | cons a l ih =>
    rw [List.forall_mem_cons, ← ih, List.mapM_cons]
    constructor
    · rintro ⟨bs, h⟩
      obtain ⟨b, hb, h⟩ := bind_eq_ok.1 h
      obtain ⟨bs', hbs, -⟩ := bind_eq_ok.1 h
      exact ⟨⟨b, hb⟩, bs', hbs⟩
    · rintro ⟨⟨b, hb⟩, bs, hbs⟩
      exact ⟨b :: bs, bind_eq_ok.2 ⟨b, hb, bind_eq_ok.2 ⟨bs, hbs, rfl⟩⟩⟩

theorem mem_mapM_iff {f : α → Except ε β} {l : List α} {bs : List β} (h : l.mapM f = .ok bs)
    {b : β} : b ∈ bs ↔ ∃ a ∈ l, f a = .ok b := by
  induction l generalizing bs with
  | nil =>
    obtain rfl := Except.ok.inj h
    exact iff_of_false List.not_mem_nil fun ⟨a, ha, _⟩ => absurd ha List.not_mem_nil
  | cons a l ih =>
    rw [List.mapM_cons] at h
    obtain ⟨b₁, hb₁, h⟩ := bind_eq_ok.1 h
    obtain ⟨bs₁, hbs₁, h⟩ := bind_eq_ok.1 h
    obtain rfl := Except.ok.inj h
    rw [List.mem_cons, ih hbs₁]
    constructor
    · rintro (rfl | ⟨a', ha', hb⟩)
      · exact ⟨a, List.mem_cons_self, hb₁⟩
      · exact ⟨a', List.mem_cons_of_mem _ ha', hb⟩
    · rintro ⟨a', ha', hb⟩
      rcases List.mem_cons.1 ha' with rfl | ha'
      · exact .inl (Except.ok.inj (hb.symm.trans hb₁))
      · exact .inr ⟨a', ha', hb⟩

/-- Where the elements are split, so are their results. -/
theorem mapM_append_cons {f : α → Except ε β} {before after : List α} {a : α} {bs : List β}
    (h : (before ++ a :: after).mapM f = .ok bs) :
    ∃ bs₁ b bs₂, before.mapM f = .ok bs₁ ∧ f a = .ok b ∧ after.mapM f = .ok bs₂ ∧
      bs = bs₁ ++ b :: bs₂ := by
  rw [List.mapM_append, List.mapM_cons] at h
  obtain ⟨bs₁, hbs₁, h⟩ := bind_eq_ok.1 h
  obtain ⟨rest, hrest, h⟩ := bind_eq_ok.1 h
  obtain ⟨b, hb, hrest⟩ := bind_eq_ok.1 hrest
  obtain ⟨bs₂, hbs₂, hrest⟩ := bind_eq_ok.1 hrest
  obtain rfl := Except.ok.inj hrest
  exact ⟨bs₁, b, bs₂, hbs₁, hb, hbs₂, (Except.ok.inj h).symm⟩

/-- Where the results are split, so are the elements. -/
theorem mapM_eq_append_cons {f : α → Except ε β} {l : List α} {bs₁ bs₂ : List β} {b : β}
    (h : l.mapM f = .ok (bs₁ ++ b :: bs₂)) :
    ∃ before a after, l = before ++ a :: after ∧ before.mapM f = .ok bs₁ ∧ f a = .ok b ∧
      after.mapM f = .ok bs₂ := by
  induction l generalizing bs₁ with
  | nil => cases bs₁ <;> exact nomatch Except.ok.inj h
  | cons a l ih =>
    rw [List.mapM_cons] at h
    obtain ⟨b', hb', h⟩ := bind_eq_ok.1 h
    obtain ⟨bs', hbs', h⟩ := bind_eq_ok.1 h
    cases bs₁ with
    | nil =>
      obtain ⟨rfl, rfl⟩ := List.cons.inj (Except.ok.inj h)
      exact ⟨[], a, l, rfl, rfl, hb', hbs'⟩
    | cons b₁ bs₁ =>
      obtain ⟨rfl, rfl⟩ := List.cons.inj (Except.ok.inj h)
      obtain ⟨before, a', after, rfl, hbefore, ha', hafter⟩ := ih hbs'
      refine ⟨a :: before, a', after, rfl, ?_, ha', hafter⟩
      rw [List.mapM_cons, hb', ok_bind, hbefore]
      rfl

end Below

section Throws

variable {ε α β : Type} {p : ε → Prop}

/-- Every error that a computation can end in is one of `p`. -/
def Throws (p : ε → Prop) (x : Except ε α) : Prop := ∀ e, x = .error e → p e

theorem Throws.ok (a : α) : Throws p (.ok a) := fun _ h => nomatch h

theorem Throws.error {e : ε} (h : p e) : Throws p (.error e : Except ε α) :=
  fun _ he => Except.error.inj he ▸ h

theorem Throws.of_returns {x : Except ε α} (h : ∃ a, x = .ok a) : Throws p x := by
  obtain ⟨a, rfl⟩ := h
  exact Throws.ok a

theorem Throws.imp {q : ε → Prop} {x : Except ε α} (h : Throws p x) (hpq : ∀ e, p e → q e) :
    Throws q x := fun e he => hpq e (h e he)

theorem Throws.bind {x : Except ε α} {f : α → Except ε β} (hx : Throws p x)
    (hf : ∀ a, x = .ok a → Throws p (f a)) : Throws p (x >>= f) := by
  intro e he
  cases h : x with
  | error e' =>
    rw [h, error_bind] at he
    obtain rfl := Except.error.inj he
    exact hx _ h
  | ok a =>
    rw [h, ok_bind] at he
    exact hf a h e he

@[simp] theorem throws_ok (a : α) : Throws p (.ok a : Except ε α) ↔ True :=
  iff_true_intro (Throws.ok a)

@[simp] theorem throws_error {e : ε} : Throws p (.error e : Except ε α) ↔ p e :=
  ⟨fun h => h e rfl, Throws.error⟩

/-- A sequence throws what its parts do. -/
theorem throws_bind_iff {x : Except ε α} {f : α → Except ε β} :
    Throws p (x >>= f) ↔ Throws p x ∧ ∀ a, x = .ok a → Throws p (f a) := by
  refine ⟨fun h => ⟨fun e he => h e (by rw [he, error_bind]), fun a ha e he => h e ?_⟩,
    fun h => h.1.bind h.2⟩
  rw [ha, ok_bind, he]

theorem Throws.mapM {f : α → Except ε β} {l : List α} (h : ∀ a ∈ l, Throws p (f a)) :
    Throws p (l.mapM f) := by
  induction l with
  | nil => exact Throws.ok []
  | cons a l ih =>
    rw [List.mapM_cons]
    refine (h a List.mem_cons_self).bind fun b _ => ?_
    exact (ih fun a' ha => h a' (List.mem_cons_of_mem _ ha)).bind fun bs _ => Throws.ok _

/-- A computation returns unless it ends in an error. -/
theorem Throws.returns {x : Except ε α} (h : Throws p x) (hnot : ∀ e, p e → x ≠ .error e) :
    ∃ a, x = .ok a := by
  cases hx : x with
  | error e => exact absurd hx (hnot e (h e hx))
  | ok a => exact ⟨a, rfl⟩

end Throws

section Fold

variable {ε σ τ α β : Type} {f : σ → α → Except ε σ}

theorem foldlM_cons_eq_ok {a : α} {l : List α} {s s' : σ} :
    (a :: l).foldlM f s = .ok s' ↔ ∃ s₁, f s a = .ok s₁ ∧ l.foldlM f s₁ = .ok s' := by
  rw [List.foldlM_cons]
  exact bind_eq_ok

/-- **What every step preserves, the run preserves.** -/
theorem foldlM_invariant {p : σ → Prop} (hstep : ∀ s a s', p s → f s a = .ok s' → p s')
    {l : List α} {s s' : σ} (h : p s) (hrun : l.foldlM f s = .ok s') : p s' := by
  induction l generalizing s with
  | nil =>
    obtain rfl := Except.ok.inj hrun
    exact h
  | cons a l ih =>
    obtain ⟨s₁, hs₁, hrest⟩ := foldlM_cons_eq_ok.1 hrun
    exact ih (hstep s a s₁ h hs₁) hrest

/-- **Related steps make related runs.**  The second run may be partial too. -/
theorem foldlM_simulation {g : τ → β → Option τ} {r : σ → τ → Prop} {c : α → β → Prop}
    (hstep : ∀ s t a b s' t', r s t → c a b → f s a = .ok s' → g t b = some t' → r s' t')
    {as : List α} {bs : List β} (hc : List.Forall₂ c as bs) {s s' : σ} {t t' : τ} (h : r s t)
    (hs : as.foldlM f s = .ok s') (ht : bs.foldlM g t = some t') : r s' t' := by
  induction hc generalizing s t with
  | nil =>
    obtain rfl := Except.ok.inj hs
    obtain rfl := Option.some.inj ht
    exact h
  | cons hab _ ih =>
    obtain ⟨s₁, hs₁, hs⟩ := foldlM_cons_eq_ok.1 hs
    rw [List.foldlM_cons] at ht
    obtain ⟨t₁, ht₁, ht⟩ := Option.bind_eq_some_iff.1 ht
    exact ih (hstep _ _ _ _ _ _ h hab hs₁ ht₁) hs ht

end Fold

section Lockstep

variable {ε σ τ α : Type} {f : σ → α → Except ε σ} {g : τ → α → Option τ}

/-- Every step of the run of `g` from `t` over `l` is taken where `c` holds. -/
def CleanRun (g : τ → α → Option τ) (c : τ → α → Prop) : List α → τ → Prop
  | [], _ => True
  | a :: l, t => c t a ∧ ∀ t', g t a = some t' → CleanRun g c l t'

/-- **A run stays in step with another up to every point exactly when each step does.**
Where `c` says exactly which steps of `g`, seen through `r`, the steps of `f` reproduce, the
run of `f` reproduces that of `g` after every prefix if and only if `c` holds all along. -/
theorem foldlM_lockstep {r : σ → τ} {c : τ → α → Prop}
    (hstep : ∀ s a t', g (r s) a = some t' → ((∃ s', f s a = .ok s' ∧ r s' = t') ↔ c (r s) a))
    {l : List α} {s : σ} (hg : (l.foldlM g (r s)).isSome) :
    (∀ p, p <+: l → ∃ s', p.foldlM f s = .ok s' ∧ p.foldlM g (r s) = some (r s')) ↔
      CleanRun g c l (r s) := by
  induction l generalizing s with
  | nil =>
    refine ⟨fun _ => trivial, fun _ p hp => ?_⟩
    obtain rfl := List.prefix_nil.1 hp
    exact ⟨s, rfl, rfl⟩
  | cons a l ih =>
    obtain ⟨t, ht⟩ := Option.isSome_iff_exists.1 hg
    rw [List.foldlM_cons] at ht
    obtain ⟨t₁, ht₁, hrest⟩ := Option.bind_eq_some_iff.1 ht
    have hone := hstep s a t₁ ht₁
    constructor
    · intro h
      obtain ⟨s₁, hs₁, hr₁⟩ := h [a] ⟨l, rfl⟩
      obtain ⟨s₂, hs₂, hnil⟩ := foldlM_cons_eq_ok.1 hs₁
      obtain rfl := Except.ok.inj hnil
      rw [List.foldlM_cons, ht₁] at hr₁
      obtain rfl : t₁ = r s₂ := Option.some.inj hr₁
      refine ⟨hone.1 ⟨s₂, hs₂, rfl⟩, fun t' ht' => ?_⟩
      obtain rfl : r s₂ = t' := Option.some.inj (ht₁.symm.trans ht')
      refine (ih (s := s₂) (Option.isSome_iff_exists.2 ⟨t, hrest⟩)).1 fun p hp => ?_
      obtain ⟨s', hs', hr'⟩ := h (a :: p) (List.cons_prefix_cons.2 ⟨rfl, hp⟩)
      obtain ⟨s₃, hs₃, hs'⟩ := foldlM_cons_eq_ok.1 hs'
      obtain rfl := Except.ok.inj (hs₂.symm.trans hs₃)
      rw [List.foldlM_cons, ht₁] at hr'
      exact ⟨s', hs', hr'⟩
    · rintro ⟨hc, hclean⟩ p hp
      obtain ⟨s₁, hs₁, rfl⟩ := hone.2 hc
      cases p with
      | nil => exact ⟨s, rfl, rfl⟩
      | cons b q =>
        obtain ⟨rfl, hq⟩ := List.cons_prefix_cons.1 hp
        obtain ⟨s', hs', hr'⟩ :=
          (ih (s := s₁) (Option.isSome_iff_exists.2 ⟨t, hrest⟩)).2 (hclean _ ht₁) q hq
        refine ⟨s', foldlM_cons_eq_ok.2 ⟨s₁, hs₁, hs'⟩, ?_⟩
        rw [List.foldlM_cons, ht₁]
        exact hr'

end Lockstep

end Lib
end Dwarfpp
