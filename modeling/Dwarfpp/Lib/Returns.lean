/-
# Computations that return

`Returns m` is a reading of "this computation of the monad `m` returns a value
with the property `p`" that respects sequencing.  A lemma about a program
written for an arbitrary monad is stated once for an arbitrary `Returns m` and
used at each monad the program is run in.
-/

import Mathlib
import Dwarfpp.Lib.Run

namespace Dwarfpp
namespace Lib

/-- A total-correctness reading of the computations of `m`. -/
structure Returns (m : Type → Type) [Monad m] where
  Ret : {α : Type} → m α → (α → Prop) → Prop
  ret_pure : ∀ {α : Type} {a : α} {p : α → Prop}, p a → Ret (pure a) p
  ret_bind : ∀ {α β : Type} {x : m α} {f : α → m β} {p : α → Prop} {q : β → Prop},
    Ret x p → (∀ a, p a → Ret (f a) q) → Ret (x >>= f) q
  ret_mono : ∀ {α : Type} {x : m α} {p q : α → Prop}, Ret x p → (∀ a, p a → q a) → Ret x q

/-- Returning from `Except`. -/
def Returns.except (ε : Type) : Returns (Except ε) where
  Ret x p := ∃ a, x = .ok a ∧ p a
  ret_pure h := ⟨_, rfl, h⟩
  ret_bind := by
    rintro α β x f p q ⟨a, rfl, ha⟩ h
    exact h a ha
  ret_mono := by
    rintro α x p q ⟨a, rfl, ha⟩ h
    exact ⟨a, rfl, h a ha⟩

/-- Returning from a stateful computation that keeps the invariant `inv` and takes the state along
the preorder `le`. -/
def Returns.state (ε : Type) {σ : Type} (inv : σ → Prop) (le : σ → σ → Prop)
    (hrefl : ∀ s, le s s) (htrans : ∀ s₁ s₂ s₃, le s₁ s₂ → le s₂ s₃ → le s₁ s₃) :
    Returns (StateT σ (Except ε)) where
  Ret x p := ∀ s, inv s → ∃ a s', x s = .ok (a, s') ∧ inv s' ∧ le s s' ∧ p a
  ret_pure h s hs := ⟨_, s, rfl, hs, hrefl s, h⟩
  ret_bind := by
    intro α β x f p q hx hf s hs
    obtain ⟨a, s₁, ha, hs₁, hle₁, hp⟩ := hx s hs
    obtain ⟨b, s₂, hb, hs₂, hle₂, hq⟩ := hf a hp s₁ hs₁
    refine ⟨b, s₂, ?_, hs₂, htrans s s₁ s₂ hle₁ hle₂, hq⟩
    change (x s >>= fun r => f r.1 r.2) = _
    rw [ha]
    exact hb
  ret_mono := by
    intro α x p q hx h s hs
    obtain ⟨a, s₁, ha, hs₁, hle₁, hp⟩ := hx s hs
    exact ⟨a, s₁, ha, hs₁, hle₁, h a hp⟩

section StateReturns

variable {ε σ α β : Type} (inv : σ → Prop) (le : σ → σ → Prop)

/-- From `s`, the computation returns: a value and a state, which has the invariant `inv`, lies ahead
of `s` by `le`, and is as `post` says. -/
def StateReturns (x : StateT σ (Except ε) α) (s : σ) (post : α → σ → Prop) : Prop :=
  ∃ a s', x s = .ok (a, s') ∧ inv s' ∧ le s s' ∧ post a s'

variable {inv le} {x : StateT σ (Except ε) α} {f : α → StateT σ (Except ε) β} {s : σ}
  {p : α → σ → Prop} {q : β → σ → Prop}

theorem StateReturns.mono {p' : α → σ → Prop} (h : StateReturns inv le x s p)
    (hp : ∀ a s', inv s' → le s s' → p a s' → p' a s') : StateReturns inv le x s p' := by
  obtain ⟨a, s', hrun, hinv, hle, ha⟩ := h
  exact ⟨a, s', hrun, hinv, hle, hp a s' hinv hle ha⟩

theorem StateReturns.pure [Std.Refl le] {a : α} (hs : inv s) (h : p a s) :
    StateReturns inv le (Pure.pure a : StateT σ (Except ε) α) s p :=
  ⟨a, s, rfl, hs, Std.Refl.refl s, h⟩

theorem stateT_bind_of_ok {a : α} {s₁ : σ} (h : x s = .ok (a, s₁)) : (x >>= f) s = f a s₁ := by
  change (x s >>= fun r => f r.1 r.2) = _
  rw [h]
  rfl

theorem stateT_bind_of_error {e : ε} (h : x s = .error e) : (x >>= f) s = .error e := by
  change (x s >>= fun r => f r.1 r.2) = _
  rw [h]
  rfl

/-- **Sequencing.** -/
theorem StateReturns.bind [IsTrans σ le] (h : StateReturns inv le x s p)
    (hf : ∀ a s', inv s' → le s s' → p a s' → StateReturns inv le (f a) s' q) :
    StateReturns inv le (x >>= f) s q := by
  obtain ⟨a, s₁, hrun, hinv, hle, ha⟩ := h
  obtain ⟨b, s₂, hrun₂, hinv₂, hle₂, hb⟩ := hf a s₁ hinv hle ha
  exact ⟨b, s₂, (stateT_bind_of_ok hrun).trans hrun₂, hinv₂, IsTrans.trans s s₁ s₂ hle hle₂, hb⟩

theorem StateReturns.get_bind {f : σ → StateT σ (Except ε) β}
    (h : StateReturns inv le (f s) s q) : StateReturns inv le (get >>= f) s q := h

theorem StateReturns.set {s' : σ} {p : PUnit → σ → Prop} (hinv : inv s')
    (hle : le s s') (hp : p ⟨⟩ s') :
    StateReturns inv le (MonadStateOf.set s' : StateT σ (Except ε) PUnit) s p :=
  ⟨⟨⟩, s', rfl, hinv, hle, hp⟩

theorem StateReturns.modify {g : σ → σ} {p : PUnit → σ → Prop} (hinv : inv (g s))
    (hle : le s (g s)) (hp : p ⟨⟩ (g s)) :
    StateReturns inv le (modify g : StateT σ (Except ε) PUnit) s p :=
  ⟨⟨⟩, g s, rfl, hinv, hle, hp⟩

/-- A sequence that returned did so in its two parts. -/
theorem stateT_bind_eq_ok {b : β} {s' : σ} (h : (x >>= f) s = .ok (b, s')) :
    ∃ a s₁, x s = .ok (a, s₁) ∧ f a s₁ = .ok (b, s') := by
  obtain ⟨⟨a, s₁⟩, hx, hf⟩ := bind_eq_ok.1 h
  exact ⟨a, s₁, hx, hf⟩

theorem stateT_get_bind {g : σ → StateT σ (Except ε) β} : (get >>= g) s = g s s := rfl

theorem stateT_get_bind_eq_ok {g : σ → StateT σ (Except ε) β} {b : β} {s' : σ}
    (h : (get >>= g) s = .ok (b, s')) : g s s = .ok (b, s') := h

variable (inv le) in
/-- The computation returns so, or fails where `c` holds. -/
def StateReturnsUnless (c : Prop) (x : StateT σ (Except ε) α) (s : σ) (post : α → σ → Prop) : Prop :=
  StateReturns inv le x s post ∨ (c ∧ ∃ e, x s = .error e)

section Unless

variable {c : Prop}

theorem StateReturns.unless (h : StateReturns inv le x s p) :
    StateReturnsUnless inv le c x s p := .inl h

theorem StateReturnsUnless.returns (h : StateReturnsUnless inv le c x s p) (hc : ¬c) :
    StateReturns inv le x s p := h.resolve_right fun hr => hc hr.1

theorem StateReturnsUnless.of_eq_ok (h : StateReturnsUnless inv le c x s p) {a : α} {s' : σ}
    (hrun : x s = .ok (a, s')) : inv s' ∧ le s s' ∧ p a s' := by
  rcases h with ⟨b, s₁, hb, hinv, hle, hp⟩ | ⟨-, e, he⟩
  · obtain ⟨rfl, rfl⟩ := Prod.mk.inj (Except.ok.inj (hb.symm.trans hrun))
    exact ⟨hinv, hle, hp⟩
  · exact absurd (he.symm.trans hrun) (by simp)

theorem StateReturnsUnless.mono {p' : α → σ → Prop} (h : StateReturnsUnless inv le c x s p)
    (hp : ∀ a s', inv s' → le s s' → p a s' → p' a s') : StateReturnsUnless inv le c x s p' :=
  h.imp (fun h => h.mono hp) id

theorem StateReturnsUnless.pure [Std.Refl le] {a : α} (hs : inv s) (h : p a s) :
    StateReturnsUnless inv le c (Pure.pure a : StateT σ (Except ε) α) s p :=
  .inl (StateReturns.pure hs h)

theorem StateReturnsUnless.bind [IsTrans σ le] (h : StateReturnsUnless inv le c x s p)
    (hf : ∀ a s', inv s' → le s s' → p a s' → StateReturnsUnless inv le c (f a) s' q) :
    StateReturnsUnless inv le c (x >>= f) s q := by
  rcases h with ⟨a, s₁, hrun, hinv, hle, ha⟩ | ⟨hc, e, he⟩
  · have hrun' : (x >>= f) s = f a s₁ := stateT_bind_of_ok hrun
    rcases hf a s₁ hinv hle ha with ⟨b, s₂, hb, hinv₂, hle₂, hq⟩ | ⟨hc, e, he⟩
    · exact .inl ⟨b, s₂, hrun'.trans hb, hinv₂, IsTrans.trans s s₁ s₂ hle hle₂, hq⟩
    · exact .inr ⟨hc, e, hrun'.trans he⟩
  · exact .inr ⟨hc, e, stateT_bind_of_error he⟩

theorem StateReturnsUnless.get_bind {f : σ → StateT σ (Except ε) β}
    (h : StateReturnsUnless inv le c (f s) s q) : StateReturnsUnless inv le c (get >>= f) s q := h

theorem StateReturnsUnless.throw {e : ε} (hc : c) :
    StateReturnsUnless inv le c (MonadExcept.throw e : StateT σ (Except ε) α) s p :=
  .inr ⟨hc, e, rfl⟩

end Unless

end StateReturns

end Lib
end Dwarfpp
