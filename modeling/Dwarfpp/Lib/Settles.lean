/-
# Computations that settle

A recursion with a bound on its depth settles on a value if it returns that value with every
bound from some point on.  Settling is stable under sequencing, so what a recursion settles on
can be put together from what its parts settle on, without a word about bounds.
-/

import Mathlib
import Dwarfpp.Lib.Run

namespace Dwarfpp
namespace Lib

variable {ε α β : Type}

/-- With every bound from some point on the computation returns `a`. -/
def Settles (f : ℕ → Except ε α) (a : α) : Prop := ∃ n, ∀ m, n ≤ m → f m = .ok a

namespace Settles

variable {f g : ℕ → Except ε α} {h : ℕ → α → Except ε β} {a a' : α} {b : β}

theorem const {x : Except ε α} (hx : x = .ok a) : Settles (fun _ => x) a := ⟨0, fun _ _ => hx⟩

theorem unique (hf : Settles f a) (hf' : Settles f a') : a = a' := by
  obtain ⟨n, hn⟩ := hf
  obtain ⟨n', hn'⟩ := hf'
  exact Except.ok.inj ((hn (max n n') (by omega)).symm.trans (hn' (max n n') (by omega)))

theorem congr (hf : Settles f a) (heq : ∀ m, g m = f m) : Settles g a := by
  obtain ⟨n, hn⟩ := hf
  exact ⟨n, fun m hm => (heq m).trans (hn m hm)⟩

/-- **Sequencing.** -/
theorem bind (hf : Settles f a) (hh : Settles (fun m => h m a) b) :
    Settles (fun m => f m >>= h m) b := by
  obtain ⟨n, hn⟩ := hf
  obtain ⟨k, hk⟩ := hh
  refine ⟨max n k, fun m hm => ?_⟩
  show f m >>= h m = _
  rw [hn m (by omega)]
  exact hk m (by omega)

/-- One more step of the recursion. -/
theorem succ (hf : Settles (fun m => f (m + 1)) a) : Settles f a := by
  obtain ⟨n, hn⟩ := hf
  refine ⟨n + 1, fun m hm => ?_⟩
  obtain ⟨k, rfl⟩ : ∃ k, m = k + 1 := ⟨m - 1, by omega⟩
  exact hn k (by omega)

theorem pred (hf : Settles f a) : Settles (fun m => f (m + 1)) a := by
  obtain ⟨n, hn⟩ := hf
  exact ⟨n, fun m hm => hn (m + 1) (by omega)⟩

/-- A recursion that returns the same with higher bounds settles where it returns. -/
theorem of_mono (hmono : ∀ n m, n ≤ m → Below (f n) (f m)) {n : ℕ} (hn : f n = .ok a) :
    Settles f a :=
  ⟨n, fun m hm => hmono n m hm a hn⟩

/-- It does return with some bound. -/
theorem exists_run (hf : Settles f a) : ∃ n, f n = .ok a := by
  obtain ⟨n, hn⟩ := hf
  exact ⟨n, hn n (Nat.le_refl n)⟩

theorem succ_iff : Settles (fun m => f (m + 1)) a ↔ Settles f a := ⟨succ, pred⟩

theorem const_iff {x : Except ε α} : Settles (fun _ => x) a ↔ x = .ok a :=
  ⟨fun h => h.exists_run.elim fun _ hn => hn, const⟩

/-- What a sequence settles on, if its halves return the same with higher bounds. -/
theorem bind_iff (hf : ∀ n m, n ≤ m → Below (f n) (f m))
    (hh : ∀ a n m, n ≤ m → Below (h n a) (h m a)) :
    Settles (fun m => f m >>= h m) b ↔ ∃ a, Settles f a ∧ Settles (fun m => h m a) b := by
  constructor
  · intro hb
    obtain ⟨n, hn⟩ := hb.exists_run
    obtain ⟨a, ha, hn⟩ := bind_eq_ok.1 hn
    exact ⟨a, of_mono hf ha, of_mono (hh a) hn⟩
  · rintro ⟨a, hf, hh⟩
    exact bind hf hh

end Settles

end Lib
end Dwarfpp
