/-
# A heap of owned cells

What `new` and `delete` do, for values of any type.  A cell is allocated where none has
been before, so that an owner's pointer is no one else's: what a pointer leads to stays
when others are allocated (`Heap.extends_new`), and when others are deleted
(`exists_delete`).
-/

import Mathlib

namespace Dwarfpp
namespace Lib

/-- Cells by their addresses.  From `next` on nothing has been allocated yet. -/
structure Heap (α : Type) where
  cells : ℕ → Option α
  next : ℕ
  fresh : ∀ p, next ≤ p → cells p = none

namespace Heap

variable {α : Type}

def empty : Heap α := ⟨fun _ => none, 0, fun _ _ => rfl⟩

/-- `new`: the pointer is `h.next`. -/
def new (h : Heap α) (a : α) : Heap α where
  cells := Function.update h.cells h.next (some a)
  next := h.next + 1
  fresh p hp := by
    rw [Function.update_of_ne (by omega)]
    exact h.fresh p (by omega)

/-- The heap without a cell. -/
def without (h : Heap α) (p : ℕ) : Heap α where
  cells := Function.update h.cells p none
  next := h.next
  fresh q hq := by
    by_cases hqp : q = p
    · rw [hqp, Function.update_self]
    · rw [Function.update_of_ne hqp]
      exact h.fresh q hq

/-- `delete`, of a cell that is there. -/
def delete (h : Heap α) (p : ℕ) : Option (Heap α) := (h.cells p).map fun _ => h.without p

/-- Every cell of one heap is in the other. -/
def Extends (h h' : Heap α) : Prop := ∀ p a, h.cells p = some a → h'.cells p = some a

variable {h h' h'' : Heap α} {p q : ℕ} {a : α}

theorem Extends.refl (h : Heap α) : Extends h h := fun _ _ hp => hp

theorem Extends.trans (hh' : Extends h h') (hh'' : Extends h' h'') : Extends h h'' :=
  fun p a hp => hh'' p a (hh' p a hp)

theorem lt_next (hp : h.cells p = some a) : p < h.next := by
  by_contra hle
  rw [h.fresh p (Nat.le_of_not_lt hle)] at hp
  exact nomatch hp

@[simp] theorem cells_new_next : (h.new a).cells h.next = some a := Function.update_self ..

/-- **What is allocated does not touch what is there.** -/
theorem extends_new : Extends h (h.new a) := fun p b hp => by
  have hne : p ≠ h.next := Nat.ne_of_lt (lt_next hp)
  exact (Function.update_of_ne hne _ _).trans hp

/-- **A deleted cell takes no other with it.** -/
theorem exists_delete (hp : h.cells p = some a) :
    ∃ h', h.delete p = some h' ∧ ∀ q, q ≠ p → h'.cells q = h.cells q := by
  rw [delete, hp]
  exact ⟨_, rfl, fun q hq => Function.update_of_ne hq _ _⟩

end Heap

end Lib
end Dwarfpp
