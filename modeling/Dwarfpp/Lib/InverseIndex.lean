/-
# A map and its inverse

A finite map and a list of pairs that is meant to be its inverse: each entry of the
map has its pair, once, and there is no other pair (`Inverse`).  Recording an
entry replaces in the map and appends to the list, so that the two stay
inverse to each other just if no key is recorded twice (`inverse_insertAll_iff`).
-/

import Mathlib
import Dwarfpp.Lib.OrderedMap

namespace Dwarfpp
namespace Lib

variable {κ ν : Type} [LinearOrder κ]

namespace OrderedMap

theorem nodup_entries (m : OrderedMap κ ν) : m.entries.Nodup :=
  m.sorted.imp fun h heq => absurd (congrArg Prod.fst heq) h.ne

end OrderedMap

/-- A key above all others goes to the end. -/
theorem insertEntry_of_lt {k : κ} {v : ν} {l : List (κ × ν)} (h : ∀ e ∈ l, e.1 < k) :
    insertEntry k v l = l ++ [(k, v)] := by
  induction l with
  | nil => rfl
  | cons e l ih =>
    obtain ⟨k', v'⟩ := e
    have hlt : k' < k := h _ List.mem_cons_self
    rw [insertEntry, if_neg hlt.not_gt, if_neg hlt.ne',
      ih fun e he => h e (List.mem_cons_of_mem _ he), List.cons_append]

/-- Entries with increasing keys make up the map. -/
theorem entries_insertAll {m : OrderedMap κ ν} {es : List (κ × ν)}
    (h : (m.entries ++ es).Pairwise fun x y => x.1 < y.1) :
    (m.insertAll es).entries = m.entries ++ es := by
  induction es generalizing m with
  | nil => simp [OrderedMap.insertAll]
  | cons e es ih =>
    have hinsert : (m.insert e.1 e.2).entries = m.entries ++ [e] :=
      insertEntry_of_lt fun e' he' =>
        (List.pairwise_append.1 h).2.2 e' he' e List.mem_cons_self
    have hcons : m.entries ++ e :: es = (m.insert e.1 e.2).entries ++ es := by
      rw [hinsert, List.append_assoc]
      rfl
    rw [hcons] at h ⊢
    exact ih h

section Inverse

variable [DecidableEq ν] {m : OrderedMap κ ν} {l : List (ν × κ)}

/-- The list has each entry of the map, turned round, once, and nothing else. -/
def Inverse (m : OrderedMap κ ν) (l : List (ν × κ)) : Prop :=
  ∀ k v, l.count (v, k) = if m.find k = some v then 1 else 0

theorem inverse_empty : Inverse (OrderedMap.empty : OrderedMap κ ν) [] := by
  intro k v
  simp

theorem Inverse.mem_iff (h : Inverse m l) {k : κ} {v : ν} : (v, k) ∈ l ↔ m.find k = some v := by
  rw [← List.count_pos_iff, h k v]
  split_ifs with hk <;> simp [hk]

theorem Inverse.nodup (h : Inverse m l) : l.Nodup := by
  rw [List.nodup_iff_count_le_one]
  rintro ⟨v, k⟩
  rw [h k v]
  split_ifs <;> omega

/-- No key occurs twice in an inverse. -/
theorem Inverse.nodup_keys (h : Inverse m l) : (l.map Prod.snd).Nodup := by
  refine List.Nodup.map_on ?_ h.nodup
  rintro ⟨v, k⟩ hv ⟨v', k'⟩ hv' rfl
  have heq := (h.mem_iff.1 hv).symm.trans (h.mem_iff.1 hv')
  rw [Option.some.inj heq]

/-- **The inverse lists the entries.** -/
theorem Inverse.perm (h : Inverse m l) : l.Perm (m.entries.map Prod.swap) := by
  refine (List.perm_ext_iff_of_nodup h.nodup
    (m.nodup_entries.map (Equiv.prodComm κ ν).injective)).2 ?_
  rintro ⟨v, k⟩
  rw [h.mem_iff, ← m.mem_entries_iff]
  simp

theorem Inverse.insert (h : Inverse m l) {k : κ} (hk : m.find k = none) (v : ν) :
    Inverse (m.insert k v) (l ++ [(v, k)]) := by
  intro k' v'
  rw [List.count_append, h k' v', OrderedMap.find_insert]
  by_cases hkk : k' = k
  · subst hkk
    rw [hk, if_pos rfl, if_neg (by simp)]
    by_cases hvv : v' = v
    · simp [hvv]
    · have hne : (v, k') ≠ (v', k') := fun heq => hvv (Prod.mk.inj heq).1.symm
      have hzero : [(v, k')].count (v', k') = 0 := List.count_eq_zero.2 (by simpa using hne.symm)
      rw [hzero, if_neg (fun heq => hvv (Option.some.inj heq).symm)]
  · have hne : (v, k) ≠ (v', k') := fun heq => hkk (Prod.mk.inj heq).2.symm
    have hzero : [(v, k)].count (v', k') = 0 := List.count_eq_zero.2 (by simpa using hne.symm)
    rw [if_neg hkk, hzero, Nat.add_zero]

/-- **Recording keeps the two inverse to each other just if the keys are new**, to the map and among
themselves. -/
theorem inverse_insertAll_iff (h : Inverse m l) (es : List (κ × ν)) :
    Inverse (m.insertAll es) (l ++ es.map Prod.swap) ↔
      (∀ e ∈ es, m.find e.1 = none) ∧ (es.map Prod.fst).Nodup := by
  constructor
  · intro hall
    have hkeys := hall.nodup_keys
    rw [List.map_append, List.map_map] at hkeys
    obtain ⟨-, hnodup, hdisjoint⟩ := List.nodup_append'.1 hkeys
    refine ⟨fun e he => ?_, hnodup⟩
    cases hfind : m.find e.1 with
    | none => rfl
    | some v =>
      have hl : e.1 ∈ l.map Prod.snd := List.mem_map_of_mem (h.mem_iff.2 hfind)
      exact absurd (List.mem_map_of_mem (f := Prod.snd ∘ Prod.swap) he) (hdisjoint hl)
  · rintro ⟨hnew, hnodup⟩
    induction es generalizing m l with
    | nil =>
      rw [List.map_nil, List.append_nil]
      exact h
    | cons e es ih =>
      rw [List.map_cons, List.nodup_cons] at hnodup
      have hstep := h.insert (hnew e List.mem_cons_self) e.2
      have hrest : ∀ e' ∈ es, (m.insert e.1 e.2).find e'.1 = none := by
        intro e' he'
        rw [OrderedMap.find_insert, if_neg]
        · exact hnew e' (List.mem_cons_of_mem _ he')
        · intro heq
          exact hnodup.1 (heq ▸ List.mem_map_of_mem he')
      have := ih hstep hrest hnodup.2
      rwa [List.append_assoc] at this

end Inverse

end Lib
end Dwarfpp
