/-
# Finite maps as sorted association lists

`OrderedMap κ α` is a list of entries whose keys increase strictly; the order is
a field, so every value of the type has one entry per key.  `findEntry` and
`insertEntry` work on any list of entries: a set of pairs is searched with the
same function.  The first entry that passes a test, in a map that entries were
recorded in, is found in the sequence of these (`find?_insertAll_iff`).
-/

import Mathlib

namespace Dwarfpp
namespace Lib

variable {κ α : Type} [LinearOrder κ]

/-- The value of the first entry with key `k`. -/
def findEntry (k : κ) : List (κ × α) → Option α
  | [] => none
  | (k', a) :: l => if k = k' then some a else findEntry k l

/-- Insertion in key order, replacing the value of an existing key. -/
def insertEntry (k : κ) (a : α) : List (κ × α) → List (κ × α)
  | [] => [(k, a)]
  | (k', a') :: l =>
    if k < k' then (k, a) :: (k', a') :: l
    else if k = k' then (k, a) :: l
    else (k', a') :: insertEntry k a l

theorem findEntry_insertEntry (j k : κ) (a : α) (l : List (κ × α)) :
    findEntry j (insertEntry k a l) = if j = k then some a else findEntry j l := by
  induction l with
  | nil => rfl
  | cons e l ih =>
    obtain ⟨k', a'⟩ := e
    by_cases hlt : k < k'
    · rw [insertEntry, if_pos hlt]
      rfl
    by_cases heq : k = k'
    · rw [insertEntry, if_neg hlt, if_pos heq, findEntry, findEntry, ← heq]
      split_ifs <;> rfl
    · rw [insertEntry, if_neg hlt, if_neg heq, findEntry, findEntry, ih]
      by_cases hj : j = k'
      · rw [if_pos hj, if_neg (fun h => heq (h.symm.trans hj)), if_pos hj]
      · rw [if_neg hj, if_neg hj]

theorem mem_insertEntry {e : κ × α} {k : κ} {a : α} {l : List (κ × α)}
    (h : e ∈ insertEntry k a l) : e = (k, a) ∨ e ∈ l := by
  induction l with
  | nil => simpa [insertEntry] using h
  | cons e' l ih =>
    unfold insertEntry at h
    split_ifs at h
    · simpa using h
    · rcases List.mem_cons.1 h with h | h
      · exact .inl h
      · exact .inr (List.mem_cons_of_mem _ h)
    · rcases List.mem_cons.1 h with h | h
      · exact .inr (by simp [h])
      · exact (ih h).imp id (List.mem_cons_of_mem _)

theorem sorted_insertEntry {k : κ} {a : α} {l : List (κ × α)}
    (h : l.Pairwise (fun x y => x.1 < y.1)) :
    (insertEntry k a l).Pairwise (fun x y => x.1 < y.1) := by
  induction l with
  | nil => simp [insertEntry]
  | cons e l ih =>
    obtain ⟨hhead, htail⟩ := List.pairwise_cons.1 h
    unfold insertEntry
    split_ifs with h1 h2
    · refine List.pairwise_cons.2 ⟨fun x hx => ?_, h⟩
      rcases List.mem_cons.1 hx with rfl | hx
      · exact h1
      · exact h1.trans (hhead x hx)
    · exact List.pairwise_cons.2 ⟨fun x hx => h2 ▸ hhead x hx, htail⟩
    · refine List.pairwise_cons.2 ⟨fun x hx => ?_, ih htail⟩
      rcases mem_insertEntry hx with rfl | hx
      · exact lt_of_le_of_ne (not_lt.1 h1) (Ne.symm h2)
      · exact hhead x hx

variable (κ α) in
/-- A finite map: entries with strictly increasing keys. -/
structure OrderedMap where
  entries : List (κ × α)
  sorted : entries.Pairwise (fun x y => x.1 < y.1)

namespace OrderedMap

def empty : OrderedMap κ α := ⟨[], .nil⟩

def find (m : OrderedMap κ α) (k : κ) : Option α := findEntry k m.entries

def insert (m : OrderedMap κ α) (k : κ) (a : α) : OrderedMap κ α :=
  ⟨insertEntry k a m.entries, sorted_insertEntry m.sorted⟩

@[simp] theorem find_empty (k : κ) : (empty : OrderedMap κ α).find k = none := rfl

@[simp] theorem find_insert (m : OrderedMap κ α) (j k : κ) (a : α) :
    (m.insert k a).find j = if j = k then some a else m.find j :=
  findEntry_insertEntry j k a m.entries

/-- The entries are what is found. -/
theorem mem_entries_iff (m : OrderedMap κ α) {k : κ} {v : α} :
    (k, v) ∈ m.entries ↔ m.find k = some v := by
  obtain ⟨l, hl⟩ := m
  change (k, v) ∈ l ↔ findEntry k l = some v
  induction l with
  | nil => simp [findEntry]
  | cons e l ih =>
    obtain ⟨k', v'⟩ := e
    obtain ⟨hhead, htail⟩ := List.pairwise_cons.1 hl
    rw [List.mem_cons, findEntry]
    split_ifs with hk
    · subst hk
      constructor
      · rintro (heq | hmem)
        · rw [(Prod.mk.inj heq).2]
        · exact absurd (hhead _ hmem) (lt_irrefl _)
      · intro hv
        rw [Option.some.inj hv]
        exact .inl rfl
    · rw [← ih htail]
      constructor
      · rintro (heq | hmem)
        · exact absurd (Prod.mk.inj heq).1 hk
        · exact hmem
      · exact .inr

/-- The first entry whose key passes a test has the least such key. -/
theorem find?_entries_eq_some {m : OrderedMap κ α} {p : κ → Bool} {e : κ × α} :
    m.entries.find? (fun x => p x.1) = some e ↔
      m.find e.1 = some e.2 ∧ p e.1 ∧ ∀ x ∈ m.entries, p x.1 → e.1 ≤ x.1 := by
  have hfirst : ∀ {e : κ × α}, m.entries.find? (fun x => p x.1) = some e →
      e ∈ m.entries ∧ p e.1 ∧ ∀ x ∈ m.entries, p x.1 → e.1 ≤ x.1 := by
    intro e he
    obtain ⟨hp, before, after, heq, hbefore⟩ := List.find?_eq_some_iff_append.1 he
    refine ⟨List.mem_of_find?_eq_some he, hp, fun x hx hpx => ?_⟩
    have hsorted := m.sorted
    rw [heq] at hx hsorted
    rcases List.mem_append.1 hx with hx | hx
    · have hfalse := hbefore x hx
      rw [hpx] at hfalse
      cases hfalse
    · rcases List.mem_cons.1 hx with rfl | hx
      · exact le_rfl
      · exact ((List.pairwise_cons.1 (List.pairwise_append.1 hsorted).2.1).1 x hx).le
  constructor
  · intro he
    obtain ⟨hmem, hp, hleast⟩ := hfirst he
    exact ⟨(mem_entries_iff m).1 hmem, hp, hleast⟩
  · rintro ⟨hfind, hp, hleast⟩
    have hmem : e ∈ m.entries := (mem_entries_iff m).2 hfind
    cases hfound : m.entries.find? (fun x => p x.1) with
    | none => exact absurd hp (List.find?_eq_none.1 hfound e hmem)
    | some e' =>
      obtain ⟨hmem', hp', hleast'⟩ := hfirst hfound
      have hkey : e'.1 = e.1 := le_antisymm (hleast' e hmem hp) (hleast e' hmem' hp')
      have hvalue := (mem_entries_iff m).1 hmem'
      rw [hkey, hfind] at hvalue
      rw [Prod.ext hkey (Option.some.inj hvalue).symm]

/-! ### Recording -/

/-- Recording entries: inserting them in a map, in order. -/
def insertAll (m : OrderedMap κ α) (es : List (κ × α)) : OrderedMap κ α :=
  es.foldl (fun m e => m.insert e.1 e.2) m

/-- What is found under a key is what was recorded last under it. -/
theorem find_insertAll_eq_some {m : OrderedMap κ α} {es : List (κ × α)} {k : κ} {a : α} :
    (m.insertAll es).find k = some a ↔
      (∃ before after, es = before ++ (k, a) :: after ∧ ∀ x ∈ after, x.1 ≠ k) ∨
        (∀ x ∈ es, x.1 ≠ k) ∧ m.find k = some a := by
  induction es generalizing m with
  | nil => simp [insertAll]
  | cons e es ih =>
    change ((m.insert e.1 e.2).insertAll es).find k = some a ↔ _
    rw [ih, find_insert, List.forall_mem_cons]
    constructor
    · rintro (⟨before, after, rfl, hafter⟩ | ⟨hnot, hfind⟩)
      · exact .inl ⟨e :: before, after, rfl, hafter⟩
      · split_ifs at hfind with hk
        · refine .inl ⟨[], es, ?_, hnot⟩
          rw [hk, ← Option.some.inj hfind]
          rfl
        · exact .inr ⟨⟨Ne.symm hk, hnot⟩, hfind⟩
    · rintro (⟨before, after, heq, hafter⟩ | ⟨⟨hne, hnot⟩, hfind⟩)
      · cases before with
        | nil =>
          obtain ⟨rfl, rfl⟩ := List.cons.inj heq
          exact .inr ⟨hafter, if_pos rfl⟩
        | cons e' before =>
          obtain ⟨rfl, rfl⟩ := List.cons.inj heq
          exact .inl ⟨before, after, rfl, hafter⟩
      · refine .inr ⟨hnot, ?_⟩
        rw [if_neg (Ne.symm hne)]
        exact hfind

/-- A key that is found, or is recorded, is found afterwards. -/
theorem find_insertAll_ne_none {m : OrderedMap κ α} {es : List (κ × α)} {k : κ}
    (h : m.find k ≠ none ∨ ∃ x ∈ es, x.1 = k) : (m.insertAll es).find k ≠ none := by
  induction es generalizing m with
  | nil => exact h.resolve_right fun ⟨x, hx, _⟩ => List.not_mem_nil hx
  | cons e es ih =>
    refine ih (m := m.insert e.1 e.2) ?_
    rw [find_insert]
    split_ifs with hk
    · exact .inl nofun
    · refine h.imp_right fun ⟨x, hx, hxk⟩ => ?_
      rcases List.mem_cons.1 hx with rfl | hx
      · exact absurd hxk.symm hk
      · exact ⟨x, hx, hxk⟩

/-- **The first entry of what was recorded whose key passes a test**: its key is the least of those
that do, and it is the one recorded last under it. -/
theorem find?_insertAll_iff {es : List (κ × α)} {p : κ → Bool} {e : κ × α} :
    ((empty : OrderedMap κ α).insertAll es).entries.find? (fun x => p x.1) = some e ↔
      p e.1 ∧ ∃ before after, es = before ++ e :: after ∧
        (∀ x ∈ before, p x.1 → e.1 ≤ x.1) ∧ ∀ x ∈ after, p x.1 → e.1 < x.1 := by
  have hrecorded : ∀ {k a}, ((empty : OrderedMap κ α).insertAll es).find k = some a ↔
      ∃ before after, es = before ++ (k, a) :: after ∧ ∀ x ∈ after, x.1 ≠ k := by
    intro k a
    rw [find_insertAll_eq_some]
    exact or_iff_left fun h => nomatch h.2
  rw [find?_entries_eq_some, hrecorded]
  constructor
  · rintro ⟨⟨before, after, heq, hafter⟩, hp, hleast⟩
    have hle : ∀ x ∈ es, p x.1 → e.1 ≤ x.1 := by
      intro x hx hpx
      obtain ⟨a, ha⟩ := Option.ne_none_iff_exists'.1 (find_insertAll_ne_none (.inr ⟨x, hx, rfl⟩))
      exact hleast (x.1, a) ((mem_entries_iff _).2 ha) hpx
    refine ⟨hp, before, after, heq, fun x hx => hle x ?_, fun x hx hpx => ?_⟩
    · rw [heq]
      exact List.mem_append_left _ hx
    · refine lt_of_le_of_ne (hle x ?_ hpx) (hafter x hx).symm
      rw [heq]
      exact List.mem_append_right _ (List.mem_cons_of_mem _ hx)
  · rintro ⟨hp, before, after, heq, hbefore, hafter⟩
    refine ⟨⟨before, after, heq, fun x hx hk => ?_⟩, hp, fun x hx hpx => ?_⟩
    · exact absurd (hafter x hx (by rwa [hk])) (by rw [hk]; exact lt_irrefl _)
    · obtain ⟨before', after', heq', -⟩ := hrecorded.1 ((mem_entries_iff _).1 hx)
      have hmem : x ∈ before ++ e :: after := by
        rw [← heq, heq']
        exact List.mem_append_right _ List.mem_cons_self
      rcases List.mem_append.1 hmem with hx | hx
      · exact hbefore x hx hpx
      · rcases List.mem_cons.1 hx with rfl | hx
        · exact le_rfl
        · exact (hafter x hx hpx).le

end OrderedMap

end Lib
end Dwarfpp
