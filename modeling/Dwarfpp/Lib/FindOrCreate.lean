/-
# Finding or creating

A store that is asked for an entry under a key finds one that it has, or else creates it.
What it would find, `found`, is a partial function of the key, and whatever happens
to the store, what has been found under a key once is found under it again.
Then a run of answers multiplies nothing: equal keys get the same entry, and only the
first answer for a key can be a creation (`AnswerRun.once`).
-/

import Mathlib

namespace Dwarfpp
namespace Lib

variable {K E : Type}

/-- An answer for a key, and whether its entry was created for it. -/
structure KeyedAnswer (K E : Type) where
  key : K
  entry : E
  created : Bool

/-- What has been found is found again. -/
def Keeps (found found' : K → Option E) : Prop := ∀ k e, found k = some e → found' k = some e

/-- The answers that a store gives, and what it finds after them.  An entry is created only
where none is found, and is found from then on. -/
inductive AnswerRun : (K → Option E) → List (KeyedAnswer K E) → Prop
  | nil (found : K → Option E) : AnswerRun found []
  | keep {found found' : K → Option E} {log : List (KeyedAnswer K E)} (h : AnswerRun found log)
      (keeps : Keeps found found') : AnswerRun found' log
  | answer {found found' : K → Option E} {log : List (KeyedAnswer K E)} {k : K} {e : E}
      {created : Bool} (h : AnswerRun found log) (keeps : Keeps found found')
      (entry : found' k = some e) (creates : created = true → found k = none) :
      AnswerRun found' (log ++ [⟨k, e, created⟩])

/-- A later answer for the same key has the same entry, and creates none. -/
def Once (log : List (KeyedAnswer K E)) : Prop :=
  log.Pairwise fun a b => a.key = b.key → a.entry = b.entry ∧ b.created = false

/-- **The answers given are found.** -/
theorem AnswerRun.found {found : K → Option E} {log : List (KeyedAnswer K E)}
    (h : AnswerRun found log) : ∀ a ∈ log, found a.key = some a.entry := by
  induction h with
  | nil => simp
  | keep _ keeps ih => exact fun a ha => keeps _ _ (ih a ha)
  | answer _ keeps entry _ ih =>
    intro a ha
    rcases List.mem_append.1 ha with ha | ha
    · exact keeps _ _ (ih a ha)
    · obtain rfl := List.mem_singleton.1 ha
      exact entry

/-- **Nothing is multiplied.** -/
theorem AnswerRun.once {found : K → Option E} {log : List (KeyedAnswer K E)}
    (h : AnswerRun found log) : Once log := by
  induction h with
  | nil => exact List.Pairwise.nil
  | keep _ _ ih => exact ih
  | @answer found found' log k e created hrun keeps entry creates ih =>
    refine List.pairwise_append.2 ⟨ih, List.pairwise_singleton _ _, ?_⟩
    intro a ha b hb hkey
    obtain rfl := List.mem_singleton.1 hb
    obtain rfl : a.key = k := hkey
    have hfound := hrun.found a ha
    constructor
    · exact Option.some.inj ((keeps _ _ hfound).symm.trans entry)
    · cases created with
      | false => rfl
      | true =>
        rw [creates rfl] at hfound
        exact absurd hfound (by simp)

end Lib
end Dwarfpp
