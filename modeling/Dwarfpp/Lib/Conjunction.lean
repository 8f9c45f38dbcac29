/-
# Recursive conjunctions

A recursion that goes through a list of checks and stops at the first that fails; a check is
decided on the spot or calls the recursion for another argument.  The recursion has a bound on its
depth.  What it settles on is a least fixed point (`settles_true_iff`), and it settles for
every argument exactly if every argument has its checks and no endless chain of calls is made
(`settles_all_iff`), where a call is made once the checks before it hold.
-/

import Mathlib
import Dwarfpp.Lib.Settles

namespace Dwarfpp
namespace Lib

variable {P ε : Type}

/-- One check of a conjunction. -/
inductive Check (P : Type)
  | decided (b : Bool)
  | call (p : P)

/-- The check holds, where the calls that hold are given. -/
def Check.Holds (r : P → Prop) : Check P → Prop
  | .decided b => b = true
  | .call p => r p

@[simp] theorem Check.holds_decided {r : P → Prop} {b : Bool} :
    (Check.decided b).Holds r ↔ b = true := Iff.rfl

@[simp] theorem Check.holds_call {r : P → Prop} {p : P} : (Check.call p).Holds r ↔ r p := Iff.rfl

/-- One check after the other, up to the first that fails. -/
def allChecks (f : P → Except ε Bool) : List (Check P) → Except ε Bool
  | [] => .ok true
  | .decided b :: cs => if b then allChecks f cs else .ok false
  | .call p :: cs => do if ← f p then allChecks f cs else return false

section AllChecks

variable {f f' : P → Except ε Bool} {cs before after : List (Check P)} {p : P}

@[simp] theorem allChecks_nil : allChecks f [] = .ok true := rfl

theorem allChecks_decided (b : Bool) :
    allChecks f (.decided b :: cs) = if b then allChecks f cs else .ok false := rfl

theorem allChecks_call :
    allChecks f (.call p :: cs) = f p >>= fun b => if b then allChecks f cs else .ok false := rfl

@[simp] theorem allChecks_singleton (b : Bool) : allChecks f [.decided b] = .ok b := by
  cases b <;> rfl

@[simp] theorem allChecks_singleton_call : allChecks f [.call p] = f p := by
  rw [allChecks_call]
  cases f p with
  | error e => rfl
  | ok b => cases b <;> rfl

theorem allChecks_append (cs' : List (Check P)) :
    allChecks f (cs ++ cs') =
      allChecks f cs >>= fun b => if b then allChecks f cs' else .ok false := by
  induction cs with
  | nil => rfl
  | cons c cs ih =>
    cases c with
    | decided b =>
      rw [List.cons_append, allChecks_decided, allChecks_decided]
      split_ifs
      · exact ih
      · rfl
    | call p =>
      rw [List.cons_append, allChecks_call, allChecks_call, bind_assoc]
      refine bind_congr fun b => ?_
      split_ifs
      · exact ih
      · rfl

theorem allChecks_mono (h : ∀ p, Below (f p) (f' p)) (cs : List (Check P)) :
    Below (allChecks f cs) (allChecks f' cs) := by
  induction cs with
  | nil => exact Below.refl _
  | cons c cs ih =>
    cases c with
    | decided b =>
      rw [allChecks_decided, allChecks_decided]
      split
      · exact ih
      · exact Below.refl _
    | call p =>
      rw [allChecks_call, allChecks_call]
      refine (h p).bind fun b => ?_
      split
      · exact ih
      · exact Below.refl _

/-- All checks came out true, so all hold. -/
theorem holds_of_allChecks (h : allChecks f cs = .ok true) :
    ∀ c ∈ cs, c.Holds (fun p => f p = .ok true) := by
  induction cs with
  | nil => exact fun c hc => absurd hc List.not_mem_nil
  | cons c cs ih =>
    rw [List.forall_mem_cons]
    cases c with
    | decided b =>
      rw [allChecks_decided] at h
      split at h
      · exact ⟨‹_›, ih h⟩
      · exact nomatch h
    | call p =>
      rw [allChecks_call] at h
      obtain ⟨b, hb, h⟩ := bind_eq_ok.1 h
      cases b with
      | true => exact ⟨hb, ih h⟩
      | false => exact nomatch h

/-- Checks that all hold do not come out false. -/
theorem eq_true_of_holds {b : Bool} (h : allChecks f cs = .ok b)
    (hcs : ∀ c ∈ cs, c.Holds (fun p => ∀ b', f p = .ok b' → b' = true)) : b = true := by
  induction cs with
  | nil => exact (Except.ok.inj h).symm
  | cons c cs ih =>
    rw [List.forall_mem_cons] at hcs
    cases c with
    | decided d =>
      rw [allChecks_decided, if_pos (show d = true from hcs.1)] at h
      exact ih h hcs.2
    | call p =>
      rw [allChecks_call] at h
      obtain ⟨b', hb', h⟩ := bind_eq_ok.1 h
      rw [hcs.1 b' hb', if_pos rfl] at h
      exact ih h hcs.2

/-- **A call is made once the checks before it hold.** -/
theorem call_returns {b : Bool} (h : allChecks f (before ++ .call p :: after) = .ok b)
    (hbefore : ∀ c ∈ before, c.Holds (fun q => ∀ b', f q = .ok b' → b' = true)) :
    ∃ b', f p = .ok b' := by
  induction before with
  | nil =>
    rw [List.nil_append, allChecks_call] at h
    obtain ⟨b', hb', -⟩ := bind_eq_ok.1 h
    exact ⟨b', hb'⟩
  | cons c before ih =>
    rw [List.forall_mem_cons] at hbefore
    rw [List.cons_append] at h
    cases c with
    | decided d =>
      rw [allChecks_decided, if_pos (show d = true from hbefore.1)] at h
      exact ih h hbefore.2
    | call q =>
      rw [allChecks_call] at h
      obtain ⟨b', hb', h⟩ := bind_eq_ok.1 h
      rw [hbefore.1 b' hb', if_pos rfl] at h
      exact ih h hbefore.2

end AllChecks

section Settling

variable {f : ℕ → P → Except ε Bool} {cs : List (Check P)} {p : P} {b : Bool}

/-- A call that settles, and then the checks after it. -/
theorem settles_allChecks_call (hp : Settles (f · p) b)
    (hcs : b = true → ∃ b', Settles (fun n => allChecks (f n) cs) b') :
    ∃ b', Settles (fun n => allChecks (f n) (.call p :: cs)) b' ∧
      (b = true → Settles (fun n => allChecks (f n) cs) b') := by
  let after (n : ℕ) (b : Bool) : Except ε Bool := if b then allChecks (f n) cs else .ok false
  cases b with
  | true =>
    obtain ⟨b', hb'⟩ := hcs rfl
    exact ⟨b', Settles.bind (h := after) hp hb', fun _ => hb'⟩
  | false => exact ⟨false, Settles.bind (h := after) hp (Settles.const rfl), nofun⟩

theorem settles_allChecks_of_holds (h : ∀ c ∈ cs, c.Holds (fun p => Settles (f · p) true)) :
    Settles (fun n => allChecks (f n) cs) true := by
  induction cs with
  | nil => exact Settles.const rfl
  | cons c cs ih =>
    rw [List.forall_mem_cons] at h
    cases c with
    | decided b =>
      refine (ih h.2).congr fun n => ?_
      rw [allChecks_decided, if_pos (show b = true from h.1)]
    | call p =>
      have hcs := ih h.2
      obtain ⟨b', hb', heq⟩ := settles_allChecks_call h.1 fun _ => ⟨true, hcs⟩
      rwa [(heq rfl).unique hcs] at hb'

/-- The checks settle if the calls that are made do. -/
theorem settles_allChecks
    (h : ∀ before p after, cs = before ++ .call p :: after →
      (∀ c ∈ before, c.Holds (fun q => Settles (f · q) true)) → ∃ b, Settles (f · p) b) :
    ∃ b, Settles (fun n => allChecks (f n) cs) b := by
  induction cs with
  | nil => exact ⟨true, Settles.const rfl⟩
  | cons c cs ih =>
    -- the checks behind one that holds settle by induction
    have hrest (hc : c.Holds fun q => Settles (f · q) true) :
        ∃ b, Settles (fun n => allChecks (f n) cs) b := by
      refine ih fun before p after heq hbefore => ?_
      refine h (c :: before) p after (by rw [heq]; rfl) ?_
      exact List.forall_mem_cons.2 ⟨hc, hbefore⟩
    cases c with
    | decided b =>
      cases b with
      | true => exact hrest rfl
      | false => exact ⟨false, Settles.const rfl⟩
    | call p =>
      obtain ⟨b, hb⟩ := h [] p cs rfl fun c hc => absurd hc List.not_mem_nil
      obtain ⟨b', hb', -⟩ := settles_allChecks_call hb fun htrue => hrest (htrue ▸ hb)
      exact ⟨b', hb'⟩

end Settling

/-! ### The recursion -/

/-- With the bound `n + 1` the recursion goes through the checks that are made out with the bound
`n`, and calls itself with it. -/
structure IsConjunction (checks : ℕ → P → Except ε (List (Check P)))
    (f : ℕ → P → Except ε Bool) : Prop where
  zero : ∀ p b, f 0 p ≠ .ok b
  succ : ∀ n p, f (n + 1) p = checks n p >>= allChecks (f n)
  mono : ∀ {n m}, n ≤ m → ∀ p, Below (checks n p) (checks m p)

section Recursion

variable (checks : ℕ → P → Except ε (List (Check P)))

/-- The checks for an argument. -/
def HasChecks (p : P) (cs : List (Check P)) : Prop := Settles (checks · p) cs

/-- All checks hold, and so on for the calls among them. -/
inductive AllHold : P → Prop
  | intro {p cs} (hcs : HasChecks checks p cs) (hdecided : ∀ b, .decided b ∈ cs → b = true)
      (hcall : ∀ q, .call q ∈ cs → AllHold q) : AllHold p

/-- For `p` the recursion calls itself for `q`. -/
def Calls (q p : P) : Prop :=
  ∃ before after, HasChecks checks p (before ++ .call q :: after) ∧
    ∀ c ∈ before, c.Holds (AllHold checks)

end Recursion

namespace IsConjunction

variable {checks : ℕ → P → Except ε (List (Check P))} {f : ℕ → P → Except ε Bool} {n m : ℕ}
  {p : P} {b : Bool} {cs : List (Check P)}

theorem hasChecks (hf : IsConjunction checks f) (h : checks n p = .ok cs) : HasChecks checks p cs :=
  Settles.of_mono (fun _ _ hle => hf.mono hle p) h

theorem below (hf : IsConjunction checks f) (h : n ≤ m) (p : P) : Below (f n p) (f m p) := by
  induction n generalizing m p with
  | zero => exact fun b hb => absurd hb (hf.zero p b)
  | succ n ih =>
    obtain ⟨m, rfl⟩ : ∃ k, m = k + 1 := ⟨m - 1, by omega⟩
    rw [hf.succ, hf.succ]
    exact (hf.mono (by omega) p).bind fun cs => allChecks_mono (ih (by omega)) cs

theorem settles (hf : IsConjunction checks f) (h : f n p = .ok b) : Settles (f · p) b :=
  Settles.of_mono (fun _ _ hle => hf.below hle p) h

theorem settles_of_checks (hf : IsConjunction checks f) (hcs : HasChecks checks p cs)
    (h : Settles (fun n => allChecks (f n) cs) b) : Settles (f · p) b :=
  ((hcs.bind h).congr fun n => hf.succ n p).succ

/-- A run that returned has made out the checks. -/
theorem run_checks (hf : IsConjunction checks f) (h : f (n + 1) p = .ok b) :
    ∃ cs, HasChecks checks p cs ∧ allChecks (f n) cs = .ok b := by
  rw [hf.succ] at h
  obtain ⟨cs, hcs, h⟩ := bind_eq_ok.1 h
  exact ⟨cs, hf.hasChecks hcs, h⟩

/-- **The recursion settles on true exactly where all checks hold.** -/
theorem settles_true_iff (hf : IsConjunction checks f) :
    Settles (f · p) true ↔ AllHold checks p := by
  constructor
  · intro h
    obtain ⟨n, hn⟩ := h.exists_run
    clear h
    induction n generalizing p with
    | zero => exact absurd hn (hf.zero p true)
    | succ n ih =>
      obtain ⟨cs, hcs, hall⟩ := hf.run_checks hn
      have hholds := holds_of_allChecks hall
      exact .intro hcs (fun b hb => hholds _ hb) fun q hq => ih (hholds _ hq)
  · intro h
    induction h with
    | intro hcs hdecided _ ih =>
      refine hf.settles_of_checks hcs (settles_allChecks_of_holds fun c hc => ?_)
      cases c with
      | decided b => exact hdecided b hc
      | call q => exact ih q hc

/-- What a run that returned calls has returned. -/
theorem returns_of_calls (hf : IsConjunction checks f) {q : P} (h : f (n + 1) p = .ok b)
    (hcall : Calls checks q p) : ∃ b', f n q = .ok b' := by
  obtain ⟨before, after, hcs, hbefore⟩ := hcall
  obtain ⟨cs, hcs', hall⟩ := hf.run_checks h
  rw [hcs'.unique hcs] at hall
  refine call_returns hall fun c hc => ?_
  cases c with
  | decided d => exact hbefore _ hc
  | call r =>
    intro b' hb'
    exact (hf.settles hb').unique (hf.settles_true_iff.2 (hbefore _ hc))

/-- What a run that returned calls can be followed to an end. -/
theorem acc_of_run (hf : IsConjunction checks f) (h : f n p = .ok b) : Acc (Calls checks) p := by
  induction n generalizing p b with
  | zero => exact absurd h (hf.zero p b)
  | succ n ih =>
    refine Acc.intro p fun q hq => ?_
    obtain ⟨before, after, hcs, hbefore⟩ := hq
    obtain ⟨cs, hcs', hall⟩ := hf.run_checks h
    rw [hcs'.unique hcs] at hall
    obtain ⟨b', hb'⟩ := call_returns hall fun c hc => by
      cases c with
      | decided d => exact hbefore _ hc
      | call r =>
        intro b' hb'
        exact (hf.settles hb').unique (hf.settles_true_iff.2 (hbefore _ hc))
    exact ih hb'

theorem settles_of_acc (hf : IsConjunction checks f) (hchecks : ∀ p, ∃ cs, HasChecks checks p cs)
    (h : Acc (Calls checks) p) : ∃ b, Settles (f · p) b := by
  induction h with
  | intro p _ ih =>
    obtain ⟨cs, hcs⟩ := hchecks p
    obtain ⟨b, hb⟩ := settles_allChecks fun before q after heq hbefore => ih q
      ⟨before, after, heq ▸ hcs, fun c hc => by
        cases c with
        | decided d => exact hbefore _ hc
        | call r => exact hf.settles_true_iff.1 (hbefore _ hc)⟩
    exact ⟨b, hf.settles_of_checks hcs hb⟩

/-- **The recursion settles for every argument exactly if each has its checks and there is no
endless chain of calls.** -/
theorem settles_all_iff (hf : IsConjunction checks f) :
    (∀ p, ∃ b, Settles (f · p) b) ↔
      (∀ p, ∃ cs, HasChecks checks p cs) ∧ WellFounded (Calls checks) := by
  constructor
  · intro h
    refine ⟨fun p => ?_, ⟨fun p => ?_⟩⟩
    · obtain ⟨b, hb⟩ := h p
      obtain ⟨n, hn⟩ := hb.pred.exists_run
      obtain ⟨cs, hcs, -⟩ := hf.run_checks hn
      exact ⟨cs, hcs⟩
    · obtain ⟨b, hb⟩ := h p
      obtain ⟨n, hn⟩ := hb.exists_run
      exact hf.acc_of_run hn
  · rintro ⟨hchecks, hwf⟩ p
    exact hf.settles_of_acc hchecks (hwf.apply p)

/-- **The recursion settles for an argument exactly if no endless chain of calls starts there and
every argument called has its checks.** -/
theorem settles_iff (hf : IsConjunction checks f) :
    (∃ b, Settles (f · p) b) ↔ Acc (Calls checks) p ∧
      ∀ q, Relation.ReflTransGen (Calls checks) q p → ∃ cs, HasChecks checks q cs := by
  constructor
  · rintro ⟨b, hb⟩
    obtain ⟨n, hn⟩ := hb.exists_run
    refine ⟨hf.acc_of_run hn, fun q hq => ?_⟩
    -- every argument called is run with a smaller bound
    suffices h : ∃ n b, f n q = .ok b by
      obtain ⟨n, b, hn⟩ := h
      cases n with
      | zero => exact absurd hn (hf.zero q b)
      | succ n =>
        obtain ⟨cs, hcs, -⟩ := hf.run_checks hn
        exact ⟨cs, hcs⟩
    induction hq using Relation.ReflTransGen.head_induction_on with
    | refl => exact ⟨n, b, hn⟩
    | head hcall _ ih =>
      obtain ⟨n, b, hn⟩ := ih
      cases n with
      | zero => exact absurd hn (hf.zero _ b)
      | succ n =>
        obtain ⟨b', hb'⟩ := hf.returns_of_calls hn hcall
        exact ⟨n, b', hb'⟩
  · rintro ⟨hacc, hchecks⟩
    induction hacc with
    | intro p _ ih =>
      obtain ⟨cs, hcs⟩ := hchecks p .refl
      obtain ⟨b, hb⟩ := settles_allChecks fun before q after heq hbefore => by
        have hcall : Calls checks q p := ⟨before, after, heq ▸ hcs, fun c hc => by
          cases c with
          | decided d => exact hbefore _ hc
          | call r => exact hf.settles_true_iff.1 (hbefore _ hc)⟩
        exact ih q hcall fun q' hq' => hchecks q' (hq'.tail hcall)
      exact ⟨b, hf.settles_of_checks hcs hb⟩

end IsConjunction

end Lib
end Dwarfpp
