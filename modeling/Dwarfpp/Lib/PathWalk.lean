/-
# A walk that stops at the nodes of its path

A walk enters a node, walks on from each of its targets if the node is accepted,
and leaves it.  It does not enter a node that is on the path to it.  On a finite
graph the walk ends (`walk_total`).  A walk that ends is bracketed
(`replay_walk`), and it enters a node exactly if the node can be reached through
accepted ones (`mem_walk_iff`): a node at which the walk stops is walked from
further up, since a path can be cut short where it comes back to a node.
-/

import Mathlib
import Dwarfpp.Lib.Logged

namespace Dwarfpp
namespace Lib

namespace Logged

variable {ω ε α β : Type}

/-- A sequence that returns has returned from both parts. -/
theorem bind_eq_mk {x : Logged ω ε α} {f : α → Logged ω ε β} {log : List ω} {b : β} :
    x >>= f = ⟨log, .ok b⟩ ↔
      ∃ l₁ a l₂, x = ⟨l₁, .ok a⟩ ∧ f a = ⟨l₂, .ok b⟩ ∧ log = l₁ ++ l₂ := by
  show bind x f = _ ↔ _
  obtain ⟨l₁, result⟩ := x
  cases result with
  | error e =>
    refine iff_of_false (fun h => ?_) ?_
    · exact nomatch (Logged.mk.inj h).2
    · rintro ⟨l₁', a, l₂, h, -⟩
      exact nomatch (Logged.mk.inj h).2
  | ok a =>
    constructor
    · intro h
      obtain ⟨rfl, hres⟩ := Logged.mk.inj h
      exact ⟨l₁, a, (f a).log, rfl, by rw [← hres], rfl⟩
    · rintro ⟨l₁', a', l₂, h, hf, rfl⟩
      obtain ⟨rfl, ha⟩ := Logged.mk.inj h
      obtain rfl := Except.ok.inj ha
      simp only [bind, hf]

/-- The log of a loop is made of those of its rounds. -/
theorem forM_cons_eq_mk {f : α → Logged ω ε Unit} {a : α} {as : List α} {log : List ω} :
    (a :: as).forM f = ⟨log, .ok ()⟩ ↔
      ∃ l₁ l₂, f a = ⟨l₁, .ok ()⟩ ∧ as.forM f = ⟨l₂, .ok ()⟩ ∧ log = l₁ ++ l₂ := by
  have hcons : (a :: as).forM f = f a >>= fun _ => as.forM f := rfl
  rw [hcons, bind_eq_mk]
  exact ⟨fun ⟨l₁, _, l₂, h⟩ => ⟨l₁, l₂, h⟩, fun ⟨l₁, l₂, h⟩ => ⟨l₁, (), l₂, h⟩⟩

theorem mem_forM_iff {f : α → Logged ω ε Unit} {as : List α} {log : List ω}
    (h : as.forM f = ⟨log, .ok ()⟩) {w : ω} :
    w ∈ log ↔ ∃ a ∈ as, ∃ l, f a = ⟨l, .ok ()⟩ ∧ w ∈ l := by
  induction as generalizing log with
  | nil =>
    obtain ⟨rfl, -⟩ := Logged.mk.inj h
    simp
  | cons a as ih =>
    obtain ⟨l₁, l₂, ha, has, rfl⟩ := forM_cons_eq_mk.1 h
    rw [List.mem_append, ih has]
    constructor
    · rintro (hw | ⟨b, hb, hrest⟩)
      · exact ⟨a, List.mem_cons_self, l₁, ha, hw⟩
      · exact ⟨b, List.mem_cons_of_mem _ hb, hrest⟩
    · rintro ⟨b, hb, l, hl, hw⟩
      rcases List.mem_cons.1 hb with rfl | hb
      · obtain ⟨rfl, -⟩ := Logged.mk.inj (ha.symm.trans hl)
        exact .inl hw
      · exact .inr ⟨b, hb, l, hl, hw⟩

/-- A loop returns if each of its rounds does. -/
theorem forM_eq_mk {f : α → Logged ω ε Unit} {as : List α} :
    (∃ log, as.forM f = ⟨log, .ok ()⟩) ↔ ∀ a ∈ as, ∃ l, f a = ⟨l, .ok ()⟩ := by
  induction as with
  | nil => exact iff_of_true ⟨[], rfl⟩ fun a ha => absurd ha List.not_mem_nil
  | cons a as ih =>
    rw [List.forall_mem_cons, ← ih]
    constructor
    · rintro ⟨log, h⟩
      obtain ⟨l₁, l₂, ha, has, -⟩ := forM_cons_eq_mk.1 h
      exact ⟨⟨l₁, ha⟩, l₂, has⟩
    · rintro ⟨⟨l₁, ha⟩, l₂, has⟩
      exact ⟨l₁ ++ l₂, forM_cons_eq_mk.2 ⟨l₁, l₂, ha, has, rfl⟩⟩

end Logged

namespace PathWalk

variable {ν ρ ε : Type}

/-- A node is entered or left, with the reason it was entered for. -/
inductive Visit (ν ρ : Type)
  | enter (v : ν) (r : ρ)
  | leave (v : ν) (r : ρ)
  deriving DecidableEq, Repr

section Walk

variable [DecidableEq ν] (accept : ν → ρ → Bool) (out : ν → Except ε (List (ν × ρ))) (stuck : ε)

/-- The walk from a node, entered for a reason, at the end of a path. -/
def walk : ℕ → List ν → ν × ρ → Logged (Visit ν ρ) ε Unit
  | 0, _, _ => .lift (.error stuck)
  | fuel + 1, path, (v, r) =>
    if v ∈ path then pure ()
    else do
      .event (.enter v r) ()
      (if accept v r then do
        let targets ← .lift (out v)
        targets.forM (walk fuel (v :: path))
      else pure ())
      .event (.leave v r) ()

end Walk

/-- Replays a log over a stack of open nodes: a node is entered when it is not open, and left
when it is the last one entered. -/
def replay [DecidableEq ν] [DecidableEq ρ] :
    List (ν × ρ) → List (Visit ν ρ) → Option (List (ν × ρ))
  | stack, [] => some stack
  | stack, .enter v r :: log =>
    if v ∈ stack.map Prod.fst then none else replay ((v, r) :: stack) log
  | [], .leave _ _ :: _ => none
  | top :: stack, .leave v r :: log => if top = (v, r) then replay stack log else none

/-- The targets of a node. -/
def edges (out : ν → Except ε (List (ν × ρ))) (v : ν) : List (ν × ρ) :=
  match out v with
  | .ok targets => targets
  | .error _ => []

section Paths

variable (accept : ν → ρ → Bool) (out : ν → Except ε (List (ν × ρ)))

/-- One node leads to another through accepted ones. -/
def Reached : ν × ρ → ν × ρ → Prop :=
  Relation.ReflTransGen fun p q => accept p.1 p.2 = true ∧ q ∈ edges out p.1

/-- It does so on a path that avoids the given nodes. -/
inductive Avoiding (closed : List ν) : ν × ρ → ν × ρ → Prop
  | refl {p} (hp : p.1 ∉ closed) : Avoiding closed p p
  | head {p q s} (hp : p.1 ∉ closed) (haccept : accept p.1 p.2 = true) (hq : q ∈ edges out p.1)
    (hrest : Avoiding closed q s) : Avoiding closed p s

end Paths

section Facts

variable {accept : ν → ρ → Bool} {out : ν → Except ε (List (ν × ρ))} {closed : List ν}
  {p q : ν × ρ}

theorem avoiding_nil_iff : Avoiding accept out [] p q ↔ Reached accept out p q := by
  constructor
  · intro h
    induction h with
    | refl => exact .refl
    | head _ haccept hq _ ih => exact .head ⟨haccept, hq⟩ ih
  · intro h
    induction h using Relation.ReflTransGen.head_induction_on with
    | refl => exact .refl List.not_mem_nil
    | head hstep _ ih => exact .head List.not_mem_nil hstep.1 hstep.2 ih

theorem Avoiding.not_mem (h : Avoiding accept out closed p q) : p.1 ∉ closed := by
  cases h with
  | refl hp => exact hp
  | head hp => exact hp

/-- A path avoids fewer nodes, too. -/
theorem Avoiding.of_cons {v : ν} (h : Avoiding accept out (v :: closed) p q) :
    Avoiding accept out closed p q := by
  induction h with
  | refl hp => exact .refl fun hmem => hp (List.mem_cons_of_mem _ hmem)
  | head hp haccept hq _ ih =>
    exact .head (fun hmem => hp (List.mem_cons_of_mem _ hmem)) haccept hq ih

/-- **A path that leads elsewhere can be cut short** at a node it passes: it avoids the node, or
so does a path from one of the node's targets. -/
theorem Avoiding.cut {v : ν} (h : Avoiding accept out closed p q) (hne : q.1 ≠ v) :
    Avoiding accept out (v :: closed) p q ∨
      ∃ s ∈ edges out v, Avoiding accept out (v :: closed) s q := by
  induction h with
  | refl hp => exact .inl (.refl (List.not_mem_cons_of_ne_of_not_mem hne hp))
  | @head p s q hp haccept hs _ ih =>
    rcases ih hne with hrest | hlater
    · by_cases hv : p.1 = v
      · exact .inr ⟨s, hv ▸ hs, hrest⟩
      · exact .inl (.head (List.not_mem_cons_of_ne_of_not_mem hv hp) haccept hs hrest)
    · exact .inr hlater

end Facts

section Runs

variable [DecidableEq ν] {accept : ν → ρ → Bool} {out : ν → Except ε (List (ν × ρ))} {stuck : ε}
  {fuel : ℕ} {path : List ν} {v : ν} {r : ρ} {p q : ν × ρ} {log : List (Visit ν ρ)}

theorem walk_of_mem (h : v ∈ path) :
    walk accept out stuck (fuel + 1) path (v, r) = ⟨[], .ok ()⟩ := by
  rw [walk, if_pos h]
  rfl

/-- **A walk that ends** has entered its node, walked from the targets if it is accepted, and left
it. -/
theorem walk_eq_mk (h : v ∉ path) :
    walk accept out stuck (fuel + 1) path (v, r) = ⟨log, .ok ()⟩ ↔
      ∃ targets l, (accept v r = true → out v = .ok targets) ∧
        (accept v r = false → targets = []) ∧
        targets.forM (walk accept out stuck fuel (v :: path)) = ⟨l, .ok ()⟩ ∧
        log = .enter v r :: (l ++ [.leave v r]) := by
  rw [walk, if_neg h]
  cases haccept : accept v r with
  | false =>
    constructor
    · intro h
      obtain ⟨rfl, -⟩ := Logged.mk.inj h
      exact ⟨[], [], fun hf => (nomatch hf), fun _ => rfl, rfl, rfl⟩
    · rintro ⟨targets, l, -, htargets, hl, rfl⟩
      rw [htargets rfl] at hl
      obtain ⟨rfl, -⟩ := Logged.mk.inj hl
      rfl
  | true =>
    cases hout : out v with
    | error e =>
      refine iff_of_false (fun h => ?_) ?_
      · exact nomatch (Logged.mk.inj h).2
      · rintro ⟨targets, l, htargets, -⟩
        exact nomatch htargets rfl
    | ok targets =>
      constructor
      · intro h
        obtain ⟨l₁, _, l₂, hevent, hrest, rfl⟩ := Logged.bind_eq_mk.1 h
        obtain ⟨l, _, l₃, hinto, hleave, rfl⟩ := Logged.bind_eq_mk.1 hrest
        obtain ⟨rfl, -⟩ := Logged.mk.inj hevent
        obtain ⟨rfl, -⟩ := Logged.mk.inj hleave
        obtain ⟨l₄, a, l₅, hlift, hloop, rfl⟩ := Logged.bind_eq_mk.1 hinto
        obtain ⟨rfl, ha⟩ := Logged.mk.inj hlift
        obtain rfl := Except.ok.inj ha
        exact ⟨_, l₅, fun _ => rfl, fun hf => (nomatch hf), hloop, rfl⟩
      · rintro ⟨targets', l, htargets, -, hloop, rfl⟩
        obtain rfl := Except.ok.inj (htargets rfl)
        refine Logged.bind_eq_mk.2 ⟨[.enter v r], (), l ++ [.leave v r], rfl, ?_, rfl⟩
        refine Logged.bind_eq_mk.2 ⟨l, (), [.leave v r], ?_, rfl, rfl⟩
        exact Logged.bind_eq_mk.2 ⟨[], _, l, rfl, hloop, rfl⟩

omit [DecidableEq ν] in
/-- The targets a walk goes on from are those of an accepted node. -/
theorem mem_targets {targets : List (ν × ρ)} (hok : accept v r = true → out v = .ok targets)
    (hnil : accept v r = false → targets = []) :
    q ∈ targets ↔ accept v r = true ∧ q ∈ edges out v := by
  cases haccept : accept v r with
  | false => simp [hnil haccept]
  | true => simp [edges, hok haccept]

/-- **Replaying the log of a walk leaves the open nodes as they were.** -/
theorem replay_walk [DecidableEq ρ] {stack : List (ν × ρ)} {rest : List (Visit ν ρ)}
    (h : walk accept out stuck fuel (stack.map Prod.fst) p = ⟨log, .ok ()⟩) :
    replay stack (log ++ rest) = replay stack rest := by
  induction fuel generalizing stack p log rest with
  | zero => exact nomatch (Logged.mk.inj h).2
  | succ fuel ih =>
    obtain ⟨v, r⟩ := p
    by_cases hmem : v ∈ stack.map Prod.fst
    · rw [walk_of_mem hmem] at h
      obtain ⟨rfl, -⟩ := Logged.mk.inj h
      rfl
    · obtain ⟨targets, l, -, -, hloop, rfl⟩ := (walk_eq_mk hmem).1 h
      have hinto : ∀ {ts : List (ν × ρ)} {l' rest' : List (Visit ν ρ)},
          ts.forM (walk accept out stuck fuel (v :: stack.map Prod.fst)) = ⟨l', .ok ()⟩ →
            replay ((v, r) :: stack) (l' ++ rest') = replay ((v, r) :: stack) rest' := by
        intro ts
        induction ts with
        | nil =>
          intro l' rest' hnil
          obtain ⟨rfl, -⟩ := Logged.mk.inj hnil
          rfl
        | cons t ts iht =>
          intro l' rest' hcons
          obtain ⟨l₁, l₂, ht, hts, rfl⟩ := Logged.forM_cons_eq_mk.1 hcons
          have hround : replay ((v, r) :: stack) (l₁ ++ (l₂ ++ rest')) =
              replay ((v, r) :: stack) (l₂ ++ rest') := ih ht
          rw [List.append_assoc, hround, iht hts]
      rw [List.cons_append, replay, if_neg hmem, List.append_assoc, hinto hloop]
      exact if_pos rfl

/-- A node is entered only where a path leads that avoids the path to the start. -/
theorem avoiding_of_mem_walk (h : walk accept out stuck fuel path p = ⟨log, .ok ()⟩)
    (hmem : .enter v r ∈ log) :
    Avoiding accept out path p (v, r) ∧ (accept v r = true → ∃ ts, out v = .ok ts) := by
  induction fuel generalizing path p log with
  | zero => exact nomatch (Logged.mk.inj h).2
  | succ fuel ih =>
    obtain ⟨u, r'⟩ := p
    by_cases hu : u ∈ path
    · rw [walk_of_mem hu] at h
      obtain ⟨rfl, -⟩ := Logged.mk.inj h
      exact absurd hmem List.not_mem_nil
    · obtain ⟨targets, l, hok, hnil, hloop, rfl⟩ := (walk_eq_mk hu).1 h
      rcases List.mem_cons.1 hmem with heq | hmem
      · obtain ⟨rfl, rfl⟩ := Visit.enter.inj heq
        exact ⟨.refl hu, fun haccept => ⟨targets, hok haccept⟩⟩
      · rcases List.mem_append.1 hmem with hmem | hmem
        · obtain ⟨t, ht, l', hl', hmem⟩ := (Logged.mem_forM_iff hloop).1 hmem
          obtain ⟨haccept, hedge⟩ := (mem_targets hok hnil).1 ht
          obtain ⟨hpath, hfound⟩ := ih hl' hmem
          exact ⟨.head hu haccept hedge hpath.of_cons, hfound⟩
        · exact nomatch List.mem_singleton.1 hmem

/-- A node is entered if such a path leads to it, and for a reason it is accepted for if the path
has one. -/
theorem mem_walk_of_avoiding (h : walk accept out stuck fuel path p = ⟨log, .ok ()⟩)
    (hpath : Avoiding accept out path p (v, r)) :
    ∃ r', .enter v r' ∈ log ∧ (accept v r = true → accept v r' = true) := by
  induction fuel generalizing path p log with
  | zero => exact nomatch (Logged.mk.inj h).2
  | succ fuel ih =>
    obtain ⟨u, r₀⟩ := p
    have hu : u ∉ path := hpath.not_mem
    obtain ⟨targets, l, hok, hnil, hloop, rfl⟩ := (walk_eq_mk hu).1 h
    by_cases hv : v = u
    · subst hv
      refine ⟨r₀, List.mem_cons_self, fun haccept => ?_⟩
      cases hpath with
      | refl => exact haccept
      | head _ hfirst => exact hfirst
    · obtain ⟨haccept, s, hs, hrest⟩ : accept u r₀ = true ∧
          ∃ s ∈ edges out u, Avoiding accept out (u :: path) s (v, r) := by
        cases hpath with
        | refl => exact absurd rfl hv
        | @head _ s _ _ haccept hs hrest =>
          exact ⟨haccept, (hrest.cut hv).elim (fun h => ⟨s, hs, h⟩) id⟩
      have htarget : s ∈ targets := (mem_targets hok hnil).2 ⟨haccept, hs⟩
      obtain ⟨l', hl'⟩ := Logged.forM_eq_mk.1 ⟨l, hloop⟩ s htarget
      obtain ⟨r', hmem, hr'⟩ := ih hl' hrest
      have hl : .enter v r' ∈ l := (Logged.mem_forM_iff hloop).2 ⟨s, htarget, l', hl', hmem⟩
      exact ⟨r', List.mem_cons_of_mem _ (List.mem_append_left _ hl), hr'⟩

/-- **A walk enters a node exactly if it can be reached through accepted nodes.** -/
theorem mem_walk_iff (h : walk accept out stuck fuel [] p = ⟨log, .ok ()⟩) :
    (∃ r, .enter v r ∈ log) ↔ ∃ r, Reached accept out p (v, r) := by
  constructor
  · rintro ⟨r, hmem⟩
    exact ⟨r, avoiding_nil_iff.1 (avoiding_of_mem_walk h hmem).1⟩
  · rintro ⟨r, hreach⟩
    obtain ⟨r', hmem, -⟩ := mem_walk_of_avoiding h (avoiding_nil_iff.2 hreach)
    exact ⟨r', hmem⟩

/-- The targets of the accepted nodes that can be reached have been found. -/
theorem found_of_walk (h : walk accept out stuck fuel [] p = ⟨log, .ok ()⟩)
    (hreach : Reached accept out p (v, r)) (haccept : accept v r = true) :
    ∃ ts, out v = .ok ts := by
  obtain ⟨r', hmem, hr⟩ := mem_walk_of_avoiding h (avoiding_nil_iff.2 hreach)
  exact (avoiding_of_mem_walk h hmem).2 (hr haccept)

/-- **On a finite graph the walk ends** if those are found. -/
theorem walk_total [Fintype ν]
    (hfound : ∀ q, Avoiding accept out path p q → accept q.1 q.2 = true →
      ∃ ts, out q.1 = .ok ts)
    (hfuel : (Finset.univ.filter (· ∉ path)).card < fuel) :
    ∃ log, walk accept out stuck fuel path p = ⟨log, .ok ()⟩ := by
  induction fuel generalizing path p with
  | zero => omega
  | succ fuel ih =>
    obtain ⟨v, r⟩ := p
    by_cases hv : v ∈ path
    · exact ⟨[], walk_of_mem hv⟩
    · have hless : (Finset.univ.filter (· ∉ v :: path)).card <
          (Finset.univ.filter (· ∉ path)).card := by
        refine Finset.card_lt_card (Finset.ssubset_iff_of_subset (fun w hw => ?_) |>.2
          ⟨v, by simpa using hv, by simp⟩)
        simp only [Finset.mem_filter, Finset.mem_univ, true_and, List.mem_cons, not_or] at hw ⊢
        exact hw.2
      obtain ⟨targets, hok, hnil⟩ : ∃ targets, (accept v r = true → out v = .ok targets) ∧
          (accept v r = false → targets = []) := by
        cases haccept : accept v r with
        | false => exact ⟨[], fun hf => (nomatch hf), fun _ => rfl⟩
        | true =>
          obtain ⟨targets, hout⟩ := hfound (v, r) (.refl hv) haccept
          exact ⟨targets, fun _ => hout, fun hf => nomatch hf⟩
      obtain ⟨l, hloop⟩ : ∃ l, targets.forM (walk accept out stuck fuel (v :: path)) =
          ⟨l, .ok ()⟩ := by
        refine Logged.forM_eq_mk.2 fun t ht => ?_
        obtain ⟨haccept, hedge⟩ := (mem_targets hok hnil).1 ht
        exact ih (fun q hq => hfound q (.head hv haccept hedge hq.of_cons)) (by omega)
      exact ⟨_, (walk_eq_mk hv).2 ⟨targets, l, hok, hnil, hloop, rfl⟩⟩

end Runs

end PathWalk
end Lib
end Dwarfpp
