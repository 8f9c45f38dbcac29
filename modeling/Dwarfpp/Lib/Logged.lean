/-
# Computations that log what they do

`Logged ω ε α` is a computation that logs events of type `ω` and returns a value
or ends in an error; the log of what happened before an error is kept.  A copy
of a program written in `Logged` computes what the program computes when its
results are those of the program (`result_bind` and its companions).

`Spec p q r x` is the rule of reasoning: every event meets `p`, a returned value
meets `q`, an error meets `r`.  `Spec.bind` goes through a sequence, with the
value of the first part at hand in the second.
-/

import Dwarfpp.Lib.Run

namespace Dwarfpp
namespace Lib

/-- What a computation logs and how it ends. -/
structure Logged (ω ε α : Type) where
  log : List ω
  result : Except ε α

namespace Logged

variable {ω ε α β : Type}

/-- A computation that logs nothing. -/
def lift (x : Except ε α) : Logged ω ε α := ⟨[], x⟩

/-- One event and the value it yields. -/
def event (w : ω) (a : α) : Logged ω ε α := ⟨[w], .ok a⟩

/-- An error ends the computation. -/
def bind (x : Logged ω ε α) (f : α → Logged ω ε β) : Logged ω ε β :=
  match x.result with
  | .ok a => ⟨x.log ++ (f a).log, (f a).result⟩
  | .error e => ⟨x.log, .error e⟩

instance : Monad (Logged ω ε) where
  pure a := lift (.ok a)
  bind := bind

@[simp] theorem result_pure (a : α) : (pure a : Logged ω ε α).result = .ok a := rfl

@[simp] theorem result_lift (x : Except ε α) : (lift x : Logged ω ε α).result = x := rfl

@[simp] theorem result_event (w : ω) (a : α) : (event w a : Logged ω ε α).result = .ok a := rfl

@[simp] theorem log_pure (a : α) : (pure a : Logged ω ε α).log = [] := rfl

@[simp] theorem log_lift (x : Except ε α) : (lift x : Logged ω ε α).log = [] := rfl

@[simp] theorem log_event (w : ω) (a : α) : (event w a : Logged ω ε α).log = [w] := rfl

/-- **The results of a sequence are sequenced.** -/
@[simp] theorem result_bind (x : Logged ω ε α) (f : α → Logged ω ε β) :
    (x >>= f).result = x.result >>= fun a => (f a).result := by
  show (bind x f).result = _
  unfold bind
  cases x.result with
  | error e => rfl
  | ok a => rfl

theorem log_bind_ok {x : Logged ω ε α} {f : α → Logged ω ε β} {a : α} (h : x.result = .ok a) :
    (x >>= f).log = x.log ++ (f a).log := by
  show (bind x f).log = _
  rw [bind, h]

theorem log_bind_error {x : Logged ω ε α} {f : α → Logged ω ε β} {e : ε}
    (h : x.result = .error e) : (x >>= f).log = x.log := by
  show (bind x f).log = _
  rw [bind, h]

/-- What a first part logs stays logged. -/
theorem log_subset_bind (x : Logged ω ε α) (f : α → Logged ω ε β) : x.log ⊆ (x >>= f).log := by
  cases h : x.result with
  | error e => rw [log_bind_error h]; exact List.Subset.refl _
  | ok a => rw [log_bind_ok h]; exact List.subset_append_left _ _

theorem result_ite {c : Prop} [Decidable c] (x y : Logged ω ε α) :
    (if c then x else y).result = if c then x.result else y.result := by
  split_ifs <;> rfl

/-- Every event meets `p`, a value meets `q`, an error meets `r`. -/
structure Spec (p : ω → Prop) (q : α → Prop) (r : ε → Prop) (x : Logged ω ε α) : Prop where
  log : ∀ w ∈ x.log, p w
  value : ∀ a, x.result = .ok a → q a
  error : ∀ e, x.result = .error e → r e

namespace Spec

variable {p : ω → Prop} {q : α → Prop} {r : ε → Prop}

theorem pure {a : α} (h : q a) : Spec p q r (pure a : Logged ω ε α) :=
  ⟨fun _ hw => absurd hw List.not_mem_nil, fun _ ha => Except.ok.inj ha ▸ h, fun _ he => nomatch he⟩

theorem fail {e : ε} (h : r e) : Spec p q r (lift (.error e) : Logged ω ε α) :=
  ⟨fun _ hw => absurd hw List.not_mem_nil, fun _ ha => (nomatch ha),
    fun _ he => Except.error.inj he ▸ h⟩

theorem event {w : ω} {a : α} (hp : p w) (hq : q a) :
    Spec p q r (Logged.event w a : Logged ω ε α) :=
  ⟨fun _ hw => List.mem_singleton.1 hw ▸ hp, fun _ ha => Except.ok.inj ha ▸ hq,
    fun _ he => nomatch he⟩

theorem bind {q' : β → Prop} {x : Logged ω ε α} {f : α → Logged ω ε β} (hx : Spec p q r x)
    (hf : ∀ a, q a → Spec p q' r (f a)) : Spec p q' r (x >>= f) := by
  cases hres : x.result with
  | error e =>
    refine ⟨fun w hw => ?_, fun b hb => ?_, fun e' he' => ?_⟩
    · rw [log_bind_error hres] at hw
      exact hx.log w hw
    · rw [result_bind, hres] at hb
      cases hb
    · rw [result_bind, hres] at he'
      exact Except.error.inj he' ▸ hx.error e hres
  | ok a =>
    have hfa := hf a (hx.value a hres)
    refine ⟨fun w hw => ?_, fun b hb => ?_, fun e' he' => ?_⟩
    · rw [log_bind_ok hres] at hw
      rcases List.mem_append.1 hw with hw | hw
      · exact hx.log w hw
      · exact hfa.log w hw
    · rw [result_bind, hres] at hb
      exact hfa.value b hb
    · rw [result_bind, hres] at he'
      exact hfa.error e' he'

theorem mono {p' : ω → Prop} {q' : α → Prop} {x : Logged ω ε α} (h : Spec p q r x)
    (hp : ∀ w, p w → p' w) (hq : ∀ a, q a → q' a) : Spec p' q' r x :=
  ⟨fun w hw => hp w (h.log w hw), fun a ha => hq a (h.value a ha), h.error⟩

end Spec

end Logged

end Lib
end Dwarfpp
