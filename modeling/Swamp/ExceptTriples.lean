import Mathlib.Data.List.Basic

/-!
# Postconditions of computations that may throw

`Ends T P x` says how a computation can end: with an error that `T` allows, or
with a result that `P` describes.  The rules follow the
shape of the computation: a sequence (`Ends.bind`), a fold whose steps keep an
invariant (`Ends.foldlM`), a map (`Ends.mapM`).
-/

namespace ExceptTriples

variable {ε α β : Type}

/-- How a computation ends: with one of these errors, or one of these results. -/
def Ends (T : ε → Prop) (P : α → Prop) : Except ε α → Prop
  | .error e => T e
  | .ok a => P a

variable {T : ε → Prop} {P : α → Prop}

variable {x : Except ε α}

theorem Ends.of_ok {a : α} (h : Ends T P x) (hx : x = .ok a) : P a := by
  subst hx
  exact h

theorem Ends.of_error {e : ε} (h : Ends T P x) (hx : x = .error e) : T e := by
  subst hx
  exact h

theorem Ends.mono {Q : α → Prop} (h : Ends T P x) (hPQ : ∀ a, P a → Q a) : Ends T Q x := by
  cases x with
  | error e => exact h
  | ok a => exact hPQ a h

/-- **A sequence.** -/
theorem Ends.bind {Q : β → Prop} {f : α → Except ε β} (h : Ends T P x)
    (hf : ∀ a, P a → Ends T Q (f a)) : Ends T Q (x >>= f) := by
  cases x with
  | error e => exact h
  | ok a => exact hf a h

theorem Ends.map {Q : β → Prop} {f : α → β} (h : Ends T P x) (hf : ∀ a, P a → Q (f a)) :
    Ends T Q (x.map f) := by
  cases x with
  | error e => exact h
  | ok a => exact hf a h

/-- **A fold**, by an invariant of the elements still to come. -/
theorem Ends.foldlM {step : β → α → Except ε β} {I : List α → β → Prop} {xs : List α} {b : β}
    (hstart : I xs b)
    (hstep : ∀ x rest b, I (x :: rest) b → Ends T (I rest) (step b x)) :
    Ends T (I []) (xs.foldlM step b) := by
  induction xs generalizing b with
  | nil => exact hstart
  | cons x xs ih =>
    rw [List.foldlM_cons]
    exact (hstep x xs b hstart).bind (fun next hnext => ih hnext)

/-- **A map** whose elements end alike. -/
theorem Ends.mapM {f : α → Except ε β} {xs : List α}
    (h : ∀ x ∈ xs, Ends T (fun _ => True) (f x)) :
    Ends T (fun _ => True) (xs.mapM f) := by
  induction xs with
  | nil => exact trivial
  | cons x xs ih =>
    rw [List.mapM_cons]
    apply (h x List.mem_cons_self).bind
    intro y _
    exact (ih (fun x' hx' => h x' (List.mem_cons_of_mem _ hx'))).bind (fun _ _ => trivial)

end ExceptTriples
