import Mathlib.Data.List.Forall2

/-!
# Rules for computations that may throw

What a sequence, a map and a fold that did not throw say of their parts.
-/

namespace ExceptRules

variable {ε α β γ : Type}

variable {f : α → Except ε β}

/-- A sequence that does not throw: neither part does. -/
theorem bind_ok {x : Except ε α} {b : β} (h : (x >>= f) = .ok b) :
    ∃ a, x = .ok a ∧ f a = .ok b := by
  cases x with
  | error e => cases h
  | ok a => exact ⟨a, rfl, h⟩

/-- A sequence of two parts that do not throw. -/
theorem bind_of_ok {x : Except ε α} {a : α} {b : β} (hx : x = .ok a) (hf : f a = .ok b) :
    (x >>= f) = .ok b := by
  subst hx
  exact hf

/-- A sequence that throws: its first part does, or its second. -/
theorem bind_error {x : Except ε α} {error : ε} (h : (x >>= f) = .error error) :
    x = .error error ∨ ∃ a, x = .ok a ∧ f a = .error error := by
  cases x with
  | error e =>
    cases h
    exact .inl rfl
  | ok a => exact .inr ⟨a, rfl, h⟩

theorem mapError_ok {δ : Type} {x : Except ε α} {f : ε → δ} {a : α}
    (h : x.mapError f = .ok a) : x = .ok a := by
  cases x with
  | error e => cases h
  | ok b =>
    cases h
    rfl

/-- A map that does not throw gives one result for each element. -/
theorem mapM_ok {xs : List α} {ys : List β} (h : xs.mapM f = .ok ys) :
    List.Forall₂ (fun x y => f x = .ok y) xs ys := by
  induction xs generalizing ys with
  | nil =>
    cases h
    exact List.Forall₂.nil
  | cons x xs ih =>
    rw [List.mapM_cons] at h
    obtain ⟨y, hy, h⟩ := bind_ok h
    obtain ⟨rest, hrest, h⟩ := bind_ok h
    cases h
    exact List.Forall₂.cons hy (ih hrest)

/-- Every result of a map is that of some element. -/
theorem mem_mapM {xs : List α} {ys : List β} (h : xs.mapM f = .ok ys) {y : β} (hy : y ∈ ys) :
    ∃ x ∈ xs, f x = .ok y := by
  have hall := mapM_ok h
  clear h
  induction hall with
  | nil => cases hy
  | @cons x _ xs _ hread _ ih =>
    rcases List.mem_cons.mp hy with rfl | hy
    · exact ⟨x, List.mem_cons_self, hread⟩
    · obtain ⟨other, hother, hread'⟩ := ih hy
      exact ⟨other, List.mem_cons_of_mem _ hother, hread'⟩

theorem mapM_of_mem {xs : List α} {ys : List β} (h : xs.mapM f = .ok ys) {x : α} (hx : x ∈ xs) :
    ∃ y ∈ ys, f x = .ok y := by
  have hall := mapM_ok h
  clear h
  induction hall with
  | nil => cases hx
  | @cons _ y _ ys hread _ ih =>
    rcases List.mem_cons.mp hx with rfl | hx
    · exact ⟨y, List.mem_cons_self, hread⟩
    · obtain ⟨other, hother, hread'⟩ := ih hx
      exact ⟨other, List.mem_cons_of_mem _ hother, hread'⟩

theorem foldlM_ok {step : β → α → Except ε β} {P : List α → β → Prop} {xs : List α} {b last : β}
    (h : xs.foldlM step b = .ok last) (hstart : P [] b)
    (hstep : ∀ before x rest b next, xs = before ++ x :: rest → P before b →
      step b x = .ok next → P (before ++ [x]) next) : P xs last := by
  have hgeneral : ∀ (before rest : List α) (b : β), xs = before ++ rest → P before b →
      rest.foldlM step b = .ok last → P xs last := by
    intro before rest
    induction rest generalizing before with
    | nil =>
      intro b hxs hb hlast
      cases hlast
      rw [hxs, List.append_nil]
      exact hb
    | cons x rest ih =>
      intro b hxs hb hlast
      rw [List.foldlM_cons] at hlast
      obtain ⟨next, hnext, hlast⟩ := bind_ok hlast
      refine ih (before ++ [x]) next ?_ (hstep before x rest b next hxs hb hnext) hlast
      rw [hxs, List.append_assoc]
      rfl
  exact hgeneral [] xs b rfl hstart h

end ExceptRules
