import Mathlib.Algebra.Order.Group.Nat
import Mathlib.Algebra.BigOperators.Group.List.Basic
import Mathlib.Data.List.Nodup
import Mathlib.Logic.Relation
import Mathlib.Algebra.GroupWithZero.Nat

/-!
# What can be reached

A queue of nodes is worked off: a node not seen before is seen, and the nodes after
it that are not seen are put at the end.
-/

namespace ReachClosure

variable {κ : Type*} (next : κ → List κ)

/-- One of the entries leads there, in no, one or more steps. -/
def Reaches (entries : List κ) (x : κ) : Prop :=
  ∃ entry ∈ entries, Relation.ReflTransGen (fun a b => b ∈ next a) entry x

/-- How much is left to expand of the nodes not seen. -/
def left [DecidableEq κ] (nodes seen : List κ) : ℕ :=
  ((nodes.filter (fun k => k ∉ seen)).map (fun k => (next k).length)).sum

variable [DecidableEq κ]

/-- Work off a queue; none when the rounds run out. -/
def closeFrom : ℕ → List κ → List κ → Option (List κ)
  | _, [], seen => some seen
  | 0, _ :: _, _ => none
  | fuel + 1, current :: queue, seen =>
    if current ∈ seen then closeFrom fuel queue seen
    else
      let seen := seen ++ [current]
      closeFrom fuel (queue ++ (next current).filter (fun k => k ∉ seen)) seen

/-- The closure of the entries, where `nodes` are the nodes that have any after
them. -/
def closure (nodes entries : List κ) : Option (List κ) :=
  closeFrom next (entries.length + left next nodes []) entries []

variable {next}

variable {fuel : ℕ} {queue seen result : List κ}

theorem closeFrom_sound (h : closeFrom next fuel queue seen = some result) {x : κ} (hx : x ∈ result)
    : x ∈ seen ∨ Reaches next queue x := by
  induction fuel generalizing queue seen with
  | zero =>
    cases queue with
    | nil =>
      cases h
      exact Or.inl hx
    | cons current queue => cases h
  | succ fuel ih =>
    cases queue with
    | nil =>
      cases h
      exact Or.inl hx
    | cons current queue =>
      have hwider : ∀ y, Reaches next queue y → Reaches next (current :: queue) y := by
        intro y hy
        obtain ⟨entry, hentry, hreach⟩ := hy
        exact ⟨entry, List.mem_cons_of_mem _ hentry, hreach⟩
      rw [closeFrom] at h
      by_cases hseen : current ∈ seen
      · rw [if_pos hseen] at h
        rcases ih h with hold | hreach
        · exact Or.inl hold
        · exact Or.inr (hwider x hreach)
      · rw [if_neg hseen] at h
        rcases ih h with hold | ⟨entry, hentry, hreach⟩
        · rcases List.mem_append.mp hold with hold | hnew
          · exact Or.inl hold
          · rw [List.mem_singleton.mp hnew]
            exact Or.inr ⟨current, List.mem_cons_self, Relation.ReflTransGen.refl⟩
        · rcases List.mem_append.mp hentry with hqueued | hafter
          · exact Or.inr (hwider x ⟨entry, hqueued, hreach⟩)
          · exact Or.inr ⟨current, List.mem_cons_self,
              Relation.ReflTransGen.head (List.mem_of_mem_filter hafter) hreach⟩

theorem closeFrom_closed (h : closeFrom next fuel queue seen = some result)
    (hclosed : ∀ k ∈ seen, ∀ y ∈ next k, y ∈ seen ∨ y ∈ queue) :
    (∀ x ∈ seen, x ∈ result) ∧ (∀ x ∈ queue, x ∈ result) ∧
      ∀ k ∈ result, ∀ y ∈ next k, y ∈ result := by
  induction fuel generalizing queue seen with
  | zero =>
    cases queue with
    | nil =>
      cases h
      refine ⟨fun _ hx => hx, fun _ hx => absurd hx List.not_mem_nil, ?_⟩
      intro k hk y hy
      exact (hclosed k hk y hy).resolve_right List.not_mem_nil
    | cons current queue => cases h
  | succ fuel ih =>
    cases queue with
    | nil =>
      cases h
      refine ⟨fun _ hx => hx, fun _ hx => absurd hx List.not_mem_nil, ?_⟩
      intro k hk y hy
      exact (hclosed k hk y hy).resolve_right List.not_mem_nil
    | cons current queue =>
      rw [closeFrom] at h
      by_cases hseen : current ∈ seen
      · rw [if_pos hseen] at h
        have hstill : ∀ k ∈ seen, ∀ y ∈ next k, y ∈ seen ∨ y ∈ queue := by
          intro k hk y hy
          rcases hclosed k hk y hy with hold | hqueued
          · exact Or.inl hold
          · rcases List.mem_cons.mp hqueued with rfl | hqueued
            · exact Or.inl hseen
            · exact Or.inr hqueued
        obtain ⟨hkeep, hqueue, hall⟩ := ih h hstill
        refine ⟨hkeep, ?_, hall⟩
        intro x hx
        rcases List.mem_cons.mp hx with rfl | hx
        · exact hkeep _ hseen
        · exact hqueue x hx
      · rw [if_neg hseen] at h
        have hstill : ∀ k ∈ seen ++ [current], ∀ y ∈ next k,
            y ∈ seen ++ [current] ∨
              y ∈ queue ++ (next current).filter (fun k => k ∉ seen ++ [current]) := by
          intro k hk y hy
          by_cases hy' : y ∈ seen ++ [current]
          · exact Or.inl hy'
          · refine Or.inr (List.mem_append.mpr ?_)
            rcases List.mem_append.mp hk with hold | hnew
            · rcases hclosed k hold y hy with hin | hqueued
              · exact absurd (List.mem_append_left _ hin) hy'
              · rcases List.mem_cons.mp hqueued with rfl | hqueued
                · exact absurd (List.mem_append_right _ (List.mem_singleton_self _)) hy'
                · exact Or.inl hqueued
            · rw [List.mem_singleton.mp hnew] at hy
              exact Or.inr (List.mem_filter.mpr ⟨hy, by simpa using hy'⟩)
        obtain ⟨hkeep, hqueue, hall⟩ := ih h hstill
        refine ⟨fun x hx => hkeep x (List.mem_append_left _ hx), ?_, hall⟩
        intro x hx
        rcases List.mem_cons.mp hx with rfl | hx
        · exact hkeep _ (List.mem_append_right _ (List.mem_singleton_self _))
        · exact hqueue x (List.mem_append_left _ hx)

variable {nodes : List κ}

/-- **What is seen in the end is what can be reached.** -/
theorem mem_closure {entries : List κ} (h : closure next nodes entries = some result) {x : κ} :
    x ∈ result ↔ Reaches next entries x := by
  constructor
  · intro hx
    exact (closeFrom_sound h hx).resolve_left List.not_mem_nil
  · intro hx
    obtain ⟨entry, hentry, hreach⟩ := hx
    obtain ⟨_, hqueue, hall⟩ := closeFrom_closed h (fun _ hk => absurd hk List.not_mem_nil)
    induction hreach with
    | refl => exact hqueue entry hentry
    | tail _ hstep ih => exact hall _ ih _ hstep

theorem left_cons (head : κ) (rest seen : List κ) :
    left next (head :: rest) seen =
      (if head ∈ seen then 0 else (next head).length) + left next rest seen := by
  unfold left
  by_cases hseen : head ∈ seen
  · rw [if_pos hseen, List.filter_cons_of_neg (by simpa using hseen), Nat.zero_add]
  · rw [if_neg hseen, List.filter_cons_of_pos (by simpa using hseen), List.map_cons, List.sum_cons]

theorem left_append (hnodup : nodes.Nodup) (hnodes : ∀ k, k ∉ nodes → next k = []) {current : κ}
    (hseen : current ∉ seen) :
    left next nodes (seen ++ [current]) + (next current).length ≤ left next nodes seen := by
  have hgeneral : ∀ part : List κ, part.Nodup →
      left next part (seen ++ [current]) + (if current ∈ part then (next current).length else 0) ≤
        left next part seen := by
    intro part hpart
    induction part with
    | nil => simp [left]
    | cons head rest ih =>
      rw [List.nodup_cons] at hpart
      have hrest := ih hpart.2
      rw [left_cons, left_cons]
      by_cases hhead : head = current
      · subst hhead
        rw [if_neg hpart.1] at hrest
        rw [if_pos (List.mem_append_right _ (List.mem_singleton_self _)), if_neg hseen,
          if_pos List.mem_cons_self]
        omega
      · have hmem : (head ∈ seen ++ [current]) = (head ∈ seen) := by
          simp [hhead]
        have hin : (current ∈ head :: rest) = (current ∈ rest) := by
          simp [Ne.symm hhead]
        simp only [hmem, hin]
        omega
  have hbound := hgeneral nodes hnodup
  by_cases hmem : current ∈ nodes
  · rw [if_pos hmem] at hbound
    exact hbound
  · rw [if_neg hmem] at hbound
    rw [hnodes current hmem, List.length_nil]
    exact hbound

theorem closeFrom_ends (hnodup : nodes.Nodup) (hnodes : ∀ k, k ∉ nodes → next k = [])
    (h : queue.length + left next nodes seen ≤ fuel) :
    ∃ result, closeFrom next fuel queue seen = some result := by
  induction fuel generalizing queue seen with
  | zero =>
    cases queue with
    | nil => exact ⟨seen, rfl⟩
    | cons current queue => exact absurd h (by simp)
  | succ fuel ih =>
    cases queue with
    | nil => exact ⟨seen, rfl⟩
    | cons current queue =>
      rw [List.length_cons] at h
      rw [closeFrom]
      by_cases hseen : current ∈ seen
      · rw [if_pos hseen]
        exact ih (by omega)
      · rw [if_neg hseen]
        apply ih
        have hfewer := left_append hnodup hnodes hseen
        have hfilter := List.length_filter_le (fun k => decide (k ∉ seen ++ [current]))
          (next current)
        rw [List.length_append]
        omega

/-- **The work ends**, on cycles too. -/
theorem closure_ends (hnodup : nodes.Nodup) (hnodes : ∀ k, k ∉ nodes → next k = [])
    (entries : List κ) : ∃ result, closure next nodes entries = some result :=
  closeFrom_ends hnodup hnodes (le_refl _)

end ReachClosure
