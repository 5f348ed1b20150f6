import Mathlib.Data.List.Chain
import Mathlib.Order.Bounds.Basic

/-!
# Layers of a relation

A list of layers is laid out by a relation when what an element is related to
stands in earlier layers, and something of the layer just before is among it.
The layer of an element is then the length of the longest chain from it, and the
relation has no cycle there.
-/

namespace Swamp

variable {α : Type} (R : α → α → Prop)

/-- The layers that follow what is already placed, the last of it in `previous`. -/
structure LayeredFrom (placed : List α) (previous : Option (List α)) (layers : List (List α)) :
    Prop where
  earlier : ∀ (k : ℕ) (layer : List α), layers[k]? = some layer → ∀ x ∈ layer, ∀ y, R x y →
    y ∈ placed ∨ ∃ j < k, ∃ other, layers[j]? = some other ∧ y ∈ other
  first : ∀ before ∈ previous, ∀ layer, layers[0]? = some layer → ∀ x ∈ layer,
    ∃ y ∈ before, R x y
  next : ∀ (k : ℕ) (layer : List α), layers[k + 1]? = some layer → ∀ x ∈ layer,
    ∃ other, layers[k]? = some other ∧ ∃ y ∈ other, R x y

/-- Layers laid out by a relation. -/
def Layered (layers : List (List α)) : Prop := LayeredFrom R [] none layers

/-- A cycle: a chain that ends where it starts, and meets nothing else twice. -/
structure IsCycle (cycle : List α) : Prop where
  long : 2 ≤ cycle.length
  chain : cycle.IsChain R
  closed : cycle.head? = cycle.getLast?
  once : cycle.dropLast.Nodup

variable {R}

theorem layeredFrom_nil (placed : List α) (previous : Option (List α)) :
    LayeredFrom R placed previous [] := by
  constructor <;> simp

variable {layer : List α}

/-- **One layer in front.** -/
theorem LayeredFrom.cons {placed : List α} {previous : Option (List α)} {layers : List (List α)}
    (h : LayeredFrom R (placed ++ layer) (some layer) layers)
    (hplaced : ∀ x ∈ layer, ∀ y, R x y → y ∈ placed)
    (hprevious : ∀ before ∈ previous, ∀ x ∈ layer, ∃ y ∈ before, R x y) :
    LayeredFrom R placed previous (layer :: layers) := by
  constructor
  case earlier =>
    intro k other hother x hx y hxy
    cases k with
    | zero =>
      cases hother
      exact Or.inl (hplaced x hx y hxy)
    | succ k =>
      rcases h.earlier k other hother x hx y hxy with hin | ⟨j, hj, l, hl, hy⟩
      · rcases List.mem_append.mp hin with hin | hin
        · exact Or.inl hin
        · exact Or.inr ⟨0, by omega, layer, rfl, hin⟩
      · exact Or.inr ⟨j + 1, by omega, l, hl, hy⟩
  case first =>
    intro before hbefore other hother x hx
    cases hother
    exact hprevious before hbefore x hx
  case next =>
    intro k other hother x hx
    cases k with
    | zero => exact ⟨layer, rfl, h.first layer rfl other hother x hx⟩
    | succ k => exact h.next k other hother x hx

variable {x y : α} {path : List α}

namespace Layered

variable {layers : List (List α)}

variable {k : ℕ}

theorem earlier (h : Layered R layers) (hlayer : layers[k]? = some layer) (hx : x ∈ layer)
    (hxy : R x y) : ∃ j < k, ∃ other, layers[j]? = some other ∧ y ∈ other := by
  rcases LayeredFrom.earlier h k layer hlayer x hx y hxy with hin | hearlier
  · cases hin
  · exact hearlier

/-- No chain is longer than its layer. -/
theorem chain_le (h : Layered R layers) (hlayer : layers[k]? = some layer) (hx : x ∈ layer)
    (hpath : (x :: path).IsChain R) : path.length ≤ k := by
  induction path generalizing k layer x with
  | nil => exact Nat.zero_le k
  | cons y rest ih =>
    rw [List.isChain_cons_cons] at hpath
    obtain ⟨j, hj, other, hother, hy⟩ := h.earlier hlayer hx hpath.1
    have hrest := ih hother hy hpath.2
    rw [List.length_cons]
    omega

/-- A chain as long as its layer. -/
theorem exists_chain (h : Layered R layers) (hlayer : layers[k]? = some layer) (hx : x ∈ layer) :
    ∃ path, path.length = k ∧ (x :: path).IsChain R := by
  induction k generalizing layer x with
  | zero => exact ⟨[], rfl, List.isChain_singleton x⟩
  | succ k ih =>
    obtain ⟨other, hother, y, hy, hxy⟩ := LayeredFrom.next h k layer hlayer x hx
    obtain ⟨path, hlength, hpath⟩ := ih hother hy
    exact ⟨y :: path, by rw [List.length_cons, hlength],
      List.isChain_cons_cons.mpr ⟨hxy, hpath⟩⟩

/-- **The layer of an element** is the length of the longest chain from it. -/
theorem longest (h : Layered R layers) (hlayer : layers[k]? = some layer) (hx : x ∈ layer) :
    IsGreatest {n | ∃ path : List α, path.length = n ∧ (x :: path).IsChain R} k := by
  refine ⟨h.exists_chain hlayer hx, ?_⟩
  intro n hn
  obtain ⟨path, hlength, hpath⟩ := hn
  exact hlength ▸ h.chain_le hlayer hx hpath

theorem reaches (h : Layered R layers) (hxy : Relation.TransGen R x y)
    (hlayer : layers[k]? = some layer) (hx : x ∈ layer) :
    ∃ j < k, ∃ other, layers[j]? = some other ∧ y ∈ other := by
  induction hxy with
  | single hstep => exact h.earlier hlayer hx hstep
  | tail _ hstep ih =>
    obtain ⟨j, hj, other, hother, hin⟩ := ih
    obtain ⟨i, hi, last, hlast, hy⟩ := h.earlier hother hin hstep
    exact ⟨i, by omega, last, hlast, hy⟩

/-- **No element reaches itself.** -/
theorem acyclic (h : Layered R layers) (hcycle : Relation.TransGen R x x)
    (hlayer : layers[k]? = some layer) (hx : x ∈ layer) : False := by
  induction k using Nat.strong_induction_on generalizing layer with
  | h k ih =>
    obtain ⟨j, hj, other, hother, hin⟩ := h.reaches hcycle hlayer hx
    exact ih j hj hother hin

end Layered

theorem transGen_of_isChain (hpath : (x :: path).IsChain R) (hsome : path ≠ [])
    (hlast : (x :: path).getLast? = some y) : Relation.TransGen R x y := by
  induction path generalizing x with
  | nil => exact absurd rfl hsome
  | cons z rest ih =>
    rw [List.isChain_cons_cons] at hpath
    rw [List.getLast?_cons_cons] at hlast
    cases rest with
    | nil =>
      cases hlast
      exact .single hpath.1
    | cons w rest => exact .head hpath.1 (ih hpath.2 (List.cons_ne_nil w rest) hlast)

/-- Where a cycle starts reaches itself. -/
theorem IsCycle.transGen {cycle : List α} (h : IsCycle R cycle) :
    ∃ x ∈ cycle, Relation.TransGen R x x := by
  cases cycle with
  | nil =>
    have hlong := h.long
    simp at hlong
  | cons x path =>
    have hlong := h.long
    have hclosed := h.closed
    refine ⟨x, List.mem_cons_self, transGen_of_isChain h.chain ?_ ?_⟩
    · intro hnone
      rw [hnone] at hlong
      simp at hlong
    · rw [← hclosed]
      rfl

/-- **A chain that comes back** closes a cycle. -/
theorem isCycle_drop [BEq α] [LawfulBEq α] (hchain : (path ++ [x]).IsChain R) (hnodup : path.Nodup)
    (hx : x ∈ path) : IsCycle R (path.drop (path.idxOf x) ++ [x]) := by
  have hlt : path.idxOf x < path.length := List.idxOf_lt_length_of_mem hx
  have hdrop : path.drop (path.idxOf x) ++ [x] = (path ++ [x]).drop (path.idxOf x) := by
    rw [List.drop_append_of_le_length hlt.le]
  have hhead : path.drop (path.idxOf x) = x :: path.drop (path.idxOf x + 1) := by
    rw [List.drop_eq_getElem_cons hlt, List.getElem_idxOf hlt]
  constructor
  case long =>
    rw [List.length_append, List.length_drop, List.length_singleton]
    omega
  case chain =>
    rw [hdrop]
    exact hchain.suffix (List.drop_suffix _ _)
  case closed =>
    rw [List.getLast?_append, hhead]
    simp
  case once =>
    rw [List.dropLast_concat]
    exact hnodup.sublist (List.drop_sublist _ _)

end Swamp
