import Mathlib.Data.List.Basic
import Mathlib.Data.Nat.Notation

/-!
# The ring buffer

The buffer of the audit emitter keeps the last items pushed, as many as its
capacity, and numbers every item pushed from 1.  `Holds` says which items were
pushed in all; `readFrom_items` that a reading is the items after some number,
later than asked for where what stood in between has been overwritten.
-/

namespace Swamp

variable {α : Type*}

/-- `RingBuffer`.  A capacity below 1 is refused. -/
structure RingBuffer (α : Type*) where
  capacity : ℕ
  items : List α
  head : ℕ
  seq : ℕ
  positive : 0 < capacity

/-- What `readFrom` returns. -/
structure Reading (α : Type*) where
  items : List α
  startSeq : ℕ
  throughSeq : ℕ

namespace RingBuffer

/-- `new RingBuffer(capacity)`. -/
def new (capacity : ℕ) (h : 0 < capacity) : RingBuffer α := ⟨capacity, [], 0, 0, h⟩

/-- `oldestSeq`. -/
def oldestSeq (b : RingBuffer α) : ℕ :=
  if b.items.length = 0 then 0 else b.seq - b.items.length + 1

/-- `push`. -/
def push (b : RingBuffer α) (item : α) : RingBuffer α :=
  if b.items.length < b.capacity then
    { b with seq := b.seq + 1, items := b.items ++ [item] }
  else
    { b with
      seq := b.seq + 1
      items := b.items.set b.head item
      head := (b.head + 1) % b.capacity }

/-- `readFrom`. -/
def readFrom (b : RingBuffer α) (afterSeq : ℕ) : Reading α :=
  if b.seq ≤ afterSeq ∨ b.items.length = 0 then ⟨[], b.seq + 1, b.seq⟩
  else
    let startSeq := max (afterSeq + 1) b.oldestSeq
    let count := b.seq - startSeq + 1
    let items := (List.range count).filterMap
      (fun i => b.items[(b.head + (startSeq - b.oldestSeq) + i) % b.capacity]?)
    ⟨items, startSeq, b.seq⟩

/-- The items pushed in all, of which the buffer holds the last. -/
structure Holds (b : RingBuffer α) (pushed : List α) : Prop where
  seq : b.seq = pushed.length
  length : b.items.length = min b.capacity pushed.length
  head : b.head < b.capacity
  unwrapped : b.items.length < b.capacity → b.head = 0
  item : ∀ k < b.items.length,
    b.items[(b.head + k) % b.capacity]? = pushed[pushed.length - b.items.length + k]?

theorem new_holds (capacity : ℕ) (h : 0 < capacity) : (new capacity h : RingBuffer α).Holds [] where
  seq := rfl
  length := (Nat.min_zero _).symm
  head := h
  unwrapped := fun _ => rfl
  item := fun k hk => absurd hk (Nat.not_lt_zero k)

/-- The place after the head, counted from the next place. -/
theorem index_advance (head k capacity : ℕ) :
    ((head + 1) % capacity + k) % capacity = (head + (k + 1)) % capacity := by
  rw [Nat.mod_add_mod]
  congr 1
  omega

theorem index_ne {head k capacity : ℕ} (hhead : head < capacity) (hk : k + 1 < capacity) :
    (head + (k + 1)) % capacity ≠ head := by
  intro heq
  by_cases hwrap : head + (k + 1) < capacity
  · rw [Nat.mod_eq_of_lt hwrap] at heq
    omega
  · rw [Nat.mod_eq_sub_mod (by omega), Nat.mod_eq_of_lt (by omega)] at heq
    omega

variable {b : RingBuffer α} {pushed : List α}

theorem Holds.push (h : b.Holds pushed) (item : α) : (b.push item).Holds (pushed ++ [item]) := by
  have hseq := h.seq
  have hlength := h.length
  have hhead := h.head
  unfold RingBuffer.push
  split
  · rename_i hroom
    have hzero := h.unwrapped hroom
    have hall : b.items.length = pushed.length := by omega
    refine ⟨?_, ?_, hhead, fun _ => hzero, ?_⟩
    · simp only [List.length_append, List.length_singleton, hseq]
    · simp only [List.length_append, List.length_singleton]
      omega
    · intro k hk
      simp only [List.length_append, List.length_singleton] at hk ⊢
      have hplace : (b.head + k) % b.capacity = k := by
        rw [hzero, Nat.zero_add]
        exact Nat.mod_eq_of_lt (by omega)
      have hnumber : pushed.length + 1 - (b.items.length + 1) + k = k := by omega
      rw [hplace, hnumber]
      by_cases hold : k < b.items.length
      · have hitem := h.item k hold
        rw [hplace, hall, Nat.sub_self, Nat.zero_add] at hitem
        rw [List.getElem?_append_left hold, hitem, List.getElem?_append_left (by omega)]
      · rw [List.getElem?_append_right (by omega), List.getElem?_append_right (by omega), hall]
  · rename_i hfull
    have hcapacity : b.items.length = b.capacity := by omega
    refine ⟨?_, ?_, Nat.mod_lt _ b.positive, ?_, ?_⟩
    · simp only [List.length_append, List.length_singleton, hseq]
    · simp only [List.length_set, List.length_append, List.length_singleton]
      omega
    · intro hroom
      dsimp only at hroom
      rw [List.length_set] at hroom
      omega
    · intro k hk
      simp only [List.length_set, List.length_append, List.length_singleton] at hk ⊢
      rw [index_advance]
      by_cases hlast : k + 1 < b.capacity
      · have hitem := h.item (k + 1) (by omega)
        rw [List.getElem?_set_ne (index_ne hhead hlast).symm, hitem,
          List.getElem?_append_left (by omega)]
        congr 1
        omega
      · have hk' : k + 1 = b.capacity := by omega
        have hnumber : pushed.length + 1 - b.items.length + k = pushed.length := by omega
        rw [hk', Nat.add_mod_right, Nat.mod_eq_of_lt hhead, hnumber,
          List.getElem?_append_right (Nat.le_refl _), Nat.sub_self]
        exact List.getElem?_set_self (by omega)

theorem Holds.oldestSeq_le (h : b.Holds pushed) : b.oldestSeq ≤ pushed.length := by
  have hseq := h.seq
  have hlength := h.length
  unfold oldestSeq
  split
  · omega
  · omega

/-- Where a reading begins. -/
theorem Holds.readFrom_start (h : b.Holds pushed) {afterSeq : ℕ}
    (hafter : afterSeq ≤ pushed.length) :
    afterSeq < (b.readFrom afterSeq).startSeq ∧
      (b.readFrom afterSeq).startSeq ≤ pushed.length + 1 ∧
      (afterSeq < pushed.length → (b.readFrom afterSeq).startSeq ≤ pushed.length) ∧
      (b.readFrom afterSeq).startSeq = max (afterSeq + 1) b.oldestSeq := by
  have hseq := h.seq
  have holdest := h.oldestSeq_le
  unfold readFrom
  split
  · rename_i hnone
    have hlength := h.length
    have hpositive := b.positive
    dsimp only
    omega
  · dsimp only
    omega

theorem filterMap_range_getElem (l : List α) :
    (List.range l.length).filterMap (fun i => l[i]?) = l := by
  induction l with
  | nil => rfl
  | cons a l ih =>
    have hhead : (a :: l)[0]? = some a := rfl
    rw [List.length_cons, List.range_succ_eq_map, List.filterMap_cons, hhead, List.filterMap_map]
    exact congrArg (a :: ·) ih

/-- **A reading is every item from its start on.** -/
theorem Holds.readFrom_items (h : b.Holds pushed) (afterSeq : ℕ) :
    (b.readFrom afterSeq).items = pushed.drop ((b.readFrom afterSeq).startSeq - 1) := by
  have hseq := h.seq
  have hlength := h.length
  have hpositive := b.positive
  unfold readFrom
  split
  · rename_i hnone
    have hend : pushed.length ≤ b.seq + 1 - 1 := by omega
    exact (List.drop_eq_nil_of_le hend).symm
  · rename_i hsome
    obtain ⟨hbehind, hheld⟩ := not_or.mp hsome
    have holdest : b.oldestSeq = b.seq - b.items.length + 1 := by
      unfold oldestSeq
      rw [if_neg hheld]
    dsimp only
    generalize hstart : max (afterSeq + 1) b.oldestSeq = startSeq
    have hplace : ∀ i, i < b.seq - startSeq + 1 →
        b.items[(b.head + (startSeq - b.oldestSeq) + i) % b.capacity]? =
          pushed[startSeq - 1 + i]? := by
      intro i hi
      have hitem := h.item (startSeq - b.oldestSeq + i) (by omega)
      rw [← Nat.add_assoc] at hitem
      rw [hitem]
      congr 1
      omega
    have hmap : (List.range (b.seq - startSeq + 1)).filterMap
        (fun i => b.items[(b.head + (startSeq - b.oldestSeq) + i) % b.capacity]?) =
        (List.range (b.seq - startSeq + 1)).filterMap
          (fun i => (pushed.drop (startSeq - 1))[i]?) := by
      apply List.filterMap_congr
      intro i hi
      rw [hplace i (List.mem_range.mp hi), List.getElem?_drop]
    have hcount : b.seq - startSeq + 1 = (pushed.drop (startSeq - 1)).length := by
      rw [List.length_drop]
      omega
    rw [hmap, hcount]
    exact filterMap_range_getElem _

end RingBuffer

end Swamp
