import Mathlib.Data.List.Infix
import Mathlib.Data.List.TakeDrop

/-!
# Literal texts in order

A value is made from literal parts by putting some text between every two of
them.  Whether it could be made so is decided by one scan that looks for each
part at the first place after the one before, and never goes back.
-/

namespace LiteralMatch

variable {α : Type*}

/-- Each part after its text. -/
def interleave : List (List α) → List (List α) → List α
  | text :: texts, part :: parts => text ++ part ++ interleave texts parts
  | _, _ => []

@[simp] theorem interleave_cons (text part : List α) (texts parts : List (List α)) :
    interleave (text :: texts) (part :: parts) = text ++ part ++ interleave texts parts := rfl

@[simp] theorem interleave_nil (texts : List (List α)) :
    interleave texts ([] : List (List α)) = [] := by
  cases texts <;> rfl

theorem interleave_append {texts parts : List (List α)} (hlength : texts.length = parts.length)
    (text part : List α) :
    interleave (texts ++ [text]) (parts ++ [part]) = interleave texts parts ++ (text ++ part) := by
  induction texts generalizing parts with
  | nil =>
    rw [List.length_nil] at hlength
    rw [List.eq_nil_of_length_eq_zero hlength.symm]
    simp
  | cons first texts ih =>
    cases parts with
    | nil => cases hlength
    | cons literal parts =>
      have htail := ih (Nat.succ.inj hlength)
      simp [htail, List.append_assoc]

variable {value part : List α} {place : ℕ}

/-- A value up to a part that stands in it. -/
theorem take_of_prefix_drop {start : ℕ} (hle : start ≤ place) (hstands : part <+: value.drop place)
    :
    value.take (place + part.length) =
      value.take start ++ ((value.drop start).take (place - start) ++ part) := by
  have hpart : (value.drop place).take part.length = part :=
    (List.prefix_iff_eq_take.mp hstands).symm
  have hsplit : value.take place = value.take start ++ (value.drop start).take (place - start) := by
    rw [← List.take_add, Nat.add_sub_cancel' hle]
  rw [List.take_add, hpart, hsplit, List.append_assoc]

variable [DecidableEq α]

/-- `value.indexOf(part, start)`: the first place from `start` on where the part
stands. -/
def indexOf (value part : List α) (start : ℕ) : Option ℕ :=
  let start := min start value.length
  (List.range' start (value.length + 1 - start)).find?
    (fun place => part.isPrefixOf (value.drop place))

theorem indexOf_some {start : ℕ} (hstart : start ≤ value.length)
    (h : indexOf value part start = some place) :
    start ≤ place ∧ place + part.length ≤ value.length ∧ part <+: value.drop place := by
  rw [indexOf, min_eq_left hstart] at h
  have hmem := List.mem_of_find?_eq_some h
  have hstands : part <+: value.drop place := by
    have hfound := List.find?_some h
    exact List.isPrefixOf_iff_prefix.mp hfound
  rw [List.mem_range'_1] at hmem
  have hlength := hstands.length_le
  rw [List.length_drop] at hlength
  exact ⟨hmem.1, by omega, hstands⟩

/-- No part stands before its first place. -/
theorem indexOf_le {start : ℕ} (hstart : start ≤ place) (hplace : place ≤ value.length)
    (hstands : part <+: value.drop place) :
    ∃ first, indexOf value part start = some first ∧ first ≤ place := by
  have hmin : min start value.length = start := min_eq_left (hstart.trans hplace)
  rw [indexOf, hmin]
  have hmem : place ∈ List.range' start (value.length + 1 - start) := by
    rw [List.mem_range'_1]
    omega
  have hholds : part.isPrefixOf (value.drop place) = true := List.isPrefixOf_iff_prefix.mpr hstands
  cases hfind : (List.range' start (value.length + 1 - start)).find?
      (fun place => part.isPrefixOf (value.drop place)) with
  | none => exact absurd hholds (List.find?_eq_none.mp hfind place hmem)
  | some first =>
    refine ⟨first, rfl, ?_⟩
    by_contra hlt
    obtain ⟨_, before, after, heq, hbefore⟩ := List.find?_eq_some_iff_append.mp hfind
    -- The places are in increasing order, so one below the first is before it.
    have hsorted : (List.range' start (value.length + 1 - start)).Pairwise (· < ·) :=
      List.pairwise_lt_range'
    rw [heq] at hmem hsorted
    rcases List.mem_append.mp hmem with hb | ha
    · have hnot := hbefore place hb
      rw [hholds] at hnot
      cases hnot
    · rcases List.mem_cons.mp ha with hsame | hafter
      · omega
      · have hlater := (List.pairwise_cons.mp (List.pairwise_append.mp hsorted).2.1).1 place hafter
        omega

/-- Look for the parts one after the other from `start`: where the last of them
ends. -/
def scanParts (value : List α) : ℕ → List (List α) → Option ℕ
  | start, [] => some start
  | start, part :: rest =>
    match indexOf value part start with
    | none => none
    | some found => scanParts value (found + part.length) rest

theorem scanParts_sound {parts : List (List α)} {start stop : ℕ} (hstart : start ≤ value.length)
    (h : scanParts value start parts = some stop) :
    start ≤ stop ∧ stop ≤ value.length ∧ ∃ texts : List (List α), texts.length = parts.length ∧
      value.take stop = value.take start ++ interleave texts parts := by
  induction parts generalizing start with
  | nil =>
    cases h
    exact ⟨le_refl _, hstart, [], rfl, by simp⟩
  | cons part rest ih =>
    rw [scanParts] at h
    cases hfind : indexOf value part start with
    | none =>
      rw [hfind] at h
      cases h
    | some found =>
      rw [hfind] at h
      obtain ⟨hle, hend, hstands⟩ := indexOf_some hstart hfind
      obtain ⟨hnext, hstop, texts, hlength, htake⟩ := ih hend h
      refine ⟨by omega, hstop, (value.drop start).take (found - start) :: texts,
        by rw [List.length_cons, List.length_cons, hlength], ?_⟩
      rw [htake, take_of_prefix_drop hle hstands, interleave_cons, List.append_assoc]

theorem scanParts_complete {texts parts : List (List α)} {lead tail : List α} {start : ℕ}
    (hlength : texts.length = parts.length) (hstart : start ≤ lead.length) :
    ∃ stop, scanParts (lead ++ interleave texts parts ++ tail) start parts = some stop ∧
      stop ≤ (lead ++ interleave texts parts).length := by
  induction parts generalizing texts lead start with
  | nil => exact ⟨start, rfl, by simpa using hstart⟩
  | cons part rest ih =>
    cases texts with
    | nil => cases hlength
    | cons text texts =>
      have hvalue : lead ++ interleave (text :: texts) (part :: rest) ++ tail =
          (lead ++ text) ++ (part ++ (interleave texts rest ++ tail)) := by
        simp [List.append_assoc]
      have hplace : part <+: (lead ++ interleave (text :: texts) (part :: rest) ++ tail).drop
          (lead ++ text).length := by
        rw [hvalue, List.drop_left]
        exact List.prefix_append part _
      have hwithin : (lead ++ text).length ≤
          (lead ++ interleave (text :: texts) (part :: rest) ++ tail).length := by
        rw [hvalue]
        exact (List.prefix_append _ _).length_le
      have hbefore : start ≤ (lead ++ text).length := by
        rw [List.length_append]
        omega
      obtain ⟨first, hfirst, hle⟩ := indexOf_le hbefore hwithin hplace
      have hnext : first + part.length ≤ (lead ++ text ++ part).length := by
        simp only [List.length_append] at hle ⊢
        omega
      obtain ⟨stop, hstop, hend⟩ := ih (Nat.succ.inj hlength) hnext
      have hsame : lead ++ text ++ part ++ interleave texts rest =
          lead ++ interleave (text :: texts) (part :: rest) := by
        simp [List.append_assoc]
      rw [hsame] at hstop hend
      refine ⟨stop, ?_, hend⟩
      rw [scanParts, hfirst]
      exact hstop

/-- Whether the parts stand in a value in their order, the first at its start and
the last at its end. -/
def standsInOrder (first : List α) (middle : List (List α)) (last value : List α) : Bool :=
  first.isPrefixOf value &&
    match scanParts value first.length middle with
    | none => false
    | some stop => decide (stop + last.length ≤ value.length) && last.isSuffixOf value

/-- **The scan finds exactly the values that are made of the parts in order.** -/
theorem standsInOrder_iff {first last : List α} {middle : List (List α)} :
    standsInOrder first middle last value = true ↔
      ∃ texts : List (List α), texts.length = middle.length + 1 ∧
        value = first ++ interleave texts (middle ++ [last]) := by
  constructor
  · intro h
    rw [standsInOrder, Bool.and_eq_true, List.isPrefixOf_iff_prefix] at h
    obtain ⟨hfirst, hrest⟩ := h
    cases hscan : scanParts value first.length middle with
    | none =>
      rw [hscan] at hrest
      cases hrest
    | some stop =>
      rw [hscan] at hrest
      simp only [Bool.and_eq_true, decide_eq_true_eq, List.isSuffixOf_iff_suffix] at hrest
      obtain ⟨hroom, hlast⟩ := hrest
      obtain ⟨_, hstop, texts, hlength, htake⟩ := scanParts_sound hfirst.length_le hscan
      rw [← List.prefix_iff_eq_take.mp hfirst] at htake
      -- What is left after the scan ends with the last part.
      have hdrop : value.drop (value.length - last.length) = last :=
        (List.suffix_iff_eq_drop.mp hlast).symm
      have hrest : value.drop stop =
          (value.drop stop).take (value.length - last.length - stop) ++ last := by
        conv_lhs => rw [← List.take_append_drop (value.length - last.length - stop)
          (value.drop stop)]
        rw [List.drop_drop, show stop + (value.length - last.length - stop) =
          value.length - last.length by omega, hdrop]
      refine ⟨texts ++ [(value.drop stop).take (value.length - last.length - stop)],
        by simp [hlength], ?_⟩
      rw [interleave_append hlength, ← List.append_assoc, ← htake, ← hrest,
        List.take_append_drop]
  · intro h
    obtain ⟨texts, hlength, rfl⟩ := h
    have hne : texts ≠ [] := by
      intro hnil
      rw [hnil] at hlength
      cases hlength
    obtain ⟨before, text, rfl⟩ : ∃ before text, texts = before ++ [text] :=
      ⟨texts.dropLast, texts.getLast hne, (List.dropLast_concat_getLast hne).symm⟩
    have hbefore : before.length = middle.length := by
      rw [List.length_append, List.length_singleton] at hlength
      omega
    rw [interleave_append hbefore, ← List.append_assoc]
    obtain ⟨stop, hstop, hend⟩ :=
      @scanParts_complete α _ before middle first (text ++ last) first.length hbefore (le_refl _)
    rw [standsInOrder, hstop]
    simp only [Bool.and_eq_true, decide_eq_true_eq, List.isPrefixOf_iff_prefix,
      List.isSuffixOf_iff_suffix]
    refine ⟨?_, ?_, ?_⟩
    · rw [List.append_assoc]
      exact List.prefix_append first _
    · simp only [List.length_append] at hend ⊢
      omega
    · rw [← List.append_assoc]
      exact List.suffix_append _ last

end LiteralMatch
