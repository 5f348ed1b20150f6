import Mathlib.Data.List.Infix

/-!
# Scanning a text for a pattern

A pattern says how long its match at the front of a text is.  A scan goes through a
text from left to right, takes each match whole and keeps every unit that no match
takes; replacing the matches is a map over what the scan finds.
-/

universe u

/-- How long the match at the front of a text is: at least one unit, and in the text. -/
structure Pattern (α : Type u) where
  matchLength : List α → Option ℕ
  bounds : ∀ {text n}, matchLength text = some n → 0 < n ∧ n ≤ text.length

namespace Pattern

/-- A unit that is kept, or a match. -/
inductive Piece (α : Type u) where
  | kept (unit : α)
  | matched (run : List α)

namespace Piece

variable {α : Type u}

/-- What a piece was cut from. -/
def text : Piece α → List α
  | kept unit => [unit]
  | matched run => run

/-- What a piece becomes when matches are replaced. -/
def replaced (f : List α → List α) : Piece α → List α
  | kept unit => [unit]
  | matched run => f run

end Piece

variable {α : Type u} (p : Pattern α)

/-- The pieces of a text of which `skip` units belong to a match already taken. -/
def scanFrom : ℕ → List α → List (Piece α)
  | _, [] => []
  | skip + 1, _ :: rest => scanFrom skip rest
  | 0, unit :: rest =>
    match p.matchLength (unit :: rest) with
    | some n => .matched ((unit :: rest).take n) :: scanFrom (n - 1) rest
    | none => .kept unit :: scanFrom 0 rest

/-- The pieces of a text. -/
def scan (text : List α) : List (Piece α) := p.scanFrom 0 text

/-- `text.replace(pattern, f)`, of every match. -/
def replaceAll (f : List α → List α) (text : List α) : List α :=
  (p.scan text).flatMap (Piece.replaced f)

@[simp] theorem scan_nil : p.scan [] = [] := rfl

@[simp] theorem scanFrom_skip (skip : ℕ) (unit : α) (rest : List α) :
    p.scanFrom (skip + 1) (unit :: rest) = p.scanFrom skip rest := rfl

theorem scanFrom_nil (skip : ℕ) : p.scanFrom skip [] = [] := by
  cases skip <;> rfl

/-- Skipping is dropping. -/
theorem scanFrom_drop (skip : ℕ) (text : List α) :
    p.scanFrom skip text = p.scan (text.drop skip) := by
  induction text generalizing skip with
  | nil => rw [scanFrom_nil, List.drop_nil, scan_nil]
  | cons unit rest ih =>
    cases skip with
    | zero => rfl
    | succ skip => rw [scanFrom_skip, ih, List.drop_succ_cons]

variable {rest : List α}

theorem scan_match {unit : α} {n : ℕ} (h : p.matchLength (unit :: rest) = some n) :
    p.scan (unit :: rest) =
      .matched ((unit :: rest).take n) :: p.scan ((unit :: rest).drop n) := by
  obtain ⟨m, rfl⟩ : ∃ m, n = m + 1 := ⟨n - 1, by have := (p.bounds h).1; omega⟩
  rw [scan, scanFrom, h]
  simp only [Nat.add_sub_cancel, scanFrom_drop, List.drop_succ_cons]

theorem scan_keep {unit : α} (h : p.matchLength (unit :: rest) = none) :
    p.scan (unit :: rest) = .kept unit :: p.scan rest := by
  rw [scan, scanFrom, h]
  rfl

/-- Induction along a scan: a text is empty, or starts with a match, or with a unit that
is kept. -/
theorem scan_induction {motive : List α → Prop} (nil : motive [])
    (matched : ∀ run rest, p.matchLength (run ++ rest) = some run.length → run ≠ [] →
      motive rest → motive (run ++ rest))
    (kept : ∀ unit rest, p.matchLength (unit :: rest) = none → motive rest →
      motive (unit :: rest)) (text : List α) : motive text := by
  induction hlength : text.length using Nat.strong_induction_on generalizing text with
  | _ length ih =>
    cases text with
    | nil => exact nil
    | cons unit rest =>
      cases h : p.matchLength (unit :: rest) with
      | none => exact kept unit rest h (ih rest.length (by simp [← hlength]) rest rfl)
      | some n =>
        have hbounds := p.bounds h
        have htake : ((unit :: rest).take n).length = n := by
          rw [List.length_take]
          omega
        have hsplit := List.take_append_drop n (unit :: rest)
        rw [← hsplit]
        refine matched _ _ ?_ ?_ (ih ((unit :: rest).drop n).length ?_ _ rfl)
        · rw [hsplit, htake, h]
        · intro hnil
          rw [hnil] at htake
          simp at htake
          omega
        · rw [← hlength, List.length_drop]
          omega

theorem scan_matched {run : List α} (h : p.matchLength (run ++ rest) = some run.length)
    (hne : run ≠ []) : p.scan (run ++ rest) = .matched run :: p.scan rest := by
  obtain ⟨unit, run', rfl⟩ := List.exists_cons_of_ne_nil hne
  rw [List.cons_append] at h ⊢
  rw [p.scan_match h, ← List.cons_append, List.take_left, List.drop_left]

/-- **What a scan finds is the text.** -/
theorem scan_text (text : List α) : (p.scan text).flatMap Piece.text = text := by
  induction text using p.scan_induction with
  | nil => rfl
  | matched run rest h hne ih =>
    rw [p.scan_matched h hne, List.flatMap_cons, ih]
    rfl
  | kept unit rest h ih =>
    rw [p.scan_keep h, List.flatMap_cons, ih]
    rfl

variable {text : List α}

/-- What a scan finds first, and where it goes on. -/
theorem scan_cons {piece : Piece α} {rest : List (Piece α)} (h : p.scan text = piece :: rest) :
    ∃ after, text = piece.text ++ after ∧ p.scan after = rest ∧
      (match piece with
        | .kept _ => p.matchLength text = none
        | .matched run => p.matchLength text = some run.length ∧ run ≠ []) := by
  induction text using p.scan_induction with
  | nil => cases h
  | matched run after hmatch hne ih =>
    rw [p.scan_matched hmatch hne] at h
    obtain ⟨rfl, rfl⟩ := List.cons.inj h
    exact ⟨after, rfl, rfl, hmatch, hne⟩
  | kept unit after hnone ih =>
    rw [p.scan_keep hnone] at h
    obtain ⟨rfl, rfl⟩ := List.cons.inj h
    exact ⟨after, rfl, rfl, hnone⟩

theorem scan_after {pieces more : List (Piece α)} (h : p.scan text = pieces ++ more) :
    ∃ after, text = pieces.flatMap Piece.text ++ after ∧ p.scan after = more := by
  induction pieces generalizing text with
  | nil => exact ⟨text, rfl, h⟩
  | cons piece pieces ih =>
    obtain ⟨after, rfl, hafter, -⟩ := p.scan_cons h
    obtain ⟨last, rfl, hlast⟩ := ih hafter
    exact ⟨last, by rw [List.flatMap_cons, List.append_assoc], hlast⟩

/-- A match of a scan is a match at its place. -/
theorem mem_scan_matched {run : List α} (h : .matched run ∈ p.scan text) :
    ∃ front rest, text = front ++ run ++ rest ∧ run ≠ [] ∧
      p.matchLength (run ++ rest) = some run.length := by
  induction text using p.scan_induction with
  | nil => cases h
  | matched head rest hmatch hne ih =>
    rw [p.scan_matched hmatch hne] at h
    rcases List.mem_cons.mp h with heq | hmem
    · obtain rfl := Piece.matched.inj heq
      exact ⟨[], rest, rfl, hne, hmatch⟩
    · obtain ⟨front, after, rfl, hrun⟩ := ih hmem
      exact ⟨head ++ front, after, by simp [List.append_assoc], hrun⟩
  | kept unit rest hnone ih =>
    rw [p.scan_keep hnone] at h
    rcases List.mem_cons.mp h with heq | hmem
    · cases heq
    · obtain ⟨front, after, rfl, hrun⟩ := ih hmem
      exact ⟨unit :: front, after, rfl, hrun⟩

/-- **Where no place of a text matches, every unit is kept.** -/
theorem scan_of_no_match (h : ∀ front rest, text = front ++ rest → p.matchLength rest = none) :
    p.scan text = text.map .kept := by
  induction text with
  | nil => rfl
  | cons unit rest ih =>
    rw [p.scan_keep (h [] _ rfl), List.map_cons, ih]
    intro front after heq
    exact h (unit :: front) after (by rw [heq, List.cons_append])

theorem replaceAll_of_no_match (f : List α → List α)
    (h : ∀ front rest, text = front ++ rest → p.matchLength rest = none) :
    p.replaceAll f text = text := by
  rw [replaceAll, p.scan_of_no_match h, List.flatMap_map]
  simp [Piece.replaced]

theorem mem_replaceAll {f : List α → List α} {u : α} (h : u ∈ p.replaceAll f text) :
    u ∈ text ∨ ∃ run, u ∈ f run := by
  obtain ⟨piece, hpiece, hu⟩ := List.mem_flatMap.mp h
  cases piece with
  | matched run => exact Or.inr ⟨run, hu⟩
  | kept unit =>
    obtain rfl := List.mem_singleton.mp hu
    rw [← p.scan_text text]
    exact Or.inl (List.mem_flatMap.mpr ⟨_, hpiece, List.mem_singleton_self _⟩)

theorem replaceAll_ne_nil {f : List α → List α} (hf : ∀ run, f run ≠ []) (h : text ≠ []) :
    p.replaceAll f text ≠ [] := by
  obtain ⟨unit, rest, rfl⟩ := List.exists_cons_of_ne_nil h
  unfold replaceAll
  cases hmatch : p.matchLength (unit :: rest) with
  | none =>
    rw [p.scan_keep hmatch, List.flatMap_cons]
    exact List.cons_ne_nil _ _
  | some n =>
    rw [p.scan_match hmatch, List.flatMap_cons]
    exact fun hnil => hf _ (List.append_eq_nil_iff.mp hnil).1

/-- No match crosses from one text into the next. -/
def Seam (first next : List α) : Prop := p.scan (first ++ next) = p.scan first ++ p.scan next

section

variable [DecidableEq α]

/-- A text that is matched as it is. -/
def literal (sought : List α) (hne : sought ≠ []) : Pattern α where
  matchLength := fun text => if sought <+: text then some sought.length else none
  bounds := by
    intro text n h
    split at h
    · rename_i hlead
      obtain rfl := Option.some.inj h
      exact ⟨List.length_pos_of_ne_nil hne, hlead.length_le⟩
    · cases h

theorem literal_match {sought : List α} {hne : sought ≠ []} {n : ℕ} :
    (literal sought hne).matchLength text = some n ↔ sought <+: text ∧ sought.length = n := by
  simp [literal]

theorem literal_none {sought : List α} {hne : sought ≠ []} :
    (literal sought hne).matchLength text = none ↔ ¬ sought <+: text := by
  simp [literal]

end

end Pattern
