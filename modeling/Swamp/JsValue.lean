import Mathlib.Data.List.Lex
import Mathlib.Data.Nat.Digits.Lemmas
import Mathlib.Data.Rat.Lemmas

/-!
# JavaScript strings and JSON values

A JavaScript string is a sequence of UTF-16 code units.  Its `length` counts
code units, its `<` compares them lexicographically, and a lone surrogate is a
string like any other.  None of that holds of a sequence of Unicode scalars, so
the texts of the modelled program are kept as code units here.

`js` writes the code units of a literal; `split` and `join` are the two
directions of `split("/")` and `join("/")`.  A `Json` value is what
`JSON.parse` returns; its numbers are finite doubles, hence rationals.
-/

namespace Js

/-- One UTF-16 code unit. -/
abbrev CodeUnit := Fin 65536

/-- A JavaScript string, as its code units. -/
abbrev JsString := List CodeUnit

instance neZero_codeUnits : NeZero 65536 := ⟨by decide⟩

instance neZero_bytes : NeZero 256 := ⟨by decide⟩

instance lawfulBEq_codeUnit : LawfulBEq CodeUnit := inferInstance

instance lawfulBEq_string : LawfulBEq JsString := inferInstance

/-- The code unit of a character of the basic plane. -/
def unit (c : Char) : CodeUnit := Fin.ofNat 65536 c.toNat

/-- The code units of one character: a surrogate pair past the basic plane. -/
def utf16 (c : Char) : JsString :=
  if c.toNat < 0x10000 then [unit c]
  else
    [Fin.ofNat 65536 (0xD800 + (c.toNat - 0x10000) / 0x400),
     Fin.ofNat 65536 (0xDC00 + (c.toNat - 0x10000) % 0x400)]

/-- The code units of a literal. -/
def js (s : String) : JsString := s.toList.flatMap utf16

/-- The largest integer up to which every integer is a double of its own. -/
def maxSafeInteger : ℕ := 2 ^ 53 - 1

/-- The code unit of a decimal digit. -/
def digitUnit (d : ℕ) : CodeUnit := Fin.ofNat 65536 (48 + d)

/-- `String(n)` of a non-negative integer. -/
def decimal (n : ℕ) : JsString :=
  if n = 0 then [unit '0'] else ((Nat.digits 10 n).map digitUnit).reverse

/-- `s.split("/")`. -/
def split (s : JsString) : List JsString := s.splitOn (unit '/')

/-- `segments.join("/")`. -/
def join (segments : List JsString) : JsString := [unit '/'].intercalate segments

/-- Joining the segments of a string gives it back. -/
@[simp] theorem join_split (s : JsString) : join (split s) = s :=
  List.intercalate_splitOn (unit '/')

theorem split_join {segments : List JsString} (hne : segments ≠ [])
    (hfree : ∀ s ∈ segments, unit '/' ∉ s) :
    split (join segments) = segments :=
  List.splitOn_intercalate (unit '/') hfree hne

@[simp] theorem split_ne_nil (s : JsString) : split s ≠ [] := List.splitOn_ne_nil _ _

/-- A segment holds no separator. -/
theorem separator_not_mem_split {s segment : JsString} (h : segment ∈ split s) :
    unit '/' ∉ segment := by
  induction s generalizing segment with
  | nil =>
    have hempty : segment = [] := by simpa [split] using h
    simp [hempty]
  | cons u s ih =>
    have hcons : split (u :: s) =
        if u == unit '/' then [] :: split s else (split s).modifyHead (List.cons u) :=
      List.splitOn_cons_eq_if_modifyHead u s
    rw [hcons] at h
    split at h
    · rcases List.mem_cons.mp h with rfl | h
      · simp
      · exact ih h
    · rename_i hne
      cases hsplit : split s with
      | nil => exact absurd hsplit (split_ne_nil s)
      | cons first rest =>
        rw [hsplit, List.modifyHead_cons] at h
        have hfirst : unit '/' ∉ first := ih (hsplit ▸ List.mem_cons_self)
        rcases List.mem_cons.mp h with rfl | h
        · intro hmem
          rcases List.mem_cons.mp hmem with heq | hmem
          · exact hne (beq_iff_eq.mpr heq.symm)
          · exact hfirst hmem
        · exact ih (hsplit ▸ List.mem_cons_of_mem _ h)

example : split (js "data/x/1") = [js "data", js "x", js "1"] := by decide

/-- The digits `decimal` writes, before their code units. -/
def decimalDigits (n : ℕ) : List ℕ := if n = 0 then [0] else (Nat.digits 10 n).reverse

theorem decimal_eq_map (n : ℕ) : decimal n = (decimalDigits n).map digitUnit := by
  unfold decimal decimalDigits
  split
  · rfl
  · rw [List.map_reverse]

variable {n : ℕ}

theorem decimalDigits_lt {d : ℕ} (hd : d ∈ decimalDigits n) : d < 10 := by
  unfold decimalDigits at hd
  split at hd
  · have : d = 0 := by simpa using hd
    omega
  · exact Nat.digits_lt_base (by decide) (List.mem_reverse.mp hd)

theorem digitUnit_val {d : ℕ} (hd : d < 10) : (digitUnit d).val = 48 + d := by
  simp only [digitUnit, Fin.ofNat]
  omega

/-- The value of a list of decimal digits, the most significant first. -/
def digitsValue (ds : List ℕ) : ℕ := Nat.ofDigits 10 ds.reverse

@[simp] theorem digitsValue_decimalDigits (n : ℕ) : digitsValue (decimalDigits n) = n := by
  unfold digitsValue decimalDigits
  split
  · simp [*]
  · rw [List.reverse_reverse, Nat.ofDigits_digits]

/-- The number a text of decimal digits writes. -/
def decimalValue (s : JsString) : ℕ := digitsValue (s.map (fun u => u.val - 48))

/-- Reading a decimal text back gives the number. -/
@[simp] theorem decimalValue_decimal (n : ℕ) : decimalValue (decimal n) = n := by
  have hdigits : (decimal n).map (fun u => u.val - 48) = decimalDigits n := by
    rw [decimal_eq_map, List.map_map]
    conv_rhs => rw [← List.map_id (decimalDigits n)]
    apply List.map_congr_left
    intro d hd
    simp only [Function.comp_apply, digitUnit_val (decimalDigits_lt hd), id_eq]
    omega
  rw [decimalValue, hdigits, digitsValue_decimalDigits]

/-- Numbers with the same decimal text are the same. -/
theorem decimal_injective : Function.Injective decimal :=
  Function.LeftInverse.injective decimalValue_decimal

/-- A decimal text holds digits only. -/
theorem digit_of_mem_decimal {u : CodeUnit} (hu : u ∈ decimal n) : 48 ≤ u.val ∧ u.val ≤ 57 := by
  rw [decimal_eq_map] at hu
  obtain ⟨d, hd, rfl⟩ := List.mem_map.mp hu
  have hlt := decimalDigits_lt hd
  rw [digitUnit_val hlt]
  omega

theorem append_separator_inj {sep : CodeUnit} {a a' b b' : JsString} (ha : sep ∉ a)
    (ha' : sep ∉ a') (h : a ++ sep :: b = a' ++ sep :: b') : a = a' ∧ b = b' := by
  induction a generalizing a' with
  | nil =>
    cases a' with
    | nil => exact ⟨rfl, List.tail_eq_of_cons_eq h⟩
    | cons u a' => exact absurd (List.cons.inj h).1 (fun heq => ha' (heq ▸ List.mem_cons_self))
  | cons u a ih =>
    cases a' with
    | nil =>
      exact absurd (List.cons.inj h).1.symm (fun heq => ha (heq ▸ List.mem_cons_self))
    | cons u' a' =>
      obtain ⟨rfl, htail⟩ := List.cons.inj h
      obtain ⟨rfl, rfl⟩ := ih (fun hm => ha (List.mem_cons_of_mem _ hm))
        (fun hm => ha' (List.mem_cons_of_mem _ hm)) htail
      exact ⟨rfl, rfl⟩

/-- A parsed JSON value. -/
inductive Json where
  | null
  | bool (b : Bool)
  | num (n : ℚ)
  | str (s : JsString)
  | arr (items : List Json)
  | obj (fields : List (JsString × Json))

namespace Json

/-- The value of a field, `undefined` when there is none. -/
def field (fields : List (JsString × Json)) (name : JsString) : Option Json :=
  fields.lookup name

/-- The natural number a JSON value is, when it is a safe integer from zero. -/
def safeNat : Json → Option ℕ
  | num n => if n.den = 1 ∧ 0 ≤ n.num ∧ n.num ≤ maxSafeInteger then some n.num.toNat else none
  | _ => none

/-- A natural number as a JSON value. -/
def ofNat (n : ℕ) : Json := num n

theorem safeNat_le {value : Json} (h : value.safeNat = some n) : n ≤ maxSafeInteger := by
  cases value with
  | num q =>
    simp only [safeNat] at h
    split at h
    · have hn := Option.some.inj h
      omega
    · cases h
  | null | bool b | str s | arr items | obj fields => cases h

theorem safeNat_ofNat (h : n ≤ maxSafeInteger) : safeNat (ofNat n) = some n := by
  have hnum : ((n : ℚ)).num = (n : ℤ) := Rat.num_natCast n
  have hden : ((n : ℚ)).den = 1 := Rat.den_natCast n
  simp only [safeNat, ofNat, hnum, hden, Int.toNat_natCast]
  rw [if_pos]
  exact ⟨trivial, Int.natCast_nonneg n, by exact_mod_cast h⟩

end Json

end Js
