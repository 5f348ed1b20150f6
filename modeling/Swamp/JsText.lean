import Mathlib.Data.List.TakeWhile
import Swamp.JsValue

/-!
# Numbers and base64 as JavaScript reads them

`number` is `Number(s)` of a string: blanks are trimmed, an empty text is zero,
a text may be hexadecimal, octal, binary or decimal with a fraction and an
exponent, and anything else is not a number.  Values are kept exact, where a
double would round them.

`atob` and `btoa` are the two directions of base64 over strings of bytes.
-/

namespace Js

/-- A value of `Number(s)`. -/
inductive JsNumber where
  | nan
  | infinite (negative : Bool)
  | finite (value : ℚ)
deriving DecidableEq

/-- White space and line terminators. -/
def isBlank (u : CodeUnit) : Bool :=
  (9 ≤ u.val && u.val ≤ 13) || u.val == 0x20 || u.val == 0xA0 || u.val == 0x1680 ||
    (0x2000 ≤ u.val && u.val ≤ 0x200A) || u.val == 0x2028 || u.val == 0x2029 ||
    u.val == 0x202F || u.val == 0x205F || u.val == 0x3000 || u.val == 0xFEFF

/-- `s.trim()`. -/
def trim (s : JsString) : JsString := ((s.dropWhile isBlank).reverse.dropWhile isBlank).reverse

/-- `\d`. -/
def isDigitUnit (u : CodeUnit) : Bool := 48 ≤ u.val && u.val ≤ 57

/-- The value of a digit, none past the radix. -/
def digitOf (radix : ℕ) (u : CodeUnit) : Option ℕ :=
  let value :=
    if 48 ≤ u.val && u.val ≤ 57 then u.val - 48
    else if 97 ≤ u.val && u.val ≤ 122 then u.val - 87
    else if 65 ≤ u.val && u.val ≤ 90 then u.val - 55
    else radix
  if value < radix then some value else none

/-- The value of a text of digits, which may be empty. -/
def digitsOf (radix : ℕ) (s : JsString) : Option ℕ :=
  (s.mapM (digitOf radix)).map (fun digits => Nat.ofDigits radix digits.reverse)

/-- The two sides of the first unit that satisfies `p`, none when there is none. -/
def breakAt (p : CodeUnit → Bool) (s : JsString) : JsString × Option JsString :=
  match s.dropWhile (fun u => !p u) with
  | [] => (s, none)
  | _ :: rest => (s.takeWhile (fun u => !p u), some rest)

/-- The exponent of a decimal literal. -/
def exponentOf : Option JsString → Option ℤ
  | none => some 0
  | some [] => none
  | some (u :: rest) =>
    if u = unit '+' then if rest = [] then none else (digitsOf 10 rest).map (fun n => (n : ℤ))
    else if u = unit '-' then if rest = [] then none else (digitsOf 10 rest).map (fun n => -(n : ℤ))
    else (digitsOf 10 (u :: rest)).map (fun n => (n : ℤ))

/-- A decimal literal without a sign. -/
def unsignedDecimal (s : JsString) : JsNumber :=
  if s = js "Infinity" then .infinite false
  else
    let (mantissa, exponent) := breakAt (fun u => u = unit 'e' || u = unit 'E') s
    let (whole, fraction) := breakAt (· = unit '.') mantissa
    if whole = [] ∧ fraction.getD [] = [] then .nan
    else
      match digitsOf 10 whole, digitsOf 10 (fraction.getD []), exponentOf exponent with
      | some w, some f, some e =>
        .finite (((w : ℚ) + f / 10 ^ (fraction.getD []).length) * (10 : ℚ) ^ e)
      | _, _, _ => .nan

def JsNumber.neg : JsNumber → JsNumber
  | .nan => .nan
  | .infinite negative => .infinite !negative
  | .finite value => .finite (-value)

/-- A decimal literal, its sign first. -/
def signedDecimal : JsString → JsNumber
  | [] => .nan
  | u :: rest =>
    if u = unit '+' then unsignedDecimal rest
    else if u = unit '-' then (unsignedDecimal rest).neg
    else unsignedDecimal (u :: rest)

/-- The radix a prefix letter stands for. -/
def radixOf (u : CodeUnit) : Option ℕ :=
  if u = unit 'x' ∨ u = unit 'X' then some 16
  else if u = unit 'o' ∨ u = unit 'O' then some 8
  else if u = unit 'b' ∨ u = unit 'B' then some 2
  else none

/-- `Number(s)`. -/
def number (s : JsString) : JsNumber :=
  match trim s with
  | [] => .finite 0
  | [u] => signedDecimal [u]
  | u :: v :: rest =>
    match (if u = unit '0' then radixOf v else none) with
    | some radix =>
      match (if rest = [] then none else digitsOf radix rest) with
      | some n => .finite n
      | none => .nan
    | none => signedDecimal (u :: v :: rest)

/-- The positive safe integer a number is. -/
def JsNumber.positive : JsNumber → Option ℕ
  | .finite value =>
    if value.den = 1 ∧ 1 ≤ value.num ∧ value.num ≤ maxSafeInteger then some value.num.toNat
    else none
  | _ => none

theorem trim_of_no_blank {s : JsString} (h : ∀ u ∈ s, isBlank u = false) : trim s = s := by
  have hdrop : ∀ t : JsString, (∀ u ∈ t, isBlank u = false) → t.dropWhile isBlank = t := by
    intro t ht
    cases t with
    | nil => rfl
    | cons u rest => simp [ht u List.mem_cons_self]
  rw [trim, hdrop s h, hdrop s.reverse (fun u hu => h u (List.mem_reverse.mp hu)),
    List.reverse_reverse]

example : number (js " 0x1F ") = .finite 31 := by decide

/-- The digits of base64. -/
def base64Digits : JsString :=
  js "ABCDEFGHIJKLMNOPQRSTUVWXYZabcdefghijklmnopqrstuvwxyz0123456789+/"

/-- The base64 digit of a number below 64. -/
def base64Digit (n : ℕ) : CodeUnit := base64Digits.getD n (unit '=')

/-- `btoa(s)` of a string of bytes. -/
def btoa : JsString → JsString
  | a :: b :: c :: rest =>
    base64Digit (a.val / 4) :: base64Digit (a.val % 4 * 16 + b.val / 16) ::
      base64Digit (b.val % 16 * 4 + c.val / 64) :: base64Digit (c.val % 64) :: btoa rest
  | [a, b] =>
    [base64Digit (a.val / 4), base64Digit (a.val % 4 * 16 + b.val / 16),
      base64Digit (b.val % 16 * 4), unit '=']
  | [a] => [base64Digit (a.val / 4), base64Digit (a.val % 4 * 16), unit '=', unit '=']
  | [] => []

/-- The bytes of base64 digits. -/
def base64Bytes : List ℕ → JsString
  | a :: b :: c :: d :: rest =>
    Fin.ofNat 65536 (a * 4 + b / 16) :: Fin.ofNat 65536 (b % 16 * 16 + c / 4) ::
      Fin.ofNat 65536 (c % 4 * 64 + d) :: base64Bytes rest
  | [a, b, c] => [Fin.ofNat 65536 (a * 4 + b / 16), Fin.ofNat 65536 (b % 16 * 16 + c / 4)]
  | [a, b] => [Fin.ofNat 65536 (a * 4 + b / 16)]
  | _ => []

/-- The padding a text ends with is dropped when the text is made of quadruples. -/
def withoutPadding (s : JsString) : JsString :=
  if s.length % 4 = 0 then
    match s.reverse with
    | u :: v :: rest =>
      if u = unit '=' ∧ v = unit '=' then rest.reverse
      else if u = unit '=' then (v :: rest).reverse
      else s
    | _ => s
  else s

/-- `atob(s)`: none where it throws. -/
def atob (s : JsString) : Option JsString :=
  let digits := withoutPadding (s.filter (fun u => !([9, 10, 12, 13, 32].contains u.val)))
  if digits.length % 4 = 1 then none
  else if digits.all (base64Digits.contains ·) then
    some (base64Bytes (digits.map (fun u => base64Digits.idxOf u)))
  else none

example : atob (btoa (js "104")) = some (js "104") := by decide

end Js
