import Swamp.JsValue

/-!
# JSON values compared whatever the order of their keys

`canonicalJson` writes every object with its keys in order.  `JSON.stringify`
gives one text to each value so written, so two values have one canonical text
exactly when their sorted forms are equal; the sorted form stands for the text
here.
-/

namespace Js

namespace Json

mutual

/-- Equality of JSON values is decided. -/
def decEq : (a b : Json) → Decidable (a = b)
  | .null, .null => isTrue rfl
  | .bool a, .bool b => decidable_of_iff (a = b) (by simp)
  | .num a, .num b => decidable_of_iff (a = b) (by simp)
  | .str a, .str b => decidable_of_iff (a = b) (by simp)
  | .arr a, .arr b =>
    have := decEqItems a b
    decidable_of_iff (a = b) (by simp)
  | .obj a, .obj b =>
    have := decEqFields a b
    decidable_of_iff (a = b) (by simp)
  | .null, .bool _ => isFalse (by simp)
  | .null, .num _ => isFalse (by simp)
  | .null, .str _ => isFalse (by simp)
  | .null, .arr _ => isFalse (by simp)
  | .null, .obj _ => isFalse (by simp)
  | .bool _, .null => isFalse (by simp)
  | .bool _, .num _ => isFalse (by simp)
  | .bool _, .str _ => isFalse (by simp)
  | .bool _, .arr _ => isFalse (by simp)
  | .bool _, .obj _ => isFalse (by simp)
  | .num _, .null => isFalse (by simp)
  | .num _, .bool _ => isFalse (by simp)
  | .num _, .str _ => isFalse (by simp)
  | .num _, .arr _ => isFalse (by simp)
  | .num _, .obj _ => isFalse (by simp)
  | .str _, .null => isFalse (by simp)
  | .str _, .bool _ => isFalse (by simp)
  | .str _, .num _ => isFalse (by simp)
  | .str _, .arr _ => isFalse (by simp)
  | .str _, .obj _ => isFalse (by simp)
  | .arr _, .null => isFalse (by simp)
  | .arr _, .bool _ => isFalse (by simp)
  | .arr _, .num _ => isFalse (by simp)
  | .arr _, .str _ => isFalse (by simp)
  | .arr _, .obj _ => isFalse (by simp)
  | .obj _, .null => isFalse (by simp)
  | .obj _, .bool _ => isFalse (by simp)
  | .obj _, .num _ => isFalse (by simp)
  | .obj _, .str _ => isFalse (by simp)
  | .obj _, .arr _ => isFalse (by simp)

def decEqItems : (a b : List Json) → Decidable (a = b)
  | [], [] => isTrue rfl
  | [], _ :: _ => isFalse (by simp)
  | _ :: _, [] => isFalse (by simp)
  | a :: as, b :: bs =>
    have := decEq a b
    have := decEqItems as bs
    decidable_of_iff (a = b ∧ as = bs) (by simp)

def decEqFields : (a b : List (JsString × Json)) → Decidable (a = b)
  | [], [] => isTrue rfl
  | [], _ :: _ => isFalse (by simp)
  | _ :: _, [] => isFalse (by simp)
  | (k, a) :: as, (l, b) :: bs =>
    have := decEq a b
    have := decEqFields as bs
    decidable_of_iff (k = l ∧ a = b ∧ as = bs) (by simp [and_assoc])

end

/-- Keys are sorted by their text, code unit by code unit. -/
instance : DecidableEq Json := decEq

mutual

/-- The value with the keys of every object in order. -/
def canonical : Json → Json
  | .arr items => .arr (canonicalItems items)
  | .obj fields =>
    .obj ((canonicalFields fields).insertionSort (fun a b => a.1 ≤ b.1))
  | value => value

def canonicalItems : List Json → List Json
  | [] => []
  | item :: items => canonical item :: canonicalItems items

def canonicalFields : List (JsString × Json) → List (JsString × Json)
  | [] => []
  | (key, value) :: fields => (key, canonical value) :: canonicalFields fields

end

/-- Whether two values, either of which may be `undefined`, have one canonical
text. -/
def same (a b : Option Json) : Bool := decide (a.map canonical = b.map canonical)

@[simp] theorem same_iff {a b : Option Json} :
    same a b = true ↔ a.map canonical = b.map canonical := decide_eq_true_iff

example : same (some (.obj [(js "a", .null), (js "b", .str [])]))
    (some (.obj [(js "b", .str []), (js "a", .null)])) = true := by decide

end Json

end Js
