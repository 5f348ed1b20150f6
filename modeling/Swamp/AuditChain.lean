import Mathlib.Data.List.Sort
import Swamp.CanonicalJson
import Swamp.HashChain
import Swamp.JsonText
import Swamp.SegmentCoding

/-!
# The audit chain

Each audit event is stored with a digest of the event and of the digest before
it.  What is digested is the event's canonical text: its keys in order at every
depth, without the three fields the chain adds.  `sha256` is a parameter, as is
the text of a number.

Objects are lists of fields with distinct names, `__proto__` a name like any
other: the runtime has no accessor for it.  A field whose value is `undefined`
is one without a value; `JSON.stringify` leaves it out.
-/

namespace Swamp

open Js

/-- The numbers that are not finite. -/
inductive NonFinite where
  | nan
  | infinity (negative : Bool)

/-- A JSON value in memory.  Its numbers need not be finite: `JSON.parse` reads
`1e999` as an infinity.  A negative zero is zero. -/
inductive JsonValue where
  | null
  | bool (b : Bool)
  | num (n : ℚ)
  | nonFinite (n : NonFinite)
  | str (s : JsString)
  | arr (items : List JsonValue)
  | obj (fields : List (JsString × JsonValue))

/-- The fields of an object. -/
abbrev Fields := List (JsString × JsonValue)

namespace JsonValue

mutual

/-- The value `JSON.stringify` writes: `null` for a number that is not finite. -/
def written : JsonValue → Json
  | .null | .nonFinite _ => .null
  | .bool b => .bool b
  | .num n => .num n
  | .str s => .str s
  | .arr items => .arr (writtenItems items)
  | .obj fields => .obj (writtenFields fields)

def writtenItems : List JsonValue → List Json
  | [] => []
  | item :: items => written item :: writtenItems items

def writtenFields : Fields → List (JsString × Json)
  | [] => []
  | (key, value) :: fields => (key, written value) :: writtenFields fields

end

mutual

/-- The value `JSON.parse` reads of a text `JSON.stringify` wrote. -/
def ofJson : Json → JsonValue
  | .null => .null
  | .bool b => .bool b
  | .num n => .num n
  | .str s => .str s
  | .arr items => .arr (ofItems items)
  | .obj fields => .obj (ofFields fields)

def ofItems : List Json → List JsonValue
  | [] => []
  | item :: items => ofJson item :: ofItems items

def ofFields : List (JsString × Json) → Fields
  | [] => []
  | (key, value) :: fields => (key, ofJson value) :: ofFields fields

end

end JsonValue

/-- The integer a key is the text of, when objects enumerate it as one. -/
def indexKey (key : JsString) : Option ℕ :=
  let n := decimalValue key
  if decimal n = key ∧ n < 2 ^ 32 - 1 then some n else none

/-- The object that assigning fields to `{}` makes.  It enumerates the integer
keys first, from the least, then the rest as they were set. -/
def assigned (fields : Fields) : Fields :=
  (fields.filter (fun f => (indexKey f.1).isSome)).insertionSort
      (fun a b => (indexKey a.1).getD 0 ≤ (indexKey b.1).getD 0) ++
    fields.filter (fun f => (indexKey f.1).isNone)

mutual

/-- The value with the keys of every object assigned in order. -/
def sortKeys : JsonValue → JsonValue
  | .arr items => .arr (sortItems items)
  | .obj fields => .obj (assigned ((sortFields fields).insertionSort (fun a b => a.1 ≤ b.1)))
  | value => value

def sortItems : List JsonValue → List JsonValue
  | [] => []
  | item :: items => sortKeys item :: sortItems items

def sortFields : Fields → Fields
  | [] => []
  | (key, value) :: fields => (key, sortKeys value) :: sortFields fields

end

mutual

/-- A value whose objects have distinct keys. -/
def isPlain : JsonValue → Bool
  | .arr items => isPlainItems items
  | .obj fields => decide (fields.map Prod.fst).Nodup && isPlainFields fields
  | _ => true

def isPlainItems : List JsonValue → Bool
  | [] => true
  | item :: items => isPlain item && isPlainItems items

def isPlainFields : Fields → Bool
  | [] => true
  | (_, value) :: fields => isPlain value && isPlainFields fields

end

/-- The code point a unit that pairs with none beside it is encoded as. -/
def scalarOf (u : CodeUnit) : ℕ := if isHighSurrogate u || isLowSurrogate u then 0xFFFD else u.val

/-- The code points a text is encoded as. -/
def scalars : JsString → List ℕ
  | [] => []
  | [u] => [scalarOf u]
  | u :: v :: rest =>
    if isHighSurrogate u && isLowSurrogate v then
      (0x10000 + (u.val - 0xD800) * 0x400 + (v.val - 0xDC00)) :: scalars rest
    else scalarOf u :: scalars (v :: rest)

/-- `TextEncoder.encode`. -/
def textEncode (s : JsString) : List (Fin 256) :=
  ((scalars s).flatMap utf8).map (Fin.ofNat 256)

/-- The hex text of bytes. -/
def bytesHex (bytes : List (Fin 256)) : JsString :=
  bytes.flatMap (fun b => [lowerHex (b.val / 16), lowerHex (b.val % 16)])

/-- The digest the first event is chained to. -/
def CHAIN_SEED_DIGEST : JsString := List.replicate 64 (unit '0')

/-- The fields the chain adds to an event. -/
def chainFields : List JsString := [js "version", js "sequence", js "digest"]

/-- An audit event in memory, where a field may be `undefined`. -/
structure AuditEvent where
  fields : List (JsString × Option JsonValue)
  distinct : (fields.map Prod.fst).Nodup

/-- The fields that have a value. -/
def definedFields (fields : List (JsString × Option JsonValue)) : Fields :=
  fields.filterMap (fun f => f.2.map (fun value => (f.1, value)))

/-- The fields `JSON.parse` reads of the text of an object. -/
def storedFields (fields : List (JsString × Option JsonValue)) : Fields :=
  JsonValue.ofFields (JsonValue.writtenFields (definedFields fields))

/-- `{ ...fields, [name]: value }`. -/
def withField (fields : List (JsString × Option JsonValue)) (name : JsString)
    (value : JsonValue) : List (JsString × Option JsonValue) :=
  if name ∈ fields.map Prod.fst then
    fields.map (fun f => if f.1 = name then (name, some value) else f)
  else fields ++ [(name, some value)]

section

variable (numberText : ℚ → JsString) (sha256 : List (Fin 256) → List (Fin 256))

/-- `canonicalize`, of the fields that have a value. -/
def canonicalize (event : Fields) : JsString :=
  stringify numberText (sortKeys (.obj (event.filter (fun f => f.1 ∉ chainFields)))).written

/-- `computeDigest`. -/
def computeDigest (previousDigest eventJson : JsString) : JsString :=
  bytesHex (sha256 (textEncode (previousDigest ++ eventJson)))

/-- `AuditChainState`, which is its own snapshot. -/
structure AuditChainState where
  sequence : ℕ
  previousDigest : JsString

/-- `new AuditChainState()`. -/
def AuditChainState.initial : AuditChainState := ⟨0, CHAIN_SEED_DIGEST⟩

/-- `chain`: the state after it, and the fields of the chained event. -/
def AuditChainState.chain (self : AuditChainState) (event : AuditEvent) :
    AuditChainState × List (JsString × Option JsonValue) :=
  let sequence := self.sequence + 1
  let digest := computeDigest sha256 self.previousDigest
    (canonicalize numberText (definedFields event.fields))
  (⟨sequence, digest⟩,
   withField (withField (withField event.fields (js "version") (.num 1)) (js "sequence")
     (.num sequence)) (js "digest") (.str digest))

/-- Events chained in order and stored as JSON: the state after them, and what
is stored. -/
def AuditChainState.store (self : AuditChainState) : List AuditEvent → AuditChainState × List Fields
  | [] => (self, [])
  | event :: events =>
    let (after, chained) := self.chain numberText sha256 event
    let (last, stored) := after.store events
    (last, storedFields chained :: stored)

/-- The text a field holds, if it holds one. -/
def textOf (event : Fields) (name : JsString) : Option JsString :=
  match event.lookup name with
  | some (.str text) => some text
  | _ => none

/-- What `verifyChain` returns. -/
inductive ChainVerdict where
  | valid
  | broken (brokenAt : Option JsonValue)

instance (verdict : ChainVerdict) : Decidable (verdict = .valid) :=
  match verdict with
  | .valid => isTrue rfl
  | .broken _ => isFalse nofun

/-- `verifyChain`. -/
def verifyChain (previousDigest : JsString) : List Fields → ChainVerdict
  | [] => .valid
  | event :: events =>
    let expected := computeDigest sha256 previousDigest (canonicalize numberText event)
    if textOf event (js "digest") ≠ some expected then
      .broken (event.lookup (js "sequence"))
    else verifyChain expected events

end

end Swamp
