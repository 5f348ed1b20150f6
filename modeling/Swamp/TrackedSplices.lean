import Swamp.ExpressionScanner
import Swamp.ProvenanceMap

/-!
# Values put in the place of expressions

`replaceExpressions` puts the value of each expression of a tree in its place: an
expression that is all of a string gives way to the value itself, one within a longer
string to its text.  `replaceExpressionsTracked` does so only where the expression
overlaps no data, and says of the tree it makes what came from data.

The value of an expression is looked up by its text.  A key may be there and hold
`undefined`; `none` within `some` is that.
-/

namespace Swamp

namespace Provenance

open Js LiteralMatch ExpressionScanner

section

variable (numberText : ℚ → JsString)

/-- Two blanks more. -/
def indented (indent : JsString) : JsString := indent ++ js "  "

mutual

/-- `JSON.stringify(value, null, 2)` at an indent. -/
def stringifyIndented (indent : JsString) : Json → JsString
  | .null => js "null"
  | .bool true => js "true"
  | .bool false => js "false"
  | .num n => numberText n
  | .str s => quote s
  | .arr [] => js "[]"
  | .arr (item :: items) =>
    js "[\n" ++ (indented indent ++ (stringifyIndented (indented indent) item ++
      indentedItems indent items))
  | .obj [] => js "\x7b\x7d"
  | .obj ((key, value) :: fields) =>
    js "\x7b\n" ++ (indented indent ++ (quote key ++ (js ": " ++
      (stringifyIndented (indented indent) value ++ indentedFields indent fields))))

/-- The items behind the first, and the closing bracket. -/
def indentedItems (indent : JsString) : List Json → JsString
  | [] => unit '\n' :: (indent ++ [unit ']'])
  | item :: items =>
    js ",\n" ++ (indented indent ++ (stringifyIndented (indented indent) item ++
      indentedItems indent items))

/-- The fields behind the first, and the closing brace. -/
def indentedFields (indent : JsString) : List (JsString × Json) → JsString
  | [] => unit '\n' :: (indent ++ [unit '\x7d'])
  | (key, value) :: fields =>
    js ",\n" ++ (indented indent ++ (quote key ++ (js ": " ++
      (stringifyIndented (indented indent) value ++ indentedFields indent fields))))

end

/-- The text a value is spliced as: objects as JSON, the others as `String` has them. -/
def rendered : Json → JsString
  | .str s => s
  | value => stringifyIndented numberText [] value

end

/-- `HAS_EXPRESSION_PATTERN`: an opener, one character at least, and a closer. -/
def containsExpression (value : JsString) : Bool :=
  match indexOf value OPENER 0 with
  | none => false
  | some start => (indexOf value CLOSER (start + OPENER.length + 1)).isSome

section

variable (parsesAsCel : JsString → Bool)

def matchSingleExpression (value : JsString) : Option ExpressionSpan :=
  if startsWith value OPENER = false then none
  else
    match scanExpressions parsesAsCel value with
    | [] => none
    | span :: _ =>
      if span.start ≠ 0 then none
      else if trim (value.drop span.stop) ≠ [] then none
      else some span

variable (numberText : ℚ → JsString) (values : JsString → Option (Option Json))
  (skipPath : JsString → Bool)

/-- What a span within a longer string is replaced by. -/
def replacement (span : ExpressionSpan) : JsString :=
  match values span.raw with
  | none => span.raw
  | some none => []
  | some (some .null) => []
  | some (some value) => rendered numberText value

/-- The string branch of `replaceExpressionsRecursive`. -/
def replaceString (text : JsString) : Json :=
  if containsExpression text = false then .str text
  else
    match matchSingleExpression parsesAsCel text with
    | some single =>
      match values single.raw with
      | some (some evaluated) => evaluated
      | _ => .str text
    | none => .str (replaceExpressionSpans parsesAsCel text (replacement numberText values))

mutual

def replaceExpressionsRecursive (path : JsString) (data : Json) : Json :=
  if skipPath path then data
  else
    match data with
    | .str text => replaceString parsesAsCel numberText values text
    | .arr items => .arr (replaceItems path 0 items)
    | .obj fields => .obj (replaceFields path fields)
    | data => data

/-- The items of an array from `index` on. -/
def replaceItems (path : JsString) (index : ℕ) : List Json → List Json
  | [] => []
  | item :: items =>
    replaceExpressionsRecursive (indexPath path index) item :: replaceItems path (index + 1) items

/-- The fields of an object. -/
def replaceFields (path : JsString) : List (JsString × Json) → List (JsString × Json)
  | [] => []
  | (key, value) :: fields =>
    (key, replaceExpressionsRecursive (keyPath path key) value) :: replaceFields path fields

end

def replaceExpressions (data : Json) : Json :=
  replaceExpressionsRecursive parsesAsCel numberText values skipPath [] data

/-- `authoredRaws` is empty when there is none. -/
structure SpliceOrigin where
  map : ProvenanceMap
  authoredRaws : List JsString

/-- `TrackedSplice`. -/
structure TrackedSplice where
  data : Json
  provenance : ProvenanceMap

/-- The ranges of `readSetRanges` from `last` on. -/
def readSetFrom (text : JsString) (authoredRaws : List JsString) :
    ℕ → List ExpressionSpan → List DataRange
  | last, [] => if last < text.length then [(last, text.length)] else []
  | last, span :: rest =>
    if span.raw ∉ authoredRaws then readSetFrom text authoredRaws last rest
    else
      (if last < span.start then [(last, span.start)] else []) ++
        readSetFrom text authoredRaws span.stop rest

/-- Everything but the expressions that are authored. -/
def readSetRanges (text : JsString) (authoredRaws : List JsString) : List DataRange :=
  if text.length = 0 then []
  else readSetFrom text authoredRaws 0 (scanExpressions parsesAsCel text)

/-- What is data in the text a value is spliced as, which is its rendered text where
there is no sanitizer. -/
def embeddedRanges (value : Json) (text : JsString) (origin : SpliceOrigin) : List DataRange :=
  if origin.map.isAuthored then []
  else
    match value with
    | .str _ => if origin.map.isWholeDataAt [] then [(0, text.length)] else origin.map.rangesAt []
    | _ => readSetRanges parsesAsCel text origin.authoredRaws

/-- The map of a value spliced whole: without a sanitizer the value is the evaluated
one, and its origin's map is its own. -/
def wholeSpliceMap (origin : SpliceOrigin) : ProvenanceMap := origin.map

/-- The text put together so far, and what in it is data. -/
structure Embedding where
  out : JsString
  ranges : List DataRange

/-- `copy`: text of the string goes over with its ranges. -/
def Embedding.copy (embedding : Embedding) (text : JsString) (inRanges : List DataRange)
    (start stop : ℕ) : Embedding where
  out := embedding.out ++ slice text start stop
  ranges := embedding.ranges ++ inRanges.filterMap (fun range =>
    if max range.1 start < min range.2 stop then
      some (max range.1 start - start + embedding.out.length,
        min range.2 stop - start + embedding.out.length)
    else none)

/-- Spliced text goes over with the ranges of its origin. -/
def Embedding.splice (embedding : Embedding) (text : JsString) (ranges : List DataRange) :
    Embedding where
  out := embedding.out ++ text
  ranges := embedding.ranges ++ ranges.map (fun range =>
    (range.1 + embedding.out.length, range.2 + embedding.out.length))

variable (provenance : ProvenanceMap) (originOf : JsString → SpliceOrigin)

/-- The loop over the spans of a string, behind `last`. -/
def embedFrom (path text : JsString) : ℕ → Embedding → List ExpressionSpan → Embedding
  | last, embedding, [] =>
    embedding.copy text (provenance.rangesAt path) last text.length
  | last, embedding, span :: rest =>
    let embedding := embedding.copy text (provenance.rangesAt path) last span.start
    let kept := embedding.copy text (provenance.rangesAt path) span.start span.stop
    if provenance.overlapsData path span.start span.stop then
      embedFrom path text span.stop kept rest
    else
      match values span.raw with
      | none => embedFrom path text span.stop kept rest
      | some none => embedFrom path text span.stop embedding rest
      | some (some .null) => embedFrom path text span.stop embedding rest
      | some (some value) =>
        let text' := rendered numberText value
        embedFrom path text span.stop
          (embedding.splice text' (embeddedRanges parsesAsCel value text' (originOf span.raw)))
          rest

/-- The string branch of `replaceTracked`: the value, and the map for its path where
it is updated. -/
def trackString (path text : JsString) : Json × Option ProvenanceMap :=
  if containsExpression text = false then (.str text, none)
  else
    match matchSingleExpression parsesAsCel text with
    | some single =>
      if provenance.overlapsData path single.start single.stop then (.str text, none)
      else
        match values single.raw with
        | some (some evaluated) => (evaluated, some (wholeSpliceMap (originOf single.raw)))
        | _ => (.str text, none)
    | none =>
      let embedding := embedFrom parsesAsCel numberText values provenance originOf path text 0
        ⟨[], []⟩ (scanExpressions parsesAsCel text)
      (.str embedding.out, some (ProvenanceMap.authored.withRanges [] embedding.ranges))

mutual

/-- `replaceTracked`: the value, and the updates it makes. -/
def replaceTracked (path : JsString) (data : Json) : Json × List (JsString × ProvenanceMap) :=
  if skipPath path then (data, [])
  else if provenance.isWholeDataAt path then (data, [])
  else
    match data with
    | .str text =>
      let (value, map) := trackString parsesAsCel numberText values provenance originOf path text
      (value, map.toList.map (fun map => (path, map)))
    | .arr items =>
      let (results, updates) := trackItems path 0 items
      (.arr results, updates)
    | .obj fields =>
      let (results, updates) := trackFields path fields
      (.obj results, updates)
    | data => (data, [])

/-- The items of an array from `index` on. -/
def trackItems (path : JsString) (index : ℕ) :
    List Json → List Json × List (JsString × ProvenanceMap)
  | [] => ([], [])
  | item :: items =>
    let (result, updates) := replaceTracked (indexPath path index) item
    let (results, more) := trackItems path (index + 1) items
    (result :: results, updates ++ more)

/-- The fields of an object. -/
def trackFields (path : JsString) :
    List (JsString × Json) → List (JsString × Json) × List (JsString × ProvenanceMap)
  | [] => ([], [])
  | (key, value) :: fields =>
    let (result, updates) := replaceTracked (keyPath path key) value
    let (results, more) := trackFields path fields
    ((key, result) :: results, updates ++ more)

end

def replaceExpressionsTracked (data : Json) : TrackedSplice :=
  let (result, changes) :=
    replaceTracked parsesAsCel numberText values skipPath provenance originOf [] data
  ⟨result, provenance.graftAll changes⟩

end

end Provenance

end Swamp
