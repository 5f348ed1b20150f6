import Mathlib.Data.List.Sort
import Swamp.ShellScanner

/-!
# Placing data in a shell command

A command is authored text with data spliced into it.  `placeShellData` puts a
reference to an environment variable in the place of each piece of data, quoted
for its context, and refuses where no reference keeps the data literal.  The
contexts are read of the command with an inert word in the place of each piece.
-/

namespace Swamp

namespace Shell

open Js

section Matching

/-- The matches of a pattern from left to right, as their starts and lengths.
`pattern` answers how long the match at the front of a text is. -/
def matchesFrom (pattern : JsString → Option ℕ) : ℕ → ℕ → JsString → List (ℕ × ℕ)
  | _, _, [] => []
  | skip + 1, index, _ :: rest => matchesFrom pattern skip (index + 1) rest
  | 0, index, u :: rest =>
    match pattern (u :: rest) with
    | some length => (index, length) :: matchesFrom pattern (length - 1) (index + 1) rest
    | none => matchesFrom pattern 0 (index + 1) rest

/-- `text.matchAll(pattern)`. -/
def matchAll (pattern : JsString → Option ℕ) (text : JsString) : List (ℕ × ℕ) :=
  matchesFrom pattern 0 0 text

/-- A literal at the front of a text, and what follows it. -/
def afterLiteral (literal text : JsString) : Option JsString :=
  if literal <+: text then some (text.drop literal.length) else none

/-- `[A-Za-z_]`. -/
def isNameStart (u : CodeUnit) : Bool :=
  (65 ≤ u.val && u.val ≤ 90) || (97 ≤ u.val && u.val ≤ 122) || u = unit '_'

/-- `[A-Za-z0-9_]`. -/
def isNamePart (u : CodeUnit) : Bool := isNameStart u || isDigitUnit u

/-- `[0-9a-f]`. -/
def isHexUnit (u : CodeUnit) : Bool := isDigitUnit u || (97 ≤ u.val && u.val ≤ 102)

/-- The length of `[A-Za-z_][A-Za-z0-9_]*` at the front of a text. -/
def nameLength : JsString → Option ℕ
  | [] => none
  | u :: rest => if isNameStart u then some ((rest.takeWhile isNamePart).length + 1) else none

/-- `SENTINEL_PATTERN`. -/
def sentinelPattern (text : JsString) : Option ℕ := do
  let afterMark ← afterLiteral (js "__SWAMP_VSEC_") text
  let secret := afterMark.take 32
  if secret.length = 32 ∧ secret.all isHexUnit then
    let afterSecret ← afterLiteral (js "_") (afterMark.drop 32)
    let digits := afterSecret.takeWhile isDigitUnit
    if digits = [] then none
    else
      let rest ← afterLiteral (js "__") (afterSecret.drop digits.length)
      return text.length - rest.length
  else none

end Matching

/-- How far the bracket that closes a text is, or its end. -/
def closingAt (opens closes : CodeUnit) : ℕ → JsString → ℕ
  | _, [] => 0
  | depth, u :: rest =>
    if u = opens then closingAt opens closes (depth + 1) rest + 1
    else if u = closes then
      match depth with
      | 0 => 0
      | depth + 1 => closingAt opens closes depth rest + 1
    else closingAt opens closes depth rest + 1

/-- `matching`. -/
def matching (text : JsString) (start : ℕ) (opens closes : CodeUnit) : ℕ :=
  start + closingAt opens closes 0 (text.drop start)

/-- `/\$\{[#!]?(?:[A-Za-z_][A-Za-z0-9_]*|[0-9]+|[@*#?$!-])/`. -/
def expansionPattern (text : JsString) : Option ℕ := do
  let body ← afterLiteral (js "$\x7b") text
  let parameter (text : JsString) : Option ℕ :=
    match nameLength text with
    | some n => some n
    | none =>
      match text with
      | [] => none
      | u :: _ =>
        if isDigitUnit u then some (text.takeWhile isDigitUnit).length
        else if (js "@*#?$!-").contains u then some 1
        else none
  let marked : Bool := body.head?.any (fun u => u = unit '#' || u = unit '!')
  match (if marked then parameter body.tail else none) with
  | some n => return 3 + n
  | none => return 2 + (← parameter body)

/-- A name, then one of the texts that may follow it. -/
def afterName (follows : List JsString) (text : JsString) : Option ℕ := do
  let n ← nameLength text
  let mark ← follows.find? (· <+: text.drop n)
  return n + mark.length

/-- `/^\]\+?=/` of the text from a bracket on. -/
def assignsAt (text : JsString) (bracket : ℕ) : Bool :=
  js "]=" <+: text.drop bracket || js "]+=" <+: text.drop bracket

/-- The subscripts of an array literal from `i` on; `fuel` is at least the length
that is left. -/
def subscripts (text : JsString) (bodyEnd : ℕ) : ℕ → ℕ → List (ℕ × ℕ)
  | 0, _ => []
  | fuel + 1, i =>
    if bodyEnd ≤ i then []
    else if text[i]? ≠ some (unit '[') then subscripts text bodyEnd fuel (i + 1)
    else
      let last := matching text (i + 1) (unit '[') (unit ']')
      (if assignsAt text last then [(i + 1, last)] else []) ++
        subscripts text bodyEnd fuel (last + 1)

/-- The spans of one `${…}`: its subscript and its offset. -/
def expansionSpans (text : JsString) (start length : ℕ) : List (ℕ × ℕ) :=
  let close := matching text (start + 2) (unit '\x7b') (unit '\x7d')
  let i := start + length
  let last := matching text (i + 1) (unit '[') (unit ']')
  let subscripted : Bool := text[i]? = some (unit '[')
  let j := if subscripted then last + 1 else i
  let offset : Bool := text[j]? = some (unit ':') &&
    !(text[j + 1]?.any ((js "-=+?").contains ·))
  (if subscripted then [(i + 1, last)] else []) ++ (if offset then [(j + 1, close)] else [])

/-- The spans from each of a literal of two characters to the bracket that closes it. -/
def openedSpans (literal : JsString) (opens closes : CodeUnit) (command : JsString) : List (ℕ × ℕ) :=
  (matchAll (fun text => (afterLiteral literal text).map (fun _ => 2)) command).map
    (fun m => (m.1 + 2, matching command (m.1 + 2) opens closes))

/-- `bashArithmeticSpans`. -/
def bashArithmeticSpans (command : JsString) : List (ℕ × ℕ) :=
  openedSpans (js "((") (unit '(') (unit ')') command ++
    openedSpans (js "$[") (unit '[') (unit ']') command ++
    (matchAll expansionPattern command).flatMap (fun m => expansionSpans command m.1 m.2) ++
    (matchAll (afterName [js "=(", js "+=("]) command).flatMap (fun m =>
      let bodyStart := m.1 + m.2
      let bodyEnd := matching command bodyStart (unit '(') (unit ')')
      subscripts command bodyEnd command.length bodyStart) ++
    (matchAll (afterName [js "["]) command).filterMap (fun m =>
      let start := m.1 + m.2
      let last := matching command start (unit '[') (unit ']')
      if assignsAt command last then some (start, last) else none)

/-- `[start, end]`. -/
abbrev DataRange := ℤ × ℤ

/-- A range clamped to the command, unless nothing is left of it. -/
def clampRange (command : JsString) (range : DataRange) : Option (ℕ × ℕ) :=
  let start := (max 0 range.1).toNat
  let stop := (min (command.length : ℤ) range.2).toNat
  if start < stop then some (start, stop) else none

/-- The ranges after one, joined where they touch. -/
def joinRanges : ℕ × ℕ → List (ℕ × ℕ) → List (ℕ × ℕ)
  | last, [] => [last]
  | last, range :: rest =>
    if range.1 ≤ last.2 then joinRanges (last.1, max last.2 range.2) rest
    else last :: joinRanges range rest

/-- Ranges in order, joined where they touch. -/
def joinTouching : List (ℕ × ℕ) → List (ℕ × ℕ)
  | [] => []
  | range :: rest => joinRanges range rest

/-- What sentinels leave of a range, from a position on. -/
def withoutSentinels (stop : ℕ) : ℕ → List (ℕ × ℕ) → List (ℕ × ℕ)
  | start, [] => if start < stop then [(start, stop)] else []
  | start, (first, last) :: rest =>
    if last ≤ start ∨ stop ≤ first then withoutSentinels stop start rest
    else (if start < first then [(start, first)] else []) ++
      withoutSentinels stop (max start last) rest

/-- `dataPieces`. -/
def dataPieces (command : JsString) (ranges : List DataRange) : List (ℕ × ℕ) :=
  let merged := (ranges.filterMap (clampRange command)).insertionSort (fun a b => a.1 ≤ b.1)
  let sentinels := (matchAll sentinelPattern command).map (fun m => (m.1, m.1 + m.2))
  (joinTouching merged).flatMap (fun range => withoutSentinels range.2 range.1 sentinels)

/-- `command.slice(start, stop)`. -/
def slice (command : JsString) (start stop : ℕ) : JsString := (command.take stop).drop start

/-- A command with a word in the place of each piece, from a position on. -/
def replacePieces (command : JsString) : ℕ → List (ℕ × ℕ) → List JsString → JsString
  | last, (start, stop) :: pieces, word :: words =>
    slice command last start ++ word ++ replacePieces command stop pieces words
  | last, _, _ => command.drop last

/-- Where each word stands in a command whose pieces are replaced. -/
def wordPositions (command : JsString) : ℕ → ℕ → List (ℕ × ℕ) → List JsString → List ℕ
  | offset, last, (start, stop) :: pieces, word :: words =>
    let position := offset + (slice command last start).length
    position :: wordPositions command (position + word.length) stop pieces words
  | _, _, _, _ => []

inductive ShellDialect where
  | posix
  | powershell

structure RefusedDataPlacement where
  place : JsString
  why : JsString
  fix : JsString

def noReferenceExpands : JsString :=
  js "no environment variable reference expands, so it would be pasted into the command line"

def quotedHeredocRefusal : RefusedDataPlacement where
  place := js "a here-document with a quoted delimiter"
  why := noReferenceExpands
  fix := js "use an unquoted here-document delimiter"

def powershellSingleRefusal : RefusedDataPlacement where
  place := js "PowerShell single quotes"
  why := noReferenceExpands
  fix := js "use double quotes"

def arithmeticRefusal : RefusedDataPlacement where
  place := js ("shell arithmetic ($(( )), (( )), $[ ], an array subscript or a substring offset)")
  why := js ("the shell evaluates an expanded value again as code, so a reference " ++
    "does not keep it literal")
  fix := js ("pass the value through env and check it is a number before using it in arithmetic")

structure ShellDataPlacement where
  command : JsString
  /-- The variables and their values, in the order they are set. -/
  env : List (JsString × JsString)
  refused : Option RefusedDataPlacement
  wholeCommandIsData : Bool

inductive QuoteContext where
  | unquoted
  | single
  | double

/-- The quotes that are open at a text's end; `skip` where a character is escaped. -/
def quoteAfter : (inDouble inSingle skip : Bool) → JsString → QuoteContext
  | inDouble, inSingle, _, [] =>
    if inSingle then .single else if inDouble then .double else .unquoted
  | inDouble, inSingle, true, _ :: rest => quoteAfter inDouble inSingle false rest
  | inDouble, inSingle, false, ch :: rest =>
    if ch = unit '\\' ∧ !inSingle then quoteAfter inDouble inSingle true rest
    else if ch = unit '\'' ∧ !inDouble then quoteAfter inDouble (!inSingle) false rest
    else if ch = unit '"' ∧ !inSingle then quoteAfter (!inDouble) inSingle false rest
    else quoteAfter inDouble inSingle false rest

/-- `getQuoteContext`. -/
def getQuoteContext (str : JsString) (position : ℕ) : QuoteContext :=
  quoteAfter false false false (str.take position)

/-- `${NAME}`. -/
def braced (envName : JsString) : JsString := js "$\x7b" ++ envName ++ js "\x7d"

/-- `posixDataReference`. -/
def posixDataReference (envName : JsString) : ShellContext → Option JsString
  | .double | .heredoc => some (braced envName)
  | .single => some (js "'\"" ++ braced envName ++ js "\"'")
  | .ansiC => some (js "'\"" ++ braced envName ++ js "\"$'")
  | .heredocLiteral => none
  | .unquoted => some (js "\"" ++ braced envName ++ js "\"")

/-- The reference a piece of PowerShell data gets: braced inside double quotes, so
that word characters after it are not read as part of the name. -/
def powershellDataReference (envName : JsString) : QuoteContext → JsString
  | .double => js "$\x7benv:" ++ envName ++ js "\x7d"
  | _ => js "\"$env:" ++ envName ++ js "\""

/-- How a piece is to be placed: refused, or as the reference to a name, which may
be refused too. -/
abbrev Placing := Except RefusedDataPlacement (JsString → Except RefusedDataPlacement JsString)

def placingAt (dialect : ShellDialect) (inert : JsString) (position : ℕ) : Placing :=
  match dialect with
  | .posix =>
    let ⟨context, arithmetic⟩ := (scanShell inert).getD position .unrecorded
    if arithmetic ∨ (bashArithmeticSpans inert).any
        (fun span => span.1 ≤ position && position < span.2) then .error arithmeticRefusal
    else
      .ok (fun name =>
        match posixDataReference name context with
        | some reference => .ok reference
        | none => .error quotedHeredocRefusal)
  | .powershell =>
    match getQuoteContext inert position with
    | .single => .error powershellSingleRefusal
    | quote => .ok (fun name => .ok (powershellDataReference name quote))

def generatedDataEnvPrefix : JsString := js "__SWAMP_IN_"

/-- The name of the `n`-th generated variable. -/
def generatedName (n : ℕ) : JsString := generatedDataEnvPrefix ++ decimal n

/-- The inert word of the `i`-th piece. -/
def inertWord (i : ℕ) : JsString := js "__SWAMP_DATA_" ++ decimal i ++ js "__"

/-- The variables named so far, by their texts, and the number of the next. -/
structure DataNames where
  names : List (JsString × JsString)
  next : ℕ

section Placement

variable (toUpperCase : JsString → JsString)

/-- `fold`: names are the same on PowerShell whatever their case. -/
def foldName : ShellDialect → JsString → JsString
  | .powershell, name => toUpperCase name
  | .posix, name => name

/-- The number of the first name from one on that is not taken. -/
def freeName (taken : JsString → Bool) : ℕ → ℕ → ℕ
  | 0, next => next
  | fuel + 1, next => if taken (generatedName next) then freeName taken fuel (next + 1) else next

/-- `nameFor`. -/
def nameFor (dialect : ShellDialect) (authoredEnvKeys : List JsString) (state : DataNames)
    (text : JsString) : JsString × DataNames :=
  match state.names.lookup text with
  | some name => (name, state)
  | none =>
    let taken : JsString → Bool := fun name =>
      (authoredEnvKeys.map (foldName toUpperCase dialect)).contains
        (foldName toUpperCase dialect name)
    let n := freeName taken authoredEnvKeys.length state.next
    (generatedName n, ⟨state.names ++ [(text, generatedName n)], n + 1⟩)

/-- The references of the pieces, from their texts and how each is to be placed. -/
def references (dialect : ShellDialect) (authoredEnvKeys : List JsString) :
    DataNames → List (JsString × Placing) →
      List (Except RefusedDataPlacement JsString) × DataNames
  | state, [] => ([], state)
  | state, (text, placing) :: rest =>
    match placing with
    | .error refusal =>
      let (more, state) := references dialect authoredEnvKeys state rest
      (.error refusal :: more, state)
    | .ok place =>
      let (name, state) := nameFor toUpperCase dialect authoredEnvKeys state text
      let (more, state) := references dialect authoredEnvKeys state rest
      (place name :: more, state)

/-- The first refusal of some references, or all of them. -/
def refusalOf : List (Except RefusedDataPlacement JsString) → Except RefusedDataPlacement (List JsString)
  | [] => .ok []
  | .error refusal :: _ => .error refusal
  | .ok reference :: rest => (refusalOf rest).map (reference :: ·)

/-- `placeShellData`. -/
def placeShellData (command : JsString) (ranges : List DataRange)
    (authoredEnvKeys : List JsString) (dialect : ShellDialect) : ShellDataPlacement :=
  let pieces := dataPieces command ranges
  match pieces with
  | [] => ⟨command, [], none, false⟩
  | (start, stop) :: more =>
    let wholeCommandIsData : Bool := more = [] ∧ trim (command.take start) = [] ∧
      trim (command.drop stop) = []
    let words := (List.range pieces.length).map inertWord
    let inert := replacePieces command 0 pieces words
    let placings := (wordPositions command 0 0 pieces words).map (placingAt dialect inert)
    let texts := pieces.map (fun piece => slice command piece.1 piece.2)
    let placed := references toUpperCase dialect authoredEnvKeys ⟨[], 0⟩ (texts.zip placings)
    match refusalOf placed.1 with
    | .error refusal => ⟨command, [], some refusal, wholeCommandIsData⟩
    | .ok references =>
      ⟨replacePieces command 0 pieces references,
        placed.2.names.map Prod.swap, none, wholeCommandIsData⟩

end Placement

end Shell

end Swamp
