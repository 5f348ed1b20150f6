import Swamp.JsText

/-!
# The contexts of a shell command

`scanShellPositions` reads a posix command once and tells of each position what
quoting it is in, and whether it is inside arithmetic.  It follows quotes,
substitutions, arithmetic, comments and here-documents; a step reads one or more
characters and records the context of each, and a character no step records is
unquoted.
-/

namespace Swamp

namespace Shell

open Js

inductive ShellContext where
  | unquoted
  | double
  | single
  | ansiC
  | heredoc
  | heredocLiteral

/-- What is open around a position, the innermost first. -/
inductive Frame where
  | top
  | cmdsub (parens : ℤ)
  | backtick
  | arith (parens : ℤ) (inDouble : Bool)
deriving DecidableEq

structure PendingHeredoc where
  delimiter : JsString
  quoted : Bool
  stripTabs : Bool

structure ShellPosition where
  context : ShellContext
  arithmetic : Bool

/-- What is recorded of a character that no step records. -/
def ShellPosition.unrecorded : ShellPosition := ⟨.unquoted, false⟩

inductive Quote where
  | none
  | double
  | single
  | ansiC
deriving DecidableEq

/-- The state of a scan. -/
structure Scan where
  frames : List Frame
  quote : Quote
  /-- Whether the quote around each open substitution is a double one. -/
  quoteStack : List Bool
  pending : List PendingHeredoc
  wordStart : Bool

/-- Where a scan starts. -/
def Scan.start : Scan := ⟨[.top], .none, [], [], true⟩

namespace Scan

/-- The innermost frame. -/
def frame (self : Scan) : Frame := self.frames.headD .top

def Frame.isArith : Frame → Bool
  | .arith _ _ => true
  | _ => false

/-- Whether a position is inside arithmetic. -/
def arithmetic (self : Scan) : Bool := self.frames.any Frame.isArith

/-- `record`, of the next `n` characters. -/
def record (self : Scan) (n : ℕ) (context : ShellContext) : List ShellPosition :=
  List.replicate n ⟨context, self.arithmetic⟩

/-- Leave the innermost frame. -/
def pop (self : Scan) : Scan := { self with frames := self.frames.tail }

def push (self : Scan) (frame : Frame) : Scan := { self with frames := frame :: self.frames }

/-- The innermost frame in the place of the one there. -/
def setFrame (self : Scan) (frame : Frame) : Scan := self.pop.push frame

/-- Open a substitution, and keep the quote around it. -/
def substitute (self : Scan) (frame : Frame) : Scan :=
  { self.push frame with quote := .none, quoteStack := decide (self.quote = .double) :: self.quoteStack }

/-- Close a substitution. -/
def close (self : Scan) : Scan :=
  { self.pop with
    quote := if self.quoteStack.headD false then .double else .none
    quoteStack := self.quoteStack.tail }

end Scan

/-- `/[\s;&|<>()]/`. -/
def endsDelimiter (u : CodeUnit) : Bool :=
  isBlank u || u = unit ';' || u = unit '&' || u = unit '|' || u = unit '<' || u = unit '>' ||
    u = unit '(' || u = unit ')'

/-- `/[\s;&|()]/`. -/
def startsWord (u : CodeUnit) : Bool :=
  isBlank u || u = unit ';' || u = unit '&' || u = unit '|' || u = unit '(' || u = unit ')'

/-- Where in a delimiter its reading is. -/
inductive DelimiterMode where
  | plain
  | quoted (close : CodeUnit)
  | escaped

/-- The delimiter at the front of a text, whether any of it is quoted, and how
many characters it takes. -/
def readDelimiter : DelimiterMode → JsString → JsString × Bool × ℕ
  | _, [] => ([], false, 0)
  | .plain, ch :: rest =>
    if endsDelimiter ch then ([], false, 0)
    else if ch = unit '\'' ∨ ch = unit '"' then
      let (delimiter, _, n) := readDelimiter (.quoted ch) rest
      (delimiter, true, n + 1)
    else if ch = unit '\\' then
      let (delimiter, _, n) := readDelimiter .escaped rest
      (delimiter, true, n + 1)
    else
      let (delimiter, quoted, n) := readDelimiter .plain rest
      (ch :: delimiter, quoted, n + 1)
  | .quoted close, ch :: rest =>
    if ch = close then
      let (delimiter, quoted, n) := readDelimiter .plain rest
      (delimiter, quoted, n + 1)
    else
      let (delimiter, quoted, n) := readDelimiter (.quoted close) rest
      (ch :: delimiter, quoted, n + 1)
  | .escaped, ch :: rest =>
    let (delimiter, quoted, n) := readDelimiter .plain rest
    (ch :: delimiter, quoted, n + 1)

/-- `parseHeredocOperator`, of the text after `<<`; how many characters it takes. -/
def parseHeredocOperator (text : JsString) : Option (PendingHeredoc × ℕ) :=
  let stripTabs : Bool := text.head? = some (unit '-')
  let text' := if stripTabs then text.tail else text
  let blanks := (text'.takeWhile (fun u => u = unit ' ' || u = unit '\t')).length
  let (delimiter, quoted, n) := readDelimiter .plain (text'.drop blanks)
  if delimiter = [] then none
  else some (⟨delimiter, quoted, stripTabs⟩, stripTabs.toNat + blanks + n)

/-- The lines of a text. -/
def lines : JsString → List JsString
  | [] => [[]]
  | u :: rest =>
    if u = unit '\n' then [] :: lines rest
    else
      match lines rest with
      | [] => [[u]]
      | line :: more => (u :: line) :: more

/-- A line that closes a here-document. -/
def PendingHeredoc.closes (self : PendingHeredoc) (line : JsString) : Bool :=
  (if self.stripTabs then line.dropWhile (· = unit '\t') else line) = self.delimiter

/-- How long the body of a here-document is, and how long the line that closes it. -/
def PendingHeredoc.body (self : PendingHeredoc) : List JsString → ℕ × ℕ
  | [] => (0, 0)
  | [line] => if self.closes line then (0, line.length) else (line.length, 0)
  | line :: rest =>
    if self.closes line then (0, line.length + 1)
    else
      let (body, closing) := self.body rest
      (line.length + 1 + body, closing)

/-- The here-documents that are pending at a line's end, one after another. -/
def readHeredocs (state : Scan) : List PendingHeredoc → JsString → List ShellPosition × JsString
  | [], text => ([], text)
  | doc :: docs, text =>
    let (body, closing) := doc.body (lines text)
    let (positions, rest) := readHeredocs state docs (text.drop (body + closing))
    (state.record body (if doc.quoted then .heredocLiteral else .heredoc) ++
      List.replicate closing .unrecorded ++ positions, rest)

/-- What a step records, where it leaves the scan, and what is still to be read. -/
abbrev Stepped := List ShellPosition × Scan × JsString

/-- Inside `$'…'`. -/
def stepAnsiC (state : Scan) (ch : CodeUnit) (rest : JsString) : Stepped :=
  if ch = unit '\\' then (state.record 2 .ansiC, state, rest.tail)
  else (state.record 1 .ansiC, if ch = unit '\'' then { state with quote := .none } else state, rest)

/-- Inside double quotes. -/
def stepDouble (state : Scan) (ch : CodeUnit) (rest : JsString) : Stepped :=
  if ch = unit '"' then (state.record 1 .double, { state with quote := .none }, rest)
  else if ch = unit '$' ∧ rest.take 2 = js "((" then
    (state.record 3 .double, { state.push (.arith 0 true) with quote := .none }, rest.drop 2)
  else if ch = unit '$' ∧ rest.head? = some (unit '(') then
    (state.record 1 .double ++ [.unrecorded],
      { state.substitute (.cmdsub 0) with wordStart := true }, rest.tail)
  else if ch = unit '\x60' then
    (state.record 1 .double, { state.substitute .backtick with wordStart := true }, rest)
  else (state.record 1 .double, state, rest)

/-- Inside arithmetic. -/
def stepArith (state : Scan) (parens : ℤ) (inDouble : Bool) (ch : CodeUnit) (rest : JsString) :
    Stepped :=
  let context : ShellContext := if inDouble then .double else .unquoted
  if ch = unit '(' then
    (state.record 1 context, state.setFrame (.arith (parens + 1) inDouble), rest)
  else if ch = unit ')' then
    if parens = 0 ∧ rest.head? = some (unit ')') then
      (state.record 2 context,
        if inDouble then { state.pop with quote := .double } else state.pop, rest.tail)
    else (state.record 1 context, state.setFrame (.arith (parens - 1) inDouble), rest)
  else (state.record 1 context, state, rest)

/-- An operator of here-documents or here-strings, or any other character. -/
def stepOperator (state : Scan) (ch : CodeUnit) (rest : JsString) : Stepped :=
  let other : Stepped := (state.record 1 .unquoted, { state with wordStart := startsWord ch }, rest)
  if ch = unit '<' ∧ rest.head? = some (unit '<') then
    if rest.tail.head? = some (unit '<') then
      (state.record 3 .unquoted, { state with wordStart := true }, rest.drop 2)
    else
      match parseHeredocOperator rest.tail with
      | some (doc, n) =>
        (state.record (2 + n) .unquoted,
          { state with pending := state.pending ++ [doc], wordStart := false }, rest.tail.drop n)
      | none => other
  else other

/-- The parentheses of a command substitution. -/
def stepParens (state : Scan) (ch : CodeUnit) (rest : JsString) : Stepped :=
  match state.frame with
  | .cmdsub parens =>
    if ch = unit '(' then
      (state.record 1 .unquoted,
        { state.setFrame (.cmdsub (parens + 1)) with wordStart := false }, rest)
    else if ch = unit ')' then
      if parens = 0 then
        (state.record 1 .unquoted, { state.close with wordStart := false }, rest)
      else
        (state.record 1 .unquoted,
          { state.setFrame (.cmdsub (parens - 1)) with wordStart := false }, rest)
    else stepOperator state ch rest
  | _ => stepOperator state ch rest

/-- Outside quotes and arithmetic. -/
def stepPlain (state : Scan) (ch : CodeUnit) (rest : JsString) : Stepped :=
  if ch = unit '#' ∧ state.wordStart then
    let comment := rest.takeWhile (· ≠ unit '\n')
    (state.record (comment.length + 1) .unquoted, state, rest.drop comment.length)
  else if ch = unit '\'' then
    (state.record 1 .single, { state with quote := .single, wordStart := false }, rest)
  else if ch = unit '$' ∧ rest.head? = some (unit '\'') then
    (state.record 2 .ansiC, { state with quote := .ansiC, wordStart := false }, rest.tail)
  else if ch = unit '"' then
    (state.record 1 .double, { state with quote := .double, wordStart := false }, rest)
  else if ch = unit '(' ∧ rest.head? = some (unit '(') ∧ state.wordStart then
    -- At a command's start `<<` is a shift, not a here-document.
    let state := state.push (.arith 0 false)
    (state.record 2 .unquoted, state, rest.tail)
  else if ch = unit '$' ∧ rest.take 2 = js "((" then
    let state := state.push (.arith 0 false)
    (state.record 3 .unquoted, state, rest.drop 2)
  else if ch = unit '$' ∧ rest.head? = some (unit '(') then
    let state := { state.substitute (.cmdsub 0) with wordStart := true }
    (state.record 2 .unquoted, state, rest.tail)
  else if ch = unit '\x60' then
    (state.record 1 .unquoted,
      if state.frame = .backtick then state.close else state.substitute .backtick, rest)
  else stepParens state ch rest

/-- One step of the scan. -/
def step (state : Scan) (ch : CodeUnit) (rest : JsString) : Stepped :=
  if state.quote = .single then
    (state.record 1 .single,
      if ch = unit '\'' then { state with quote := .none } else state, rest)
  else if state.quote = .ansiC then stepAnsiC state ch rest
  else if ch = unit '\n' ∧ state.quote = .none ∧ state.pending ≠ [] then
    let (positions, rest) := readHeredocs state state.pending rest
    (.unrecorded :: positions, { state with pending := [], wordStart := true }, rest)
  else if ch = unit '\\' then
    let context : ShellContext :=
      match state.quote, state.frame with
      | .double, _ => .double
      | _, .arith _ true => .double
      | _, _ => .unquoted
    (state.record 2 context, { state with wordStart := false }, rest.tail)
  else if state.quote = .double then stepDouble state ch rest
  else
    match state.frame with
    | .arith parens inDouble => stepArith state parens inDouble ch rest
    | _ => stepPlain state ch rest

/-- The positions of a command, one after another. -/
def scan : ℕ → Scan → JsString → List ShellPosition
  | 0, _, _ => []
  | _ + 1, _, [] => []
  | fuel + 1, state, ch :: rest =>
    let (positions, state, rest) := step state ch rest
    positions ++ scan fuel state rest

/-- Every character of a command. -/
def scanShell (command : JsString) : List ShellPosition := scan command.length .start command

end Shell

end Swamp
