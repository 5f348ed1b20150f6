import Swamp.LiteralMatch
import Swamp.ModelType

/-!
# Expressions in a text

`scanExpressions` finds the `${{ … }}` spans of a text.  A span ends at the
first `}}` after its opener, unless a walk that knows the string literals and
comments of CEL ends it elsewhere and only the text up to there parses; whether
a text parses is `parsesAsCel`, a parameter.
-/

namespace Swamp

namespace ExpressionScanner

open Js LiteralMatch

inductive LexState where
  | code
  | single
  | double
  | tripleSingle
  | tripleDouble
  | comment
deriving DecidableEq

/-- Where the lexer is after one step, and in what state; none is `LEX_ERROR`. -/
def lexStep (text : JsString) (pos : ℕ) (state : LexState) : Option (ℕ × LexState) :=
  let ch := text[pos]?
  let escaped : Option (ℕ × LexState) :=
    if pos + 2 ≤ text.length then some (pos + 2, state) else none
  match state with
  | .code =>
    if ch = some (unit '\'') ∨ ch = some (unit '"') then
      if text[pos + 1]? = ch ∧ text[pos + 2]? = ch then
        some (pos + 3, if ch = some (unit '\'') then .tripleSingle else .tripleDouble)
      else some (pos + 1, if ch = some (unit '\'') then .single else .double)
    else if ch = some (unit '/') ∧ text[pos + 1]? = some (unit '/') then some (pos + 2, .comment)
    else some (pos + 1, .code)
  | .single | .double =>
    let quote := if state = .single then unit '\'' else unit '"'
    if ch = some (unit '\\') then escaped
    else if ch = some quote then some (pos + 1, .code)
    else if ch = some (unit '\n') ∨ ch = some (unit '\r') then none
    else some (pos + 1, state)
  | .tripleSingle | .tripleDouble =>
    let quote := if state = .tripleSingle then unit '\'' else unit '"'
    if ch = some (unit '\\') then escaped
    else if ch = some quote ∧ text[pos + 1]? = some quote ∧ text[pos + 2]? = some quote then
      some (pos + 3, .code)
    else some (pos + 1, state)
  | .comment => some (pos + 1, if ch = some (unit '\n') then .code else .comment)

def OPENER : JsString := js "$\x7b\x7b"

def CLOSER : JsString := js "\x7d\x7d"

/-- `text.slice(start, stop)`. -/
def slice (text : JsString) (start stop : ℕ) : JsString := (text.take stop).drop start

/-- `ExpressionSpan`; `stop` is where it ends. -/
structure ExpressionSpan where
  start : ℕ
  stop : ℕ
  raw : JsString
  inner : JsString
deriving DecidableEq

/-- A walk from `pos`: where it closes the expression opened at `openAt`, and the
positions and states it visited.  A step goes forward, so as much fuel as there is
text left is enough. -/
def walkFrom (value : JsString) (openAt : ℕ) (rejected : List (ℕ × LexState)) :
    ℕ → ℕ → LexState → List (ℕ × LexState) → Option ℕ × List (ℕ × LexState)
  | 0, _, _, visited => (none, visited)
  | fuel + 1, pos, state, visited =>
    if value.length ≤ pos then (none, visited)
    else if (pos, state) ∈ rejected then (none, visited)
    else if (state = .code ∨ state = .comment) ∧ openAt < pos ∧
        startsWith (value.drop pos) CLOSER = true then
      (some pos, visited ++ [(pos, state)])
    else
      match lexStep value pos state with
      | none => (none, visited ++ [(pos, state)])
      | some (pos', state') =>
        walkFrom value openAt rejected fuel pos' state' (visited ++ [(pos, state)])

def walkToClose (value : JsString) (openAt : ℕ) (rejected : List (ℕ × LexState)) :
    Option ℕ × List (ℕ × LexState) :=
  walkFrom value openAt rejected (value.length - openAt) openAt .code []

section

variable (parsesAsCel : JsString → Bool)

def parses (text : JsString) : Bool := parsesAsCel (trim text)

/-- Where the expression opened at `openAt` closes, and what is rejected after. -/
def chooseClose (value : JsString) (openAt legacy : ℕ) (rejected : List (ℕ × LexState)) :
    ℕ × List (ℕ × LexState) :=
  let (walked, visited) := walkToClose value openAt rejected
  match walked with
  | some walked =>
    if walked = legacy then (legacy, rejected)
    else if parses parsesAsCel (slice value openAt legacy) then (legacy, rejected ++ visited)
    else if parses parsesAsCel (slice value openAt walked) then (walked, rejected)
    else (legacy, rejected ++ visited)
  | none => (legacy, rejected ++ visited)

/-- The spans from `start` on. -/
def scanFrom (value : JsString) : ℕ → ℕ → List (ℕ × LexState) → List ExpressionSpan
  | 0, _, _ => []
  | fuel + 1, start, rejected =>
    match indexOf value OPENER start with
    | none => []
    | some start =>
      let openAt := start + OPENER.length
      match indexOf value CLOSER (openAt + 1) with
      | none => []
      | some legacy =>
        let (close, rejected) := chooseClose parsesAsCel value openAt legacy rejected
        let stop := close + CLOSER.length
        ⟨start, stop, slice value start stop, trim (slice value openAt close)⟩ ::
          scanFrom value fuel stop rejected

/-- `value.includes(part)`. -/
def includes (value part : JsString) : Bool := (indexOf value part 0).isSome

def scanExpressions (value : JsString) : List ExpressionSpan :=
  if includes value OPENER then scanFrom parsesAsCel value value.length 0 [] else []

end

/-- The text from `last` on with each of the spans replaced. -/
def spliceFrom (value : JsString) (replace : ExpressionSpan → JsString) :
    ℕ → List ExpressionSpan → JsString
  | last, [] => value.drop last
  | last, span :: rest =>
    slice value last span.start ++ replace span ++ spliceFrom value replace span.stop rest

def replaceExpressionSpans (parsesAsCel : JsString → Bool) (value : JsString)
    (replace : ExpressionSpan → JsString) : JsString :=
  match scanExpressions parsesAsCel value with
  | [] => value
  | spans => spliceFrom value replace 0 spans

/-- The spans stand one after the other in the text, from `start` on. -/
def Laid (value : JsString) : ℕ → List ExpressionSpan → Prop
  | start, [] => start ≤ value.length
  | start, span :: rest => start ≤ span.start ∧ span.start < span.stop ∧ Laid value span.stop rest

theorem opener_length : OPENER.length = 3 := rfl

variable {pos : ℕ} {state : LexState}

variable {fuel : ℕ}

theorem walkFrom_close {value : JsString} {openAt close : ℕ}
    {rejected visited visited' : List (ℕ × LexState)}
    (h : walkFrom value openAt rejected fuel pos state visited = (some close, visited')) :
    openAt < close ∧ close + CLOSER.length ≤ value.length := by
  induction fuel generalizing pos state visited with
  | zero => cases h
  | succ fuel ih =>
    rw [walkFrom] at h
    by_cases hend : value.length ≤ pos
    · rw [if_pos hend] at h
      cases h
    rw [if_neg hend] at h
    by_cases hrejected : (pos, state) ∈ rejected
    · rw [if_pos hrejected] at h
      cases h
    rw [if_neg hrejected] at h
    by_cases hclose : (state = .code ∨ state = .comment) ∧ openAt < pos ∧
        startsWith (value.drop pos) CLOSER = true
    · rw [if_pos hclose] at h
      cases h
      have hstands := (List.isPrefixOf_iff_prefix.mp hclose.2.2).length_le
      rw [List.length_drop] at hstands
      exact ⟨hclose.2.1, by omega⟩
    · rw [if_neg hclose] at h
      cases hstep : lexStep value pos state with
      | none =>
        rw [hstep] at h
        cases h
      | some next =>
        rw [hstep] at h
        exact ih h

section

variable {parsesAsCel : JsString → Bool}

theorem chooseClose_within {value : JsString} {openAt legacy : ℕ}
    {rejected : List (ℕ × LexState)} (hopen : openAt < legacy)
    (hlegacy : legacy + CLOSER.length ≤ value.length) :
    openAt < (chooseClose parsesAsCel value openAt legacy rejected).1 ∧
      (chooseClose parsesAsCel value openAt legacy rejected).1 + CLOSER.length ≤ value.length := by
  unfold chooseClose
  cases hwalk : walkToClose value openAt rejected with
  | mk walked visited =>
    cases walked with
    | none => exact ⟨hopen, hlegacy⟩
    | some walked =>
      have hwalked := walkFrom_close hwalk
      dsimp only
      split_ifs
      · exact ⟨hopen, hlegacy⟩
      · exact ⟨hopen, hlegacy⟩
      · exact hwalked
      · exact ⟨hopen, hlegacy⟩

variable {start : ℕ}

/-- The place of an opener or a closer. -/
theorem indexOf_within {value part : JsString} {place : ℕ} (hpart : 0 < part.length)
    (h : indexOf value part start = some place) :
    start ≤ place ∧ place + part.length ≤ value.length := by
  by_cases hstart : start ≤ value.length
  · obtain ⟨hle, hend, _⟩ := indexOf_some hstart h
    exact ⟨hle, hend⟩
  · have hmin : min start value.length = value.length := min_eq_right (by omega)
    have hsame : indexOf value part value.length = some place := by
      rw [← h, indexOf, indexOf, hmin, min_self]
    obtain ⟨hle, hend, _⟩ := indexOf_some (le_refl _) hsame
    omega

theorem scanFrom_laid {value : JsString} {rejected : List (ℕ × LexState)}
    (hstart : start ≤ value.length) :
    Laid value start (scanFrom parsesAsCel value fuel start rejected) := by
  induction fuel generalizing start rejected with
  | zero => exact hstart
  | succ fuel ih =>
    rw [scanFrom]
    cases hopen : indexOf value OPENER start with
    | none => exact hstart
    | some place =>
      obtain ⟨hle, hplace⟩ := indexOf_within (by decide) hopen
      cases hclose : indexOf value CLOSER (place + OPENER.length + 1) with
      | none =>
        simp only [hclose]
        exact hstart
      | some legacy =>
        simp only [hclose]
        obtain ⟨hafter, hlegacy⟩ := indexOf_within (by decide) hclose
        obtain ⟨hbetween, hwithin⟩ :=
          @chooseClose_within parsesAsCel value (place + OPENER.length) legacy rejected
            (by omega) hlegacy
        exact ⟨hle, by simp only; omega, ih hwithin⟩

/-- **The spans of a text stand one after the other in it.** -/
theorem scanExpressions_laid (value : JsString) :
    Laid value 0 (scanExpressions parsesAsCel value) := by
  unfold scanExpressions
  split_ifs
  · exact scanFrom_laid (Nat.zero_le _)
  · exact Nat.zero_le _

/-- **A scan always ends**: fuel beyond the text left changes nothing. -/
theorem scanFrom_fuel {value : JsString} {rejected : List (ℕ × LexState)}
    (h : value.length ≤ start + fuel) (more : ℕ) :
    scanFrom parsesAsCel value (fuel + more) start rejected =
      scanFrom parsesAsCel value fuel start rejected := by
  induction fuel generalizing start rejected with
  | zero =>
    cases more with
    | zero => rfl
    | succ more =>
      rw [Nat.zero_add, scanFrom, scanFrom]
      cases hopen : indexOf value OPENER start with
      | none => rfl
      | some place =>
        have hplace := indexOf_within (by decide) hopen
        rw [opener_length] at hplace
        omega
  | succ fuel ih =>
    rw [Nat.succ_add, scanFrom, scanFrom]
    cases hopen : indexOf value OPENER start with
    | none => rfl
    | some place =>
      obtain ⟨hle, hplace⟩ := indexOf_within (by decide) hopen
      cases hclose : indexOf value CLOSER (place + OPENER.length + 1) with
      | none => simp only [hclose]
      | some legacy =>
        simp only [hclose]
        obtain ⟨hafter, hlegacy⟩ := indexOf_within (by decide) hclose
        have hbetween := (@chooseClose_within parsesAsCel value (place + OPENER.length) legacy
          rejected (by omega) hlegacy).1
        rw [ih (by omega)]

/-- The literal texts from `start` on, around the spans. -/
def literalsFrom (value : JsString) : ℕ → List ExpressionSpan → List JsString
  | start, [] => [value.drop start]
  | start, span :: rest => slice value start span.start :: literalsFrom value span.stop rest

variable {spans : List ExpressionSpan}

theorem spliceFrom_eq {value : JsString} {replace : ExpressionSpan → JsString} {first : JsString}
    {rest : List JsString} (h : literalsFrom value start spans = first :: rest) :
    rest.length = spans.length ∧
      spliceFrom value replace start spans = first ++ interleave (spans.map replace) rest := by
  induction spans generalizing start first rest with
  | nil =>
    cases h
    exact ⟨rfl, by simp [spliceFrom]⟩
  | cons span spans ih =>
    rw [literalsFrom] at h
    injection h with hfirst hrest
    subst hfirst
    cases hnext : literalsFrom value span.stop spans with
    | nil => cases spans <;> cases hnext
    | cons second more =>
      obtain ⟨hlength, hsplice⟩ := ih hnext
      rw [hnext] at hrest
      subst hrest
      refine ⟨by rw [List.length_cons, List.length_cons, hlength], ?_⟩
      rw [spliceFrom, hsplice, List.map_cons, interleave_cons]
      simp only [List.append_assoc]

/-- **Replacing the expressions keeps the literal text between them.** -/
theorem replaceExpressionSpans_eq {value : JsString} {replace : ExpressionSpan → JsString}
    {first : JsString} {rest : List JsString}
    (h : literalsFrom value 0 (scanExpressions parsesAsCel value) = first :: rest) :
    replaceExpressionSpans parsesAsCel value replace =
      first ++ interleave ((scanExpressions parsesAsCel value).map replace) rest := by
  rw [← (spliceFrom_eq h).2, replaceExpressionSpans]
  cases hscan : scanExpressions parsesAsCel value with
  | nil | cons span spans => rfl

/-- A text without an opener holds no expression. -/
theorem scanExpressions_none {value : JsString} (h : includes value OPENER = false) :
    scanExpressions parsesAsCel value = [] := by
  rw [scanExpressions, h]
  rfl

/-- Laid spans begin inside the text. -/
theorem Laid.le {value : JsString} (h : Laid value start spans) : start ≤ value.length := by
  induction spans generalizing start with
  | nil => exact h
  | cons span rest ih =>
    obtain ⟨hstart, hspan, hrest⟩ := h
    exact (hstart.trans hspan.le).trans (ih hrest)

theorem scanFrom_raw {value : JsString} {rejected : List (ℕ × LexState)} :
    ∀ span ∈ scanFrom parsesAsCel value fuel start rejected,
      span.raw = slice value span.start span.stop := by
  induction fuel generalizing start rejected with
  | zero => exact fun span hspan => absurd hspan List.not_mem_nil
  | succ fuel ih =>
    rw [scanFrom]
    cases indexOf value OPENER start with
    | none => exact fun span hspan => absurd hspan List.not_mem_nil
    | some place =>
      cases hclose : indexOf value CLOSER (place + OPENER.length + 1) with
      | none =>
        simp only [hclose]
        exact fun span hspan => absurd hspan List.not_mem_nil
      | some legacy =>
        simp only [hclose]
        intro span hspan
        rcases List.mem_cons.mp hspan with rfl | hspan
        · rfl
        · exact ih span hspan

/-- The text of a span is what stands there. -/
theorem scanExpressions_raw {value : JsString} {span : ExpressionSpan}
    (h : span ∈ scanExpressions parsesAsCel value) :
    span.raw = slice value span.start span.stop := by
  unfold scanExpressions at h
  split at h
  · exact scanFrom_raw span h
  · cases h

/-- Later spans start later. -/
theorem Laid.nodup {value : JsString} (h : Laid value start spans) :
    spans.Nodup ∧ ∀ span ∈ spans, start ≤ span.start := by
  induction spans generalizing start with
  | nil => exact ⟨List.nodup_nil, fun _ hspan => by cases hspan⟩
  | cons span rest ih =>
    obtain ⟨hstart, hstop, hrest⟩ := h
    obtain ⟨hnodup, hafter⟩ := ih hrest
    refine ⟨List.nodup_cons.mpr ⟨?_, hnodup⟩, ?_⟩
    · intro hmem
      have hle := hafter span hmem
      omega
    · intro other hother
      rcases List.mem_cons.mp hother with rfl | hother
      · exact hstart
      · have hle := hafter other hother
        omega

end

end ExpressionScanner

end Swamp
