import Swamp.RepositoryChanges

/-!
# Which version is the latest

A rebased version becomes the latest only if it was observed more than a window
after the current latest, else the current one is restated under a higher
number.  A restatement names the version it restates in a tag, and its time is
that of its source; a time is never read from a tag.
-/

namespace Swamp

open Js

/-- Five minutes. -/
def LATEST_WINDOW_MS : ℚ := 5 * 60000

/-- The tag of a version that restates another one. -/
def RESTATES_TAG : JsString := js "_swamp.restates"

/-- The longest chain of restatements that is followed. -/
def MAX_RESTATEMENT_DEPTH : ℕ := 64

/-- When a version was committed and created, and its tags. -/
structure VersionObservation where
  committedAt : Option JsString
  createdAt : JsString
  tags : Option (List (JsString × JsString))

/-- Whether a text is a positive number without leading zeros. -/
def isPositiveDecimal (s : JsString) : Bool :=
  match s with
  | [] => false
  | u :: rest => 49 ≤ u.val && u.val ≤ 57 && rest.all (fun v => 48 ≤ v.val && v.val ≤ 57)

/-- `restatedVersionOf`. -/
def restatedVersionOf (tags : Option (List (JsString × JsString))) : Option ℕ :=
  match (tags.getD []).lookup RESTATES_TAG with
  | none => none
  | some raw => if isPositiveDecimal raw then (number raw).positive else none

section Lookup

variable (platform : Platform) (lookup : ℕ → Option VersionObservation)

/-- The restatement chain from a version on, at most `depth` links of it. -/
def sourceFrom : ℕ → ℕ → Finset ℕ → ℕ
  | 0, current, _ => current
  | depth + 1, current, seen =>
    match restatedVersionOf ((lookup current).bind VersionObservation.tags) with
    | none => current
    | some restated =>
      if restated ∈ seen ∨ lookup restated = none then current
      else sourceFrom depth restated (insert restated seen)

/-- `sourceVersionOf`: a chain that loops, runs too long or names an unknown
version ends at the last version it could read. -/
def sourceVersionOf (version : ℕ) : ℕ :=
  sourceFrom lookup MAX_RESTATEMENT_DEPTH version {version}

/-- `observationTimeOf`: the earlier of the commit's and the creation's time of
the source. -/
def observationTimeOf (version : ℕ) : Option ℚ :=
  match lookup (sourceVersionOf lookup version) with
  | none => none
  | some source =>
    match source.committedAt.bind platform.dateParse, platform.dateParse source.createdAt with
    | some committed, some created => some (min committed created)
    | some committed, none => some committed
    | none, created => created

end Lookup

/-- `correctedExecutionTime`. -/
def correctedExecutionTime (platform : Platform) (executedAt : JsString)
    (clockOffsetMs : Option ℚ) : Option ℚ :=
  (platform.dateParse executedAt).map (fun ms => ms + clockOffsetMs.getD 0)

/-- The latest that is chosen. -/
inductive LatestChoice where
  | rebased
  | current

/-- `chooseLatest`: a latest of no known time gives way, and a write of no known
time never displaces a latest that has one. -/
def chooseLatest (rebasedObservedAt currentObservedAt : Option ℚ) (windowMs : Option ℚ) :
    LatestChoice :=
  match currentObservedAt, rebasedObservedAt with
  | none, _ => .rebased
  | some _, none => .current
  | some current, some rebased =>
    if rebased - current > windowMs.getD LATEST_WINDOW_MS then .rebased else .current

end Swamp
