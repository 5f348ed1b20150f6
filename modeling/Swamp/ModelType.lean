import Swamp.JsText

/-!
# Behavior types

A behavior's type is spelled in many ways and kept in one: lowercased, with `::`,
blanks and dots read as `/`, runs of `/` collapsed and none at either end.  The
lowercasing of Unicode text is `toLowerCase` throughout, a parameter.

A control-plane type is one of a fixed list, whatever `@` stands before it.
-/

namespace Js

/-- `s.startsWith(lead)`. -/
def startsWith (s lead : JsString) : Bool := lead.isPrefixOf s

/-- `s.endsWith(tail)`. -/
def endsWith (s tail : JsString) : Bool := tail.isSuffixOf s

/-- `s.replace(/::/g, "/")`. -/
def replaceColons : JsString → JsString
  | a :: b :: rest =>
    if a = unit ':' ∧ b = unit ':' then unit '/' :: replaceColons rest
    else a :: replaceColons (b :: rest)
  | s => s

/-- Each run of units that satisfy `p` becomes one `/`; `inRun` says whether a
run is open. -/
def replaceRuns (p : CodeUnit → Bool) (inRun : Bool) : JsString → JsString
  | [] => []
  | u :: rest =>
    if p u then
      if inRun then replaceRuns p true rest else unit '/' :: replaceRuns p true rest
    else u :: replaceRuns p false rest

/-- `s.replace(/^\/|\/$/g, "")`. -/
def stripSlashes (s : JsString) : JsString :=
  let left := if s.head? = some (unit '/') then s.tail else s
  if left.getLast? = some (unit '/') then left.dropLast else left

end Js

namespace Swamp

open Js

/-- A behavior's type: as written, and in its one spelling. -/
structure ModelType where
  raw : JsString
  normalized : JsString
deriving DecidableEq

/-- Why a text is no type. -/
inductive ModelTypeError where
  | empty
  | onlySeparators
deriving DecidableEq

section

variable (toLowerCase : JsString → JsString)

/-- `ModelType.normalize`. -/
def ModelType.normalize (raw : JsString) : JsString :=
  let lowered := toLowerCase raw
  let slashed := (replaceRuns isBlank false (replaceColons lowered)).map
    (fun u => if u = unit '.' then unit '/' else u)
  stripSlashes (replaceRuns (· = unit '/') false slashed)

/-- `ModelType.create`. -/
def ModelType.create (rawType : JsString) : Except ModelTypeError ModelType :=
  let trimmed := trim rawType
  if trimmed = [] then .error .empty
  else
    let normalized := ModelType.normalize toLowerCase trimmed
    if normalized = [] then .error .onlySeparators else .ok ⟨trimmed, normalized⟩

/-- `ModelType.isUserNamespace`. -/
def ModelType.isUserNamespace (normalized : JsString) : Bool := startsWith normalized (js "@")

/-- `ModelType.getUserNamespace`. -/
def ModelType.getUserNamespace (normalized : JsString) : Option JsString :=
  if ModelType.isUserNamespace normalized then
    some (normalized.tail.takeWhile (fun u => u ≠ unit '/'))
  else none

/-- The types of control-plane records. -/
def CONTROL_PLANE_MODEL_TYPES : List JsString :=
  [js "swamp/enrollment-token", js "swamp/worker", js "swamp/step-lease",
   js "swamp/pending-dispatch", js "swamp/fleet-probe", js "swamp/server-token",
   js "swamp/grant", js "swamp/group"]

/-- `normalizeModelTypeName`: the one spelling of a type, without what stands
before its name. -/
def normalizeModelTypeName (type : JsString) : Option JsString :=
  match ModelType.create toLowerCase type with
  | .error _ => none
  | .ok created =>
    let stripped := created.normalized.dropWhile (fun u => u = unit '@' || u = unit '/')
    if stripped = [] then none else some stripped

/-- `isControlPlaneModelType`. -/
def isControlPlaneModelType (type : JsString) : Bool :=
  match normalizeModelTypeName toLowerCase type with
  | none => false
  | some normalized => CONTROL_PLANE_MODEL_TYPES.contains normalized

end

/-- The lowercasing of a text of the basic Latin letters. -/
def latinLower (s : JsString) : JsString :=
  s.map (fun u => if 65 ≤ u.val ∧ u.val ≤ 90 then Fin.ofNat 65536 (u.val + 32) else u)

theorem latinLower_idem (s : JsString) : latinLower (latinLower s) = latinLower s := by
  unfold latinLower
  rw [List.map_map]
  apply List.map_congr_left
  intro u _
  rw [Function.comp_apply]
  by_cases h : 65 ≤ u.val ∧ u.val ≤ 90
  · rw [if_pos h, if_neg]
    simp only [Fin.ofNat]
    omega
  · rw [if_neg h, if_neg h]

example : (ModelType.create latinLower (js " AWS::EC2  VPC. ")).toOption.map ModelType.normalized =
    some (js "aws/ec2/vpc") := by decide

end Swamp
