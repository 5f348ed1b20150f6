import Swamp.JsText

/-!
# What a query predicate pushes down

A query's predicate is a CEL expression.  Some equalities of it are pushed down
as conditions on columns: only those that are conjuncts of the whole predicate,
so that each must hold of a row for the predicate to be true of it.
-/

namespace Swamp

namespace Query

open Js

/-- A parsed CEL expression, by its operators. -/
inductive Ast where
  | id (name : JsString)
  | value (v : Json)
  | member (object : Ast) (field : JsString)
  | optMember (object : Ast) (field : JsString)
  | index (object key : Ast)
  | optIndex (object key : Ast)
  | call (name : JsString) (args : List Ast)
  | rcall (name : JsString) (receiver : Ast) (args : List Ast)
  | cond (test yes no : Ast)
  | not (operand : Ast)
  | neg (operand : Ast)
  | list (items : List Ast)
  /-- The keys and values in turn. -/
  | map (entries : List Ast)
  | and (left right : Ast)
  | eq (left right : Ast)
  | binary (op : JsString) (left right : Ast)

def QUERY_FIELDS : List JsString :=
  [js "id", js "name", js "version", js "isLatest", js "createdAt", js "attributes", js "tags",
    js "modelName", js "behaviorName", js "modelId", js "modelType", js "specName", js "dataType",
    js "contentType", js "lifetime", js "garbageCollection", js "lifecycle", js "ownerType",
    js "streaming", js "size", js "content", js "ownerRef", js "workflowRunId", js "workflowName",
    js "jobName", js "stepName", js "source", js "ns"]

/-- The fields that open the history of a name. -/
def HISTORY_OPT_IN_FIELDS : List JsString := [js "version", js "isLatest"]

def CEL_BUILTINS : List JsString :=
  [js "true", js "false", js "null", js "has", js "size", js "int", js "uint", js "double",
    js "string", js "bool", js "bytes", js "type", js "list", js "map", js "duration",
    js "timestamp", js "matches", js "contains", js "startsWith", js "endsWith"]

def LATEST_RUN_FUNCTION : JsString := js "latestRun"

/-- `model` and `behavior` are one function under two names. -/
def MODEL_FUNCTIONS : List JsString := [js "model", js "behavior"]

def MODEL_NAME_FIELDS : List JsString := [js "modelName", js "behaviorName"]

def MAX_MODEL_REFERENCES : ℕ := 32

mutual

def collectRootIdentifiers : Ast → List JsString
  | .id name => [name]
  | .value _ => []
  | .member object _ | .optMember object _ => collectRootIdentifiers object
  | .index object key | .optIndex object key =>
    collectRootIdentifiers object ++ collectRootIdentifiers key
  | .call _ args => collectAllRootIdentifiers args
  | .rcall _ receiver args => collectRootIdentifiers receiver ++ collectAllRootIdentifiers args
  | .cond test yes no =>
    collectRootIdentifiers test ++ collectRootIdentifiers yes ++ collectRootIdentifiers no
  | .not operand | .neg operand => collectRootIdentifiers operand
  | .list items => collectAllRootIdentifiers items
  | .map entries => collectAllRootIdentifiers entries
  | .and left right | .eq left right | .binary _ left right =>
    collectRootIdentifiers left ++ collectRootIdentifiers right

def collectAllRootIdentifiers : List Ast → List JsString
  | [] => []
  | node :: rest => collectRootIdentifiers node ++ collectAllRootIdentifiers rest

end

/-- Why a query fails. -/
inductive QueryError where
  | unknownFields (fields : List JsString)
  | latestRunReceiver
  | latestRunArgument
  | latestRunUnavailable
  | modelReceiver (name : JsString)
  | modelArgument (name : JsString)
  | tooManyModels (count : ℕ)
  | modelUnavailable
  | modelInSelect
  | invalidSortKey
  | unreadable

/-- `validateFieldReferences`. -/
def validateFieldReferences (identifiers : List JsString) : Except QueryError Unit :=
  let unknown := identifiers.filter (fun id => id ∉ QUERY_FIELDS ∧ id ∉ CEL_BUILTINS)
  if unknown = [] then .ok () else .error (.unknownFields unknown.dedup)

/-- The non-empty literal that is all a call is given. -/
def soleLiteral : List Ast → Option JsString
  | [.value (.str s)] => if s = [] then none else some s
  | _ => none

mutual

/-- The literals of the calls of some functions in a predicate, in its order; a call
of a receiver, or of anything but one literal, is an error. -/
def collectCalls (functions : List JsString) (receiver argument : JsString → QueryError) :
    Ast → Except QueryError (List JsString)
  | .id _ | .value _ => .ok []
  | .member object _ | .optMember object _ => collectCalls functions receiver argument object
  | .call name args =>
    if name ∈ functions then
      match soleLiteral args with
      | some reference => .ok [reference]
      | none => .error (argument name)
    else collectAllCalls functions receiver argument args
  | .rcall name target args =>
    if name ∈ functions then .error (receiver name)
    else do
      let first ← collectCalls functions receiver argument target
      return first ++ (← collectAllCalls functions receiver argument args)
  | .cond test yes no => do
      let first ← collectCalls functions receiver argument test
      let second ← collectCalls functions receiver argument yes
      return first ++ second ++ (← collectCalls functions receiver argument no)
  | .not operand | .neg operand => collectCalls functions receiver argument operand
  | .list items => collectAllCalls functions receiver argument items
  | .map entries => collectAllCalls functions receiver argument entries
  | .index left right | .optIndex left right | .and left right | .eq left right
  | .binary _ left right => do
      let first ← collectCalls functions receiver argument left
      return first ++ (← collectCalls functions receiver argument right)

def collectAllCalls (functions : List JsString) (receiver argument : JsString → QueryError) :
    List Ast → Except QueryError (List JsString)
  | [] => .ok []
  | node :: rest => do
      let first ← collectCalls functions receiver argument node
      return first ++ (← collectAllCalls functions receiver argument rest)

end

def collectLatestRunWorkflows (node : Ast) : Except QueryError (List JsString) := do
  let workflows ← collectCalls [LATEST_RUN_FUNCTION] (fun _ => .latestRunReceiver)
    (fun _ => .latestRunArgument) node
  return workflows.dedup

def collectModelReferences (node : Ast) : Except QueryError (List JsString) := do
  let references ← collectCalls MODEL_FUNCTIONS .modelReceiver .modelArgument node
  if MAX_MODEL_REFERENCES < references.dedup.length then
    throw (.tooManyModels references.dedup.length)
  return references.dedup

def topLevelConjuncts : Ast → List Ast
  | .and left right => topLevelConjuncts left ++ topLevelConjuncts right
  | ast => [ast]

/-- A field and a literal that an equality compares. -/
def equalityOperands : Ast → Option (JsString × Json)
  | .eq (.id field) (.value v) => some (field, v)
  | .eq (.value v) (.id field) => some (field, v)
  | _ => none

/-- The text some field is equated with. -/
def stringEqualityOf (fields : List JsString) (conjunct : Ast) : Option JsString :=
  match equalityOperands conjunct with
  | some (field, .str s) => if field ∈ fields then some s else none
  | _ => none

def extractAnyStringEquality (ast : Ast) (fields : List JsString) : Option JsString :=
  (topLevelConjuncts ast).findSome? (stringEqualityOf fields)

def extractStringEquality (ast : Ast) (field : JsString) : Option JsString :=
  extractAnyStringEquality ast [field]

def extractModelNameEquality (ast : Ast) : Option JsString :=
  extractAnyStringEquality ast MODEL_NAME_FIELDS

def isTypeTagReference : Ast → Bool
  | .id name => name = js "dataType"
  | .member (.id object) key => object = js "tags" ∧ key = js "type"
  | .index (.id object) (.value (.str key)) => object = js "tags" ∧ key = js "type"
  | _ => false

/-- The non-empty text a node stands for. -/
def nonEmptyText : Ast → Option JsString
  | .value (.str s) => if s = [] then none else some s
  | _ => none

/-- The text the type tag is equated with. -/
def typeTagEqualityOf : Ast → Option JsString
  | .eq left right =>
    match nonEmptyText right, nonEmptyText left with
    | some s, other => if isTypeTagReference left then some s
        else if isTypeTagReference right then other else none
    | none, other => if isTypeTagReference right then other else none
  | _ => none

def extractTypeTagEquality (ast : Ast) : Option JsString :=
  (topLevelConjuncts ast).findSome? typeTagEqualityOf

/-- `modelCallOf`, its reference. -/
def modelCallOf : Ast → Option JsString
  | .call name [.value (.str reference)] => if name ∈ MODEL_FUNCTIONS then some reference else none
  | _ => none

def extractModelCall (ast : Ast) : Option JsString :=
  (topLevelConjuncts ast).findSome? modelCallOf

def latestRunEquality : Ast → Ast → Option JsString
  | .id field, .call name [.value (.str workflow)] =>
    if field = js "workflowRunId" ∧ name = LATEST_RUN_FUNCTION then some workflow else none
  | _, _ => none

def extractWorkflowRunIdLatestRun : Ast → Option JsString
  | .eq left right => (latestRunEquality left right).or (latestRunEquality right left)
  | .and left right =>
    (extractWorkflowRunIdLatestRun left).or (extractWorkflowRunIdLatestRun right)
  | _ => none

end Query

end Swamp
