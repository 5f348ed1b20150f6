import Swamp.ExpressionScanner
import Swamp.OrderedMap
import Swamp.WorkflowRuns

/-!
# Pairing the jobs of a workflow with the jobs of a run

A job whose name holds an expression is stored under its evaluated name.
`pairExpressionJobs` finds the stored name again: from the inputs of the run when
the name reads nothing else, and by position otherwise, where the stored name has
to hold the literal text of the template.

What the source reads of an input whose type it does not know is `Values`, a
parameter, as is whether a text parses as CEL.
-/

namespace Swamp.Workflows.JobPairing

open Js LiteralMatch ExpressionScanner OrderedWalks

/-- What the source reads of values it does not know the type of. -/
structure Values (V : Type*) where
  undefined : V
  /-- `typeof value === "object" && value !== null`. -/
  isObject : V → Bool
  /-- `value[key]` of an object. -/
  property : V → JsString → V
  /-- `typeof value` is `"string"`, `"number"` or `"boolean"`. -/
  isScalar : V → Bool
  /-- `String(value)` of such a value. -/
  text : V → JsString

def evaluatedName (name : JsString) : Bool := includes name OPENER

/-- `[A-Za-z_]`. -/
def isIdentifierStart (u : CodeUnit) : Bool :=
  (65 ≤ u.val && u.val ≤ 90) || (97 ≤ u.val && u.val ≤ 122) || u = unit '_'

/-- `[A-Za-z_][A-Za-z0-9_]*`. -/
def isIdentifier : JsString → Bool
  | [] => false
  | u :: rest => isIdentifierStart u && rest.all (fun v => isIdentifierStart v || isDigitUnit v)

/-- The names after `inputs.` in a text that matches `INPUT_REFERENCE`. -/
def inputReference (inner : JsString) : Option (List JsString) :=
  if (js "inputs.").isPrefixOf inner then
    let names := (inner.drop (js "inputs.").length).splitOn (unit '.')
    if names.all isIdentifier then some names else none
  else none

section

variable {V : Type*} (values : Values V) (parsesAsCel : JsString → Bool)

/-- Whether `stored` could be what `template` became. -/
def fits (template stored : JsString) : Bool :=
  match literalsFrom template 0 (scanExpressions parsesAsCel template) with
  | first :: second :: rest =>
    let last := (second :: rest).getLast (List.cons_ne_nil _ _)
    standsInOrder first (second :: rest).dropLast last stored
  | _ => stored = template

/-- The value a path of names leads to. -/
def valueAt (inputs : V) (path : List JsString) : V :=
  path.foldl
    (fun value key => if values.isObject value then values.property value key else values.undefined)
    inputs

/-- The text of the input a span names, none when it names none or not a scalar. -/
def inputText (inputs : V) (span : ExpressionSpan) : Option JsString :=
  match inputReference span.inner with
  | none => none
  | some path =>
    let value := valueAt values inputs path
    if values.isScalar value then some (values.text value) else none

def nameFromInputs (template : JsString) (inputs : V) : Option JsString :=
  let name := replaceExpressionSpans parsesAsCel template
    (fun span => (inputText values inputs span).getD [])
  let resolved := (scanExpressions parsesAsCel template).all
    (fun span => (inputText values inputs span).isSome)
  if resolved then some name else none

/-- `WorkflowRun`, with its inputs. -/
structure RunWithInputs (V : Type*) extends WorkflowRun where
  inputs : V

variable (workflow : Workflow) (run : RunWithInputs V)

/-- The names of the literal jobs. -/
def literalNames : List JsString :=
  (workflow.jobs.filter (fun job => !evaluatedName job.name)).map Job.name

/-- The stored name the inputs give an expression-named job. -/
def pairedByInputs (job : Job) : Option JsString :=
  match nameFromInputs values parsesAsCel job.name run.inputs with
  | none => none
  | some name =>
    if name ∉ literalNames workflow ∧ (run.getJob name).isSome then some name else none

/-- One job of the first pass: it is paired, or its place is remembered. -/
def pairFromInputs (state : OrderedMap JsString JsString × List ℕ) (entry : Job × ℕ) :
    OrderedMap JsString JsString × List ℕ :=
  if !evaluatedName entry.1.name then state
  else
    match pairedByInputs values parsesAsCel workflow run entry.1 with
    | some name => (state.1.set entry.1.name name, state.2)
    | none => (state.1, state.2 ++ [entry.2])

/-- One job of the second pass. -/
def pairByPosition (pairs : OrderedMap JsString JsString) (i : ℕ) :
    Option (OrderedMap JsString JsString) :=
  match workflow.jobs[i]?, run.jobs[i]? with
  | some job, some jobRun =>
    let stored := jobRun.jobName
    if stored ∈ literalNames workflow ∨ fits parsesAsCel job.name stored = false then none
    else some (pairs.set job.name stored)
  | _, _ => none

/-- Whether the literal jobs are stored where they stand. -/
def literalsInPlace : Bool :=
  workflow.jobs.length = run.jobs.length &&
    (workflow.jobs.zip run.jobs).all
      (fun entry => evaluatedName entry.1.name || entry.2.jobName = entry.1.name)

def pairExpressionJobs : Option (OrderedMap JsString JsString) :=
  let (pairs, unpaired) :=
    workflow.jobs.zipIdx.foldl (pairFromInputs values parsesAsCel workflow run)
      (OrderedMap.empty, [])
  let paired :=
    if unpaired = [] then some pairs
    else if !literalsInPlace workflow run then none
    else unpaired.foldlM (pairByPosition parsesAsCel workflow run) pairs
  match paired with
  | none => none
  | some pairs => if pairs.values.Nodup then some pairs else none

def workflowJobOf (jobRun : JobRun) (pairs : Option (OrderedMap JsString JsString)) : Option Job :=
  match workflow.jobs.find? (fun job => !evaluatedName job.name && job.name = jobRun.jobName) with
  | some literal => some literal
  | none =>
    workflow.jobs.find? (fun job => evaluatedName job.name &&
      (pairs.bind (fun pairs => pairs.get job.name)) = some jobRun.jobName)

end

section

variable {V : Type*} {values : Values V} {parsesAsCel : JsString → Bool}

/-- A name a template becomes when each expression in it is replaced by a text. -/
def Substituted (parsesAsCel : JsString → Bool) (template stored : JsString) : Prop :=
  ∃ text : ExpressionSpan → JsString, stored = replaceExpressionSpans parsesAsCel template text

/-- A name a template becomes in a run with these inputs: an expression that is a
plain path to a scalar input is replaced by its text, any other by some text. -/
def EvaluatesTo (values : Values V) (parsesAsCel : JsString → Bool) (inputs : V)
    (template stored : JsString) : Prop :=
  ∃ text : ExpressionSpan → JsString,
    (∀ span ∈ scanExpressions parsesAsCel template, ∀ value,
      inputText values inputs span = some value → text span = value) ∧
    stored = replaceExpressionSpans parsesAsCel template text

theorem literalsFrom_length (value : JsString) (start : ℕ) (spans : List ExpressionSpan) :
    (literalsFrom value start spans).length = spans.length + 1 := by
  induction spans generalizing start with
  | nil => rfl
  | cons span rest ih => rw [literalsFrom, List.length_cons, ih, List.length_cons]

theorem exists_texts {spans : List ExpressionSpan} (hnodup : spans.Nodup) {texts : List JsString}
    (hlength : texts.length = spans.length) :
    ∃ text : ExpressionSpan → JsString, spans.map text = texts := by
  induction spans generalizing texts with
  | nil => exact ⟨fun _ => [], (List.eq_nil_of_length_eq_zero hlength).symm⟩
  | cons span rest ih =>
    cases texts with
    | nil => cases hlength
    | cons first more =>
      rw [List.nodup_cons] at hnodup
      obtain ⟨text, htext⟩ := ih hnodup.2 (Nat.succ.inj hlength)
      refine ⟨fun other => if other = span then first else text other, ?_⟩
      have hrest : rest.map (fun other => if other = span then first else text other) =
          rest.map text := by
        apply List.map_congr_left
        intro other hother
        have hne : other ≠ span := fun heq => hnodup.1 (heq ▸ hother)
        simp [hne]
      rw [List.map_cons, if_pos rfl, hrest, htext]

variable {template : JsString}

/-- **The scan accepts exactly what substitution can produce.** -/
theorem fits_iff {stored : JsString} :
    fits parsesAsCel template stored = true ↔ Substituted parsesAsCel template stored := by
  have hlength := literalsFrom_length template 0 (scanExpressions parsesAsCel template)
  have hnodup := (@scanExpressions_laid parsesAsCel template).nodup.1
  cases hparts : literalsFrom template 0 (scanExpressions parsesAsCel template) with
  | nil =>
    rw [hparts] at hlength
    cases hlength
  | cons first rest =>
    have hreplace : ∀ text : ExpressionSpan → JsString,
        replaceExpressionSpans parsesAsCel template text =
          first ++ interleave ((scanExpressions parsesAsCel template).map text) rest :=
      fun text => replaceExpressionSpans_eq hparts
    rw [hparts, List.length_cons] at hlength
    have hcount : rest.length = (scanExpressions parsesAsCel template).length :=
      Nat.succ.inj hlength
    cases rest with
    | nil =>
      have hnone : scanExpressions parsesAsCel template = [] :=
        List.eq_nil_of_length_eq_zero hcount.symm
      have hsame : ∀ text : ExpressionSpan → JsString,
          replaceExpressionSpans parsesAsCel template text = template := by
        intro text
        rw [replaceExpressionSpans, hnone]
      unfold fits Substituted
      rw [hparts]
      simp only [hsame, decide_eq_true_eq]
      exact ⟨fun h => ⟨fun _ => [], h⟩, fun h => h.elim (fun _ h => h)⟩
    | cons second more =>
      unfold fits Substituted
      rw [hparts]
      simp only
      rw [standsInOrder_iff, List.dropLast_append_getLast]
      have htexts : ((second :: more).dropLast).length + 1 =
          (scanExpressions parsesAsCel template).length := by
        rw [← hcount, List.length_dropLast, List.length_cons, Nat.add_sub_cancel]
      rw [htexts]
      constructor
      · intro h
        obtain ⟨texts, htexts, hstored⟩ := h
        obtain ⟨text, htext⟩ := exists_texts hnodup htexts
        exact ⟨text, by rw [hreplace, htext, hstored]⟩
      · intro h
        obtain ⟨text, hstored⟩ := h
        exact ⟨(scanExpressions parsesAsCel template).map text, List.length_map _,
          by rw [hstored, hreplace]⟩

/-- Replacing reads only the spans of the text. -/
theorem replaceExpressionSpans_congr {value : JsString}
    {replace replace' : ExpressionSpan → JsString}
    (h : ∀ span ∈ scanExpressions parsesAsCel value, replace span = replace' span) :
    replaceExpressionSpans parsesAsCel value replace =
      replaceExpressionSpans parsesAsCel value replace' := by
  have hlength := literalsFrom_length value 0 (scanExpressions parsesAsCel value)
  cases hparts : literalsFrom value 0 (scanExpressions parsesAsCel value) with
  | nil =>
    rw [hparts] at hlength
    cases hlength
  | cons first rest =>
    rw [replaceExpressionSpans_eq hparts, replaceExpressionSpans_eq hparts,
      List.map_congr_left h]

variable {inputs : V}

/-- A literal name evaluates to itself. -/
theorem EvaluatesTo.literal {stored : JsString}
    (h : EvaluatesTo values parsesAsCel inputs template stored)
    (hliteral : evaluatedName template = false) : stored = template := by
  obtain ⟨text, _, hstored⟩ := h
  rw [hstored, replaceExpressionSpans, scanExpressions_none hliteral]

theorem EvaluatesTo.substituted {stored : JsString}
    (h : EvaluatesTo values parsesAsCel inputs template stored) :
    Substituted parsesAsCel template stored := by
  obtain ⟨text, _, hstored⟩ := h
  exact ⟨text, hstored⟩

variable {name : JsString}

/-- **The name the inputs give is the only one a template evaluates to.** -/
theorem EvaluatesTo.eq_nameFromInputs {stored : JsString}
    (h : EvaluatesTo values parsesAsCel inputs template stored)
    (hname : nameFromInputs values parsesAsCel template inputs = some name) : stored = name := by
  obtain ⟨text, htext, hstored⟩ := h
  unfold nameFromInputs at hname
  dsimp only at hname
  split_ifs at hname with hresolved
  cases hname
  rw [hstored]
  apply replaceExpressionSpans_congr
  intro span hspan
  obtain ⟨value, hvalue⟩ := Option.isSome_iff_exists.mp (List.all_eq_true.mp hresolved span hspan)
  rw [hvalue]
  exact htext span hspan value hvalue

theorem nameFromInputs_substituted
    (h : nameFromInputs values parsesAsCel template inputs = some name) :
    Substituted parsesAsCel template name := by
  unfold nameFromInputs at h
  dsimp only at h
  split_ifs at h
  cases h
  exact ⟨_, rfl⟩

variable {workflow : Workflow} {run : RunWithInputs V}

variable {job : Job}

theorem pairedByInputs_some (h : pairedByInputs values parsesAsCel workflow run job = some name) :
    nameFromInputs values parsesAsCel job.name run.inputs = some name ∧
      name ∉ literalNames workflow ∧ (run.getJob name).isSome := by
  unfold pairedByInputs at h
  cases hname : nameFromInputs values parsesAsCel job.name run.inputs with
  | none =>
    rw [hname] at h
    cases h
  | some found =>
    rw [hname] at h
    dsimp only at h
    split_ifs at h with hok
    cases h
    exact ⟨rfl, hok⟩

variable {entries : List (Job × ℕ)} {state : OrderedMap JsString JsString × List ℕ} {k v : JsString}

/-- Where a pair of the first pass comes from. -/
theorem firstPass_came
    (h : (entries.foldl (pairFromInputs values parsesAsCel workflow run) state).1.get k = some v) :
    state.1.get k = some v ∨ ∃ entry ∈ entries, evaluatedName entry.1.name = true ∧
      entry.1.name = k ∧ pairedByInputs values parsesAsCel workflow run entry.1 = some v := by
  induction entries generalizing state with
  | nil => exact Or.inl h
  | cons entry rest ih =>
    rw [List.foldl_cons] at h
    rcases ih h with hstate | ⟨other, hother, hrest⟩
    · unfold pairFromInputs at hstate
      by_cases hname : evaluatedName entry.1.name = true
      · rw [hname] at hstate
        cases hpaired : pairedByInputs values parsesAsCel workflow run entry.1 with
        | none =>
          rw [hpaired] at hstate
          exact Or.inl hstate
        | some name =>
          rw [hpaired] at hstate
          simp only [Bool.not_true, Bool.false_eq_true, if_false, OrderedMap.get_set] at hstate
          split_ifs at hstate with hkey
          · cases hstate
            exact Or.inr ⟨entry, List.mem_cons_self, hname, hkey.symm, hpaired⟩
          · exact Or.inl hstate
      · rw [Bool.eq_false_iff.mpr hname] at hstate
        exact Or.inl hstate
    · exact Or.inr ⟨other, List.mem_cons_of_mem _ hother, hrest⟩

theorem firstPass_covers :
    (∀ k, (state.1.get k).isSome → ((entries.foldl
        (pairFromInputs values parsesAsCel workflow run) state).1.get k).isSome) ∧
      (∀ i ∈ state.2, i ∈ (entries.foldl
        (pairFromInputs values parsesAsCel workflow run) state).2) ∧
      ∀ entry ∈ entries, evaluatedName entry.1.name = true →
        ((entries.foldl (pairFromInputs values parsesAsCel workflow run) state).1.get
          entry.1.name).isSome ∨
        entry.2 ∈ (entries.foldl (pairFromInputs values parsesAsCel workflow run) state).2 := by
  induction entries generalizing state with
  | nil => exact ⟨fun _ h => h, fun _ h => h, fun _ h => by cases h⟩
  | cons entry rest ih =>
    obtain ⟨hkeys, hplaces, hcovers⟩ :=
      @ih (pairFromInputs values parsesAsCel workflow run state entry)
    have hstep : (∀ k, (state.1.get k).isSome →
          ((pairFromInputs values parsesAsCel workflow run state entry).1.get k).isSome) ∧
        (∀ i ∈ state.2, i ∈ (pairFromInputs values parsesAsCel workflow run state entry).2) ∧
        (evaluatedName entry.1.name = true →
          ((pairFromInputs values parsesAsCel workflow run state entry).1.get
            entry.1.name).isSome ∨
          entry.2 ∈ (pairFromInputs values parsesAsCel workflow run state entry).2) := by
      unfold pairFromInputs
      by_cases hname : evaluatedName entry.1.name = true
      · cases hpaired : pairedByInputs values parsesAsCel workflow run entry.1 with
        | none =>
          simp only [hname, Bool.not_true, Bool.false_eq_true, if_false]
          exact ⟨fun _ h => h, fun _ h => List.mem_append_left _ h,
            fun _ => Or.inr (List.mem_append_right _ (List.mem_singleton_self _))⟩
        | some name =>
          simp only [hname, Bool.not_true, Bool.false_eq_true, if_false]
          refine ⟨?_, fun _ h => h, fun _ => Or.inl (by simp)⟩
          intro k hk
          rw [OrderedMap.get_set]
          split_ifs
          · rfl
          · exact hk
      · simp [hname]
    rw [List.foldl_cons]
    refine ⟨fun k hk => hkeys k (hstep.1 k hk), fun i hi => hplaces i (hstep.2.1 i hi), ?_⟩
    intro other hother hname
    rcases List.mem_cons.mp hother with rfl | hother
    · rcases hstep.2.2 hname with hkey | hplace
      · exact Or.inl (hkeys _ hkey)
      · exact Or.inr (hplaces _ hplace)
    · exact hcovers other hother hname

variable {i : ℕ}

theorem firstPass_places
    (h : i ∈ (entries.foldl (pairFromInputs values parsesAsCel workflow run) state).2) :
    i ∈ state.2 ∨ ∃ entry ∈ entries, evaluatedName entry.1.name = true ∧ entry.2 = i := by
  induction entries generalizing state with
  | nil => exact Or.inl h
  | cons entry rest ih =>
    rw [List.foldl_cons] at h
    rcases ih h with hstate | ⟨other, hother, hrest⟩
    · unfold pairFromInputs at hstate
      by_cases hname : evaluatedName entry.1.name = true
      · cases hpaired : pairedByInputs values parsesAsCel workflow run entry.1 with
        | none =>
          simp only [hname, hpaired, Bool.not_true, Bool.false_eq_true, if_false,
            List.mem_append, List.mem_singleton] at hstate
          rcases hstate with hstate | hi
          · exact Or.inl hstate
          · exact Or.inr ⟨entry, List.mem_cons_self, hname, hi.symm⟩
        | some name =>
          simp only [hname, hpaired, Bool.not_true, Bool.false_eq_true, if_false] at hstate
          exact Or.inl hstate
      · simp only [hname] at hstate
        exact Or.inl (by simpa using hstate)
    · exact Or.inr ⟨other, List.mem_cons_of_mem _ hother, hrest⟩

/-- A job and the job of the run at its place. -/
def StandAt (workflow : Workflow) (run : RunWithInputs V) (i : ℕ) (job : Job) (jobRun : JobRun) :
    Prop :=
  workflow.jobs[i]? = some job ∧ run.jobs[i]? = some jobRun

/-- A pair of the second pass: the stored name at a job's own place. -/
def PairedAt (parsesAsCel : JsString → Bool) (workflow : Workflow) (run : RunWithInputs V) (i : ℕ)
    (k v : JsString) : Prop :=
  ∃ job jobRun, StandAt workflow run i job jobRun ∧ job.name = k ∧ jobRun.jobName = v ∧
    v ∉ literalNames workflow ∧ fits parsesAsCel k v = true

/-- One step of the second pass is one pair. -/
theorem pairByPosition_iff {pairs pairs' : OrderedMap JsString JsString} :
    pairByPosition parsesAsCel workflow run pairs i = some pairs' ↔
      ∃ k v, PairedAt parsesAsCel workflow run i k v ∧ pairs' = pairs.set k v := by
  unfold pairByPosition PairedAt StandAt
  cases hjob : workflow.jobs[i]? with
  | none => simp
  | some job =>
    cases hrun : run.jobs[i]? with
    | none => simp
    | some jobRun =>
      constructor
      · intro h
        dsimp only at h
        split_ifs at h with hbad
        cases h
        rw [not_or, Bool.not_eq_false] at hbad
        exact ⟨_, _, ⟨job, jobRun, ⟨rfl, rfl⟩, rfl, rfl, hbad.1, hbad.2⟩, rfl⟩
      · intro h
        obtain ⟨k, v, ⟨job', jobRun', ⟨hjob', hrun'⟩, rfl, rfl, hliteral, hfits⟩, rfl⟩ := h
        cases hjob'
        cases hrun'
        dsimp only
        rw [if_neg (by simp [hliteral, hfits])]

theorem secondPass_came {unpaired : List ℕ} {pairs pairs' : OrderedMap JsString JsString}
    (h : unpaired.foldlM (pairByPosition parsesAsCel workflow run) pairs = some pairs')
    (hget : pairs'.get k = some v) :
    pairs.get k = some v ∨ ∃ i ∈ unpaired, PairedAt parsesAsCel workflow run i k v := by
  induction unpaired generalizing pairs with
  | nil =>
    cases h
    exact Or.inl hget
  | cons i rest ih =>
    rw [List.foldlM_cons, Option.bind_eq_bind, Option.bind_eq_some_iff] at h
    obtain ⟨next, hstep, hrest⟩ := h
    rcases ih hrest with hnext | ⟨j, hj, hpaired⟩
    · obtain ⟨key, value, hpaired, rfl⟩ := pairByPosition_iff.mp hstep
      rw [OrderedMap.get_set] at hnext
      split_ifs at hnext with hkey
      · cases hnext
        exact Or.inr ⟨i, List.mem_cons_self, hkey ▸ hpaired⟩
      · exact Or.inl hnext
    · exact Or.inr ⟨j, List.mem_cons_of_mem _ hj, hpaired⟩

theorem secondPass_covers {unpaired : List ℕ} {pairs : OrderedMap JsString JsString}
    (h : ∀ i ∈ unpaired, ∃ k v, PairedAt parsesAsCel workflow run i k v) :
    ∃ pairs', unpaired.foldlM (pairByPosition parsesAsCel workflow run) pairs = some pairs' ∧
      (∀ k, (pairs.get k).isSome → (pairs'.get k).isSome) ∧
      ∀ i ∈ unpaired, ∀ job, workflow.jobs[i]? = some job → (pairs'.get job.name).isSome := by
  induction unpaired generalizing pairs with
  | nil => exact ⟨pairs, rfl, fun _ h => h, fun _ h => by cases h⟩
  | cons i rest ih =>
    obtain ⟨k, v, hpaired⟩ := h i List.mem_cons_self
    obtain ⟨pairs', hrest, hkeys, hcovers⟩ :=
      @ih (pairs.set k v) (fun j hj => h j (List.mem_cons_of_mem _ hj))
    refine ⟨pairs', ?_, ?_, ?_⟩
    · rw [List.foldlM_cons, pairByPosition_iff.mpr ⟨k, v, hpaired, rfl⟩]
      exact hrest
    · intro key hkey
      apply hkeys key
      rw [OrderedMap.get_set]
      split_ifs
      · rfl
      · exact hkey
    · intro j hj job hjob
      rcases List.mem_cons.mp hj with rfl | hj
      · obtain ⟨job', _, ⟨hjob', _⟩, hname, _⟩ := hpaired
        rw [hjob] at hjob'
        cases hjob'
        apply hkeys _
        rw [hname, OrderedMap.get_set_self]
        rfl
      · exact hcovers j hj job hjob

theorem mem_literalNames :
    name ∈ literalNames workflow ↔
      ∃ job ∈ workflow.jobs, evaluatedName job.name = false ∧ job.name = name := by
  unfold literalNames
  simp [List.mem_map, List.mem_filter, and_assoc]

/-- Records of distinct names stand where their names do. -/
theorem place_unique {α : Type*} {records : List α} {key : α → JsString}
    (hnodup : (records.map key).Nodup) {j : ℕ} {a b : α} (ha : records[i]? = some a)
    (hb : records[j]? = some b) (hkey : key a = key b) : i = j := by
  have hi : (records.map key)[i]? = some (key a) := by rw [List.getElem?_map, ha]; rfl
  have hj : (records.map key)[j]? = some (key b) := by rw [List.getElem?_map, hb]; rfl
  have hlt : i < (records.map key).length := (List.getElem?_eq_some_iff.mp hi).1
  exact (List.getElem?_inj hlt hnodup).mp (by rw [hi, hj, hkey])

/-- The only record a search can find is found. -/
theorem find?_only {α : Type*} {records : List α} {p : α → Bool} {a : α} (hmem : a ∈ records)
    (hp : p a = true) (honly : ∀ b ∈ records, p b = true → b = a) : records.find? p = some a := by
  cases hfind : records.find? p with
  | none => exact absurd hp (List.find?_eq_none.mp hfind a hmem)
  | some b => rw [honly b (List.mem_of_find?_eq_some hfind) (List.find?_some hfind)]

/-- What a pair is read from: the inputs, or a place of the run. -/
def CameFrom (values : Values V) (parsesAsCel : JsString → Bool) (workflow : Workflow)
    (run : RunWithInputs V) (k v : JsString) : Prop :=
  (∃ job ∈ workflow.jobs, evaluatedName job.name = true ∧ job.name = k ∧
    pairedByInputs values parsesAsCel workflow run job = some v) ∨
  ∃ i, PairedAt parsesAsCel workflow run i k v

theorem pairExpressionJobs_came {pairs : OrderedMap JsString JsString}
    (h : pairExpressionJobs values parsesAsCel workflow run = some pairs) :
    pairs.values.Nodup ∧
      ∀ k v, pairs.get k = some v → CameFrom values parsesAsCel workflow run k v := by
  unfold pairExpressionJobs at h
  cases hfirst : workflow.jobs.zipIdx.foldl (pairFromInputs values parsesAsCel workflow run)
      (OrderedMap.empty, []) with
  | mk first unpaired =>
    have hcame : ∀ k v, first.get k = some v →
        ∃ job ∈ workflow.jobs, evaluatedName job.name = true ∧ job.name = k ∧
          pairedByInputs values parsesAsCel workflow run job = some v := by
      intro k v hget
      rcases @firstPass_came _ values parsesAsCel workflow run workflow.jobs.zipIdx
        (OrderedMap.empty, []) k v (by rw [hfirst]; exact hget) with
        hempty | ⟨entry, hentry, hrest⟩
      · cases hempty
      · exact ⟨entry.1, List.fst_mem_of_mem_zipIdx hentry, hrest⟩
    rw [hfirst] at h
    dsimp only at h
    split at h
    · cases h
    · rename_i paired hpaired
      split_ifs at h with hnodup
      cases h
      refine ⟨hnodup, ?_⟩
      intro k v hget
      split_ifs at hpaired with hunpaired hplace
      · cases hpaired
        exact Or.inl (hcame k v hget)
      · rcases secondPass_came hpaired hget with hbefore | ⟨i, _, hat⟩
        · exact Or.inl (hcame k v hbefore)
        · exact Or.inr ⟨i, hat⟩

/-- The run of a workflow: its jobs in their order under evaluated names, the
names distinct and none of them taken from a literal job. -/
structure RunOf (values : Values V) (parsesAsCel : JsString → Bool) (workflow : Workflow)
    (run : RunWithInputs V) : Prop where
  evaluates : List.Forall₂ (fun (job : Job) (jobRun : JobRun) =>
    EvaluatesTo values parsesAsCel run.inputs job.name jobRun.jobName) workflow.jobs run.jobs
  distinct : (run.jobs.map JobRun.jobName).Nodup
  apart : ∀ i job jobRun, StandAt workflow run i job jobRun →
    evaluatedName job.name = true → jobRun.jobName ∉ literalNames workflow

namespace RunOf

variable (h : RunOf values parsesAsCel workflow run)

include h

/-- Each job has its job of the run. -/
theorem stored (hjob : workflow.jobs[i]? = some job) :
    ∃ jobRun, run.jobs[i]? = some jobRun ∧
      EvaluatesTo values parsesAsCel run.inputs job.name jobRun.jobName := by
  obtain ⟨hlt, hget⟩ := List.getElem?_eq_some_iff.mp hjob
  obtain ⟨hlength, hall⟩ := List.forall₂_iff_get.mp h.evaluates
  refine ⟨run.jobs[i], List.getElem?_eq_getElem (hlength ▸ hlt), ?_⟩
  have hat := hall i hlt (hlength ▸ hlt)
  rw [List.get_eq_getElem, List.get_eq_getElem, hget] at hat
  exact hat

theorem literalsInPlace : JobPairing.literalsInPlace workflow run = true := by
  unfold JobPairing.literalsInPlace
  rw [Bool.and_eq_true, decide_eq_true_eq, List.all_eq_true]
  refine ⟨h.evaluates.length_eq, ?_⟩
  intro entry hentry
  obtain ⟨job, jobRun⟩ := entry
  have hevaluates := (List.forall₂_iff_zip.mp h.evaluates).2 hentry
  rw [Bool.or_eq_true, decide_eq_true_eq]
  cases hname : evaluatedName job.name with
  | true => exact Or.inl rfl
  | false => exact Or.inr (hevaluates.literal hname)

theorem own_place {pairs : OrderedMap JsString JsString}
    (hpairs : ∀ k v, pairs.get k = some v → CameFrom values parsesAsCel workflow run k v)
    (hget : pairs.get k = some v) :
    ∃ i job jobRun, StandAt workflow run i job jobRun ∧ job.name = k ∧ jobRun.jobName = v := by
  rcases hpairs k v hget with ⟨job, hjob, _, hkey, hinputs⟩ | ⟨i, job, jobRun, hat, hkey, hv, _⟩
  · obtain ⟨i, hi⟩ := List.mem_iff_getElem?.mp hjob
    obtain ⟨jobRun, hrun, hevaluates⟩ := h.stored hi
    exact ⟨i, job, jobRun, ⟨hi, hrun⟩, hkey,
      hevaluates.eq_nameFromInputs (pairedByInputs_some hinputs).1⟩
  · exact ⟨i, job, jobRun, hat, hkey, hv⟩

theorem pairedAt (hjob : workflow.jobs[i]? = some job) (hname : evaluatedName job.name = true) :
    ∃ k v, PairedAt parsesAsCel workflow run i k v := by
  obtain ⟨jobRun, hrun, hevaluates⟩ := h.stored hjob
  exact ⟨job.name, jobRun.jobName, job, jobRun, ⟨hjob, hrun⟩, rfl, rfl,
    h.apart i job jobRun ⟨hjob, hrun⟩ hname, fits_iff.mpr hevaluates.substituted⟩

/-- **The jobs of a run of the workflow can be paired**, all of them. -/
theorem pairs_all (hnames : (workflow.jobs.map Job.name).Nodup) :
    ∃ pairs, pairExpressionJobs values parsesAsCel workflow run = some pairs ∧
      ∀ i job jobRun, StandAt workflow run i job jobRun →
        evaluatedName job.name = true → pairs.get job.name = some jobRun.jobName := by
  -- Whatever passes were made, distinct stored names give distinct values.
  have hown : ∀ pairs : OrderedMap JsString JsString,
      (∀ k v, pairs.get k = some v → CameFrom values parsesAsCel workflow run k v) →
        pairs.values.Nodup := by
    intro pairs hpairs
    refine List.Nodup.map_on ?_ (List.Nodup.of_map _ pairs.nodup)
    intro a ha b hb hvalue
    obtain ⟨i, jobA, runA, ⟨hjobA, hrunA⟩, hkeyA, hvalueA⟩ :=
      h.own_place hpairs (OrderedMap.mem_entries.mp ha)
    obtain ⟨j, jobB, runB, ⟨hjobB, hrunB⟩, hkeyB, hvalueB⟩ :=
      h.own_place hpairs (OrderedMap.mem_entries.mp hb)
    have hplace := place_unique h.distinct hrunA hrunB (by rw [hvalueA, hvalueB, hvalue])
    rw [← hplace, hjobA] at hjobB
    cases hjobB
    exact Prod.ext (hkeyA.symm.trans hkeyB) hvalue
  have hget : ∀ pairs : OrderedMap JsString JsString,
      pairExpressionJobs values parsesAsCel workflow run = some pairs →
      (∀ (i : ℕ) (job : Job), workflow.jobs[i]? = some job → evaluatedName job.name = true →
        (pairs.get job.name).isSome) →
      ∀ i job jobRun, StandAt workflow run i job jobRun →
        evaluatedName job.name = true → pairs.get job.name = some jobRun.jobName := by
    intro pairs hpairs hsome i job jobRun hat hname
    obtain ⟨v, hv⟩ := Option.isSome_iff_exists.mp (hsome i job hat.1 hname)
    obtain ⟨j, other, otherRun, ⟨hother, hotherRun⟩, hkey, rfl⟩ :=
      h.own_place (pairExpressionJobs_came hpairs).2 hv
    have hplace := place_unique hnames hother hat.1 hkey
    rw [hplace, hat.2] at hotherRun
    cases hotherRun
    exact hv
  cases hfirst : workflow.jobs.zipIdx.foldl (pairFromInputs values parsesAsCel workflow run)
      (OrderedMap.empty, []) with
  | mk first unpaired =>
    have hcame := @firstPass_came _ values parsesAsCel workflow run workflow.jobs.zipIdx
      (OrderedMap.empty, [])
    have hcovers := (@firstPass_covers _ values parsesAsCel workflow run workflow.jobs.zipIdx
      (OrderedMap.empty, [])).2.2
    have hplaces := @firstPass_places _ values parsesAsCel workflow run workflow.jobs.zipIdx
      (OrderedMap.empty, [])
    rw [hfirst] at hcame hcovers hplaces
    have hinputs : ∀ k v, first.get k = some v →
        ∃ job ∈ workflow.jobs, evaluatedName job.name = true ∧ job.name = k ∧
          pairedByInputs values parsesAsCel workflow run job = some v := by
      intro k v hv
      rcases hcame hv with hempty | ⟨entry, hentry, hrest⟩
      · cases hempty
      · exact ⟨entry.1, List.fst_mem_of_mem_zipIdx hentry, hrest⟩
    have hjobs : ∀ (i : ℕ) (job : Job), workflow.jobs[i]? = some job →
        evaluatedName job.name = true → (first.get job.name).isSome ∨ i ∈ unpaired := by
      intro i job hjob hname
      exact hcovers (job, i) (List.mk_mem_zipIdx_iff_getElem?.mpr hjob) hname
    by_cases hnone : unpaired = []
    · have hresult : pairExpressionJobs values parsesAsCel workflow run = some first := by
        unfold pairExpressionJobs
        rw [hfirst]
        dsimp only
        rw [if_pos hnone]
        dsimp only
        rw [if_pos (hown first (fun k v hv => Or.inl (hinputs k v hv)))]
      refine ⟨first, hresult, hget first hresult ?_⟩
      intro i job hjob hname
      rcases hjobs i job hjob hname with hsome | hmem
      · exact hsome
      · rw [hnone] at hmem
        cases hmem
    · have hpairable : ∀ i ∈ unpaired, ∃ k v, PairedAt parsesAsCel workflow run i k v := by
        intro i hi
        rcases hplaces hi with hempty | ⟨entry, hentry, hname, rfl⟩
        · cases hempty
        · exact h.pairedAt (List.mem_zipIdx_iff_getElem?.mp hentry) hname
      obtain ⟨pairs, hsecond, hkeys, hplaced⟩ := @secondPass_covers _ _ _ _ _ first hpairable
      have hpairs : ∀ k v, pairs.get k = some v →
          CameFrom values parsesAsCel workflow run k v := by
        intro k v hv
        rcases secondPass_came hsecond hv with hbefore | ⟨i, _, hat⟩
        · exact Or.inl (hinputs k v hbefore)
        · exact Or.inr ⟨i, hat⟩
      have hresult : pairExpressionJobs values parsesAsCel workflow run = some pairs := by
        unfold pairExpressionJobs
        rw [hfirst]
        dsimp only
        rw [if_neg hnone, h.literalsInPlace, hsecond]
        simp [hown pairs hpairs]
      refine ⟨pairs, hresult, hget pairs hresult ?_⟩
      intro i job hjob hname
      rcases hjobs i job hjob hname with hsome | hmem
      · exact hkeys _ hsome
      · exact hplaced i hmem job hjob

theorem workflowJobOf_eq (hnames : (workflow.jobs.map Job.name).Nodup)
    {pairs : OrderedMap JsString JsString}
    (hpairs : ∀ i job jobRun, StandAt workflow run i job jobRun →
      evaluatedName job.name = true → pairs.get job.name = some jobRun.jobName) {jobRun : JobRun}
    (hjob : workflow.jobs[i]? = some job) (hrun : run.jobs[i]? = some jobRun) :
    workflowJobOf workflow jobRun (some pairs) = some job := by
  have hmem : job ∈ workflow.jobs := List.mem_of_getElem? hjob
  unfold workflowJobOf
  cases hname : evaluatedName job.name with
  | false =>
    obtain ⟨stored, hstored, hevaluates⟩ := h.stored hjob
    rw [hrun] at hstored
    cases hstored
    have hsame : jobRun.jobName = job.name := hevaluates.literal hname
    rw [@find?_only _ _ _ job hmem (by simp [hname, hsame])]
    intro other hother hp
    rw [Bool.and_eq_true, decide_eq_true_eq] at hp
    exact List.inj_on_of_nodup_map hnames hother hmem (hp.2.trans hsame)
  | true =>
    have hnone : workflow.jobs.find?
        (fun job => !evaluatedName job.name && job.name = jobRun.jobName) = none := by
      rw [List.find?_eq_none]
      intro other hother hp
      rw [Bool.and_eq_true, decide_eq_true_eq, Bool.not_eq_true'] at hp
      exact h.apart i job jobRun ⟨hjob, hrun⟩ hname
        (mem_literalNames.mpr ⟨other, hother, hp⟩)
    rw [hnone]
    refine find?_only hmem (by simp [hname, hpairs i job jobRun ⟨hjob, hrun⟩ hname]) ?_
    intro other hother hp
    rw [Bool.and_eq_true, decide_eq_true_eq] at hp
    obtain ⟨j, hj⟩ := List.mem_iff_getElem?.mp hother
    obtain ⟨otherRun, hotherRun, _⟩ := h.stored hj
    have hpaired := hp.2
    rw [Option.bind_some, hpairs j other otherRun ⟨hj, hotherRun⟩ hp.1] at hpaired
    have hplace := place_unique h.distinct hotherRun hrun (Option.some.inj hpaired)
    rw [hplace, hjob] at hj
    exact (Option.some.inj hj).symm

end RunOf

/-- **Pairing is positional and one to one.**  In a run of the workflow each
expression-named job is paired with the job of the run at its own place, and each
job of the run leads back to the job it came from.  Whatever the workflow and the
run, two jobs are never paired with one stored name, none is paired with the name
of a literal job, and a name paired by position is one its template can become. -/
theorem pairing_positional (values : Values V) (parsesAsCel : JsString → Bool) (workflow : Workflow)
    (run : RunWithInputs V) :
    ((workflow.jobs.map Job.name).Nodup → RunOf values parsesAsCel workflow run →
      ∃ pairs, pairExpressionJobs values parsesAsCel workflow run = some pairs ∧
        (∀ i job jobRun, StandAt workflow run i job jobRun →
          evaluatedName job.name = true → pairs.get job.name = some jobRun.jobName ∧
            run.getJob jobRun.jobName = some jobRun) ∧
        ∀ i job jobRun, StandAt workflow run i job jobRun →
          workflowJobOf workflow jobRun (some pairs) = some job) ∧
    ∀ pairs, pairExpressionJobs values parsesAsCel workflow run = some pairs →
      (∀ k k' v, pairs.get k = some v → pairs.get k' = some v → k = k') ∧
      (∀ k v, pairs.get k = some v → v ∉ literalNames workflow) ∧
      (∀ k v, pairs.get k = some v →
        nameFromInputs values parsesAsCel k run.inputs = some v ∨
        ∃ i job jobRun, StandAt workflow run i job jobRun ∧ job.name = k ∧ jobRun.jobName = v) ∧
      ∀ k v, pairs.get k = some v → Substituted parsesAsCel k v := by
  constructor
  · intro hnames h
    obtain ⟨pairs, hpairs, hget⟩ := h.pairs_all hnames
    refine ⟨pairs, hpairs, ?_, ?_⟩
    · intro i job jobRun hat hname
      refine ⟨hget i job jobRun hat hname, ?_⟩
      refine find?_only (List.mem_of_getElem? hat.2) (by simp) ?_
      intro other hother hp
      exact List.inj_on_of_nodup_map h.distinct hother (List.mem_of_getElem? hat.2)
        (by simpa using hp)
    · intro i job jobRun hat
      exact h.workflowJobOf_eq hnames hget hat.1 hat.2
  · intro pairs hpairs
    obtain ⟨hnodup, hcame⟩ := pairExpressionJobs_came hpairs
    refine ⟨?_, ?_, ?_, ?_⟩
    · intro k k' v hk hk'
      have hsame := List.inj_on_of_nodup_map hnodup (OrderedMap.mem_entries.mpr hk)
        (OrderedMap.mem_entries.mpr hk') rfl
      exact (Prod.mk.inj hsame).1
    · intro k v hget
      rcases hcame k v hget with ⟨job, _, _, _, hinputs⟩ | ⟨i, _, _, _, _, _, hliteral, _⟩
      · exact (pairedByInputs_some hinputs).2.1
      · exact hliteral
    · intro k v hget
      rcases hcame k v hget with ⟨job, _, _, rfl, hinputs⟩ | ⟨i, job, jobRun, hat, hk, hv, _⟩
      · exact Or.inl (pairedByInputs_some hinputs).1
      · exact Or.inr ⟨i, job, jobRun, hat, hk, hv⟩
    · intro k v hget
      rcases hcame k v hget with ⟨job, _, _, rfl, hinputs⟩ | ⟨i, _, _, _, _, _, _, hfits⟩
      · exact nameFromInputs_substituted (pairedByInputs_some hinputs).1
      · exact fits_iff.mp hfits

end

/-- Inputs as they are stored, without numbers. -/
def sampleValues : Values (Option Json) where
  undefined := none
  isObject
    | some (.obj _) => true
    | _ => false
  property
    | some (.obj fields), key => fields.lookup key
    | _, _ => none
  isScalar
    | some (.str _) => true
    | _ => false
  text
    | some (.str s) => s
    | _ => []

def sampleJob (name : JsString) : Job := ⟨name, 1, [], []⟩

def sampleJobRun (name : JsString) : JobRun := ⟨name, .succeeded, none, [], fun _ => none⟩

/-- A literal job, one named from the inputs and one named from elsewhere. -/
def sampleWorkflow : Workflow :=
  ⟨[sampleJob (js "build"), sampleJob (js "deploy-$\x7b\x7b inputs.env \x7d\x7d"),
    sampleJob (js "test-$\x7b\x7b os \x7d\x7d-x")]⟩

/-- The last job is stored under a text that holds its own literal part. -/
def sampleRun : RunWithInputs (Option Json) where
  status := .failed
  completedAt := none
  jobs := [sampleJobRun (js "build"), sampleJobRun (js "deploy-prod"),
    sampleJobRun (js "test-a-x-x")]
  tags := fun _ => none
  pid := none
  instanceId := none
  ownerBeforeResume := none
  inputs := some (.obj [(js "env", .str (js "prod"))])

/-- The texts the expressions were replaced by. -/
def sampleText (span : ExpressionSpan) : JsString :=
  if span.inner = js "os" then js "a-x" else js "prod"

theorem sampleRun_of :
    RunOf sampleValues (fun text => decide (text ≠ [])) sampleWorkflow sampleRun where
  evaluates := by
    refine List.Forall₂.cons ?_ (List.Forall₂.cons ?_ (List.Forall₂.cons ?_ List.Forall₂.nil))
    · exact ⟨sampleText, by decide +kernel, by decide +kernel⟩
    · exact ⟨sampleText, by decide +kernel, by decide +kernel⟩
    · exact ⟨sampleText, by decide +kernel, by decide +kernel⟩
  distinct := by decide +kernel
  apart := by
    intro i job jobRun hat hname
    obtain ⟨hjob, hrun⟩ := hat
    match i with
    | 0 =>
      cases hjob
      cases hname
    | 1 =>
      cases hrun
      decide +kernel
    | 2 =>
      cases hrun
      decide +kernel
    | _ + 3 => cases hjob

/-- The three jobs are paired at their own places. -/
theorem pairing_sampleRun :
    ∃ pairs, pairExpressionJobs sampleValues (fun text => decide (text ≠ [])) sampleWorkflow
        sampleRun = some pairs ∧
      pairs.get (js "test-$\x7b\x7b os \x7d\x7d-x") = some (js "test-a-x-x") ∧
      workflowJobOf sampleWorkflow (sampleJobRun (js "deploy-prod")) (some pairs) =
        some (sampleJob (js "deploy-$\x7b\x7b inputs.env \x7d\x7d")) := by
  obtain ⟨pairs, hpairs, hget, hjob⟩ :=
    (pairing_positional sampleValues (fun text => decide (text ≠ [])) sampleWorkflow
      sampleRun).1 (by decide +kernel) sampleRun_of
  exact ⟨pairs, hpairs, (hget 2 _ _ ⟨rfl, rfl⟩ (by decide +kernel)).1, hjob 1 _ _ ⟨rfl, rfl⟩⟩

end Swamp.Workflows.JobPairing
