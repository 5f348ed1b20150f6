import Swamp.ExceptRules
import Swamp.QueryPushdown

/-!
# Pushdown preserves the answers of a query

The loop keeps the rows the filter is true of, in the order they come in, and a
row that is pushed down and passes the filter is one the predicate is true of.
-/

namespace Swamp

namespace Query

open Js

section Loop

variable (cel : Cel) (host : Host) (resolved : Resolved) (options : QueryOptions)
  (predicate : Ast)

/-- What the row loop puts in the results for a row: the record it is returned as, unless
that is still to be hydrated. -/
def Loaded (pair : CatalogRow × DataRecord) : Prop :=
  needsHydration options predicate = false → load host options predicate pair.1 = .ok pair.2

variable {cel host resolved options predicate}

variable {row : CatalogRow}

theorem evaluateRow_cases (hforward : resolved.NoForwards) {outcome : Outcome}
    (h : evaluateRow cel host resolved options predicate row = .ok outcome) :
    (∃ record, outcome = .matched record ∧ Loaded host options predicate (row, record) ∧
      evaluatesTrue cel host resolved options predicate (filterAst options predicate) row = true) ∨
    ((∀ record, outcome ≠ .matched record) ∧
      evaluatesTrue cel host resolved options predicate (filterAst options predicate) row =
        false) := by
  have hkept : isForwarded resolved predicate row = false := by
    unfold isForwarded
    rw [renameTarget_none hforward]
    simp
  unfold evaluateRow at h
  rw [hkept] at h
  unfold evaluatesTrue
  dsimp only at h ⊢
  rw [if_neg Bool.false_ne_true] at h
  cases hresult : (cel (filterAst options predicate)
      (rowEnv host resolved options predicate row)).result with
  | ok v =>
    rw [hresult] at h
    dsimp only at h ⊢
    by_cases hbinary : (cel (filterAst options predicate)
        (rowEnv host resolved options predicate row)).readBinaryContent
          (rowEnv host resolved options predicate row) = true
    · rw [if_pos hbinary] at h
      obtain rfl := Except.ok.inj h
      rw [hbinary]
      exact Or.inr ⟨nofun, by simp⟩
    · rw [if_neg hbinary] at h
      rw [Bool.eq_false_iff.mpr hbinary]
      by_cases htrue : isTrue v = true
      · rw [if_pos htrue] at h
        by_cases hhydrate : needsHydration options predicate = true
        · rw [if_pos hhydrate] at h
          obtain rfl := Except.ok.inj h
          refine Or.inl ⟨_, rfl, ?_, by simp [htrue]⟩
          intro hneeds
          exact absurd (hhydrate.symm.trans hneeds) (by decide)
        · rw [if_neg hhydrate] at h
          split at h
          · rename_i record hload
            obtain rfl := Except.ok.inj h
            exact Or.inl ⟨record, rfl, fun _ => hload, by simp [htrue]⟩
          · exact nomatch h
      · rw [if_neg htrue] at h
        obtain rfl := Except.ok.inj h
        exact Or.inr ⟨nofun, by simp [htrue]⟩
  | error e =>
    rw [hresult] at h
    dsimp only at h ⊢
    split at h
    · exact nomatch h
    · split at h
      · obtain rfl := Except.ok.inj h
        exact Or.inr ⟨nofun, rfl⟩
      · obtain rfl := Except.ok.inj h
        exact Or.inr ⟨nofun, rfl⟩

variable {count : ℕ} {rows : List CatalogRow}

/-- A match short of the limit leaves one less to take. -/
theorem capped_cons (h : limitReached options (count + 1) = false) :
    capped options count (row :: rows) = row :: capped options (count + 1) rows := by
  unfold limitReached at h
  unfold capped
  cases hlimit : options.limit with
  | none => rfl
  | some limit =>
    rw [hlimit] at h
    have hlt : count + 1 < limit := by
      by_contra hle
      exact Bool.false_ne_true (h.symm.trans (decide_eq_true (by omega)))
    have hmax : max (limit - count) 1 = max (limit - (count + 1)) 1 + 1 := by omega
    dsimp only
    rw [hmax, List.take_succ_cons]

theorem capped_last (h : limitReached options (count + 1) = true) :
    capped options count (row :: rows) = [row] := by
  unfold limitReached at h
  unfold capped
  cases hlimit : options.limit with
  | none => rw [hlimit] at h; exact nomatch h
  | some limit =>
    rw [hlimit] at h
    have hle : limit ≤ count + 1 := of_decide_eq_true h
    have hmax : max (limit - count) 1 = 1 := by omega
    dsimp only
    rw [hmax, List.take_succ_cons, List.take_zero]

theorem capped_nil : capped options count [] = [] := by
  unfold capped
  split <;> simp

theorem matchRows_spec (hforward : resolved.NoForwards) {collected final : Collected}
    (h : matchRows cel host resolved options predicate rows collected = .ok final) :
    ∃ pairs, final.results = collected.results ++ pairs ∧
      pairs.map Prod.fst = capped options collected.results.length
        (rows.filter (evaluatesTrue cel host resolved options predicate
          (filterAst options predicate))) ∧
      ∀ pair ∈ pairs, Loaded host options predicate pair := by
  induction rows generalizing collected with
  | nil =>
    obtain rfl := Except.ok.inj h
    exact ⟨[], (List.append_nil _).symm, by rw [List.filter_nil, capped_nil, List.map_nil],
      List.forall_mem_nil _⟩
  | cons row rows ih =>
    unfold matchRows at h
    cases houtcome : evaluateRow cel host resolved options predicate row with
    | error e => rw [houtcome] at h; exact nomatch h
    | ok outcome =>
      rw [houtcome] at h
      dsimp only [bind, Except.bind] at h
      rcases evaluateRow_cases hforward houtcome with
        ⟨record, rfl, hloaded, htrue⟩ | ⟨hunmatched, hfalse⟩
      · rw [List.filter_cons_of_pos htrue]
        dsimp only at h
        have hlength : (collected.results ++ [(row, record)]).length =
            collected.results.length + 1 := List.length_append
        by_cases hlimit : limitReached options (collected.results.length + 1) = true
        · rw [hlength, if_pos hlimit] at h
          obtain rfl := Except.ok.inj h
          refine ⟨[(row, record)], rfl, ?_, List.forall_mem_singleton.mpr hloaded⟩
          rw [capped_last hlimit, List.map_singleton]
        · rw [hlength, if_neg hlimit] at h
          obtain ⟨pairs, hresults, hrows, hall⟩ := ih h
          refine ⟨(row, record) :: pairs, ?_, ?_, List.forall_mem_cons.mpr ⟨hloaded, hall⟩⟩
          · rw [hresults, List.append_assoc]
            rfl
          · rw [capped_cons (Bool.eq_false_iff.mpr hlimit), List.map_cons, hrows]
            rw [← hlength]
      · rw [List.filter_cons_of_neg (by simp [hfalse])]
        cases outcome with
        | matched record => exact absurd rfl (hunmatched record)
        | violation =>
          dsimp only at h
          obtain ⟨pairs, hresults, hrest⟩ := ih h
          exact ⟨pairs, hresults, hrest⟩
        | skipped => exact ih h

end Loop

section Hydration

variable (host : Host) (resolved : Resolved) (options : QueryOptions) (predicate : Ast)

/-- The rows hydration drops: own rows whose file is absent, where stale rows are filtered. -/
def dropped (row : CatalogRow) : Bool :=
  needsHydration options predicate &&
    match isStale host resolved row with
    | .ok stale => stale
    | .error _ => false

/-- The record a matched row is returned as. -/
def returned (row : CatalogRow) : Except Unit DataRecord :=
  if needsHydration options predicate then fromRow host row true (needsContent options predicate)
  else load host options predicate row

/-- `records` are those of some rows, in their order. -/
def RecordsOf (rows : List CatalogRow) (records : List DataRecord) : Prop :=
  List.Forall₂ (fun row record => returned host options predicate row = .ok record) rows records

variable {host resolved options predicate}

theorem hydrateRows_spec (hneeds : needsHydration options predicate = true)
    {pairs : List (CatalogRow × DataRecord)} {kept : ℕ} {records : List DataRecord}
    {keptBefore : List ℕ}
    (h : hydrateRows host resolved options predicate pairs kept = .ok (records, keptBefore)) :
    RecordsOf host options predicate
      ((pairs.map Prod.fst).filter (fun row => !dropped host resolved options predicate row))
      records := by
  induction pairs generalizing kept records keptBefore with
  | nil =>
    obtain ⟨rfl, _⟩ := Prod.mk.inj (Except.ok.inj h)
    exact List.Forall₂.nil
  | cons pair pairs ih =>
    obtain ⟨row, record⟩ := pair
    unfold hydrateRows at h
    cases hstale : isStale host resolved row with
    | error e => rw [hstale] at h; exact nomatch h
    | ok stale =>
      rw [hstale] at h
      have hdropped : dropped host resolved options predicate row = stale := by
        simp only [dropped, hneeds, hstale, Bool.true_and]
      rw [List.map_cons]
      cases stale with
      | true =>
        dsimp only at h
        obtain ⟨rest, hrest, hpair⟩ := ExceptRules.bind_ok h
        obtain ⟨rfl, _⟩ := Prod.mk.inj (Except.ok.inj hpair)
        rw [List.filter_cons_of_neg (by simp [hdropped])]
        exact ih hrest
      | false =>
        dsimp only at h
        rw [List.filter_cons_of_pos (by simp [hdropped])]
        cases hread : fromRow host row true (needsContent options predicate) with
        | error e => rw [hread] at h; exact nomatch h
        | ok read =>
          rw [hread] at h
          obtain ⟨rest, hrest, hpair⟩ := ExceptRules.bind_ok h
          obtain ⟨rfl, _⟩ := Prod.mk.inj (Except.ok.inj hpair)
          refine List.Forall₂.cons ?_ (ih hrest)
          rw [returned, if_pos hneeds]
          exact hread

theorem hydrate_spec {collected : Collected} {result : MatchResult}
    (h : hydrate host resolved options predicate collected = .ok result)
    (hloaded : ∀ pair ∈ collected.results, Loaded host options predicate pair) :
    RecordsOf host options predicate
      ((collected.results.map Prod.fst).filter
        (fun row => !dropped host resolved options predicate row)) result.records := by
  unfold hydrate at h
  by_cases hneeds : needsHydration options predicate = true
  · rw [if_pos hneeds] at h
    obtain ⟨rest, hrest, hresult⟩ := ExceptRules.bind_ok h
    obtain rfl := Except.ok.inj hresult
    exact hydrateRows_spec hneeds hrest
  · rw [if_neg hneeds] at h
    obtain rfl := Except.ok.inj h
    have hkept : ∀ row, (!dropped host resolved options predicate row) = true := by
      intro row
      rw [dropped, Bool.eq_false_iff.mpr hneeds]
      rfl
    rw [List.filter_eq_self.mpr (fun row _ => hkept row)]
    unfold RecordsOf
    rw [List.forall₂_map_left_iff, List.forall₂_map_right_iff, List.forall₂_same]
    intro pair hpair
    rw [returned, if_neg hneeds]
    exact hloaded pair hpair (Bool.eq_false_iff.mpr hneeds)

end Hydration

section Order

variable {α : Type} {r : α → α → Prop} [DecidableRel r] [IsTrans α r]

theorem filter_orderedInsert {p : α → Bool} {a : α} {l : List α} (hsorted : l.Pairwise r) :
    (l.orderedInsert r a).filter p =
      if p a then (l.filter p).orderedInsert r a else l.filter p := by
  induction l with
  | nil =>
    by_cases ha : p a = true <;> simp [ha]
  | cons b l ih =>
    obtain ⟨hb, htail⟩ := List.pairwise_cons.mp hsorted
    by_cases hab : r a b
    · rw [List.orderedInsert_cons_of_le _ _ hab, List.filter_cons]
      by_cases ha : p a = true
      · rw [if_pos ha, if_pos ha]
        symm
        have hle : ∀ c ∈ (b :: l).filter p, r a c := by
          intro c hc
          rcases List.mem_cons.mp (List.mem_filter.mp hc).1 with rfl | hmem
          · exact hab
          · exact IsTrans.trans _ _ _ hab (hb c hmem)
        cases hfilter : (b :: l).filter p with
        | nil => rfl
        | cons c rest =>
          rw [hfilter] at hle
          exact List.orderedInsert_cons_of_le _ _ (hle c List.mem_cons_self)
      · rw [if_neg ha, if_neg ha]
    · rw [List.orderedInsert_of_not_le _ _ hab, List.filter_cons, ih htail]
      by_cases hbp : p b = true
      · rw [if_pos hbp, List.filter_cons_of_pos hbp]
        by_cases ha : p a = true
        · rw [if_pos ha, if_pos ha, List.orderedInsert_of_not_le _ _ hab]
        · rw [if_neg ha, if_neg ha]
      · rw [if_neg hbp, List.filter_cons_of_neg hbp]

/-- Taking some of a list and sorting it commute. -/
theorem filter_insertionSort [Std.Total r] (p : α → Bool) (l : List α) :
    (l.insertionSort r).filter p = (l.filter p).insertionSort r := by
  induction l with
  | nil => rfl
  | cons a l ih =>
    rw [List.insertionSort_cons, filter_orderedInsert (List.pairwise_insertionSort r l), ih]
    by_cases ha : p a = true
    · rw [if_pos ha, List.filter_cons_of_pos ha, List.insertionSort_cons]
    · rw [if_neg ha, List.filter_cons_of_neg ha]

end Order

instance (host : Host) (sort : QuerySort) : Std.Total (Before host sort) where
  total a b := by
    unfold Before
    split
    · exact le_total _ _
    · exact le_total _ _

instance (host : Host) (sort : QuerySort) : IsTrans CatalogRow (Before host sort) where
  trans a b c := by
    unfold Before
    split
    · exact fun hab hbc => le_trans hbc hab
    · exact le_trans

theorem filter_orderRows (host : Host) (options : QueryOptions) (p : CatalogRow → Bool)
    (rows : List CatalogRow) :
    (orderRows host options rows).filter p = orderRows host options (rows.filter p) := by
  unfold orderRows
  cases options.sort with
  | none => rfl
  | some sort => exact filter_insertionSort p rows

section Answers

variable (cel : Cel) (host : Host) (resolved : Resolved) (options : QueryOptions)
  (predicate : Ast) (catalog : List CatalogRow)

/-- The rows a query returns: those it asks for, over the whole catalog and in its order, up
to the limit, without the stale ones. -/
def returnedRows : List CatalogRow :=
  (capped options 0 ((orderRows host options catalog).filter
    (answers cel host resolved options predicate))).filter
      (fun row => !dropped host resolved options predicate row)

variable {cel host resolved options predicate catalog}

/-- An equality, or a call of a model function. -/
def IsPushed (c : Ast) : Prop :=
  (∃ l r, c = .eq l r) ∨ ∃ name args, c = .call name args ∧ name ∈ MODEL_FUNCTIONS

theorem isPushed_string {fields : List JsString} {c : Ast} {s : JsString}
    (h : stringEqualityOf fields c = some s) : IsPushed c := by
  unfold stringEqualityOf equalityOperands at h
  cases c with
  | eq l r => exact Or.inl ⟨l, r, rfl⟩
  | _ => cases h

theorem isPushed_typeTag {c : Ast} {s : JsString} (h : typeTagEqualityOf c = some s) :
    IsPushed c := by
  obtain ⟨l, r, rfl, -⟩ := typeTagEqualityOf_cases h
  exact Or.inl ⟨l, r, rfl⟩

theorem isPushed_model {c : Ast} {s : JsString} (h : modelCallOf c = some s) : IsPushed c := by
  unfold modelCallOf at h
  split at h
  · split at h
    · rename_i hname
      exact Or.inr ⟨_, _, rfl, hname⟩
    · cases h
  · cases h

/-- **Every clause comes from a conjunct** that is an equality or a call of a model. -/
theorem extracted_conjunct {clause : Clause}
    (h : clause ∈ extractedClauses resolved predicate) :
    ∃ c, Conjunct c predicate ∧ IsPushed c ∧ clause ∈ extractedClauses resolved c := by
  unfold extractedClauses at h ⊢
  simp only [List.mem_append, Option.mem_toList, Option.map_eq_some_iff, or_assoc] at h ⊢
  rcases h with ⟨s, hs, heq⟩ | ⟨s, hs, heq⟩ | ⟨s, hs, heq⟩ | ⟨s, hs, heq⟩ | ⟨s, hs, heq⟩ |
    ⟨s, hs, heq⟩ | h
  · obtain ⟨c, hc, hfound, hself⟩ := findSome?_conjunct hs
    exact ⟨c, hc, isPushed_string hfound, Or.inl ⟨s, hself, heq⟩⟩
  · obtain ⟨c, hc, hfound, hself⟩ := findSome?_conjunct hs
    exact ⟨c, hc, isPushed_string hfound, Or.inr (Or.inl ⟨s, hself, heq⟩)⟩
  · obtain ⟨c, hc, hfound, hself⟩ := findSome?_conjunct hs
    exact ⟨c, hc, isPushed_string hfound, Or.inr (Or.inr (Or.inl ⟨s, hself, heq⟩))⟩
  · obtain ⟨c, hc, hfound, hself⟩ := findSome?_conjunct hs
    exact ⟨c, hc, isPushed_string hfound, Or.inr (Or.inr (Or.inr (Or.inl ⟨s, hself, heq⟩)))⟩
  · obtain ⟨c, hc, hfound, hself⟩ := findSome?_conjunct hs
    exact ⟨c, hc, isPushed_string hfound,
      Or.inr (Or.inr (Or.inr (Or.inr (Or.inl ⟨s, hself, heq⟩))))⟩
  · obtain ⟨c, hc, hfound, hself⟩ := findSome?_conjunct hs
    exact ⟨c, hc, isPushed_typeTag hfound,
      Or.inr (Or.inr (Or.inr (Or.inr (Or.inr (Or.inl ⟨s, hself, heq⟩)))))⟩
  · split at h
    · rename_i target htarget
      obtain ⟨reference, hreference, hmodel⟩ := Option.bind_eq_some_iff.mp htarget
      obtain ⟨c, hc, hfound, hself⟩ := findSome?_conjunct hreference
      have hown : modelTarget resolved c = some target :=
        Option.bind_eq_some_iff.mpr ⟨reference, hself, hmodel⟩
      refine ⟨c, hc, isPushed_model hfound, Or.inr (Or.inr (Or.inr (Or.inr (Or.inr (Or.inr ?_)))))⟩
      rw [hown]
      exact h
    · exact absurd h List.not_mem_nil

theorem answers_empty (hcel : cel.Sound) (hforward : resolved.NoForwards)
    (hclauses : whereClauses resolved options predicate = none) (row : CatalogRow) :
    answers cel host resolved options predicate row = false := by
  rw [Bool.eq_false_iff]
  intro h
  have htrue := (evaluatesTrue_iff.mp (Bool.and_eq_true_iff.mp h).2).1
  unfold whereClauses at hclauses
  split at hclauses
  · rename_i hrun
    exact nomatch latestRun_holds hcel hforward htrue hrun
  · exact nomatch hclauses
  · exact nomatch hclauses

/-- **Pushdown preserves the answers.**  Every clause comes from an equality or a call that is a
conjunct of the predicate, and the records a query returns are those of the rows in scope that
the predicate is true of, over the whole catalog, in the catalog's order. -/
theorem executeMatch_records (hcel : cel.Sound) (hforward : resolved.NoForwards)
    (hrows : ∀ row ∈ catalog, row.Written host) {result : MatchResult}
    (h : executeMatch cel host resolved options predicate catalog = .ok result) :
    (∀ clause ∈ extractedClauses resolved predicate,
      ∃ c, Conjunct c predicate ∧ IsPushed c ∧ clause ∈ extractedClauses resolved c) ∧
    (∀ workflow, extractWorkflowRunIdLatestRun predicate = some workflow →
      ∃ l r, Conjunct (.eq l r) predicate ∧
        extractWorkflowRunIdLatestRun (.eq l r) = some workflow) ∧
    RecordsOf host options predicate
      (returnedRows cel host resolved options predicate catalog) result.records := by
  refine ⟨fun clause => extracted_conjunct, fun workflow => latestRun_conjunct, ?_⟩
  obtain ⟨_, _, h⟩ := ExceptRules.bind_ok h
  unfold returnedRows
  cases hclauses : whereClauses resolved options predicate with
  | none =>
    rw [hclauses] at h
    obtain rfl := Except.ok.inj h
    have hnone : (orderRows host options catalog).filter
        (answers cel host resolved options predicate) = [] :=
      List.filter_eq_nil_iff.mpr (fun row _ =>
        Bool.eq_false_iff.mp (answers_empty hcel hforward hclauses row))
    rw [hnone, capped_nil]
    exact List.Forall₂.nil
  | some clauses =>
    rw [hclauses] at h
    dsimp only at h
    have hsort : ¬invalidSortKey options = true := by
      intro hinvalid
      rw [if_pos hinvalid] at h
      exact nomatch h
    rw [if_neg hsort] at h
    obtain ⟨collected, hcollected, hhydrate⟩ := ExceptRules.bind_ok h
    obtain ⟨pairs, hresults, hmatched, hloaded⟩ := matchRows_spec hforward hcollected
    rw [List.nil_append] at hresults
    -- The filter over the pushed rows selects the answers of the whole catalog.
    have hanswers : (pushedRows host options clauses catalog).filter
        (evaluatesTrue cel host resolved options predicate (filterAst options predicate)) =
        (orderRows host options catalog).filter
          (answers cel host resolved options predicate) := by
      unfold pushedRows
      rw [filter_orderRows, filter_orderRows, List.filter_filter]
      congr 1
      apply List.filter_congr
      intro row hrow
      rw [Bool.and_comm]
      exact pushed_answers hcel hforward hclauses (hrows row hrow)
    have hrecords := hydrate_spec hhydrate (hresults ▸ hloaded)
    rw [hresults, hmatched, hanswers] at hrecords
    exact hrecords

end Answers

/-- Equality of two values that are not collections. -/
def sameScalar : Json → Json → Bool
  | .null, .null => true
  | .bool a, .bool b => a = b
  | .num a, .num b => a = b
  | .str a, .str b => a = b
  | _, _ => false

theorem sameScalar_text {u v : Json} (h : sameScalar u v = true) (s : JsString) :
    u = .str s ↔ v = .str s := by
  unfold sameScalar at h
  split at h
  · exact Iff.rfl
  · exact ⟨nofun, nofun⟩
  · exact ⟨nofun, nofun⟩
  · rw [of_decide_eq_true h]
  · exact nomatch h

/-- What `&&` makes of its sides: a failing side gives way to a false one. -/
def andResult : Except Unit Json → Except Unit Json → Except Unit Json
  | .ok (.bool false), _ => .ok (.bool false)
  | .ok (.bool true), .ok (.bool b) => .ok (.bool b)
  | _, .ok (.bool false) => .ok (.bool false)
  | _, _ => .error ()

/-- What `||` makes of its sides: a failing side gives way to a true one. -/
def orResult : Except Unit Json → Except Unit Json → Except Unit Json
  | .ok (.bool true), _ => .ok (.bool true)
  | .ok (.bool false), .ok (.bool b) => .ok (.bool b)
  | _, .ok (.bool true) => .ok (.bool true)
  | _, _ => .error ()

/-- A field of a map. -/
def fieldOf (object : Except Unit Json) (key : JsString) : Except Unit Json :=
  match object with
  | .ok (.obj fields) =>
    match Json.field fields key with
    | some v => .ok v
    | none => .error ()
  | _ => .error ()

/-- A side that decides the whole alone is all that is evaluated. -/
def sequenced (decides : Bool) (result : Except Unit Json → Except Unit Json → Except Unit Json)
    (left right : Run) : Run where
  result := result left.result right.result
  reads :=
    match left.result with
    | .ok (.bool b) => if b = decides then left.reads else left.reads ++ right.reads
    | _ => left.reads ++ right.reads

/-- Literals, fields, equality, `&&`, `||`, `!` and the functions of a query; other operators
fail. -/
def evaluate : Cel
  | .value v, _ => { result := .ok v, reads := [] }
  | .id name, env =>
    { result := match env.field name with
        | .value v => .ok v
        | _ => .error ()
      reads := [name] }
  | .member object key, env =>
    { result := fieldOf (evaluate object env).result key, reads := (evaluate object env).reads }
  | .index object key, env =>
    { result := match (evaluate key env).result with
        | .ok (.str name) => fieldOf (evaluate object env).result name
        | _ => .error ()
      reads := (evaluate object env).reads ++ (evaluate key env).reads }
  | .and left right, env => sequenced false andResult (evaluate left env) (evaluate right env)
  | .binary op left right, env =>
    if op = js "||" then sequenced true orResult (evaluate left env) (evaluate right env)
    else { result := .error (), reads := [] }
  | .not operand, env =>
    { result := match (evaluate operand env).result with
        | .ok (.bool b) => .ok (.bool !b)
        | _ => .error ()
      reads := (evaluate operand env).reads }
  | .eq left right, env =>
    { result := match (evaluate left env).result, (evaluate right env).result with
        | .ok u, .ok v => .ok (.bool (sameScalar u v))
        | _, _ => .error ()
      reads := (evaluate left env).reads ++ (evaluate right env).reads }
  | .call name [.value (.str s)], env =>
    { result :=
        if name ∈ MODEL_FUNCTIONS then .ok (.bool (env.model s))
        else if name = LATEST_RUN_FUNCTION then .ok (env.latestRun s)
        else .error ()
      reads := [] }
  | _, _ => { result := .error (), reads := [] }

theorem andResult_true {l r : Except Unit Json} :
    andResult l r = .ok (.bool true) ↔ l = .ok (.bool true) ∧ r = .ok (.bool true) := by
  unfold andResult
  split
  · simp
  · simp
  · simp
  · rename_i hneither
    constructor
    · exact nofun
    · intro h
      exact absurd h.2 (hneither true h.1)

theorem fieldOf_ok {object : Except Unit Json} {key : JsString} {v : Json}
    (h : fieldOf object key = .ok v) :
    ∃ fields, object = .ok (.obj fields) ∧ Json.field fields key = some v := by
  unfold fieldOf at h
  split at h
  · rename_i fields
    split at h
    · rename_i found hfound
      obtain rfl := Except.ok.inj h
      exact ⟨fields, rfl, hfound⟩
    · exact nomatch h
  · exact nomatch h

theorem evaluate_and_reads {env : Env} {l r : Ast} (hl : (evaluate l env).IsTrue) :
    (evaluate (.and l r) env).reads = (evaluate l env).reads ++ (evaluate r env).reads := by
  rw [evaluate, sequenced, hl]
  rfl

theorem evaluate_sound : Cel.Sound evaluate where
  value env v := by rw [evaluate]
  id env name v := by
    rw [evaluate]
    dsimp only
    cases env.field name with
    | value w =>
      constructor
      · intro h
        rw [Except.ok.inj h]
      · intro h
        rw [FieldRead.value.inj h]
    | _ => exact ⟨nofun, nofun⟩
  member env object key v h := by
    rw [evaluate] at h
    exact fieldOf_ok h
  index env object key name v h hkey := by
    rw [evaluate] at h
    dsimp only at h
    rw [hkey] at h
    exact fieldOf_ok h
  and env l r := by
    rw [evaluate]
    exact andResult_true
  eq env l r h := by
    unfold Run.IsTrue at h
    rw [evaluate] at h
    dsimp only at h
    split at h
    · rename_i u v hu hv
      exact ⟨u, v, hu, hv, sameScalar_text (Json.bool.inj (Except.ok.inj h))⟩
    · exact nomatch h
  eqBool env l r b c hl hr := by
    unfold Run.IsTrue
    rw [evaluate]
    dsimp only
    rw [hl, hr]
    simp [sameScalar]
  modelCall env name reference hname h := by
    unfold Run.IsTrue at h
    rw [evaluate] at h
    dsimp only at h
    rw [if_pos hname] at h
    exact Json.bool.inj (Except.ok.inj h)
  latestRunCall env workflow v h := by
    rw [evaluate] at h
    dsimp only at h
    rw [if_neg (by decide), if_pos rfl] at h
    exact (Except.ok.inj h).symm
  readsAnd env l r name hl := by
    rw [evaluate_and_reads hl]
    exact List.mem_append
  readsEq env l r name h := by
    rw [evaluate] at h
    exact List.mem_append.mp h
  readsId env name field h := by
    rw [evaluate] at h
    exact List.mem_singleton.mp h
  readsValue env v := by rw [evaluate]

def sampleHost : Host where
  toLowerCase := id
  parseJson := fun text => if text = js "t" then some (.obj [(js "type", .str (js "resource"))])
    else none
  decode := fun _ => []
  ns := []
  getContent := fun _ => .ok none
  isAcceptedShortContent := fun _ => true
  hasContentFile := fun _ => .ok true
  tagText := fun _ _ => []

def sampleResolved : Resolved where
  latestRuns := fun _ => none
  models := fun _ => none
  renameForwards := fun _ _ _ => none
  filterStaleRows := true

/-- The options of a process. -/
def sampleOptions : QueryOptions where
  limit := none
  latestPerStep := false
  loadAttributes := none
  select := none
  excludeModelTypes := []
  sort := none

/-- A latest row of some type tag and content type. -/
def sampleRow (tag contentType : JsString) : CatalogRow where
  ns := []
  typeNormalized := js "aws/ec2"
  modelId := js "m1"
  dataName := js "vpc"
  id := js "1"
  version := 1
  isLatest := 1
  isStepLatest := 1
  modelName := js "net"
  specName := []
  dataType := tag
  contentType := contentType
  lifetime := js "infinite"
  garbageCollection := js "10"
  lifecycle := js "active"
  ownerType := js "model-method"
  streaming := 0
  size := 0
  createdAt := []
  tags := if tag = [] then [] else js "t"
  ownerRef := []
  workflowRunId := []
  workflowName := []
  jobName := []
  stepName := []
  source := []

/-- `content == "x" || true`. -/
def absorbedContent : Ast :=
  .binary (js "||") (.eq (.id (js "content")) (.value (.str (js "x")))) (.value (.bool true))

/-- The predicate is true of a row in scope, yet its record is not returned. -/
def LeavesOut (host : Host) (predicate : Ast) (row : CatalogRow) : Prop :=
  inScope sampleOptions predicate row = true ∧
  (evaluate predicate (rowEnv host sampleResolved sampleOptions predicate row)).IsTrue ∧
  ∃ result, executeMatch evaluate host sampleResolved sampleOptions predicate [row] =
    .ok result ∧ result.records = []

/-- Three rows a predicate is true of that are not returned: one whose content is absorbed
though it is no text, one whose file is absent, and one of a lifecycle no writer stores. -/
theorem executeMatch_leaves_out :
    sampleResolved.NoForwards ∧ Cel.Sound evaluate ∧
      LeavesOut sampleHost absorbedContent (sampleRow [] (js "image/png")) ∧
      LeavesOut { sampleHost with hasContentFile := fun _ => .ok false } (.value (.bool true))
        (sampleRow [] (js "image/png")) ∧
      LeavesOut sampleHost (.eq (.id (js "lifecycle")) (.value (.str [])))
        { sampleRow [] (js "image/png") with lifecycle := js "archived" } :=
  ⟨fun _ _ _ => rfl, evaluate_sound,
    ⟨by rfl, by rfl, ⟨[], [(bareRecord sampleHost (sampleRow [] (js "image/png")), 0)], false⟩,
      by rfl, rfl⟩,
    ⟨by rfl, by rfl, ⟨[], [], false⟩, by rfl, rfl⟩,
    ⟨by rfl, by rfl, ⟨[], [], false⟩, by rfl, rfl⟩⟩

/-- `modelName == "net" && tags.type == "resource"`. -/
def taggedPredicate : Ast :=
  .and (.eq (.id (js "modelName")) (.value (.str (js "net"))))
    (.eq (.member (.id (js "tags")) (js "type")) (.value (.str (js "resource"))))

/-- Of two rows, the one of the tag is returned. -/
theorem executeMatch_records_tagged :
    let tagged := sampleRow (js "resource") (js "application/json")
    RecordsOf sampleHost sampleOptions taggedPredicate
      (returnedRows evaluate sampleHost sampleResolved sampleOptions taggedPredicate
        [tagged, sampleRow [] (js "image/png")])
      [bareRecord sampleHost tagged] := by
  intro tagged
  have hrows : ∀ row ∈ [tagged, sampleRow [] (js "image/png")], row.Written sampleHost := by
    refine List.forall_mem_cons.mpr ⟨⟨by rfl, Or.inl rfl⟩, List.forall_mem_singleton.mpr ?_⟩
    exact ⟨by rfl, Or.inl rfl⟩
  have hrun : executeMatch evaluate sampleHost sampleResolved sampleOptions taggedPredicate
      [tagged, sampleRow [] (js "image/png")] =
      .ok { records := [bareRecord sampleHost tagged], violations := [], hitLimit := false } := by
    rfl
  exact (executeMatch_records evaluate_sound (fun _ _ _ => rfl) hrows hrun).2.2

end Query

end Swamp
