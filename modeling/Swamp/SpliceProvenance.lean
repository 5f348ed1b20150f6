import Swamp.SplicedPieces

/-!
# Splice provenance

A pass that puts values in the place of expressions carries what is known of the
characters of its tree, so that text that came from data is never evaluated later.
-/

namespace Swamp

namespace Provenance

open Js LiteralMatch ExpressionScanner ProvenanceMap

/-- A value no object of which has a key twice. -/
inductive Distinct : Json → Prop
  | null : Distinct .null
  | bool (b : Bool) : Distinct (.bool b)
  | num (n : ℚ) : Distinct (.num n)
  | str (s : JsString) : Distinct (.str s)
  | arr {items : List Json} (h : ∀ item ∈ items, Distinct item) : Distinct (.arr items)
  | obj {fields : List (JsString × Json)} (hkeys : (fields.map Prod.fst).Nodup)
      (h : ∀ field ∈ fields, Distinct field.2) : Distinct (.obj fields)

section

variable (parsesAsCel : JsString → Bool) (numberText : ℚ → JsString)
  (values : JsString → Option (Option Json)) (originOf : JsString → SpliceOrigin)
  (map map' : ProvenanceMap) (exact : Prop)

/-- What is said of the characters at a place and below it goes along. -/
def Carried (place : List Step) : Prop :=
  ∀ below i,
    (map.IsData (pathOf (place ++ below)) i → map'.IsData (pathOf (place ++ below)) i) ∧
      (exact → map'.IsData (pathOf (place ++ below)) i → map.IsData (pathOf (place ++ below)) i)

/-- A tree made from another by putting values in the place of expressions none of whose
characters is data, under a map that carries what was said of the characters. -/
inductive Spliced : List Step → Json → Json → Prop
  /-- A value that is left alone. -/
  | kept {place : List Step} {data : Json} (h : Carried map map' exact place) :
      Spliced place data data
  /-- A string that is one expression gives way to a value. -/
  | whole {place : List Step} {source : JsString} {span : ExpressionSpan} {value : Json}
      (hsingle : matchSingleExpression parsesAsCel source = some span)
      (hvalue : values span.raw = some (some value))
      (hfresh : ∀ i, span.start ≤ i → i < span.stop → ¬ map.IsData (pathOf place) i)
      (hmarks : ∀ below i, (originOf span.raw).map.IsData (pathOf below) i →
        map'.IsData (pathOf (place ++ below)) i) :
      Spliced place (.str source) value
  /-- A string is put together from pieces. -/
  | pieces {place : List Step} {source : JsString} {pieces : List Piece}
      (htiles : Tiles source 0 pieces)
      (hsound : PiecesSound parsesAsCel numberText values originOf map map' exact (pathOf place)
        source 0 pieces) :
      Spliced place (.str source) (.str (pieces.flatMap (Piece.text numberText source)))
  | arr {place : List Step} {items results : List Json} (hlength : results.length = items.length)
      (h : ∀ (k : ℕ) (item result : Json), items[k]? = some item → results[k]? = some result →
        Spliced (place ++ [.index k]) item result) :
      Spliced place (.arr items) (.arr results)
  | obj {place : List Step} {fields results : List (JsString × Json)}
      (hkeys : results.map Prod.fst = fields.map Prod.fst)
      (h : ∀ (k : ℕ) (field result : JsString × Json), fields[k]? = some field →
        results[k]? = some result → Spliced (place ++ [.key field.1]) field.2 result.2) :
      Spliced place (.obj fields) (.obj results)

end

section

variable (parsesAsCel : JsString → Bool) (numberText : ℚ → JsString)
  (values : JsString → Option (Option Json)) (skipPath : JsString → Bool)
  (provenance : ProvenanceMap) (originOf : JsString → SpliceOrigin)

mutual

/-- The updates of a walk, by places. -/
def changesAt (place : List Step) (data : Json) : List (List Step × ProvenanceMap) :=
  if skipPath (pathOf place) then []
  else if provenance.isWholeDataAt (pathOf place) then []
  else
    match data with
    | .str text =>
      (trackString parsesAsCel numberText values provenance originOf (pathOf place)
        text).2.toList.map (fun map => (place, map))
    | .arr items => changesOfItems place 0 items
    | .obj fields => changesOfFields place fields
    | _ => []

def changesOfItems (place : List Step) (index : ℕ) : List Json → List (List Step × ProvenanceMap)
  | [] => []
  | item :: items =>
    changesAt (place ++ [.index index]) item ++ changesOfItems place (index + 1) items

def changesOfFields (place : List Step) :
    List (JsString × Json) → List (List Step × ProvenanceMap)
  | [] => []
  | (key, value) :: fields => changesAt (place ++ [.key key]) value ++ changesOfFields place fields

end

end

section

variable {parsesAsCel : JsString → Bool} {numberText : ℚ → JsString}
  {values : JsString → Option (Option Json)} {skipPath : JsString → Bool}
  {provenance : ProvenanceMap} {originOf : JsString → SpliceOrigin}

/-- What happens to a string: it stays, gives way to a value or is put together from pieces. -/
theorem trackString_cases (path text : JsString) :
    trackString parsesAsCel numberText values provenance originOf path text = (.str text, none) ∨
      (∃ span value, matchSingleExpression parsesAsCel text = some span ∧
        values span.raw = some (some value) ∧
        provenance.overlapsData path span.start span.stop = false ∧
        trackString parsesAsCel numberText values provenance originOf path text =
          (value, some (originOf span.raw).map)) ∨
      ∃ pieces ranges, Tiles text 0 pieces ∧
        (∀ j, Covers ranges j ↔ PiecesCover parsesAsCel numberText originOf text
          (provenance.rangesAt path) j 0 pieces) ∧
        Substituted values provenance path (scanExpressions parsesAsCel text) pieces ∧
        trackString parsesAsCel numberText values provenance originOf path text =
          (.str (pieces.flatMap (Piece.text numberText text)),
            some (authored.withRanges [] ranges)) := by
  unfold trackString
  split
  · exact Or.inl rfl
  · cases hsingle : matchSingleExpression parsesAsCel text with
    | some span =>
      simp only
      split
      · exact Or.inl rfl
      · rename_i hoverlap
        split
        · rename_i value hvalue
          exact Or.inr (Or.inl ⟨span, value, rfl, hvalue, by simpa using hoverlap, rfl⟩)
        · exact Or.inl rfl
    | none =>
      simp only
      obtain ⟨pieces, htiles, hbuilds, hsubs⟩ := @embedFrom_builds 0 parsesAsCel numberText
        values originOf text provenance path _ ⟨[], []⟩ (scanExpressions_laid text)
      refine Or.inr (Or.inr ⟨pieces, (embedFrom parsesAsCel numberText values provenance originOf
        path text 0 ⟨[], []⟩ (scanExpressions parsesAsCel text)).ranges, htiles, ?_, hsubs, ?_⟩)
      · intro j
        rw [hbuilds.covers]
        simp [covers_nil]
      · rw [hbuilds.out]
        rfl

variable {place : List Step} {change : List Step × ProvenanceMap}

theorem mem_changesOfItems {items : List Json} {index : ℕ} :
    change ∈ changesOfItems parsesAsCel numberText values skipPath provenance originOf place index
        items ↔
      ∃ k item, items[k]? = some item ∧ change ∈ changesAt parsesAsCel numberText values skipPath
        provenance originOf (place ++ [.index (index + k)]) item := by
  induction items generalizing index with
  | nil => simp [changesOfItems]
  | cons item items ih =>
    rw [changesOfItems, List.mem_append, ih]
    constructor
    · intro h
      rcases h with h | ⟨k, other, hother, h⟩
      · exact ⟨0, item, rfl, h⟩
      · refine ⟨k + 1, other, hother, ?_⟩
        rwa [Nat.add_right_comm, Nat.add_assoc] at h
    · intro h
      obtain ⟨k, other, hother, h⟩ := h
      cases k with
      | zero =>
        cases hother
        exact Or.inl h
      | succ k =>
        refine Or.inr ⟨k, other, hother, ?_⟩
        rwa [Nat.add_right_comm, Nat.add_assoc]

theorem mem_changesOfFields {fields : List (JsString × Json)} :
    change ∈ changesOfFields parsesAsCel numberText values skipPath provenance originOf place
        fields ↔
      ∃ field ∈ fields, change ∈ changesAt parsesAsCel numberText values skipPath
        provenance originOf (place ++ [.key field.1]) field.2 := by
  induction fields with
  | nil => simp [changesOfFields]
  | cons field fields ih =>
    rw [changesOfFields, List.mem_append, ih]
    simp only [List.mem_cons, or_and_right, exists_or, exists_eq_left]

variable {data : Json}

/-- A walk changes nothing but what stands below where it begins. -/
theorem prefix_of_mem_changesAt (hdistinct : Distinct data)
    (h : change ∈ changesAt parsesAsCel numberText values skipPath provenance originOf place data) :
    place <+: change.1 := by
  induction hdistinct generalizing place with
  | str text =>
    unfold changesAt at h
    split_ifs at h
    · cases h
    · cases h
    · obtain ⟨map, _, rfl⟩ := List.mem_map.mp h
      exact List.prefix_refl _
  | arr _ ih =>
    unfold changesAt at h
    split_ifs at h
    · cases h
    · cases h
    · obtain ⟨k, item, hitem, h⟩ := mem_changesOfItems.mp h
      exact (List.prefix_append _ _).trans (ih item (List.mem_of_getElem? hitem) h)
  | obj _ _ ih =>
    unfold changesAt at h
    split_ifs at h
    · cases h
    · cases h
    · obtain ⟨field, hfield, h⟩ := mem_changesOfFields.mp h
      exact (List.prefix_append _ _).trans (ih field hfield h)
  | null | bool b | num n =>
    unfold changesAt at h
    split_ifs at h <;> cases h

theorem apart_of_steps {a b : List Step} {s t : Step} (hne : s ≠ t) (ha : place ++ [s] <+: a)
    (hb : place ++ [t] <+: b) : ¬ a <+: b ∧ ¬ b <+: a := by
  -- Two places above one place have their steps in common.
  have hcommon : ∀ {c : List Step}, place ++ [s] <+: c → place ++ [t] <+: c → False := by
    intro c hs ht
    have hboth := List.prefix_of_prefix_length_le hs ht (by simp)
    have heq := hboth.eq_of_length (by simp)
    exact hne (by simpa using heq)
  exact ⟨fun hab => hcommon (ha.trans hab) hb, fun hba => hcommon ha (hb.trans hba)⟩

theorem changesOfItems_apart {items : List Json} (hdistinct : ∀ item ∈ items, Distinct item)
    (h : ∀ item ∈ items, ∀ place, Apart (changesAt parsesAsCel numberText values skipPath provenance
      originOf place item)) (place : List Step) (index : ℕ) :
    Apart (changesOfItems parsesAsCel numberText values skipPath provenance originOf place index
      items) := by
  induction items generalizing index with
  | nil => exact List.Pairwise.nil
  | cons item items ih =>
    obtain ⟨hfirst, hrest⟩ := List.forall_mem_cons.mp hdistinct
    obtain ⟨happart, hmore⟩ := List.forall_mem_cons.mp h
    rw [changesOfItems]
    refine List.pairwise_append.mpr ⟨happart _, ih hrest hmore _, ?_⟩
    intro a ha b hb
    obtain ⟨k, other, hother, hb⟩ := mem_changesOfItems.mp hb
    have hstep : Step.index index ≠ Step.index (index + 1 + k) := by
      intro heq
      have hindex := Step.index.inj heq
      omega
    exact apart_of_steps hstep (prefix_of_mem_changesAt hfirst ha)
      (prefix_of_mem_changesAt (hrest other (List.mem_of_getElem? hother)) hb)

theorem changesOfFields_apart {fields : List (JsString × Json)}
    (hkeys : (fields.map Prod.fst).Nodup) (hdistinct : ∀ field ∈ fields, Distinct field.2)
    (h : ∀ field ∈ fields, ∀ place, Apart (changesAt parsesAsCel numberText values skipPath
      provenance originOf place field.2)) (place : List Step) :
    Apart (changesOfFields parsesAsCel numberText values skipPath provenance originOf place
      fields) := by
  induction fields with
  | nil => exact List.Pairwise.nil
  | cons field fields ih =>
    obtain ⟨hfirst, hrest⟩ := List.forall_mem_cons.mp hdistinct
    obtain ⟨happart, hmore⟩ := List.forall_mem_cons.mp h
    rw [List.map_cons, List.nodup_cons] at hkeys
    rw [changesOfFields]
    refine List.pairwise_append.mpr ⟨happart _, ih hkeys.2 hrest hmore, ?_⟩
    intro a ha b hb
    obtain ⟨other, hother, hb⟩ := mem_changesOfFields.mp hb
    have hstep : Step.key field.1 ≠ Step.key other.1 := by
      intro heq
      rw [Step.key.inj heq] at hkeys
      exact hkeys.1 (List.mem_map_of_mem hother)
    exact apart_of_steps hstep (prefix_of_mem_changesAt hfirst ha)
      (prefix_of_mem_changesAt (hrest other hother) hb)

/-- **No update of a walk stands below another.** -/
theorem changesAt_apart (hdistinct : Distinct data) (place : List Step) :
    Apart (changesAt parsesAsCel numberText values skipPath provenance originOf place data) := by
  induction hdistinct generalizing place with
  | str text =>
    unfold changesAt
    split_ifs
    · exact List.Pairwise.nil
    · exact List.Pairwise.nil
    · simp only
      cases (trackString parsesAsCel numberText values provenance originOf (pathOf place)
        text).2 with
      | none => exact List.Pairwise.nil
      | some map => exact List.pairwise_singleton _ _
  | arr hitems ih =>
    unfold changesAt
    split_ifs
    · exact List.Pairwise.nil
    · exact List.Pairwise.nil
    · exact changesOfItems_apart hitems (fun item hitem => ih item hitem) place 0
  | obj hkeys hfields ih =>
    unfold changesAt
    split_ifs
    · exact List.Pairwise.nil
    · exact List.Pairwise.nil
    · exact changesOfFields_apart hkeys hfields (fun field hfield => ih field hfield) place
  | null | bool b | num n =>
    unfold changesAt
    split_ifs <;> exact List.Pairwise.nil

theorem trackItems_updates {items : List Json}
    (h : ∀ item ∈ items, ∀ place, (replaceTracked parsesAsCel numberText values skipPath provenance
      originOf (pathOf place) item).2 = atPaths (changesAt parsesAsCel numberText values skipPath
        provenance originOf place item)) (place : List Step) (index : ℕ) :
    (trackItems parsesAsCel numberText values skipPath provenance originOf (pathOf place) index
      items).2 = atPaths (changesOfItems parsesAsCel numberText values skipPath provenance originOf
        place index items) := by
  induction items generalizing index with
  | nil => rfl
  | cons item items ih =>
    obtain ⟨hfirst, hrest⟩ := List.forall_mem_cons.mp h
    rw [trackItems, changesOfItems, indexPath_pathOf]
    simp only [hfirst, ih hrest, atPaths, List.map_append]

theorem trackFields_updates {fields : List (JsString × Json)}
    (h : ∀ field ∈ fields, ∀ place, (replaceTracked parsesAsCel numberText values skipPath
      provenance originOf (pathOf place) field.2).2 = atPaths (changesAt parsesAsCel numberText
        values skipPath provenance originOf place field.2)) (place : List Step) :
    (trackFields parsesAsCel numberText values skipPath provenance originOf (pathOf place)
      fields).2 = atPaths (changesOfFields parsesAsCel numberText values skipPath provenance
        originOf place fields) := by
  induction fields with
  | nil => rfl
  | cons field fields ih =>
    obtain ⟨hfirst, hrest⟩ := List.forall_mem_cons.mp h
    rw [trackFields, changesOfFields, keyPath_pathOf]
    simp only [hfirst, ih hrest, atPaths, List.map_append]

/-- **The updates of a walk are those of its places.** -/
theorem replaceTracked_updates (hdistinct : Distinct data) (place : List Step) :
    (replaceTracked parsesAsCel numberText values skipPath provenance originOf (pathOf place)
      data).2 = atPaths (changesAt parsesAsCel numberText values skipPath provenance originOf place
        data) := by
  induction hdistinct generalizing place with
  | str text =>
    unfold replaceTracked changesAt
    split_ifs
    · rfl
    · rfl
    · simp [atPaths]
  | arr hitems ih =>
    unfold replaceTracked changesAt
    split_ifs
    · rfl
    · rfl
    · exact trackItems_updates (fun item hitem => ih item hitem) place 0
  | obj hkeys hfields ih =>
    unfold replaceTracked changesAt
    split_ifs
    · rfl
    · rfl
    · exact trackFields_updates (fun field hfield => ih field hfield) place
  | null | bool b | num n =>
    unfold replaceTracked changesAt
    split_ifs <;> rfl

variable {path : JsString}

theorem trackItems_results {items : List Json} {index : ℕ} :
    (trackItems parsesAsCel numberText values skipPath provenance originOf path index
      items).1.length = items.length ∧
      ∀ (k : ℕ) (item result : Json), items[k]? = some item →
        (trackItems parsesAsCel numberText values skipPath provenance originOf path index
          items).1[k]? = some result →
        (replaceTracked parsesAsCel numberText values skipPath provenance originOf
          (indexPath path (index + k)) item).1 = result := by
  induction items generalizing index with
  | nil => exact ⟨rfl, fun k item result hitem => by simp at hitem⟩
  | cons first items ih =>
    obtain ⟨hlength, hresults⟩ := @ih (index + 1)
    rw [trackItems]
    refine ⟨congrArg Nat.succ hlength, ?_⟩
    intro k item result hitem hresult
    cases k with
    | zero =>
      cases hitem
      exact Option.some.inj hresult
    | succ k =>
      have hrest := hresults k item result hitem hresult
      rwa [Nat.add_right_comm, Nat.add_assoc] at hrest

theorem trackFields_results {fields : List (JsString × Json)} :
    (trackFields parsesAsCel numberText values skipPath provenance originOf path
      fields).1.map Prod.fst = fields.map Prod.fst ∧
      ∀ (k : ℕ) (field result : JsString × Json), fields[k]? = some field →
        (trackFields parsesAsCel numberText values skipPath provenance originOf path
          fields).1[k]? = some result →
        (replaceTracked parsesAsCel numberText values skipPath provenance originOf
          (keyPath path field.1) field.2).1 = result.2 := by
  induction fields with
  | nil => exact ⟨rfl, fun k field result hfield => by simp at hfield⟩
  | cons first fields ih =>
    obtain ⟨hkeys, hresults⟩ := ih
    rw [trackFields]
    refine ⟨congrArg (List.cons first.1) hkeys, ?_⟩
    intro k field result hfield hresult
    cases k with
    | zero =>
      cases hfield
      rw [← Option.some.inj hresult]
    | succ k => exact hresults k field result hfield hresult

variable {all : List (List Step × ProvenanceMap)}

/-- What no update stands above or below is carried. -/
theorem carried_of_apart (happart : Apart all) {exact : Prop}
    (hexact : exact → provenance.Canonical)
    (hnone : ∀ change ∈ all, ¬ (change.1 <+: place ∨ place <+: change.1)) :
    Carried provenance (provenance.graftAll (atPaths all)) exact place := by
  intro below i
  have hout : ∀ change ∈ all, ¬ change.1 <+: place ++ below := fun change hchange habove =>
    hnone change hchange (List.prefix_or_prefix_of_prefix habove (List.prefix_append _ _))
  exact ⟨isData_graftAll_kept happart hout,
    fun hholds => isData_of_graftAll happart (hexact hholds) hout⟩

/-- **A string.** -/
theorem spliced_trackString (happart : Apart all) (text : JsString)
    (hwhole : provenance.isWholeDataAt (pathOf place) = false)
    (hmem : ∀ map ∈ (trackString parsesAsCel numberText values provenance originOf (pathOf place)
      text).2, (place, map) ∈ all)
    (honly : ∀ change ∈ all, (change.1 <+: place ∨ place <+: change.1) →
      (trackString parsesAsCel numberText values provenance originOf (pathOf place)
        text).2 ≠ none) :
    Spliced parsesAsCel numberText values originOf provenance
      (provenance.graftAll (atPaths all)) (provenance.Canonical ∧ OriginsWithin values originOf)
      place (.str text)
      (trackString parsesAsCel numberText values provenance originOf (pathOf place) text).1 := by
  rcases @trackString_cases parsesAsCel numberText values provenance originOf (pathOf place) text
    with hkept | ⟨span, value, hsingle, hvalue, hfresh, hsome⟩ |
      ⟨pieces, ranges, htiles, hcovers, hsubs, hsome⟩
  · rw [hkept] at honly ⊢
    refine .kept (carried_of_apart happart And.left ?_)
    intro change hchange hbeside
    exact honly change hchange hbeside rfl
  · rw [hsome] at hmem ⊢
    have hchange := hmem _ rfl
    refine .whole hsingle hvalue ?_ (fun below i hdata =>
      isData_graftAll_under happart hchange hdata)
    intro i hi hlt hdata
    rw [overlapsData_of_isData hdata hi hlt] at hfresh
    cases hfresh
  · rw [hsome] at hmem ⊢
    have hchange := hmem _ rfl
    refine .pieces htiles (piecesSound hwhole And.right htiles hsubs ?_ ?_)
    · intro j hj
      exact isData_graftAll_ranges happart hchange ((hcovers j).mpr hj)
    · intro hexact j _ hdata
      exact (hcovers j).mp (covers_of_graftAll happart hexact.1 hwhole hchange hdata)

theorem left_alone (data : Json)
    (h : skipPath (pathOf place) = true ∨ provenance.isWholeDataAt (pathOf place) = true) :
    (replaceTracked parsesAsCel numberText values skipPath provenance originOf (pathOf place)
        data).1 = data ∧
      changesAt parsesAsCel numberText values skipPath provenance originOf place data = [] := by
  unfold replaceTracked changesAt
  by_cases hskip : skipPath (pathOf place) = true
  · rw [if_pos hskip, if_pos hskip]
    exact ⟨rfl, rfl⟩
  · rw [if_neg hskip, if_neg hskip, if_pos (h.resolve_left hskip),
      if_pos (h.resolve_left hskip)]
    exact ⟨rfl, rfl⟩

/-- Any other place is walked over. -/
theorem walked (data : Json)
    (h : ¬ (skipPath (pathOf place) = true ∨ provenance.isWholeDataAt (pathOf place) = true)) :
    (replaceTracked parsesAsCel numberText values skipPath provenance originOf (pathOf place)
        data).1 = (match data with
      | .str text => (trackString parsesAsCel numberText values provenance originOf (pathOf place)
          text).1
      | .arr items => .arr (trackItems parsesAsCel numberText values skipPath provenance originOf
          (pathOf place) 0 items).1
      | .obj fields => .obj (trackFields parsesAsCel numberText values skipPath provenance originOf
          (pathOf place) fields).1
      | data => data) ∧
      changesAt parsesAsCel numberText values skipPath provenance originOf place data =
        (match data with
      | .str text => (trackString parsesAsCel numberText values provenance originOf (pathOf place)
          text).2.toList.map (fun map => (place, map))
      | .arr items => changesOfItems parsesAsCel numberText values skipPath provenance originOf
          place 0 items
      | .obj fields => changesOfFields parsesAsCel numberText values skipPath provenance originOf
          place fields
      | _ => []) := by
  rw [not_or] at h
  unfold replaceTracked changesAt
  rw [if_neg h.1, if_neg h.1, if_neg h.2, if_neg h.2]
  cases data <;> exact ⟨rfl, rfl⟩

/-- **A walk over a tree splices it**, under the map that holds every update. -/
theorem spliced_replaceTracked (hdistinct : Distinct data) (happart : Apart all) (place : List Step)
    (hmem : ∀ change ∈ changesAt parsesAsCel numberText values skipPath provenance originOf place
      data, change ∈ all) (honly : ∀ change ∈ all, (change.1 <+: place ∨ place <+: change.1) →
      change ∈ changesAt parsesAsCel numberText values skipPath provenance originOf place data) :
    Spliced parsesAsCel numberText values originOf provenance
      (provenance.graftAll (atPaths all)) (provenance.Canonical ∧ OriginsWithin values originOf)
      place data
      (replaceTracked parsesAsCel numberText values skipPath provenance originOf (pathOf place)
        data).1 := by
  have hkept : ∀ {place : List Step} {data : Json},
      (replaceTracked parsesAsCel numberText values skipPath provenance originOf (pathOf place)
          data).1 = data ∧
        changesAt parsesAsCel numberText values skipPath provenance originOf place data = [] →
      (∀ change ∈ all, (change.1 <+: place ∨ place <+: change.1) →
        change ∈ changesAt parsesAsCel numberText values skipPath provenance originOf place data) →
      Spliced parsesAsCel numberText values originOf provenance
        (provenance.graftAll (atPaths all))
        (provenance.Canonical ∧ OriginsWithin values originOf) place data
        (replaceTracked parsesAsCel numberText values skipPath provenance originOf (pathOf place)
          data).1 := by
    intro place data hsame honly
    rw [hsame.2] at honly
    rw [hsame.1]
    refine .kept (carried_of_apart happart And.left ?_)
    intro change hchange hbeside
    cases honly change hchange hbeside
  induction hdistinct generalizing place with
  | null | bool b
  | num n => exact hkept (by unfold replaceTracked changesAt; split_ifs <;> exact ⟨rfl, rfl⟩) honly
  | str text =>
    by_cases hleft : skipPath (pathOf place) = true ∨
        provenance.isWholeDataAt (pathOf place) = true
    · exact hkept (left_alone _ hleft) honly
    · obtain ⟨hresult, hchanges⟩ := walked (.str text) hleft
      rw [hresult]
      rw [hchanges] at hmem honly
      refine spliced_trackString happart text (by simpa using (not_or.mp hleft).2) ?_ ?_
      · intro map hmap
        refine hmem _ (List.mem_map_of_mem ?_)
        exact Option.mem_toList.mpr hmap
      · intro change hchange hbeside hnone
        have hin := honly change hchange hbeside
        simp only [hnone] at hin
        cases hin
  | arr hitems ih =>
    by_cases hleft : skipPath (pathOf place) = true ∨
        provenance.isWholeDataAt (pathOf place) = true
    · exact hkept (left_alone _ hleft) honly
    · obtain ⟨hresult, hchanges⟩ := walked _ hleft
      rw [hresult]
      rw [hchanges] at hmem honly
      obtain ⟨hlength, hresults⟩ := @trackItems_results parsesAsCel numberText values skipPath
        provenance originOf (pathOf place) _ 0
      refine .arr hlength ?_
      intro k item result hitem hresult'
      have hstep := hresults k item result hitem hresult'
      rw [indexPath_pathOf, Nat.zero_add] at hstep
      rw [← hstep]
      refine ih item (List.mem_of_getElem? hitem) _ ?_ ?_
      · intro change hchange
        refine hmem change (mem_changesOfItems.mpr ⟨k, item, hitem, ?_⟩)
        rwa [Nat.zero_add]
      · intro change hchange hbeside
        have habove : change.1 <+: place ∨ place <+: change.1 := by
          cases hbeside with
          | inl h => exact List.prefix_or_prefix_of_prefix h (List.prefix_append _ _)
          | inr h => exact Or.inr ((List.prefix_append _ _).trans h)
        obtain ⟨j, other, hother, hin⟩ := mem_changesOfItems.mp (honly change hchange habove)
        have hunder := prefix_of_mem_changesAt (hitems other (List.mem_of_getElem? hother)) hin
        have hsame : j = k := by
          by_contra hne
          have hstep' : Step.index (0 + j) ≠ Step.index k := by
            intro heq
            have hindex := Step.index.inj heq
            omega
          have hself : place ++ [Step.index k] <+: place ++ [Step.index k] := List.prefix_refl _
          obtain ⟨hleft', hright⟩ := apart_of_steps hstep' hunder hself
          exact hbeside.elim hleft' hright
        subst hsame
        rw [hitem] at hother
        rw [Nat.zero_add, ← Option.some.inj hother] at hin
        exact hin
  | obj hkeys hfields ih =>
    by_cases hleft : skipPath (pathOf place) = true ∨
        provenance.isWholeDataAt (pathOf place) = true
    · exact hkept (left_alone _ hleft) honly
    · obtain ⟨hresult, hchanges⟩ := walked _ hleft
      rw [hresult]
      rw [hchanges] at hmem honly
      obtain ⟨hnames, hresults⟩ := @trackFields_results parsesAsCel numberText values skipPath
        provenance originOf (pathOf place) _
      refine .obj hnames ?_
      intro k field result hfield hresult'
      have hstep := hresults k field result hfield hresult'
      rw [keyPath_pathOf] at hstep
      rw [← hstep]
      have hmemField := List.mem_of_getElem? hfield
      refine ih field hmemField _ ?_ ?_
      · intro change hchange
        exact hmem change (mem_changesOfFields.mpr ⟨field, hmemField, hchange⟩)
      · intro change hchange hbeside
        have habove : change.1 <+: place ∨ place <+: change.1 := by
          cases hbeside with
          | inl h => exact List.prefix_or_prefix_of_prefix h (List.prefix_append _ _)
          | inr h => exact Or.inr ((List.prefix_append _ _).trans h)
        obtain ⟨other, hother, hin⟩ := mem_changesOfFields.mp (honly change hchange habove)
        have hunder := prefix_of_mem_changesAt (hfields other hother) hin
        have hsame : other.1 = field.1 := by
          by_contra hne
          have hstep' : Step.key other.1 ≠ Step.key field.1 := fun heq => hne (Step.key.inj heq)
          have hself : place ++ [Step.key field.1] <+: place ++ [Step.key field.1] :=
            List.prefix_refl _
          obtain ⟨hleft', hright⟩ := apart_of_steps hstep' hunder hself
          exact hbeside.elim hleft' hright
        have hfieldEq : other = field := List.inj_on_of_nodup_map hkeys hother hmemField hsame
        rwa [hfieldEq] at hin

theorem isAuthored_queries (h : provenance.isAuthored = true) (path : JsString) (start stop : ℕ) :
    provenance.isWholeDataAt path = false ∧ provenance.overlapsData path start stop = false := by
  obtain ⟨whole, ⟨entries, nodup⟩, keys⟩ := provenance
  simp only [isAuthored, Bool.and_eq_true, decide_eq_true_eq, List.isEmpty_iff] at h
  obtain ⟨⟨rfl, rfl⟩, _⟩ := h
  have hwhole : ∀ keys, isWholeDataAt ⟨∅, ⟨[], nodup⟩, keys⟩ path = false := by
    intro keys
    simp [isWholeDataAt, underWhole]
  refine ⟨hwhole keys, ?_⟩
  rw [overlapsData, hwhole]
  rfl

theorem embedFrom_authored (h : provenance.isAuthored = true) {source : JsString}
    {spans : List ExpressionSpan}
    (hraw : ∀ span ∈ spans, span.raw = slice source span.start span.stop) (last : ℕ)
    (embedding : Embedding) :
    (embedFrom parsesAsCel numberText values provenance originOf path source last embedding
      spans).out =
        embedding.out ++ spliceFrom source (replacement numberText values) last spans := by
  induction spans generalizing last embedding with
  | nil =>
    simp [embedFrom, Embedding.copy, spliceFrom, slice]
  | cons span rest ih =>
    obtain ⟨hspan, hrest⟩ := List.forall_mem_cons.mp hraw
    have hfresh := (isAuthored_queries h path span.start span.stop).2
    have hstep : ∃ after : Embedding,
        embedFrom parsesAsCel numberText values provenance originOf path source last embedding
          (span :: rest) = embedFrom parsesAsCel numberText values provenance originOf path source
            span.stop after rest ∧
        after.out = embedding.out ++ slice source last span.start ++
          replacement numberText values span := by
      rw [embedFrom]
      simp only [hfresh, Bool.false_eq_true, if_false]
      unfold replacement
      cases values span.raw with
      | none => exact ⟨_, rfl, by rw [hspan]; rfl⟩
      | some value =>
        cases value with
        | none => exact ⟨_, rfl, (List.append_nil _).symm⟩
        | some json =>
          cases json with
          | null => exact ⟨_, rfl, (List.append_nil _).symm⟩
          | bool | num | str | arr | obj => exact ⟨_, rfl, rfl⟩
    obtain ⟨after, hafter, hout⟩ := hstep
    rw [hafter, ih hrest, hout, spliceFrom]
    simp only [List.append_assoc]

theorem trackString_authored (h : provenance.isAuthored = true) (path text : JsString) :
    (trackString parsesAsCel numberText values provenance originOf path text).1 =
      replaceString parsesAsCel numberText values text := by
  unfold trackString replaceString
  split
  · rfl
  · cases hsingle : matchSingleExpression parsesAsCel text with
    | some span =>
      simp only [(isAuthored_queries h path span.start span.stop).2, Bool.false_eq_true, if_false]
      split
      · rfl
      · rfl
    | none =>
      simp only
      rw [embedFrom_authored h (fun span hspan => scanExpressions_raw hspan)]
      unfold replaceExpressionSpans
      cases hspans : scanExpressions parsesAsCel text with
      | nil => simp [spliceFrom]
      | cons span rest => rfl

theorem trackItems_authored {items : List Json}
    (h : ∀ item ∈ items, ∀ path,
      (replaceTracked parsesAsCel numberText values skipPath provenance originOf path item).1 =
        replaceExpressionsRecursive parsesAsCel numberText values skipPath path item)
    (path : JsString) (index : ℕ) :
    (trackItems parsesAsCel numberText values skipPath provenance originOf path index items).1 =
      replaceItems parsesAsCel numberText values skipPath path index items := by
  induction items generalizing index with
  | nil => rfl
  | cons item items ih =>
    obtain ⟨hfirst, hrest⟩ := List.forall_mem_cons.mp h
    rw [trackItems, replaceItems, ← hfirst, ← ih hrest]

theorem trackFields_authored {fields : List (JsString × Json)}
    (h : ∀ field ∈ fields, ∀ path,
      (replaceTracked parsesAsCel numberText values skipPath provenance originOf path field.2).1 =
        replaceExpressionsRecursive parsesAsCel numberText values skipPath path field.2)
    (path : JsString) :
    (trackFields parsesAsCel numberText values skipPath provenance originOf path fields).1 =
      replaceFields parsesAsCel numberText values skipPath path fields := by
  induction fields with
  | nil => rfl
  | cons field fields ih =>
    obtain ⟨hfirst, hrest⟩ := List.forall_mem_cons.mp h
    rw [trackFields, replaceFields, ← hfirst, ← ih hrest]

/-- **An authored tree is replaced as if nothing were tracked.** -/
theorem replaceTracked_authored (h : provenance.isAuthored = true) (hdistinct : Distinct data)
    (path : JsString) :
    (replaceTracked parsesAsCel numberText values skipPath provenance originOf path data).1 =
      replaceExpressionsRecursive parsesAsCel numberText values skipPath path data := by
  have hwhole : ∀ path, provenance.isWholeDataAt path = false :=
    fun path => (isAuthored_queries h path 0 0).1
  induction hdistinct generalizing path with
  | str text =>
    unfold replaceTracked replaceExpressionsRecursive
    simp only [hwhole, Bool.false_eq_true, if_false]
    split
    · rfl
    · exact trackString_authored h path text
  | arr hitems ih =>
    unfold replaceTracked replaceExpressionsRecursive
    simp only [hwhole, Bool.false_eq_true, if_false]
    split
    · rfl
    · exact congrArg Json.arr (trackItems_authored ih path 0)
  | obj hkeys hfields ih =>
    unfold replaceTracked replaceExpressionsRecursive
    simp only [hwhole, Bool.false_eq_true, if_false]
    split
    · rfl
    · exact congrArg Json.obj (trackFields_authored ih path)
  | null | bool b | num n =>
    unfold replaceTracked replaceExpressionsRecursive
    split_ifs <;> rfl

theorem distinct_trackString
    (hvalues : ∀ raw value, values raw = some (some value) → Distinct value)
    (path text : JsString) :
    Distinct (trackString parsesAsCel numberText values provenance originOf path text).1 := by
  rcases @trackString_cases parsesAsCel numberText values provenance originOf path text
    with hkept | ⟨span, value, _, hvalue, _, hsome⟩ | ⟨_, _, _, _, _, hsome⟩
  · rw [hkept]
    exact .str text
  · rw [hsome]
    exact hvalues span.raw value hvalue
  · rw [hsome]
    exact .str _

/-- No object of the result has a key twice. -/
theorem distinct_replaceTracked
    (hvalues : ∀ raw value, values raw = some (some value) → Distinct value)
    (hdistinct : Distinct data) (path : JsString) :
    Distinct (replaceTracked parsesAsCel numberText values skipPath provenance originOf path
      data).1 := by
  induction hdistinct generalizing path with
  | str text =>
    unfold replaceTracked
    split_ifs
    · exact .str text
    · exact .str text
    · exact distinct_trackString hvalues path text
  | @arr items hitems ih =>
    unfold replaceTracked
    split_ifs
    · exact .arr hitems
    · exact .arr hitems
    · refine .arr ?_
      intro result hresult
      obtain ⟨k, hk⟩ := List.getElem?_of_mem hresult
      obtain ⟨hlength, hresults⟩ := @trackItems_results parsesAsCel numberText values skipPath
        provenance originOf path items 0
      have hlt := (List.getElem?_eq_some_iff.mp hk).1
      rw [hlength] at hlt
      rw [← hresults k _ result (List.getElem?_eq_getElem hlt) hk]
      exact ih _ (List.getElem_mem hlt) _
  | @obj fields hkeys hfields ih =>
    unfold replaceTracked
    split_ifs
    · exact .obj hkeys hfields
    · exact .obj hkeys hfields
    · obtain ⟨hnames, hresults⟩ := @trackFields_results parsesAsCel numberText values skipPath
        provenance originOf path fields
      refine .obj (hnames ▸ hkeys) ?_
      intro result hresult
      obtain ⟨k, hk⟩ := List.getElem?_of_mem hresult
      have hlt := (List.getElem?_eq_some_iff.mp hk).1
      have hlength := congrArg List.length hnames
      rw [List.length_map, List.length_map] at hlength
      rw [hlength] at hlt
      rw [← hresults k _ result (List.getElem?_eq_getElem hlt) hk]
      exact ih _ (List.getElem_mem hlt) _
  | null =>
    unfold replaceTracked
    split_ifs <;> exact .null
  | bool b =>
    unfold replaceTracked
    split_ifs <;> exact .bool b
  | num n =>
    unfold replaceTracked
    split_ifs <;> exact .num n

theorem spliced_replaceExpressionsTracked (hdistinct : Distinct data) :
    Spliced parsesAsCel numberText values originOf provenance
      (replaceExpressionsTracked parsesAsCel numberText values skipPath provenance originOf
        data).provenance
      (provenance.Canonical ∧ OriginsWithin values originOf) [] data
      (replaceExpressionsTracked parsesAsCel numberText values skipPath provenance originOf
        data).data := by
  have hupdates : (replaceExpressionsTracked parsesAsCel numberText values skipPath provenance
      originOf data).provenance = provenance.graftAll (atPaths (changesAt parsesAsCel numberText
        values skipPath provenance originOf [] data)) :=
    congrArg provenance.graftAll (replaceTracked_updates hdistinct [])
  rw [hupdates]
  exact spliced_replaceTracked hdistinct (changesAt_apart hdistinct []) []
    (fun _ hchange => hchange) (fun _ hchange _ => hchange)

/-- **Splice provenance is sound.**  A pass over a tree puts values in the place only of
expressions that hold no character of data, marks what was data and what the origin of a
spliced string marks, and marks nothing that was authored where the map's paths are
canonical and no origin goes past its string.  From an authored tree it makes the tree
that `replaceExpressions` makes.  A pass after it, over its tree and its map, is one more
such pass, so that what it evaluates holds no character that came from data. -/
theorem replaceExpressionsTracked_sound {data : Json} (hdistinct : Distinct data)
    (hvalues : ∀ raw value, values raw = some (some value) → Distinct value) :
    let pass := replaceExpressionsTracked parsesAsCel numberText values skipPath provenance
      originOf data
    Spliced parsesAsCel numberText values originOf provenance pass.provenance
        (provenance.Canonical ∧ OriginsWithin values originOf) [] data pass.data ∧
      (provenance.isAuthored = true →
        pass.data = replaceExpressions parsesAsCel numberText values skipPath data) ∧
      ∀ (values' : JsString → Option (Option Json)) (skipPath' : JsString → Bool)
        (originOf' : JsString → SpliceOrigin),
        let later := replaceExpressionsTracked parsesAsCel numberText values' skipPath'
          pass.provenance originOf' pass.data
        Spliced parsesAsCel numberText values' originOf' pass.provenance later.provenance
          (pass.provenance.Canonical ∧ OriginsWithin values' originOf') [] pass.data
          later.data := by
  refine ⟨spliced_replaceExpressionsTracked hdistinct, ?_, ?_⟩
  · intro hauthored
    exact replaceTracked_authored hauthored hdistinct []
  · intro values' skipPath' originOf'
    exact spliced_replaceExpressionsTracked (distinct_replaceTracked hvalues hdistinct [])

end

/-- A string with an expression and an authored character behind it. -/
def sampleText : JsString := js "$\x7b\x7b a \x7d\x7d!"

/-- The expression has a value of one character. -/
def sampleValues (raw : JsString) : Option (Option Json) :=
  if raw = js "$\x7b\x7b a \x7d\x7d" then some (some (.str (js "v"))) else none

/-- An origin that marks five characters of the value. -/
def sampleOrigin (_ : JsString) : SpliceOrigin :=
  ⟨ProvenanceMap.authored.withRanges [] [(0, 5)], []⟩

theorem replaceExpressionsTracked_sound_sample :
    let pass := replaceExpressionsTracked (fun _ => true) ratioText sampleValues (fun _ => false)
      authored sampleOrigin (.obj [(js "text", .str sampleText)])
    Spliced (fun _ => true) ratioText sampleValues sampleOrigin authored pass.provenance
        (authored.Canonical ∧ OriginsWithin sampleValues sampleOrigin) []
        (.obj [(js "text", .str sampleText)]) pass.data ∧
      (authored.isAuthored = true →
        pass.data = replaceExpressions (fun _ => true) ratioText sampleValues (fun _ => false)
          (.obj [(js "text", .str sampleText)])) ∧
      ∀ (values' : JsString → Option (Option Json)) (skipPath' : JsString → Bool)
        (originOf' : JsString → SpliceOrigin),
        let later := replaceExpressionsTracked (fun _ => true) ratioText values' skipPath'
          pass.provenance originOf' pass.data
        Spliced (fun _ => true) ratioText values' originOf' pass.provenance later.provenance
          (pass.provenance.Canonical ∧ OriginsWithin values' originOf') [] pass.data
          later.data := by
  refine replaceExpressionsTracked_sound (.obj (by decide) ?_) ?_
  · intro field hfield
    rw [List.mem_singleton.mp hfield]
    exact .str _
  · intro raw value hvalue
    unfold sampleValues at hvalue
    split at hvalue
    · cases hvalue
      exact .str _
    · cases hvalue

/-- The character behind the expression is authored, is copied, and is data after: the
origin marks more characters than the value has. -/
theorem authored_character_marked :
    let pass := replaceExpressionsTracked (fun _ => true) ratioText sampleValues (fun _ => false)
      authored sampleOrigin (.str sampleText)
    sampleText[8]? = some (unit '!') ∧ authored.overlapsData [] 8 9 = false ∧
      pass.data = .str (js "v!") ∧ pass.provenance.overlapsData [] 1 2 = true := by
  refine ⟨by decide, by decide, rfl, by decide⟩

end Provenance

end Swamp
