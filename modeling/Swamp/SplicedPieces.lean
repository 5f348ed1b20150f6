import Swamp.GraftedMaps
import Swamp.TrackedSplices

/-!
# Strings put together from pieces

A string that values are spliced into is put together from pieces: text that is
copied, and texts of values in the place of expressions.  What is data in it is said
piece by piece, at the offset the piece begins at.
-/

namespace Swamp

namespace Provenance

open Js LiteralMatch ExpressionScanner ProvenanceMap

/-- A piece of a string that values are spliced into: text that is copied, or the
text of a value that takes the place of a span. -/
inductive Piece where
  | copied (start stop : ℕ)
  | spliced (span : ExpressionSpan) (value : Option Json)

namespace Piece

def start : Piece → ℕ
  | copied start _ => start
  | spliced span _ => span.start

def stop : Piece → ℕ
  | copied _ stop => stop
  | spliced span _ => span.stop

/-- The text a value takes a place with: none for `null` and `undefined`. -/
def valueText (numberText : ℚ → JsString) : Option Json → JsString
  | none => []
  | some .null => []
  | some value => rendered numberText value

/-- What a piece was cut from. -/
def text (numberText : ℚ → JsString) (source : JsString) : Piece → JsString
  | copied start stop => slice source start stop
  | spliced _ value => valueText numberText value

end Piece

/-- The pieces lie end to end in a string, from `last` on. -/
def Tiles (source : JsString) : ℕ → List Piece → Prop
  | last, [] => last = source.length
  | last, piece :: rest => piece.start = last ∧ last ≤ piece.stop ∧ Tiles source piece.stop rest

variable {last : ℕ} {pieces : List Piece}

theorem Tiles.le {source : JsString} (h : Tiles source last pieces) : last ≤ source.length := by
  induction pieces generalizing last with
  | nil => exact le_of_eq h
  | cons piece rest ih => exact h.2.1.trans (ih h.2.2)

theorem length_slice {source : JsString} {start stop : ℕ} (h : stop ≤ source.length) :
    (slice source start stop).length = stop - start := by
  rw [slice, List.length_drop, List.length_take, min_eq_left h]

section

variable (parsesAsCel : JsString → Bool) (numberText : ℚ → JsString)
  (values : JsString → Option (Option Json)) (originOf : JsString → SpliceOrigin)

/-- What is data in the text of a spliced value. -/
def valueRanges (span : ExpressionSpan) : Option Json → List DataRange
  | none => []
  | some .null => []
  | some value =>
    embeddedRanges parsesAsCel value (rendered numberText value) (originOf span.raw)

/-- Whether a piece that begins at `offset` says that a place is data. -/
def PieceCovers (inRanges : List DataRange) (offset j : ℕ) : Piece → Prop
  | .copied start stop =>
    ∃ i, start ≤ i ∧ i < stop ∧ Covers inRanges i ∧ j = offset + (i - start)
  | .spliced span value =>
    ∃ i, Covers (valueRanges parsesAsCel numberText originOf span value) i ∧ j = offset + i

/-- Whether one of the pieces says so. -/
def PiecesCover (source : JsString) (inRanges : List DataRange) (j : ℕ) : ℕ → List Piece → Prop
  | _, [] => False
  | offset, piece :: rest =>
    PieceCovers parsesAsCel numberText originOf inRanges offset j piece ∨
      PiecesCover source inRanges j (offset + (piece.text numberText source).length) rest

end

variable {text : JsString} {j : ℕ}

section

variable {parsesAsCel : JsString → Bool} {numberText : ℚ → JsString}
  {values : JsString → Option (Option Json)} {originOf : JsString → SpliceOrigin}

theorem covers_copy {embedding : Embedding} {inRanges : List DataRange} {start stop : ℕ} :
    Covers (embedding.copy text inRanges start stop).ranges j ↔
      Covers embedding.ranges j ∨
        ∃ i, start ≤ i ∧ i < stop ∧ Covers inRanges i ∧ j = embedding.out.length + (i - start) := by
  rw [Embedding.copy, covers_append]
  apply or_congr_right
  constructor
  · intro h
    obtain ⟨range, hmem, hle, hlt⟩ := h
    obtain ⟨inner, hinner, hsome⟩ := List.mem_filterMap.mp hmem
    split at hsome
    · rename_i hmeet
      have hrange := Option.some.inj hsome
      rw [← hrange] at hle hlt
      simp only at hle hlt
      refine ⟨j - embedding.out.length + start, ?_, ?_, ⟨inner, hinner, ?_, ?_⟩, ?_⟩ <;> omega
    · cases hsome
  · intro h
    obtain ⟨i, hstart, hstop, ⟨range, hmem, hle, hlt⟩, hj⟩ := h
    have hmeet : max range.1 start < min range.2 stop := by omega
    refine ⟨_, List.mem_filterMap.mpr ⟨range, hmem, if_pos hmeet⟩, ?_, ?_⟩
    · simp only
      omega
    · simp only
      omega

theorem covers_splice {embedding : Embedding} {ranges : List DataRange} :
    Covers (embedding.splice text ranges).ranges j ↔
      Covers embedding.ranges j ∨ ∃ i, Covers ranges i ∧ j = embedding.out.length + i := by
  rw [Embedding.splice, covers_append]
  apply or_congr_right
  constructor
  · intro h
    obtain ⟨range, hmem, hle, hlt⟩ := h
    obtain ⟨inner, hinner, rfl⟩ := List.mem_map.mp hmem
    simp only at hle hlt
    exact ⟨j - embedding.out.length, ⟨inner, hinner, by omega, by omega⟩, by omega⟩
  · intro h
    obtain ⟨i, ⟨range, hmem, hle, hlt⟩, hj⟩ := h
    exact ⟨_, List.mem_map_of_mem hmem, by simp only; omega, by simp only; omega⟩

end

section

variable {parsesAsCel : JsString → Bool} {numberText : ℚ → JsString}
  {values : JsString → Option (Option Json)} {originOf : JsString → SpliceOrigin}
  {source : JsString} {inRanges : List DataRange}

/-- A text grows by a piece, and what is data in it by what the piece says. -/
structure Adds (parsesAsCel : JsString → Bool) (numberText : ℚ → JsString)
    (originOf : JsString → SpliceOrigin) (source : JsString) (inRanges : List DataRange)
    (before : Embedding) (piece : Piece) (after : Embedding) : Prop where
  out : after.out = before.out ++ piece.text numberText source
  covers : ∀ j, Covers after.ranges j ↔ Covers before.ranges j ∨
    PieceCovers parsesAsCel numberText originOf inRanges before.out.length j piece

/-- A text grows by several pieces. -/
structure Builds (parsesAsCel : JsString → Bool) (numberText : ℚ → JsString)
    (originOf : JsString → SpliceOrigin) (source : JsString) (inRanges : List DataRange)
    (before : Embedding) (pieces : List Piece) (after : Embedding) : Prop where
  out : after.out = before.out ++ pieces.flatMap (Piece.text numberText source)
  covers : ∀ j, Covers after.ranges j ↔ Covers before.ranges j ∨
    PiecesCover parsesAsCel numberText originOf source inRanges j before.out.length pieces

theorem Builds.nil (embedding : Embedding) :
    Builds parsesAsCel numberText originOf source inRanges embedding [] embedding :=
  ⟨by simp, fun j => by simp [PiecesCover]⟩

theorem Builds.cons {before middle after : Embedding} {piece : Piece} {rest : List Piece}
    (hfirst : Adds parsesAsCel numberText originOf source inRanges before piece middle)
    (hrest : Builds parsesAsCel numberText originOf source inRanges middle rest after) :
    Builds parsesAsCel numberText originOf source inRanges before (piece :: rest) after where
  out := by rw [hrest.out, hfirst.out, List.flatMap_cons, List.append_assoc]
  covers := by
    intro j
    rw [hrest.covers, hfirst.covers, PiecesCover, or_assoc, hfirst.out, List.length_append]

theorem adds_copy (embedding : Embedding) (start stop : ℕ) :
    Adds parsesAsCel numberText originOf source inRanges embedding (.copied start stop)
      (embedding.copy source inRanges start stop) := ⟨rfl, fun _ => covers_copy⟩

theorem adds_spliced (embedding : Embedding) (span : ExpressionSpan) (value : Option Json) :
    Adds parsesAsCel numberText originOf source inRanges embedding (.spliced span value)
      (match value with
      | none => embedding
      | some .null => embedding
      | some value => embedding.splice (rendered numberText value)
          (embeddedRanges parsesAsCel value (rendered numberText value) (originOf span.raw))) := by
  have hnone : ∀ j, ¬ ∃ i, Covers [] i ∧ j = embedding.out.length + i := by
    intro j h
    obtain ⟨i, hcovers, _⟩ := h
    exact covers_nil hcovers
  match value with
  | none => exact ⟨(List.append_nil _).symm, fun j => (or_iff_left (hnone j)).symm⟩
  | some .null => exact ⟨(List.append_nil _).symm, fun j => (or_iff_left (hnone j)).symm⟩
  | some (.bool _) => exact ⟨rfl, fun _ => covers_splice⟩
  | some (.num _) => exact ⟨rfl, fun _ => covers_splice⟩
  | some (.str _) => exact ⟨rfl, fun _ => covers_splice⟩
  | some (.arr _) => exact ⟨rfl, fun _ => covers_splice⟩
  | some (.obj _) => exact ⟨rfl, fun _ => covers_splice⟩

variable {provenance : ProvenanceMap} {path : JsString}

/-- What takes the place of a span: it overlaps no data and has a value. -/
def Substituted (values : JsString → Option (Option Json)) (provenance : ProvenanceMap)
    (path : JsString) (spans : List ExpressionSpan) (pieces : List Piece) : Prop :=
  ∀ span value, Piece.spliced span value ∈ pieces →
    span ∈ spans ∧ values span.raw = some value ∧
      provenance.overlapsData path span.start span.stop = false

/-- **The loop over the spans puts a string together from pieces.** -/
theorem embedFrom_builds {spans : List ExpressionSpan} (embedding : Embedding)
    (hlaid : Laid source last spans) :
    ∃ pieces, Tiles source last pieces ∧
      Builds parsesAsCel numberText originOf source (provenance.rangesAt path) embedding pieces
        (embedFrom parsesAsCel numberText values provenance originOf path source last embedding
          spans) ∧
      Substituted values provenance path spans pieces := by
  induction spans generalizing last embedding with
  | nil =>
    refine ⟨[.copied last source.length], ⟨rfl, hlaid, rfl⟩,
      (Builds.nil _).cons (adds_copy embedding last source.length), ?_⟩
    intro span value hmem
    cases List.mem_singleton.mp hmem
  | cons span rest ih =>
    obtain ⟨hstart, hspan, hrest⟩ := hlaid
    -- The text before the span, then the span or the text of its value.
    have hgo : ∀ (piece : Piece) (after : Embedding), piece.start = span.start →
        piece.stop = span.stop →
        Adds parsesAsCel numberText originOf source (provenance.rangesAt path)
          (embedding.copy source (provenance.rangesAt path) last span.start) piece after →
        (∀ other value, piece = .spliced other value → other = span ∧
          values span.raw = some value ∧
            provenance.overlapsData path span.start span.stop = false) →
        ∃ pieces, Tiles source last pieces ∧
          Builds parsesAsCel numberText originOf source (provenance.rangesAt path) embedding
            pieces (embedFrom parsesAsCel numberText values provenance originOf path source
              span.stop after rest) ∧
          Substituted values provenance path (span :: rest) pieces := by
      intro piece after hpstart hpstop hadds hsub
      obtain ⟨pieces, htiles, hbuilds, hsubs⟩ := ih after hrest
      refine ⟨.copied last span.start :: piece :: pieces, ⟨rfl, hstart, hpstart, ?_, ?_⟩,
        (hbuilds.cons hadds).cons (adds_copy embedding last span.start), ?_⟩
      · rw [hpstop]
        exact hspan.le
      · rw [hpstop]
        exact htiles
      · intro other value hmem
        rcases List.mem_cons.mp hmem with heq | hmem
        · cases heq
        · rcases List.mem_cons.mp hmem with heq | hmem
          · obtain ⟨rfl, hvalue, hfresh⟩ := hsub other value heq.symm
            exact ⟨List.mem_cons_self, hvalue, hfresh⟩
          · obtain ⟨hother, hrest⟩ := hsubs other value hmem
            exact ⟨List.mem_cons_of_mem _ hother, hrest⟩
    have hcopied := hgo (.copied span.start span.stop) _ rfl rfl (adds_copy _ _ _) nofun
    unfold embedFrom
    by_cases hoverlap : provenance.overlapsData path span.start span.stop = true
    · simp only [if_pos hoverlap]
      exact hcopied
    · simp only [if_neg hoverlap]
      have hfresh : provenance.overlapsData path span.start span.stop = false := by
        simpa using hoverlap
      have hspliced : ∀ value, values span.raw = some value → _ := fun value hvalue =>
        hgo (.spliced span value) _ rfl rfl (adds_spliced _ span value)
          (fun other value' heq => by
            cases heq
            exact ⟨rfl, hvalue, hfresh⟩)
      match hvalue : values span.raw with
      | none => exact hcopied
      | some none => exact hspliced none hvalue
      | some (some .null) => exact hspliced (some .null) hvalue
      | some (some (.bool _)) => exact hspliced _ hvalue
      | some (some (.num _)) => exact hspliced _ hvalue
      | some (some (.str _)) => exact hspliced _ hvalue
      | some (some (.arr _)) => exact hspliced _ hvalue
      | some (some (.obj _)) => exact hspliced _ hvalue

end

/-- No origin marks characters past the end of the string it is of. -/
def OriginsWithin (values : JsString → Option (Option Json)) (originOf : JsString → SpliceOrigin) :
    Prop :=
  ∀ raw s, values raw = some (some (.str s)) →
    ∀ range ∈ (originOf raw).map.rangesAt [], range.2 ≤ s.length

section

variable (parsesAsCel : JsString → Bool) (numberText : ℚ → JsString)
  (values : JsString → Option (Option Json)) (originOf : JsString → SpliceOrigin)
  (map map' : ProvenanceMap) (exact : Prop)

/-- A piece that begins at `offset` carries what it is made of.  A copied character
that is data stays data, and one that is authored, where that is promised, stays
authored.  A value takes the place of an expression none of whose characters is data,
and what its origin marks in a string is data. -/
def PieceSound (path source : JsString) (offset : ℕ) : Piece → Prop
  | .copied start stop => ∀ i, start ≤ i → i < stop →
      (map.IsData path i → map'.IsData path (offset + (i - start))) ∧
        (exact → map'.IsData path (offset + (i - start)) → map.IsData path i)
  | .spliced span value =>
    span ∈ scanExpressions parsesAsCel source ∧ values span.raw = some value ∧
      (∀ i, span.start ≤ i → i < span.stop → ¬ map.IsData path i) ∧
      ∀ s, value = some (.str s) → ∀ i < s.length,
        (originOf span.raw).map.IsData [] i → map'.IsData path (offset + i)

/-- Each of the pieces from `offset` on does. -/
def PiecesSound (path source : JsString) : ℕ → List Piece → Prop
  | _, [] => True
  | offset, piece :: rest =>
    PieceSound parsesAsCel values originOf map map' exact path source offset piece ∧
      PiecesSound path source (offset + (piece.text numberText source).length) rest

end

section

variable {parsesAsCel : JsString → Bool} {numberText : ℚ → JsString}
  {values : JsString → Option (Option Json)} {originOf : JsString → SpliceOrigin}

theorem not_isData_of_isAuthored {map : ProvenanceMap} (h : map.isAuthored = true)
    (path : JsString) (i : ℕ) : ¬ map.IsData path i := by
  obtain ⟨whole, ⟨entries, nodup⟩, keys⟩ := map
  simp only [isAuthored, Bool.and_eq_true, decide_eq_true_eq, List.isEmpty_iff] at h
  obtain ⟨⟨rfl, rfl⟩, _⟩ := h
  intro hdata
  cases hdata with
  | inl hwhole => simp [isWholeDataAt, underWhole] at hwhole
  | inr hcovers => exact covers_nil hcovers

variable {i : ℕ}

theorem lt_of_covers_readSetFrom {raws : List JsString} {spans : List ExpressionSpan}
    (hlaid : Laid text last spans) (h : Covers (readSetFrom text raws last spans) i) :
    i < text.length := by
  induction spans generalizing last with
  | nil =>
    rw [readSetFrom] at h
    split at h
    · obtain ⟨range, hmem, _, hlt⟩ := h
      rw [List.mem_singleton.mp hmem] at hlt
      exact hlt
    · exact absurd h covers_nil
  | cons span rest ih =>
    obtain ⟨hstart, hspan, hrest⟩ := hlaid
    have hweaker : Laid text last rest := by
      cases rest with
      | nil => exact (hstart.trans hspan.le).trans hrest
      | cons next rest => exact ⟨(hstart.trans hspan.le).trans hrest.1, hrest.2⟩
    rw [readSetFrom] at h
    split at h
    · exact ih hweaker h
    · rcases covers_append.mp h with hbefore | hafter
      · split at hbefore
        · obtain ⟨range, hmem, _, hlt⟩ := hbefore
          rw [List.mem_singleton.mp hmem] at hlt
          have hle := hrest.le
          simp only at hlt
          omega
        · exact absurd hbefore covers_nil
      · exact ih hrest hafter

theorem lt_of_covers_readSetRanges {raws : List JsString}
    (h : Covers (readSetRanges parsesAsCel text raws) i) : i < text.length := by
  unfold readSetRanges at h
  split at h
  · exact absurd h covers_nil
  · exact lt_of_covers_readSetFrom (scanExpressions_laid text) h

theorem lt_of_covers_valueRanges (hwithin : OriginsWithin values originOf) {span : ExpressionSpan}
    {value : Option Json} (hvalue : values span.raw = some value)
    (h : Covers (valueRanges parsesAsCel numberText originOf span value) i) :
    i < (Piece.valueText numberText value).length := by
  have hread : ∀ {text : JsString},
      Covers (if (originOf span.raw).map.isAuthored then []
        else readSetRanges parsesAsCel text (originOf span.raw).authoredRaws) i →
        i < text.length := by
    intro text hcovers
    split at hcovers
    · exact absurd hcovers covers_nil
    · exact lt_of_covers_readSetRanges hcovers
  match value with
  | none => exact absurd h covers_nil
  | some .null => exact absurd h covers_nil
  | some (.bool _) => exact hread h
  | some (.num _) => exact hread h
  | some (.arr _) => exact hread h
  | some (.obj _) => exact hread h
  | some (.str s) =>
    simp only [valueRanges, embeddedRanges] at h
    split at h
    · exact absurd h covers_nil
    · split at h
      · obtain ⟨range, hmem, _, hlt⟩ := h
        rw [List.mem_singleton.mp hmem] at hlt
        exact hlt
      · obtain ⟨range, hmem, _, hlt⟩ := h
        exact Nat.lt_of_lt_of_le hlt (hwithin span.raw s hvalue range hmem)

theorem covers_valueRanges {span : ExpressionSpan} {s : JsString} (hi : i < s.length)
    (h : (originOf span.raw).map.IsData [] i) :
    Covers (valueRanges parsesAsCel numberText originOf span (some (.str s))) i := by
  simp only [valueRanges, embeddedRanges]
  split
  · rename_i hauthored
    exact absurd h (not_isData_of_isAuthored hauthored [] i)
  · split
    · exact ⟨_, List.mem_singleton_self _, Nat.zero_le i, hi⟩
    · rename_i hwhole
      exact h.resolve_left hwhole

variable {offset : ℕ}

theorem within_of_pieceCovers (hwithin : OriginsWithin values originOf) {source : JsString}
    {inRanges : List DataRange} {piece : Piece} (hstop : piece.stop ≤ source.length)
    (hvalue : ∀ span value, piece = .spliced span value → values span.raw = some value)
    (h : PieceCovers parsesAsCel numberText originOf inRanges offset j piece) :
    j < offset + (piece.text numberText source).length := by
  cases piece with
  | copied start stop =>
    obtain ⟨i, hstart, hi, _, rfl⟩ := h
    have hlength : (Piece.text numberText source (.copied start stop)).length = stop - start :=
      length_slice hstop
    omega
  | spliced span value =>
    obtain ⟨i, hcovers, rfl⟩ := h
    have hlt := lt_of_covers_valueRanges hwithin (hvalue span value rfl) hcovers
    exact Nat.add_lt_add_left hlt offset

theorem le_of_piecesCover {source : JsString} {inRanges : List DataRange}
    (h : PiecesCover parsesAsCel numberText originOf source inRanges j offset pieces) :
    offset ≤ j := by
  induction pieces generalizing offset with
  | nil => exact h.elim
  | cons piece rest ih =>
    cases h with
    | inl hfirst =>
      cases piece with
      | copied start stop =>
        obtain ⟨i, _, _, _, rfl⟩ := hfirst
        exact Nat.le_add_right _ _
      | spliced span value =>
        obtain ⟨i, _, rfl⟩ := hfirst
        exact Nat.le_add_right _ _
    | inr hrest => exact (Nat.le_add_right _ _).trans (ih hrest)

/-- **Pieces carry what they are made of** where the map holds what they say, and holds no
more where that is promised. -/
theorem piecesSound {map map' : ProvenanceMap} {exact : Prop} {path source : JsString}
    (hwhole : map.isWholeDataAt path = false) (hwithin : exact → OriginsWithin values originOf)
    (htiles : Tiles source last pieces)
    (hsubs : Substituted values map path (scanExpressions parsesAsCel source) pieces)
    (hmarks : ∀ j, PiecesCover parsesAsCel numberText originOf source (map.rangesAt path) j offset
      pieces → map'.IsData path j) (hexact : exact → ∀ j, offset ≤ j → map'.IsData path j →
      PiecesCover parsesAsCel numberText originOf source (map.rangesAt path) j offset pieces) :
    PiecesSound parsesAsCel numberText values originOf map map' exact path source offset
      pieces := by
  induction pieces generalizing offset last with
  | nil => trivial
  | cons piece rest ih =>
    obtain ⟨hstart, hle, hrest⟩ := htiles
    have hvalue : ∀ span value, piece = .spliced span value → values span.raw = some value :=
      fun span value heq => (hsubs span value (heq ▸ List.mem_cons_self)).2.1
    have hin : exact → ∀ j, PieceCovers parsesAsCel numberText originOf (map.rangesAt path) offset
        j piece → j < offset + (piece.text numberText source).length :=
      fun hexact' j hcovers => within_of_pieceCovers (hwithin hexact') hrest.le hvalue hcovers
    refine ⟨?_, ?_⟩
    · cases piece with
      | copied start stop =>
        intro i hi hlt
        refine ⟨?_, ?_⟩
        · intro hdata
          have hcovers := hdata.resolve_left (by rw [hwhole]; exact Bool.false_ne_true)
          exact hmarks _ (Or.inl ⟨i, hi, hlt, hcovers, rfl⟩)
        · intro hexact' hdata
          cases hexact hexact' _ (Nat.le_add_right _ _) hdata with
          | inl hfirst =>
            obtain ⟨k, hk, _, hcovers, heq⟩ := hfirst
            have hsame : k = i := by omega
            exact Or.inr (hsame ▸ hcovers)
          | inr hlater =>
            -- What a later piece says of a place stands behind this one.
            have hbehind := le_of_piecesCover hlater
            have hlength : (Piece.text numberText source (.copied start stop)).length =
                stop - start := length_slice hrest.le
            omega
      | spliced span value =>
        obtain ⟨hspan, hsome, hfresh⟩ := hsubs span value List.mem_cons_self
        refine ⟨hspan, hsome, ?_, ?_⟩
        · intro i hi hlt hdata
          rw [overlapsData_of_isData hdata hi hlt] at hfresh
          cases hfresh
        · intro s hs i hi hdata
          subst hs
          exact hmarks _ (Or.inl ⟨i, covers_valueRanges hi hdata, rfl⟩)
    · refine ih hrest (fun span value hmem => hsubs span value (List.mem_cons_of_mem _ hmem))
        (fun j hcovers => hmarks j (Or.inr hcovers)) ?_
      intro hexact' j hj hdata
      cases hexact hexact' j ((Nat.le_add_right _ _).trans hj) hdata with
      | inl hfirst => exact absurd (hin hexact' j hfirst) (by omega)
      | inr hlater => exact hlater

end

end Provenance

end Swamp
