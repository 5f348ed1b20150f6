import Swamp.ExpressionScanner
import Swamp.ProvenanceMap
import Swamp.ShellDataPlacement

/-!
# Data carried from one copy of a string to another

A string is kept in more than one copy: raw, and with sentinels in the place of values.
`alignStrings` carries the data ranges of one copy onto the other.  Where both copies
resolve to one text the ranges go through that text; elsewhere the copies are taken to
differ in one span, found between the longest lead and the longest end they share.
-/

namespace Swamp

namespace Alignment

open Js ExpressionScanner Provenance

abbrev SentinelResolver := JsString → Option JsString

/-- A part of a text and the part of the resolved text it stands for. -/
structure Segment where
  start : ℕ
  stop : ℕ
  rawStart : ℕ
  rawEnd : ℕ
  sentinel : Bool

/-- A text on its way to being resolved; what stands before `last` is. -/
structure Resolving where
  segments : List Segment
  raw : JsString
  last : ℕ

namespace Resolving

def start : Resolving := ⟨[], [], 0⟩

/-- `literal` of `resolveSegments`. -/
def literal (text : JsString) (resolving : Resolving) (stop : ℕ) : Resolving :=
  if stop ≤ resolving.last then resolving
  else
    { resolving with
      segments := resolving.segments ++
        [⟨resolving.last, stop, resolving.raw.length,
          resolving.raw.length + (stop - resolving.last), false⟩]
      raw := resolving.raw ++ slice text resolving.last stop }

/-- A match of the sentinel's pattern: its value, when it has one. -/
def sentinel (resolve : SentinelResolver) (text : JsString) (resolving : Resolving)
    (found : ℕ × ℕ) : Resolving :=
  match resolve (slice text found.1 (found.1 + found.2)) with
  | none => resolving
  | some value =>
    let before := resolving.literal text found.1
    { segments := before.segments ++
        [⟨found.1, found.1 + found.2, before.raw.length, before.raw.length + value.length, true⟩]
      raw := before.raw ++ value
      last := found.1 + found.2 }

end Resolving

def resolveSegments (text : JsString) (resolve : Option SentinelResolver) : Resolving :=
  let resolving :=
    match resolve with
    | none => Resolving.start
    | some resolve =>
      (Shell.matchAll Shell.sentinelPattern text).foldl (Resolving.sentinel resolve text)
        Resolving.start
  resolving.literal text text.length

/-- What a range says of the part `target` a part `source` goes with. -/
def carryRange (range source target : DataRange) (sentinel : Bool) : Option DataRange :=
  if source.2 ≤ range.1 ∨ range.2 ≤ source.1 then none
  -- A sentinel and the value it stands for are data together.
  else if sentinel then some target
  else some (max range.1 source.1 + target.1 - source.1, min range.2 source.2 + target.1 - source.1)

def mapSegment (toRaw : Bool) (range : DataRange) (segment : Segment) : Option DataRange :=
  let inText := (segment.start, segment.stop)
  let inRaw := (segment.rawStart, segment.rawEnd)
  if toRaw then carryRange range inText inRaw segment.sentinel
  else carryRange range inRaw inText segment.sentinel

def mapThroughSegments (ranges : List DataRange) (segments : List Segment) (toRaw : Bool) :
    List DataRange :=
  mergeRanges (ranges.flatMap (fun range => segments.filterMap (mapSegment toRaw range)))

/-- How long a lead two strings share. -/
def sharedLead : JsString → JsString → ℕ
  | c :: a, d :: b => if c = d then sharedLead a b + 1 else 0
  | _, _ => 0

/-- `prefix` of `alignRanges`. -/
def leadLength (a b : JsString) : ℕ := sharedLead a b

/-- `suffix` of `alignRanges`: how long an end they share behind that. -/
def suffixLength (a b : JsString) : ℕ :=
  min (min a.length b.length - leadLength a b) (sharedLead a.reverse b.reverse)

/-- Where the differing span ends in the first string, and in the second. -/
def aEnd (a b : JsString) : ℕ := a.length - suffixLength a b

def bEnd (a b : JsString) : ℕ := b.length - suffixLength a b

/-- What one range of the first string says of the second, around the differing span. -/
def alignRange (a b : JsString) (range : DataRange) : List DataRange :=
  if range.2 ≤ leadLength a b then [range]
  else if aEnd a b ≤ range.1 then
    [(range.1 + b.length - a.length, range.2 + b.length - a.length)]
  else
    (if range.1 < leadLength a b then [(range.1, leadLength a b)] else []) ++
      (if aEnd a b < range.2 then [(bEnd a b, range.2 + b.length - a.length)] else [])

/-- Whether a range reaches over the differing span. -/
def reachesMiddle (a b : JsString) (range : DataRange) : Bool :=
  leadLength a b < range.2 && range.1 < aEnd a b

def alignRanges (ranges : List DataRange) (a b : JsString) : List DataRange :=
  mergeRanges (ranges.flatMap (alignRange a b) ++
    if ranges.any (reachesMiddle a b) then [(leadLength a b, bEnd a b)] else [])

/-- Whether a resolver is given and the copies resolve to one text. -/
def resolveAlike (a b : JsString) (resolveA resolveB : Option SentinelResolver) : Bool :=
  (resolveA.isSome || resolveB.isSome) &&
    (resolveSegments a resolveA).raw = (resolveSegments b resolveB).raw

def alignStrings (ranges : List DataRange) (a b : JsString)
    (resolveA resolveB : Option SentinelResolver) : List DataRange :=
  if resolveAlike a b resolveA resolveB then
    mapThroughSegments (mapThroughSegments ranges (resolveSegments a resolveA).segments true)
      (resolveSegments b resolveB).segments false
  else alignRanges ranges a b

/-- Whether a character of a text stands for a place of the resolved text. -/
def StandsFor (segments : List Segment) (i r : ℕ) : Prop :=
  ∃ segment ∈ segments, segment.start ≤ i ∧ i < segment.stop ∧
    if segment.sentinel then segment.rawStart ≤ r ∧ r < segment.rawEnd
    else r = segment.rawStart + (i - segment.start)

/-- Every segment that is no sentinel is as long as what it stands for. -/
def Even (segments : List Segment) : Prop :=
  ∀ segment ∈ segments, segment.sentinel = false →
    segment.rawEnd = segment.rawStart + (segment.stop - segment.start)

variable {segments : List Segment} {i : ℕ}

theorem covers_mapThroughSegments {ranges : List DataRange} {toRaw : Bool} :
    Covers (mapThroughSegments ranges segments toRaw) i ↔
      ∃ range ∈ ranges, ∃ segment ∈ segments, ∃ other, mapSegment toRaw range segment = some other ∧
        other.1 ≤ i ∧ i < other.2 := by
  unfold mapThroughSegments
  rw [covers_mergeRanges]
  simp only [Covers, List.mem_flatMap, List.mem_filterMap]
  constructor
  · intro h
    obtain ⟨other, ⟨range, hrange, segment, hsegment, hother⟩, hcovers⟩ := h
    exact ⟨range, hrange, segment, hsegment, other, hother, hcovers⟩
  · intro h
    obtain ⟨range, hrange, segment, hsegment, other, hother, hcovers⟩ := h
    exact ⟨other, ⟨range, hrange, segment, hsegment, hother⟩, hcovers⟩

variable {r : ℕ}

theorem exists_carryRange {range source target : DataRange} {sentinel : Bool}
    (hrange : range.1 ≤ i ∧ i < range.2) (hsource : source.1 ≤ i ∧ i < source.2)
    (htarget : if sentinel then target.1 ≤ r ∧ r < target.2 else r = target.1 + (i - source.1)) :
    ∃ other, carryRange range source target sentinel = some other ∧ other.1 ≤ r ∧ r < other.2 := by
  have hmeets : ¬ (source.2 ≤ range.1 ∨ range.2 ≤ source.1) := by omega
  unfold carryRange
  rw [if_neg hmeets]
  cases sentinel with
  | true => exact ⟨target, rfl, htarget⟩
  | false =>
    simp only [Bool.false_eq_true, if_false] at htarget ⊢
    refine ⟨_, rfl, ?_, ?_⟩
    · simp only
      omega
    · simp only
      omega

/-- What a character of data stands for is data. -/
theorem covers_toRaw {ranges : List DataRange} (hdata : Covers ranges i)
    (hstands : StandsFor segments i r) : Covers (mapThroughSegments ranges segments true) r := by
  obtain ⟨range, hrange, hcovers⟩ := hdata
  obtain ⟨segment, hsegment, hstart, hstop, hr⟩ := hstands
  rw [covers_mapThroughSegments]
  exact ⟨range, hrange, segment, hsegment, exists_carryRange hcovers ⟨hstart, hstop⟩ hr⟩

/-- A character that stands for data is data. -/
theorem covers_fromRaw {ranges : List DataRange} (heven : Even segments) (hdata : Covers ranges r)
    (hstands : StandsFor segments i r) : Covers (mapThroughSegments ranges segments false) i := by
  obtain ⟨range, hrange, hcovers⟩ := hdata
  obtain ⟨segment, hsegment, hstart, hstop, hr⟩ := hstands
  rw [covers_mapThroughSegments]
  refine ⟨range, hrange, segment, hsegment, ?_⟩
  cases hsentinel : segment.sentinel with
  | true =>
    simp only [hsentinel, if_true] at hr
    simp only [mapSegment, hsentinel, Bool.false_eq_true, if_false]
    exact exists_carryRange hcovers hr (by rw [if_pos rfl]; exact ⟨hstart, hstop⟩)
  | false =>
    simp only [hsentinel, Bool.false_eq_true, if_false] at hr
    have hlength := heven segment hsegment hsentinel
    simp only [mapSegment, hsentinel, Bool.false_eq_true, if_false]
    apply exists_carryRange hcovers
    · simp only
      omega
    · simp only [Bool.false_eq_true, if_false]
      omega

/-- What holds of a text on its way to being resolved: what is copied is as long as what
it stands for, and every character before `last` stands in a segment. -/
structure Laid (resolving : Resolving) : Prop where
  even : Even resolving.segments
  placed : ∀ i < resolving.last, ∃ segment ∈ resolving.segments,
    segment.start ≤ i ∧ i < segment.stop

theorem laid_start : Laid Resolving.start :=
  ⟨fun _ h => absurd h List.not_mem_nil, fun _ h => absurd h (Nat.not_lt_zero _)⟩

/-- Copying up to a place leaves no character before it without a segment. -/
theorem Laid.literal {resolving : Resolving} (h : Laid resolving) (text : JsString) (stop : ℕ) :
    Even (resolving.literal text stop).segments ∧
      ∀ i < stop, ∃ segment ∈ (resolving.literal text stop).segments,
        segment.start ≤ i ∧ i < segment.stop := by
  unfold Resolving.literal
  split
  · rename_i hle
    exact ⟨h.even, fun i hi => h.placed i (lt_of_lt_of_le hi hle)⟩
  · constructor
    · intro segment hsegment hsentinel
      rcases List.mem_append.mp hsegment with hold | hnew
      · exact h.even segment hold hsentinel
      · rw [List.mem_singleton.mp hnew]
    · intro i hi
      by_cases hlast : i < resolving.last
      · obtain ⟨segment, hsegment, hin⟩ := h.placed i hlast
        exact ⟨segment, List.mem_append_left _ hsegment, hin⟩
      · exact ⟨_, List.mem_append_right _ List.mem_cons_self, by simp only; omega, hi⟩

theorem Laid.sentinel {resolving : Resolving} (h : Laid resolving) (resolve : SentinelResolver)
    (text : JsString) (found : ℕ × ℕ) : Laid (resolving.sentinel resolve text found) := by
  unfold Resolving.sentinel
  split
  · exact h
  · obtain ⟨heven, hplaced⟩ := h.literal text found.1
    constructor
    · intro segment hsegment hsentinel
      rcases List.mem_append.mp hsegment with hold | hnew
      · exact heven segment hold hsentinel
      · rw [List.mem_singleton.mp hnew] at hsentinel
        cases hsentinel
    · intro i hi
      by_cases hfound : i < found.1
      · obtain ⟨segment, hsegment, hin⟩ := hplaced i hfound
        exact ⟨segment, List.mem_append_left _ hsegment, hin⟩
      · exact ⟨_, List.mem_append_right _ List.mem_cons_self, by simp only; omega, hi⟩

/-- **Every character of a resolved text stands in a segment**, and what is copied is as
long as what it stands for. -/
theorem laid_resolveSegments (text : JsString) (resolve : Option SentinelResolver) :
    Even (resolveSegments text resolve).segments ∧
      ∀ i < text.length, ∃ segment ∈ (resolveSegments text resolve).segments,
        segment.start ≤ i ∧ i < segment.stop := by
  have hfold : ∀ (resolve : SentinelResolver) (found : List (ℕ × ℕ)) (resolving : Resolving),
      Laid resolving → Laid (found.foldl (Resolving.sentinel resolve text) resolving) := by
    intro resolve found
    induction found with
    | nil => exact fun _ h => h
    | cons first rest ih => exact fun resolving h => ih _ (h.sentinel resolve text first)
  unfold resolveSegments
  cases resolve with
  | none => exact laid_start.literal text text.length
  | some resolve => exact (hfold resolve _ _ laid_start).literal text text.length

theorem sharedLead_le (a b : JsString) : sharedLead a b ≤ min a.length b.length := by
  induction a generalizing b with
  | nil => simp [sharedLead]
  | cons c a ih =>
    cases b with
    | nil => simp [sharedLead]
    | cons d b =>
      have hrest := ih b
      unfold sharedLead
      split
      · simp only [List.length_cons]
        omega
      · omega

theorem le_sharedLead (lead a b : JsString) : lead.length ≤ sharedLead (lead ++ a) (lead ++ b) := by
  induction lead with
  | nil => exact Nat.zero_le _
  | cons c lead ih =>
    rw [List.cons_append, List.cons_append, sharedLead, if_pos rfl, List.length_cons]
    exact Nat.succ_le_succ ih

variable {a b : JsString}

theorem ends_le : leadLength a b ≤ aEnd a b ∧ leadLength a b ≤ bEnd a b ∧
    aEnd a b ≤ a.length ∧ bEnd a b ≤ b.length ∧
    a.length - aEnd a b = b.length - bEnd a b := by
  have hlead := sharedLead_le a b
  unfold aEnd bEnd suffixLength leadLength
  omega

/-- What one range says of a character of the second string. -/
theorem covers_alignRange {range : DataRange} {j : ℕ} :
    (∃ other ∈ alignRange a b range, other.1 ≤ j ∧ j < other.2) ↔
      (j < leadLength a b ∧ range.1 ≤ j ∧ j < range.2) ∨
        (bEnd a b ≤ j ∧ range.1 ≤ aEnd a b + (j - bEnd a b) ∧
          aEnd a b + (j - bEnd a b) < range.2) := by
  obtain ⟨hlead, hlead', ha, hb, hends⟩ := @ends_le a b
  unfold alignRange
  split
  · simp only [List.mem_singleton, exists_eq_left]
    omega
  · split
    · simp only [List.mem_singleton, exists_eq_left]
      omega
    · split <;> split <;> simp only [List.append_nil, List.nil_append, List.mem_append,
        List.mem_singleton, List.not_mem_nil, exists_eq_left, or_and_right, exists_or, false_and,
        exists_false, false_iff] <;> omega

/-- **What is data in the second string**: what the lead and the end hold of the first
string's data, and the span between them when a range reaches over it. -/
theorem covers_alignRanges {ranges : List DataRange} {j : ℕ} :
    Covers (alignRanges ranges a b) j ↔
      (j < leadLength a b ∧ Covers ranges j) ∨
        (bEnd a b ≤ j ∧ Covers ranges (aEnd a b + (j - bEnd a b))) ∨
        (leadLength a b ≤ j ∧ j < bEnd a b ∧ ranges.any (reachesMiddle a b) = true) := by
  have hflat : Covers (ranges.flatMap (alignRange a b)) j ↔
      (j < leadLength a b ∧ Covers ranges j) ∨
        (bEnd a b ≤ j ∧ Covers ranges (aEnd a b + (j - bEnd a b))) := by
    have heach : Covers (ranges.flatMap (alignRange a b)) j ↔
        ∃ range ∈ ranges, ∃ other ∈ alignRange a b range, other.1 ≤ j ∧ j < other.2 := by
      simp only [Covers, List.mem_flatMap]
      constructor
      · intro h
        obtain ⟨other, ⟨range, hrange, hother⟩, hcovers⟩ := h
        exact ⟨range, hrange, other, hother, hcovers⟩
      · intro h
        obtain ⟨range, hrange, other, hother, hcovers⟩ := h
        exact ⟨other, ⟨range, hrange, hother⟩, hcovers⟩
    rw [heach]
    simp only [covers_alignRange, Covers, and_or_left, exists_or]
    apply or_congr
    · constructor
      · intro h
        obtain ⟨range, hrange, hj, hin⟩ := h
        exact ⟨hj, range, hrange, hin⟩
      · intro h
        obtain ⟨hj, range, hrange, hin⟩ := h
        exact ⟨range, hrange, hj, hin⟩
    · constructor
      · intro h
        obtain ⟨range, hrange, hj, hin⟩ := h
        exact ⟨hj, range, hrange, hin⟩
      · intro h
        obtain ⟨hj, range, hrange, hin⟩ := h
        exact ⟨range, hrange, hj, hin⟩
  rw [alignRanges, covers_mergeRanges, covers_append, hflat, or_assoc]
  refine or_congr_right (or_congr_right ?_)
  split
  · rename_i hany
    simp [Covers, hany]
  · rename_i hany
    simp [covers_nil, hany]

/-- What the lead holds stands as it did. -/
theorem covers_lead {ranges : List DataRange} {j : ℕ} (h : j < leadLength a b) :
    Covers (alignRanges ranges a b) j ↔ Covers ranges j := by
  have hends := @ends_le a b
  rw [covers_alignRanges]
  constructor
  · intro hsaid
    rcases hsaid with hlead | hbehind | hspan
    · exact hlead.2
    · omega
    · omega
  · exact fun hdata => Or.inl ⟨h, hdata⟩

/-- What the end holds is moved. -/
theorem covers_behind {ranges : List DataRange} {j : ℕ} (h : bEnd a b ≤ j) :
    Covers (alignRanges ranges a b) j ↔ Covers ranges (aEnd a b + (j - bEnd a b)) := by
  have hends := @ends_le a b
  rw [covers_alignRanges]
  constructor
  · intro hsaid
    rcases hsaid with hlead | hbehind | hspan
    · omega
    · exact hbehind.2
    · omega
  · exact fun hdata => Or.inr (Or.inl ⟨h, hdata⟩)

theorem covers_span {ranges : List DataRange} {j : ℕ} (h : leadLength a b ≤ j)
    (hstop : j < bEnd a b) :
    Covers (alignRanges ranges a b) j ↔ ranges.any (reachesMiddle a b) = true := by
  rw [covers_alignRanges]
  constructor
  · intro hsaid
    rcases hsaid with hlead | hbehind | hspan
    · omega
    · omega
    · exact hspan.2.2
  · exact fun hany => Or.inr (Or.inr ⟨h, hstop, hany⟩)

section Copies

/-- How data of `u ++ x ++ v` should stand in `u ++ y ++ v`: what took the place of data is
data, other data stays data, and authored text is data at most in the differing span. -/
structure Carries (ranges out : List DataRange) (u x y v : JsString) : Prop where
  replaced : ∀ j, u.length ≤ j → j < u.length + y.length → Covers out j
  before : ∀ i < u.length, Covers ranges i → Covers out i
  behind : ∀ t < v.length, Covers ranges (u.length + x.length + t) →
    Covers out (u.length + y.length + t)
  authored_before : ∀ i < u.length, ¬ Covers ranges i → Covers out i →
    leadLength (u ++ x ++ v) (u ++ y ++ v) ≤ i ∧ i < bEnd (u ++ x ++ v) (u ++ y ++ v)
  authored_behind : ∀ t < v.length, ¬ Covers ranges (u.length + x.length + t) →
    Covers out (u.length + y.length + t) →
    leadLength (u ++ x ++ v) (u ++ y ++ v) ≤ u.length + y.length + t ∧
      u.length + y.length + t < bEnd (u ++ x ++ v) (u ++ y ++ v)

/-- How the ranges are carried: by way of the resolved text where the copies resolve alike,
and as the copies stand elsewhere. -/
def CarriesData (ranges : List DataRange) (u x y v : JsString)
    (resolveA resolveB : Option SentinelResolver) : Prop :=
  let a := u ++ x ++ v
  let b := u ++ y ++ v
  let out := alignStrings ranges a b resolveA resolveB
  if resolveAlike a b resolveA resolveB then
    ∀ j < b.length, ∀ r, StandsFor (resolveSegments b resolveB).segments j r →
      (∃ i, Covers ranges i ∧ StandsFor (resolveSegments a resolveA).segments i r) → Covers out j
  else Carries ranges out u x y v

/-- Where the lead the copies share does not take the place of `x` for another: what it
holds behind `x` stands as `v` does, and a range reaches over the differing span when it
holds data. -/
structure Aligns (ranges : List DataRange) (u x y v : JsString) : Prop where
  /-- What the lead holds of `v` has the standing of what `v` holds there. -/
  moved : ∀ t, u.length + y.length + t < leadLength (u ++ x ++ v) (u ++ y ++ v) →
    (Covers ranges (u.length + x.length + t) ↔ Covers ranges (u.length + y.length + t))
  /-- What the lead holds of `v` in the place of `y` is data. -/
  taken : ∀ i, u.length + x.length ≤ i → i < u.length + y.length →
    i < leadLength (u ++ x ++ v) (u ++ y ++ v) → Covers ranges i
  /-- A range reaches over the span where the span holds of `y`, or of the data of `v`. -/
  reached : ∀ j, leadLength (u ++ x ++ v) (u ++ y ++ v) ≤ j →
    j < bEnd (u ++ x ++ v) (u ++ y ++ v) →
    (j < u.length + y.length ∨
      ∃ t, j = u.length + y.length + t ∧ Covers ranges (u.length + x.length + t)) →
    ranges.any (reachesMiddle (u ++ x ++ v) (u ++ y ++ v)) = true

variable {ranges : List DataRange} {u x y v : JsString}

theorem copies_ends : u.length ≤ leadLength (u ++ x ++ v) (u ++ y ++ v) ∧
    leadLength (u ++ x ++ v) (u ++ y ++ v) ≤ aEnd (u ++ x ++ v) (u ++ y ++ v) ∧
    leadLength (u ++ x ++ v) (u ++ y ++ v) ≤ bEnd (u ++ x ++ v) (u ++ y ++ v) ∧
    bEnd (u ++ x ++ v) (u ++ y ++ v) ≤ u.length + y.length + v.length ∧
    aEnd (u ++ x ++ v) (u ++ y ++ v) + y.length = bEnd (u ++ x ++ v) (u ++ y ++ v) + x.length := by
  obtain ⟨hlead, hlead', ha, hb, hends⟩ := @ends_le (u ++ x ++ v) (u ++ y ++ v)
  have hu : u.length ≤ leadLength (u ++ x ++ v) (u ++ y ++ v) := by
    rw [List.append_assoc, List.append_assoc]
    exact le_sharedLead u _ _
  simp only [List.length_append] at ha hb hends
  omega

/-- **Where copies that do not resolve alike are aligned as they should be.** -/
theorem carries_iff
    (hx : ∀ i, u.length ≤ i → i < u.length + x.length → Covers ranges i) :
    Carries ranges (alignRanges ranges (u ++ x ++ v) (u ++ y ++ v)) u x y v ↔
      Aligns ranges u x y v := by
  obtain ⟨hu, hleadA, hleadB, hend, hshift⟩ := @copies_ends u x y v
  have hlead := @covers_lead (u ++ x ++ v) (u ++ y ++ v) ranges
  have hspan := @covers_span (u ++ x ++ v) (u ++ y ++ v) ranges
  have hbehind : ∀ t, bEnd (u ++ x ++ v) (u ++ y ++ v) ≤ u.length + y.length + t →
      (Covers (alignRanges ranges (u ++ x ++ v) (u ++ y ++ v)) (u.length + y.length + t) ↔
        Covers ranges (u.length + x.length + t)) := by
    intro t ht
    have hsame : aEnd (u ++ x ++ v) (u ++ y ++ v) +
        (u.length + y.length + t - bEnd (u ++ x ++ v) (u ++ y ++ v)) =
        u.length + x.length + t := by omega
    rw [covers_behind ht, hsame]
  constructor
  · intro h
    constructor
    · intro t ht
      have hv : t < v.length := by omega
      rw [← hlead ht]
      constructor
      · exact h.behind t hv
      · intro hout
        by_contra hauthored
        have hin := h.authored_behind t hv hauthored hout
        omega
    · intro i hxi hiy hi
      rw [← hlead hi]
      exact h.replaced i (by omega) hiy
    · intro j hj hstop hsaid
      rw [← hspan hj hstop]
      rcases hsaid with hy | ⟨t, rfl, hdata⟩
      · exact h.replaced j (hu.trans hj) hy
      · exact h.behind t (by omega) hdata
  · intro h
    constructor
    · intro j hj hy
      by_cases hin : j < leadLength (u ++ x ++ v) (u ++ y ++ v)
      · rw [hlead hin]
        by_cases hxj : j < u.length + x.length
        · exact hx j hj hxj
        · exact h.taken j (by omega) hy hin
      · by_cases hstop : j < bEnd (u ++ x ++ v) (u ++ y ++ v)
        · rw [hspan (by omega) hstop]
          exact h.reached j (by omega) hstop (Or.inl hy)
        · -- What the end holds of `y` it holds of `x`.
          rw [covers_behind (by omega)]
          exact hx _ (by omega) (by omega)
    · intro i hi hdata
      rwa [hlead (by omega)]
    · intro t ht hdata
      by_cases hin : u.length + y.length + t < leadLength (u ++ x ++ v) (u ++ y ++ v)
      · rw [hlead hin]
        exact (h.moved t hin).mp hdata
      · by_cases hstop : u.length + y.length + t < bEnd (u ++ x ++ v) (u ++ y ++ v)
        · rw [hspan (by omega) hstop]
          exact h.reached _ (by omega) hstop (Or.inr ⟨t, rfl, hdata⟩)
        · rwa [hbehind t (by omega)]
    · intro i hi hauthored hout
      rw [hlead (by omega)] at hout
      exact absurd hout hauthored
    · intro t ht hauthored hout
      by_cases hin : u.length + y.length + t < leadLength (u ++ x ++ v) (u ++ y ++ v)
      · rw [hlead hin] at hout
        exact absurd ((h.moved t hin).mpr hout) hauthored
      · by_cases hstop : u.length + y.length + t < bEnd (u ++ x ++ v) (u ++ y ++ v)
        · exact ⟨by omega, hstop⟩
        · rw [hbehind t (by omega)] at hout
          exact absurd hout hauthored

/-- **Where the data of one copy is carried onto the other.** -/
theorem carriesData_iff (resolveA resolveB : Option SentinelResolver)
    (hx : ∀ i, u.length ≤ i → i < u.length + x.length → Covers ranges i) :
    CarriesData ranges u x y v resolveA resolveB ↔
      resolveAlike (u ++ x ++ v) (u ++ y ++ v) resolveA resolveB = true ∨
        Aligns ranges u x y v := by
  unfold CarriesData
  simp only [alignStrings]
  cases halike : resolveAlike (u ++ x ++ v) (u ++ y ++ v) resolveA resolveB with
  | true =>
    simp only [if_true, true_or, iff_true]
    intro j _ r hstands hdata
    obtain ⟨i, hdata, hfrom⟩ := hdata
    exact covers_fromRaw (laid_resolveSegments _ resolveB).1 (covers_toRaw hdata hfrom) hstands
  | false =>
    simp only [Bool.false_eq_true, if_false, false_or]
    exact carries_iff hx

/-- One character of data, another in its place. -/
theorem carriesData_iff_one :
    CarriesData [(1, 2)] (js "a") (js "b") (js "c") (js "d") none none := by
  have hlead : leadLength (js "a" ++ js "b" ++ js "d") (js "a" ++ js "c" ++ js "d") = 1 := by decide
  have hlength : (js "a").length = 1 ∧ (js "b").length = 1 ∧ (js "c").length = 1 := by decide
  refine (carriesData_iff none none ?_).mpr (Or.inr ⟨?_, ?_, ?_⟩)
  · intro i hi hlt
    exact ⟨(1, 2), List.mem_cons_self, hi, hlt⟩
  · intro t ht
    rw [hlead] at ht
    omega
  · intro i _ _ hi
    rw [hlead] at hi
    omega
  · intro _ _ _ _
    decide

/-- A copy that adds to data holds what it adds as authored text. -/
theorem added_is_authored :
    ¬ ∀ (ranges : List DataRange) (u x y v : JsString)
        (resolveA resolveB : Option SentinelResolver),
      (∀ i, u.length ≤ i → i < u.length + x.length → Covers ranges i) →
        CarriesData ranges u x y v resolveA resolveB := by
  intro h
  have hcarries : Carries [(0, 1)] (alignRanges [(0, 1)] (js "a") (js "ab")) [] (js "a") (js "ab")
      [] := h [(0, 1)] [] (js "a") (js "ab") [] none none
    (fun i _ hi => ⟨(0, 1), List.mem_cons_self, Nat.zero_le i, hi⟩)
  have hout : alignRanges [(0, 1)] (js "a") (js "ab") = [(0, 1)] := by decide
  have hreplaced := hcarries.replaced 1 (by decide) (by decide)
  rw [hout] at hreplaced
  obtain ⟨range, hrange, _, hlt⟩ := hreplaced
  rw [List.mem_singleton.mp hrange] at hlt
  exact absurd hlt (by decide)

end Copies

end Alignment

end Swamp
