import Swamp.ExpressionScanner
import Swamp.JsonText

/-!
# Paths into a JSON value

A path names a place by a text: keys apart by dots, indexes in brackets, and a key
that would read as either in brackets and quotes.  Where a quote stands open,
neither a dot nor a bracket separates.
-/

namespace Swamp

namespace Provenance

open Js LiteralMatch ExpressionScanner

/-- The units that make a key quoted. -/
def isPathUnit (u : CodeUnit) : Bool :=
  u = unit '.' || u = unit '[' || u = unit ']' || u = unit '"'

def keySegment (key : JsString) : JsString :=
  if key ≠ [] ∧ key.any isPathUnit = false then key else unit '[' :: (quote key ++ [unit ']'])

/-- `prefix`. -/
def prefixPath (root path : JsString) : JsString :=
  if root = [] then path
  else if path = [] then root
  else if path.head? = some (unit '[') then root ++ path
  else root ++ unit '.' :: path

def keyPath (parent key : JsString) : JsString := prefixPath parent (keySegment key)

/-- The segment of an index. -/
def indexSegment (index : ℕ) : JsString := unit '[' :: (decimal index ++ [unit ']'])

def indexPath (parent : JsString) (index : ℕ) : JsString := parent ++ indexSegment index

/-- The walk of `canonicalPath`, inside quotes or not. -/
def foldDots : Bool → JsString → JsString
  | _, [] => []
  | true, c :: rest =>
    if c = unit '\\' then
      match rest with
      | [] => [c]
      | d :: rest => c :: d :: foldDots true rest
    else c :: foldDots (c ≠ unit '"') rest
  | false, c :: rest =>
    if c = unit '"' then c :: foldDots true rest
    else if c = unit '.' ∧ rest.head? = some (unit '[') then foldDots false rest
    else c :: foldDots false rest

def canonicalPath (path : JsString) : JsString :=
  if includes path (js ".[") then foldDots false path else path

/-- The walk of `segmentBoundaries`, inside quotes or not. -/
def boundariesFrom : ℕ → Bool → JsString → List ℕ
  | _, _, [] => []
  | i, true, c :: rest =>
    if c = unit '\\' then
      match rest with
      | [] => []
      | _ :: rest => boundariesFrom (i + 2) true rest
    else boundariesFrom (i + 1) (c ≠ unit '"') rest
  | i, false, c :: rest =>
    if c = unit '"' then boundariesFrom (i + 1) true rest
    else if (c = unit '.' ∨ c = unit '[') ∧ 0 < i then i :: boundariesFrom (i + 1) false rest
    else boundariesFrom (i + 1) false rest

def segmentBoundaries (path : JsString) : List ℕ := boundariesFrom 0 false path

/-- `ancestorsOf`: the path, those it is cut to at its separators, and the root. -/
def ancestorsOf (path : JsString) : List JsString :=
  path ::
    ((if path.contains (unit '"') then (segmentBoundaries path).reverse
      else (List.range path.length).reverse.filter (fun i =>
        0 < i && (path[i]? = some (unit '.') || path[i]? = some (unit '[')))).map path.take ++
    if path = [] then [] else [[]])

def isAtOrUnder (path root : JsString) : Bool :=
  root = [] || path = root || startsWith path (root ++ [unit '.']) ||
    startsWith path (root ++ [unit '['])

/-- Whether a quote stands open, and whether the next unit is escaped in it. -/
inductive Quoting where
  | code
  | quoted
  | escaped
deriving DecidableEq

def quoteStep : Quoting → CodeUnit → Quoting
  | .code, c => if c = unit '"' then .quoted else .code
  | .quoted, c => if c = unit '\\' then .escaped else if c = unit '"' then .code else .quoted
  | .escaped, _ => .quoted

/-- How the quotes stand after a text. -/
def stateAfter (state : Quoting) (text : JsString) : Quoting := text.foldl quoteStep state

@[simp] theorem stateAfter_nil (state : Quoting) : stateAfter state [] = state := rfl

@[simp] theorem stateAfter_cons (state : Quoting) (c : CodeUnit) (text : JsString) :
    stateAfter state (c :: text) = stateAfter (quoteStep state c) text := rfl

theorem stateAfter_append (state : Quoting) (s t : JsString) :
    stateAfter state (s ++ t) = stateAfter (stateAfter state s) t := List.foldl_append

/-- A walk from `offset` on, in a state, meets a separator at `i`: a dot or a bracket
that no quote holds and that does not come first. -/
def Meets (state : Quoting) (text : JsString) (offset i : ℕ) : Prop :=
  ∃ k, i = offset + k ∧ 0 < i ∧ stateAfter state (text.take k) = .code ∧
    (text[k]? = some (unit '.') ∨ text[k]? = some (unit '['))

variable {state : Quoting} {offset i : ℕ}

theorem not_meets_nil : ¬ Meets state [] offset i := by
  intro h
  obtain ⟨k, _, _, _, hunit⟩ := h
  simp at hunit

variable {c : CodeUnit}

theorem meets_cons {rest : JsString} :
    Meets state (c :: rest) offset i ↔
      (i = offset ∧ 0 < i ∧ state = .code ∧ (c = unit '.' ∨ c = unit '[')) ∨
        Meets (quoteStep state c) rest (offset + 1) i := by
  constructor
  · intro h
    obtain ⟨k, hi, hpos, hstate, hunit⟩ := h
    cases k with
    | zero => exact Or.inl ⟨hi, hpos, by simpa using hstate, by simpa using hunit⟩
    | succ k => exact Or.inr ⟨k, by omega, hpos, by simpa using hstate, by simpa using hunit⟩
  · intro h
    cases h with
    | inl h => exact ⟨0, h.1, h.2.1, by simpa using h.2.2.1, by simpa using h.2.2.2⟩
    | inr h =>
      obtain ⟨k, hi, hpos, hstate, hunit⟩ := h
      exact ⟨k + 1, by omega, hpos, by simpa using hstate, by simpa using hunit⟩

variable {text : JsString}

theorem meets_append {more : JsString} :
    Meets state (text ++ more) offset i ↔
      Meets state text offset i ∨ Meets (stateAfter state text) more (offset + text.length) i := by
  induction text generalizing state offset with
  | nil => simp [not_meets_nil]
  | cons c rest ih =>
    rw [List.cons_append, meets_cons, meets_cons, ih, stateAfter_cons, List.length_cons,
      Nat.add_right_comm offset 1, ← Nat.add_assoc, or_assoc]

/-- The state a walk is in: inside quotes or not. -/
def stateOf (quoted : Bool) : Quoting := if quoted then .quoted else .code

variable {quoted : Bool}

theorem mem_boundariesFrom :
    i ∈ boundariesFrom offset quoted text ↔ Meets (stateOf quoted) text offset i := by
  fun_induction boundariesFrom offset quoted text with
  | case1 => simp [not_meets_nil]
  | case2 offset => simp [meets_cons, not_meets_nil, stateOf]
  | case3 offset head rest ih =>
    simp only [stateOf, if_true] at ih
    simp [ih, meets_cons, stateOf, quoteStep]
  | case4 offset c rest hslash ih =>
    rw [ih, meets_cons]
    by_cases hquote : c = unit '"'
    · subst hquote
      simp [stateOf, quoteStep, hslash]
    · simp [stateOf, quoteStep, hquote, hslash]
  | case5 offset rest ih =>
    have hcode : ¬ (unit '"' = unit '.' ∨ unit '"' = unit '[') := by decide
    rw [ih, meets_cons]
    simp [stateOf, quoteStep, hcode]
  | case6 offset c rest hquote hsep ih =>
    have hstep : quoteStep (stateOf false) c = stateOf false := if_neg hquote
    rw [List.mem_cons, ih, meets_cons, hstep]
    refine or_congr_left ⟨?_, fun h => h.1⟩
    intro heq
    exact ⟨heq, heq ▸ hsep.2, rfl, hsep.1⟩
  | case7 offset c rest hquote hsep ih =>
    have hstep : quoteStep (stateOf false) c = stateOf false := if_neg hquote
    rw [ih, meets_cons, hstep]
    refine (or_iff_right ?_).symm
    intro h
    exact hsep ⟨h.2.2.2, h.1 ▸ h.2.1⟩

variable {path : JsString}

theorem mem_segmentBoundaries :
    i ∈ segmentBoundaries path ↔ Meets .code path 0 i := mem_boundariesFrom

theorem stateAfter_plain (h : unit '"' ∉ text) : stateAfter .code text = .code := by
  induction text with
  | nil => rfl
  | cons c rest ih =>
    rw [List.mem_cons, not_or] at h
    have hstep : quoteStep .code c = .code := if_neg (fun heq => h.1 heq.symm)
    rw [stateAfter_cons, hstep, ih h.2]

variable {a : JsString}

/-- **The paths above a path are cut at its separators.** -/
theorem mem_ancestorsOf :
    a ∈ ancestorsOf path ↔ a = path ∨ a = [] ∨ ∃ i, Meets .code path 0 i ∧ a = path.take i := by
  have hcuts : ∀ i, i ∈ (if path.contains (unit '"') then (segmentBoundaries path).reverse
      else (List.range path.length).reverse.filter (fun i =>
        0 < i && (path[i]? = some (unit '.') || path[i]? = some (unit '[')))) ↔
      Meets .code path 0 i := by
    intro i
    split
    · rw [List.mem_reverse, mem_segmentBoundaries]
    · rename_i hquote
      have hnot : unit '"' ∉ path := by simpa using hquote
      have hstate : stateAfter .code (path.take i) = .code :=
        stateAfter_plain (fun h => hnot (List.mem_of_mem_take h))
      simp only [List.mem_filter, List.mem_reverse, List.mem_range, Bool.and_eq_true,
        decide_eq_true_eq, Bool.or_eq_true]
      constructor
      · intro h
        exact ⟨i, (Nat.zero_add i).symm, h.2.1, hstate, h.2.2⟩
      · intro h
        obtain ⟨k, hi, hpos, _, hunit⟩ := h
        rw [Nat.zero_add] at hi
        subst hi
        refine ⟨?_, hpos, hunit⟩
        rcases hunit with hunit | hunit
        · exact (List.getElem?_eq_some_iff.mp hunit).1
        · exact (List.getElem?_eq_some_iff.mp hunit).1
  have hroot : a ∈ (if path = [] then [] else [([] : JsString)]) ↔ path ≠ [] ∧ a = [] := by
    split
    · simp_all
    · simp_all
  unfold ancestorsOf
  rw [List.mem_cons, List.mem_append, List.mem_map, hroot]
  constructor
  · intro h
    rcases h with h | ⟨i, hi, h⟩ | h
    · exact Or.inl h
    · exact Or.inr (Or.inr ⟨i, (hcuts i).mp hi, h.symm⟩)
    · exact Or.inr (Or.inl h.2)
  · intro h
    rcases h with h | h | ⟨i, hi, h⟩
    · exact Or.inl h
    · by_cases hpath : path = []
      · exact Or.inl (h.trans hpath.symm)
      · exact Or.inr (Or.inr ⟨hpath, h⟩)
    · exact Or.inr (Or.inl ⟨i, (hcuts i).mpr hi, h.symm⟩)

theorem length_le_of_mem_ancestorsOf (h : a ∈ ancestorsOf path) :
    a.length ≤ path.length ∧ a = path.take a.length := by
  rcases mem_ancestorsOf.mp h with h | h | ⟨i, _, h⟩
  · simp [h]
  · simp [h]
  · subst h
    simp

theorem mem_ancestorsOf_of_le {b : JsString} (ha : a ∈ ancestorsOf path) (hb : b ∈ ancestorsOf path)
    (hle : a.length ≤ b.length) : a ∈ ancestorsOf b := by
  obtain ⟨hlength, htake⟩ := length_le_of_mem_ancestorsOf hb
  rw [mem_ancestorsOf] at ha ⊢
  rcases ha with ha | ha | ⟨i, ⟨k, hi, hpos, hstate, hunit⟩, ha⟩
  · subst ha
    rw [List.take_of_length_le hle] at htake
    exact Or.inl htake.symm
  · exact Or.inr (Or.inl ha)
  · rw [Nat.zero_add] at hi
    subst hi
    have hlt : i < path.length := by
      rcases hunit with hunit | hunit
      · exact (List.getElem?_eq_some_iff.mp hunit).1
      · exact (List.getElem?_eq_some_iff.mp hunit).1
    have hai : a.length = i := by
      rw [ha, List.length_take]
      omega
    by_cases heq : i = b.length
    · rw [heq, ← htake] at ha
      exact Or.inl ha
    · refine Or.inr (Or.inr ⟨i, ⟨i, (Nat.zero_add i).symm, hpos, ?_, ?_⟩, ?_⟩)
      · rw [htake, List.take_take, min_eq_left (by omega)]
        exact hstate
      · rw [htake, List.getElem?_take_of_lt (by omega)]
        exact hunit
      · rw [htake, List.take_take, min_eq_left (by omega)]
        exact ha

theorem startsWith_iff {lead : JsString} : startsWith text lead = true ↔ lead <+: text :=
  List.isPrefixOf_iff_prefix

/-- **A path stands under another exactly when the other is above it.** -/
theorem isAtOrUnder_iff {root : JsString} (hroot : stateAfter .code root = .code) :
    isAtOrUnder path root = true ↔ root ∈ ancestorsOf path := by
  rw [mem_ancestorsOf]
  simp only [isAtOrUnder, Bool.or_eq_true, decide_eq_true_eq, startsWith_iff]
  by_cases hempty : root = []
  · simp [hempty]
  have hpos : 0 < root.length := List.length_pos_iff.mpr hempty
  have hcut : ∀ c, c = unit '.' ∨ c = unit '[' → root ++ [c] <+: path →
      ∃ i, Meets .code path 0 i ∧ root = path.take i := by
    intro c hc hstands
    obtain ⟨more, rfl⟩ := hstands
    refine ⟨root.length, ?_, by simp⟩
    rw [List.append_assoc, meets_append, hroot, List.singleton_append, meets_cons]
    exact Or.inr (Or.inl ⟨by omega, hpos, rfl, hc⟩)
  constructor
  · intro h
    rcases h with ((h | h) | h) | h
    · exact absurd h hempty
    · exact Or.inl h.symm
    · exact Or.inr (Or.inr (hcut _ (Or.inl rfl) h))
    · exact Or.inr (Or.inr (hcut _ (Or.inr rfl) h))
  · intro h
    rcases h with h | h | ⟨i, ⟨k, hi, _, _, hunit⟩, h⟩
    · exact Or.inl (Or.inl (Or.inr h.symm))
    · exact absurd h hempty
    · rw [Nat.zero_add] at hi
      subst hi
      have hstands : ∀ c, path[i]? = some c → root ++ [c] <+: path := by
        intro c hc
        obtain ⟨hlt, hget⟩ := List.getElem?_eq_some_iff.mp hc
        rw [h, ← hget, List.take_append_getElem hlt]
        exact List.take_prefix _ _
      rcases hunit with hunit | hunit
      · exact Or.inl (Or.inr (hstands _ hunit))
      · exact Or.inr (hstands _ hunit)

/-- No dot outside quotes stands before a bracket. -/
def Unfolded (state : Quoting) (text : JsString) : Prop :=
  ∀ i, stateAfter state (text.take i) = .code → text[i]? = some (unit '.') →
    text[i + 1]? ≠ some (unit '[')

theorem unfolded_cons {rest : JsString} :
    Unfolded state (c :: rest) ↔
      (state = .code → c = unit '.' → rest.head? ≠ some (unit '[')) ∧
        Unfolded (quoteStep state c) rest := by
  constructor
  · intro h
    refine ⟨?_, ?_⟩
    · intro hstate hdot
      have hfirst := h 0 (by simpa using hstate) (by simp [hdot])
      rwa [List.head?_eq_getElem?]
    · intro i hstate hdot
      exact h (i + 1) (by simpa using hstate) (by simpa using hdot)
  · intro h i hstate hdot
    cases i with
    | zero =>
      have hfirst := h.1 (by simpa using hstate) (by simpa using hdot)
      rwa [List.head?_eq_getElem?] at hfirst
    | succ i => exact h.2 i (by simpa using hstate) (by simpa using hdot)

theorem quoteStep_quoted (hslash : c ≠ unit '\\') :
    quoteStep (stateOf true) c = stateOf (decide (c ≠ unit '"')) := by
  by_cases hquote : c = unit '"'
  · subst hquote
    simp [stateOf, quoteStep, hslash]
  · simp [stateOf, quoteStep, hslash, hquote]

theorem foldDots_eq_self (h : Unfolded (stateOf quoted) text) : foldDots quoted text = text := by
  fun_induction foldDots quoted text with
  | case1 | case2 => rfl
  | case3 d rest ih =>
    rw [unfolded_cons, unfolded_cons] at h
    rw [ih (by simpa [stateOf, quoteStep] using h.2.2)]
  | case4 c rest hslash ih =>
    have hrest := (unfolded_cons.mp h).2
    rw [ih (quoteStep_quoted hslash ▸ hrest)]
  | case5 rest ih =>
    have hrest := (unfolded_cons.mp h).2
    rw [ih hrest]
  | case6 c rest hquote hfold ih => exact absurd hfold.2 ((unfolded_cons.mp h).1 rfl hfold.1)
  | case7 c rest hquote hfold ih =>
    have hrest := (unfolded_cons.mp h).2
    have hstep : quoteStep (stateOf false) c = stateOf false := if_neg hquote
    rw [ih (hstep ▸ hrest)]

/-- `canonicalPath` is its walk: a path without `.[` has nothing to fold. -/
theorem canonicalPath_eq (path : JsString) : canonicalPath path = foldDots false path := by
  unfold canonicalPath
  split
  · rfl
  · rename_i hnone
    refine (foldDots_eq_self ?_).symm
    intro i _ hdot hbracket
    apply hnone
    obtain ⟨hlt, hget⟩ := List.getElem?_eq_some_iff.mp hdot
    obtain ⟨hlt', hget'⟩ := List.getElem?_eq_some_iff.mp hbracket
    have hstands : js ".[" <+: path.drop i := by
      rw [List.drop_eq_getElem_cons hlt, List.drop_eq_getElem_cons hlt', hget, hget']
      exact ⟨_, rfl⟩
    obtain ⟨first, hfirst, _⟩ := indexOf_le (Nat.zero_le i) hlt.le hstands
    rw [includes, hfirst]
    rfl

/-- A walk over a text that leaves no quote open goes on as if the rest stood alone,
where no dot of the one meets a bracket of the other. -/
theorem foldDots_append {more : JsString} (hclosed : stateAfter (stateOf quoted) text = .code)
    (hmeet : text.getLast? = some (unit '.') → more.head? ≠ some (unit '[')) :
    foldDots quoted (text ++ more) = foldDots quoted text ++ foldDots false more := by
  have hlater : ∀ {c : CodeUnit} {rest : JsString},
      ((c :: rest).getLast? = some (unit '.') → more.head? ≠ some (unit '[')) →
        rest.getLast? = some (unit '.') → more.head? ≠ some (unit '[') := by
    intro c rest h hrest
    cases rest with
    | nil => cases hrest
    | cons d rest => exact h (by rwa [List.getLast?_cons_cons])
  fun_induction foldDots quoted text with
  | case1 quoted =>
    cases quoted with
    | true => exact absurd hclosed (by simp [stateOf])
    | false => rfl
  | case2 => exact absurd hclosed (by simp [stateOf, quoteStep])
  | case3 d rest ih =>
    rw [List.cons_append, List.cons_append, foldDots.eq_def]
    simp only [if_true]
    rw [ih (by simpa [stateOf, quoteStep] using hclosed) (hlater (hlater hmeet))]
    rfl
  | case4 c rest hslash ih =>
    rw [stateAfter_cons, quoteStep_quoted hslash] at hclosed
    rw [List.cons_append, foldDots.eq_def]
    simp only [if_neg hslash]
    rw [ih hclosed (hlater hmeet)]
    rfl
  | case5 rest ih =>
    rw [List.cons_append, foldDots.eq_def]
    simp only [if_true]
    rw [ih hclosed (hlater hmeet)]
    rfl
  | case6 c rest hquote hfold ih =>
    have hhead : (rest ++ more).head? = some (unit '[') := by
      cases rest with
      | nil => cases hfold.2
      | cons d rest => exact hfold.2
    have hstep : quoteStep (stateOf false) c = stateOf false := if_neg hquote
    rw [stateAfter_cons, hstep] at hclosed
    rw [List.cons_append, foldDots.eq_def]
    simp only [if_neg hquote, if_pos (And.intro hfold.1 hhead)]
    exact ih hclosed (hlater hmeet)
  | case7 c rest hquote hfold ih =>
    have hnot : ¬ (c = unit '.' ∧ (rest ++ more).head? = some (unit '[')) := by
      intro h
      cases rest with
      | nil => exact hmeet (by rw [h.1]; rfl) h.2
      | cons d rest => exact hfold ⟨h.1, h.2⟩
    have hstep : quoteStep (stateOf false) c = stateOf false := if_neg hquote
    rw [stateAfter_cons, hstep] at hclosed
    rw [List.cons_append, foldDots.eq_def]
    simp only [if_neg hquote, if_neg hnot]
    rw [ih hclosed (hlater hmeet)]
    rfl

end Provenance

end Swamp
 
