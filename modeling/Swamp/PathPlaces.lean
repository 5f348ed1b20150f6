import Swamp.ProvenancePaths

/-!
# The paths of places

A place in a value is a list of steps, and its path is put together step by step from
their segments.  A segment closes its quotes, and what stands outside them is no
separator.
-/

namespace Swamp

namespace Provenance

open Js

/-- A segment: what stands outside its quotes is no dot, and a bracket only in front. -/
structure Segment (text : JsString) : Prop where
  nonempty : text ≠ []
  balanced : stateAfter .code text = .code
  separators : ∀ i, stateAfter .code (text.take i) = .code →
    text[i]? ≠ some (unit '.') ∧ (text[i]? = some (unit '[') → i = 0)

/-- A text that leaves a quote open and closes it nowhere. -/
structure Inside (text : JsString) : Prop where
  stays : stateAfter .quoted text = .quoted
  never : ∀ i, stateAfter .quoted (text.take i) ≠ .code

theorem Inside.nil : Inside [] := ⟨rfl, fun i => by simp⟩

theorem Inside.append {s t : JsString} (hs : Inside s) (ht : Inside t) : Inside (s ++ t) where
  stays := by rw [stateAfter_append, hs.stays, ht.stays]
  never := by
    intro i
    rw [List.take_append, stateAfter_append]
    by_cases hi : i ≤ s.length
    · rw [Nat.sub_eq_zero_of_le hi, List.take_zero]
      exact hs.never i
    · rw [List.take_of_length_le (by omega), hs.stays]
      exact ht.never _

theorem Inside.plain {u : CodeUnit} (hslash : u ≠ unit '\\') (hquote : u ≠ unit '"') :
    Inside [u] where
  stays := by simp [quoteStep, hslash, hquote]
  never := by
    intro i
    cases i with
    | zero => simp
    | succ i => simp [quoteStep, hslash, hquote]

theorem Inside.escape (u : CodeUnit) : Inside [unit '\\', u] where
  stays := by simp [quoteStep]
  never := by
    intro i
    cases i with
    | zero => simp
    | succ i =>
      cases i with
      | zero | succ i => simp [quoteStep]

theorem inside_of_units {text : JsString} (h : ∀ u ∈ text, u ≠ unit '\\' ∧ u ≠ unit '"') :
    Inside text := by
  induction text with
  | nil => exact Inside.nil
  | cons u rest ih =>
    obtain ⟨hslash, hquote⟩ := h u List.mem_cons_self
    exact (Inside.plain hslash hquote).append
      (ih (fun v hv => h v (List.mem_cons_of_mem _ hv)))

theorem lowerHex_plain {d : ℕ} (h : d < 16) : lowerHex d ≠ unit '\\' ∧ lowerHex d ≠ unit '"' := by
  interval_cases d <;> decide

theorem inside_hexDigits (u : CodeUnit) : Inside (hexDigits u) := by
  have hlt := u.isLt
  apply inside_of_units
  intro v hv
  simp only [hexDigits, List.mem_cons, List.not_mem_nil, or_false] at hv
  rcases hv with rfl | rfl | rfl | rfl
  · exact lowerHex_plain (by omega)
  · exact lowerHex_plain (by omega)
  · exact lowerHex_plain (by omega)
  · exact lowerHex_plain (by omega)

theorem inside_quoteUnit (u : CodeUnit) : Inside (quoteUnit u) := by
  unfold quoteUnit
  split
  · exact Inside.escape _
  · rename_i hnone
    split
    · exact (Inside.escape _).append (inside_hexDigits u)
    · have hplain : ∀ v, v = unit '\\' ∨ v = unit '"' → escapeLetter v ≠ none := by
        intro v hv
        rcases hv with rfl | rfl <;> decide
      exact Inside.plain (fun h => hplain u (Or.inl h) hnone) (fun h => hplain u (Or.inr h) hnone)

/-- No unit of a string closes its quote. -/
theorem inside_quoteUnits (s : JsString) : Inside (quoteUnits s) := by
  fun_induction quoteUnits s with
  | case1 => exact Inside.nil
  | case2 u => exact inside_quoteUnit u
  | case3 u v rest hpair ih =>
    have hunits : ∀ w, isLeading w = true ∨ isTrailing w = true →
        w ≠ unit '\\' ∧ w ≠ unit '"' := by
      intro w hw
      refine ⟨?_, ?_⟩
      · intro heq
        rw [heq] at hw
        exact absurd hw (by decide)
      · intro heq
        rw [heq] at hw
        exact absurd hw (by decide)
    obtain ⟨hu, hv⟩ := Bool.and_eq_true_iff.mp hpair
    have hfirst := hunits u (Or.inl hu)
    have hsecond := hunits v (Or.inr hv)
    exact (Inside.plain hfirst.1 hfirst.2).append ((Inside.plain hsecond.1 hsecond.2).append ih)
  | case4 u v rest hpair ih => exact (inside_quoteUnit u).append ih

theorem segment_plain {text : JsString} (hne : text ≠ []) (h : text.any isPathUnit = false) :
    Segment text where
  nonempty := hne
  balanced := by
    apply stateAfter_plain
    intro hmem
    exact absurd (List.any_eq_false.mp h _ hmem) (by decide)
  separators := by
    intro i _
    have hunit : ∀ c, text[i]? = some c → isPathUnit c = false := by
      intro c hc
      simpa using List.any_eq_false.mp h c (List.mem_of_getElem? hc)
    refine ⟨?_, ?_⟩
    · intro hdot
      exact absurd (hunit _ hdot) (by decide)
    · intro hbracket
      exact absurd (hunit _ hbracket) (by decide)

theorem segment_bracketed {text : JsString} (hbalanced : stateAfter .code text = .code)
    (h : ∀ i, stateAfter .code (text.take i) = .code →
      text[i]? ≠ some (unit '.') ∧ text[i]? ≠ some (unit '[')) :
    Segment (unit '[' :: (text ++ [unit ']'])) where
  nonempty := List.cons_ne_nil _ _
  balanced := by
    have hopen : quoteStep .code (unit '[') = .code := by decide
    rw [stateAfter_cons, hopen, stateAfter_append, hbalanced]
    decide
  separators := by
    have hopen : quoteStep .code (unit '[') = .code := by decide
    intro i hstate
    cases i with
    | zero => exact ⟨fun h => absurd (Option.some.inj h) (by decide), fun _ => rfl⟩
    | succ i =>
      rw [List.take_succ_cons, stateAfter_cons, hopen] at hstate
      have hunit : (text ++ [unit ']'])[i]? ≠ some (unit '.') ∧
          (text ++ [unit ']'])[i]? ≠ some (unit '[') := by
        by_cases hi : i < text.length
        · rw [List.take_append_of_le_length (by omega)] at hstate
          rw [List.getElem?_append_left hi]
          exact h i hstate
        · rw [List.getElem?_append_right (by omega)]
          have hlast : ∀ c : CodeUnit, c ≠ unit ']' →
              [unit ']'][i - text.length]? ≠ some c := by
            intro c hc hsome
            have hmem := List.mem_of_getElem? hsome
            exact hc (List.mem_singleton.mp hmem)
          exact ⟨hlast _ (by decide), hlast _ (by decide)⟩
      exact ⟨hunit.1, fun hbracket => absurd hbracket hunit.2⟩

theorem segment_quoted (key : JsString) : Segment (unit '[' :: (quote key ++ [unit ']'])) := by
  have hin := inside_quoteUnits key
  have hopen : quoteStep .code (unit '"') = .quoted := by decide
  apply segment_bracketed
  · rw [quote, stateAfter_cons, hopen, stateAfter_append, hin.stays]
    decide
  · intro i hstate
    unfold quote at hstate ⊢
    cases i with
    | zero =>
      exact ⟨fun h => absurd (Option.some.inj h) (by decide),
        fun h => absurd (Option.some.inj h) (by decide)⟩
    | succ i =>
      rw [List.take_succ_cons, stateAfter_cons, hopen] at hstate
      rw [List.getElem?_cons_succ]
      -- Outside the quotes there is only the closing one.
      by_cases hi : i ≤ (quoteUnits key).length
      · rw [List.take_append_of_le_length hi] at hstate
        exact absurd hstate (hin.never i)
      · rw [List.getElem?_eq_none (by simp; omega)]
        exact ⟨nofun, nofun⟩

theorem segment_index (index : ℕ) : Segment (indexSegment index) := by
  have hdigits : ∀ u, isDigitUnit u = false → u ∉ decimal index :=
    fun u hu => not_mem_decimal hu index
  refine segment_bracketed (stateAfter_plain (hdigits _ (by decide))) ?_
  intro i _
  refine ⟨?_, ?_⟩
  · intro h
    exact hdigits _ (by decide) (List.mem_of_getElem? h)
  · intro h
    exact hdigits _ (by decide) (List.mem_of_getElem? h)

theorem segment_key (key : JsString) : Segment (keySegment key) := by
  unfold keySegment
  split
  · rename_i h
    exact segment_plain h.1 h.2
  · exact segment_quoted key

/-- A step into a value. -/
inductive Step where
  | key (key : JsString)
  | index (index : ℕ)
deriving DecidableEq

/-- The segment a step adds to a path. -/
def segment : Step → JsString
  | .key key => keySegment key
  | .index index => indexSegment index

/-- The path of a place: that of the place above it with the segment of the last step. -/
def pathOf (place : List Step) : JsString :=
  place.foldl (fun path step => prefixPath path (segment step)) []

theorem segment_segment (step : Step) : Segment (segment step) := by
  cases step with
  | key key => exact segment_key key
  | index index => exact segment_index index

@[simp] theorem pathOf_nil : pathOf [] = [] := rfl

theorem pathOf_concat (place : List Step) (step : Step) :
    pathOf (place ++ [step]) = prefixPath (pathOf place) (segment step) := by
  simp [pathOf]

@[simp] theorem prefixPath_nil (path : JsString) : prefixPath [] path = path := if_pos rfl

@[simp] theorem prefixPath_root (root : JsString) : prefixPath root [] = root := by
  unfold prefixPath
  split
  case isTrue h => exact h.symm
  case isFalse => exact if_pos rfl

/-- What a path put under another adds to it: a bracket stands alone, a key behind a dot. -/
def link (path : JsString) : JsString :=
  if path.head? = some (unit '[') then path else unit '.' :: path

variable {root path : JsString}

theorem prefixPath_eq (hroot : root ≠ []) (hpath : path ≠ []) :
    prefixPath root path = root ++ link path := by
  unfold prefixPath link
  rw [if_neg hroot, if_neg hpath]
  split
  · rfl
  · rfl

theorem head_link (path : JsString) :
    (link path).head? = some (unit '.') ∨ (link path).head? = some (unit '[') := by
  unfold link
  split
  case isTrue h => exact Or.inr h
  case isFalse => exact Or.inl rfl

theorem link_injective : Function.Injective link := by
  intro a b h
  unfold link at h
  split at h
  case isTrue ha =>
    split at h
    · exact h
    · rw [h] at ha
      exact absurd (Option.some.inj ha) (by decide)
  case isFalse =>
    split at h
    case isTrue hb =>
      rw [← h] at hb
      exact absurd (Option.some.inj hb) (by decide)
    case isFalse => exact (List.cons.inj h).2

theorem prefixPath_ne_nil (hpath : path ≠ []) : prefixPath root path ≠ [] := by
  by_cases hroot : root = []
  · rw [hroot, prefixPath_nil]
    exact hpath
  · rw [prefixPath_eq hroot hpath]
    exact List.append_ne_nil_of_left_ne_nil hroot _

variable {a : JsString}

theorem prefixPath_cancel {b : JsString} (h : prefixPath root a = prefixPath root b) : a = b := by
  by_cases hroot : root = []
  · simpa [hroot] using h
  have hlink : ∀ path : JsString, path ≠ [] → root ≠ prefixPath root path := by
    intro path hpath heq
    rw [prefixPath_eq hroot hpath] at heq
    have hempty := List.self_eq_append_right.mp heq
    have hhead := head_link path
    rw [hempty] at hhead
    simp at hhead
  by_cases ha : a = []
  · by_cases hb : b = []
    · rw [ha, hb]
    · rw [ha, prefixPath_root] at h
      exact absurd h (hlink b hb)
  · by_cases hb : b = []
    · rw [hb, prefixPath_root] at h
      exact absurd h.symm (hlink a ha)
    · rw [prefixPath_eq hroot ha, prefixPath_eq hroot hb] at h
      exact link_injective (List.append_cancel_left h)

theorem prefixPath_assoc (root middle path : JsString) :
    prefixPath root (prefixPath middle path) = prefixPath (prefixPath root middle) path := by
  by_cases hroot : root = []
  · simp [hroot]
  by_cases hmiddle : middle = []
  · simp [hmiddle]
  by_cases hpath : path = []
  · simp [hpath]
  have hhead : ∀ more, (middle ++ more).head? = middle.head? := by
    intro more
    cases middle with
    | nil => exact absurd rfl hmiddle
    | cons c rest => rfl
  have hlink : ∀ more, link (middle ++ more) = link middle ++ more := by
    intro more
    unfold link
    rw [hhead]
    split
    · rfl
    · rfl
  rw [prefixPath_eq hroot (prefixPath_ne_nil hpath), prefixPath_eq hmiddle hpath,
    prefixPath_eq (prefixPath_ne_nil hmiddle) hpath, prefixPath_eq hroot hmiddle, hlink,
    List.append_assoc]

/-- **A place put under another.** -/
theorem prefixPath_pathOf (above below : List Step) :
    prefixPath (pathOf above) (pathOf below) = pathOf (above ++ below) := by
  induction below using List.reverseRecOn with
  | nil => simp
  | append_singleton below step ih =>
    rw [pathOf_concat, prefixPath_assoc, ih, ← List.append_assoc, pathOf_concat]

theorem keyPath_pathOf (place : List Step) (key : JsString) :
    keyPath (pathOf place) key = pathOf (place ++ [.key key]) :=
  (pathOf_concat place (.key key)).symm

theorem indexPath_pathOf (place : List Step) (index : ℕ) :
    indexPath (pathOf place) index = pathOf (place ++ [.index index]) := by
  rw [pathOf_concat, segment, indexPath]
  by_cases hplace : pathOf place = []
  · rw [hplace, prefixPath_nil, List.nil_append]
  · have hlink : link (indexSegment index) = indexSegment index := if_pos rfl
    rw [prefixPath_eq hplace (segment_index index).nonempty, hlink]

/-- A segment is cut nowhere. -/
theorem Segment.meets {text : JsString} (h : Segment text) {offset i : ℕ}
    (hmeets : Meets .code text offset i) : i = offset ∧ text.head? = some (unit '[') := by
  obtain ⟨k, hi, _, hstate, hunit⟩ := hmeets
  obtain ⟨hdot, hbracket⟩ := h.separators k hstate
  have hopen := hunit.resolve_left hdot
  obtain rfl := hbracket hopen
  exact ⟨hi, by rw [List.head?_eq_getElem?]; exact hopen⟩

theorem stateAfter_link {text : JsString} (h : stateAfter .code text = .code) :
    stateAfter .code (link text) = .code := by
  unfold link
  split
  · exact h
  · have hdot : quoteStep .code (unit '.') = .code := by decide
    rw [stateAfter_cons, hdot, h]

/-- A link is cut in front only. -/
theorem meets_link {text : JsString} (h : Segment text) {offset i : ℕ} (hoffset : 0 < offset) :
    Meets .code (link text) offset i ↔ i = offset := by
  unfold link
  split
  case isTrue hhead =>
    refine ⟨fun hmeets => (h.meets hmeets).1, ?_⟩
    intro hi
    exact ⟨0, by omega, by omega, by simp, Or.inr (by rw [← List.head?_eq_getElem?]; exact hhead)⟩
  case isFalse hhead =>
    have hdot : quoteStep .code (unit '.') = .code := by decide
    rw [meets_cons, hdot]
    constructor
    · intro hmeets
      cases hmeets with
      | inl hfirst => exact hfirst.1
      | inr hlater => exact absurd (h.meets hlater).2 hhead
    · intro hi
      exact Or.inl ⟨hi, hi ▸ hoffset, rfl, Or.inl rfl⟩

/-- The paths above a path with a segment more. -/
theorem mem_ancestorsOf_prefixPath {text : JsString} (hroot : stateAfter .code root = .code)
    (htext : Segment text) :
    a ∈ ancestorsOf (prefixPath root text) ↔ a = prefixPath root text ∨ a ∈ ancestorsOf root := by
  rw [mem_ancestorsOf, mem_ancestorsOf]
  by_cases hempty : root = []
  · have hnone : ∀ i, ¬ Meets .code text 0 i := by
      intro i hmeets
      have hzero := (htext.meets hmeets).1
      obtain ⟨_, _, hpos, _⟩ := hmeets
      omega
    have hnil : ∀ i, ¬ Meets .code ([] : JsString) 0 i := fun i => not_meets_nil
    simp [hempty, hnone, hnil]
  · have hpos : 0 < root.length := List.length_pos_iff.mpr hempty
    have hmeets : ∀ i, Meets .code (prefixPath root text) 0 i ↔
        Meets .code root 0 i ∨ i = root.length := by
      intro i
      rw [prefixPath_eq hempty htext.nonempty, meets_append, hroot, Nat.zero_add,
        meets_link htext hpos]
    have htake : ∀ i, i ≤ root.length → (prefixPath root text).take i = root.take i := by
      intro i hi
      rw [prefixPath_eq hempty htext.nonempty, List.take_append_of_le_length hi]
    have hlt : ∀ i, Meets .code root 0 i → i ≤ root.length := by
      intro i hi
      obtain ⟨k, hk, _, _, hunit⟩ := hi
      rcases hunit with hunit | hunit
      · have := (List.getElem?_eq_some_iff.mp hunit).1
        omega
      · have := (List.getElem?_eq_some_iff.mp hunit).1
        omega
    apply or_congr_right
    constructor
    · intro h
      rcases h with h | ⟨i, hi, h⟩
      · exact Or.inr (Or.inl h)
      · rcases (hmeets i).mp hi with hroot' | hend
        · exact Or.inr (Or.inr ⟨i, hroot', h.trans (htake i (hlt i hroot'))⟩)
        · subst hend
          rw [htake _ (le_refl _), List.take_length] at h
          exact Or.inl h
    · intro h
      rcases h with h | h | ⟨i, hi, h⟩
      · refine Or.inr ⟨root.length, (hmeets _).mpr (Or.inr rfl), ?_⟩
        rw [htake _ (le_refl _), List.take_length]
        exact h
      · exact Or.inl h
      · exact Or.inr ⟨i, (hmeets i).mpr (Or.inl hi), h.trans (htake i (hlt i hi)).symm⟩

theorem stateAfter_prefixPath {text : JsString} (hroot : stateAfter .code root = .code)
    (htext : stateAfter .code text = .code) : stateAfter .code (prefixPath root text) = .code := by
  by_cases hempty : root = []
  · simpa [hempty] using htext
  by_cases hnone : text = []
  · simpa [hnone] using hroot
  rw [prefixPath_eq hempty hnone, stateAfter_append, hroot, stateAfter_link htext]

/-- The path of a place leaves no quote open. -/
theorem stateAfter_pathOf (place : List Step) : stateAfter .code (pathOf place) = .code := by
  induction place using List.reverseRecOn with
  | nil => rfl
  | append_singleton place step ih =>
    rw [pathOf_concat]
    exact stateAfter_prefixPath ih (segment_segment step).balanced

variable {place : List Step}

/-- **The paths above the path of a place are the paths of the places above it.** -/
theorem mem_ancestorsOf_pathOf :
    a ∈ ancestorsOf (pathOf place) ↔ ∃ above, above <+: place ∧ a = pathOf above := by
  induction place using List.reverseRecOn with
  | nil =>
    rw [pathOf_nil, mem_ancestorsOf]
    constructor
    · intro h
      rcases h with h | h | ⟨i, hi, _⟩
      · exact ⟨[], List.prefix_refl _, h⟩
      · exact ⟨[], List.prefix_refl _, h⟩
      · exact absurd hi not_meets_nil
    · intro h
      obtain ⟨above, habove, h⟩ := h
      rw [List.prefix_nil.mp habove] at h
      exact Or.inl h
  | append_singleton place step ih =>
    have hsegment := segment_segment step
    rw [pathOf_concat, mem_ancestorsOf_prefixPath (stateAfter_pathOf place) hsegment, ih]
    constructor
    · intro h
      rcases h with h | ⟨above, habove, h⟩
      · exact ⟨_, List.prefix_refl _, h.trans (pathOf_concat place step).symm⟩
      · exact ⟨above, habove.trans (List.prefix_append _ _), h⟩
    · intro h
      obtain ⟨above, habove, h⟩ := h
      rcases List.prefix_concat_iff.mp habove with heq | hproper
      · rw [heq, pathOf_concat] at h
        exact Or.inl h
      · exact Or.inr ⟨above, hproper, h⟩

theorem length_lt_prefixPath {text : JsString} (htext : text ≠ []) :
    root.length < (prefixPath root text).length := by
  by_cases hempty : root = []
  · rw [hempty, prefixPath_nil]
    exact List.length_pos_iff.mpr htext
  · rw [prefixPath_eq hempty htext, List.length_append]
    have hlink : link text ≠ [] := by
      intro h
      have hhead := head_link text
      rw [h] at hhead
      simp at hhead
    have := List.length_pos_iff.mpr hlink
    omega

/-- A path is put together from what is above it in one way. -/
theorem prefixPath_inj {root' text text' : JsString} (hroot : stateAfter .code root = .code)
    (hroot' : stateAfter .code root' = .code) (htext : Segment text) (htext' : Segment text')
    (h : prefixPath root text = prefixPath root' text') : root = root' ∧ text = text' := by
  -- Each of the two is above the other's path and not the path itself.
  have habove : ∀ {r r' t t' : JsString}, stateAfter .code r = .code →
      stateAfter .code r' = .code → Segment t → Segment t' → prefixPath r t = prefixPath r' t' →
        r.length ≤ r'.length ∧ r = (prefixPath r' t').take r.length := by
    intro r r' t t' hr hr' ht ht' heq
    have hself : r ∈ ancestorsOf (prefixPath r t) :=
      (mem_ancestorsOf_prefixPath hr ht).mpr (Or.inr (mem_ancestorsOf.mpr (Or.inl rfl)))
    have htake := (length_le_of_mem_ancestorsOf hself).2
    rw [heq] at hself htake
    refine ⟨?_, htake⟩
    rcases (mem_ancestorsOf_prefixPath hr' ht').mp hself with hpath | hunder
    · have hlt := @length_lt_prefixPath r t ht.nonempty
      rw [heq, ← hpath] at hlt
      omega
    · exact (length_le_of_mem_ancestorsOf hunder).1
  obtain ⟨hle, htake⟩ := habove hroot hroot' htext htext' h
  obtain ⟨hle', htake'⟩ := habove hroot' hroot htext' htext h.symm
  have hlength : root.length = root'.length := le_antisymm hle hle'
  have heq : root = root' := by
    apply htake.trans
    rw [← h, hlength]
    exact htake'.symm
  subst heq
  exact ⟨rfl, prefixPath_cancel h⟩

theorem keySegment_injective : Function.Injective keySegment := by
  have hplain : ∀ {key : JsString}, (key ≠ [] ∧ key.any isPathUnit = false) →
      ∀ rest, key ≠ unit '[' :: rest := by
    intro key hkey rest heq
    rw [heq] at hkey
    exact absurd hkey.2 (by simp [isPathUnit])
  intro a b h
  unfold keySegment at h
  split at h
  case isTrue ha =>
    split at h
    · exact h
    · exact absurd h (hplain ha _)
  case isFalse =>
    split at h
    case isTrue hb => exact absurd h.symm (hplain hb _)
    case isFalse => exact (quote_append_inj (List.cons.inj h).2).1

theorem segment_injective : Function.Injective segment := by
  have hmixed : ∀ (key : JsString) (index : ℕ), keySegment key ≠ indexSegment index := by
    intro key index h
    unfold keySegment indexSegment at h
    split at h
    case isTrue hkey =>
      rw [h] at hkey
      exact absurd hkey.2 (by simp [isPathUnit])
    case isFalse =>
      have htail := (List.cons.inj h).2
      cases hdigits : decimal index with
      | nil => exact absurd hdigits (Js.decimal_ne_nil index)
      | cons digit rest =>
        rw [hdigits, List.cons_append, quote, List.cons_append] at htail
        have hmem : unit '"' ∈ decimal index := by
          rw [hdigits, ← (List.cons.inj htail).1]
          exact List.mem_cons_self
        exact not_mem_decimal (by decide) index hmem
  intro a b h
  cases a with
  | key a =>
    cases b with
    | key b => rw [keySegment_injective h]
    | index b => exact absurd h (hmixed a b)
  | index a =>
    cases b with
    | key b => exact absurd h.symm (hmixed b a)
    | index b =>
      have hdigits := List.append_cancel_right (List.cons.inj h).2
      rw [decimal_injective hdigits]

/-- **A path is of one place only.** -/
theorem pathOf_injective : Function.Injective pathOf := by
  have hne : ∀ (place : List Step) (step : Step), pathOf (place ++ [step]) ≠ [] := by
    intro place step
    rw [pathOf_concat]
    exact prefixPath_ne_nil (segment_segment step).nonempty
  intro a
  induction a using List.reverseRecOn with
  | nil =>
    intro b h
    cases b using List.reverseRecOn with
    | nil => rfl
    | append_singleton b step => exact absurd h.symm (hne b step)
  | append_singleton a step ih =>
    intro b h
    cases b using List.reverseRecOn with
    | nil => exact absurd h (hne a step)
    | append_singleton b last =>
      rw [pathOf_concat, pathOf_concat] at h
      obtain ⟨habove, hlast⟩ := prefixPath_inj (stateAfter_pathOf a) (stateAfter_pathOf b)
        (segment_segment step) (segment_segment last) h
      rw [ih habove, segment_injective hlast]

/-- A path that closes its quotes, has nothing to fold and ends in no dot. -/
structure Tidy (path : JsString) : Prop where
  balanced : stateAfter .code path = .code
  unfolded : Unfolded .code path
  last : path.getLast? ≠ some (unit '.')

theorem Segment.tidy {text : JsString} (h : Segment text) : Tidy text where
  balanced := h.balanced
  unfolded := fun i hstate hdot => absurd hdot (h.separators i hstate).1
  last := by
    intro hlast
    have hne := h.nonempty
    have hsplit := List.dropLast_append_getLast hne
    rw [List.getLast?_eq_some_getLast hne] at hlast
    have hclosed := h.balanced
    rw [← hsplit, Option.some.inj hlast, stateAfter_append] at hclosed
    -- A dot at the end that no quote holds would be a separator.
    have hstate : stateAfter .code text.dropLast = .code := by
      cases hbefore : stateAfter .code text.dropLast with
      | code => rfl
      | quoted | escaped =>
        rw [hbefore] at hclosed
        exact absurd hclosed (by decide)
    rw [List.dropLast_eq_take] at hstate
    apply (h.separators _ hstate).1
    rw [← List.getLast?_eq_getElem?, List.getLast?_eq_some_getLast hne]
    exact hlast

theorem tidy_nil : Tidy [] := ⟨rfl, fun i _ hdot => by simp at hdot, nofun⟩

theorem unfolded_append {state : Quoting} {text more : JsString} (htext : Unfolded state text)
    (hmore : Unfolded (stateAfter state text) more)
    (hmeet : text.getLast? = some (unit '.') → more.head? ≠ some (unit '[')) :
    Unfolded state (text ++ more) := by
  induction text generalizing state with
  | nil => exact hmore
  | cons c rest ih =>
    obtain ⟨hfirst, hrest⟩ := unfolded_cons.mp htext
    rw [List.cons_append]
    refine unfolded_cons.mpr ⟨?_, ?_⟩
    · intro hstate hdot
      cases rest with
      | nil => exact hmeet (by rw [hdot]; rfl)
      | cons d rest => exact hfirst hstate hdot
    · apply ih hrest hmore
      cases rest with
      | nil => exact nofun
      | cons d rest => exact fun hlast => hmeet (by rwa [List.getLast?_cons_cons])

theorem tidy_prefixPath {text : JsString} (hroot : Tidy root) (htext : Tidy text) :
    Tidy (prefixPath root text) := by
  by_cases hempty : root = []
  · rwa [hempty, prefixPath_nil]
  by_cases hnone : text = []
  · rwa [hnone, prefixPath_root]
  have hlink : Unfolded .code (link text) := by
    unfold link
    split
    case isTrue => exact htext.unfolded
    case isFalse hhead => exact unfolded_cons.mpr ⟨fun _ _ => hhead, htext.unfolded⟩
  refine ⟨stateAfter_prefixPath hroot.balanced htext.balanced, ?_, ?_⟩
  · rw [prefixPath_eq hempty hnone]
    refine unfolded_append hroot.unfolded ?_ (fun hdot => absurd hdot hroot.last)
    rwa [hroot.balanced]
  · have hlast : (prefixPath root text).getLast? = text.getLast? := by
      rw [prefixPath_eq hempty hnone]
      unfold link
      split
      · rw [List.getLast?_append_of_ne_nil _ hnone]
      · rw [List.append_cons, List.getLast?_append_of_ne_nil _ hnone]
    rw [hlast]
    exact htext.last

theorem tidy_pathOf (place : List Step) : Tidy (pathOf place) := by
  induction place using List.reverseRecOn with
  | nil => exact tidy_nil
  | append_singleton place step ih =>
    rw [pathOf_concat]
    exact tidy_prefixPath ih (segment_segment step).tidy

theorem Tidy.canonical (h : Tidy path) : canonicalPath path = path := by
  rw [canonicalPath_eq]
  exact foldDots_eq_self h.unfolded

/-- **The path of a place is canonical.** -/
theorem canonicalPath_pathOf (place : List Step) : canonicalPath (pathOf place) = pathOf place :=
  (tidy_pathOf place).canonical

/-- Only what is put under a tidy path is folded. -/
theorem canonicalPath_prefixPath (h : Tidy root) (hroot : root ≠ []) (hpath : path ≠ []) :
    canonicalPath (prefixPath root path) = root ++ foldDots false (link path) := by
  have hclosed : stateAfter (stateOf false) root = .code := h.balanced
  rw [canonicalPath_eq, prefixPath_eq hroot hpath,
    foldDots_append hclosed (fun hdot => absurd hdot h.last), ← canonicalPath_eq, h.canonical]

theorem foldDots_link (path : JsString) :
    foldDots false (link path) =
      if path.head? = some (unit '[') then foldDots false path
      else unit '.' :: foldDots false path := by
  have hquote : unit '.' ≠ unit '"' := by decide
  unfold link
  split
  · rfl
  · rename_i hhead
    rw [foldDots, if_neg hquote, if_neg (fun h => hhead h.2)]

theorem head_foldDots_link (path : JsString) :
    (foldDots false (link path)).head? = some (unit '.') ∨
      (foldDots false (link path)).head? = some (unit '[') := by
  rw [foldDots_link]
  split
  · rename_i hhead
    cases path with
    | nil => cases hhead
    | cons c rest =>
      have hc : c = unit '[' := Option.some.inj hhead
      subst hc
      have hquote : unit '[' ≠ unit '"' := by decide
      have hdot : unit '[' ≠ unit '.' := by decide
      rw [foldDots, if_neg hquote, if_neg (fun h => hdot h.1)]
      exact Or.inr rfl
  · exact Or.inl rfl

theorem isAtOrUnder_append {more : JsString}
    (h : more.head? = some (unit '.') ∨ more.head? = some (unit '[')) :
    isAtOrUnder (root ++ more) root = true := by
  have hstands : ∀ c, more.head? = some c → root ++ [c] <+: root ++ more := by
    intro c hc
    apply (List.prefix_append_right_inj root).mpr
    cases more with
    | nil => cases hc
    | cons d rest =>
      rw [Option.some.inj hc]
      exact ⟨rest, rfl⟩
  simp only [isAtOrUnder, Bool.or_eq_true, decide_eq_true_eq, startsWith_iff]
  rcases h with hhead | hhead
  · exact Or.inl (Or.inr (hstands _ hhead))
  · exact Or.inr (hstands _ hhead)

theorem isAtOrUnder_self (path : JsString) : isAtOrUnder path path = true := by
  simp [isAtOrUnder]

theorem isAtOrUnder_prefixPath (root path : JsString) :
    isAtOrUnder (prefixPath root path) root = true := by
  by_cases hroot : root = []
  · simp [isAtOrUnder, hroot]
  by_cases hpath : path = []
  · rw [hpath, prefixPath_root, isAtOrUnder_self]
  rw [prefixPath_eq hroot hpath]
  exact isAtOrUnder_append (head_link path)

theorem isAtOrUnder_canonicalPath {root path : JsString} (h : Tidy root) :
    isAtOrUnder (canonicalPath (prefixPath root path)) root = true := by
  by_cases hroot : root = []
  · simp [isAtOrUnder, hroot]
  by_cases hpath : path = []
  · rw [hpath, prefixPath_root, h.canonical, isAtOrUnder_self]
  rw [canonicalPath_prefixPath h hroot hpath]
  exact isAtOrUnder_append (head_foldDots_link path)

theorem isAtOrUnder_pathOf {path : JsString} {place : List Step} :
    isAtOrUnder path (pathOf place) = true ↔ pathOf place ∈ ancestorsOf path :=
  isAtOrUnder_iff (stateAfter_pathOf place)

/-- A place above another, by their paths. -/
theorem pathOf_mem_ancestorsOf {above place : List Step} :
    pathOf above ∈ ancestorsOf (pathOf place) ↔ above <+: place := by
  rw [mem_ancestorsOf_pathOf]
  constructor
  · intro h
    obtain ⟨other, hother, heq⟩ := h
    rwa [pathOf_injective heq]
  · exact fun h => ⟨above, h, rfl⟩

theorem prefix_of_mem_ancestorsOf {root place : List Step} {path : JsString}
    (h : canonicalPath (prefixPath (pathOf root) path) ∈ ancestorsOf (pathOf place)) :
    root <+: place := by
  obtain ⟨above, habove, heq⟩ := mem_ancestorsOf_pathOf.mp h
  have hunder := @isAtOrUnder_canonicalPath (pathOf root) path (tidy_pathOf root)
  rw [heq, isAtOrUnder_pathOf, pathOf_mem_ancestorsOf] at hunder
  exact hunder.trans habove

end Provenance

end Swamp
 
