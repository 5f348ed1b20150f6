import Swamp.OrderedMap
import Swamp.ShellDataPlacement

/-!
# Placed commands never depend on data

A command is authored text with gaps that data fills.  Its pieces are the gaps, its
inert form holds the authored text only, and names are given by which texts are
equal, so nothing of the data but that reaches the placed command.
-/

namespace Swamp

namespace Shell

open Js

/-- Authored text with gaps, each filled with data and followed by authored text. -/
def joined : JsString → List (JsString × JsString) → JsString
  | before, [] => before
  | before, (data, after) :: gaps => before ++ data ++ joined after gaps

/-- The ranges of the data, from an offset on. -/
def gapRanges : ℕ → JsString → List (JsString × JsString) → List (ℕ × ℕ)
  | _, _, [] => []
  | offset, before, (data, after) :: gaps =>
    (offset + before.length, offset + before.length + data.length) ::
      gapRanges (offset + before.length + data.length) after gaps

/-- Authored text with words in its gaps. -/
def weave : JsString → List JsString → List JsString → JsString
  | before, after :: afters, word :: words => before ++ word ++ weave after afters words
  | before, _, _ => before

/-- Where each word stands. -/
def wovenAt : ℕ → JsString → List JsString → List JsString → List ℕ
  | offset, before, after :: afters, word :: words =>
    (offset + before.length) :: wovenAt (offset + before.length + word.length) after afters words
  | _, _, _, _ => []

/-- Data in every gap, and authored text between any two. -/
structure Separated (gaps : List (JsString × JsString)) : Prop where
  data : ∀ gap ∈ gaps, gap.1 ≠ []
  between : ∀ gap ∈ gaps.dropLast, gap.2 ≠ []

theorem Separated.tail {gap : JsString × JsString} {gaps : List (JsString × JsString)}
    (h : Separated (gap :: gaps)) : Separated gaps := by
  refine ⟨fun other hother => h.data other (List.mem_cons_of_mem _ hother), ?_⟩
  cases gaps with
  | nil => exact fun _ hother => (List.not_mem_nil hother).elim
  | cons next rest =>
    exact fun other hother => h.between other (List.mem_cons_of_mem _ hother)

variable {before : JsString} {gaps : List (JsString × JsString)}

theorem slice_append (pre part post : JsString) :
    slice (pre ++ part ++ post) pre.length (pre.length + part.length) = part := by
  unfold slice
  rw [List.append_assoc, List.take_length_add_append, List.drop_left', List.take_left']
  · rfl
  · rfl

variable (before gaps) in
/-- A command past its first gap. -/
theorem joined_cons (pre data after : JsString) :
    slice (pre ++ joined before ((data, after) :: gaps)) pre.length
        (pre.length + before.length) = before ∧
      pre ++ joined before ((data, after) :: gaps) = (pre ++ before ++ data) ++ joined after gaps ∧
      pre.length + before.length + data.length = (pre ++ before ++ data).length := by
  have hsplit : pre ++ joined before ((data, after) :: gaps) =
      pre ++ before ++ (data ++ joined after gaps) := by simp [joined]
  refine ⟨?_, by simp [joined], by simp [Nat.add_assoc]⟩
  rw [hsplit]
  exact slice_append _ _ _

variable (before) in
/-- Replacing the data of a command leaves its authored text. -/
theorem replacePieces_joined (pre : JsString) (words : List JsString)
    (hlength : words.length = gaps.length) :
    replacePieces (pre ++ joined before gaps) pre.length (gapRanges pre.length before gaps) words =
      weave before (gaps.map Prod.snd) words := by
  induction gaps generalizing pre before words with
  | nil =>
    simp [gapRanges, replacePieces, joined, weave]
  | cons gap gaps ih =>
    obtain ⟨data, after⟩ := gap
    cases words with
    | nil => cases hlength
    | cons word words =>
      obtain ⟨hbefore, hsplit, hpre⟩ := joined_cons before gaps pre data after
      rw [gapRanges, replacePieces, hbefore, hsplit, hpre, ih after (pre ++ before ++ data) words
        (Nat.succ.inj hlength)]
      rfl

variable (before) in
/-- The words of a command stand at the ends of its authored texts. -/
theorem wordPositions_joined (pre : JsString) (offset : ℕ) (words : List JsString)
    (hlength : words.length = gaps.length) :
    wordPositions (pre ++ joined before gaps) offset pre.length (gapRanges pre.length before gaps)
      words = wovenAt offset before (gaps.map Prod.snd) words := by
  induction gaps generalizing pre before words offset with
  | nil =>
    cases words with
    | nil => rfl
    | cons word words => cases hlength
  | cons gap gaps ih =>
    obtain ⟨data, after⟩ := gap
    cases words with
    | nil => cases hlength
    | cons word words =>
      obtain ⟨hbefore, hsplit, hpre⟩ := joined_cons before gaps pre data after
      rw [gapRanges, wordPositions, hbefore, hsplit, hpre, ih after (pre ++ before ++ data) _ words
        (Nat.succ.inj hlength)]
      rfl

variable (before gaps) in
/-- The pieces of a command hold its data. -/
theorem slices_joined (pre : JsString) :
    (gapRanges pre.length before gaps).map
        (fun piece => slice (pre ++ joined before gaps) piece.1 piece.2) = gaps.map Prod.fst := by
  induction gaps generalizing pre before with
  | nil => rfl
  | cons gap gaps ih =>
    obtain ⟨data, after⟩ := gap
    have hsplit : pre ++ joined before ((data, after) :: gaps) =
        (pre ++ before) ++ data ++ joined after gaps := by simp [joined]
    have hpre : pre.length + before.length = (pre ++ before).length := by simp
    have hpre' : (pre ++ before).length + data.length = (pre ++ before ++ data).length := by
      simp [Nat.add_assoc]
    rw [gapRanges, List.map_cons, List.map_cons, hsplit, hpre]
    apply congrArg₂ List.cons (slice_append _ _ _)
    rw [hpre']
    exact ih after (pre ++ before ++ data)

/-- Every range is within the command. -/
theorem gapRanges_bounds (offset : ℕ) (hdata : ∀ gap ∈ gaps, gap.1 ≠ []) :
    ∀ range ∈ gapRanges offset before gaps,
      offset ≤ range.1 ∧ range.1 < range.2 ∧ range.2 ≤ offset + (joined before gaps).length := by
  induction gaps generalizing offset before with
  | nil => exact fun _ h => (List.not_mem_nil h).elim
  | cons gap gaps ih =>
    obtain ⟨data, after⟩ := gap
    intro range hrange
    have hlength : (joined before ((data, after) :: gaps)).length =
        before.length + data.length + (joined after gaps).length := by
      simp [joined, Nat.add_assoc]
    cases List.mem_cons.mp hrange with
    | inl hself =>
      have hpos : 0 < data.length := List.length_pos_iff.mpr (hdata _ List.mem_cons_self)
      subst hself
      simp only
      omega
    | inr hrest =>
      have hbound := ih (offset + before.length + data.length)
        (fun other hother => hdata other (List.mem_cons_of_mem _ hother)) range hrest
      omega

theorem joinRanges_gapRanges (offset : ℕ) (h : Separated gaps) :
    joinTouching (gapRanges offset before gaps) = gapRanges offset before gaps := by
  induction gaps generalizing offset before with
  | nil => rfl
  | cons gap gaps ih =>
    obtain ⟨data, after⟩ := gap
    rw [gapRanges]
    cases gaps with
    | nil => rfl
    | cons next rest =>
      obtain ⟨data', after'⟩ := next
      have hafter : 0 < after.length :=
        List.length_pos_iff.mpr (h.between (data, after) List.mem_cons_self)
      have hnext : joinTouching (gapRanges (offset + before.length + data.length) after
          ((data', after') :: rest)) = _ := ih _ h.tail
      rw [gapRanges, joinTouching] at hnext
      rw [gapRanges, joinTouching, joinRanges, if_neg (by simp only; omega), hnext]

/-- Ranges of a command in its order are in order. -/
theorem pairwise_gapRanges (offset : ℕ) (hdata : ∀ gap ∈ gaps, gap.1 ≠ []) :
    (gapRanges offset before gaps).Pairwise (fun a b => a.1 ≤ b.1) := by
  induction gaps generalizing offset before with
  | nil => exact List.Pairwise.nil
  | cons gap gaps ih =>
    obtain ⟨data, after⟩ := gap
    have hdata' : ∀ other ∈ gaps, other.1 ≠ [] := fun other hother =>
      hdata other (List.mem_cons_of_mem _ hother)
    refine List.pairwise_cons.mpr ⟨fun range hrange => ?_, ih _ hdata'⟩
    have hbound := gapRanges_bounds _ hdata' range hrange
    simp only
    omega

/-- A range as it is passed. -/
def asRange (range : ℕ × ℕ) : DataRange := (range.1, range.2)

/-- **The pieces of a command are its gaps.** -/
theorem dataPieces_joined (h : Separated gaps)
    (hsentinels : matchAll sentinelPattern (joined before gaps) = []) :
    dataPieces (joined before gaps) ((gapRanges 0 before gaps).map asRange) =
      gapRanges 0 before gaps := by
  have hclamp : ((gapRanges 0 before gaps).map asRange).filterMap
      (clampRange (joined before gaps)) = gapRanges 0 before gaps := by
    rw [List.filterMap_map]
    refine (List.filterMap_congr (fun range hrange => ?_)).trans List.filterMap_some
    have hbound := gapRanges_bounds 0 h.data range hrange
    have hstart : (max 0 (range.1 : ℤ)).toNat = range.1 := by omega
    have hstop : (min ((joined before gaps).length : ℤ) (range.2 : ℤ)).toNat = range.2 := by omega
    simp only [Function.comp_apply, asRange, clampRange, hstart, hstop]
    exact if_pos hbound.2.1
  have hsorted : (gapRanges 0 before gaps).insertionSort (fun a b => a.1 ≤ b.1) =
      gapRanges 0 before gaps :=
    (pairwise_gapRanges 0 h.data).insertionSort_eq
  unfold dataPieces
  rw [hclamp, hsorted, hsentinels]
  dsimp only
  rw [joinRanges_gapRanges 0 h]
  refine (List.flatMap_congr (fun range hrange => ?_)).trans (List.flatMap_singleton' _)
  simp only [List.map_nil, withoutSentinels]
  exact if_pos (gapRanges_bounds 0 h.data range hrange).2.1

variable {toUpperCase : JsString → JsString} {dialect : ShellDialect}
  {authoredEnvKeys : List JsString}

theorem generatedName_injective : Function.Injective generatedName := by
  intro m n h
  exact decimal_injective (List.append_cancel_left h)

/-- Upper-case letters, digits and underscores are upper case. -/
def isUpperPlain (u : CodeUnit) : Bool := (65 ≤ u.val && u.val ≤ 90) || isDigitUnit u || u = unit '_'

/-- Text that is upper case already stays as it is. -/
def KeepsUpperCase (toUpperCase : JsString → JsString) : Prop :=
  ∀ s : JsString, (∀ u ∈ s, isUpperPlain u = true) → toUpperCase s = s

theorem foldName_generatedName (hupper : KeepsUpperCase toUpperCase) (n : ℕ) :
    foldName toUpperCase dialect (generatedName n) = generatedName n := by
  cases dialect with
  | posix => rfl
  | powershell =>
    refine hupper _ (fun u hu => ?_)
    cases List.mem_append.mp hu with
    | inl hmark =>
      have hall : generatedDataEnvPrefix.all isUpperPlain = true := by decide
      exact List.all_eq_true.mp hall u hmark
    | inr hdigit =>
      have hbounds := digit_of_mem_decimal hdigit
      simp [isUpperPlain, isDigitUnit, hbounds.1, hbounds.2]

/-- A key that a name is taken by. -/
def Taken (toUpperCase : JsString → JsString) (dialect : ShellDialect)
    (authoredEnvKeys : List JsString) (name : JsString) : Prop :=
  ∃ key ∈ authoredEnvKeys, foldName toUpperCase dialect key = foldName toUpperCase dialect name

/-- A search tries one name after another. -/
theorem freeName_spec (taken : JsString → Bool) (fuel next : ℕ) :
    next ≤ freeName taken fuel next ∧
      (∀ n, next ≤ n → n < freeName taken fuel next → taken (generatedName n) = true) ∧
      (taken (generatedName (freeName taken fuel next)) = false ∨
        freeName taken fuel next = next + fuel) := by
  induction fuel generalizing next with
  | zero => exact ⟨le_rfl, fun n hge hlt => absurd hlt (not_lt.mpr hge), Or.inr rfl⟩
  | succ fuel ih =>
    rw [freeName]
    cases htaken : taken (generatedName next) with
    | false =>
      rw [if_neg Bool.false_ne_true]
      exact ⟨le_rfl, fun n hge hlt => absurd hlt (not_lt.mpr hge), Or.inl htaken⟩
    | true =>
      rw [if_pos rfl]
      obtain ⟨hge, hall, hend⟩ := ih (next + 1)
      refine ⟨by omega, fun n hn hlt => ?_, ?_⟩
      · by_cases heq : n = next
        · rw [heq]
          exact htaken
        · exact hall n (by omega) hlt
      · exact hend.imp id (fun h => by omega)

variable (dialect authoredEnvKeys) in
/-- **A search finds a free name**: there are more names than keys. -/
theorem freeName_free (hupper : KeepsUpperCase toUpperCase) (next : ℕ) :
    let taken : JsString → Bool := fun name =>
      (authoredEnvKeys.map (foldName toUpperCase dialect)).contains
        (foldName toUpperCase dialect name)
    ¬ Taken toUpperCase dialect authoredEnvKeys
      (generatedName (freeName taken authoredEnvKeys.length next)) := by
  intro taken htaken
  have hiff : ∀ name, taken name = true ↔ Taken toUpperCase dialect authoredEnvKeys name := by
    intro name
    simp [taken, Taken]
  obtain ⟨hge, hall, hend⟩ := freeName_spec taken authoredEnvKeys.length next
  have hlast := hend.resolve_left (by rw [(hiff _).mpr htaken]; exact Bool.true_eq_false.mp)
  -- Every one of the names tried is taken by a key of its own.
  have hnames : ∀ k ≤ authoredEnvKeys.length,
      generatedName (next + k) ∈ authoredEnvKeys.map (foldName toUpperCase dialect) := by
    intro k hk
    have htk : taken (generatedName (next + k)) = true := by
      by_cases heq : k = authoredEnvKeys.length
      · rw [heq, ← hlast]
        exact (hiff _).mpr htaken
      · exact hall (next + k) (by omega) (by omega)
    have hmem := List.contains_iff_mem.mp htk
    rwa [foldName_generatedName hupper] at hmem
  have hnodup : ((List.range (authoredEnvKeys.length + 1)).map
      (fun k => generatedName (next + k))).Nodup := by
    apply List.nodup_range.map
    intro a b h
    have := generatedName_injective h
    omega
  have hsub : ((List.range (authoredEnvKeys.length + 1)).map (fun k => generatedName (next + k))) ⊆
      authoredEnvKeys.map (foldName toUpperCase dialect) := by
    intro name hname
    obtain ⟨k, hk, rfl⟩ := List.mem_map.mp hname
    exact hnames k (by have := List.mem_range.mp hk; omega)
  have hlength := (hnodup.subperm hsub).length_le
  simp only [List.length_map, List.length_range] at hlength
  omega

/-- The names given so far: each to one text, none taken, and none of those to come. -/
structure Named (toUpperCase : JsString → JsString) (dialect : ShellDialect)
    (authoredEnvKeys : List JsString) (state : DataNames) : Prop where
  generated : ∀ entry ∈ state.names, ∃ n < state.next, entry.2 = generatedName n
  free : ∀ entry ∈ state.names, ¬ Taken toUpperCase dialect authoredEnvKeys entry.2
  texts : (state.names.map Prod.fst).Nodup
  names : (state.names.map Prod.snd).Nodup

variable {state : DataNames}

theorem lookup_eq_none_iff {text : JsString} :
    state.names.lookup text = none ↔ text ∉ state.names.map Prod.fst := by
  rw [List.lookup_eq_none_iff]
  simp only [bne_iff_ne, List.mem_map, not_exists, not_and]
  exact ⟨fun h entry hentry heq => h entry hentry heq.symm,
    fun h entry hentry heq => h entry hentry heq.symm⟩

theorem mem_of_lookup {entries : List (JsString × JsString)} {text name : JsString}
    (h : entries.lookup text = some name) : (text, name) ∈ entries := by
  obtain ⟨front, back, hsplit, -⟩ := List.lookup_eq_some_iff.mp h
  rw [hsplit]
  simp

/-- **A text gets a name of its own**, and keeps it. -/
theorem nameFor_spec (hupper : KeepsUpperCase toUpperCase)
    (h : Named toUpperCase dialect authoredEnvKeys state) (text : JsString) :
    let named := nameFor toUpperCase dialect authoredEnvKeys state text
    Named toUpperCase dialect authoredEnvKeys named.2 ∧ (text, named.1) ∈ named.2.names ∧
      state.names ⊆ named.2.names ∧
      ∀ entry ∈ named.2.names, entry ∈ state.names ∨ entry = (text, named.1) := by
  unfold nameFor
  cases hlookup : state.names.lookup text with
  | some name =>
    exact ⟨h, mem_of_lookup hlookup, List.Subset.refl _, fun entry hentry => Or.inl hentry⟩
  | none =>
    have hnew := lookup_eq_none_iff.mp hlookup
    dsimp only
    set n := freeName (fun name =>
      (authoredEnvKeys.map (foldName toUpperCase dialect)).contains
        (foldName toUpperCase dialect name)) authoredEnvKeys.length state.next with hn
    have hge : state.next ≤ n := (freeName_spec _ _ _).1
    have hfree := freeName_free dialect authoredEnvKeys hupper state.next
    refine ⟨⟨?_, ?_, ?_, ?_⟩, ?_, ?_, ?_⟩
    · intro entry hentry
      cases List.mem_append.mp hentry with
      | inl hold =>
        obtain ⟨m, hm, heq⟩ := h.generated entry hold
        exact ⟨m, by show m < n + 1; omega, heq⟩
      | inr hlast =>
        rw [List.mem_singleton.mp hlast]
        exact ⟨n, Nat.lt_succ_self n, rfl⟩
    · intro entry hentry
      cases List.mem_append.mp hentry with
      | inl hold => exact h.free entry hold
      | inr hlast =>
        rw [List.mem_singleton.mp hlast]
        exact hfree
    · rw [List.map_append, List.nodup_append]
      refine ⟨h.texts, List.nodup_singleton _, fun a ha b hb => ?_⟩
      intro heq
      rw [List.map_singleton, List.mem_singleton] at hb
      rw [← show a = text from heq.trans hb] at hnew
      exact hnew ha
    · rw [List.map_append, List.nodup_append]
      refine ⟨h.names, List.nodup_singleton _, fun a ha b hb => ?_⟩
      intro heq
      rw [List.map_singleton, List.mem_singleton] at hb
      obtain ⟨entry, hentry, rfl⟩ := List.mem_map.mp ha
      obtain ⟨m, hm, hname⟩ := h.generated entry hentry
      have hsame := generatedName_injective (hname.symm.trans (heq.trans hb))
      omega
    · exact List.mem_append_right _ List.mem_cons_self
    · exact List.subset_append_left _ _
    · intro entry hentry
      exact (List.mem_append.mp hentry).imp id List.mem_singleton.mp

theorem references_spec (hupper : KeepsUpperCase toUpperCase) (pieces : List (JsString × Placing))
    (h : Named toUpperCase dialect authoredEnvKeys state) :
    let placed := references toUpperCase dialect authoredEnvKeys state pieces
    Named toUpperCase dialect authoredEnvKeys placed.2 ∧ state.names ⊆ placed.2.names ∧
      (∀ entry ∈ placed.2.names, entry ∈ state.names ∨ entry.1 ∈ pieces.map Prod.fst) ∧
      List.Forall₂ (fun piece reference => match piece.2 with
        | .error refusal => reference = .error refusal
        | .ok place => ∃ name, (piece.1, name) ∈ placed.2.names ∧ reference = place name)
        pieces placed.1 := by
  induction pieces generalizing state with
  | nil => exact ⟨h, List.Subset.refl _, fun _ hentry => Or.inl hentry, List.Forall₂.nil⟩
  | cons piece rest ih =>
    obtain ⟨text, placing⟩ := piece
    cases placing with
    | error refusal =>
      obtain ⟨hnamed, hsub, hmem, hall⟩ := ih h
      exact ⟨hnamed, hsub, fun entry hentry => (hmem entry hentry).imp id
        (List.mem_cons_of_mem _), List.Forall₂.cons rfl hall⟩
    | ok place =>
      obtain ⟨hnamed, hown, hsub, hmem⟩ := nameFor_spec hupper h text
      obtain ⟨hnamed', hsub', hmem', hall⟩ := ih hnamed
      refine ⟨hnamed', List.Subset.trans hsub hsub', fun entry hentry => ?_,
        List.Forall₂.cons ⟨_, hsub' hown, rfl⟩ hall⟩
      cases hmem' entry hentry with
      | inl hold =>
        exact (hmem entry hold).imp id (fun heq => by rw [heq]; exact List.mem_cons_self)
      | inr hrest => exact Or.inr (List.mem_cons_of_mem _ hrest)

/-- Pairs of texts that are equal on one side where they are on the other. -/
def SamePattern (pairs : List (JsString × JsString)) : Prop :=
  ∀ p ∈ pairs, ∀ q ∈ pairs, p.1 = q.1 ↔ p.2 = q.2

/-- Names given alike to paired texts. -/
structure Alike (pairs : List (JsString × JsString)) (state other : DataNames) : Prop where
  next : state.next = other.next
  names : ∃ given : List ((JsString × JsString) × JsString), (∀ entry ∈ given, entry.1 ∈ pairs) ∧
    state.names = given.map (fun entry => (entry.1.1, entry.2)) ∧
    other.names = given.map (fun entry => (entry.1.2, entry.2))

theorem Alike.start (pairs : List (JsString × JsString)) : Alike pairs ⟨[], 0⟩ ⟨[], 0⟩ :=
  ⟨rfl, [], List.forall_mem_nil _, rfl, rfl⟩

variable {pairs : List (JsString × JsString)}

/-- Paired texts have the same name. -/
theorem lookup_alike (hpattern : SamePattern pairs)
    {given : List ((JsString × JsString) × JsString)} (hgiven : ∀ entry ∈ given, entry.1 ∈ pairs)
    {pair : JsString × JsString} (hpair : pair ∈ pairs) :
    (given.map (fun entry => (entry.1.1, entry.2))).lookup pair.1 =
      (given.map (fun entry => (entry.1.2, entry.2))).lookup pair.2 := by
  induction given with
  | nil => rfl
  | cons entry rest ih =>
    have hrest := ih (fun other hother => hgiven other (List.mem_cons_of_mem _ hother))
    have hsame := hpattern pair hpair entry.1 (hgiven entry List.mem_cons_self)
    rw [List.map_cons, List.map_cons, List.lookup_cons, List.lookup_cons, hrest]
    by_cases heq : pair.1 = entry.1.1
    · rw [beq_iff_eq.mpr heq, beq_iff_eq.mpr (hsame.mp heq)]
    · rw [beq_false_of_ne heq, beq_false_of_ne (fun h => heq (hsame.mpr h))]

variable (toUpperCase dialect authoredEnvKeys) in
theorem nameFor_alike (hpattern : SamePattern pairs) {other : DataNames}
    (h : Alike pairs state other) {pair : JsString × JsString} (hpair : pair ∈ pairs) :
    (nameFor toUpperCase dialect authoredEnvKeys state pair.1).1 =
        (nameFor toUpperCase dialect authoredEnvKeys other pair.2).1 ∧
      Alike pairs (nameFor toUpperCase dialect authoredEnvKeys state pair.1).2
        (nameFor toUpperCase dialect authoredEnvKeys other pair.2).2 := by
  obtain ⟨hnext, given, hgiven, hstate, hother⟩ := h
  have hlookup := lookup_alike hpattern hgiven hpair
  rw [← hstate, ← hother] at hlookup
  unfold nameFor
  rw [hlookup]
  cases other.names.lookup pair.2 with
  | some name => exact ⟨rfl, hnext, given, hgiven, hstate, hother⟩
  | none =>
    dsimp only
    rw [hnext]
    generalize freeName _ authoredEnvKeys.length other.next = n
    refine ⟨rfl, rfl, given ++ [(pair, generatedName n)], ?_, ?_, ?_⟩
    · intro entry hentry
      cases List.mem_append.mp hentry with
      | inl hold => exact hgiven entry hold
      | inr hlast =>
        rw [List.mem_singleton.mp hlast]
        exact hpair
    · rw [List.map_append, ← hstate]
      rfl
    · rw [List.map_append, ← hother]
      rfl

variable (toUpperCase dialect authoredEnvKeys) in
/-- **References do not depend on the texts**, only on which are equal. -/
theorem references_alike (hpattern : SamePattern pairs) {other : DataNames}
    (h : Alike pairs state other) (placings : List Placing) {texts : List (JsString × JsString)}
    (htexts : ∀ pair ∈ texts, pair ∈ pairs) :
    (references toUpperCase dialect authoredEnvKeys state
        ((texts.map Prod.fst).zip placings)).1 =
      (references toUpperCase dialect authoredEnvKeys other
        ((texts.map Prod.snd).zip placings)).1 ∧
      Alike pairs
        (references toUpperCase dialect authoredEnvKeys state ((texts.map Prod.fst).zip placings)).2
        (references toUpperCase dialect authoredEnvKeys other
          ((texts.map Prod.snd).zip placings)).2 := by
  induction texts generalizing state other placings with
  | nil => exact ⟨rfl, h⟩
  | cons pair texts ih =>
    have htexts' : ∀ pair ∈ texts, pair ∈ pairs := fun other hother =>
      htexts other (List.mem_cons_of_mem _ hother)
    cases placings with
    | nil => exact ⟨rfl, h⟩
    | cons placing placings =>
      cases placing with
      | error refusal =>
        obtain ⟨hsame, halike⟩ := ih h placings htexts'
        exact ⟨congrArg (List.cons _) hsame, halike⟩
      | ok place =>
        obtain ⟨hname, halike⟩ := nameFor_alike toUpperCase dialect authoredEnvKeys hpattern h
          (htexts pair List.mem_cons_self)
        obtain ⟨hsame, halike'⟩ := ih halike placings htexts'
        refine ⟨?_, halike'⟩
        show place (nameFor toUpperCase dialect authoredEnvKeys state pair.1).1 :: _ =
          place (nameFor toUpperCase dialect authoredEnvKeys other pair.2).1 :: _
        rw [hname]
        exact congrArg (List.cons _) hsame

/-- A reference of a dialect to a variable. -/
def RefersTo : ShellDialect → JsString → JsString → Prop
  | .posix, reference, name => ∃ context, posixDataReference name context = some reference
  | .powershell, reference, name => ∃ quote, reference = powershellDataReference name quote

/-- What is asked of a placement that was not refused: each gap refers to a
variable that holds its data, and no variable is set that no gap refers to. -/
def PlacesData (dialect : ShellDialect) (before : JsString) (gaps : List (JsString × JsString))
    (placement : ShellDataPlacement) : Prop :=
  ∃ placed : List (JsString × JsString),
    placement.command = weave before (gaps.map Prod.snd) (placed.map Prod.snd) ∧
    List.Forall₂ (fun gap place => RefersTo dialect place.2 place.1 ∧
      placement.env.lookup place.1 = some gap.1) gaps placed ∧
    ∀ name ∈ placement.env.map Prod.fst, name ∈ placed.map Prod.fst

/-- How the gaps of a command are placed, which its data does not reach. -/
def placingsOf (dialect : ShellDialect) (before : JsString) (afters : List JsString) : List Placing :=
  let words := (List.range afters.length).map inertWord
  (wovenAt 0 before afters words).map (placingAt dialect (weave before afters words))

variable (toUpperCase dialect authoredEnvKeys) in
/-- What is placed, by the pieces of a command. -/
theorem placeShellData_of_pieces {command : JsString} {ranges : List DataRange}
    {pieces : List (ℕ × ℕ)} (hpieces : dataPieces command ranges = pieces) (hne : pieces ≠ []) :
    ∃ whole, placeShellData toUpperCase command ranges authoredEnvKeys dialect =
      let words := (List.range pieces.length).map inertWord
      let placings := (wordPositions command 0 0 pieces words).map
        (placingAt dialect (replacePieces command 0 pieces words))
      let placed := references toUpperCase dialect authoredEnvKeys ⟨[], 0⟩
        ((pieces.map (fun piece => slice command piece.1 piece.2)).zip placings)
      match refusalOf placed.1 with
      | .error refusal => ⟨command, [], some refusal, whole⟩
      | .ok references =>
        ⟨replacePieces command 0 pieces references, placed.2.names.map Prod.swap, none, whole⟩ := by
  subst hpieces
  unfold placeShellData
  cases hpieces : dataPieces command ranges with
  | nil => exact absurd hpieces hne
  | cons piece more => exact ⟨_, rfl⟩

theorem gapRanges_length (offset : ℕ) (before : JsString) (gaps : List (JsString × JsString)) : (gapRanges offset before gaps).length = gaps.length := by
  induction gaps generalizing offset before with
  | nil => rfl
  | cons gap gaps ih => exact congrArg Nat.succ (ih _ _)

variable (toUpperCase dialect authoredEnvKeys) in
/-- **The placement of a command**, in terms of its gaps. -/
theorem placeShellData_joined (h : Separated gaps)
    (hsentinels : matchAll sentinelPattern (joined before gaps) = []) (hne : gaps ≠ []) :
    ∃ whole, placeShellData toUpperCase (joined before gaps) ((gapRanges 0 before gaps).map asRange)
        authoredEnvKeys dialect =
      let placed := references toUpperCase dialect authoredEnvKeys ⟨[], 0⟩
        ((gaps.map Prod.fst).zip (placingsOf dialect before (gaps.map Prod.snd)))
      match refusalOf placed.1 with
      | .error refusal => ⟨joined before gaps, [], some refusal, whole⟩
      | .ok references =>
        ⟨replacePieces (joined before gaps) 0 (gapRanges 0 before gaps) references,
          placed.2.names.map Prod.swap, none, whole⟩ := by
  have hranges : gapRanges 0 before gaps ≠ [] := by
    intro hnil
    have hlength := gapRanges_length 0 before gaps
    rw [hnil] at hlength
    exact hne (List.length_eq_zero_iff.mp hlength.symm)
  obtain ⟨whole, hplacement⟩ := placeShellData_of_pieces toUpperCase dialect authoredEnvKeys
    (dataPieces_joined h hsentinels) hranges
  refine ⟨whole, hplacement.trans ?_⟩
  have hwords : ((List.range (gapRanges 0 before gaps).length).map inertWord).length = gaps.length := by
    rw [List.length_map, List.length_range, gapRanges_length]
  have hweave := replacePieces_joined before [] _ hwords
  have hat := wordPositions_joined before [] 0 _ hwords
  have htexts := slices_joined before gaps []
  rw [List.nil_append, List.length_nil] at hweave hat
  simp only [List.nil_append, List.length_nil] at htexts
  have hcount : gaps.length = (gaps.map Prod.snd).length := (List.length_map _).symm
  unfold placingsOf
  dsimp only
  rw [hweave, hat, htexts, gapRanges_length, hcount]

theorem refusalOf_ok {results : List (Except RefusedDataPlacement JsString)}
    {references : List JsString} (h : refusalOf results = .ok references) :
    results = references.map Except.ok := by
  induction results generalizing references with
  | nil =>
    obtain rfl := Except.ok.inj h
    rfl
  | cons result rest ih =>
    cases result with
    | error refusal => cases h
    | ok reference =>
      rw [refusalOf] at h
      cases hrest : refusalOf rest with
      | error refusal =>
        rw [hrest] at h
        cases h
      | ok more =>
        rw [hrest] at h
        obtain rfl := Except.ok.inj h
        rw [ih hrest]
        rfl

/-- A reference that a piece is placed as. -/
theorem placingAt_refersTo {inert : JsString} {position : ℕ} {name reference : JsString}
    {place : JsString → Except RefusedDataPlacement JsString}
    (hplacing : placingAt dialect inert position = .ok place) (h : place name = .ok reference) :
    RefersTo dialect reference name := by
  cases dialect with
  | posix =>
    unfold placingAt at hplacing
    dsimp only at hplacing
    split at hplacing
    · cases hplacing
    · obtain rfl := Except.ok.inj hplacing
      dsimp only at h
      split at h
      · rename_i found hfound
        obtain rfl := Except.ok.inj h
        exact ⟨_, hfound⟩
      · cases h
  | powershell =>
    unfold placingAt at hplacing
    dsimp only at hplacing
    split at hplacing
    · cases hplacing
    · obtain rfl := Except.ok.inj hplacing
      exact ⟨_, (Except.ok.inj h).symm⟩

theorem wovenAt_length (offset : ℕ) (before : JsString) (afters words : List JsString)
    (hlength : words.length = afters.length) :
    (wovenAt offset before afters words).length = afters.length := by
  induction afters generalizing offset before words with
  | nil => rfl
  | cons after afters ih =>
    cases words with
    | nil => cases hlength
    | cons word words => exact congrArg Nat.succ (ih _ _ _ (Nat.succ.inj hlength))

theorem placingsOf_length (before : JsString) (afters : List JsString) :
    (placingsOf dialect before afters).length = afters.length := by
  unfold placingsOf
  dsimp only
  rw [List.length_map, wovenAt_length]
  rw [List.length_map, List.length_range]

theorem forall₂_mem {α β : Type} {R : α → β → Prop} {as : List α} {bs : List β}
    (h : List.Forall₂ R as bs) : ∀ a ∈ as, ∃ b ∈ bs, R a b := by
  induction h with
  | nil => exact fun _ hmem => (List.not_mem_nil hmem).elim
  | cons hown hrest ih =>
    intro a hmem
    cases List.mem_cons.mp hmem with
    | inl hself => exact ⟨_, List.mem_cons_self, hself ▸ hown⟩
    | inr hlater =>
      obtain ⟨b, hb, hab⟩ := ih a hlater
      exact ⟨b, List.mem_cons_of_mem _ hb, hab⟩

theorem exists_placed {names : List (JsString × JsString)} {placings : List Placing}
    {references : List JsString} (hlength : placings.length = gaps.length)
    (hplacings : ∀ placing ∈ placings, ∃ inert position, placing = placingAt dialect inert position)
    (hall : List.Forall₂ (fun (piece : JsString × Placing) reference => match piece.2 with
        | .error refusal => reference = Except.error refusal
        | .ok place => ∃ name, (piece.1, name) ∈ names ∧ reference = place name)
      ((gaps.map Prod.fst).zip placings) (references.map Except.ok)) :
    ∃ placed : List (JsString × JsString), placed.map Prod.snd = references ∧
      List.Forall₂ (fun gap place => RefersTo dialect place.2 place.1 ∧
        (gap.1, place.1) ∈ names) gaps placed := by
  induction gaps generalizing placings references with
  | nil =>
    cases references with
    | nil => exact ⟨[], rfl, List.Forall₂.nil⟩
    | cons reference references => cases hall
  | cons gap gaps ih =>
    cases placings with
    | nil => cases hlength
    | cons placing placings =>
      cases references with
      | nil => cases hall
      | cons reference references =>
        obtain ⟨hown, hrest⟩ := List.forall₂_cons.mp hall
        obtain ⟨placed, hrefs, hplaced⟩ := ih (Nat.succ.inj hlength)
          (fun other hother => hplacings other (List.mem_cons_of_mem _ hother)) hrest
        obtain ⟨inert, position, hplacing⟩ := hplacings placing List.mem_cons_self
        cases placing with
        | error refusal => cases hown
        | ok place =>
          obtain ⟨name, hname, hreference⟩ := hown
          exact ⟨(name, reference) :: placed, congrArg (List.cons reference) hrefs,
            List.Forall₂.cons ⟨placingAt_refersTo hplacing.symm hreference.symm, hname⟩
              hplaced⟩

variable (toUpperCase dialect authoredEnvKeys) in
theorem named_start : Named toUpperCase dialect authoredEnvKeys ⟨[], 0⟩ :=
  ⟨List.forall_mem_nil _, List.forall_mem_nil _, List.nodup_nil, List.nodup_nil⟩

variable (dialect authoredEnvKeys) in
/-- **Each gap refers to a variable that holds its data**, no variable is named as
an authored one, and none is set for nothing. -/
theorem placesData (hupper : KeepsUpperCase toUpperCase) (h : Separated gaps)
    (hsentinels : matchAll sentinelPattern (joined before gaps) = []) :
    let placement := placeShellData toUpperCase (joined before gaps)
      ((gapRanges 0 before gaps).map asRange) authoredEnvKeys dialect
    (placement.refused = none → PlacesData dialect before gaps placement) ∧
      (placement.env.map Prod.fst).Nodup ∧
      ∀ name ∈ placement.env.map Prod.fst, ¬ Taken toUpperCase dialect authoredEnvKeys name := by
  by_cases hne : gaps = []
  · subst hne
    refine ⟨fun _ => ⟨[], rfl, List.Forall₂.nil, List.forall_mem_nil _⟩, List.nodup_nil,
      List.forall_mem_nil _⟩
  · obtain ⟨whole, hplacement⟩ :=
      placeShellData_joined toUpperCase dialect authoredEnvKeys h hsentinels hne
    rw [hplacement]
    obtain ⟨hnamed, -, hmem, hall⟩ := references_spec hupper
      ((gaps.map Prod.fst).zip (placingsOf dialect before (gaps.map Prod.snd)))
      (named_start toUpperCase dialect authoredEnvKeys)
    have hplacings : ∀ placing ∈ placingsOf dialect before (gaps.map Prod.snd),
        ∃ inert position, placing = placingAt dialect inert position := by
      intro placing hplacing
      obtain ⟨position, -, rfl⟩ := List.mem_map.mp hplacing
      exact ⟨_, position, rfl⟩
    have hlength : (placingsOf dialect before (gaps.map Prod.snd)).length = gaps.length := by
      rw [placingsOf_length, List.length_map]
    generalize placingsOf dialect before (gaps.map Prod.snd) = placings
      at hnamed hmem hall hplacings hlength ⊢
    generalize references toUpperCase dialect authoredEnvKeys ⟨[], 0⟩
      ((gaps.map Prod.fst).zip placings) = placed at hnamed hmem hall ⊢
    dsimp only
    cases hrefusal : refusalOf placed.1 with
    | error refusal => exact ⟨nofun, List.nodup_nil, List.forall_mem_nil _⟩
    | ok references =>
      have hkeys : (placed.2.names.map Prod.swap).map Prod.fst = placed.2.names.map Prod.snd := by
        rw [List.map_map]
        rfl
      dsimp only
      rw [hkeys]
      refine ⟨fun _ => ?_, hnamed.names, ?_⟩
      · rw [refusalOf_ok hrefusal] at hall
        obtain ⟨placed', rfl, hplaced⟩ := exists_placed hlength hplacings hall
        refine ⟨placed', ?_, ?_, ?_⟩
        · have hcount : (placed'.map Prod.snd).length = gaps.length := by
            rw [List.length_map]
            exact hplaced.length_eq.symm
          have hweave := replacePieces_joined before [] _ hcount
          rw [List.nil_append, List.length_nil] at hweave
          exact hweave
        · refine hplaced.imp (fun gap place hplace => ⟨hplace.1, ?_⟩)
          refine OrderedMap.lookup_of_mem ?_ (List.mem_map.mpr ⟨_, hplace.2, rfl⟩)
          rw [hkeys]
          exact hnamed.names
        · intro name hname
          rw [hkeys] at hname
          obtain ⟨entry, hentry, rfl⟩ := List.mem_map.mp hname
          have htext := (hmem entry hentry).resolve_left (List.not_mem_nil)
          rw [List.map_fst_zip (by rw [List.length_map, hlength])] at htext
          obtain ⟨gap, hgap, hsame⟩ := List.mem_map.mp htext
          obtain ⟨place, hplace, hown⟩ := (forall₂_mem hplaced) gap hgap
          have heq : (gap.1, place.1) = entry :=
            List.inj_on_of_nodup_map hnamed.texts hown.2 hentry hsame
          exact List.mem_map.mpr ⟨place, hplace, by rw [← heq]⟩
      · intro name hname
        obtain ⟨entry, hentry, rfl⟩ := List.mem_map.mp hname
        exact hnamed.free entry hentry

variable (dialect authoredEnvKeys) in
/-- **The placed command never depends on the data**, which reaches the shell
through the environment only: two commands of the same authored text and data that
is equal in the same gaps are refused alike, or placed as the same command with the
same variables. -/
theorem placeShellData_same (hupper : KeepsUpperCase toUpperCase) (before : JsString)
    (gaps gaps' : List (JsString × JsString)) (hafters : gaps.map Prod.snd = gaps'.map Prod.snd)
    (hpattern : SamePattern ((gaps.map Prod.fst).zip (gaps'.map Prod.fst)))
    (hseparated : Separated gaps) (hseparated' : Separated gaps')
    (hsentinels : matchAll sentinelPattern (joined before gaps) = [])
    (hsentinels' : matchAll sentinelPattern (joined before gaps') = []) :
    let placement := placeShellData toUpperCase (joined before gaps)
      ((gapRanges 0 before gaps).map asRange) authoredEnvKeys dialect
    let placement' := placeShellData toUpperCase (joined before gaps')
      ((gapRanges 0 before gaps').map asRange) authoredEnvKeys dialect
    placement.refused = placement'.refused ∧
      (placement.refused = none → placement.command = placement'.command ∧
        placement.env.map Prod.fst = placement'.env.map Prod.fst ∧
        PlacesData dialect before gaps placement ∧ PlacesData dialect before gaps' placement') ∧
      (placement.env.map Prod.fst).Nodup ∧
      ∀ name ∈ placement.env.map Prod.fst, ¬ Taken toUpperCase dialect authoredEnvKeys name := by
  have hplaces := placesData dialect authoredEnvKeys hupper hseparated hsentinels
  have hplaces' := placesData dialect authoredEnvKeys hupper hseparated' hsentinels'
  intro placement placement'
  have hlength : gaps.length = gaps'.length := by
    have hmapped := congrArg List.length hafters
    rwa [List.length_map, List.length_map] at hmapped
  -- What differs is nothing but the commands and the values.
  have hsame : placement.refused = placement'.refused ∧ (placement.refused = none →
      placement.command = placement'.command ∧
        placement.env.map Prod.fst = placement'.env.map Prod.fst) := by
    by_cases hne : gaps = []
    · have hne' : gaps' = [] := by
        rw [hne] at hlength
        exact List.length_eq_zero_iff.mp hlength.symm
      subst hne hne'
      exact ⟨rfl, fun _ => ⟨rfl, rfl⟩⟩
    · have hne' : gaps' ≠ [] := by
        intro hnil
        rw [hnil] at hlength
        exact hne (List.length_eq_zero_iff.mp hlength)
      obtain ⟨whole, hplacement⟩ :=
        placeShellData_joined toUpperCase dialect authoredEnvKeys hseparated hsentinels hne
      obtain ⟨whole', hplacement'⟩ :=
        placeShellData_joined toUpperCase dialect authoredEnvKeys hseparated' hsentinels' hne'
      have hcount : (gaps.map Prod.fst).length = (gaps'.map Prod.fst).length := by
        rw [List.length_map, List.length_map, hlength]
      obtain ⟨hrefs, halike⟩ := references_alike toUpperCase dialect authoredEnvKeys hpattern
        (Alike.start _) (placingsOf dialect before (gaps.map Prod.snd)) (fun pair hpair => hpair)
      rw [List.map_fst_zip hcount.le, List.map_snd_zip hcount.ge] at hrefs halike
      obtain ⟨-, -, -, hall⟩ := references_spec hupper
        ((gaps.map Prod.fst).zip (placingsOf dialect before (gaps.map Prod.snd)))
        (named_start toUpperCase dialect authoredEnvKeys)
      have hresults := hall.length_eq
      rw [List.length_zip, placingsOf_length, List.length_map, List.length_map, min_self] at hresults
      rw [show placement = _ from hplacement, show placement' = _ from hplacement', ← hafters]
      dsimp only
      rw [← hrefs]
      cases hrefusal : refusalOf (references toUpperCase dialect authoredEnvKeys ⟨[], 0⟩
          ((gaps.map Prod.fst).zip (placingsOf dialect before (gaps.map Prod.snd)))).1 with
      | error refusal => exact ⟨rfl, nofun⟩
      | ok refs =>
        rw [refusalOf_ok hrefusal, List.length_map] at hresults
        refine ⟨rfl, fun _ => ⟨?_, ?_⟩⟩
        · have hweave := replacePieces_joined before [] refs hresults.symm
          have hweave' := replacePieces_joined before [] refs (hresults.symm.trans hlength)
          rw [List.nil_append, List.length_nil] at hweave hweave'
          dsimp only
          rw [hweave, hweave', hafters]
        · obtain ⟨given, -, hnames, hnames'⟩ := halike.names
          dsimp only
          rw [hnames, hnames', List.map_map, List.map_map, List.map_map, List.map_map]
          rfl
  refine ⟨hsame.1, fun hnone => ⟨(hsame.2 hnone).1, (hsame.2 hnone).2, hplaces.1 hnone,
    hplaces'.1 (hsame.1 ▸ hnone)⟩, hplaces.2.1, hplaces.2.2⟩

/-- `toUpperCase` of text of the basic Latin letters. -/
def asciiUpperCase (s : JsString) : JsString :=
  s.map (fun u => if 97 ≤ u.val ∧ u.val ≤ 122 then Fin.ofNat 65536 (u.val - 32) else u)

theorem keepsUpperCase_ascii : KeepsUpperCase asciiUpperCase := by
  intro s hs
  refine (List.map_congr_left (fun u hu => ?_)).trans (List.map_id s)
  have hplain := hs u hu
  have hne : u.val ≤ 96 ∨ 123 ≤ u.val := by
    simp only [isUpperPlain, isDigitUnit, Bool.or_eq_true, Bool.and_eq_true, decide_eq_true_eq]
      at hplain
    obtain (hletter | hdigit) | hmark := hplain
    · omega
    · omega
    · rw [hmark]
      exact Or.inl (by decide)
  rw [if_neg (by omega)]
  rfl

theorem placeShellData_same_echo :
    let placement := placeShellData asciiUpperCase (joined (js "echo ") [(js "a", js " "), (js "'", [])])
      ((gapRanges 0 (js "echo ") [(js "a", js " "), (js "'", [])]).map asRange)
      [js "__swamp_in_0"] .powershell
    let placement' := placeShellData asciiUpperCase
      (joined (js "echo ") [(js "$(b)", js " "), (js "c", [])])
      ((gapRanges 0 (js "echo ") [(js "$(b)", js " "), (js "c", [])]).map asRange)
      [js "__swamp_in_0"] .powershell
    placement.refused = placement'.refused ∧ placement.command = placement'.command := by
  have hsame := placeShellData_same .powershell [js "__swamp_in_0"] keepsUpperCase_ascii (js "echo ")
    [(js "a", js " "), (js "'", [])] [(js "$(b)", js " "), (js "c", [])] rfl
    (by unfold SamePattern; decide) ⟨by decide, by decide⟩ ⟨by decide, by decide⟩ (by decide)
    (by decide)
  exact ⟨hsame.1, (hsame.2.1 (by decide +kernel)).1⟩

end Shell

end Swamp
