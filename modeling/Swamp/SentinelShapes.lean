import Swamp.PatternScans
import Swamp.ShellDataPlacement

/-!
# The shape of a sentinel

A sentinel is a mark, thirty-two hexadecimal digits, a decimal number and two
underscores.  Texts are scanned for the shape from left to right, so sentinel-shaped
text may take the two underscores that the sentinel after it starts with.
-/

namespace Swamp

open Js Shell

/-- `SENTINEL_MARK`. -/
def SENTINEL_MARK : JsString := js "__SWAMP_VSEC_"

/-- A sentinel's text, from its digits. -/
def sentinelText (secret digits : JsString) : JsString :=
  SENTINEL_MARK ++ (secret ++ (unit '_' :: (digits ++ js "__")))

/-- Thirty-two hexadecimal digits. -/
def IsSentinelSecret (secret : JsString) : Prop := secret.length = 32 ∧ secret.all isHexUnit = true

/-- A decimal number. -/
def IsSentinelNumber (digits : JsString) : Prop := digits ≠ [] ∧ ∀ u ∈ digits, isDigitUnit u = true

variable {text rest : JsString}

theorem afterLiteral_eq_some {literal : JsString} :
    afterLiteral literal text = some rest ↔ text = literal ++ rest := by
  unfold afterLiteral
  constructor
  · intro h
    split at h
    · rename_i hlead
      obtain ⟨after, rfl⟩ := hlead
      rw [List.drop_left] at h
      rw [Option.some.inj h]
    · cases h
  · intro h
    rw [h, if_pos (List.prefix_append literal rest), List.drop_left]

variable {digits : JsString}

theorem takeWhile_digits (h : ∀ u ∈ digits, isDigitUnit u = true) :
    (digits ++ (js "__" ++ rest)).takeWhile isDigitUnit = digits := by
  rw [List.takeWhile_append_of_pos h]
  have hstop : (js "__" ++ rest).takeWhile isDigitUnit = [] := rfl
  rw [hstop, List.append_nil]

variable {secret : JsString}

theorem length_sentinelText (h : IsSentinelSecret secret) :
    (sentinelText secret digits).length = digits.length + 48 := by
  have hmark : SENTINEL_MARK.length = 13 := rfl
  have hend : (js "__").length = 2 := rfl
  simp only [sentinelText, List.length_append, List.length_cons, h.1, hmark, hend]
  omega

variable {n : ℕ}

/-- **What has the shape of a sentinel.** -/
theorem sentinelPattern_iff :
    sentinelPattern text = some n ↔
      ∃ secret digits rest, IsSentinelSecret secret ∧ IsSentinelNumber digits ∧
        text = sentinelText secret digits ++ rest ∧ n = (sentinelText secret digits).length := by
  constructor
  · intro h
    unfold sentinelPattern at h
    obtain ⟨afterMark, hmark, h⟩ := Option.bind_eq_some_iff.mp h
    dsimp only at h
    split at h
    · rename_i hsecret
      obtain ⟨afterSecret, hscore, h⟩ := Option.bind_eq_some_iff.mp h
      split at h
      · cases h
      · rename_i hdigits
        obtain ⟨rest, hend, h⟩ := Option.bind_eq_some_iff.mp h
        rw [afterLiteral_eq_some] at hmark hscore hend
        have hnumber : IsSentinelNumber (afterSecret.takeWhile isDigitUnit) :=
          ⟨hdigits, fun u hu => List.mem_takeWhile_imp hu⟩
        have hsplit := List.prefix_iff_eq_append.mp
          (List.takeWhile_prefix isDigitUnit (l := afterSecret))
        have hall : text = sentinelText (afterMark.take 32) (afterSecret.takeWhile isDigitUnit) ++
            rest := by
          calc text = SENTINEL_MARK ++ afterMark := hmark
            _ = SENTINEL_MARK ++ (afterMark.take 32 ++ (js "_" ++ afterSecret)) := by
                rw [← hscore, List.take_append_drop]
            _ = SENTINEL_MARK ++ (afterMark.take 32 ++ (js "_" ++
                  (afterSecret.takeWhile isDigitUnit ++ (js "__" ++ rest)))) := by
                rw [← hend, hsplit]
            _ = _ := by
                have hscore : js "_" = [unit '_'] := rfl
                simp only [sentinelText, List.append_assoc, List.cons_append, hscore,
                  List.nil_append]
        refine ⟨_, _, rest, hsecret, hnumber, hall, ?_⟩
        have hlength := congrArg List.length hall
        rw [List.length_append] at hlength
        rw [← Option.some.inj h]
        omega
    · cases h
  · intro h
    obtain ⟨secret, digits, rest, hsecret, hnumber, rfl, rfl⟩ := h
    have hall : sentinelText secret digits ++ rest =
        SENTINEL_MARK ++ (secret ++ (js "_" ++ (digits ++ (js "__" ++ rest)))) := by
      have hscore : js "_" = [unit '_'] := rfl
      simp only [sentinelText, List.append_assoc, List.cons_append, hscore, List.nil_append]
    have hmark : afterLiteral (js "__SWAMP_VSEC_") (sentinelText secret digits ++ rest) =
        some (secret ++ (js "_" ++ (digits ++ (js "__" ++ rest)))) := afterLiteral_eq_some.mpr hall
    have htake : (secret ++ (js "_" ++ (digits ++ (js "__" ++ rest)))).take 32 = secret :=
      List.take_left' hsecret.1
    have hdrop : (secret ++ (js "_" ++ (digits ++ (js "__" ++ rest)))).drop 32 =
        js "_" ++ (digits ++ (js "__" ++ rest)) := List.drop_left' hsecret.1
    unfold sentinelPattern
    rw [hmark]
    simp only [Option.bind_eq_bind, Option.bind_some]
    rw [htake, hdrop, if_pos ⟨hsecret.1, hsecret.2⟩, afterLiteral_eq_some.mpr rfl, Option.bind_some,
      takeWhile_digits hnumber.2, if_neg hnumber.1, List.drop_left, afterLiteral_eq_some.mpr rfl,
      Option.bind_some]
    simp

theorem star_not_mem_sentinel (hsecret : IsSentinelSecret secret)
    (hnumber : IsSentinelNumber digits) : unit '*' ∉ sentinelText secret digits := by
  intro h
  simp only [sentinelText, List.mem_append, List.mem_cons] at h
  rcases h with hmark | hhex | hscore | hdigit | hend
  · exact absurd hmark (by decide)
  · exact absurd (List.all_eq_true.mp hsecret.2 _ hhex) (by decide)
  · exact absurd hscore (by decide)
  · exact absurd (hnumber.2 _ hdigit) (by decide)
  · exact absurd hend (by decide)

/-- The shape as a pattern to scan for. -/
def sentinelShape : Pattern CodeUnit where
  matchLength := sentinelPattern
  bounds := by
    intro text n h
    obtain ⟨secret, digits, rest, hsecret, hnumber, rfl, rfl⟩ := sentinelPattern_iff.mp h
    rw [List.length_append, length_sentinelText hsecret]
    omega

/-- `SENTINEL_EXACT`: the whole text has the shape. -/
def IsSentinel (text : JsString) : Prop := sentinelPattern text = some text.length

theorem isSentinel_iff :
    IsSentinel text ↔
      ∃ secret digits, IsSentinelSecret secret ∧ IsSentinelNumber digits ∧
        text = sentinelText secret digits := by
  rw [IsSentinel, sentinelPattern_iff]
  constructor
  · intro h
    obtain ⟨secret, digits, rest, hsecret, hnumber, rfl, hlength⟩ := h
    rw [List.length_append] at hlength
    have hrest : rest = [] := List.eq_nil_of_length_eq_zero (by omega)
    exact ⟨secret, digits, hsecret, hnumber, by rw [hrest, List.append_nil]⟩
  · intro h
    obtain ⟨secret, digits, hsecret, hnumber, rfl⟩ := h
    exact ⟨secret, digits, [], hsecret, hnumber, (List.append_nil _).symm, rfl⟩

/-- A match stays one whatever follows it. -/
theorem sentinelPattern_append (h : sentinelPattern text = some n) (more : JsString) :
    sentinelPattern (text ++ more) = some n := by
  obtain ⟨secret, digits, rest, hsecret, hnumber, rfl, rfl⟩ := sentinelPattern_iff.mp h
  exact sentinelPattern_iff.mpr
    ⟨secret, digits, rest ++ more, hsecret, hnumber, List.append_assoc _ _ _, rfl⟩

/-- A match is one of any text that holds it. -/
theorem sentinelPattern_of_append {more : JsString} (h : sentinelPattern (text ++ more) = some n)
    (hn : n ≤ text.length) : sentinelPattern text = some n := by
  obtain ⟨secret, digits, rest, hsecret, hnumber, hall, rfl⟩ := sentinelPattern_iff.mp h
  have hlead : sentinelText secret digits <+: text :=
    List.prefix_of_prefix_length_le ⟨rest, hall.symm⟩ (List.prefix_append text more) hn
  obtain ⟨after, rfl⟩ := hlead
  exact sentinelPattern_iff.mpr ⟨secret, digits, after, hsecret, hnumber, rfl, rfl⟩

/-- The front of a match is itself a sentinel. -/
theorem isSentinel_take (h : sentinelPattern text = some n) : IsSentinel (text.take n) := by
  obtain ⟨secret, digits, rest, hsecret, hnumber, rfl, rfl⟩ := sentinelPattern_iff.mp h
  rw [List.take_left]
  exact isSentinel_iff.mpr ⟨secret, digits, hsecret, hnumber, rfl⟩

/-- The underscores a sentinel starts with. -/
def underscores : JsString := js "__"

theorem sentinelText_capital (hsecret : IsSentinelSecret secret) (hnumber : IsSentinelNumber digits)
    {k : ℕ} (h : (sentinelText secret digits)[k]? = some (unit 'S')) : k = 2 ∨ k = 9 := by
  have hmark : SENTINEL_MARK.length = 13 := rfl
  by_cases hk : k < 13
  · rw [sentinelText, List.getElem?_append_left (by omega)] at h
    have hall : ∀ k < 13, SENTINEL_MARK[k]? = some (unit 'S') → k = 2 ∨ k = 9 := by decide
    exact hall k hk h
  · rw [sentinelText, List.getElem?_append_right (by omega)] at h
    have hmem := List.mem_of_getElem? h
    simp only [List.mem_append, List.mem_cons] at hmem
    rcases hmem with hhex | hscore | hdigit | hend
    · have := List.all_eq_true.mp hsecret.2 _ hhex
      exact absurd this (by decide)
    · exact absurd hscore (by decide)
    · exact absurd (hnumber.2 _ hdigit) (by decide)
    · exact absurd hend (by decide)

theorem length_le_of_before {front : JsString} (hne : front ≠ [])
    (h : sentinelPattern (front ++ (underscores ++ unit 'S' :: rest)) = some n) :
    n ≤ front.length + 2 := by
  obtain ⟨secret, digits, after, hsecret, hnumber, hall, rfl⟩ := sentinelPattern_iff.mp h
  by_contra hlong
  have hplace : ∀ i, i < 3 → (sentinelText secret digits)[front.length + i]? =
      (underscores ++ unit 'S' :: rest)[i]? := by
    intro i hi
    have hleft : (sentinelText secret digits ++ after)[front.length + i]? =
        (sentinelText secret digits)[front.length + i]? :=
      List.getElem?_append_left (by omega)
    rw [← hleft, ← hall, List.getElem?_append_right (by omega), Nat.add_sub_cancel_left]
  have hpos := List.length_pos_of_ne_nil hne
  rcases sentinelText_capital hsecret hnumber (hplace 2 (by omega)) with htwo | hnine
  · omega
  · have hone := hplace 1 (by omega)
    rw [show front.length + 1 = 8 by omega, sentinelText,
      List.getElem?_append_left (by decide)] at hone
    have hmark : SENTINEL_MARK[8]? = some (unit '_') := hone
    exact absurd hmark (by decide)

variable {sentinel : JsString}

theorem sentinel_front (h : IsSentinel sentinel) :
    ∃ rest, sentinel = underscores ++ unit 'S' :: rest := by
  obtain ⟨secret, digits, -, -, rfl⟩ := isSentinel_iff.mp h
  exact ⟨_, rfl⟩

theorem sentinelPattern_before {front : JsString} (hne : front ≠ []) (h : IsSentinel sentinel)
    (rest : JsString) :
    sentinelPattern (front ++ (sentinel ++ rest)) = sentinelPattern (front ++ underscores) := by
  obtain ⟨tail, rfl⟩ := sentinel_front h
  have hsplit : front ++ (underscores ++ unit 'S' :: tail ++ rest) =
      front ++ underscores ++ (unit 'S' :: tail ++ rest) := by
    simp only [List.append_assoc]
  refine Option.ext (fun n => ⟨fun hmatch => ?_, fun hmatch => ?_⟩)
  · have hn : n ≤ front.length + 2 := by
      have hshape : sentinelPattern (front ++ (underscores ++ unit 'S' :: (tail ++ rest))) =
          some n := by
        simpa only [List.append_assoc, List.cons_append] using hmatch
      exact length_le_of_before hne hshape
    rw [hsplit] at hmatch
    exact sentinelPattern_of_append hmatch (by
      rw [List.length_append]
      exact hn)
  · rw [hsplit]
    exact sentinelPattern_append hmatch _

/-- The scan of a text runs into a sentinel that follows it: what it finds reaches into
the underscores the sentinel starts with. -/
def RunsInto (text : JsString) : Prop := ¬ sentinelShape.Seam text underscores

theorem isSentinel_ne_nil (h : IsSentinel sentinel) : sentinel ≠ [] := by
  obtain ⟨rest, rfl⟩ := sentinel_front h
  exact List.cons_ne_nil _ _

theorem scan_sentinel (h : IsSentinel sentinel) (rest : JsString) :
    sentinelShape.scan (sentinel ++ rest) = .matched sentinel :: sentinelShape.scan rest :=
  sentinelShape.scan_matched (sentinelPattern_append h rest) (isSentinel_ne_nil h)

/-- **Where a text does not run into a sentinel, the two are scanned apart.** -/
theorem seam_sentinel (htext : ¬ RunsInto text) (h : IsSentinel sentinel) (rest : JsString) :
    sentinelShape.Seam text (sentinel ++ rest) := by
  rw [RunsInto, not_not] at htext
  unfold Pattern.Seam at htext ⊢
  induction hlength : text.length using Nat.strong_induction_on generalizing text with
  | _ length ih =>
    cases text with
    | nil => rfl
    | cons unit text =>
      have hsame : sentinelPattern (unit :: text ++ (sentinel ++ rest)) =
          sentinelPattern (unit :: text ++ underscores) :=
        sentinelPattern_before (List.cons_ne_nil _ _) h rest
      cases hunder : sentinelPattern (unit :: text ++ underscores) with
      | none =>
        have hown : sentinelPattern (unit :: text) = none := by
          cases hown : sentinelPattern (unit :: text) with
          | none => rfl
          | some n =>
            rw [sentinelPattern_append hown] at hunder
            cases hunder
        rw [hunder] at hsame
        rw [List.cons_append] at hunder hsame htext ⊢
        rw [sentinelShape.scan_keep hunder, sentinelShape.scan_keep hown,
          List.cons_append] at htext
        rw [sentinelShape.scan_keep hsame, sentinelShape.scan_keep hown, List.cons_append,
          ih text.length (by simp [← hlength]) (List.cons.inj htext).2 rfl]
      | some n =>
        by_cases hn : n ≤ (unit :: text).length
        · obtain ⟨run, text', heq, rfl⟩ : ∃ run text', unit :: text = run ++ text' ∧
              run.length = n :=
            ⟨(unit :: text).take n, (unit :: text).drop n,
              (List.take_append_drop n _).symm, by rw [List.length_take]; omega⟩
          have hne : run ≠ [] := by
            have hpos := (sentinelShape.bounds hunder).1
            exact fun hnil => by simp [hnil] at hpos
          have hown := sentinelPattern_of_append hunder hn
          rw [hunder] at hsame
          rw [heq] at hlength htext hsame hunder hown ⊢
          rw [List.append_assoc] at hunder hsame htext ⊢
          rw [sentinelShape.scan_matched hunder hne, sentinelShape.scan_matched hown hne,
            List.cons_append] at htext
          rw [sentinelShape.scan_matched hsame hne, sentinelShape.scan_matched hown hne,
            List.cons_append, ih text'.length ?_ (List.cons.inj htext).2 rfl]
          have hpos := List.length_pos_of_ne_nil hne
          rw [← hlength, List.length_append]
          omega
        · rw [List.cons_append] at htext hunder
          rw [sentinelShape.scan_match hunder] at htext
          cases hown : sentinelPattern (unit :: text) with
          | none =>
            rw [sentinelShape.scan_keep hown] at htext
            cases htext
          | some m =>
            have hlonger := sentinelPattern_append hown underscores
            rw [List.cons_append, hunder] at hlonger
            have hbound := (sentinelShape.bounds hown).2
            obtain rfl := Option.some.inj hlonger
            exact absurd hbound hn

end Swamp
