import Mathlib.Data.List.DropRight
import Mathlib.Logic.Relation
import Swamp.ExpressionScanner

/-!
# Literal occurrences

`literalOccurrence` writes a text as an expression that stands for it: a call of
`literal` on the text as a single-quoted string, where a `}}` of the text stands inside
the string.  Whether a text parses, and what a call of `literal` evaluates to, are
parameters.
-/

namespace Swamp

namespace ExpressionScanner

open Js LiteralMatch

/-- A unit of a text as `literalOccurrence` writes it. -/
def quotedUnit (u : CodeUnit) : JsString :=
  if u = unit '\n' then js "\\n"
  else if u = unit '\r' then js "\\r"
  else if u = unit '\\' ∨ u = unit '\'' then [unit '\\', u]
  else [u]

def quoted (text : JsString) : JsString := text.flatMap quotedUnit

/-- The call that stands for a text. -/
def literalCall (text : JsString) : JsString := js "literal('" ++ (quoted text ++ js "')")

def literalOccurrence (text : JsString) : JsString :=
  OPENER ++ (js " " ++ (literalCall text ++ (js " " ++ CLOSER)))

/-- The unit an escape of a quoted string spells. -/
def unescaped (u : CodeUnit) : CodeUnit :=
  if u = unit 'n' then unit '\n' else if u = unit 'r' then unit '\r' else u

/-- The text a single-quoted string spells, from behind its opening quote, and what is
left behind its closing quote; none when it is not closed. -/
def readLiteral : JsString → Option (JsString × JsString)
  | [] => none
  | u :: rest =>
    if u = unit '\'' then some ([], rest)
    else if u = unit '\\' then
      match rest with
      | [] => none
      | v :: rest => (readLiteral rest).map (fun read => (unescaped v :: read.1, read.2))
    else (readLiteral rest).map (fun read => (u :: read.1, read.2))

/-- Which calls of `literal` parse: those of quoted texts, and none of a string that is
not closed. -/
structure ParsesLiterals (parsesAsCel : JsString → Bool) : Prop where
  closed : ∀ text, parsesAsCel (literalCall text) = true
  unclosed : ∀ body, readLiteral body = none → parsesAsCel (js "literal('" ++ body) = false

/-- A call of `literal` evaluates to the text its string spells. -/
def EvaluatesLiterals (evaluate : JsString → JsString) : Prop :=
  ∀ text spelled, readLiteral (quoted text ++ js "')") = some (spelled, js ")") →
    evaluate (literalCall text) = spelled

/-- What a unit is quoted as: itself, or an escape that spells it. -/
theorem quotedUnit_cases (u : CodeUnit) :
    (quotedUnit u = [u] ∧ u ≠ unit '\\' ∧ u ≠ unit '\'' ∧ u ≠ unit '\n' ∧ u ≠ unit '\r') ∨
      ∃ v, quotedUnit u = [unit '\\', v] ∧ unescaped v = u := by
  unfold quotedUnit
  split_ifs with hline hreturn hescaped
  · exact Or.inr ⟨unit 'n', rfl, by rw [hline]; rfl⟩
  · exact Or.inr ⟨unit 'r', rfl, by rw [hreturn]; rfl⟩
  · refine Or.inr ⟨u, rfl, ?_⟩
    rcases hescaped with rfl | rfl
    · rfl
    · rfl
  · exact Or.inl ⟨rfl, fun h => hescaped (Or.inl h), fun h => hescaped (Or.inr h), hline, hreturn⟩

theorem quoted_cons (u : CodeUnit) (text : JsString) :
    quoted (u :: text) = quotedUnit u ++ quoted text := List.flatMap_cons

/-- **A quoted text reads back.** -/
theorem readLiteral_quoted (text rest : JsString) :
    readLiteral (quoted text ++ unit '\'' :: rest) = some (text, rest) := by
  induction text with
  | nil =>
    show readLiteral (unit '\'' :: rest) = _
    rw [readLiteral.eq_def]
    rfl
  | cons u text ih =>
    rw [quoted_cons, List.append_assoc]
    rcases quotedUnit_cases u with ⟨hself, hslash, hquote, -, -⟩ | ⟨v, hescape, hspells⟩
    · rw [hself, List.singleton_append, readLiteral.eq_def]
      dsimp only
      rw [if_neg hquote, if_neg hslash, ih]
      rfl
    · rw [hescape]
      simp only [List.cons_append, List.nil_append]
      rw [readLiteral.eq_def]
      dsimp only
      rw [if_neg (by decide), if_pos rfl]
      simp only [hspells, ih, Option.map_some]

theorem readLiteral_cut {text cut : JsString} (h : cut <+: quoted text) :
    readLiteral cut = none := by
  induction text generalizing cut with
  | nil =>
    rw [List.prefix_nil.mp h]
    rfl
  | cons u text ih =>
    rw [quoted_cons] at h
    cases cut with
    | nil => rfl
    | cons w cut =>
      rw [readLiteral.eq_def]
      dsimp only
      rcases quotedUnit_cases u with ⟨hself, hslash, hquote, -, -⟩ | ⟨v, hescape, -⟩
      · rw [hself, List.singleton_append, List.cons_prefix_cons] at h
        obtain ⟨rfl, hrest⟩ := h
        rw [if_neg hquote, if_neg hslash, ih hrest]
        rfl
      · rw [hescape, List.cons_append, List.cons_prefix_cons] at h
        obtain ⟨rfl, hrest⟩ := h
        rw [if_neg (by decide), if_pos rfl]
        cases cut with
        | nil => rfl
        | cons w cut =>
          rw [List.singleton_append, List.cons_prefix_cons] at hrest
          dsimp only
          rw [ih hrest.2]
          rfl

theorem trim_call (body : JsString) :
    trim (js " literal('" ++ body) = js "literal('" ++ body.rdropWhile isBlank := by
  have hlead : (js " literal('" ++ body).dropWhile isBlank = js "literal('" ++ body := rfl
  unfold trim
  rw [hlead, List.reverse_append, List.dropWhile_append]
  split
  · rename_i hempty
    rw [List.rdropWhile, List.isEmpty_iff.mp hempty]
    rfl
  · rw [List.reverse_append, List.reverse_reverse, List.rdropWhile]

theorem trim_literalCall (text : JsString) :
    trim (js " " ++ (literalCall text ++ js " ")) = literalCall text := by
  have hcall : js " " ++ (literalCall text ++ js " ") =
      js " literal('" ++ (quoted text ++ js "')" ++ js " ") := by
    simp only [literalCall, List.append_assoc]
    rfl
  rw [hcall, trim_call, show js " " = [unit ' '] from rfl,
    List.rdropWhile_concat_pos _ _ _ (by rfl), show js "')" = [unit '\''] ++ [unit ')'] from rfl,
    ← List.append_assoc, List.rdropWhile_concat_neg _ _ _ (by decide), List.append_assoc]
  rfl

section

variable {parsesAsCel : JsString → Bool}

theorem ParsesLiterals.call (h : ParsesLiterals parsesAsCel) (text : JsString) :
    parses parsesAsCel (js " " ++ (literalCall text ++ js " ")) = true := by
  rw [parses, trim_literalCall]
  exact h.closed text

theorem ParsesLiterals.cut (h : ParsesLiterals parsesAsCel) {text cut : JsString}
    (hcut : cut <+: quoted text) : parses parsesAsCel (js " literal('" ++ cut) = false := by
  rw [parses, trim_call]
  exact h.unclosed _ (readLiteral_cut ((List.rdropWhile_prefix _ _).trans hcut))

end

section

variable {value before rest : JsString} {openAt fuel : ℕ}

/-- One step of a walk, which does not end there. -/
structure Goes (value : JsString) (openAt : ℕ) (here next : ℕ × LexState) : Prop where
  inside : here.1 < value.length
  goesOn : ¬((here.2 = .code ∨ here.2 = .comment) ∧ openAt < here.1 ∧
    startsWith (value.drop here.1) CLOSER = true)
  step : lexStep value here.1 here.2 = some next
  forward : here.1 < next.1

/-- **A walk goes on to the first place where it ends.** -/
theorem walkFrom_goes {here stop : ℕ × LexState}
    (h : Relation.ReflTransGen (Goes value openAt) here stop) (hinside : stop.1 < value.length)
    (hstop : (stop.2 = .code ∨ stop.2 = .comment) ∧ openAt < stop.1 ∧
      startsWith (value.drop stop.1) CLOSER = true)
    (hfuel : value.length ≤ here.1 + fuel) (visited : List (ℕ × LexState)) :
    (walkFrom value openAt [] fuel here.1 here.2 visited).1 = some stop.1 := by
  induction h using Relation.ReflTransGen.head_induction_on generalizing fuel visited with
  | refl =>
    cases fuel with
    | zero => omega
    | succ fuel =>
      rw [walkFrom, if_neg (by omega), if_neg List.not_mem_nil, if_pos hstop]
  | @head here next hgoes _ ih =>
    cases fuel with
    | zero =>
      have hlt := hgoes.inside
      omega
    | succ fuel =>
      have hlt := hgoes.inside
      have hforward := hgoes.forward
      rw [walkFrom, if_neg (by omega), if_neg List.not_mem_nil, if_neg hgoes.goesOn, hgoes.step]
      exact ih (by omega) _

theorem getElem?_behind (before rest : JsString) (k : ℕ) :
    (before ++ rest)[before.length + k]? = rest[k]? := by
  rw [List.getElem?_append_right (Nat.le_add_right _ _), Nat.add_sub_cancel_left]

theorem not_closes {u : CodeUnit} (hu : u ≠ unit '\x7d') :
    ¬ startsWith ((before ++ u :: rest).drop before.length) CLOSER = true := by
  rw [List.drop_left]
  intro hcloses
  obtain ⟨after, hafter⟩ := List.isPrefixOf_iff_prefix.mp hcloses
  exact hu (List.cons.inj hafter).1.symm

/-- A unit of code that opens no string and no comment, and closes nothing. -/
def isPlainCode (u : CodeUnit) : Bool :=
  u ≠ unit '\'' && u ≠ unit '"' && u ≠ unit '/' && u ≠ unit '\x7d'

theorem goes_code {piece : JsString} (hpiece : piece.all isPlainCode = true)
    (hvalue : value = before ++ (piece ++ rest)) :
    Relation.ReflTransGen (Goes value openAt) (before.length, .code)
      ((before ++ piece).length, .code) := by
  subst hvalue
  induction piece generalizing before with
  | nil =>
    rw [List.append_nil]
  | cons u piece ih =>
    rw [List.all_cons, Bool.and_eq_true] at hpiece
    obtain ⟨hplain, hrest⟩ := hpiece
    simp only [isPlainCode, Bool.and_eq_true, decide_eq_true_eq] at hplain
    obtain ⟨⟨⟨hsingle, hdouble⟩, hslash⟩, hclose⟩ := hplain
    have htail := @ih (before ++ [u]) hrest
    rw [List.append_assoc, List.append_assoc] at htail
    refine Relation.ReflTransGen.head ?_ htail
    refine ⟨by simp, fun h => not_closes hclose h.2.2, ?_, by simp⟩
    simp [lexStep, hsingle, hdouble, hslash]

theorem goes_quoted {text : JsString} (hvalue : value = before ++ (quoted text ++ rest)) :
    Relation.ReflTransGen (Goes value openAt) (before.length, .single)
      ((before ++ quoted text).length, .single) := by
  subst hvalue
  induction text generalizing before with
  | nil => rw [show quoted [] = [] from rfl, List.append_nil]
  | cons u text ih =>
    have htail := @ih (before ++ quotedUnit u)
    rw [List.append_assoc, List.append_assoc, ← List.append_assoc (quotedUnit u), ← quoted_cons]
      at htail
    refine Relation.ReflTransGen.head ?_ htail
    rw [quoted_cons]
    rcases quotedUnit_cases u with ⟨hself, hslash, hquote, hline, hreturn⟩ | ⟨v, hescape, -⟩
    · rw [hself]
      refine ⟨by simp, fun h => by simp at h, ?_, by simp⟩
      simp [lexStep, hslash, hquote, hline, hreturn]
    · rw [hescape]
      refine ⟨by simp, fun h => by simp at h, ?_, by simp⟩
      simp [lexStep]

/-- The opening quote, of a string that is not triply quoted. -/
theorem goes_open (hvalue : value = before ++ unit '\'' :: rest)
    (hnext : ¬(rest[0]? = some (unit '\'') ∧ rest[1]? = some (unit '\''))) :
    Goes value openAt (before.length, .code) ((before ++ [unit '\'']).length, .single) := by
  subst hvalue
  refine ⟨by simp, fun h => not_closes (by decide) h.2.2, ?_, by simp⟩
  have hsecond : (before ++ unit '\'' :: rest)[before.length + 2]? = rest[1]? :=
    getElem?_behind before _ 2
  have hfirst : (before ++ unit '\'' :: rest)[before.length + 1]? = rest[0]? :=
    getElem?_behind before _ 1
  simp [lexStep, hfirst, hsecond, hnext]

theorem goes_close (hvalue : value = before ++ unit '\'' :: rest) :
    Goes value openAt (before.length, .single) ((before ++ [unit '\'']).length, .code) := by
  subst hvalue
  refine ⟨by simp, fun h => by simp at h, ?_, by simp⟩
  have hquote : unit '\'' ≠ unit '\\' := by decide
  simp [lexStep, hquote]

theorem not_triple (text : JsString) :
    ¬((quoted text ++ unit '\'' :: unit ')' :: rest)[0]? = some (unit '\'') ∧
      (quoted text ++ unit '\'' :: unit ')' :: rest)[1]? = some (unit '\'')) := by
  cases text with
  | nil => exact fun h => absurd (Option.some.inj h.2) (by decide)
  | cons u text =>
    intro h
    rw [quoted_cons] at h
    rcases quotedUnit_cases u with ⟨hself, -, hquote, -⟩ | ⟨v, hescape, -⟩
    · rw [hself] at h
      exact hquote (Option.some.inj h.1)
    · rw [hescape] at h
      exact absurd (Option.some.inj h.1) (by decide)

/-- **The walk ends an occurrence where it ends.** -/
theorem walkToClose_occurrence (before text rest : JsString) :
    (walkToClose (before ++ (literalOccurrence text ++ rest)) (before ++ OPENER).length []).1 =
      some (before ++ OPENER ++ (js " " ++ (literalCall text ++ js " "))).length := by
  obtain ⟨start, hstart⟩ : ∃ start, start = before ++ OPENER := ⟨_, rfl⟩
  obtain ⟨value, hvalue⟩ : ∃ value, value = before ++ (literalOccurrence text ++ rest) := ⟨_, rfl⟩
  rw [← hvalue, ← hstart]
  -- The text, from the opener to the closer.
  have hparts : value = start ++ (js " literal(" ++ (unit '\'' :: (quoted text ++
      (unit '\'' :: (js ") " ++ (CLOSER ++ rest)))))) := by
    rw [hvalue, hstart]
    simp only [literalOccurrence, literalCall, List.append_assoc]
    rfl
  have hcode := @goes_code value start _ start.length (js " literal(") (by decide) hparts
  rw [← List.append_assoc] at hparts
  have hopens := @goes_open value _ _ start.length hparts (not_triple text)
  rw [List.append_cons] at hparts
  have hquoted := @goes_quoted value _ _ start.length text hparts
  rw [← List.append_assoc] at hparts
  have hcloses := @goes_close value _ _ start.length hparts
  rw [List.append_cons] at hparts
  have hends := @goes_code value _ _ start.length (js ") ") (by decide) hparts
  have hwalk := ((hcode.tail hopens).trans (hquoted.tail hcloses)).trans hends
  rw [← List.append_assoc] at hparts
  have hstop : start ++ js " literal(" ++ [unit '\''] ++ quoted text ++ [unit '\''] ++ js ") " =
      start ++ (js " " ++ (literalCall text ++ js " ")) := by
    simp only [literalCall, List.append_assoc]
    rfl
  rw [hstop] at hparts hwalk
  refine walkFrom_goes hwalk ?_ ⟨Or.inl rfl, ?_, ?_⟩ ?_ []
  · have hcloser : CLOSER.length = 2 := rfl
    rw [hparts]
    simp only [List.length_append, hcloser]
    omega
  · rw [List.length_append]
    exact Nat.lt_add_of_pos_right (by rw [List.length_append]; exact Nat.succ_pos _)
  · dsimp only
    rw [hparts, List.drop_left]
    exact List.isPrefixOf_iff_prefix.mpr (List.prefix_append _ _)
  · dsimp only
    omega

end

section

variable {parsesAsCel : JsString → Bool} {value part before : JsString} {place k : ℕ}

theorem getElem?_of_stands {u : CodeUnit} (hstands : part <+: value.drop place)
    (hunit : part[k]? = some u) : value[place + k]? = some u := by
  obtain ⟨after, hafter⟩ := hstands
  have hlt := (List.getElem?_eq_some_iff.mp hunit).1
  rw [← List.getElem?_drop, ← hafter, List.getElem?_append_left hlt, hunit]

theorem slice_between (before mid rest : JsString) :
    slice (before ++ (mid ++ rest)) before.length (before ++ mid).length = mid := by
  rw [slice, ← List.append_assoc, List.take_left, List.drop_left]

theorem opener_behind {rest : JsString}
    (h : indexOf (before ++ rest) OPENER before.length = some place) :
    ∃ k, place = before.length + k ∧ OPENER <+: rest.drop k := by
  obtain ⟨hfrom, -, hat⟩ := indexOf_some (by simp) h
  obtain ⟨k, rfl⟩ := Nat.exists_eq_add_of_le hfrom
  rw [List.drop_length_add_append] at hat
  exact ⟨k, rfl, hat⟩

/-- The first opener behind a text that holds none. -/
theorem indexOf_opener {gap : JsString} (hgap : ¬ OPENER <:+: gap) (rest : JsString) :
    indexOf (before ++ (gap ++ (OPENER ++ rest))) OPENER before.length =
      some (before ++ gap).length := by
  have hstands : OPENER <+: (before ++ (gap ++ (OPENER ++ rest))).drop (before ++ gap).length := by
    rw [← List.append_assoc, List.drop_left]
    exact List.prefix_append _ _
  obtain ⟨first, hfirst, hle⟩ := @indexOf_le _ _ _ _ _ before.length (by simp) (by simp) hstands
  obtain ⟨k, rfl, hat⟩ := opener_behind hfirst
  rw [hfirst]
  by_contra hne
  have hshort : k < gap.length := by
    rw [List.length_append] at hle hne
    exact Nat.lt_of_le_of_ne (by omega) (fun h => hne (by rw [h]))
  -- the dollar behind the gap is no brace of an opener that begins in it
  have hinside : k + OPENER.length ≤ gap.length := by
    by_contra hover
    have hdollar : (gap ++ (OPENER ++ rest))[gap.length + 0]? = some (unit '$') :=
      getElem?_behind gap _ 0
    obtain ⟨j, hj⟩ := Nat.exists_eq_add_of_lt hshort
    have hlast : j = 0 ∨ j = 1 := by
      change ¬ k + 3 ≤ gap.length at hover
      omega
    have hbrace : (gap ++ (OPENER ++ rest))[k + (j + 1)]? = some (unit '\x7b') := by
      apply getElem?_of_stands hat
      cases hlast with
      | inl hzero | inr hone => subst j; rfl
    rw [show gap.length + 0 = k + (j + 1) by omega, hbrace] at hdollar
    exact absurd (Option.some.inj hdollar) (by decide)
  rw [List.drop_append_of_le_length hshort.le] at hat
  have hin := List.prefix_of_prefix_length_le hat (List.prefix_append _ _)
    (by rw [List.length_drop]; omega)
  exact hgap (hin.isInfix.trans (List.drop_suffix k gap).isInfix)

theorem no_opener {last : JsString} (hlast : ¬ OPENER <:+: last) :
    indexOf (before ++ last) OPENER before.length = none := by
  cases hfind : indexOf (before ++ last) OPENER before.length with
  | none => rfl
  | some first =>
    obtain ⟨k, -, hat⟩ := opener_behind hfind
    exact absurd (hat.isInfix.trans (List.drop_suffix k last).isInfix) hlast

theorem take_of_unit {lead mid tail : JsString} {u : CodeUnit} (hlead : u ∉ lead)
    (htail : u ∉ tail) (h : (lead ++ (mid ++ tail))[k]? = some u) :
    ∃ cut, cut <+: mid ∧ (lead ++ (mid ++ tail)).take k = lead ++ cut := by
  have hbehind : lead.length ≤ k := by
    by_contra hlt
    rw [List.getElem?_append_left (by omega)] at h
    exact hlead (List.mem_of_getElem? h)
  obtain ⟨j, rfl⟩ := Nat.exists_eq_add_of_le hbehind
  rw [getElem?_behind] at h
  have hinside : j ≤ mid.length := by
    by_contra hlt
    rw [List.getElem?_append_right (by omega)] at h
    exact htail (List.mem_of_getElem? h)
  refine ⟨mid.take j, List.take_prefix _ _, ?_⟩
  rw [List.take_length_add_append, List.take_append_of_le_length hinside]

variable {text rest : JsString}

theorem occurrence_text (before text rest : JsString) :
    before ++ (literalOccurrence text ++ rest) =
      before ++ OPENER ++ (js " " ++ (literalCall text ++ js " ") ++ (CLOSER ++ rest)) := by
  simp only [literalOccurrence, List.append_assoc]

/-- **An occurrence is closed where it ends**, and no walk is rejected. -/
theorem chooseClose_occurrence (h : ParsesLiterals parsesAsCel) (before text rest : JsString) :
    ∃ legacy, indexOf (before ++ (literalOccurrence text ++ rest)) CLOSER
        ((before ++ OPENER).length + 1) = some legacy ∧
      chooseClose parsesAsCel (before ++ (literalOccurrence text ++ rest))
          (before ++ OPENER).length legacy [] =
        ((before ++ OPENER ++ (js " " ++ (literalCall text ++ js " "))).length, []) := by
  have hwalk := walkToClose_occurrence before text rest
  rw [occurrence_text] at hwalk ⊢
  obtain ⟨call, hcall⟩ : ∃ call, call = js " " ++ (literalCall text ++ js " ") := ⟨_, rfl⟩
  have hquoted : call = js " literal('" ++ (quoted text ++ js "') ") := by
    rw [hcall]
    simp only [literalCall, List.append_assoc]
    rfl
  have hparses := h.call text
  rw [← hcall] at hwalk hparses ⊢
  obtain ⟨start, hstart⟩ : ∃ start, start = before ++ OPENER := ⟨_, rfl⟩
  rw [← hstart] at hwalk ⊢
  have hstands : CLOSER <+: (start ++ (call ++ (CLOSER ++ rest))).drop (start ++ call).length := by
    rw [← List.append_assoc, List.drop_left]
    exact List.prefix_append _ _
  have hlong : start.length + 1 ≤ (start ++ call).length := by
    rw [hquoted, List.length_append]
    exact Nat.add_le_add_left (Nat.succ_pos _) _
  obtain ⟨legacy, hlegacy, hle⟩ := indexOf_le hlong (by simp) hstands
  refine ⟨legacy, hlegacy, ?_⟩
  obtain ⟨hfrom, -, hat⟩ := indexOf_some (hlong.trans (by simp)) hlegacy
  unfold chooseClose
  cases hwalked : walkToClose (start ++ (call ++ (CLOSER ++ rest))) start.length [] with
  | mk walked visited =>
    rw [hwalked] at hwalk
    cases hwalk
    dsimp only
    by_cases hsame : (start ++ call).length = legacy
    · rw [if_pos hsame, hsame]
    · -- The first closer stands inside the quoted text, so that what is before it is cut off.
      have hbrace := @getElem?_of_stands _ _ _ 0 (unit '\x7d') hat rfl
      obtain ⟨k, rfl⟩ := Nat.exists_eq_add_of_le (Nat.le_of_succ_le hfrom)
      have hinside : k < call.length := by
        rw [List.length_append] at hle hsame
        omega
      rw [Nat.add_zero, getElem?_behind, List.getElem?_append_left hinside, hquoted] at hbrace
      obtain ⟨cut, hcut, htake⟩ := take_of_unit (by decide) (by decide) hbrace
      have hslice : slice (start ++ (call ++ (CLOSER ++ rest))) start.length (start.length + k) =
          js " literal('" ++ cut := by
        rw [slice, List.take_length_add_append, List.drop_left,
          List.take_append_of_le_length hinside.le, hquoted, htake]
      rw [if_neg hsame, hslice, h.cut hcut, slice_between, hparses]
      rfl

/-- Occurrences of texts, each behind a text of its own, and a text behind the last. -/
def laidOut : List (JsString × JsString) → JsString → JsString
  | [], last => last
  | (gap, text) :: parts, last => gap ++ (literalOccurrence text ++ laidOut parts last)

/-- The spans of the occurrences, where the first gap begins at `place`. -/
def spansOf : ℕ → List (JsString × JsString) → List ExpressionSpan
  | _, [] => []
  | place, (gap, text) :: parts =>
    let start := place + gap.length
    let stop := start + (literalOccurrence text).length
    ⟨start, stop, literalOccurrence text, literalCall text⟩ :: spansOf stop parts

variable {parts : List (JsString × JsString)} {last : JsString} {fuel : ℕ}

/-- **A scan finds the occurrences among texts without openers.** -/
theorem scanFrom_laidOut (h : ParsesLiterals parsesAsCel)
    (hgaps : ∀ part ∈ parts, ¬ OPENER <:+: part.1) (hlast : ¬ OPENER <:+: last)
    (hfuel : (laidOut parts last).length ≤ fuel) :
    scanFrom parsesAsCel (before ++ laidOut parts last) fuel before.length [] =
      spansOf before.length parts := by
  induction parts generalizing before fuel with
  | nil =>
    cases fuel with
    | zero => rfl
    | succ fuel =>
      rw [scanFrom, laidOut, no_opener hlast]
      rfl
  | cons part parts ih =>
    obtain ⟨hgap, hrest⟩ := List.forall_mem_cons.mp hgaps
    obtain ⟨gap, text⟩ := part
    rw [laidOut] at hfuel ⊢
    have hopen := @indexOf_opener before gap hgap
      (js " " ++ (literalCall text ++ (js " " ++ CLOSER)) ++ laidOut parts last)
    rw [← List.append_assoc OPENER] at hopen
    change indexOf (before ++ (gap ++ (literalOccurrence text ++ _))) _ _ = _ at hopen
    have hlong : 0 < (literalOccurrence text).length := Nat.succ_pos _
    simp only [List.length_append] at hfuel
    cases fuel with
    | zero => omega
    | succ fuel =>
      rw [scanFrom, hopen]
      obtain ⟨legacy, hlegacy, hclose⟩ :=
        chooseClose_occurrence h (before ++ gap) text (laidOut parts last)
      have hopenAt : (before ++ gap).length + OPENER.length = (before ++ gap ++ OPENER).length :=
        List.length_append.symm
      have hstop : (before ++ gap ++ OPENER ++
          (js " " ++ (literalCall text ++ js " "))).length + CLOSER.length =
            (before ++ gap ++ literalOccurrence text).length := by
        simp only [literalOccurrence, List.length_append]
        omega
      have hinner := slice_between (before ++ gap ++ OPENER)
        (js " " ++ (literalCall text ++ js " ")) (CLOSER ++ laidOut parts last)
      rw [← occurrence_text] at hinner
      have hraw := slice_between (before ++ gap) (literalOccurrence text) (laidOut parts last)
      have hnext := @ih (before ++ gap ++ literalOccurrence text) fuel hrest (by omega)
      rw [List.append_assoc _ (literalOccurrence text)] at hnext
      rw [← List.append_assoc before] at ⊢
      simp only [hopenAt, hlegacy, hclose, hstop, hinner, hraw, hnext, trim_literalCall, spansOf,
        ← List.length_append]

theorem includes_opener (text rest : JsString) :
    includes (before ++ (literalOccurrence text ++ rest)) OPENER = true := by
  have hstands : OPENER <+: (before ++ (literalOccurrence text ++ rest)).drop before.length := by
    rw [List.drop_left, literalOccurrence, List.append_assoc]
    exact List.prefix_append _ _
  obtain ⟨first, hfirst, -⟩ := indexOf_le (Nat.zero_le _) (by simp) hstands
  rw [includes, hfirst]
  rfl

theorem scanExpressions_laidOut (h : ParsesLiterals parsesAsCel)
    (hgaps : ∀ part ∈ parts, ¬ OPENER <:+: part.1) (hlast : ¬ OPENER <:+: last) :
    scanExpressions parsesAsCel (laidOut parts last) = spansOf 0 parts := by
  have hscan := @scanFrom_laidOut parsesAsCel [] parts last _ h hgaps hlast le_rfl
  rw [List.nil_append] at hscan
  unfold scanExpressions
  split
  · exact hscan
  · rename_i hnone
    cases parts with
    | nil => rfl
    | cons part parts => exact absurd (includes_opener part.2 _) hnone

theorem spliceFrom_laidOut {evaluate : JsString → JsString}
    (hevaluate : EvaluatesLiterals evaluate) (before : JsString) :
    spliceFrom (before ++ laidOut parts last) (fun span => evaluate span.inner) before.length
        (spansOf before.length parts) =
      parts.flatMap (fun part => part.1 ++ part.2) ++ last := by
  induction parts generalizing before with
  | nil => simp only [spansOf, spliceFrom, laidOut, List.drop_left, List.flatMap_nil, List.nil_append]
  | cons part parts ih =>
    obtain ⟨gap, text⟩ := part
    have hnext := ih (before ++ (gap ++ literalOccurrence text))
    have hgap := slice_between before gap (literalOccurrence text ++ laidOut parts last)
    have hcall : evaluate (literalCall text) = text :=
      hevaluate text text (readLiteral_quoted text (js ")"))
    simp only [List.append_assoc, List.length_append] at hnext hgap
    simp only [spansOf, spliceFrom, laidOut, hgap, hcall, Nat.add_assoc, hnext, List.flatMap_cons,
      List.append_assoc]

end

/-- **A quoted text stands for itself.**  In texts without an opener around
occurrences of any texts, the scan finds just the occurrences, each with its call, and
evaluating the calls puts the quoted texts back. -/
theorem literal_occurrences {parsesAsCel : JsString → Bool} (h : ParsesLiterals parsesAsCel)
    {evaluate : JsString → JsString} (hevaluate : EvaluatesLiterals evaluate)
    {parts : List (JsString × JsString)} {last : JsString}
    (hgaps : ∀ part ∈ parts, ¬ OPENER <:+: part.1) (hlast : ¬ OPENER <:+: last) :
    scanExpressions parsesAsCel (laidOut parts last) = spansOf 0 parts ∧
      replaceExpressionSpans parsesAsCel (laidOut parts last) (fun span => evaluate span.inner) =
        parts.flatMap (fun part => part.1 ++ part.2) ++ last := by
  have hscan := scanExpressions_laidOut h hgaps hlast
  have hsplice := @spliceFrom_laidOut parts last evaluate hevaluate []
  refine ⟨hscan, ?_⟩
  rw [replaceExpressionSpans, hscan]
  cases parts with
  | nil => rfl
  | cons part parts => exact hsplice

/-- A text with a closer, a quote and a backslash, quoted between two others. -/
theorem literal_occurrences_closer :
    let reads := fun call : JsString => readLiteral (call.drop 9)
    let value := laidOut [(js "a ", js "'\x7d\x7d\\")] (js " b")
    (scanExpressions (fun call => (reads call).isSome) value).length = 1 ∧
      replaceExpressionSpans (fun call => (reads call).isSome) value
          (fun span => ((reads span.inner).map Prod.fst).getD []) = js "a '\x7d\x7d\\ b" := by
  intro reads value
  have hreads : ∀ body, reads (js "literal('" ++ body) = readLiteral body := fun _ => rfl
  have hparses : ParsesLiterals (fun call => (reads call).isSome) :=
    { closed := fun text => by
        rw [literalCall, hreads, show js "')" = unit '\'' :: js ")" from rfl, readLiteral_quoted]
        rfl
      unclosed := fun body hopen => by rw [hreads, hopen, Option.isSome_none] }
  have hevaluate : EvaluatesLiterals (fun call => ((reads call).map Prod.fst).getD []) := by
    intro text spelled hread
    dsimp only
    rw [literalCall, hreads, hread]
    rfl
  obtain ⟨hscan, hreplace⟩ := literal_occurrences hparses hevaluate
    (show ∀ part ∈ [(js "a ", js "'\x7d\x7d\\")], ¬ OPENER <:+: part.1 by decide)
    (show ¬ OPENER <:+: js " b" by decide)
  exact ⟨by rw [hscan]; rfl, hreplace⟩

end ExpressionScanner

end Swamp
