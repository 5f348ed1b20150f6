import Mathlib.Data.List.Sort
import Swamp.JsonText
import Swamp.PatternScans
import Swamp.SecretRegistry

/-!
# Redacting recorded secrets

A redactor takes every form a recorded secret may be written in out of a text: as it
is, with its line endings normalised, escaped as JSON writes it, as inspection writes
it, and with its lines indented.  Longer forms go first, and the sentinels of the
registries it masks go before all.
-/

namespace Swamp

open Js

namespace Secrets

/-- The mask. -/
def STARS : JsString := js "***"

def newline : CodeUnit := 10

def carriageReturn : CodeUnit := 13

/-- `[\t ]`. -/
def isIndent (u : CodeUnit) : Bool := u = 9 || u = 32

/-- `value.replace(/\r(?=\n|$)/g, "")`. -/
def normaliseLineEndings : JsString → JsString
  | [] => []
  | u :: rest =>
    if u = carriageReturn ∧ (rest = [] ∨ rest.head? = some newline) then
      normaliseLineEndings rest
    else u :: normaliseLineEndings rest

/-- `text.replaceAll(sought, replacement)`, of a sought text that is not empty. -/
def replaceText (sought replacement text : JsString) : JsString :=
  if h : sought = [] then text
  else (Pattern.literal sought h).replaceAll (fun _ => replacement) text

/-- `text.split(form).join("***")`. -/
def maskForm (form text : JsString) : JsString :=
  if h : form = [] then STARS.intercalate (text.map (fun u => [u]))
  else (Pattern.literal form h).replaceAll (fun _ => STARS) text

/-- What is left of a text after lines of which each but the first may be indented: as
far as it can be, and less where the lines do not follow. -/
def matchLines : List JsString → JsString → Option JsString
  | [], text => some text
  | [line], text => Shell.afterLiteral line text
  | line :: next :: rest, text => do
      let afterLine ← Shell.afterLiteral (line ++ [newline]) text
      let indent := (afterLine.takeWhile isIndent).length
      (List.range (indent + 1)).reverse.findSome? (fun n =>
        matchLines (next :: rest) (afterLine.drop n))

/-- A text spells lines with some indent before each but the first. -/
inductive Reindented : List JsString → JsString → Prop
  | last (line : JsString) : Reindented [line] line
  | line (line indent : JsString) {next : JsString} {rest : List JsString} {spelled : JsString}
      (hindent : ∀ u ∈ indent, isIndent u = true) (hrest : Reindented (next :: rest) spelled) :
      Reindented (line :: next :: rest) (line ++ [newline] ++ indent ++ spelled)

/-- `value.split("\n")`. -/
def linesOf (value : JsString) : List JsString := value.splitOn newline

theorem afterLiteral_append (literal rest : JsString) :
    Shell.afterLiteral literal (literal ++ rest) = some rest := afterLiteral_eq_some.mpr rfl

variable {lines : List JsString} {text : JsString}

/-- What lines match spells them. -/
theorem reindented_of_matchLines {line : JsString} {rest : JsString}
    (h : matchLines (line :: lines) text = some rest) :
    ∃ spelled, Reindented (line :: lines) spelled ∧ text = spelled ++ rest := by
  induction lines generalizing line text with
  | nil => exact ⟨line, .last line, afterLiteral_eq_some.mp h⟩
  | cons next lines ih =>
    rw [matchLines] at h
    obtain ⟨afterLine, hline, h⟩ := Option.bind_eq_some_iff.mp h
    obtain ⟨n, hn, h⟩ := List.exists_of_findSome?_eq_some h
    obtain ⟨spelled, hspelled, hafter⟩ := ih h
    have hindent : n ≤ (afterLine.takeWhile isIndent).length := by
      have := List.mem_range.mp (List.mem_reverse.mp hn)
      omega
    have htake : ∀ u ∈ afterLine.take n, isIndent u = true := by
      intro u hu
      have hlead : afterLine.take n <+: afterLine.takeWhile isIndent := by
        refine List.prefix_of_prefix_length_le (List.take_prefix n afterLine)
          (List.takeWhile_prefix isIndent) ?_
        rw [List.length_take]
        omega
      exact List.mem_takeWhile_imp (hlead.subset hu)
    refine ⟨_, .line line (afterLine.take n) htake hspelled, ?_⟩
    rw [afterLiteral_eq_some.mp hline]
    simp only [List.append_assoc, ← hafter, List.take_append_drop]

theorem matchLines_isSome {spelled : JsString} (h : Reindented lines spelled) (rest : JsString) :
    (matchLines lines (spelled ++ rest)).isSome := by
  induction h with
  | last line =>
    rw [matchLines, afterLiteral_append]
    rfl
  | @line line indent next lines spelled hindent hrest ih =>
    rw [matchLines]
    have hline : Shell.afterLiteral (line ++ [newline])
        (line ++ [newline] ++ indent ++ spelled ++ rest) = some (indent ++ spelled ++ rest) := by
      rw [afterLiteral_eq_some]
      simp only [List.append_assoc]
    rw [hline, Option.bind_eq_bind, Option.bind_some, List.findSome?_isSome_iff]
    refine ⟨indent.length, ?_, ?_⟩
    · rw [List.mem_reverse, List.mem_range, List.append_assoc,
        List.takeWhile_append_of_pos hindent, List.length_append]
      omega
    · rw [List.append_assoc, List.drop_left]
      exact ih

theorem linesOf_cons (value : JsString) : ∃ line lines, linesOf value = line :: lines :=
  List.exists_cons_of_ne_nil (List.splitOn_ne_nil newline value)

/-- A text spells a value with its lines indented. -/
def Reindents (value spelled : JsString) : Prop := Reindented (linesOf value) spelled

theorem reindented_ne_nil {line : JsString} {spelled : JsString}
    (h : Reindented (line :: lines) spelled) (hne : line ≠ [] ∨ lines ≠ []) : spelled ≠ [] := by
  cases h with
  | last line => simpa using hne
  | line line indent hindent hrest => simp

/-- The pattern of a value's lines with indents. -/
def indented (value : JsString) (hne : value ≠ []) : Pattern CodeUnit where
  matchLength := fun text =>
    (matchLines (linesOf value) text).map (fun rest => text.length - rest.length)
  bounds := by
    intro text n h
    obtain ⟨rest, hrest, rfl⟩ := Option.map_eq_some_iff.mp h
    obtain ⟨line, lines, hlines⟩ := linesOf_cons value
    rw [hlines] at hrest
    obtain ⟨spelled, hspelled, rfl⟩ := reindented_of_matchLines hrest
    have hspelled' : spelled ≠ [] := by
      apply reindented_ne_nil hspelled
      by_contra hempty
      obtain ⟨rfl, rfl⟩ := not_or.mp hempty |>.imp not_not.mp not_not.mp
      have hjoin : [newline].intercalate (linesOf value) = value :=
        List.intercalate_splitOn newline
      rw [hlines] at hjoin
      exact hne (by simpa using hjoin.symm)
    have hpos := List.length_pos_of_ne_nil hspelled'
    rw [List.length_append]
    omega

variable {value : JsString}

/-- What the pattern matches spells the value. -/
theorem reindents_of_match {hne : value ≠ []} {run rest : JsString}
    (h : (indented value hne).matchLength (run ++ rest) = some run.length) :
    Reindents value run := by
  obtain ⟨after, hafter, hlength⟩ := Option.map_eq_some_iff.mp h
  obtain ⟨line, lines, hlines⟩ := linesOf_cons value
  rw [hlines] at hafter
  obtain ⟨spelled, hspelled, hall⟩ := reindented_of_matchLines hafter
  have hlengths := congrArg List.length hall
  simp only [List.length_append] at hlengths hlength
  have hsame : run = spelled := (List.append_inj hall (by omega)).1
  rw [Reindents, hlines, hsame]
  exact hspelled

/-- `SecretRedactor`.  A secret of several lines has a pattern of its own, which is
`indented` of it. -/
structure SecretRedactor where
  secrets : List JsString
  indentedSecrets : List JsString
  sentinels : List SecretBagRegistry

/-- `set.add(value)`. -/
def addTo (value : JsString) (values : List JsString) : List JsString :=
  if value ∈ values then values else values ++ [value]

namespace SecretRedactor

/-- A redactor that masks the sentinels of registries. -/
def masking (registries : List SecretBagRegistry) : SecretRedactor := ⟨[], [], registries⟩

/-- `body`: what inspection writes between its quotes, its own quote not escaped. -/
def inspectedBody (inspected : JsString) : JsString :=
  let quote := inspected.take 1
  replaceText (js "\\" ++ quote) quote (inspected.dropLast.drop 1)

/-- What inspection may have escaped. -/
def DELIMITERS : List JsString := [js "\"", js "'", js "`", js "$\x7b"]

/-- The forms of a value that hold none of its line breaks. -/
def escapedForms (inspect : JsString → JsString) (value : JsString) : List JsString :=
  let body := inspectedBody (inspect value)
  (if quoteUnits value ≠ value then [quoteUnits value] else []) ++
    body :: DELIMITERS.map (fun delimiter => replaceText delimiter (js "\\" ++ delimiter) body)

/-- `addForm`.  `inspect` is how a text is inspected. -/
def addForm (inspect : JsString → JsString) (redactor : SecretRedactor) (value : JsString) :
    SecretRedactor :=
  { redactor with
    secrets := (escapedForms inspect value).foldl (fun secrets form => addTo form secrets)
      (addTo value redactor.secrets)
    indentedSecrets :=
      if newline ∈ value then addTo value redactor.indentedSecrets else redactor.indentedSecrets }

/-- `addSecret`. -/
def addSecret (inspect : JsString → JsString) (redactor : SecretRedactor) (value : JsString) :
    SecretRedactor :=
  if value.length < 3 then redactor
  else
    let added := redactor.addForm inspect value
    let normalised := normaliseLineEndings value
    if normalised ≠ value ∧ 3 ≤ normalised.length then added.addForm inspect normalised else added

def masksSentinels (redactor : SecretRedactor) : Bool :=
  redactor.sentinels.any (fun registry => !registry.isEmpty)

def isMaskedSentinel (redactor : SecretRedactor) (sentinel : JsString) : Bool :=
  redactor.sentinels.any (fun registry => (registry.entryOf sentinel).isSome)

/-- The sentinels masked, where any registry masks them. -/
def maskSentinels (redactor : SecretRedactor) (text : JsString) : JsString :=
  if redactor.masksSentinels ∧ SENTINEL_MARK <:+: text then
    sentinelShape.replaceAll
      (fun sentinel => if redactor.isMaskedSentinel sentinel then STARS else sentinel) text
  else text

/-- One secret masked, its indented spellings first. -/
def maskSecret (redactor : SecretRedactor) (result secret : JsString) : JsString :=
  maskForm secret
    (if h : secret ∈ redactor.indentedSecrets ∧ secret ≠ [] then
      (indented secret h.2).replaceAll (fun _ => STARS) result
    else result)

/-- The secrets, longer ones first. -/
def sorted (redactor : SecretRedactor) : List JsString :=
  redactor.secrets.insertionSort (fun a b => b.length ≤ a.length)

/-- `redact`. -/
def redact (redactor : SecretRedactor) (text : JsString) : JsString :=
  redactor.sorted.foldl redactor.maskSecret (redactor.maskSentinels text)

end SecretRedactor

/-- What inspecting a text of at least three units does: it puts quotes around the text
and escapes its line breaks. -/
structure Inspects (inspect : JsString → JsString) : Prop where
  quoted : ∀ value, 3 ≤ value.length → 3 ≤ (inspect value).length
  escaped : ∀ value, newline ∉ inspect value

theorem mem_quoteUnit {s : CodeUnit} {u : CodeUnit} (h : u ∈ quoteUnit s) : 32 ≤ u.val := by
  have hhex : ∀ d < 16, 32 ≤ (lowerHex d).val := by decide
  unfold quoteUnit at h
  split at h
  · rename_i letter hletter
    rcases List.mem_pair.mp h with rfl | rfl
    · decide
    · unfold escapeLetter at hletter
      split_ifs at hletter with _ _ _ _ _ hplain
      · exact Option.some.inj hletter ▸ (by decide : 32 ≤ (unit 'b').val)
      · exact Option.some.inj hletter ▸ (by decide : 32 ≤ (unit 't').val)
      · exact Option.some.inj hletter ▸ (by decide : 32 ≤ (unit 'n').val)
      · exact Option.some.inj hletter ▸ (by decide : 32 ≤ (unit 'f').val)
      · exact Option.some.inj hletter ▸ (by decide : 32 ≤ (unit 'r').val)
      · obtain rfl := Option.some.inj hletter
        rcases hplain with rfl | rfl
        · decide
        · decide
  · split at h
    · simp only [hexDigits, List.mem_cons, List.not_mem_nil, or_false] at h
      have := s.isLt
      rcases h with rfl | rfl | rfl | rfl | rfl | rfl
      · decide
      · decide
      · exact hhex _ (by omega)
      · exact hhex _ (by omega)
      · exact hhex _ (by omega)
      · exact hhex _ (by omega)
    · rename_i hplain
      rw [List.mem_singleton] at h
      subst h
      omega

theorem mem_quoteUnits {u : CodeUnit} (h : u ∈ quoteUnits value) : 32 ≤ u.val := by
  fun_induction quoteUnits value with
  | case1 => cases h
  | case2 s => exact mem_quoteUnit h
  | case3 s t rest hpair ih =>
    simp only [Bool.and_eq_true] at hpair
    simp only [List.mem_cons] at h
    rcases h with rfl | rfl | h
    · have := hpair.1
      simp only [isLeading, Bool.and_eq_true, decide_eq_true_eq] at this
      omega
    · have := hpair.2
      simp only [isTrailing, Bool.and_eq_true, decide_eq_true_eq] at this
      omega
    · exact ih h
  | case4 s t rest hpair ih =>
    rcases List.mem_append.mp h with h | h
    · exact mem_quoteUnit h
    · exact ih h

theorem quoteUnits_ne_nil (h : value ≠ []) : quoteUnits value ≠ [] := by
  have hunit : ∀ u, quoteUnit u ≠ [] := by
    intro u
    unfold quoteUnit
    split
    · exact List.cons_ne_nil _ _
    · split
      · exact List.cons_ne_nil _ _
      · exact List.cons_ne_nil _ _
  fun_cases quoteUnits value with
  | case1 => exact absurd rfl h
  | case2 u => exact hunit u
  | case3 u v rest hpair => exact List.cons_ne_nil _ _
  | case4 u v rest hpair => exact fun hnil => hunit u (List.append_eq_nil_iff.mp hnil).1

theorem replaceText_ne_nil {sought replacement : JsString} (hreplacement : replacement ≠ [])
    (h : text ≠ []) : replaceText sought replacement text ≠ [] := by
  unfold replaceText
  split
  · exact h
  · exact Pattern.replaceAll_ne_nil _ (fun _ => hreplacement) h

theorem newline_not_mem_replaceText {sought replacement : JsString}
    (hreplacement : newline ∉ replacement) (h : newline ∉ text) :
    newline ∉ replaceText sought replacement text := by
  unfold replaceText
  split
  · exact h
  · intro hmem
    rcases Pattern.mem_replaceAll _ hmem with hin | ⟨_, hin⟩
    · exact h hin
    · exact hreplacement hin

namespace SecretRedactor

section

variable {inspect : JsString → JsString} (hinspect : Inspects inspect)

include hinspect

theorem escapedForms_line {form : JsString} (hvalue : 3 ≤ value.length)
    (h : form ∈ escapedForms inspect value) : form ≠ [] ∧ newline ∉ form := by
  have hlength := hinspect.quoted value hvalue
  have hquote : (inspect value).take 1 ≠ [] := by
    intro hnil
    have := congrArg List.length hnil
    rw [List.length_take, List.length_nil] at this
    omega
  have hinner : (inspect value).dropLast.drop 1 ≠ [] := by
    intro hnil
    have := congrArg List.length hnil
    rw [List.length_drop, List.length_dropLast, List.length_nil] at this
    omega
  have hline : newline ∉ (inspect value).dropLast.drop 1 := fun hmem =>
    hinspect.escaped value (List.mem_of_mem_dropLast (List.mem_of_mem_drop hmem))
  have hbody : inspectedBody (inspect value) ≠ [] ∧ newline ∉ inspectedBody (inspect value) :=
    ⟨replaceText_ne_nil hquote hinner, newline_not_mem_replaceText
      (fun hmem => hinspect.escaped value (List.mem_of_mem_take hmem)) hline⟩
  have hne : value ≠ [] := by
    intro hnil
    rw [hnil] at hvalue
    exact absurd hvalue (by decide)
  rcases List.mem_append.mp h with hjson | hinspected
  · split at hjson
    · obtain rfl := List.mem_singleton.mp hjson
      exact ⟨quoteUnits_ne_nil hne, fun hmem => absurd (mem_quoteUnits hmem) (by decide)⟩
    · cases hjson
  · rcases List.mem_cons.mp hinspected with rfl | hdelimited
    · exact hbody
    · obtain ⟨delimiter, hdelimiter, rfl⟩ := List.mem_map.mp hdelimited
      have hplain : newline ∉ js "\\" ++ delimiter := by
        have hall : ∀ delimiter ∈ DELIMITERS, newline ∉ js "\\" ++ delimiter := by decide
        exact hall delimiter hdelimiter
      exact ⟨replaceText_ne_nil (List.append_ne_nil_of_left_ne_nil (List.cons_ne_nil _ _) _)
        hbody.1, newline_not_mem_replaceText hplain hbody.2⟩

end

/-- A redactor knows the forms it masks: none is empty, and those of several lines have
a pattern. -/
structure Sound (redactor : SecretRedactor) : Prop where
  ne_nil : ∀ form ∈ redactor.secrets, form ≠ []
  indented : ∀ form, form ∈ redactor.indentedSecrets ↔ form ∈ redactor.secrets ∧ newline ∈ form

theorem sound_masking (registries : List SecretBagRegistry) : (masking registries).Sound where
  ne_nil := nofun
  indented := by simp [masking]

theorem mem_addTo {other : JsString} {values : List JsString} :
    other ∈ addTo value values ↔ other = value ∨ other ∈ values := by
  unfold addTo
  split
  · rename_i hmem
    constructor
    · exact Or.inr
    · intro h
      rcases h with rfl | h
      · exact hmem
      · exact h
  · rw [List.mem_append, List.mem_singleton, or_comm]

theorem mem_foldl_addTo {form : JsString} {forms values : List JsString} :
    form ∈ forms.foldl (fun values form => addTo form values) values ↔
      form ∈ values ∨ form ∈ forms := by
  induction forms generalizing values with
  | nil => simp
  | cons first rest ih =>
    rw [List.foldl_cons, ih, mem_addTo, List.mem_cons]
    grind

variable {redactor : SecretRedactor}

theorem Sound.addForm (h : redactor.Sound) {inspect : JsString → JsString}
    (hinspect : Inspects inspect) (hvalue : 3 ≤ value.length) :
    (redactor.addForm inspect value).Sound where
  ne_nil := by
    intro form hform
    rcases mem_foldl_addTo.mp hform with hold | hescaped
    · rcases mem_addTo.mp hold with rfl | hold
      · intro hnil
        rw [hnil] at hvalue
        exact absurd hvalue (by decide)
      · exact h.ne_nil form hold
    · exact (escapedForms_line hinspect hvalue hescaped).1
  indented := by
    intro form
    have hforms : form ∈ (redactor.addForm inspect value).secrets ∧ newline ∈ form ↔
        (form = value ∨ form ∈ redactor.secrets) ∧ newline ∈ form := by
      apply and_congr_left
      intro hline
      rw [SecretRedactor.addForm, mem_foldl_addTo, mem_addTo]
      apply or_iff_left
      intro hescaped
      exact (escapedForms_line hinspect hvalue hescaped).2 hline
    rw [hforms, or_and_right, ← h.indented, SecretRedactor.addForm]
    by_cases hline : newline ∈ value
    · rw [if_pos hline, mem_addTo]
      grind
    · rw [if_neg hline]
      grind

theorem Sound.addSecret (h : redactor.Sound) {inspect : JsString → JsString}
    (hinspect : Inspects inspect) (value : JsString) :
    (redactor.addSecret inspect value).Sound := by
  unfold SecretRedactor.addSecret
  split
  · exact h
  · rename_i hvalue
    dsimp only
    split
    · rename_i hnormalised
      exact (h.addForm hinspect (by omega)).addForm hinspect hnormalised.2
    · exact h.addForm hinspect (by omega)

theorem sound_addSecrets (h : redactor.Sound) {inspect : JsString → JsString}
    (hinspect : Inspects inspect) (values : List JsString) :
    (values.foldl (SecretRedactor.addSecret inspect) redactor).Sound := by
  induction values generalizing redactor with
  | nil => exact h
  | cons value rest ih => exact ih (h.addSecret hinspect value)

end SecretRedactor

end Secrets

end Swamp
