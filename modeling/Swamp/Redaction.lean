import Swamp.Masking
import Swamp.SecretRedactor

/-!
# What redacting leaves

Where no form of a recorded secret holds a star, a mask joins nothing and cuts nothing:
whatever a later form masks stood in the text from the start.
-/

namespace Swamp

open Js

namespace Secrets

namespace SecretRedactor

/-- A form of a redactor, or a spelling of one with its lines indented. -/
def Spelling (redactor : SecretRedactor) (run : JsString) : Prop :=
  run ∈ redactor.secrets ∨ ∃ form ∈ redactor.secrets, newline ∈ form ∧ Reindents form run

theorem mem_reindented {lines : List JsString} {spelled : JsString} (h : Reindented lines spelled)
    {u : CodeUnit} (hu : u ∈ spelled) :
    (∃ line ∈ lines, u ∈ line) ∨ u = newline ∨ isIndent u = true := by
  induction h with
  | last line => exact Or.inl ⟨line, List.mem_singleton_self _, hu⟩
  | @line line indent next lines spelled hindent hrest ih =>
    simp only [List.mem_append, List.mem_singleton] at hu
    rcases hu with ((hline | hbreak) | hin) | hspelled
    · exact Or.inl ⟨line, List.mem_cons_self, hline⟩
    · exact Or.inr (Or.inl hbreak)
    · exact Or.inr (Or.inr (hindent u hin))
    · rcases ih hspelled with ⟨other, hother, hmem⟩ | hrest
      · exact Or.inl ⟨other, List.mem_cons_of_mem _ hother, hmem⟩
      · exact Or.inr hrest

theorem mem_of_mem_linesOf {value line : JsString} (h : line ∈ linesOf value) {u : CodeUnit}
    (hu : u ∈ line) : u ∈ value := by
  have hjoin : [newline].intercalate (linesOf value) = value := List.intercalate_splitOn newline
  rw [← hjoin]
  generalize linesOf value = lines at h
  induction lines with
  | nil => cases h
  | cons first rest ih =>
    cases rest with
    | nil =>
      obtain rfl := List.mem_singleton.mp h
      rwa [List.intercalate_singleton]
    | cons next rest =>
      rw [List.intercalate_cons_cons, List.mem_append, List.mem_append]
      rcases List.mem_cons.mp h with rfl | h
      · exact Or.inl (Or.inl hu)
      · exact Or.inr (ih h)

variable {text secret : JsString} {secrets : List JsString}

section

variable {redactor : SecretRedactor} (hsound : redactor.Sound)
  (hfree : ∀ form ∈ redactor.secrets, unit '*' ∉ form)

theorem free_iff : Masked.Free STARS text ↔ unit '*' ∉ text := by
  constructor
  · intro h hmem
    exact h _ hmem (by decide)
  · intro h u hu hmem
    have hstars : STARS = List.replicate 3 (unit '*') := by decide
    rw [hstars] at hmem
    exact h (List.eq_of_mem_replicate hmem ▸ hu)

theorem stars_ne_nil : STARS ≠ [] := List.cons_ne_nil _ _

include hsound hfree

variable {run : JsString}

/-- A spelling shares no unit with the mask. -/
theorem Spelling.free (h : redactor.Spelling run) : Masked.Free STARS run ∧ run ≠ [] := by
  rcases h with hform | ⟨form, hform, hline, hspelled⟩
  · exact ⟨free_iff.mpr (hfree run hform), hsound.ne_nil run hform⟩
  · constructor
    · rw [free_iff]
      intro hmem
      rcases mem_reindented hspelled hmem with ⟨line, hmemLine, hin⟩ | hbreak | hindent
      · exact hfree form hform (mem_of_mem_linesOf hmemLine hin)
      · exact absurd hbreak (by decide)
      · exact absurd hindent (by decide)
    · obtain ⟨line, lines, hlines⟩ := linesOf_cons form
      rw [Reindents, hlines] at hspelled
      apply reindented_ne_nil hspelled
      by_contra hempty
      obtain ⟨rfl, rfl⟩ := not_or.mp hempty |>.imp not_not.mp not_not.mp
      have hjoin : [newline].intercalate (linesOf form) = form := List.intercalate_splitOn newline
      rw [hlines] at hjoin
      exact hsound.ne_nil form hform (by simpa using hjoin.symm)

/-- Masking a secret masks spellings. -/
theorem maskSecret_masked (hsecret : secret ∈ redactor.secrets) (text : JsString) :
    Masked STARS redactor.Spelling text (redactor.maskSecret text secret) := by
  have hne := hsound.ne_nil secret hsecret
  have hform : ∀ text, Masked STARS redactor.Spelling text (maskForm secret text) := by
    intro text
    rw [maskForm, dif_neg hne]
    refine Masked.of_scan _ (fun run hrun => Or.inl ?_)
    obtain ⟨front, rest, -, -, hmatch⟩ := Pattern.mem_scan_matched _ hrun
    obtain ⟨hlead, hlength⟩ := Pattern.literal_match.mp hmatch
    have hsame : secret = run := List.IsPrefix.eq_of_length
      (List.prefix_of_prefix_length_le hlead (List.prefix_append run rest) hlength.le) hlength
    exact hsame ▸ hsecret
  unfold maskSecret
  split
  · rename_i hindented
    refine Masked.trans stars_ne_nil (fun run hrun => hrun.free hsound hfree)
      (fun run hrun => hrun) (Masked.of_scan _ (fun run hrun => Or.inr ?_)) (hform _)
    obtain ⟨front, rest, -, -, hmatch⟩ := Pattern.mem_scan_matched _ hrun
    exact ⟨secret, hsecret, ((hsound.indented secret).mp hindented.1).2,
      reindents_of_match hmatch⟩
  · exact hform text

/-- **Masking secrets masks spellings of the text.** -/
theorem foldl_masked (hsecrets : ∀ secret ∈ secrets, secret ∈ redactor.secrets) (text : JsString) :
    Masked STARS redactor.Spelling text (secrets.foldl redactor.maskSecret text) := by
  induction secrets generalizing text with
  | nil => exact Masked.refl text
  | cons secret rest ih =>
    exact Masked.trans stars_ne_nil (fun run hrun => hrun.free hsound hfree)
      (fun run hrun => hrun)
      (maskSecret_masked hsound hfree (hsecrets secret List.mem_cons_self) text)
      (ih (fun other hother => hsecrets other (List.mem_cons_of_mem _ hother)) _)

theorem not_infix_maskSecret (hsecret : secret ∈ redactor.secrets)
    (hrun : run = secret ∨ newline ∈ secret ∧ Reindents secret run) (text : JsString) :
    ¬ run <:+: redactor.maskSecret text secret := by
  have hne := hsound.ne_nil secret hsecret
  have hspelling : redactor.Spelling run := by
    rcases hrun with rfl | hrun
    · exact Or.inl hsecret
    · exact Or.inr ⟨secret, hsecret, hrun⟩
  obtain ⟨hrunFree, hrunNe⟩ := hspelling.free hsound hfree
  unfold maskSecret
  rw [maskForm, dif_neg hne]
  rcases hrun with rfl | ⟨hline, hspelled⟩
  · refine Masked.not_infix_replaceAll _ stars_ne_nil hrunFree hrunNe (fun rest => ?_) _
    rw [Option.isSome_iff_exists]
    exact ⟨_, Pattern.literal_match.mpr ⟨List.prefix_append _ _, rfl⟩⟩
  · rw [dif_pos ⟨(hsound.indented secret).mpr ⟨hsecret, hline⟩, hne⟩]
    intro hpart
    have hmasked : Masked STARS (fun _ => True)
        ((indented secret hne).replaceAll (fun _ => STARS) text)
        ((Pattern.literal secret hne).replaceAll (fun _ => STARS)
          ((indented secret hne).replaceAll (fun _ => STARS) text)) :=
      Masked.of_scan _ (fun _ _ => trivial)
    refine Masked.not_infix_replaceAll (indented secret hne) stars_ne_nil hrunFree hrunNe
      (fun rest => ?_) text (hmasked.infix_of_masked stars_ne_nil hrunFree hpart)
    have hmatch := matchLines_isSome hspelled rest
    obtain ⟨after, hafter⟩ := Option.isSome_iff_exists.mp hmatch
    rw [Option.isSome_iff_exists]
    exact ⟨_, Option.map_eq_some_iff.mpr ⟨after, hafter, rfl⟩⟩

/-- **No spelling of any secret is left once all are masked.** -/
theorem not_infix_foldl (hsecrets : ∀ secret ∈ secrets, secret ∈ redactor.secrets)
    (hsecret : secret ∈ secrets) (hrun : run = secret ∨ newline ∈ secret ∧ Reindents secret run)
    (text : JsString) : ¬ run <:+: secrets.foldl redactor.maskSecret text := by
  induction secrets generalizing text with
  | nil => cases hsecret
  | cons first rest ih =>
    have hrest : ∀ other ∈ rest, other ∈ redactor.secrets :=
      fun other hother => hsecrets other (List.mem_cons_of_mem _ hother)
    rcases List.mem_cons.mp hsecret with rfl | hsecret
    · have hmem := hsecrets secret List.mem_cons_self
      have hspelling : redactor.Spelling run := by
        rcases hrun with rfl | hrun
        · exact Or.inl hmem
        · exact Or.inr ⟨secret, hmem, hrun⟩
      intro hpart
      exact not_infix_maskSecret hsound hfree hmem hrun text
        ((foldl_masked hsound hfree hrest _).infix_of_masked stars_ne_nil
          (hspelling.free hsound hfree).1 hpart)
    · exact ih hrest hsecret _

omit hfree in
theorem maskSecret_of_not_infix (hsecret : secret ∈ redactor.secrets)
    (h : ∀ run, run = secret ∨ newline ∈ secret ∧ Reindents secret run → ¬ run <:+: text) :
    redactor.maskSecret text secret = text := by
  have hne := hsound.ne_nil secret hsecret
  have hform : maskForm secret text = text := by
    rw [maskForm, dif_neg hne]
    refine Pattern.replaceAll_of_no_match _ _ (fun front rest heq => ?_)
    rw [Pattern.literal_none]
    intro hlead
    exact h secret (Or.inl rfl) (hlead.isInfix.trans (heq ▸ List.suffix_append front rest).isInfix)
  unfold maskSecret
  split
  · rename_i hindented
    rw [Pattern.replaceAll_of_no_match, hform]
    intro front rest heq
    cases hmatch : (indented secret hindented.2).matchLength rest with
    | none => rfl
    | some n =>
      have hbounds := (indented secret hindented.2).bounds hmatch
      have hrest := List.take_append_drop n rest
      have hlength : (rest.take n).length = n := by
        rw [List.length_take]
        omega
      have hspelled : Reindents secret (rest.take n) := by
        have hrun : (indented secret hindented.2).matchLength (rest.take n ++ rest.drop n) =
            some (rest.take n).length := by
          rw [hrest, hlength]
          exact hmatch
        exact reindents_of_match hrun
      have hline := ((hsound.indented secret).mp hindented.1).2
      exact absurd ((List.take_prefix n rest).isInfix.trans
        (heq ▸ List.suffix_append front rest).isInfix) (h _ (Or.inr ⟨hline, hspelled⟩))
  · exact hform

end

/-- A text holds no sentinel-shaped text. -/
def Plain (text : JsString) : Prop :=
  ∀ front rest, text = front ++ rest → Shell.sentinelPattern rest = none

theorem plain_of_no_mark (h : ¬ SENTINEL_MARK <:+: text) : Plain text := by
  intro front rest heq
  cases hmatch : Shell.sentinelPattern rest with
  | none => rfl
  | some n =>
    obtain ⟨secret, digits, after, -, -, rfl, -⟩ := sentinelPattern_iff.mp hmatch
    refine absurd ⟨front, secret ++ unit '_' :: (digits ++ js "__") ++ after, ?_⟩ h
    rw [heq, sentinelText]
    simp only [List.append_assoc]

theorem maskSentinels_of_plain (redactor : SecretRedactor) (h : Plain text) :
    redactor.maskSentinels text = text := by
  unfold maskSentinels
  split
  · exact Pattern.replaceAll_of_no_match _ _ h
  · rfl

/-- Masking brings no sentinel-shaped text to light. -/
theorem Plain.of_masked {sought : JsString → Prop} {out : JsString} (h : Plain text)
    (hmasked : Masked STARS sought text out) : Plain out := by
  intro front rest heq
  cases hmatch : Shell.sentinelPattern rest with
  | none => rfl
  | some n =>
    have hsentinel := isSentinel_take hmatch
    obtain ⟨secret, digits, hsecret, hnumber, htake⟩ := isSentinel_iff.mp hsentinel
    have hfree : Masked.Free STARS (rest.take n) := by
      rw [free_iff, htake]
      exact star_not_mem_sentinel hsecret hnumber
    have hpart : rest.take n <:+: out :=
      (List.take_prefix n rest).isInfix.trans (heq ▸ List.suffix_append front rest).isInfix
    obtain ⟨before, after, rfl⟩ := hmasked.infix_of_masked stars_ne_nil hfree hpart
    have hnone := h before (rest.take n ++ after) (List.append_assoc _ _ _)
    rw [sentinelPattern_append hsentinel] at hnone
    cases hnone

theorem mem_sorted {redactor : SecretRedactor} :
    secret ∈ redactor.sorted ↔ secret ∈ redactor.secrets := List.mem_insertionSort _

theorem foldl_of_not_infix {redactor : SecretRedactor} (hsound : redactor.Sound)
    (hsecrets : ∀ secret ∈ secrets, secret ∈ redactor.secrets) (h : ∀ secret ∈ secrets, ∀ run,
      run = secret ∨ newline ∈ secret ∧ Reindents secret run → ¬ run <:+: text) :
    secrets.foldl redactor.maskSecret text = text := by
  induction secrets with
  | nil => rfl
  | cons secret rest ih =>
    rw [List.foldl_cons, maskSecret_of_not_infix hsound (hsecrets secret List.mem_cons_self)
      (h secret List.mem_cons_self)]
    exact ih (fun other hother => hsecrets other (List.mem_cons_of_mem _ hother))
      (fun other hother => h other (List.mem_cons_of_mem _ hother))

/-- **Redaction is complete and stable.**  Of recorded secrets whose forms hold no star
and a text without sentinel-shaped text, the redacted text holds no form and no indented
spelling of one, redacting it again changes nothing, and the stretches of the text that
no spelling meets come out as they were and in order. -/
theorem redaction {inspect : JsString → JsString} (hinspect : Inspects inspect)
    (registries : List SecretBagRegistry) (values : List JsString) {redactor : SecretRedactor}
    (hredactor : values.foldl (SecretRedactor.addSecret inspect) (masking registries) = redactor)
    (hfree : ∀ form ∈ redactor.secrets, unit '*' ∉ form) {text : JsString} (hplain : Plain text) :
    (∀ form ∈ redactor.secrets, ¬ form <:+: redactor.redact text) ∧
    (∀ form ∈ redactor.secrets, newline ∈ form → ∀ spelled, Reindents form spelled →
      ¬ spelled <:+: redactor.redact text) ∧
    redactor.redact (redactor.redact text) = redactor.redact text ∧
    ∀ parts last, text = Masked.laid parts last →
      (∀ before gap stretch after, parts = before ++ (gap, stretch) :: after →
        stretch ≠ [] ∧ Masked.Clear redactor.Spelling (Masked.laid before gap) stretch
          (Masked.laid after last)) →
      ∃ parts' last', parts'.map Prod.snd = parts.map Prod.snd ∧
        redactor.redact text = Masked.laid parts' last' := by
  have hsound : redactor.Sound := by
    rw [← hredactor]
    exact sound_addSecrets (sound_masking registries) hinspect values
  have hall : ∀ secret ∈ redactor.sorted, secret ∈ redactor.secrets :=
    fun secret hsecret => mem_sorted.mp hsecret
  have hredact : ∀ {text}, Plain text →
      redactor.redact text = redactor.sorted.foldl redactor.maskSecret text := by
    intro text hplain
    rw [redact, maskSentinels_of_plain redactor hplain]
  have hmasked : Masked STARS redactor.Spelling text (redactor.redact text) := by
    rw [hredact hplain]
    exact foldl_masked hsound hfree hall text
  have hgone : ∀ form ∈ redactor.secrets, ∀ run,
      run = form ∨ newline ∈ form ∧ Reindents form run → ¬ run <:+: redactor.redact text := by
    intro form hform run hrun
    rw [hredact hplain]
    exact not_infix_foldl hsound hfree hall (mem_sorted.mpr hform) hrun text
  refine ⟨fun form hform => hgone form hform form (Or.inl rfl),
    fun form hform hline spelled hspelled => hgone form hform spelled (Or.inr ⟨hline, hspelled⟩),
    ?_, ?_⟩
  · rw [hredact (hplain.of_masked hmasked)]
    exact foldl_of_not_infix hsound hall
      (fun secret hsecret => hgone secret (mem_sorted.mp hsecret))
  · intro parts last hlaid hclear
    rw [hlaid] at hmasked
    rw [hlaid]
    exact Masked.stretches (fun run hrun => (hrun.free hsound hfree).2) hclear hmasked

theorem inspects_quote : Inspects quote where
  quoted := by
    intro value hvalue
    have hne : value ≠ [] := by
      intro hnil
      rw [hnil] at hvalue
      exact absurd hvalue (by decide)
    have hpos := List.length_pos_of_ne_nil (quoteUnits_ne_nil hne)
    simp only [quote, List.length_cons, List.length_append, List.length_nil]
    omega
  escaped := by
    intro value hmem
    simp only [quote, List.mem_cons, List.mem_append, List.not_mem_nil, or_false] at hmem
    rcases hmem with hopen | hunits | hclose
    · exact absurd hopen (by decide)
    · exact absurd (mem_quoteUnits hunits) (by decide)
    · exact absurd hclose (by decide)

/-- A secret of two lines. -/
def sampleRedactor : SecretRedactor :=
  [js "ab\ncd"].foldl (SecretRedactor.addSecret quote) (masking [])

example : sampleRedactor.redact (js "x ab\n\t cd ab\\ncd y") = js "x *** *** y" := by decide

theorem redaction_lines :
    (¬ js "ab\n\t cd" <:+: sampleRedactor.redact (js "x ab\n\t cd y")) ∧
    sampleRedactor.redact (sampleRedactor.redact (js "x ab\n\t cd y")) =
      sampleRedactor.redact (js "x ab\n\t cd y") := by
  have hplain : Plain (js "x ab\n\t cd y") := plain_of_no_mark (by decide)
  have hsample : [js "ab\ncd"].foldl (SecretRedactor.addSecret quote) (masking []) =
      sampleRedactor := rfl
  obtain ⟨-, hlines, hstable, -⟩ :=
    redaction inspects_quote [] [js "ab\ncd"] hsample (by decide) hplain
  refine ⟨hlines (js "ab\ncd") (by decide) (by decide) _ ?_, hstable⟩
  have hindent : (js "\t ").all isIndent = true := by decide
  exact Reindented.line (js "ab") (js "\t ") (List.all_eq_true.mp hindent)
    (Reindented.last (js "cd"))

end SecretRedactor

end Secrets

end Swamp
