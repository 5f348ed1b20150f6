import Swamp.JsText
import Swamp.Keys

/-!
# Percent-encoded segments read back

`decodeURIComponent` reads a text in two passes here: the percent-encoded bytes
first, then the code points those bytes are in UTF-8.  A segment of a partition
key is read back from what `encodeSegment` wrote, although `@` stands in it
unencoded.
-/

namespace Swamp

open Js

/-- A unit of a percent-encoded text: one that stands for itself, or a byte. -/
inductive PercentToken where
  | unit (u : CodeUnit)
  | byte (b : ℕ)
deriving DecidableEq

/-- The percent-encoded bytes of a text, none where two hex digits are missing
after a `%`. -/
def percentTokens : JsString → Option (List PercentToken)
  | [] => some []
  | [u] => if u = unit '%' then none else some [.unit u]
  | [u, v] => if u = unit '%' ∨ v = unit '%' then none else some [.unit u, .unit v]
  | u :: a :: b :: rest =>
    if u = unit '%' then
      match digitOf 16 a, digitOf 16 b with
      | some high, some low => (percentTokens rest).map (.byte (high * 16 + low) :: ·)
      | _, _ => none
    else (percentTokens (a :: b :: rest)).map (.unit u :: ·)

/-- The code units of a code point. -/
def pointUnits (point : ℕ) : JsString :=
  if point < 0x10000 then [Fin.ofNat 65536 point]
  else
    [Fin.ofNat 65536 (0xD800 + (point - 0x10000) / 0x400),
     Fin.ofNat 65536 (0xDC00 + (point - 0x10000) % 0x400)]

/-- A byte that continues a code point. -/
def isTail (b : ℕ) : Bool := 0x80 ≤ b && b ≤ 0xBF

/-- Whether three bytes may write a code point: not one fewer bytes write, and no
surrogate. -/
def isThreeBytePoint (point : ℕ) : Bool :=
  0x800 ≤ point && !(0xD800 ≤ point && point ≤ 0xDFFF)

/-- The text a sequence of units and UTF-8 bytes writes. -/
def decodeTokens : List PercentToken → Option JsString
  | [] => some []
  | .unit u :: rest => (decodeTokens rest).map (u :: ·)
  | .byte a :: rest =>
    if a < 0x80 then (decodeTokens rest).map (pointUnits a ++ ·)
    else
      match rest with
      | .byte b :: rest =>
        if 0xC2 ≤ a ∧ a ≤ 0xDF then
          if isTail b then
            (decodeTokens rest).map (pointUnits ((a - 0xC0) * 64 + (b - 0x80)) ++ ·)
          else none
        else
          match rest with
          | .byte c :: rest =>
            if 0xE0 ≤ a ∧ a ≤ 0xEF then
              let point := (a - 0xE0) * 4096 + (b - 0x80) * 64 + (c - 0x80)
              if isTail b && isTail c && isThreeBytePoint point then
                (decodeTokens rest).map (pointUnits point ++ ·)
              else none
            else
              match rest with
              | .byte d :: rest =>
                let point := (a - 0xF0) * 262144 + (b - 0x80) * 4096 +
                  (c - 0x80) * 64 + (d - 0x80)
                if (0xF0 ≤ a ∧ a ≤ 0xF4) ∧
                    isTail b && isTail c && isTail d &&
                      (0x10000 ≤ point && point ≤ 0x10FFFF) then
                  (decodeTokens rest).map (pointUnits point ++ ·)
                else none
              | _ => none
          | _ => none
      | _ => none

/-- `decodeURIComponent`: none where it throws. -/
def decodeURIComponent (s : JsString) : Option JsString := (percentTokens s).bind decodeTokens

variable {u : CodeUnit}

theorem percentTokens_unit (h : u ≠ unit '%') (rest : JsString) :
    percentTokens (u :: rest) = (percentTokens rest).map (.unit u :: ·) := by
  match rest with
  | [] => simp [percentTokens, h]
  | [v] =>
    by_cases hv : v = unit '%'
    · simp [percentTokens, hv]
    · simp [percentTokens, h, hv]
  | a :: b :: rest => rw [percentTokens, if_neg h]

theorem digitOf_hexUnit {d : ℕ} (h : d < 16) : digitOf 16 (hexUnit d) = some d := by
  interval_cases d <;> decide

theorem hexUnit_ne_percent {d : ℕ} (h : d < 16) : hexUnit d ≠ unit '%' := by
  interval_cases d <;> decide

variable {b : ℕ}

theorem percentTokens_percentByte (h : b < 256) (rest : JsString) :
    percentTokens (percentByte b ++ rest) = (percentTokens rest).map (.byte b :: ·) := by
  have hhigh : b / 16 < 16 := by omega
  have hlow : b % 16 < 16 := by omega
  have hsum : b / 16 * 16 + b % 16 = b := by omega
  simp only [percentByte, List.cons_append, List.nil_append, percentTokens, if_pos,
    digitOf_hexUnit hhigh, digitOf_hexUnit hlow, hsum]

theorem literalAt_unit (h : u ≠ unit '%') (rest : JsString) :
    literalAt (u :: rest) = u :: literalAt rest := by
  match rest with
  | [] => rfl
  | [v] => rfl
  | a :: b :: rest =>
    rw [literalAt, if_neg]
    intro heq
    exact h (List.cons.inj heq).1

theorem percentByte_at_iff (h : b < 256) : percentByte b = js "%40" ↔ b = 0x40 := by
  constructor
  · intro heq
    have htokens := percentTokens_percentByte h []
    rw [List.append_nil, heq] at htokens
    have hforty : percentTokens (js "%40") = some [.byte 0x40] := by decide
    rw [hforty] at htokens
    simpa [percentTokens] using htokens.symm
  · intro heq
    rw [heq]
    decide

theorem literalAt_percentByte (h : b < 256) (rest : JsString) :
    literalAt (percentByte b ++ rest) =
      (if b = 0x40 then [unit '@'] else percentByte b) ++ literalAt rest := by
  have hhigh : b / 16 < 16 := by omega
  have hlow : b % 16 < 16 := by omega
  have hsplit : percentByte b ++ rest =
      unit '%' :: hexUnit (b / 16) :: hexUnit (b % 16) :: rest := rfl
  by_cases hb : b = 0x40
  · rw [if_pos hb, hsplit, literalAt]
    apply (if_pos ((percentByte_at_iff h).mpr hb)).trans
    rfl
  · rw [if_neg hb, hsplit, literalAt]
    refine (if_neg (fun heq => hb ((percentByte_at_iff h).mp heq))).trans ?_
    rw [literalAt_unit (hexUnit_ne_percent hhigh), literalAt_unit (hexUnit_ne_percent hlow)]
    rfl

/-- The token `encodeSegment` leaves for a byte. -/
def segmentToken (b : ℕ) : PercentToken := if b = 0x40 then .unit (unit '@') else .byte b

theorem percentTokens_literalAt_byte (h : b < 256) (rest : JsString) :
    percentTokens (literalAt (percentByte b ++ rest)) =
      (percentTokens (literalAt rest)).map (segmentToken b :: ·) := by
  rw [literalAt_percentByte h]
  unfold segmentToken
  split
  · exact percentTokens_unit (by decide) _
  · exact percentTokens_percentByte h _

theorem percentTokens_literalAt_bytes {bytes : List ℕ} (h : ∀ b ∈ bytes, b < 256)
    (rest : JsString) :
    percentTokens (literalAt (bytes.flatMap percentByte ++ rest)) =
      (percentTokens (literalAt rest)).map (bytes.map segmentToken ++ ·) := by
  induction bytes with
  | nil => simp
  | cons b bytes ih =>
    rw [List.flatMap_cons, List.append_assoc,
      percentTokens_literalAt_byte (h b List.mem_cons_self),
      ih (fun c hc => h c (List.mem_cons_of_mem _ hc)), Option.map_map]
    rfl

/-- A code point UTF-8 can write. -/
def IsScalar (point : ℕ) : Prop :=
  point ≤ 0x10FFFF ∧ ¬ (0xD800 ≤ point ∧ point ≤ 0xDFFF)

theorem utf8_lt {point : ℕ} (h : point ≤ 0x10FFFF) : ∀ b ∈ utf8 point, b < 256 := by
  intro b hb
  unfold utf8 at hb
  split at hb
  · have := List.mem_singleton.mp hb
    omega
  · split at hb
    · simp only [List.mem_cons, List.not_mem_nil, or_false] at hb
      omega
    · split at hb
      · simp only [List.mem_cons, List.not_mem_nil, or_false] at hb
        omega
      · simp only [List.mem_cons, List.not_mem_nil, or_false] at hb
        omega

theorem segmentToken_high (h : 0x80 ≤ b) : segmentToken b = .byte b := by
  unfold segmentToken
  rw [if_neg (by omega)]

/-- A code point reads back from its bytes. -/
theorem decodeTokens_utf8 {point : ℕ} (h : IsScalar point) (rest : List PercentToken) :
    decodeTokens ((utf8 point).map segmentToken ++ rest) =
      (decodeTokens rest).map (pointUnits point ++ ·) := by
  obtain ⟨hmax, hsurrogate⟩ := h
  unfold utf8
  split
  · rename_i hone
    by_cases hat : point = 0x40
    · subst hat
      rfl
    · simp only [segmentToken, hat, if_false, List.map_cons, List.map_nil, List.cons_append,
        List.nil_append]
      rw [decodeTokens.eq_def]
      simp only [hone, if_true]
  · split
    · rename_i hone htwo
      have hlead : ¬ 0xC0 + point / 64 < 0x80 := by omega
      have hrange : 0xC2 ≤ 0xC0 + point / 64 ∧ 0xC0 + point / 64 ≤ 0xDF := by omega
      have htail : isTail (0x80 + point % 64) = true := by simp [isTail]; omega
      have hpoint : (0xC0 + point / 64 - 0xC0) * 64 + (0x80 + point % 64 - 0x80) = point := by
        omega
      simp only [List.map_cons, List.map_nil, segmentToken_high (show 0x80 ≤ 0xC0 + point / 64 by omega),
        segmentToken_high (show 0x80 ≤ 0x80 + point % 64 by omega), List.cons_append,
        List.nil_append]
      rw [decodeTokens.eq_def]
      simp only [hlead, if_false, hrange, and_self, if_true, htail, hpoint]
    · split
      · rename_i hone htwo hthree
        have hlead : ¬ 0xE0 + point / 4096 < 0x80 := by omega
        have htwoLead : ¬ (0xC2 ≤ 0xE0 + point / 4096 ∧ 0xE0 + point / 4096 ≤ 0xDF) := by omega
        have hrange : 0xE0 ≤ 0xE0 + point / 4096 ∧ 0xE0 + point / 4096 ≤ 0xEF := by omega
        have hb : isTail (0x80 + point / 64 % 64) = true := by simp [isTail]; omega
        have hc : isTail (0x80 + point % 64) = true := by simp [isTail]; omega
        have hpoint : (0xE0 + point / 4096 - 0xE0) * 4096 + (0x80 + point / 64 % 64 - 0x80) * 64 +
            (0x80 + point % 64 - 0x80) = point := by omega
        have hvalid : isThreeBytePoint point = true := by
          simp [isThreeBytePoint]
          omega
        simp only [List.map_cons, List.map_nil,
          segmentToken_high (show 0x80 ≤ 0xE0 + point / 4096 by omega),
          segmentToken_high (show 0x80 ≤ 0x80 + point / 64 % 64 by omega),
          segmentToken_high (show 0x80 ≤ 0x80 + point % 64 by omega), List.cons_append,
          List.nil_append]
        rw [decodeTokens.eq_def]
        simp only [hlead, if_false, htwoLead, hrange, and_self, if_true,
          hb, hc, hpoint, hvalid, Bool.and_self]
      · rename_i hone htwo hthree
        have hlead : ¬ 0xF0 + point / 262144 < 0x80 := by omega
        have htwoLead : ¬ (0xC2 ≤ 0xF0 + point / 262144 ∧ 0xF0 + point / 262144 ≤ 0xDF) := by omega
        have hthreeLead : ¬ (0xE0 ≤ 0xF0 + point / 262144 ∧ 0xF0 + point / 262144 ≤ 0xEF) := by
          omega
        have hrange : 0xF0 ≤ 0xF0 + point / 262144 ∧ 0xF0 + point / 262144 ≤ 0xF4 := by omega
        have hb : isTail (0x80 + point / 4096 % 64) = true := by simp [isTail]; omega
        have hc : isTail (0x80 + point / 64 % 64) = true := by simp [isTail]; omega
        have hd : isTail (0x80 + point % 64) = true := by simp [isTail]; omega
        have hpoint : (0xF0 + point / 262144 - 0xF0) * 262144 +
            (0x80 + point / 4096 % 64 - 0x80) * 4096 + (0x80 + point / 64 % 64 - 0x80) * 64 +
            (0x80 + point % 64 - 0x80) = point := by omega
        have hvalid : (decide (0x10000 ≤ point) && decide (point ≤ 0x10FFFF)) = true := by
          simp
          omega
        simp only [List.map_cons, List.map_nil,
          segmentToken_high (show 0x80 ≤ 0xF0 + point / 262144 by omega),
          segmentToken_high (show 0x80 ≤ 0x80 + point / 4096 % 64 by omega),
          segmentToken_high (show 0x80 ≤ 0x80 + point / 64 % 64 by omega),
          segmentToken_high (show 0x80 ≤ 0x80 + point % 64 by omega), List.cons_append,
          List.nil_append]
        rw [decodeTokens.eq_def]
        simp only [hlead, if_false, htwoLead, hthreeLead, hrange, and_self,
          if_true, hb, hc, hd, hpoint, hvalid, Bool.and_self]

/-- The tokens of a segment write a text. -/
def SegmentReads (encoded text : JsString) : Prop :=
  decodeURIComponent (literalAt encoded) = some text

variable {encoded : JsString}

theorem SegmentReads.unit {text : JsString} (hu : u ≠ Js.unit '%') (h : SegmentReads encoded text) :
    SegmentReads (u :: encoded) (u :: text) := by
  obtain ⟨tokens, htokens, hdecoded⟩ := Option.bind_eq_some_iff.mp h
  unfold SegmentReads decodeURIComponent
  rw [literalAt_unit hu, percentTokens_unit hu, htokens, Option.map_some, Option.bind_some,
    decodeTokens, hdecoded]
  rfl

theorem SegmentReads.point {point : ℕ} {text : JsString} (hpoint : IsScalar point)
    (h : SegmentReads encoded text) :
    SegmentReads ((utf8 point).flatMap percentByte ++ encoded) (pointUnits point ++ text) := by
  obtain ⟨tokens, htokens, hdecoded⟩ := Option.bind_eq_some_iff.mp h
  unfold SegmentReads decodeURIComponent
  rw [percentTokens_literalAt_bytes (utf8_lt hpoint.1), htokens, Option.map_some,
    Option.bind_some, decodeTokens_utf8 hpoint, hdecoded]
  rfl

theorem isUnreserved_ne_percent (h : isUnreserved u = true) : u ≠ unit '%' := by
  intro heq
  rw [heq] at h
  revert h
  decide

theorem isScalar_unit (hhigh : ¬ isHighSurrogate u = true) (hlow : ¬ isLowSurrogate u = true) :
    IsScalar u.val := by
  have hlt := u.isLt
  simp only [isHighSurrogate, isLowSurrogate, Bool.and_eq_true, decide_eq_true_eq] at hhigh hlow
  refine ⟨by omega, by omega⟩

theorem pointUnits_unit (u : CodeUnit) : pointUnits u.val = [u] := by
  rw [pointUnits, if_pos u.isLt]
  exact congrArg (fun v => [v]) (Fin.ofNat_val_eq_self u)

/-- The code point of a surrogate pair. -/
theorem pointUnits_pair {v : CodeUnit} (hu : isHighSurrogate u = true)
    (hv : isLowSurrogate v = true) :
    IsScalar (0x10000 + (u.val - 0xD800) * 0x400 + (v.val - 0xDC00)) ∧
      pointUnits (0x10000 + (u.val - 0xD800) * 0x400 + (v.val - 0xDC00)) = [u, v] := by
  simp only [isHighSurrogate, isLowSurrogate, Bool.and_eq_true, decide_eq_true_eq] at hu hv
  refine ⟨⟨by omega, by omega⟩, ?_⟩
  rw [pointUnits, if_neg (by omega)]
  have hhigh : 0xD800 + (0x10000 + (u.val - 0xD800) * 0x400 + (v.val - 0xDC00) - 0x10000) / 0x400 =
      u.val := by omega
  have hlow : 0xDC00 + (0x10000 + (u.val - 0xD800) * 0x400 + (v.val - 0xDC00) - 0x10000) % 0x400 =
      v.val := by omega
  rw [hhigh, hlow, Fin.ofNat_val_eq_self, Fin.ofNat_val_eq_self]

theorem segmentReads_of_encode {s : JsString} (h : encodeURIComponent s = some encoded) :
    SegmentReads encoded s := by
  fun_induction encodeURIComponent s generalizing encoded with
  | case1 =>
    cases h
    rfl
  | case2 u hunreserved =>
    cases h
    exact SegmentReads.unit (isUnreserved_ne_percent hunreserved) rfl
  | case3 | case6 | case8 => cases h
  | case4 u hunreserved hsurrogate =>
    cases h
    simp only [Bool.or_eq_true, not_or] at hsurrogate
    have hpoint := SegmentReads.point (isScalar_unit hsurrogate.1 hsurrogate.2)
      (show SegmentReads [] [] from rfl)
    rw [pointUnits_unit, List.append_nil] at hpoint
    exact hpoint
  | case5 u v rest hunreserved ih =>
    obtain ⟨tail, htail, rfl⟩ := Option.map_eq_some_iff.mp h
    exact SegmentReads.unit (isUnreserved_ne_percent hunreserved) (ih htail)
  | case7 u v rest hunreserved hlow hhigh hpair =>
    rename_i ih
    obtain ⟨tail, htail, rfl⟩ := Option.map_eq_some_iff.mp h
    obtain ⟨hscalar, hunits⟩ := pointUnits_pair hhigh hpair
    have hpoint := SegmentReads.point hscalar (ih htail)
    rw [hunits] at hpoint
    exact hpoint
  | case9 u v rest hunreserved hlow hhigh ih =>
    obtain ⟨tail, htail, rfl⟩ := Option.map_eq_some_iff.mp h
    have hpoint := SegmentReads.point (isScalar_unit hhigh hlow) (ih htail)
    rw [pointUnits_unit] at hpoint
    exact hpoint

/-- **A segment reads back from its encoded text.** -/
theorem decodeURIComponent_encodeSegment {s segment : JsString}
    (h : encodeSegment s = some segment) : decodeURIComponent segment = some s := by
  obtain ⟨encoded, hencoded, rfl⟩ := Option.map_eq_some_iff.mp h
  exact segmentReads_of_encode hencoded

example : decodeURIComponent (js "%41@swamp%2Faws") = some (js "A@swamp/aws") := by
  decide +kernel

end Swamp
