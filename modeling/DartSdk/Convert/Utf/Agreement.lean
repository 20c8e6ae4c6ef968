import DartSdk.Convert.Utf.RoundTrip
import DartSdk.Vm.Unicode.RoundTrip

/-!
# The two UTF-8 codecs

The VM has a codec of its own, for the strings that come from and go to the embedder.  It agrees with
the converters of `dart:convert`, but for the byte order mark that these drop at the start.
-/

namespace DartSdk.Convert

open Unicode List Vm Vm.Utf8

/-- A byte order mark is one code unit, and no other code point begins with it. -/
theorem head_utf16Units {c : ℕ} (hc : c ≤ maxCodePoint) (rest : List UInt16) :
    (utf16Units c ++ rest).head? = some 0xFEFF ↔ c = UNICODE_BOM_CHARACTER_RUNE := by
  have hm (n : ℕ) (hn : n < 0x10000) : UInt16.ofNat n = 0xFEFF ↔ n = 0xFEFF := by
    rw [← UInt16.toNat_inj, UInt16.toNat_ofNat_of_lt' hn]
    rfl
  simp only [utf16Units, utf16, maxCodePoint, UNICODE_BOM_CHARACTER_RUNE] at hc ⊢
  split_ifs with h
  · simpa using hm c h
  · simp only [map_cons, cons_append, head?_cons, Option.some.injEq]
    rw [hm _ (by omega)]
    omega

/-- **The codecs agree**: they encode a string to the same bytes, and what `IsValid` accepts they
decode to the same code units, without a byte order mark in `dart:convert`. -/
theorem utf8_codecs_agree (allowMalformed : Bool) :
    (∀ (str : List UInt16) (buffer : List UInt8), Utf8.length str ≤ buffer.length →
      encode str buffer buffer.length =
        some (Utf8.length str, Utf8Encoder.convert str ++ buffer.drop (Utf8.length str))) ∧
    ∀ (bytes : List UInt8) (dst : List UInt16), isValid bytes bytes.length = some true →
      dst.length = (codeUnitCount bytes).1 → ∃ units,
        decodeToUTF16 bytes bytes.length dst (codeUnitCount bytes).1 = some (true, units) ∧
        Utf8Decoder.decode allowMalformed bytes =
          .ok (if units.head? = some 0xFEFF then units.tail else units) := by
  refine ⟨fun str buffer hbf => ?_, fun bytes dst hv hds => ?_⟩
  · obtain ⟨bytes, -, he, hb⟩ := encode_spec hbf
    have hs : bytes = Utf8Encoder.convert str :=
      List.map_injective_iff.mpr (fun _ _ => UInt8.toNat_inj.mp)
        (hb.trans (Utf8Encoder.map_convert str).symm)
    rw [he, hs]
  · obtain ⟨valid, hr, hw⟩ := isValid_spec bytes
    rw [hv] at hr
    obtain ⟨cs, hcs, hb⟩ := hw.mp (Option.some.inj hr).symm
    obtain ⟨valid', units, hd, -, hv', hu⟩ := decodeToUTF16_spec dst hds
    obtain rfl : valid' = true := hv'.mpr ⟨cs, hcs, hb⟩
    refine ⟨units, hd, ?_⟩
    rw [Utf8Decoder.decode_utf8 hcs hb, hu cs hcs hb]
    cases cs with
    | nil => rfl
    | cons c cs =>
      -- only the first code point can be the mark that is dropped
      have hm := head_utf16Units (hcs c mem_cons_self) (cs.flatMap utf16Units)
      rw [flatMap_cons, head?_cons]
      by_cases hc : c = UNICODE_BOM_CHARACTER_RUNE
      · rw [if_pos (hm.mpr hc), hc]
        rfl
      · rw [if_neg fun h => hc (hm.mp h), if_neg fun h => hc (Option.some.inj h)]
        rfl

/-- `é`, and a byte order mark before it. -/
theorem utf8_codecs_agree_mark :
    encode [0xE9] [0, 0, 7] 3 = some (2, Utf8Encoder.convert [0xE9] ++ [7]) ∧
      ∃ units, decodeToUTF16 [0xEF, 0xBB, 0xBF, 0xC3, 0xA9] 5 [0, 0] 2 = some (true, units) ∧
        Utf8Decoder.decode false [0xEF, 0xBB, 0xBF, 0xC3, 0xA9] =
          .ok (if units.head? = some 0xFEFF then units.tail else units) :=
  ⟨(utf8_codecs_agree false).1 [0xE9] [0, 0, 7] (by decide),
    (utf8_codecs_agree false).2 [0xEF, 0xBB, 0xBF, 0xC3, 0xA9] [0, 0] (by decide +kernel) (by decide)⟩

end DartSdk.Convert
