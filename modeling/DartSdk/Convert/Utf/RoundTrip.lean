import DartSdk.Convert.Utf.Decoding
import DartSdk.Convert.Utf.Encoding

/-!
# UTF-8 round trips of `dart:convert`

Unpaired surrogates are encoded in three bytes, and the decoder takes them back.  A byte order mark at
the start is encoded, but it is not decoded.

* `decode_convert`: decoding what is encoded;
* `utf8_converters`: **the round trip, and that neither converter depends on the chunks**.
-/

namespace DartSdk.Convert

open Unicode List Option

theorem head_codePoints {s : List UInt16} (hs : s.head? ≠ some 0xFEFF) :
    (codePoints (s.map UInt16.toNat)).head? ≠ some UNICODE_BOM_CHARACTER_RUNE := by
  have hun {u : UInt16} (hu : u.toNat = UNICODE_BOM_CHARACTER_RUNE) : u = 0xFEFF :=
    UInt16.toNat_inj.mp hu
  match s with
  | [] => exact nofun
  | [u] => exact fun h => hs (congrArg some (hun (some.inj h)))
  | u :: v :: s =>
    simp only [map_cons, codePoints]
    split_ifs with hp
    · intro h
      have hl : pair u.toNat v.toNat = UNICODE_BOM_CHARACTER_RUNE := some.inj h
      rw [pair, UNICODE_BOM_CHARACTER_RUNE] at hl
      omega
    · exact fun h => hs (congrArg some (hun (some.inj h)))

theorem decode_convert (allowMalformed : Bool) {s : List UInt16} (hs : s.head? ≠ some 0xFEFF) :
    Utf8Decoder.decode allowMalformed (Utf8Encoder.convert s) = .ok s := by
  have hlt : ∀ n ∈ s.map UInt16.toNat, n < 0x10000 := by
    intro n hn
    obtain ⟨u, -, rfl⟩ := List.mem_map.mp hn
    exact u.toNat_lt
  have hw : (codePoints (s.map UInt16.toNat)).flatMap writeCharCode =
      ((codePoints (s.map UInt16.toNat)).flatMap utf16).map UInt16.ofNat :=
    map_flatMap.symm
  have hu : (s.map UInt16.toNat).map UInt16.ofNat = s := by
    rw [List.map_map]
    exact (map_congr_left fun u _ => UInt16.ofNat_toNat).trans (List.map_id s)
  rw [Utf8Decoder.decode_utf8 (codePoints_le hlt) (Utf8Encoder.map_convert s),
    if_neg (head_codePoints hs), hw, flatMap_utf16_codePoints hlt, hu]

/-- **The round trip, and that neither converter depends on the chunks.**  The encoder may be closed
after the last string, or be told that it is the last one. -/
theorem utf8_converters :
    (∀ (allowMalformed : Bool) (s : List UInt16), s.head? ≠ some 0xFEFF →
      Utf8Decoder.decode allowMalformed (Utf8Encoder.convert s) = .ok s) ∧
    (∀ (allowMalformed : Bool) (chunks : List (List UInt8)),
      Utf8Decoder.decodeChunks allowMalformed chunks =
        Utf8Decoder.decode allowMalformed chunks.flatten) ∧
    ∀ (strs : List (List UInt16)) (last : Option (List UInt16)),
      ∃ blocks, Utf8Encoder.encodeChunks none strs last = some blocks ∧
        blocks.flatten = Utf8Encoder.convert (strs.flatten ++ last.getD []) := by
  refine ⟨fun allowMalformed _ hs => decode_convert allowMalformed hs,
    Utf8Decoder.decodeChunks_eq_decode, fun strs last => ?_⟩
  obtain ⟨blocks, he, hb⟩ :=
    Utf8Encoder.encodeChunks_spec (fun u (hu : u ∈ none) => nomatch hu) strs last
  refine ⟨blocks, he, List.map_injective_iff.mpr (fun _ _ => UInt8.toNat_inj.mp) ?_⟩
  rw [hb, Utf8Encoder.map_convert]
  rfl

theorem utf8_converters_surrogates :
    Utf8Decoder.decode false (Utf8Encoder.convert [0xDC00, 0xD800, 0x41, 0xD83D, 0xDE00, 0xD83D]) =
        .ok [0xDC00, 0xD800, 0x41, 0xD83D, 0xDE00, 0xD83D] ∧
      ∃ blocks, Utf8Encoder.encodeChunks none [[0xD83D], [], [0xDE00, 0xD83D]] none = some blocks ∧
        blocks.flatten = Utf8Encoder.convert [0xD83D, 0xDE00, 0xD83D] :=
  ⟨utf8_converters.1 false _ (by decide), utf8_converters.2.2 [[0xD83D], [], [0xDE00, 0xD83D]] none⟩

end DartSdk.Convert
