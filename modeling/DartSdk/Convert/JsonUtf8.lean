import DartSdk.Convert.JsonStringifier.RoundTrip
import DartSdk.Convert.Utf.RoundTrip

/-!
# JSON in UTF-8

A value is encoded to a text, which goes through the UTF-8 converters in whatever pieces and is decoded
again.  The decoder drops a byte order mark at the start, but no JSON text has one.
-/

namespace DartSdk.Convert

open JsonGrammar List

theorem IsInt.head_ne {ds : List ℕ} (h : IsInt ds) (rest : List ℕ) :
    (ds ++ rest).head? ≠ some 0xFEFF := by
  cases h with
  | zero => simp
  | digits hc _ _ =>
    intro h
    cases h
    exact absurd hc.2 (by decide)

theorem Derives.head_ne {v : Json} {text : List ℕ} (h : Derives (.value v) text) :
    text.head? ≠ some 0xFEFF := by
  cases h with
  | number h =>
    cases h with
    | nonneg h => simpa using IsInt.head_ne h []
    | neg => simp
    | double hm h =>
      rcases hm with rfl | rfl
      · rw [nil_append, append_assoc]
        exact IsInt.head_ne h _
      · simp
  | _ => simp

/-- **JSON survives UTF-8.**  What is written for a tree may be cut into strings and encoded, and the
bytes may be cut in another way and decoded: the text that comes out is parsed to the tree. -/
theorem json_utf8_roundTrip (heap : ℕ → HeapObject) (toEncodable : Value → Option Value)
    (indent : Option (List ℕ)) (hindent : ∀ s ∈ indent, Whitespace s) {v : Json} {object : Value}
    (h : Represents heap v object) :
    ∃ text, (∃ n, ∀ fuel ≥ n, JsonEncoder.stringify ⟨heap, toEncodable, indent⟩ fuel object = .ok text) ∧
      ∀ (strs : List (List UInt16)) (last : Option (List UInt16)),
        (strs.flatten ++ last.getD []).map UInt16.toNat = text →
        ∃ blocks, Utf8Encoder.encodeChunks none strs last = some blocks ∧
          ∀ (allowMalformed : Bool) (chunks : List (List UInt8)), chunks.flatten = blocks.flatten →
            ∃ s, Utf8Decoder.decodeChunks allowMalformed chunks = .ok s ∧
              parseJson (s.map UInt16.toNat) = .ok v := by
  have hd : Derives (.value v) (render indent 0 v) := render_derives hindent h
  refine ⟨render indent 0 v, ⟨sizeOf v, fun fuel hf => ?_⟩, fun strs last hs => ?_⟩
  · unfold JsonEncoder.stringify
    rw [writeObject_eq h hf (.inr rfl) (by simp)]
    rfl
  obtain ⟨blocks, he, hb⟩ :=
    Utf8Encoder.encodeChunks_spec (fun u (hu : u ∈ none) => by cases hu) strs last
  refine ⟨blocks, he, fun allowMalformed chunks hch => ⟨strs.flatten ++ last.getD [], ?_, ?_⟩⟩
  · have hc : blocks.flatten = Utf8Encoder.convert (strs.flatten ++ last.getD []) :=
      List.map_injective_iff.mpr (fun _ _ => UInt8.toNat_inj.mp)
        (hb.trans (Utf8Encoder.map_convert _).symm)
    rw [Utf8Decoder.decodeChunks_eq_decode, hch, hc]
    refine decode_convert allowMalformed fun hm => Derives.head_ne hd ?_
    rw [← hs, head?_map, hm]
    rfl
  · rw [hs]
    exact parseJson_of_denotes ⟨[], _, [], by simp, whitespace_nil, hd, whitespace_nil⟩

/-- An indented list with the string of a line feed and a character outside the BMP, which is cut. -/
def cutStrings : List (List UInt16) :=
  [[0x5B, 0x0A, 0x20, 0x22, 0x5C, 0x6E, 0xD83D], [0xDE00, 0x22, 0x0A, 0x5D]]

/-- Its bytes, with a cut inside the same character. -/
def cutBytes : List (List UInt8) :=
  [[0x5B, 0x0A, 0x20, 0x22, 0x5C, 0x6E, 0xF0, 0x9F], [0x98, 0x80, 0x22, 0x0A, 0x5D]]

theorem json_utf8_roundTrip_surrogates : ∃ blocks s,
    Utf8Encoder.encodeChunks none cutStrings none = some blocks ∧ cutBytes.flatten = blocks.flatten ∧
      Utf8Decoder.decodeChunks false cutBytes = .ok s ∧
      parseJson (s.map UInt16.toNat) = .ok (.list [.string [0x0A, 0xD83D, 0xDE00]]) := by
  have hi : ∀ s ∈ some [0x20], Whitespace s := by
    rintro _ ⟨⟩ c hc
    exact .inl (mem_singleton.mp hc)
  obtain ⟨text, ⟨n, ht⟩, hround⟩ := json_utf8_roundTrip
    (fun _ => .list [.string [0x0A, 0xD83D, 0xDE00]]) (fun _ => none) (some [0x20]) hi
    (show Represents _ _ (.object 0) from .list rfl (.cons (.string _) .nil))
  have hct : (cutStrings.flatten ++ (none : Option (List UInt16)).getD []).map UInt16.toNat = text :=
    Except.ok.inj ((ht (n + 3) (Nat.le_add_right n 3)).symm.trans rfl).symm
  obtain ⟨blocks, he, hd⟩ := hround cutStrings none hct
  have hb : (Utf8Encoder.encodeChunks none cutStrings none).map flatten = some cutBytes.flatten := by
    decide +kernel
  rw [he] at hb
  have hf := (Option.some.inj hb).symm
  obtain ⟨s, hs, hp⟩ := hd false cutBytes hf
  exact ⟨blocks, s, he, hf, hs, hp⟩

end DartSdk.Convert
