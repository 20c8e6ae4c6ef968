import DartSdk.Vm.Unicode.Decoding

/-!
# UTF-8 round trips

* `toList_start`: the iterator goes through the code points of a string;
* `encode_spec`: `Encode` stores their shortest forms, as many bytes as `Length` says;
* `utf8_roundTrip`: **decoding what is encoded gives the string back**, also if surrogates are
  unpaired.
-/

namespace DartSdk.Vm

open Unicode List Option

section Iterator

variable {str : List UInt16} {ch x : ℕ}

theorem and_surrogateMask (h : ch < 0x10000) : ch &&& 0xFFFFFC00 = ch / 1024 * 1024 := by
  have hd : (ch &&& 0xFFFFFC00) / 2 ^ 10 = ch / 2 ^ 10 &&& (2 ^ 22 - 1) := Nat.and_div_two_pow
  have hm : (ch &&& 0xFFFFFC00) % 2 ^ 10 = ch % 2 ^ 10 &&& 0 := Nat.and_mod_two_pow
  rw [Nat.and_two_pow_sub_one_eq_mod] at hd
  rw [Nat.and_zero] at hm
  omega

theorem isLeadSurrogate_iff (h : ch < 0x10000) : Utf16.isLeadSurrogate ch ↔ IsLead ch := by
  rw [Utf16.isLeadSurrogate, decide_eq_true_iff, and_surrogateMask h, IsLead]
  omega

theorem isTrailSurrogate_iff (h : ch < 0x10000) :
    Utf16.isTrailSurrogate ch ↔ IsTrail ch := by
  rw [Utf16.isTrailSurrogate, decide_eq_true_iff, and_surrogateMask h, IsTrail]
  omega

theorem decode_eq_pair (lead trail : ℕ) : Utf16.decode lead trail = pair lead trail := by
  have ha (x : ℕ) : x &&& 0x3FF = x % 1024 := Nat.and_two_pow_sub_one_eq_mod x 10
  rw [Utf16.decode, ha, ha, Nat.shiftLeft_eq, pair]

namespace CodePointIterator

/-- One step of an iterator that has the code units before index `k` behind it. -/
theorem next_eq {k : ℕ} {it : CodePointIterator} (hk : it.index + Utf16.length it.ch = k) :
    it.next str =
      if k < str.length then
        if IsLead (str.getD k 0).toNat ∧ k + 1 < str.length ∧ IsTrail (str.getD (k + 1) 0).toNat then
          some ⟨pair (str.getD k 0).toNat (str.getD (k + 1) 0).toNat, k⟩
        else some ⟨(str.getD k 0).toNat, k⟩
      else none := by
  have hlt (u : UInt16) : u.toNat < 0x10000 := u.toNat_lt
  rw [next, hk]
  simp only [Int.toNat_natCast, decode_eq_pair]
  refine if_congr (by omega) (if_congr ?_ rfl rfl) rfl
  rw [isLeadSurrogate_iff (hlt _), isTrailSurrogate_iff (hlt _)]
  refine and_congr_right fun _ => and_congr_left fun _ => ?_
  omega

theorem toList_eq {fuel k : ℕ} {it : CodePointIterator} (hk : it.index + Utf16.length it.ch = k)
    (hf : str.length - k ≤ fuel) :
    toList str fuel it = codePoints ((str.drop k).map UInt16.toNat) := by
  induction fuel generalizing k it with
  | zero =>
    rw [drop_of_length_le (by omega)]
    rfl
  | succ fuel ih =>
    rw [toList, next_eq hk]
    by_cases hlt : k < str.length
    · have hu (u : UInt16) : Utf16.length u.toNat = 1 := if_pos (Nat.le_of_lt_succ u.toNat_lt)
      have hg : str.getD k 0 = str[k] := by simp [hlt]
      rw [if_pos hlt, drop_eq_getElem_cons hlt, hg, map_cons]
      by_cases hlt' : k + 1 < str.length
      · have hg' : str.getD (k + 1) 0 = str[k + 1] := by simp [hlt']
        rw [drop_eq_getElem_cons hlt', hg', map_cons, codePoints]
        by_cases hp : IsLead str[k].toNat ∧ IsTrail str[k + 1].toNat
        · have ht : Utf16.length (pair str[k].toNat str[k + 1].toNat) = 2 := by
            rw [Utf16.length, Utf16.kMaxCodeUnit, pair, if_neg (by omega)]
          rw [if_pos ⟨hp.1, hlt', hp.2⟩, if_pos hp]
          refine congrArg (_ :: ·) (ih ?_ (by omega))
          rw [ht]
          rfl
        · rw [if_neg fun h => hp ⟨h.1, h.2.2⟩, if_neg hp, ← map_cons,
            ← drop_eq_getElem_cons hlt']
          refine congrArg (_ :: ·) (ih ?_ (by omega))
          rw [hu]
          rfl
      · rw [if_neg (by omega), drop_of_length_le (by omega)]
        refine congrArg (_ :: ·) ((ih (k := k + 1) ?_ (by omega)).trans ?_)
        · rw [hu]
          rfl
        · rw [drop_of_length_le (by omega)]
          rfl
    · rw [if_neg hlt, drop_of_length_le (by omega)]
      rfl

theorem toList_start (str : List UInt16) :
    toList str str.length start = codePoints (str.map UInt16.toNat) :=
  toList_eq (k := 0) rfl (by omega)

end CodePointIterator

end Iterator

section Encoding

namespace Utf8

variable {str : List UInt16} {c x : ℕ} {chs : List ℕ}

theorem toNat_trail (x : ℕ) : (UInt8.ofNat (0x80 ||| (x &&& kMask))).toNat = 0x80 + x % 64 := by
  have hb : ∀ y < 256, 0x80 ||| (y &&& 0xBF) = 0x80 + y % 64 := by decide +kernel
  have hm : (0x80 ||| (x &&& kMask)) % 2 ^ 8 = 0x80 ||| (x % 2 ^ 8 &&& 0xBF) := by
    rw [Nat.or_mod_two_pow, Nat.and_mod_two_pow]
    rfl
  have hby : x % 2 ^ 8 < 256 := Nat.mod_lt x (by decide)
  rw [UInt8.toNat_ofNat', hm, hb (x % 2 ^ 8) hby, Nat.mod_mod_of_dvd x (by decide)]

theorem map_encodeChar (hc : c ≤ maxCodePoint) : (encodeChar c).map UInt8.toNat = utf8 c := by
  rw [maxCodePoint] at hc
  have h2 : ∀ y < 32, (0xC0 ||| y) % 2 ^ 8 = 0xC0 + y := by decide
  have h3 : ∀ y < 16, (0xE0 ||| y) % 2 ^ 8 = 0xE0 + y := by decide
  have h4 : ∀ y < 8, (0xF0 ||| y) % 2 ^ 8 = 0xF0 + y := by decide
  rw [encodeChar, kMaxOneByteChar, kMaxTwoByteChar, kMaxThreeByteChar]
  simp only [Nat.shiftRight_eq_div_pow]
  rcases utf8_cases c with ⟨h, he⟩ | ⟨h, h', he⟩ | ⟨h, h', he⟩ | ⟨h, he⟩
  · rw [if_pos (by omega), he]
    simp
    omega
  · rw [if_neg (by omega), if_pos (by omega), he]
    simp only [map_cons, map_nil, toNat_trail]
    rw [toNat_lead h2 (by omega)]
  · rw [if_neg (by omega), if_neg (by omega), if_pos (by omega), he]
    simp only [map_cons, map_nil, toNat_trail]
    rw [toNat_lead h3 (by omega)]
  · rw [if_neg (by omega), if_neg (by omega), if_neg (by omega), he]
    simp only [map_cons, map_nil, toNat_trail]
    rw [toNat_lead h4 (by omega)]

theorem length_encodeChar : (encodeChar c).length = charLength c := by
  rw [encodeChar, charLength]
  split_ifs <;> rfl

theorem foldl_charLength (n : ℕ) : chs.foldl (fun length ch => length + charLength ch) n =
    n + (chs.flatMap encodeChar).length := by
  induction chs generalizing n with
  | nil => rfl
  | cons ch chs ih =>
    rw [foldl_cons, ih, flatMap_cons, length_append, length_encodeChar, Nat.add_assoc]

theorem encodeFrom_spec (done rest : List UInt8)
    (h : (chs.flatMap encodeChar).length ≤ rest.length) :
    encodeFrom (done ++ rest).length chs done.length (done ++ rest) =
      some (done.length + (chs.flatMap encodeChar).length,
        done ++ chs.flatMap encodeChar ++ rest.drop (chs.flatMap encodeChar).length) := by
  induction chs generalizing done rest with
  | nil => simp [encodeFrom]
  | cons ch chs ih =>
    rw [flatMap_cons, length_append] at h
    have hd : (chs.flatMap encodeChar).length ≤ (rest.drop (encodeChar ch).length).length := by
      rw [length_drop]
      omega
    have hl : (done ++ encodeChar ch ++ rest.drop (encodeChar ch).length).length =
        (done ++ rest).length := by
      simp only [length_append, length_drop]
      omega
    have hr := ih (done ++ encodeChar ch) (rest.drop (encodeChar ch).length) hd
    rw [hl] at hr
    simp only [length_append] at hr
    simp only [encodeFrom, ← length_encodeChar, flatMap_cons, length_append]
    rw [if_neg (by omega), writeAll_append (by omega), bind_some, hr, drop_drop,
      Nat.add_assoc, append_assoc done]

theorem lt_of_mem_toNat (str : List UInt16) : ∀ u ∈ str.map UInt16.toNat, u < 0x10000 := by
  intro u hu
  obtain ⟨v, -, rfl⟩ := List.mem_map.mp hu
  exact v.toNat_lt

/-- `Encode` stores the shortest forms of the code points, as many bytes as `Length` says. -/
theorem encode_spec {dst : List UInt8} (h : length str ≤ dst.length) :
    ∃ bytes : List UInt8, bytes.length = length str ∧
      encode str dst dst.length = some (length str, bytes ++ dst.drop (length str)) ∧
      bytes.map UInt8.toNat = (codePoints (str.map UInt16.toNat)).flatMap utf8 := by
  have hlt := lt_of_mem_toNat str
  have hl : length str = ((codePoints (str.map UInt16.toNat)).flatMap encodeChar).length := by
    rw [length, CodePointIterator.toList_start, foldl_charLength, Nat.zero_add]
  refine ⟨(codePoints (str.map UInt16.toNat)).flatMap encodeChar, hl.symm, ?_, ?_⟩
  · have hr := encodeFrom_spec [] dst (hl ▸ h)
    rw [← hl] at hr
    rw [encode, CodePointIterator.toList_start]
    simpa using hr
  · rw [map_flatMap]
    exact flatMap_congr fun c hc => map_encodeChar (codePoints_le hlt c hc)

end Utf8

end Encoding

section RoundTrip

namespace Utf8

variable {utf8Array : List UInt8} {str : List UInt16} {cs : List ℕ}

theorem flatMap_utf16Units (h : cs.flatMap utf16 = str.map UInt16.toNat) :
    cs.flatMap utf16Units = str := by
  have hm : cs.flatMap utf16Units = (cs.flatMap utf16).map UInt16.ofNat := map_flatMap.symm
  rw [hm, h, List.map_map]
  refine (map_congr_left fun u _ => ?_).trans (List.map_id str)
  exact UInt16.ofNat_toNat

theorem le_of_latin1 (hk : (codeUnitCount utf8Array).2 = .latin1)
    (hcs : ∀ c ∈ cs, c ≤ maxCodePoint) (h : utf8Array.map UInt8.toNat = cs.flatMap utf8) :
    ∀ c ∈ cs, c ≤ 0xFF := by
  intro c hc
  obtain ⟨b, l, hb, hld, -, hl1⟩ := utf8_eq_cons (hcs c hc)
  have hm : b ∈ utf8Array.map UInt8.toNat := by
    rw [h, mem_flatMap]
    exact ⟨c, hc, hb ▸ mem_cons_self⟩
  obtain ⟨u, hu, rfl⟩ := List.mem_map.mp hm
  exact hl1.mp ((le_of_eq_latin1 hk u hu).resolve_left hld)

/-- **UTF-8 round trips.**  `Encode` stores as many bytes as `Length` says, and decoding them gives
the code units back. -/
theorem utf8_roundTrip (str : List UInt16) (buffer : List UInt8)
    (hbuffer : length str ≤ buffer.length) :
    ∃ bytes : List UInt8, bytes.length = length str ∧
      encode str buffer buffer.length = some (length str, bytes ++ buffer.drop (length str)) ∧
      (∀ dst : List UInt16, dst.length = (codeUnitCount bytes).1 →
        decodeToUTF16 bytes bytes.length dst (codeUnitCount bytes).1 = some (true, str)) ∧
      ((codeUnitCount bytes).2 = .latin1 →
        ∀ dst : List UInt8, dst.length = (codeUnitCount bytes).1 →
          ∃ units : List UInt8, units.map UInt8.toNat = str.map UInt16.toNat ∧
            decodeToLatin1 bytes bytes.length dst (codeUnitCount bytes).1 = some (true, units)) := by
  have hlt := lt_of_mem_toNat str
  have hcs := codePoints_le hlt
  have hbc := flatMap_utf16_codePoints hlt
  obtain ⟨bytes, hl, hr, hb⟩ := encode_spec hbuffer
  refine ⟨bytes, hl, hr, fun dst hds => ?_, fun hk dst hds => ?_⟩
  · obtain ⟨valid, dst', hd, -, hv, hu⟩ := decodeToUTF16_spec dst hds
    obtain rfl : valid = true := hv.mpr ⟨_, hcs, hb⟩
    refine hd.trans ?_
    rw [hu _ hcs hb, flatMap_utf16Units hbc]
  · obtain ⟨valid, dst', hd, -, hv, hu⟩ := decodeToLatin1_spec (by simp [hk]) dst hds
    obtain rfl : valid = true := hv.mpr ⟨_, hcs, hb⟩
    have hle := le_of_latin1 hk hcs hb
    refine ⟨dst', ?_, hd⟩
    rw [hu _ hcs hb, map_flatMap]
    refine (flatMap_congr fun c hc => ?_).trans hbc
    have := hle c hc
    rw [utf16, if_pos (by omega)]
    simp
    omega

theorem utf8_roundTrip_unpaired : ∃ bytes : List UInt8,
    bytes.length = 10 ∧ ∀ dst : List UInt16, dst.length = (codeUnitCount bytes).1 →
      decodeToUTF16 bytes bytes.length dst (codeUnitCount bytes).1 =
        some (true, [0xDC00, 0xD800, 0xDC00, 0xD800]) := by
  obtain ⟨bytes, hl, -, hd, -⟩ :=
    utf8_roundTrip [0xDC00, 0xD800, 0xDC00, 0xD800] (List.replicate 10 0) (by decide)
  exact ⟨bytes, hl, hd⟩

end Utf8

end RoundTrip

end DartSdk.Vm
