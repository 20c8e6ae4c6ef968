import DartSdk.Vm.Unicode

/-!
# Decoding UTF-8

* `readSequence_sound`, `readSequence_complete`: the sequences that are read are the shortest forms;
* `isValid_spec`: `IsValid` accepts sequences of them;
* `decodeFrom_spec`: the loop of the decoders stores as many units as `CodeUnitCount` counts;
* `decode_fills`: **decoding stays within its buffers, and it succeeds for what `IsValid` accepts.**
-/

namespace DartSdk.Vm

open Unicode List Option

section Sequences

namespace Utf8

variable {utf8Array rest : List UInt8} {b : UInt8} {arrayLen len n i c k ch : ℕ} {isMalformed : Bool}

theorem kTrailBytes_getD : ∀ b < 256, kTrailBytes.getD b 0 =
    if b < 0x80 then 1 else if b < 0xC0 then 0 else if b < 0xE0 then 2 else if b < 0xF0 then 3
    else if b < 0xF8 then 4 else if b < 0xFC then 5 else if b < 0xFE then 6 else 0 := by
  decide +kernel

theorem isTrailByte_iff : isTrailByte b ↔ b.toNat / 64 = 2 := by
  have hb : ∀ n < 256, n &&& 0xC0 = 0x80 ↔ n / 64 = 2 := by decide +kernel
  rw [isTrailByte, decide_eq_true_iff]
  exact hb b.toNat b.toNat_lt

/-- The sequence at an index is the one at the start of the rest of the array. -/
theorem readTrailBytes_drop : readTrailBytes (utf8Array.drop i) (arrayLen - i) n len ch isMalformed =
    readTrailBytes utf8Array arrayLen n (i + len) ch isMalformed := by
  induction n generalizing len ch isMalformed with
  | zero => rfl
  | succ n ih =>
    rw [readTrailBytes, readTrailBytes, getElem?_drop]
    simp only [ih, Nat.lt_sub_iff_add_lt', Nat.add_assoc]

theorem readSequence_drop : readSequence (utf8Array.drop i) (arrayLen - i) 0 =
    readSequence utf8Array arrayLen i := by
  rw [readSequence, readSequence, getElem?_drop]
  simp only [readMultibyte, readTrailBytes_drop, Nat.add_zero, Nat.zero_add]

theorem readTrailBytes_isSome (hl : arrayLen ≤ utf8Array.length) :
    ∃ read, readTrailBytes utf8Array arrayLen n i ch isMalformed = some read := by
  induction n generalizing i ch isMalformed with
  | zero => exact ⟨_, rfl⟩
  | succ n ih =>
    rw [readTrailBytes]
    by_cases hi : i < arrayLen
    · rw [if_pos hi, getElem?_eq_getElem (by omega)]
      exact ih
    · exact ⟨none, if_neg hi⟩

theorem readSequence_isSome (hi : i < arrayLen) (hl : arrayLen ≤ utf8Array.length) :
    ∃ read, readSequence utf8Array arrayLen i = some read := by
  rw [readSequence, getElem?_eq_getElem (by omega), bind_some]
  split_ifs
  · obtain ⟨read, hread⟩ : ∃ read, readTrailBytes utf8Array arrayLen
        (kTrailBytes.getD utf8Array[i].toNat 0 - 1) (i + 1) utf8Array[i].toNat false = some read :=
      readTrailBytes_isSome hl
    exact ⟨_, congrArg (Option.map _) hread⟩
  · exact ⟨_, rfl⟩

/-- The character that the loop over the trail bytes puts together. -/
def addTrailByte (ch : ℕ) (codeUnit : UInt8) : ℕ := (ch <<< 6 + codeUnit.toNat) % 2 ^ 32

theorem readTrailBytes_eq (hi : i ≤ utf8Array.length) :
    readTrailBytes utf8Array utf8Array.length n i ch isMalformed =
      if i + n ≤ utf8Array.length then
        some (some (((utf8Array.drop i).take n).foldl addTrailByte ch,
          isMalformed || ((utf8Array.drop i).take n).any (!isTrailByte ·)))
      else some none := by
  induction n generalizing i ch isMalformed with
  | zero =>
    rw [if_pos (show i + 0 ≤ utf8Array.length from hi)]
    simp [readTrailBytes]
  | succ n ih =>
    rw [readTrailBytes]
    by_cases hlt : i < utf8Array.length
    · rw [if_pos hlt, getElem?_eq_getElem hlt, bind_some, ih hlt,
        drop_eq_getElem_cons hlt, take_succ_cons, foldl_cons, any_cons,
        Bool.or_assoc]
      exact if_congr (by omega) rfl rfl
    · rw [if_neg hlt, if_neg (by omega)]

theorem checkSequence_iff : checkSequence n ch isMalformed = some (c, k) ↔
    isMalformed = false ∧ 1 ≤ n ∧ k = n ∧ (ch + 2 ^ 32 - kMagicBits.getD n 0) % 2 ^ 32 = c ∧
      c ≤ maxCodePoint ∧ kOverlongMinimum.getD n 0 ≤ c := by
  rw [checkSequence]
  constructor
  · intro h
    split_ifs at h with hc
    obtain ⟨h1, h2, h3, h4⟩ := hc
    obtain ⟨rfl, rfl⟩ := h
    rw [h2] at h4
    exact ⟨h1, by omega, h2, rfl, by simpa [isOutOfRange] using h3,
      by simpa [isNonShortestForm] using h4⟩
  · rintro ⟨rfl, hn, rfl, rfl, hmax, hmin⟩
    have ho : max 1 k = k := by omega
    rw [ho]
    exact if_pos ⟨rfl, rfl, by simpa [isOutOfRange] using hmax, by simpa [isNonShortestForm] using hmin⟩

theorem readSequence_cons (hb : 0x80 ≤ b.toNat) :
    readSequence (b :: rest) (b :: rest).length 0 = some (some (c, k)) ↔
      ∃ ts l, rest = ts ++ l ∧ (∀ t ∈ ts, t.toNat / 64 = 2) ∧ k = ts.length + 1 ∧
        kTrailBytes.getD b.toNat 0 = k ∧
        (ts.foldl addTrailByte b.toNat + 2 ^ 32 - kMagicBits.getD k 0) % 2 ^ 32 = c ∧
        c ≤ maxCodePoint ∧ kOverlongMinimum.getD k 0 ≤ c := by
  rw [readSequence, getElem?_cons_zero, bind_some, if_pos hb, readMultibyte,
    readTrailBytes_eq (by simp)]
  generalize kTrailBytes.getD b.toNat 0 = n
  constructor
  · intro h
    split_ifs at h with hl
    · obtain ⟨hm, hps, rfl, hc⟩ := checkSequence_iff.mp (some.inj h)
      refine ⟨rest.take (k - 1), rest.drop (k - 1), (take_append_drop _ _).symm, ?_, ?_, rfl, hc⟩
      · simpa [isTrailByte_iff] using hm
      · rw [length_cons] at hl
        rw [length_take]
        omega
    · cases some.inj h
  · rintro ⟨ts, l, rfl, hts, rfl, rfl, hc⟩
    rw [if_pos (by simp; omega)]
    have ht : ((b :: (ts ++ l)).drop (0 + 1)).take (ts.length + 1 - 1) = ts := by simp
    rw [ht]
    refine congrArg some (checkSequence_iff.mpr ⟨?_, by omega, rfl, hc⟩)
    simpa [isTrailByte_iff] using hts

theorem readSequence_sound
    (h : readSequence utf8Array utf8Array.length 0 = some (some (c, k))) :
    c ≤ maxCodePoint ∧ k = (utf8 c).length ∧
      utf8Array.map UInt8.toNat = utf8 c ++ (utf8Array.drop k).map UInt8.toNat := by
  cases utf8Array with
  | nil => cases h
  | cons b rest =>
    by_cases hone : 0x80 ≤ b.toNat
    · obtain ⟨ts, l, rfl, hts, hk, hn, hc, hmx, hm⟩ := (readSequence_cons hone).mp h
      refine ⟨hmx, ?_⟩
      rw [maxCodePoint] at hmx
      rw [kTrailBytes_getD _ b.toNat_lt, if_neg (by omega)] at hn
      split_ifs at hn with h0 h2 h3 h4 h5 h6 <;> subst hn
      · omega
      · obtain ⟨t, rfl⟩ := length_eq_one_iff.mp (Nat.succ.inj hk).symm
        simp [addTrailByte, kMagicBits, kOverlongMinimum, Nat.shiftLeft_eq] at hts hc hm
        rw [utf8_two hm (by omega)]
        simp
        omega
      · obtain ⟨t, t', rfl⟩ := length_eq_two.mp (Nat.succ.inj hk).symm
        simp [addTrailByte, kMagicBits, kOverlongMinimum, Nat.shiftLeft_eq] at hts hc hm
        rw [utf8_three hm (by omega)]
        simp
        omega
      · obtain ⟨t, t', t'', rfl⟩ := length_eq_three.mp (Nat.succ.inj hk).symm
        simp [addTrailByte, kMagicBits, kOverlongMinimum, Nat.shiftLeft_eq] at hts hc hm
        rw [utf8_four hm]
        simp
        omega
      · simp [kOverlongMinimum] at hm
        omega
      · simp [kOverlongMinimum] at hm
        omega
      · omega
    · rw [readSequence, getElem?_cons_zero, bind_some, if_neg hone] at h
      cases h
      rw [utf8_one (by omega), maxCodePoint]
      exact ⟨by omega, rfl, rfl⟩

theorem readSequence_complete {l : List ℕ} (hc : c ≤ maxCodePoint)
    (h : utf8Array.map UInt8.toNat = utf8 c ++ l) :
    readSequence utf8Array utf8Array.length 0 = some (some (c, (utf8 c).length)) := by
  have hm := hc
  rw [maxCodePoint] at hm
  rcases utf8_cases c with ⟨h1, he⟩ | ⟨h1, h2, he⟩ | ⟨h1, h2, he⟩ | ⟨h1, he⟩ <;>
    rw [he, cons_append] at h <;> rw [he] <;>
    obtain ⟨b, rest, rfl, hb, hr⟩ := map_eq_cons_iff.mp h
  · rw [readSequence, getElem?_cons_zero, bind_some, if_neg (by omega), hb]
    rfl
  all_goals
    refine (readSequence_cons (by omega)).mpr ?_
    have hn := kTrailBytes_getD _ b.toNat_lt
  · obtain ⟨t, rest, rfl, ht, -⟩ := map_eq_cons_iff.mp hr
    refine ⟨[t], rest, rfl, ?_, rfl, ?_, ?_, hc, h1⟩
    · simp
      omega
    · rw [hn]
      split_ifs <;> first | rfl | omega
    · simp [addTrailByte, kMagicBits, Nat.shiftLeft_eq]
      omega
  · obtain ⟨t, rest, rfl, ht, hr⟩ := map_eq_cons_iff.mp hr
    obtain ⟨t', rest, rfl, ht', -⟩ := map_eq_cons_iff.mp hr
    refine ⟨[t, t'], rest, rfl, ?_, rfl, ?_, ?_, hc, h1⟩
    · simp
      omega
    · rw [hn]
      split_ifs <;> first | rfl | omega
    · simp [addTrailByte, kMagicBits, Nat.shiftLeft_eq]
      omega
  · obtain ⟨t, rest, rfl, ht, hr⟩ := map_eq_cons_iff.mp hr
    obtain ⟨t', rest, rfl, ht', hr⟩ := map_eq_cons_iff.mp hr
    obtain ⟨t'', rest, rfl, ht'', -⟩ := map_eq_cons_iff.mp hr
    refine ⟨[t, t', t''], rest, rfl, ?_, rfl, ?_, ?_, hc, h1⟩
    · simp
      omega
    · rw [hn]
      split_ifs <;> first | rfl | omega
    · simp [addTrailByte, kMagicBits, Nat.shiftLeft_eq]
      omega

def bytesFrom (utf8Array : List UInt8) (i : ℕ) : List ℕ := (utf8Array.drop i).map UInt8.toNat

theorem readSequence_cases (hi : i < utf8Array.length) :
    (readSequence utf8Array utf8Array.length i = some none ∧
      ¬WellFormed (bytesFrom utf8Array i)) ∨
    ∃ c, c ≤ maxCodePoint ∧ i + (utf8 c).length ≤ utf8Array.length ∧
      readSequence utf8Array utf8Array.length i = some (some (c, (utf8 c).length)) ∧
      bytesFrom utf8Array i = utf8 c ++ bytesFrom utf8Array (i + (utf8 c).length) := by
  have hd : readSequence (utf8Array.drop i) (utf8Array.drop i).length 0 =
      readSequence utf8Array utf8Array.length i := by
    rw [length_drop, readSequence_drop]
  have hne : bytesFrom utf8Array i ≠ [] := by
    simpa [bytesFrom] using hi
  obtain ⟨read, hr⟩ := readSequence_isSome hi (Nat.le_refl _)
  rw [hr] at hd
  cases read with
  | none =>
    refine .inl ⟨hr, fun hw => ?_⟩
    obtain ⟨c, l, hc, hl⟩ := hw.head hne
    rw [readSequence_complete hc hl] at hd
    cases some.inj hd
  | some p =>
    obtain ⟨c, k⟩ := p
    obtain ⟨hc, rfl, hm⟩ := readSequence_sound hd
    rw [drop_drop] at hm
    refine .inr ⟨c, hc, ?_, hr, hm⟩
    have hln := congrArg List.length hm
    simp at hln
    omega

end Utf8

end Sequences

section Validity

namespace Utf8

variable {utf8Array : List UInt8} {fuel i c : ℕ}

theorem isValidFrom_spec (hi : i ≤ utf8Array.length) (hf : utf8Array.length - i < fuel) :
    ∃ valid, isValidFrom utf8Array utf8Array.length fuel i = some valid ∧
      (valid = true ↔ WellFormed (bytesFrom utf8Array i)) := by
  -- every round reads at least one byte
  induction fuel generalizing i with
  | zero => exact absurd hf (Nat.not_lt_zero _)
  | succ fuel ih =>
    rw [isValidFrom]
    by_cases hlt : i < utf8Array.length
    · rw [if_pos hlt]
      rcases readSequence_cases hlt with ⟨hr, hn⟩ | ⟨c, hc, hle, hr, hmap⟩
      · rw [hr]
        exact ⟨false, rfl, by simpa using hn⟩
      · have hps := length_pos_of_ne_nil (utf8_ne_nil (c := c))
        rw [hr, hmap, wellFormed_append hc]
        exact ih hle (by omega)
    · rw [if_neg hlt, bytesFrom, drop_of_length_le (by omega)]
      exact ⟨true, rfl, fun _ => wellFormed_nil, fun _ => rfl⟩

/-- `IsValid` reads no byte outside of the array and accepts the shortest forms. -/
theorem isValid_spec (utf8Array : List UInt8) :
    ∃ valid, isValid utf8Array utf8Array.length = some valid ∧
      (valid = true ↔ WellFormed (utf8Array.map UInt8.toNat)) :=
  isValidFrom_spec (Nat.zero_le _) (by omega)

end Utf8

end Validity

section Decoding

section

variable {α : Type} {done rest values : List α}

theorem writeAll_append (h : values.length ≤ rest.length) :
    writeAll (done ++ rest) done.length values =
      some (done ++ values ++ rest.drop values.length) := by
  induction values generalizing done rest with
  | nil => simp [writeAll]
  | cons value values ih =>
    cases rest with
    | nil => exact absurd h (Nat.not_succ_le_zero _)
    | cons x rest =>
      have hs : write (done ++ x :: rest) done.length value = some ((done ++ [value]) ++ rest) := by
        rw [write, if_pos (by simp)]
        simp
      have hl : done.length + 1 = (done ++ [value]).length := by simp
      rw [writeAll, hs, bind_some, hl, ih (Nat.le_of_succ_le_succ h)]
      simp

end

namespace Utf8

variable {utf8Array : List UInt8} {fuel i c : ℕ}

theorem weight_toNat (b : UInt8) : weight b.toNat =
    if isTrailByte b then 0 else if isSupplementarySequenceStart b then 2 else 1 := by
  rw [weight]
  refine if_congr isTrailByte_iff.symm rfl (if_congr ?_ rfl rfl)
  simp [isSupplementarySequenceStart]

theorem countCodeUnit_fst (acc : ℕ × Kind) (b : UInt8) :
    (countCodeUnit acc b).1 = acc.1 + weight b.toNat := by
  rw [weight_toNat, countCodeUnit]
  split_ifs with h1 h2 h3 h3
  · rfl
  · simp [isLatin1SequenceStart, isSupplementarySequenceStart] at h2 h3
    omega
  · rfl
  · rfl
  · rfl
  · rfl

theorem codeUnitCount_fst (utf8Array : List UInt8) :
    (codeUnitCount utf8Array).1 = ((utf8Array.map UInt8.toNat).map weight).sum := by
  have hf (acc : ℕ × Kind) : (utf8Array.foldl countCodeUnit acc).1 =
      acc.1 + ((utf8Array.map UInt8.toNat).map weight).sum := by
    induction utf8Array generalizing acc with
    | nil => rfl
    | cons b utf8Array ih =>
      rw [foldl_cons, ih, countCodeUnit_fst]
      simp [Nat.add_assoc]
  rw [codeUnitCount, hf]
  exact Nat.zero_add _

theorem decode_drop {arrayLen : ℕ} : decode (utf8Array.drop i) (arrayLen - i) =
    (readSequence utf8Array arrayLen i).map decodeResult := by
  rw [decode, readSequence_drop]

section Loop

/-- A decoder of the bytes `l` into a buffer of `len` units reports whether they are the shortest forms
of code points, and then stores their units. -/
def Decodes {α : Type} (decodeTo : List α → Option (Bool × List α)) (len : ℕ) (l : List ℕ)
    (units : ℕ → List α) : Prop :=
  ∀ dst, dst.length = len → ∃ valid dst', decodeTo dst = some (valid, dst') ∧ dst'.length = len ∧
    (valid = true ↔ WellFormed l) ∧
    ∀ cs : List ℕ, (∀ c ∈ cs, c ≤ maxCodePoint) → l = cs.flatMap utf8 → dst' = cs.flatMap units

variable {α : Type} {put : UInt8 → ℕ → List α} {units : ℕ → List α}
  (hp : ∀ i c, c ≤ maxCodePoint → (h : i < utf8Array.length) →
    bytesFrom utf8Array i = utf8 c ++ bytesFrom utf8Array (i + (utf8 c).length) →
    put utf8Array[i] c = units c ∧ (units c).length = ((utf8 c).map weight).sum)

include hp

/-- The loop over the sequences.  The units that are stored are as many as the weights of the bytes
that are read, so that there is room for them. -/
theorem decodeFrom_spec (done rest : List α) (hi : i ≤ utf8Array.length)
    (hf : utf8Array.length - i < fuel)
    (hr : rest.length = ((bytesFrom utf8Array i).map weight).sum) :
    ∃ valid dst', decodeFrom put utf8Array utf8Array.length (done ++ rest).length fuel i done.length
        (done ++ rest) = some (valid, dst') ∧
      dst'.length = (done ++ rest).length ∧
      (valid = true ↔ WellFormed (bytesFrom utf8Array i)) ∧
      ∀ cs : List ℕ, (∀ c ∈ cs, c ≤ maxCodePoint) → bytesFrom utf8Array i = cs.flatMap utf8 →
        dst' = done ++ cs.flatMap units := by
  induction fuel generalizing i done rest with
  | zero => exact absurd hf (Nat.not_lt_zero _)
  | succ fuel ih =>
    rw [decodeFrom]
    by_cases hlt : i < utf8Array.length
    · rcases readSequence_cases hlt with ⟨hrd, hnt⟩ | ⟨c, hc, hle, hrd, hmap⟩
      · refine ⟨false, done ++ rest, ?_, rfl, by simpa using hnt, fun cs hcs heq =>
          absurd ⟨cs, hcs, heq⟩ hnt⟩
        by_cases hj : done.length < (done ++ rest).length
        · rw [if_pos ⟨hlt, hj⟩, getElem?_eq_getElem hlt, bind_some, decode_drop, hrd]
          rfl
        have hfl : done.length = (done ++ rest).length := by
          rw [length_append] at hj ⊢
          omega
        rw [if_neg (by omega), decide_eq_true ⟨hlt, hfl⟩]
        rfl
      · obtain ⟨hu, hl⟩ := hp i c hc hlt hmap
        have hps := length_pos_of_ne_nil (utf8_ne_nil (c := c))
        have hrm : 0 < (units c).length := by
          rw [hl, sum_weight_utf8 hc]
          exact length_pos_of_ne_nil utf16_ne_nil
        rw [hmap, map_append, sum_append, ← hl] at hr
        have hj : done.length < (done ++ rest).length := by
          rw [length_append]
          omega
        have hr' : (rest.drop (units c).length).length =
            ((bytesFrom utf8Array (i + (utf8 c).length)).map weight).sum := by
          rw [length_drop]
          omega
        obtain ⟨valid, dst', hrn, hd, hv, hcs⟩ := ih (done ++ units c) _ hle (by omega)
          hr'
        have hl' : (done ++ units c ++ rest.drop (units c).length).length =
            (done ++ rest).length := by
          simp only [length_append, length_drop]
          omega
        rw [hl'] at hrn hd
        refine ⟨valid, dst', ?_, hd, ?_, fun cs hle' heq => ?_⟩
        · rw [if_pos ⟨hlt, hj⟩, getElem?_eq_getElem hlt, bind_some, decode_drop, hrd]
          show (if (c : ℤ) = -1 then some (false, done ++ rest)
            else (writeAll (done ++ rest) done.length (put utf8Array[i] c)).bind _) = _
          rw [if_neg (by omega), hu, writeAll_append (by omega), bind_some]
          have hjl : (done ++ units c).length = done.length + (put utf8Array[i] c).length := by
            rw [hu, length_append]
          rw [hjl] at hrn
          exact hrn
        · rw [hv, hmap, wellFormed_append hc]
        · cases cs with
          | nil => exact absurd (append_eq_nil_iff.mp (hmap.symm.trans heq)).1 utf8_ne_nil
          | cons c' cs =>
            rw [hmap, flatMap_cons] at heq
            obtain ⟨rfl, ht⟩ := utf8_append_inj hc (hle' c' mem_cons_self) heq
            rw [hcs cs (fun c' hc' => hle' c' (mem_cons_of_mem c hc')) ht,
              flatMap_cons, append_assoc]
    · obtain rfl : i = utf8Array.length := by omega
      have hn : bytesFrom utf8Array utf8Array.length = [] := by simp [bytesFrom]
      rw [hn] at hr
      obtain rfl : rest = [] := length_eq_zero_iff.mp hr
      refine ⟨true, done ++ [], ?_, rfl, ?_, fun cs _ hcs => ?_⟩
      · rw [if_neg (by omega)]
        simp
      · rw [hn]
        exact ⟨fun _ => wellFormed_nil, fun _ => rfl⟩
      · rw [eq_nil_of_flatMap_utf8 (hcs.symm.trans hn)]
        rfl

theorem decodeFrom_start :
    Decodes (fun dst => decodeFrom put utf8Array utf8Array.length (codeUnitCount utf8Array).1
      (utf8Array.length + 1) 0 0 dst) (codeUnitCount utf8Array).1 (utf8Array.map UInt8.toNat) units := by
  intro dst hd
  rw [← hd]
  exact decodeFrom_spec hp [] dst (Nat.zero_le _) (by omega) (hd.trans (codeUnitCount_fst utf8Array))

end Loop

theorem getElem_of_bytesFrom {l : List ℕ} (hi : i < utf8Array.length)
    (h : bytesFrom utf8Array i = utf8 c ++ l) {b : ℕ} {l' : List ℕ} (hb : utf8 c = b :: l') :
    utf8Array[i].toNat = b := by
  rw [bytesFrom, drop_eq_getElem_cons hi, map_cons, hb, cons_append] at h
  exact (List.cons.inj h).1

def utf16Units (c : ℕ) : List UInt16 := (utf16 c).map UInt16.ofNat

theorem encode_utf16 (hc : 0x10000 ≤ c) : Utf16.encode c = utf16Units c := by
  have ha : c &&& 0x3FF = c % 1024 := Nat.and_two_pow_sub_one_eq_mod c 10
  rw [utf16Units, utf16, if_neg (by omega), Utf16.encode, ha, Nat.shiftRight_eq_div_pow]
  rfl

theorem decodeToUTF16_spec :
    Decodes (fun dst => decodeToUTF16 utf8Array utf8Array.length dst (codeUnitCount utf8Array).1)
      (codeUnitCount utf8Array).1 (utf8Array.map UInt8.toNat) utf16Units := by
  refine decodeFrom_start fun i c hc hi h => ?_
  obtain ⟨b, l, hb, -, hs, -⟩ := utf8_eq_cons hc
  refine ⟨?_, by rw [sum_weight_utf8 hc, utf16Units, length_map]⟩
  rw [isSupplementarySequenceStart, getElem_of_bytesFrom hi h hb]
  by_cases hbig : 0x10000 ≤ c
  · rw [if_pos (by simpa using hs.mpr hbig), encode_utf16 hbig]
  · rw [if_neg (by simpa using fun h => hbig (hs.mp h)), utf16Units, utf16, if_pos (by omega)]
    rfl

theorem foldl_countCodeUnit {Q : Kind → Prop} {R : UInt8 → Prop}
    (hs : ∀ acc b, Q (countCodeUnit acc b).2 → Q acc.2 ∧ R b) (acc : ℕ × Kind)
    (h : Q (utf8Array.foldl countCodeUnit acc).2) : Q acc.2 ∧ ∀ b ∈ utf8Array, R b := by
  induction utf8Array generalizing acc with
  | nil => exact ⟨h, nofun⟩
  | cons b utf8Array ih =>
    obtain ⟨ha, hal⟩ := ih _ h
    obtain ⟨ha, hb⟩ := hs acc b ha
    exact ⟨ha, forall_mem_cons.mpr ⟨hb, hal⟩⟩

/-- No byte starts a supplementary code point unless the reported type says so. -/
theorem lt_of_ne_supplementary (h : (codeUnitCount utf8Array).2 ≠ .supplementary) :
    ∀ b ∈ utf8Array, b.toNat < 0xF0 := by
  refine (foldl_countCodeUnit (Q := (· ≠ .supplementary)) (fun acc b h => ?_) _ h).2
  have ht := isTrailByte_iff (b := b)
  rw [countCodeUnit] at h
  split_ifs at h with h1 h2 h3 h4
  · exact ⟨h, by have := ht.mp h1; omega⟩
  · exact ⟨h, by simp [isLatin1SequenceStart] at h2; omega⟩
  · exact absurd rfl h
  · exact ⟨by simp [h4], by simpa [isSupplementarySequenceStart] using h3⟩
  · exact ⟨h, by simpa [isSupplementarySequenceStart] using h3⟩

theorem le_of_eq_latin1 (h : (codeUnitCount utf8Array).2 = .latin1) :
    ∀ b ∈ utf8Array, b.toNat / 64 = 2 ∨ b.toNat ≤ 0xC3 := by
  refine (foldl_countCodeUnit (Q := (· = .latin1)) (fun acc b h => ?_) _ h).2
  rw [countCodeUnit] at h
  split_ifs at h with h1 h2 h3 h4
  · exact ⟨h, .inl (isTrailByte_iff.mp h1)⟩
  · exact ⟨h, .inr (by simpa [isLatin1SequenceStart] using h2)⟩
  · exact absurd h h4

theorem decodeToLatin1_spec (hk : (codeUnitCount utf8Array).2 ≠ .supplementary) :
    Decodes (fun dst => decodeToLatin1 utf8Array utf8Array.length dst (codeUnitCount utf8Array).1)
      (codeUnitCount utf8Array).1 (utf8Array.map UInt8.toNat) fun c => [UInt8.ofNat c] := by
  refine decodeFrom_start fun i c hc hi h => ?_
  obtain ⟨b, l, hb, -, hs, -⟩ := utf8_eq_cons hc
  have hlt := lt_of_ne_supplementary hk _ (getElem_mem hi)
  rw [getElem_of_bytesFrom hi h hb] at hlt
  refine ⟨rfl, ?_⟩
  rw [sum_weight_utf8 hc, utf16, if_pos (by omega)]
  rfl

end Utf8

end Decoding

end DartSdk.Vm
