import DartSdk.Convert.Utf

/-!
# The UTF-8 encoder

The encoder writes the shortest forms of the code points of a string.  When a chunk ends in a lead
surrogate it is kept, since the next chunk may start with its other half.

* `fillBuffer_spec`: what goes into the buffer, and that the string can be cut there;
* `map_convert`: what `convert` gives;
* `encodeChunks_spec`: **the way in which the string is cut does not matter**.
-/

namespace DartSdk.Convert.Utf8Encoder

open Unicode List Option

variable {u v : UInt16} {us : List UInt16}

section Characters

def encoding (us : List UInt16) : List ℕ := (codePoints (us.map UInt16.toNat)).flatMap utf8

theorem and_surrogateMask {n : ℕ} (h : n < 0x10000) : n &&& 0xFC00 = n / 1024 * 1024 := by
  have hd : (n &&& 0xFC00) / 2 ^ 10 = n / 2 ^ 10 &&& (2 ^ 6 - 1) := Nat.and_div_two_pow
  have hm : (n &&& 0xFC00) % 2 ^ 10 = n % 2 ^ 10 &&& 0 := Nat.and_mod_two_pow
  rw [Nat.and_two_pow_sub_one_eq_mod] at hd
  rw [Nat.and_zero] at hm
  omega

theorem isLeadSurrogate_iff : isLeadSurrogate u ↔ IsLead u.toNat := by
  rw [isLeadSurrogate, decide_eq_true_iff, and_surrogateMask u.toNat_lt, IsLead]
  omega

theorem isTailSurrogate_iff : isTailSurrogate u ↔ IsTrail u.toNat := by
  rw [isTailSurrogate, decide_eq_true_iff, and_surrogateMask u.toNat_lt, IsTrail]
  omega

theorem combineSurrogatePair_eq : combineSurrogatePair u v = pair u.toNat v.toNat := by
  have ha (x : ℕ) : x &&& 0x3FF = x % 1024 := Nat.and_two_pow_sub_one_eq_mod x 10
  have hs : 0x10000 + (u.toNat % 1024) <<< 10 = (64 + u.toNat % 1024) <<< 10 := by
    rw [Nat.shiftLeft_eq, Nat.shiftLeft_eq]
    omega
  rw [combineSurrogatePair, ha, ha, hs,
    ← Nat.shiftLeft_add_eq_or_of_lt (Nat.mod_lt _ (by decide)), Nat.shiftLeft_eq, pair]
  omega

theorem toNat_trail (x : ℕ) : (UInt8.ofNat (0x80 ||| (x &&& 0x3F))).toNat = 0x80 + x % 64 := by
  have hb : ∀ y < 64, (0x80 ||| y) % 2 ^ 8 = 0x80 + y := by decide
  have ha : x &&& 0x3F = x % 64 := Nat.and_two_pow_sub_one_eq_mod x 6
  rw [UInt8.toNat_ofNat', ha]
  exact hb _ (Nat.mod_lt _ (by decide))

theorem map_writeTwo {c : ℕ} (h : 0x80 ≤ c) (h' : c < 0x800) :
    (writeTwo c).map UInt8.toNat = utf8 c := by
  have hl : ∀ y < 32, (0xC0 ||| y) % 2 ^ 8 = 0xC0 + y := by decide
  rw [utf8_two h h']
  simp only [writeTwo, Nat.shiftRight_eq_div_pow, map_cons, map_nil, toNat_trail]
  rw [toNat_lead hl (by omega)]

theorem map_writeThree {c : ℕ} (h : 0x800 ≤ c) (h' : c < 0x10000) :
    (writeThree c).map UInt8.toNat = utf8 c := by
  have hl : ∀ y < 16, (0xE0 ||| y) % 2 ^ 8 = 0xE0 + y := by decide
  rw [utf8_three h h']
  simp only [writeThree, Nat.shiftRight_eq_div_pow, map_cons, map_nil, toNat_trail]
  rw [toNat_lead hl (by omega)]

theorem map_writeFour {c : ℕ} (h : 0x10000 ≤ c) (h' : c ≤ maxCodePoint) :
    (writeFour c).map UInt8.toNat = utf8 c := by
  have hl : ∀ y < 8, (0xF0 ||| y) % 2 ^ 8 = 0xF0 + y := by decide
  rw [maxCodePoint] at h'
  rw [utf8_four h]
  simp only [writeFour, Nat.shiftRight_eq_div_pow, map_cons, map_nil, toNat_trail]
  rw [toNat_lead hl (by omega)]

theorem encoding_nil : encoding [] = [] := rfl

theorem encoding_single (u : UInt16) : encoding [u] = utf8 u.toNat := append_nil _

theorem encoding_cons (hu : ¬isLeadSurrogate u) (us : List UInt16) :
    encoding (u :: us) = utf8 u.toNat ++ encoding us := by
  have hl : ¬IsLead u.toNat := mt isLeadSurrogate_iff.mpr hu
  cases us with
  | nil => rfl
  | cons v us =>
    show (codePoints (u.toNat :: v.toNat :: us.map UInt16.toNat)).flatMap utf8 = _
    rw [codePoints, if_neg fun h => hl h.1]
    rfl

theorem encoding_pair (hu : isLeadSurrogate u) (hv : isTailSurrogate v)
    (us : List UInt16) : encoding (u :: v :: us) = utf8 (pair u.toNat v.toNat) ++ encoding us := by
  show (codePoints (u.toNat :: v.toNat :: us.map UInt16.toNat)).flatMap utf8 = _
  rw [codePoints, if_pos ⟨isLeadSurrogate_iff.mp hu, isTailSurrogate_iff.mp hv⟩]
  rfl

theorem encoding_unpaired (hv : ¬isTailSurrogate v) (us : List UInt16) :
    encoding (u :: v :: us) = utf8 u.toNat ++ encoding (v :: us) := by
  have ht : ¬IsTrail v.toNat := mt isTailSurrogate_iff.mpr hv
  show (codePoints (u.toNat :: v.toNat :: us.map UInt16.toNat)).flatMap utf8 = _
  rw [codePoints, if_neg fun h => ht h.2]
  rfl

theorem map_writeSurrogate_alone (hu : isLeadSurrogate u) (hv : ¬isTailSurrogate v) :
    (writeSurrogate u v).1.map UInt8.toNat = encoding [u] ∧ ¬(writeSurrogate u v).2 := by
  have hl : u.toNat / 1024 = 0x36 := isLeadSurrogate_iff.mp hu
  rw [writeSurrogate, if_neg hv, encoding_single]
  exact ⟨map_writeThree (by omega) u.toNat_lt, Bool.false_ne_true⟩

theorem map_writeSurrogate_zero (hu : isLeadSurrogate u) :
    (writeSurrogate u 0).1.map UInt8.toNat = encoding [u] :=
  (map_writeSurrogate_alone hu (by decide)).1

theorem map_writeSurrogate_pair (u : UInt16) (hv : isTailSurrogate v) :
    (writeSurrogate u v).1.map UInt8.toNat = utf8 (pair u.toNat v.toNat) ∧
      (writeSurrogate u v).2 := by
  rw [writeSurrogate, if_pos hv, combineSurrogatePair_eq]
  refine ⟨map_writeFour ?_ ?_, rfl⟩
  · rw [pair]
    omega
  · rw [pair, maxCodePoint]
    omega

end Characters

variable {buffer : List UInt8}

section Buffer

/-- The string can be cut after `done`, whatever part of `rest` follows and whatever follows it. -/
def CutsAt (done rest : List UInt16) : Prop :=
  ∀ t, t <+: rest ∨ rest <+: t → encoding (done ++ t) = encoding done ++ encoding t

/-- The code units are written up to a place where the string can be cut. -/
def Filled (buffer : List UInt8) (us : List UInt16) (result : List UInt8 × List UInt16) : Prop :=
  ∃ done, us = done ++ result.2 ∧
    result.1.map UInt8.toNat = buffer.map UInt8.toNat ++ encoding done ∧ CutsAt done result.2

variable {bytes : List UInt8} {rest : List UInt16} {result : List UInt8 × List UInt16}
  {bufferSize : ℕ}

theorem filled_stop : Filled buffer us (buffer, us) :=
  ⟨[], rfl, (append_nil _).symm, fun _ _ => rfl⟩

theorem Filled.cons (h : Filled (buffer ++ bytes) rest result) (written : List UInt16)
    (hb : ∀ t, t <+: rest ∨ rest <+: t →
      encoding (written ++ t) = bytes.map UInt8.toNat ++ encoding t) :
    Filled buffer (written ++ rest) result := by
  obtain ⟨done, hr, hbf, hct⟩ := h
  have hd : encoding (written ++ done) = bytes.map UInt8.toNat ++ encoding done :=
    hb done (.inl (hr ▸ prefix_append _ _))
  refine ⟨written ++ done, by rw [hr, append_assoc], ?_, fun t ht => ?_⟩
  · rw [hbf, hd, map_append, append_assoc]
  · have ht' := ht.imp (prefix_append_right_inj done).mpr (prefix_append_right_inj done).mpr
    rw [append_assoc, hb _ (hr ▸ ht'), hct t ht, hd, append_assoc]

theorem Filled.cons_unit (h : Filled (buffer ++ bytes) rest result)
    (hu : ¬isLeadSurrogate u) (hb : bytes.map UInt8.toNat = utf8 u.toNat) :
    Filled buffer (u :: rest) result := by
  refine h.cons [u] fun t _ => ?_
  rw [hb]
  exact encoding_cons hu t

/-- A lead surrogate is written with the code unit after it, or alone. -/
theorem Filled.cons_surrogate (hu : isLeadSurrogate u)
    (h : Filled (buffer ++ (writeSurrogate u v).1)
      (if (writeSurrogate u v).2 then rest else v :: rest) result) :
    Filled buffer (u :: v :: rest) result := by
  by_cases hv : isTailSurrogate v
  · obtain ⟨hb, hp⟩ := map_writeSurrogate_pair u hv
    rw [if_pos hp] at h
    refine h.cons [u, v] fun t _ => ?_
    rw [hb]
    exact encoding_pair hu hv t
  obtain ⟨hb, hp⟩ := map_writeSurrogate_alone hu hv
  rw [if_neg hp] at h
  refine h.cons [u] fun t ht => ?_
  rw [hb]
  rcases ht with ht | ⟨more, rfl⟩
  · rcases prefix_cons_iff.mp ht with rfl | ⟨t, rfl, -⟩
    · exact (append_nil _).symm
    · rw [encoding_single]
      exact encoding_unpaired hv t
  · rw [encoding_single]
    exact encoding_unpaired hv (rest ++ more)

theorem fillBuffer_spec (bufferSize : ℕ) (buffer : List UInt8) (us : List UInt16) :
    Filled buffer us (fillBuffer bufferSize buffer us) := by
  fun_induction fillBuffer bufferSize buffer us with
  | case1 buffer | case2 buffer u rest ho hf => exact filled_stop
  | case3 buffer u rest ho hf ih =>
    rw [ONE_BYTE_LIMIT] at ho
    refine ih.cons_unit ?_ ?_
    · rw [isLeadSurrogate_iff, IsLead]
      omega
    · rw [utf8_one (by omega)]
      simp
      omega
  | case4 buffer u ho hl | case5 buffer u ho hl v rest hf => exact filled_stop
  | case6 buffer u ho hl v rest hf written hp ih =>
    refine .cons_surrogate hl ?_
    rwa [if_pos hp]
  | case7 buffer u ho hl v rest hf written hp ih =>
    refine .cons_surrogate hl ?_
    rwa [if_neg hp]
  | case8 buffer u rest ho hl ht hf => exact filled_stop
  | case9 buffer u rest ho hl ht hf ih =>
    rw [ONE_BYTE_LIMIT] at ho
    rw [TWO_BYTE_LIMIT] at ht
    exact ih.cons_unit hl (map_writeTwo (by omega) (by omega))
  | case10 buffer u rest ho hl ht hf => exact filled_stop
  | case11 buffer u rest ho hl ht hf ih =>
    rw [TWO_BYTE_LIMIT] at ht
    exact ih.cons_unit hl (map_writeThree (by omega) u.toNat_lt)

theorem length_writeSurrogate (u v : UInt16) :
    (writeSurrogate u v).1.length = if (writeSurrogate u v).2 then 4 else 3 := by
  rw [writeSurrogate]
  by_cases hv : isTailSurrogate v
  · rw [if_pos hv]
    rfl
  · rw [if_neg hv]
    rfl

/-- Nothing is left but for a lead surrogate at the end. -/
def Exhausted (left : List UInt16) : Prop :=
  left = [] ∨ ∃ u, left = [u] ∧ isLeadSurrogate u

theorem fillBuffer_large (h : buffer.length + us.length * 3 ≤ bufferSize) :
    Exhausted (fillBuffer bufferSize buffer us).2 := by
  fun_induction fillBuffer bufferSize buffer us with
  | case1 buffer => exact .inl rfl
  | case2 buffer u rest ho hf | case5 buffer u ho hl v rest hf
  | case8 buffer u rest ho hl ht hf | case10 buffer u rest ho hl ht hf =>
    simp only [length_cons] at h
    omega
  | case4 buffer u ho hl => exact .inr ⟨u, rfl, hl⟩
  | case3 buffer u rest ho hf ih | case9 buffer u rest ho hl ht hf ih
  | case11 buffer u rest ho hl ht hf ih =>
    refine ih ?_
    simp only [length_cons, length_append, writeTwo, writeThree, length_nil] at h ⊢
    omega
  | case6 buffer u ho hl v rest hf written hp ih =>
    refine ih ?_
    rw [length_append, length_writeSurrogate, if_pos hp]
    simp only [length_cons] at h
    omega
  | case7 buffer u ho hl v rest hf written hp ih =>
    refine ih ?_
    rw [length_append, length_writeSurrogate, if_neg hp]
    simp only [length_cons] at h ⊢
    omega

theorem map_convert (string : List UInt16) : (convert string).map UInt8.toNat = encoding string := by
  rw [convert]
  split_ifs with hn
  · rw [length_eq_zero_iff.mp hn]
    rfl
  obtain ⟨_, hd, hb, hct⟩ := fillBuffer_spec (string.length * 3) [] string
  have hs : ([] : List UInt8).length + string.length * 3 ≤ string.length * 3 :=
    Nat.le_of_eq (Nat.zero_add _)
  rcases fillBuffer_large hs with hr | ⟨u, hr, hlead⟩
  · simp only [hr, getLast?_nil]
    rw [hr, append_nil] at hd
    rw [hb, ← hd]
    rfl
  · simp only [hr, getLast?_singleton, map_append, map_writeSurrogate_zero hlead]
    rw [hr] at hd hct
    have hw := hct [u] (.inl prefix_rfl)
    rw [← hd] at hw
    rw [hb, hw]
    rfl

end Buffer

section Chunks

variable {isLast : Bool}

theorem length_fillBuffer_le (bufferSize : ℕ) (buffer : List UInt8) (us : List UInt16) :
    (fillBuffer bufferSize buffer us).2.length ≤ us.length := by
  obtain ⟨_, hd, -⟩ := fillBuffer_spec bufferSize buffer us
  have hl := congrArg List.length hd
  rw [length_append] at hl
  omega

theorem fillBuffer_progress {bufferSize : ℕ} (hr : buffer.length + 3 < bufferSize) :
    Exhausted (fillBuffer bufferSize buffer us).2 ∨
      (fillBuffer bufferSize buffer us).2.length < us.length := by
  have hle := length_fillBuffer_le bufferSize
  fun_cases fillBuffer bufferSize buffer us with
  | case1 => exact .inl (.inl rfl)
  | case2 u rest ho hf | case5 u ho hl v rest hf | case8 u rest ho hl ht hf
  | case10 u rest ho hl ht hf => omega
  | case3 u rest ho hf | case9 u rest ho hl ht hf
  | case11 u rest ho hl ht hf => exact .inr (Nat.lt_succ_of_le (hle _ rest))
  | case4 u ho hl => exact .inl (.inr ⟨u, rfl, hl⟩)
  | case6 u ho hl v rest hf written hp =>
    exact .inr (Nat.lt_succ_of_le (Nat.le_trans (hle _ rest) (Nat.le_succ _)))
  | case7 u ho hl v rest hf written hp =>
    exact .inr (Nat.lt_succ_of_le (hle _ (v :: rest)))

/-- What is given to the sink, and the lead surrogate that is kept.  More may follow if it was not the
last slice. -/
def Added (bytes : List UInt8) (us : List UInt16) (isLast : Bool)
    (result : Option UInt16 × List (List UInt8)) : Prop :=
  ∃ done, us = done ++ result.1.toList ∧ (∀ u ∈ result.1, isLeadSurrogate u) ∧
    result.2.flatten.map UInt8.toNat = bytes.map UInt8.toNat ++ encoding done ∧
    ∀ more, (isLast = true → more = []) →
      encoding (done ++ (result.1.toList ++ more)) =
        encoding done ++ encoding (result.1.toList ++ more)

/-- The code units that are left are added after those in the buffer. -/
theorem Added.after {filled : List UInt8 × List UInt16}
    {result : Option UInt16 × List (List UInt8)} (h : Added filled.1 filled.2 isLast result)
    (hf : Filled buffer us filled) : Added buffer us isLast result := by
  obtain ⟨done, hd, hb, hct⟩ := hf
  obtain ⟨done', hd', hl, hbl, hct'⟩ := h
  have hbt : encoding (done ++ done') = encoding done ++ encoding done' :=
    hct done' (.inl (hd' ▸ prefix_append _ _))
  refine ⟨done ++ done', by rw [hd, hd', append_assoc], hl, ?_, fun more hm => ?_⟩
  · rw [hbl, hb, hbt, append_assoc]
  · have hr : filled.2 <+: done' ++ (result.1.toList ++ more) := by
      rw [hd', ← append_assoc]
      exact prefix_append _ _
    rw [append_assoc, hct _ (.inr hr), hct' more hm, hbt, append_assoc]

variable {carry : Option UInt16}

theorem Added.flush {blocks : List (List UInt8)}
    (h : Added [] us isLast (carry, blocks)) : Added buffer us isLast (carry, buffer :: blocks) := by
  obtain ⟨done, hd, hl, hb, hct⟩ := h
  refine ⟨done, hd, hl, ?_, hct⟩
  rw [flatten_cons, map_append, hb]
  rfl

theorem addSliceLoop_spec {rounds : ℕ} (isLast : Bool) (hr : us.length < rounds)
    (hrm : buffer.length ≤ 4) :
    ∃ result, addSliceLoop rounds buffer us isLast = some result ∧ Added buffer us isLast result := by
  induction rounds generalizing buffer us with
  | zero => exact absurd hr (Nat.not_lt_zero _)
  | succ rounds ih =>
    have hf := fillBuffer_spec defaultByteBufferSize buffer us
    have hp : Exhausted (fillBuffer defaultByteBufferSize buffer us).2 ∨
        (fillBuffer defaultByteBufferSize buffer us).2.length < us.length :=
      fillBuffer_progress (by rw [defaultByteBufferSize]; omega)
    rw [addSliceLoop]
    generalize fillBuffer defaultByteBufferSize buffer us = filled at hf hp ⊢
    obtain ⟨filled, left⟩ := filled
    -- another round on what is left
    have ha (hl : ¬Exhausted left) :
        ∃ result, (addSliceLoop rounds [] left isLast).map
            (fun result => (result.1, filled :: result.2)) = some result ∧
          Added buffer us isLast result := by
      have hlt : left.length < us.length := hp.resolve_left hl
      obtain ⟨⟨carry, blocks⟩, hloop, hadded⟩ : ∃ result,
          addSliceLoop rounds [] left isLast = some result ∧ Added [] left isLast result :=
        ih (by omega) (by simp)
      exact ⟨(carry, filled :: blocks), by rw [hloop]; rfl, hadded.flush.after hf⟩
    cases left with
    | nil =>
      obtain ⟨done, hd, hb, hct⟩ := hf
      refine ⟨(none, [filled]), rfl, done, hd, nofun, ?_, fun more _ => ?_⟩
      · rw [flatten_singleton]
        exact hb
      · exact hct more (.inr nil_prefix)
    | cons u rest =>
      cases rest with
      | cons v rest => exact ha (by rintro (h | ⟨w, h, -⟩) <;> cases h)
      | nil =>
        by_cases hlead : isLeadSurrogate u
        · obtain ⟨done, hd, hb, hct⟩ := hf
          dsimp only
          rw [if_pos hlead]
          split_ifs with hls
          · -- it is written by itself at the very end
            have hwh := hct [u] (.inl prefix_rfl)
            refine ⟨(none, _), rfl, us, (append_nil us).symm, nofun, ?_, fun more hm => ?_⟩
            · rw [flatten_singleton, map_append, map_writeSurrogate_zero hlead, hd, hwh,
                ← append_assoc]
              exact congrArg (· ++ _) hb
            · rw [hm hls.1]
              simp [encoding_nil]
          · refine ⟨(some u, [filled]), rfl, done, hd, ?_, ?_, fun more _ => ?_⟩
            · intro w hw
              cases hw
              exact hlead
            · rw [flatten_singleton]
              exact hb
            · exact hct ([u] ++ more) (.inr (prefix_append _ _))
        · dsimp only
          rw [if_neg hlead]
          refine ha ?_
          rintro (⟨⟨⟩⟩ | ⟨_, ⟨⟩, hlead'⟩)
          exact hlead hlead'

section

variable (hc : ∀ u ∈ carry, isLeadSurrogate u)

include hc

/-- What was kept is written with the first code unit of the next slice. -/
theorem writeCarry_spec
    {str : List UInt16} (hs : carry = none ∨ str ≠ []) :
    (writeCarry carry str).1.length ≤ 4 ∧ (writeCarry carry str).2.length ≤ str.length ∧
      Filled [] (carry.toList ++ str) (writeCarry carry str) := by
  cases carry with
  | none => exact ⟨by simp [writeCarry], Nat.le_refl _, filled_stop⟩
  | some u =>
    have hl : isLeadSurrogate u := hc u rfl
    cases str with
    | nil => exact absurd rfl (hs.resolve_left (some_ne_none u))
    | cons v rest =>
      refine ⟨?_, ?_, .cons_surrogate hl filled_stop⟩
      · show (writeSurrogate u v).1.length ≤ 4
        rw [length_writeSurrogate]
        split_ifs <;> decide
      · show (if (writeSurrogate u v).2 then rest else v :: rest).length ≤ (v :: rest).length
        split_ifs
        · exact Nat.le_succ _
        · exact Nat.le_refl _

theorem addSlice_spec (str : List UInt16) (isLast : Bool) :
    ∃ result, addSlice carry str isLast = some result ∧
      Added [] (carry.toList ++ str) isLast result := by
  rw [addSlice]
  split_ifs with hn
  · refine ⟨(carry, []), rfl, [], ?_, hc, rfl, fun more _ => rfl⟩
    rw [hn.1, append_nil]
    rfl
  by_cases hstr : carry = none ∨ str ≠ []
  · obtain ⟨hr, hl, hf⟩ := writeCarry_spec hc hstr
    obtain ⟨result, hlp, ha⟩ := addSliceLoop_spec isLast (Nat.lt_succ_of_le hl) hr
    exact ⟨result, hlp, ha.after hf⟩
  -- what was kept is written by itself at the very end
  obtain ⟨hcr', hnl⟩ := not_or.mp hstr
  obtain ⟨u, rfl⟩ := ne_none_iff_exists'.mp hcr'
  obtain rfl := not_not.mp hnl
  have hls : isLast := by simpa using hn
  refine ⟨(none, [(writeSurrogate u 0).1]), rfl, [u], rfl, nofun, ?_, fun more hm => ?_⟩
  · rw [flatten_singleton, map_writeSurrogate_zero (hc u rfl)]
    rfl
  · rw [hm hls]
    exact (append_nil _).symm

theorem close_spec :
    ∃ blocks, close carry = some blocks ∧
      blocks.flatten.map UInt8.toNat = encoding carry.toList := by
  cases carry with
  | none => exact ⟨[], rfl, rfl⟩
  | some u =>
    refine ⟨[(writeSurrogate u 0).1], rfl, ?_⟩
    rw [flatten_singleton, map_writeSurrogate_zero (hc u rfl)]
    rfl

theorem encodeChunks_spec (strs : List (List UInt16)) (last : Option (List UInt16)) :
    ∃ blocks, encodeChunks carry strs last = some blocks ∧
      blocks.flatten.map UInt8.toNat =
        encoding (carry.toList ++ (strs.flatten ++ last.getD [])) := by
  induction strs generalizing carry with
  | nil =>
    cases last with
    | none =>
      obtain ⟨blocks, hcl, hb⟩ := close_spec hc
      exact ⟨blocks, hcl, by rw [hb]; simp⟩
    | some last =>
      obtain ⟨⟨carry', blocks⟩, hadd, done, hdone, hlead, hb, hcut⟩ :=
        addSlice_spec hc last true
      obtain ⟨blocks', hcl, hb'⟩ := close_spec hlead
      refine ⟨blocks ++ blocks', ?_, ?_⟩
      · simp [encodeChunks, hadd, hcl]
      · have hw := hcut [] fun _ => rfl
        rw [append_nil] at hw
        rw [flatten_append, map_append, hb, hb']
        simp only [flatten_nil, nil_append, getD_some, hdone, hw, map_nil]
  | cons str strs ih =>
    obtain ⟨⟨carry', blocks⟩, hadd, done, hdone, hlead, hb, hcut⟩ :=
      addSlice_spec hc str false
    obtain ⟨blocks', hr, hb'⟩ := ih hlead
    refine ⟨blocks ++ blocks', ?_, ?_⟩
    · simp [encodeChunks, hadd, hr]
    · have hw := hcut (strs.flatten ++ last.getD []) nofun
      have hs : carry.toList ++ ((str :: strs).flatten ++ last.getD []) =
          carry.toList ++ str ++ (strs.flatten ++ last.getD []) := by simp
      rw [flatten_append, map_append, hb, hb', hs, hdone, append_assoc,
        append_assoc, hw]
      rfl

end

end Chunks

end DartSdk.Convert.Utf8Encoder
