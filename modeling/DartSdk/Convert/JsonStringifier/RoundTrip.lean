import DartSdk.Convert.JsonParser.Completeness
import DartSdk.Convert.JsonStringifier.Cycles

/-!
# Encoding and decoding JSON

What the stringifier writes for a finite tree is `render` of the tree (`writeObject_eq`), whether it is
the plain one or the pretty one, and `render` is a text of the grammar that denotes the tree
(`render_derives`).  So decoding gives the tree back (`json_roundTrip`).
-/

namespace DartSdk.Convert

open JsonGrammar ChunkedJsonParser List JsonStringifier

/-- **The finite tree that a value of the heap stands for.**  The keys of a map are different from each
other. -/
inductive Represents (heap : ℕ → HeapObject) : Json → Value → Prop
  | null : Represents heap .null .null
  | bool (b : Bool) : Represents heap (.bool b) (.bool b)
  | int (n : ℤ) : Represents heap (.number (.int n)) (.int n)
  | string (s : List ℕ) : Represents heap (.string s) (.string s)
  | list {address : ℕ} {elements : List Value} {vs : List Json} (h : heap address = .list elements)
    (hvs : List.Forall₂ (Represents heap) vs elements) : Represents heap (.list vs) (.object address)
  | map {address : ℕ} {entries : List (Value × Value)} {members : List (List ℕ × Json)}
    (h : heap address = .map entries)
    (hkeys : entries.map Prod.fst = members.map fun member => Value.string member.1)
    (hvalues : List.Forall₂ (Represents heap) (members.map Prod.snd) (entries.map Prod.snd))
    (hnodup : (members.map Prod.fst).Nodup) : Represents heap (.map members) (.object address)

section Refinement

variable {e : JsonEncoder} {seen : List Value} {level : ℕ} {w : JsonStringifier}
  {writeObject : Value → JsonStringifier → Except JsonError JsonStringifier}

/-- The plain stringifier has no indentation level. -/
structure AtLevel (e : JsonEncoder) (seen : List Value) (level : ℕ) (w : JsonStringifier) : Prop where
  seen : w.seen = seen
  level : e.indent = none ∨ w.indentLevel = level

theorem AtLevel.writeString (h : AtLevel e seen level w) (s : List ℕ) :
    AtLevel e seen level (w.writeString s) :=
  ⟨h.seen, h.level⟩

/-- `writeObject` writes the text of the tree. -/
def Renders (e : JsonEncoder)
    (writeObject : Value → JsonStringifier → Except JsonError JsonStringifier) (seen : List Value)
    (level : ℕ) (v : Json) (x : Value) : Prop :=
  ∀ w, AtLevel e seen level w → writeObject x w = .ok (w.writeString (render e.indent level v))

theorem foldlM_elements {f : JsonStringifier → Value → Except JsonError JsonStringifier}
    {vs : List Json} {xs : List Value}
    (hf : ∀ w x, AtLevel e seen level w →
      f w x = writeObject x (w.writeString (0x2C :: newline e.indent level)))
    (h : List.Forall₂ (Renders e writeObject seen level) vs xs) (hw : AtLevel e seen level w) :
    xs.foldlM f w = .ok (w.writeString (renderElements e.indent level vs)) := by
  induction h generalizing w with
  | nil =>
    rw [renderElements, writeString_nil]
    rfl
  | @cons v x vs xs hx _ ih =>
    rw [foldlM_cons, hf w x hw, hx _ (hw.writeString _)]
    show xs.foldlM f _ = _
    rw [writeString_writeString, ih (hw.writeString _), writeString_writeString, renderElements]
    simp

theorem foldlM_members {separator : List ℕ}
    {f : JsonStringifier × List ℕ → List ℕ × Value → Except JsonError (JsonStringifier × List ℕ)}
    {members : List (List ℕ × Json)} {keyValueList : List (List ℕ × Value)}
    (hf : ∀ w key x, AtLevel e seen level w → f (w, separator) (key, x) =
      writeObject x (w.writeString
        (0x2C :: (newline e.indent level ++ 0x22 :: (content key ++ 0x22 :: colon e.indent)))) >>=
        fun w => .ok (w, separator))
    (h : List.Forall₂ (fun member keyValue => keyValue.1 = member.1 ∧
      Renders e writeObject seen level member.2 keyValue.2) members keyValueList)
    (hw : AtLevel e seen level w) : keyValueList.foldlM f (w, separator) =
      .ok (w.writeString (renderMembers e.indent level members), separator) := by
  induction h generalizing w with
  | nil =>
    rw [renderMembers, writeString_nil]
    rfl
  | @cons member keyValue members keyValueList hx _ ih =>
    obtain ⟨key, v⟩ := member
    obtain ⟨_, x⟩ := keyValue
    obtain ⟨rfl, hx⟩ := hx
    rw [foldlM_cons, hf w _ x hw, hx _ (hw.writeString _)]
    show keyValueList.foldlM f _ = _
    rw [writeString_writeString, ih (hw.writeString _), writeString_writeString, renderMembers]
    simp

theorem writeList_eq {vs : List Json} {xs : List Value}
    (h : List.Forall₂ (Renders e writeObject seen (level + 1)) vs xs) (hw : AtLevel e seen level w) :
    e.writeList writeObject xs w = .ok (w.writeString (render e.indent level (.list vs))) := by
  unfold JsonEncoder.writeList
  split
  next hi =>
    unfold writeList
    have hl : ∀ s, AtLevel e seen (level + 1) (w.writeString s) := fun s =>
      ⟨hw.seen, .inl hi⟩
    cases h with
    | nil =>
      show Except.ok _ = _
      rw [writeString_writeString, render]
      rfl
    | @cons v x vs xs hx hxs =>
      dsimp only
      rw [hx _ (hl _)]
      show ((xs.foldlM _ _ >>= fun w => _) : Except JsonError JsonStringifier) = _
      rw [writeString_writeString, foldlM_elements (fun w x hw => ?_) hxs (hl _)]
      · show Except.ok _ = _
        rw [writeString_writeString, writeString_writeString, render, hi]
        simp [newline, LBRACKET, RBRACKET]
      · rw [hi]
        rfl
  next indent hi =>
    cases h with
    | nil =>
      rw [render]
      rfl
    | @cons v x vs xs hx hxs =>
      have hl : w.indentLevel = level := hw.level.resolve_left (by rw [hi]; simp)
      -- The first element is written one level deeper.
      have hd : ∀ s, AtLevel e seen (level + 1)
          ({ w with indentLevel := level + 1 }.writeString s) := fun s => ⟨hw.seen, .inr rfl⟩
      have hs : writeIndentation indent (level + 1)
          { w.writeString [LBRACKET, NEWLINE] with indentLevel := level + 1 } =
          { w with indentLevel := level + 1 }.writeString (0x5B :: newline e.indent (level + 1)) := by
        rw [writeIndentation_eq, hi]
        simp [writeString, newline, LBRACKET, NEWLINE]
      show (writeObject x (writeIndentation indent (w.indentLevel + 1)
        { w.writeString [LBRACKET, NEWLINE] with indentLevel := w.indentLevel + 1 }) >>= _) = _
      rw [hl, hs, hx _ (hd _)]
      show ((xs.foldlM _ _ >>= fun w => _) : Except JsonError JsonStringifier) = _
      rw [writeString_writeString, foldlM_elements (fun w x hw => ?_) hxs (hd _)]
      · show Except.ok _ = _
        rw [writeString_writeString, writeString_writeString, render, hi, writeIndentation_eq]
        simp [writeString, newline, RBRACKET, NEWLINE, hl]
      · have hl : w.indentLevel = level + 1 := hw.level.resolve_left (by rw [hi]; simp)
        show writeObject x (writeIndentation indent w.indentLevel _) = _
        rw [hl, writeIndentation_eq, writeString_writeString, hi]
        rfl

theorem writeMap_eq {entries : List (Value × Value)} {keyValueList : List (List ℕ × Value)}
    {members : List (List ℕ × Json)} (hk : stringKeys entries = some keyValueList)
    (h : List.Forall₂ (fun member keyValue => keyValue.1 = member.1 ∧
      Renders e writeObject seen (level + 1) member.2 keyValue.2) members keyValueList)
    (he : entries.isEmpty = keyValueList.isEmpty) (hw : AtLevel e seen level w) :
    e.writeMap writeObject entries w = .ok (w.writeString (render e.indent level (.map members)), true) := by
  unfold JsonEncoder.writeMap
  split
  next hi =>
    unfold writeMap
    have hl : ∀ s, AtLevel e seen (level + 1) (w.writeString s) := fun s =>
      ⟨hw.seen, .inl hi⟩
    rw [he, hk]
    cases h with
    | nil =>
      rw [render]
      rfl
    | @cons member keyValue members keyValueList hx hxs =>
      obtain ⟨key, v⟩ := member
      obtain ⟨_, x⟩ := keyValue
      obtain ⟨rfl, hx⟩ := hx
      rw [if_neg (by simp)]
      dsimp only
      rw [foldlM_cons]
      rw [writeStringContent_eq, hx _ (by simpa using hl _)]
      show ((keyValueList.foldlM _ _ >>= fun w => _) : Except JsonError _) = _
      rw [foldlM_members (fun w key x hw => ?_) hxs (by simpa using hl _)]
      · show Except.ok _ = _
        rw [render, hi]
        simp [newline, colon, LBRACE, RBRACE, QUOTE, COLON]
      · rw [writeStringContent_eq, hi]
        simp [newline, colon, QUOTE, COLON, COMMA]
  next indent hi =>
    unfold prettyWriteMap
    have hl : w.indentLevel = level := hw.level.resolve_left (by rw [hi]; simp)
    have hd : ∀ s, AtLevel e seen (level + 1)
        ({ w with indentLevel := level + 1 }.writeString s) := fun s => ⟨hw.seen, .inr rfl⟩
    rw [he, hk]
    cases h with
    | nil =>
      rw [render]
      rfl
    | @cons member keyValue members keyValueList hx hxs =>
      obtain ⟨key, v⟩ := member
      obtain ⟨_, x⟩ := keyValue
      obtain ⟨rfl, hx⟩ := hx
      have ho : { w.writeString [LBRACE, NEWLINE] with indentLevel := level + 1 } =
          { w with indentLevel := level + 1 }.writeString [0x7B, 0x0A] := rfl
      rw [if_neg (by simp)]
      dsimp only
      rw [show (w.writeString [LBRACE, NEWLINE]).indentLevel = level from hl, foldlM_cons]
      rw [ho, writeString_nil, writeIndentation_eq, writeStringContent_eq,
        hx _ (by simpa using hd _)]
      show ((keyValueList.foldlM _ _ >>= fun w => _) : Except JsonError _) = _
      rw [foldlM_members (fun w key x hw => ?_) hxs (by simpa using hd _)]
      · show Except.ok _ = _
        simp only [writeString_writeString, writeIndentation_eq]
        rw [render, hi]
        simp [writeString, newline, colon, RBRACE, QUOTE, COLON, SPACE, NEWLINE, hl]
      · have hl : w.indentLevel = level + 1 := hw.level.resolve_left (by rw [hi]; simp)
        rw [writeIndentation_eq, writeStringContent_eq,
          show (w.writeString [COMMA, NEWLINE]).indentLevel = level + 1 from hl, hi]
        simp [newline, colon, QUOTE, COLON, COMMA, NEWLINE, SPACE]

end Refinement

section Trees

variable {e : JsonEncoder} {object x : Value} {v : Json}

theorem stringKeys_eq {entries : List (Value × Value)} {members : List (List ℕ × Json)}
    {R : Json → Value → Prop}
    (hk : entries.map Prod.fst = members.map fun member => Value.string member.1)
    (hv : List.Forall₂ R (members.map Prod.snd) (entries.map Prod.snd)) :
    ∃ keyValueList, stringKeys entries = some keyValueList ∧
      List.Forall₂ (fun member keyValue => keyValue.1 = member.1 ∧ R member.2 keyValue.2) members
        keyValueList := by
  induction members generalizing entries with
  | nil =>
    obtain rfl : entries = [] := by simpa using hk
    exact ⟨[], rfl, .nil⟩
  | cons member members ih =>
    cases entries with
    | nil => cases hk
    | cons entry entries =>
      obtain ⟨_, x⟩ := entry
      simp only [map_cons, List.cons.injEq] at hk
      obtain ⟨rfl, hk⟩ := hk
      simp only [map_cons, forall₂_cons] at hv
      obtain ⟨keyValueList, hs, ha⟩ := ih hk hv.2
      refine ⟨(member.1, x) :: keyValueList, ?_, .cons ⟨rfl, hv.1⟩ ha⟩
      unfold stringKeys at hs ⊢
      rw [mapM_cons, hs]
      rfl

theorem forall₂_mem_right {α β : Type} {R : α → β → Prop} {as : List α} {bs : List β} {b : β}
    (h : List.Forall₂ R as bs) (hb : b ∈ bs) : ∃ a ∈ as, R a b := by
  induction h with
  | nil => cases hb
  | @cons a _ as bs hab _ ih =>
    rcases mem_cons.mp hb with rfl | hb
    · exact ⟨a, mem_cons_self, hab⟩
    · obtain ⟨a', ha', hr⟩ := ih hb
      exact ⟨a', mem_cons_of_mem _ ha', hr⟩

theorem forall₂_imp_mem {α β : Type} {R S : α → β → Prop} {as : List α} {bs : List β}
    (h : List.Forall₂ R as bs) (hRS : ∀ a ∈ as, ∀ b ∈ bs, R a b → S a b) : List.Forall₂ S as bs := by
  induction h with
  | nil => exact .nil
  | @cons a b as bs hab _ ih =>
    refine .cons (hRS a mem_cons_self b mem_cons_self hab) (ih fun a ha b hb => ?_)
    exact hRS a (mem_cons_of_mem _ ha) b (mem_cons_of_mem _ hb)

theorem Represents.edge (h : Represents e.heap v object) (hx : e.Edge object x) :
    ∃ v', Represents e.heap v' x ∧ sizeOf v' < sizeOf v := by
  cases hx with
  | element hh hx =>
    cases h with
    | list hh' hvs =>
      rw [hh] at hh'
      cases hh'
      obtain ⟨v', hv', hr⟩ := forall₂_mem_right hvs hx
      exact ⟨v', hr, sizeOf_lt_list hv'⟩
    | map hh' =>
      rw [hh] at hh'
      cases hh'
  | @value _ _ _ _ _ hh hk hx =>
    cases h with
    | list hh' hvs =>
      rw [hh] at hh'
      cases hh'
    | map hh' hk' hv =>
      rw [hh] at hh'
      cases hh'
      obtain ⟨_, hs, ha⟩ := stringKeys_eq hk' hv
      rw [hk] at hs
      cases hs
      obtain ⟨_, hv', -, hr⟩ := forall₂_mem_right ha hx
      exact ⟨_, hr, sizeOf_lt_map hv'⟩
  | custom hu =>
    exfalso
    cases h with
    | null | bool b | int n | string s => exact hu
    | list hh hvs => simp only [JsonEncoder.Unwritten, hh] at hu
    | map hh hk hv =>
      obtain ⟨_, hs, -⟩ := stringKeys_eq hk hv
      simp only [JsonEncoder.Unwritten, hh, hs] at hu
      cases hu

theorem Represents.transGen (h : Represents e.heap v object)
    (hx : Relation.TransGen e.Edge object x) :
    ∃ v', Represents e.heap v' x ∧ sizeOf v' < sizeOf v := by
  induction hx with
  | single hx => exact h.edge hx
  | tail _ hx ih =>
    obtain ⟨v', hv', hlt⟩ := ih
    obtain ⟨v'', hv'', hlt'⟩ := hv'.edge hx
    exact ⟨v'', hv'', hlt'.trans hlt⟩

theorem Represents.not_cyclic (h : Represents e.heap v x) : ¬Relation.TransGen e.Edge x x := by
  intro hc
  -- on the size of the tree: around the cycle there is always a smaller one
  induction hn : sizeOf v using Nat.strong_induction_on generalizing v with
  | _ n ih =>
    obtain ⟨_, hv', hlt⟩ := h.transGen hc
    exact ih _ (hn ▸ hlt) hv' rfl

/-- **What stands for a finite tree has no cycle.** -/
theorem Represents.acyclic (h : Represents e.heap v object) : e.Acyclic object := by
  intro x hx
  rcases Relation.reflTransGen_iff_eq_or_transGen.mp hx with rfl | hx
  · exact h.not_cyclic
  · obtain ⟨_, hv', -⟩ := h.transGen hx
    exact hv'.not_cyclic

theorem writeObject_of_written {fuel : ℕ} {w w' : JsonStringifier}
    (h : e.writeJsonValue (e.writeObject fuel) object w = .ok (w', true)) :
    e.writeObject (fuel + 1) object w = .ok w' := by
  unfold JsonEncoder.writeObject
  rw [h]
  rfl

theorem removeSeen_writeString {w : JsonStringifier} (s : List ℕ) :
    ({ w with seen := w.seen ++ [object] }.writeString s).removeSeen = w.writeString s := by
  unfold removeSeen writeString
  rw [dropLast_concat]

/-- **The stringifier writes the text of the tree.** -/
theorem writeObject_eq {fuel level : ℕ} {w : JsonStringifier} (h : Represents e.heap v object)
    (hf : sizeOf v ≤ fuel) (hlv : e.indent = none ∨ w.indentLevel = level)
    (hw : ∀ s ∈ w.seen, Relation.TransGen e.Edge s object) :
    e.writeObject fuel object w = .ok (w.writeString (render e.indent level v)) := by
  induction fuel generalizing v object level w with
  | zero =>
    have hps : 0 < sizeOf v := by cases v <;> simp
    omega
  | succ fuel ih =>
    have ha := h.acyclic
    refine writeObject_of_written ?_
    -- What is written inside of a container.
    have hc : ∀ {v' : Json} {x : Value}, e.Edge object x → sizeOf v' < sizeOf v →
        Represents e.heap v' x →
        Renders e (e.writeObject fuel) (w.seen ++ [object]) (level + 1) v' x := by
      intro v' x hx hlt hrp w' hw'
      refine ih hrp (by omega) hw'.level ?_
      rw [hw'.seen]
      exact fun s hs => seen_edge hw hx hs
    have hp : AtLevel e (w.seen ++ [object]) level { w with seen := w.seen ++ [object] } :=
      ⟨rfl, hlv⟩
    unfold JsonEncoder.writeJsonValue
    cases h with
    | null => rw [render]
    | bool b => cases b <;> rw [render]
    | int n => rw [render]
    | string s =>
      simp [writeStringContent_eq, render, QUOTE]
    | @list address _ _ hh hvs =>
      dsimp only
      rw [hh]
      rw [checkCycle_ok ha hw]
      show e.writeList _ _ _ >>= _ = _
      rw [writeList_eq (forall₂_imp_mem hvs fun v' hv' x hx =>
        hc (.element hh hx) (sizeOf_lt_list hv')) hp]
      show Except.ok (removeSeen _, true) = _
      rw [removeSeen_writeString]
    | @map address entries _ hh hky hv _ =>
      obtain ⟨keyValueList, hsm, hal⟩ := stringKeys_eq hky hv
      have he : entries.isEmpty = keyValueList.isEmpty := by
        have hl : entries.length = keyValueList.length := by
          rw [← hal.length_eq]
          simpa using congrArg List.length hky
        rw [Bool.eq_iff_iff, List.isEmpty_iff, List.isEmpty_iff, ← length_eq_zero_iff, hl,
          length_eq_zero_iff]
      dsimp only
      rw [hh]
      rw [checkCycle_ok ha hw]
      show e.writeMap _ _ _ >>= _ = _
      rw [writeMap_eq hsm (forall₂_imp_mem hal fun member hm keyValue hk hr =>
        ⟨hr.1, hc (.value hh hsm hk) (sizeOf_lt_map hm) hr.2⟩) he hp]
      show Except.ok (removeSeen _, true) = _
      rw [removeSeen_writeString]

end Trees

section Grammar

variable {indent : Option (List ℕ)} {level : ℕ} {text w : List ℕ}

theorem whitespace_newline (h : ∀ s ∈ indent, Whitespace s) (level : ℕ) :
    Whitespace (newline indent level) := by
  cases indent with
  | none => exact whitespace_nil
  | some s =>
    intro c hc
    rcases mem_cons.mp hc with rfl | hc
    · exact .inr (.inr (.inl rfl))
    · obtain ⟨_, hs', hc⟩ := mem_flatten.mp hc
      rw [eq_of_mem_replicate hs'] at hc
      exact h s rfl c hc

theorem derives_renderElements {init vs : List Json} {last : Json}
    (hi : ∀ s ∈ indent, Whitespace s)
    (hvs : ∀ v ∈ vs, Derives (.value v) (render indent level v))
    (h : Derives (.elements init last) text) (hw : Whitespace w) :
    Derives (.value (.list (init ++ last :: vs)))
      (0x5B :: (text ++ renderElements indent level vs ++ w ++ [0x5D])) := by
  induction vs generalizing init last text with
  | nil =>
    rw [renderElements, append_nil]
    refine .array ?_
    cases h with
    | element hw₁ h hw₂ =>
      have := Derives.element hw₁ h (hw₂.append hw)
      simpa using this
    | elements h hw₁ h' hw₂ =>
      have := Derives.elements h hw₁ h' (hw₂.append hw)
      simpa using this
  | cons v vs ih =>
    have hn := Derives.elements h (whitespace_newline hi level) (hvs v mem_cons_self)
      whitespace_nil
    have := ih (fun v hv => hvs v (mem_cons_of_mem _ hv)) hn
    rw [renderElements]
    simpa using this

theorem chars_colon (indent : Option (List ℕ)) : ∃ w, colon indent = 0x3A :: w ∧ Whitespace w := by
  cases indent with
  | none => exact ⟨[], rfl, whitespace_nil⟩
  | some s => exact ⟨[0x20], rfl, fun c hc => .inl (mem_singleton.mp hc)⟩

theorem derives_renderMembers {init members : List (List ℕ × Json)} {key : List ℕ} {last : Json}
    (hi : ∀ s ∈ indent, Whitespace s)
    (hm : ∀ member ∈ members, Derives (.value member.2) (render indent level member.2))
    (h : Derives (.members init key last) text) (hw : Whitespace w) :
    Derives (.value (.map (ofMembers (init ++ (key, last) :: members))))
      (0x7B :: (text ++ renderMembers indent level members ++ w ++ [0x7D])) := by
  induction members generalizing init key last text with
  | nil =>
    rw [renderMembers, append_nil]
    refine .object ?_
    cases h with
    | member hw₁ hn hw₂ hw₃ h hw₄ =>
      have := Derives.member hw₁ hn hw₂ hw₃ h (hw₄.append hw)
      simpa using this
    | members h hw₁ hn hw₂ hw₃ h' hw₄ =>
      have := Derives.members h hw₁ hn hw₂ hw₃ h' (hw₄.append hw)
      simpa using this
  | cons member members ih =>
    obtain ⟨key', v⟩ := member
    obtain ⟨_, hc, hw₂⟩ := chars_colon indent
    have hnx := Derives.members h (whitespace_newline hi level) (chars_content key')
      whitespace_nil hw₂ (hm (key', v) mem_cons_self) whitespace_nil
    have := ih (fun member hmm => hm member (mem_cons_of_mem _ hmm)) hnx
    rw [renderMembers, hc]
    simpa using this

theorem ofMembers_of_nodup {members : List (List ℕ × Json)} (h : (members.map Prod.fst).Nodup) :
    ofMembers members = members := by
  have hp : ∀ {entries : List (List ℕ × Json)} {key : List ℕ} {v : Json},
      key ∉ entries.map Prod.fst → putEntry entries key v = entries ++ [(key, v)] := by
    intro entries key v hk
    induction entries with
    | nil => rfl
    | cons entry entries ih =>
      obtain ⟨_, _⟩ := entry
      simp only [map_cons, mem_cons, not_or] at hk
      rw [putEntry, if_neg (Ne.symm hk.1), ih hk.2]
      rfl
  induction members using List.reverseRecOn with
  | nil => rfl
  | append_singleton members member ih =>
    obtain ⟨key, v⟩ := member
    rw [map_append, nodup_append] at h
    obtain ⟨hn, -, hd⟩ := h
    rw [ofMembers_append, ih hn]
    exact hp fun hm => hd key hm key (by simp) rfl

/-- **The text of a tree denotes the tree.** -/
theorem render_derives {heap : ℕ → HeapObject} {v : Json} {object : Value}
    (hi : ∀ s ∈ indent, Whitespace s) (h : Represents heap v object) :
    Derives (.value v) (render indent level v) := by
  induction v using Json.induct generalizing object level with
  | null =>
    rw [render]
    exact .null
  | bool b =>
    cases b with
    | true =>
      rw [render]
      exact .true
    | false =>
      rw [render]
      exact .false
  | number n =>
    cases h
    rw [render]
    exact .number (numeral_intToString _)
  | string s =>
    rw [render]
    exact .string (chars_content s)
  | list vs ih =>
    cases h with
    | list hh hvs =>
      have hd : ∀ v ∈ vs, Derives (.value v) (render indent (level + 1) v) := by
        intro v hv
        obtain ⟨x, -, hx⟩ := forall₂_mem_right hvs.flip hv
        exact ih v hv hx
      cases vs with
      | nil =>
        rw [render]
        exact .emptyArray whitespace_nil
      | cons v vs =>
        have hf := Derives.element (whitespace_newline hi (level + 1))
          (hd v mem_cons_self) whitespace_nil
        have := derives_renderElements hi (fun v hv => hd v (mem_cons_of_mem _ hv))
          hf (whitespace_newline hi level)
        rw [render]
        simpa using this
  | map members ih =>
    cases h with
    | map hh _ hvl hn =>
      have hd : ∀ member ∈ members,
          Derives (.value member.2) (render indent (level + 1) member.2) := by
        intro member hm
        obtain ⟨x, -, hx⟩ := forall₂_mem_right hvl.flip (mem_map_of_mem hm)
        exact ih member hm hx
      cases members with
      | nil =>
        rw [render]
        exact .emptyObject whitespace_nil
      | cons member members =>
        obtain ⟨key, v⟩ := member
        obtain ⟨_, hc, hw₂⟩ := chars_colon indent
        have hf := Derives.member (whitespace_newline hi (level + 1)) (chars_content key)
          whitespace_nil hw₂ (hd (key, v) mem_cons_self) whitespace_nil
        have := derives_renderMembers hi
          (fun member hm => hd member (mem_cons_of_mem _ hm)) hf
          (whitespace_newline hi level)
        rw [nil_append, ofMembers_of_nodup hn] at this
        rw [render, hc]
        simpa using this

end Grammar

section RoundTrip

/-- **Encoding and decoding gives the tree back**, with the plain stringifier and with every indentation
that is whitespace; and without a cycle the cycle check does not throw. -/
theorem json_roundTrip (heap : ℕ → HeapObject) (toEncodable : Value → Option Value)
    (indent : Option (List ℕ)) (hindent : ∀ s ∈ indent, Whitespace s) :
    (∀ v object, Represents heap v object → ∃ text,
      (∃ n, ∀ fuel ≥ n, JsonEncoder.stringify ⟨heap, toEncodable, indent⟩ fuel object = .ok text) ∧
        parseJson text = .ok v) ∧
      ∀ object, JsonEncoder.Acyclic ⟨heap, toEncodable, indent⟩ object → ∀ fuel error,
        JsonEncoder.stringify ⟨heap, toEncodable, indent⟩ fuel object = .error error →
          ¬error.IsCyclic := by
  refine ⟨fun v object h => ?_, fun object ha fuel error he => ?_⟩
  · refine ⟨render indent 0 v, ⟨sizeOf v, fun fuel hf => ?_⟩, ?_⟩
    · unfold JsonEncoder.stringify
      rw [writeObject_eq h hf (.inr rfl) (by simp)]
      rfl
    · refine parseJson_of_denotes ⟨[], render indent 0 v, [], by simp, whitespace_nil, ?_,
        whitespace_nil⟩
      exact render_derives hindent h
  · have hr := writeObject_returns fuel object ⟨[], [], 0⟩
      ha (by simp)
    unfold JsonEncoder.stringify at he
    revert hr he
    cases JsonEncoder.writeObject ⟨heap, toEncodable, indent⟩ fuel object ⟨[], [], 0⟩ with
    | ok w =>
      intro he
      cases he
    | error _ =>
      intro he
      cases he
      exact fun h => h

/-- A list with the same map twice, and with a string that needs escapes and has half of a pair. -/
def sharedHeap (address : ℕ) : HeapObject :=
  if address = 0 then .list [.int (-12), .string [0x22, 0x0A, 0xD800], .object 1, .object 1]
  else .map [(.string [0x61], .null)]

def sharedTree : Json :=
  .list [.number (.int (-12)), .string [0x22, 0x0A, 0xD800], .map [([0x61], .null)],
    .map [([0x61], .null)]]

theorem json_roundTrip_shared :
    Represents sharedHeap sharedTree (.object 0) ∧ ∃ text,
      (∃ n, ∀ fuel ≥ n,
        JsonEncoder.stringify ⟨sharedHeap, fun _ => none, some [0x20, 0x09]⟩ fuel (.object 0) =
          .ok text) ∧ parseJson text = .ok sharedTree := by
  have hm : Represents sharedHeap (.map [([0x61], .null)]) (.object 1) :=
    .map rfl rfl (.cons .null .nil) (by simp)
  have ht : Represents sharedHeap sharedTree (.object 0) :=
    .list rfl (.cons (.int _) (.cons (.string _) (.cons hm (.cons hm .nil))))
  refine ⟨ht, (json_roundTrip sharedHeap (fun _ => none) (some [0x20, 0x09]) ?_).1 _ _ ht⟩
  intro s hs c hc
  cases hs
  simp only [mem_cons, not_mem_nil, or_false] at hc
  rcases hc with rfl | rfl
  · exact .inl rfl
  · exact .inr (.inl rfl)

end RoundTrip

end DartSdk.Convert
