import Emitter.Proofs.Json.Numerals

/-!
# JSON texts that read back

A value whose strings denote texts and whose numbers can be written is read back from its own text.
The reader's fuel is bounded by the length of the text: a value takes at most two units for each of
its characters, and a list of items or members at most one more.
-/

namespace Emitter.Json

theorem hexValue_digitChar {n : ℕ} (h : n < 16) : hexValue (Nat.digitChar n) = some n := by
  revert n
  decide

theorem hexQuad_control {n : ℕ} (h : n < 32) :
    hexQuad '0' '0' (Nat.digitChar (n / 16)) (Nat.digitChar (n % 16)) = some n := by
  have hzero : hexValue '0' = some 0 := rfl
  simp only [hexQuad, hzero, hexValue_digitChar (show n / 16 < 16 by omega),
    hexValue_digitChar (show n % 16 < 16 by omega), Option.bind_eq_bind, Option.bind_some]
  exact congrArg some (by omega)

/-- The characters that stand for one character are read as it. -/
theorem readUnits_stringChar (units : List ℕ) (c : Char) (rest : List Char) :
    readUnits units (stringChar c ++ rest) = readUnits (c.toNat :: units) rest := by
  unfold stringChar
  split_ifs with hquote hbackslash hcontrol
  · subst hquote
    simp [readUnits, shortEscape]
  · subst hbackslash
    simp [readUnits, shortEscape]
  · simp [readUnits, hexQuad_control hcontrol]
  · simp [readUnits, hbackslash, hcontrol]

theorem readUnits_flatMap (units : List ℕ) (cs rest : List Char) :
    readUnits units (cs.flatMap stringChar ++ '"' :: rest) =
      some (units.reverse ++ cs.map Char.toNat, rest) := by
  induction cs generalizing units with
  | nil => simp [readUnits]
  | cons c cs ih =>
      rw [List.flatMap_cons, List.append_assoc, readUnits_stringChar, ih]
      simp

/-- No character is a surrogate. -/
theorem not_surrogate (c : Char) :
    isHighSurrogate c.toNat = false ∧ isLowSurrogate c.toNat = false := by
  have hvalid : c.toNat < 0xD800 ∨ 0xDFFF < c.toNat ∧ c.toNat < 0x110000 := c.valid
  simp only [isHighSurrogate, isLowSurrogate, Bool.and_eq_false_iff, decide_eq_false_iff_not]
  omega

theorem charsOfUnits_map (cs : List Char) : charsOfUnits (cs.map Char.toNat) = some cs := by
  match cs with
  | [] => rfl
  | [c] => simp [charsOfUnits, not_surrogate c]
  | c :: d :: cs =>
      have ih := charsOfUnits_map (d :: cs)
      simp only [List.map_cons] at ih ⊢
      simp [charsOfUnits, not_surrogate c, ih]

theorem readString_render (s : String) (rest : List Char) :
    readString (s.toList.flatMap stringChar ++ '"' :: rest) = some (some s, rest) := by
  rw [readString, readUnits_flatMap]
  simp [charsOfUnits_map]

/-- Every number of the value can be written, and every string and key denotes a text. -/
inductive Plain : Json → Prop
  | null : Plain .null
  | bool (b : Bool) : Plain (.bool b)
  | number {n : Numeral} (h : n.Writable) : Plain (.number n)
  | string (s : String) : Plain (ofString s)
  | array {items : List Json} (h : ∀ item ∈ items, Plain item) : Plain (.array items)
  | record {members : List (String × Json)} (h : ∀ m ∈ members, Plain m.2) : Plain (record members)

theorem head_render (n : Numeral) :
    ∃ c cs, n.render = c :: cs ∧ (c = '-' ∨ c.isDigit = true) := by
  have hdigits : ∀ k, ∃ c cs, Nat.toDigits 10 k = c :: cs ∧ c.isDigit = true := fun k => by
    obtain ⟨c, cs, hcs⟩ := List.exists_cons_of_ne_nil (Nat.toDigits_ne_nil (n := k) (b := 10))
    exact ⟨c, cs, hcs, isDigit_of_mem_toDigits (by rw [hcs]; exact List.mem_cons_self)⟩
  obtain ⟨negative, digits, places, power⟩ := n
  cases negative with
  | true => exact ⟨'-', _, rfl, .inl rfl⟩
  | false =>
      cases places with
      | none =>
          obtain ⟨c, cs, hcs, hc⟩ := hdigits digits
          exact ⟨c, cs ++ _, by simp [Numeral.render, hcs]; rfl, .inr hc⟩
      | some places =>
          obtain ⟨c, cs, hcs, hc⟩ := hdigits (digits / Nat.pow 10 places)
          exact ⟨c, cs ++ _, by simp only [Numeral.render, hcs]; simp; rfl, .inr hc⟩

/-- A value starts with neither white space nor a closing bracket. -/
theorem head_renderChars (j : Json) :
    ∃ c cs, j.renderChars = c :: cs ∧ isSpace c = false ∧ c ≠ ']' := by
  cases j with
  | null => exact ⟨'n', _, rfl, rfl, by decide⟩
  | bool b => cases b <;> exact ⟨_, _, rfl, rfl, by decide⟩
  | number n =>
      obtain ⟨c, cs, hcs, hc⟩ := head_render n
      refine ⟨c, cs, by rw [renderChars, hcs], ?_, ?_⟩
      · rw [Bool.eq_false_iff]
        intro hspace
        simp only [isSpace, Bool.or_eq_true, decide_eq_true_eq] at hspace
        rcases hspace with ((rfl | rfl) | rfl) | rfl <;> simp at hc
      · rintro rfl
        simp at hc
  | string s => exact ⟨'"', _, rfl, rfl, by decide⟩
  | array items => exact ⟨'[', _, rfl, rfl, by decide⟩
  | object members => exact ⟨'\x7b', _, rfl, rfl, by decide⟩

theorem skipSpace_renderChars (j : Json) (rest : List Char) :
    skipSpace (j.renderChars ++ rest) = j.renderChars ++ rest := by
  obtain ⟨c, cs, hcs, hspace, -⟩ := head_renderChars j
  simp [skipSpace, hcs, hspace]

/-- The value is read back from its text, whatever follows that is not part of a number. -/
def ReadsBack (j : Json) : Prop :=
  ∀ fuel rest, 2 * j.renderChars.length ≤ fuel → EndsNumber rest →
    readValue fuel (j.renderChars ++ rest) = some (j, rest)

theorem ReadsBack.before {j : Json} (h : j.ReadsBack) {fuel : ℕ}
    (hfuel : 2 * j.renderChars.length ≤ fuel) {c : Char} (hc : c ∈ [',', ']', '\x7d'])
    (rest : List Char) : readValue fuel (j.renderChars ++ c :: rest) = some (j, c :: rest) := by
  refine h fuel (c :: rest) hfuel ?_
  rintro _ ⟨⟩
  simp only [List.mem_cons, List.not_mem_nil, or_false] at hc
  rcases hc with rfl | rfl | rfl <;> decide

theorem readsBack_number {n : Numeral} (h : n.Writable) : (number n).ReadsBack := by
  intro fuel rest hfuel hrest
  obtain ⟨c, cs, hcs, hc⟩ := head_render n
  obtain ⟨fuel, rfl⟩ : ∃ k, fuel = k + 1 := by
    simp only [renderChars, hcs, List.length_cons] at hfuel
    exact ⟨fuel - 1, by omega⟩
  have hread := readNumber_render h hrest
  have hspace := skipSpace_renderChars (number n) rest
  simp only [renderChars, hcs, List.cons_append] at hread hspace ⊢
  rw [readValue, hspace]
  -- Neither a sign nor a digit starts a value of another kind.
  split
  case h_7 => simp [hread]
  all_goals
    rename_i heq
    obtain ⟨rfl, -⟩ := List.cons.inj heq
    simp at hc

theorem readItems_render {items : List Json} (hne : items ≠ [])
    (h : ∀ item ∈ items, item.ReadsBack) (fuel : ℕ) (rest : List Char)
    (hfuel : 2 * (renderItems items).length + 1 ≤ fuel) :
    readItems fuel (renderItems items ++ ']' :: rest) = some (items, rest) := by
  induction items generalizing fuel with
  | nil => exact absurd rfl hne
  | cons item items ih =>
      obtain ⟨fuel, rfl⟩ : ∃ k, fuel = k + 1 := ⟨fuel - 1, by omega⟩
      have hitem := h item List.mem_cons_self
      cases items with
      | nil =>
          rw [renderItems] at hfuel ⊢
          have hlength : 2 * item.renderChars.length ≤ fuel := by omega
          have hread := hitem.before hlength (c := ']') (by decide)
          simp [readItems, hread, skipSpace, isSpace]
      | cons next items =>
          simp only [renderItems, List.append_assoc, List.cons_append, List.length_append,
            List.length_cons] at hfuel ⊢
          have hlength : 2 * item.renderChars.length ≤ fuel := by omega
          have hread := hitem.before hlength (c := ',') (by decide)
          have hrest := ih (by simp) (fun item hmem => h item (List.mem_cons_of_mem _ hmem)) fuel
            (by omega)
          simp [readItems, hread, skipSpace, isSpace, hrest]

/-- The members of an object whose keys denote texts. -/
abbrev keyed (members : List (String × Json)) : List (Option String × Json) :=
  members.map fun (key, value) => (some key, value)

theorem readMembers_render {members : List (String × Json)} (hne : members ≠ [])
    (h : ∀ m ∈ members, m.2.ReadsBack) (fuel : ℕ) (rest : List Char)
    (hfuel : 2 * (renderMembers (keyed members)).length + 1 ≤ fuel) :
    readMembers fuel (renderMembers (keyed members) ++ '\x7d' :: rest) =
      some (keyed members, rest) := by
  induction members generalizing fuel with
  | nil => exact absurd rfl hne
  | cons m members ih =>
      obtain ⟨key, value⟩ := m
      obtain ⟨fuel, rfl⟩ : ∃ k, fuel = k + 1 := ⟨fuel - 1, by omega⟩
      have hvalue : value.ReadsBack := h _ List.mem_cons_self
      cases members with
      | nil =>
          simp only [List.map_cons, List.map_nil, renderMembers, renderString, Option.getD_some,
            List.append_assoc, List.cons_append, List.nil_append, List.length_append,
            List.length_cons] at hfuel ⊢
          have hlength : 2 * value.renderChars.length ≤ fuel := by omega
          have hread := hvalue.before hlength (c := '\x7d') (by decide)
          simp [readMembers, readString_render, skipSpace, isSpace, hread]
      | cons next members =>
          have hrest := ih (by simp) (fun m hmem => h m (List.mem_cons_of_mem _ hmem)) fuel
          simp only [List.map_cons, renderMembers, renderString, Option.getD_some,
            List.append_assoc, List.cons_append, List.nil_append, List.length_append,
            List.length_cons] at hfuel hrest ⊢
          have hlength : 2 * value.renderChars.length ≤ fuel := by omega
          have hread := hvalue.before hlength (c := ',') (by decide)
          simp [readMembers, readString_render, skipSpace, isSpace, hread, hrest (by omega)]

theorem skipSpace_cons {c : Char} (h : isSpace c = false) (rest : List Char) :
    skipSpace (c :: rest) = c :: rest := by simp [skipSpace, h]

theorem readsBack_array {items : List Json} (h : ∀ item ∈ items, item.ReadsBack) :
    (array items).ReadsBack := by
  intro fuel rest hfuel _
  simp only [renderChars, List.cons_append, List.length_cons, List.length_append, List.append_assoc,
    List.nil_append, List.length_nil] at hfuel ⊢
  obtain ⟨fuel, rfl⟩ : ∃ k, fuel = k + 1 := ⟨fuel - 1, by omega⟩
  rw [readValue, skipSpace_cons (by decide)]
  by_cases hne : items = []
  · subst hne
    simp [renderItems, skipSpace, isSpace]
  · have hread := readItems_render hne h fuel rest (by omega)
    obtain ⟨c, cs, hcs, hspace, hclosing⟩ :
        ∃ c cs, renderItems items = c :: cs ∧ isSpace c = false ∧ c ≠ ']' := by
      match items with
      | [item] => exact head_renderChars item
      | item :: next :: items =>
          obtain ⟨c, cs, hcs, hc⟩ := head_renderChars item
          exact ⟨c, cs ++ ',' :: renderItems (next :: items), by simp [renderItems, hcs], hc⟩
    rw [hcs] at hread ⊢
    simp only [List.cons_append] at hread ⊢
    simp [skipSpace_cons hspace, hclosing, hread]

theorem readsBack_record {members : List (String × Json)} (h : ∀ m ∈ members, m.2.ReadsBack) :
    (record members).ReadsBack := by
  intro fuel rest hfuel _
  have hkeyed : record members = object (keyed members) := rfl
  rw [hkeyed] at hfuel ⊢
  simp only [renderChars, List.cons_append, List.length_cons, List.length_append, List.append_assoc,
    List.nil_append, List.length_nil] at hfuel ⊢
  obtain ⟨fuel, rfl⟩ : ∃ k, fuel = k + 1 := ⟨fuel - 1, by omega⟩
  rw [readValue, skipSpace_cons (by decide)]
  by_cases hne : members = []
  · subst hne
    simp [renderMembers, skipSpace, isSpace]
  · have hread := readMembers_render hne h fuel rest (by omega)
    obtain ⟨cs, hcs⟩ : ∃ cs, renderMembers (keyed members) = '"' :: cs := by
      match members with
      | [member] => exact ⟨_, rfl⟩
      | member :: next :: members => exact ⟨_, rfl⟩
    rw [hcs] at hread ⊢
    simp only [List.cons_append] at hread ⊢
    simp [skipSpace_cons (c := '"') (by decide), hread]

theorem Plain.readsBack {j : Json} (h : j.Plain) : j.ReadsBack := by
  induction h with
  | null =>
      rintro (_ | fuel) rest hfuel -
      · simp [renderChars] at hfuel
      · simp [renderChars, readValue, skipSpace, isSpace]
  | bool b =>
      rintro (_ | fuel) rest hfuel -
      · cases b <;> simp [renderChars] at hfuel
      · cases b <;> simp [renderChars, readValue, skipSpace, isSpace]
  | string s =>
      rintro (_ | fuel) rest hfuel -
      · simp [ofString, renderChars, renderString] at hfuel
      · simp [ofString, renderChars, renderString, readValue, readString_render, skipSpace, isSpace]
  | number h => exact readsBack_number h
  | array _ ih => exact readsBack_array ih
  | record _ ih => exact readsBack_record ih

/-- A plain value is what its text denotes. -/
theorem Plain.parse?_render {j : Json} (h : j.Plain) : parse? j.render = some j := by
  have hread := h.readsBack (2 * j.renderChars.length + 2) [] (by omega) (by simp [EndsNumber])
  rw [List.append_nil] at hread
  rw [parse?, render, String.toList_ofList]
  simp only [hread, Option.bind_eq_bind, Option.bind_some]
  rfl

end Emitter.Json
