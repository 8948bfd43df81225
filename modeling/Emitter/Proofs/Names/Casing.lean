import Emitter.Target.Basic
import Mathlib

/-!
# Spellings of variables

What the conventions for names keep apart. A variable starts with no capital letter, a constant has
no small one, and the underscore behind a reserved word makes it no other reserved word. Hence a
variable is printed like a given word exactly if its name is that word in lower camel case, unless
the word is a reserved one with an underscore.
-/

namespace Emitter

namespace Text

/-- The range of code points lies between the given ones of ASCII, or behind ASCII and clear of
surrogates. -/
def IsImage (low high first last : Int) : Prop :=
  (low ≤ first ∧ last ≤ high) ∨ (128 ≤ first ∧ last < 0xD800) ∨ (0xE000 ≤ first ∧ last ≤ 0x10FFFF)

instance (low high first last : Int) : Decidable (IsImage low high first last) :=
  inferInstanceAs (Decidable (_ ∨ _ ∨ _))

/-- Of the letters of ASCII, the tables map only to small ones for lower case and only to capital
ones for upper case. -/
theorem isImage_tables :
    (∀ run ∈ lowerRuns, IsImage 97 122 (run.first + run.shift) (run.last + run.shift)) ∧
    (∀ run ∈ upperRuns, IsImage 65 90 (run.first + run.shift) (run.last + run.shift)) ∧
    ∀ p ∈ upperExpansions, p.2 ≠ [] ∧ ∀ code ∈ p.2, IsImage 65 90 (code : Nat) (code : Nat) := by
  decide +kernel

/-- What is not among the images is behind a run or in front of it. -/
theorem IsImage.apart {low high first last : Int} (h : IsImage low high first last) {a b : Int}
    (hb : b < 128) (habove : high < a ∨ b < low) : b < first ∨ last < a := by
  unfold IsImage at h
  omega

/-- What a table maps nothing to is only the image of itself. -/
theorem mappedCode_eq_self {runs : List CaseRun} {first last code : Nat} (hpos : 0 < first)
    (h : ∀ run ∈ runs, (last : Int) < run.first + run.shift ∨ run.last + run.shift < first)
    (hfirst : first ≤ mappedCode runs code) (hlast : mappedCode runs code ≤ last) :
    mappedCode runs code = code ∧ ∀ run ∈ runs, run.covers code = false := by
  unfold mappedCode at hfirst hlast ⊢
  split at hfirst
  case h_1 run hfind =>
    have hcovers := List.find?_some hfind
    simp only [CodeRun.covers, Bool.and_eq_true, decide_eq_true_eq] at hcovers
    have hrun := h run (List.mem_of_find?_eq_some hfind)
    simp only [hfind] at hlast
    omega
  case h_2 hfind => exact ⟨rfl, by simpa using List.find?_eq_none.mp hfind⟩

/-- The code point of a character that is not the null character. -/
theorem toNat_ofNat_of_pos {code : Nat} (h : 0 < (Char.ofNat code).toNat) :
    (Char.ofNat code).toNat = code := by
  by_cases hvalid : code.isValidChar
  · simp [Char.ofNat, hvalid, Char.ofNatAux, Char.toNat]
  · simp [Char.ofNat, hvalid, Char.toNat] at h

theorem isUpper_iff (c : Char) : c.isUpper = true ↔ 65 ≤ c.toNat ∧ c.toNat ≤ 90 := by
  simp [Char.isUpper, UInt32.le_iff_toNat_le]

theorem isLower_iff (c : Char) : c.isLower = true ↔ 97 ≤ c.toNat ∧ c.toNat ≤ 122 := by
  simp [Char.isLower, UInt32.le_iff_toNat_le]

/-- Lower case leaves no capital letter of ASCII. -/
theorem isUpper_of_mem_lowercase {c d : Char} (h : d ∈ lowercase c) : d.isUpper = false := by
  rw [← Bool.not_eq_true, isUpper_iff]
  rintro ⟨hfirst, hlast⟩
  unfold lowercase at h
  split_ifs at h
  · rcases List.mem_pair.mp h with rfl | rfl <;> revert hfirst hlast <;> decide
  · obtain rfl := List.mem_singleton.mp h
    have hcode := toNat_ofNat_of_pos (Nat.lt_of_lt_of_le (by decide) hfirst)
    rw [hcode] at hfirst hlast
    have hruns : ∀ run ∈ lowerRuns, ((90 : Nat) : Int) < run.first + run.shift ∨
        run.last + run.shift < (65 : Nat) := fun run hrun =>
      (isImage_tables.1 run hrun).apart (by decide) (by decide)
    obtain ⟨heq, hcovers⟩ := mappedCode_eq_self (by decide) hruns hfirst hlast
    have hletters : ∃ run ∈ lowerRuns, run.first = 65 ∧ run.last = 90 ∧ run.step = 1 :=
      ⟨_, List.mem_cons_self, rfl, rfl, rfl⟩
    obtain ⟨run, hrun, hfirst', hlast', hstep⟩ := hletters
    have hno := hcovers run hrun
    simp [CodeRun.covers, hfirst', hlast', hstep, Nat.mod_one] at hno
    omega

/-- Only the underscore is an underscore in lower case. -/
theorem eq_underscore_of_mem_lowercase {c : Char} (h : '_' ∈ lowercase c) : c = '_' := by
  unfold lowercase at h
  split_ifs at h
  · exact absurd h (by decide)
  · have hcode : 95 = (Char.ofNat (mappedCode lowerRuns c.toNat)).toNat :=
      congrArg Char.toNat (List.mem_singleton.mp h)
    rw [toNat_ofNat_of_pos (by omega)] at hcode
    have hruns : ∀ run ∈ lowerRuns, ((95 : Nat) : Int) < run.first + run.shift ∨
        run.last + run.shift < (95 : Nat) := fun run hrun =>
      (isImage_tables.1 run hrun).apart (by decide) (by decide)
    have hsame := (mappedCode_eq_self (by decide) hruns hcode.le hcode.ge).1
    rw [← Char.ofNat_toNat c, ← hsame, ← hcode]

/-- Upper case leaves no small letter of ASCII. -/
theorem isLower_of_mem_uppercase {c d : Char} (h : d ∈ uppercase c) : d.isLower = false := by
  rw [← Bool.not_eq_true, isLower_iff]
  rintro ⟨hfirst, hlast⟩
  unfold uppercase at h
  split at h
  case h_1 codes hlookup =>
    obtain ⟨before, after, hsplit, -⟩ := List.lookup_eq_some_iff.mp hlookup
    obtain ⟨code, hcode, rfl⟩ := List.mem_map.mp h
    have hnat := toNat_ofNat_of_pos (Nat.lt_of_lt_of_le (by decide) hfirst)
    have himage := (isImage_tables.2.2 (c.toNat, codes) (by simp [hsplit])).2 code hcode
    have := himage.apart (a := 97) (b := 122) (by decide) (by decide)
    omega
  case h_2 =>
    obtain rfl := List.mem_singleton.mp h
    have hcode := toNat_ofNat_of_pos (Nat.lt_of_lt_of_le (by decide) hfirst)
    rw [hcode] at hfirst hlast
    have hruns : ∀ run ∈ upperRuns, ((122 : Nat) : Int) < run.first + run.shift ∨
        run.last + run.shift < (97 : Nat) := fun run hrun =>
      (isImage_tables.2.1 run hrun).apart (by decide) (by decide)
    obtain ⟨heq, hcovers⟩ := mappedCode_eq_self (by decide) hruns hfirst hlast
    have hletters : ∃ run ∈ upperRuns, run.first = 97 ∧ run.last = 122 ∧ run.step = 1 :=
      ⟨_, List.mem_cons_self, rfl, rfl, rfl⟩
    obtain ⟨run, hrun, hfirst', hlast', hstep⟩ := hletters
    have hno := hcovers run hrun
    simp [CodeRun.covers, hfirst', hlast', hstep, Nat.mod_one] at hno
    omega

/-- A constant is spelled without small letters of ASCII. -/
theorem isLower_of_mem_upperSnakeCase {name : String} {d : Char}
    (h : d ∈ (upperSnakeCase name).toList) : d.isLower = false := by
  have htail : ∀ (cs : List Char) (before : Char), ∀ d ∈ upperSnakeTail before cs,
      d.isLower = false := by
    intro cs
    induction cs with
    | nil => simp [upperSnakeTail]
    | cons c cs ih =>
        intro before d hd
        simp only [upperSnakeTail, List.mem_append] at hd
        rcases hd with (hd | hd) | hd
        · split_ifs at hd
          · obtain rfl := List.mem_singleton.mp hd
            rfl
          · simp at hd
        · exact isLower_of_mem_uppercase hd
        · exact ih c d hd
  unfold upperSnakeCase at h
  split at h
  case h_1 => simp at h
  case h_2 c rest _ =>
    rw [String.toList_ofList] at h
    exact (List.mem_append.mp h).elim isLower_of_mem_uppercase (htail rest c d)

/-- The text starts with a capital letter of ASCII. -/
def startsCapital (text : String) : Bool := text.toList.head?.any Char.isUpper

theorem startsCapital_append {first second : String} (h : startsCapital first = true) :
    startsCapital (first ++ second) = true := by
  unfold startsCapital at *
  cases hfirst : first.toList with
  | nil => simp [hfirst] at h
  | cons c cs => simpa [hfirst] using h

theorem startsCapital_camelCase (name : String) : startsCapital (camelCase name) = false := by
  unfold camelCase startsCapital
  split
  · rfl
  case h_2 c rest _ =>
    rw [String.toList_ofList]
    cases hc : lowercase c with
    | nil => simp [lowercase] at hc; split_ifs at hc
    | cons d ds => simpa using isUpper_of_mem_lowercase (hc ▸ List.mem_cons_self : d ∈ lowercase c)

theorem lowercase_underscore : lowercase '_' = ['_'] := by decide

/-- A text that starts with an underscore is in camel case as it is. -/
theorem camelCase_eq_iff_of_underscore {name : String} {rest : List Char} :
    camelCase name = String.ofList ('_' :: rest) ↔ name = String.ofList ('_' :: rest) := by
  constructor
  · intro h
    unfold camelCase at h
    split at h
    case h_1 => simpa using congrArg String.toList h
    case h_2 c cs hname =>
      have hchars : lowercase c ++ cs = '_' :: rest := by
        simpa using congrArg String.toList h
      cases hc : lowercase c with
      | nil => simp [lowercase] at hc; split_ifs at hc
      | cons d ds =>
          rw [hc, List.cons_append, List.cons.injEq] at hchars
          obtain ⟨rfl, hrest⟩ := hchars
          obtain rfl := eq_underscore_of_mem_lowercase (hc ▸ List.mem_cons_self)
          have hds : ds = [] := by
            simpa [lowercase_underscore] using hc.symm
          rw [← String.ofList_toList (s := name), hname]
          simp [← hrest, hds]
  · rintro rfl
    simp [camelCase, lowercase_underscore]

end Text

namespace Target

open Text

variable {t : Target} {name word : String}

/-- Reserved words start with something other than a capital letter and do not end in an
underscore. -/
theorem ends_of_mem_keywords : word ∈ t.keywords.words →
    (word.toList.head?.any fun c => !c.isUpper) = true ∧ word.toList.getLast? ≠ some '_' := by
  revert word
  cases t with
  | actionScript => decide
  | cFamily d => cases d <;> decide

/-- No reserved word is another one with an underscore behind it. -/
theorem append_underscore_notMem_keywords (word : String) : word ++ "_" ∉ t.keywords.words :=
  fun hmem => (ends_of_mem_keywords hmem).2 (by simp)

theorem localName_notMem_keywords (t : Target) (name : String) :
    t.localName name ∉ t.keywords.words := by
  unfold localName Keywords.escape
  split_ifs with hmem
  · exact append_underscore_notMem_keywords _
  · exact hmem

/-- A variable is printed as its name in lower camel case, with an underscore if that is a reserved
word. -/
theorem localName_eq_iff : t.localName name = word ↔
    (word ∉ t.keywords.words ∧ camelCase name = word) ∨
      (camelCase name ∈ t.keywords.words ∧ word = camelCase name ++ "_") := by
  unfold localName Keywords.escape
  split_ifs with hmem
  · constructor
    · rintro rfl
      exact .inr ⟨hmem, rfl⟩
    · rintro (⟨hword, rfl⟩ | ⟨-, rfl⟩)
      · exact absurd hmem hword
      · rfl
  · constructor
    · rintro rfl
      exact .inl ⟨hmem, rfl⟩
    · rintro (⟨-, h⟩ | ⟨h, -⟩)
      · exact h
      · exact absurd h hmem

/-- A word that is neither reserved nor a reserved one with an underscore. -/
theorem localName_eq_iff_of_free (hword : word ∉ t.keywords.words)
    (hfree : ∀ k ∈ t.keywords.words, word ≠ k ++ "_") :
    t.localName name = word ↔ camelCase name = word := by
  rw [localName_eq_iff]
  constructor
  · rintro (⟨-, h⟩ | ⟨h, hword⟩)
    · exact h
    · exact absurd hword (hfree _ h)
  · exact fun h => .inl ⟨hword, h⟩

theorem startsCapital_localName (t : Target) (name : String) :
    startsCapital (t.localName name) = false := by
  have hwords : ∀ k ∈ t.keywords.words, startsCapital (k ++ "_") = false := fun k hk => by
    have hfirst := (ends_of_mem_keywords hk).1
    cases hc : k.toList.head? with
    | none => simp [hc] at hfirst
    | some c => simpa [startsCapital, hc] using hfirst
  rcases localName_eq_iff.mp (Eq.refl (t.localName name)) with ⟨-, h⟩ | ⟨hmem, h⟩
  · rw [← h]
    exact startsCapital_camelCase name
  · rw [h]
    exact hwords _ hmem

/-- The names are spelled alike: in lower camel case they are one name, or the one is a reserved
word there and the other that word with an underscore. -/
def SpellsAlike (t : Target) (first second : String) : Prop :=
  camelCase first = camelCase second ∨
    (camelCase first ∈ t.keywords.words ∧ camelCase second = camelCase first ++ "_") ∨
    (camelCase second ∈ t.keywords.words ∧ camelCase first = camelCase second ++ "_")

theorem localName_eq_localName_iff {first second : String} :
    t.localName first = t.localName second ↔ t.SpellsAlike first second := by
  unfold SpellsAlike localName Keywords.escape
  generalize camelCase first = a
  generalize camelCase second = b
  have hne : ∀ {k k' : String}, k' ∈ t.keywords.words → k' ≠ k ++ "_" :=
    fun hk' h => append_underscore_notMem_keywords _ (h ▸ hk')
  split_ifs with ha hb hb
  · simp [ha, hb, hne ha, hne hb]
  · have hab : a ≠ b := fun h => hb (h ▸ ha)
    simp [ha, hb, hab, eq_comm]
  · have hab : a ≠ b := fun h => ha (h ▸ hb)
    simp [ha, hb, hab]
  · simp [ha, hb]

end Target

end Emitter
