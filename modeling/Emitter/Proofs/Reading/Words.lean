import Emitter.Program.Basic
import Emitter.Proofs.Names.Casing
import Emitter.Proofs.Reading.Piece

/-!
# Names are printed as words

The conventions for names turn identifiers into words. Lower and upper case of a letter are letters
again, a constant's name has no small letters of ASCII, and a name that is escaped is not reserved.
-/

namespace Emitter.Text

open Reading

/-- The range of code points keeps clear of surrogates and of what is not a letter in ASCII. -/
def isLetterRange (first last : Int) : Bool :=
  decide (65 ≤ first ∧ last ≤ 90) || decide (97 ≤ first ∧ last ≤ 122) ||
    decide (128 ≤ first ∧ last < 0xD800) || decide (0xE000 ≤ first ∧ last ≤ 0x10FFFF)

/-- The range holds no small letter of ASCII. -/
def isLargeRange (first last : Int) : Bool :=
  isLetterRange first last && (decide (last ≤ 90) || decide (128 ≤ first))

theorem isWordStart_ofNat (code : Nat) {first last : Int} (h : isLetterRange first last = true)
    (hfirst : first ≤ code) (hlast : (code : Int) ≤ last) :
    isWordStart (Char.ofNat code) = true ∧ (Char.ofNat code).toNat = code := by
  have hvalid : code.isValidChar := by
    simp only [isLetterRange, Bool.or_eq_true, decide_eq_true_eq] at h
    unfold Nat.isValidChar
    omega
  have hcode : (Char.ofNat code).toNat = code := by
    simp [Char.ofNat, hvalid, Char.ofNatAux, Char.toNat]
  refine ⟨?_, hcode⟩
  rw [isWordStart_iff, hcode]
  simp only [isLetterRange, Bool.or_eq_true, decide_eq_true_eq] at h
  omega

/-- A code point of a run is between the run's ends. -/
theorem CodeRun.le_of_covers {run : CodeRun} {code : Nat} (h : run.covers code = true) :
    run.first ≤ code ∧ code ≤ run.last := by
  simp only [covers, Bool.and_eq_true, decide_eq_true_eq] at h
  exact h.1

/-- The code point that a table maps a letter to is a letter, and the same letter where no row of
the table covers it. -/
theorem isWordStart_mappedCode {runs : List CaseRun} {range : Int → Int → Bool}
    (hrange : ∀ first last, range first last = true → isLetterRange first last = true)
    (h : ∀ run ∈ runs, range (run.first + run.shift) (run.last + run.shift) = true) {c : Char}
    (hc : isWordStart c = true) :
    isWordStart (Char.ofNat (mappedCode runs c.toNat)) = true ∧
      ((∃ first last : Int, range first last = true ∧
          first ≤ (Char.ofNat (mappedCode runs c.toNat)).toNat ∧
          ((Char.ofNat (mappedCode runs c.toNat)).toNat : Int) ≤ last) ∨
        Char.ofNat (mappedCode runs c.toNat) = c ∧ ∀ run ∈ runs, run.covers c.toNat = false) := by
  unfold mappedCode
  split
  case h_1 run hfind =>
    have hcovers := List.find?_some hfind
    obtain ⟨hfirst, hlast⟩ := CodeRun.le_of_covers hcovers
    have hrun := h run (List.mem_of_find?_eq_some hfind)
    have hpos : 0 ≤ (run.first : Int) + run.shift := by
      have := hrange _ _ hrun
      simp only [isLetterRange, Bool.or_eq_true, decide_eq_true_eq] at this
      omega
    have hnat : (((c.toNat : Int) + run.shift).toNat : Int) = c.toNat + run.shift :=
      Int.toNat_of_nonneg (by omega)
    obtain ⟨hword, hcode⟩ := isWordStart_ofNat ((c.toNat : Int) + run.shift).toNat
      (hrange _ _ hrun) (by omega) (by omega)
    exact ⟨hword, .inl ⟨_, _, hrun, by omega, by omega⟩⟩
  case h_2 hfind =>
    have hsame : Char.ofNat c.toNat = c := Char.ofNat_toNat c
    rw [hsame]
    refine ⟨hc, .inr ⟨rfl, fun run hrun => ?_⟩⟩
    simpa using List.find?_eq_none.mp hfind run hrun

theorem isLetterRange_of_isLargeRange {first last : Int} (h : isLargeRange first last = true) :
    isLetterRange first last = true := by
  simp only [isLargeRange, Bool.and_eq_true] at h
  exact h.1

theorem isLetterRange_of_isImage {first last : Int} (h : IsImage 97 122 first last) :
    isLetterRange first last = true := by
  unfold IsImage at h
  simp only [isLetterRange, Bool.or_eq_true, decide_eq_true_eq]
  tauto

theorem isLargeRange_of_isImage {first last : Int} (h : IsImage 65 90 first last) :
    isLargeRange first last = true := by
  unfold IsImage at h
  simp only [isLargeRange, isLetterRange, Bool.and_eq_true, Bool.or_eq_true, decide_eq_true_eq]
  omega

theorem isLetterRange_of_mem_lowerRuns : ∀ run ∈ lowerRuns,
    isLetterRange (run.first + run.shift) (run.last + run.shift) = true := fun run hrun =>
  isLetterRange_of_isImage (isImage_tables.1 run hrun)

theorem isLargeRange_of_mem_upperRuns : ∀ run ∈ upperRuns,
    isLargeRange (run.first + run.shift) (run.last + run.shift) = true := fun run hrun =>
  isLargeRange_of_isImage (isImage_tables.2.1 run hrun)

theorem isLargeRange_of_mem_upperExpansions : ∀ p ∈ upperExpansions, p.2 ≠ [] ∧
    ∀ code ∈ p.2, isLargeRange (code : Nat) (code : Nat) = true := fun p hp =>
  ⟨(isImage_tables.2.2 p hp).1, fun code hcode =>
    isLargeRange_of_isImage ((isImage_tables.2.2 p hp).2 code hcode)⟩

/-- Lower case turns a letter into letters. -/
theorem isWordStart_of_mem_lowercase {c : Char} (hc : isWordStart c = true) :
    lowercase c ≠ [] ∧ ∀ d ∈ lowercase c, isWordStart d = true := by
  unfold lowercase
  split_ifs
  · decide
  · simpa using
      (isWordStart_mappedCode (fun _ _ h => h) isLetterRange_of_mem_lowerRuns hc).1

/-- Upper case turns a letter into letters, none of them a small one of ASCII. -/
theorem isWordStart_of_mem_uppercase {c : Char} (hc : isWordStart c = true) :
    uppercase c ≠ [] ∧ ∀ d ∈ uppercase c, isWordStart d = true ∧ d.isLower = false := by
  have hlarge : ∀ {d : Char} {first last : Int}, isLargeRange first last = true →
      first ≤ d.toNat → (d.toNat : Int) ≤ last → d.isLower = false := by
    intro d first last h hfirst hlast
    simp only [isLargeRange, Bool.and_eq_true, Bool.or_eq_true, decide_eq_true_eq] at h
    rw [← Bool.not_eq_true]
    intro hlower
    have : 97 ≤ d.toNat ∧ d.toNat ≤ 122 := by
      simpa [Char.isLower, UInt32.le_iff_toNat_le] using hlower
    omega
  unfold uppercase
  split
  case h_1 codes hlookup =>
    obtain ⟨before, after, hsplit, -⟩ := List.lookup_eq_some_iff.mp hlookup
    obtain ⟨hne, hcodes⟩ :=
      isLargeRange_of_mem_upperExpansions (c.toNat, codes) (by simp [hsplit])
    refine ⟨by simpa using hne, fun d hd => ?_⟩
    obtain ⟨code, hcode, rfl⟩ := List.mem_map.mp hd
    have hrange := hcodes code hcode
    obtain ⟨hword, hnat⟩ := isWordStart_ofNat code (isLetterRange_of_isLargeRange hrange)
      (Int.le_refl _) (Int.le_refl _)
    exact ⟨hword, hlarge hrange (by omega) (by omega)⟩
  case h_2 hlookup =>
    obtain ⟨hword, hrange | ⟨hsame, hrest⟩⟩ :=
      isWordStart_mappedCode (fun _ _ => isLetterRange_of_isLargeRange)
        isLargeRange_of_mem_upperRuns hc
    · obtain ⟨first, last, h, hfirst, hlast⟩ := hrange
      simpa using ⟨hword, hlarge h hfirst hlast⟩
    · refine ⟨by simp, fun d hd => ?_⟩
      obtain rfl : d = c := by simpa [hsame] using hd
      refine ⟨hc, ?_⟩
      rw [← Bool.not_eq_true]
      intro hlower
      have hletters : ∃ run ∈ upperRuns, run.first = 97 ∧ run.last = 122 ∧ run.step = 1 :=
        ⟨_, List.mem_cons_self, rfl, rfl, rfl⟩
      obtain ⟨run, hrun, hfirst, hlast, hstep⟩ := hletters
      have hbounds : 97 ≤ d.toNat ∧ d.toNat ≤ 122 := by
        simpa [Char.isLower, UInt32.le_iff_toNat_le] using hlower
      have hno := hrest run hrun
      simp [CodeRun.covers, hfirst, hlast, hstep, Nat.mod_one] at hno
      omega

/-- A digit has no other case. -/
theorem uppercase_of_isDigit {c : Char} (hc : c.isDigit = true) : uppercase c = [c] := by
  have hall : ∀ n ∈ List.range' 48 10, uppercase (Char.ofNat n) = [Char.ofNat n] := by
    decide +kernel
  obtain ⟨hfirst, hlast⟩ := (isDigit_iff c).mp hc
  have := hall c.toNat (by simp [List.mem_range']; exact ⟨c.toNat - 48, by omega, by omega⟩)
  rwa [Char.ofNat_toNat] at this

theorem isWordChar_of_mem_uppercase {c d : Char} (hc : isWordChar c = true)
    (hd : d ∈ uppercase c) : isWordChar d = true ∧ d.isLower = false := by
  rcases Bool.or_eq_true _ _ ▸ hc with hstart | hdigit
  · obtain ⟨hword, hlower⟩ := (isWordStart_of_mem_uppercase hstart).2 d hd
    exact ⟨by simp [isWordChar, hword], hlower⟩
  · rw [uppercase_of_isDigit hdigit, List.mem_singleton] at hd
    subst hd
    refine ⟨hc, ?_⟩
    rw [← Bool.not_eq_true]
    intro hlower
    have : 97 ≤ d.toNat ∧ d.toNat ≤ 122 := by
      simpa [Char.isLower, UInt32.le_iff_toNat_le] using hlower
    have := (isDigit_iff d).mp hdigit
    omega

theorem isWord_ofList_cons {c : Char} {cs : List Char} :
    isWord (String.ofList (c :: cs)) = true ↔
      isWordStart c = true ∧ ∀ d ∈ cs, isWordChar d = true := by
  simp [isWord]

/-- A word's characters. -/
theorem exists_cons_of_isWord {name : String} (h : isWord name = true) :
    ∃ c cs, name.toList = c :: cs ∧ isWordStart c = true ∧ ∀ d ∈ cs, isWordChar d = true := by
  cases ht : name.toList with
  | nil => simp [isWord, ht] at h
  | cons c cs => exact ⟨c, cs, rfl, by simpa [isWord, ht] using h⟩

theorem isWord_append {first second : String} (h : isWord first = true)
    (hs : ∀ c ∈ second.toList, isWordChar c = true) : isWord (first ++ second) = true := by
  obtain ⟨c, cs, ht, hc, hcs⟩ := exists_cons_of_isWord h
  simp only [isWord, String.toList_append, ht, List.cons_append, hc, Bool.true_and,
    List.all_append, Bool.and_eq_true, List.all_eq_true]
  exact ⟨hcs, hs⟩

theorem isWordChar_of_isWord {name : String} (h : isWord name = true) :
    ∀ c ∈ name.toList, isWordChar c = true := by
  obtain ⟨c, cs, ht, hc, hcs⟩ := exists_cons_of_isWord h
  rw [ht]
  exact List.forall_mem_cons.mpr ⟨by simp [isWordChar, hc], hcs⟩

theorem isWord_camelCase {name : String} (h : isWord name = true) :
    isWord (camelCase name) = true := by
  obtain ⟨c, cs, ht, hc, hcs⟩ := exists_cons_of_isWord h
  obtain ⟨hne, hlower⟩ := isWordStart_of_mem_lowercase hc
  obtain ⟨d, ds, hd⟩ := List.exists_cons_of_ne_nil hne
  rw [hd, List.forall_mem_cons] at hlower
  have hcase : camelCase name = String.ofList (d :: (ds ++ cs)) := by
    simp [camelCase, ht, hd]
  rw [hcase, isWord_ofList_cons]
  refine ⟨hlower.1, fun x hx => ?_⟩
  rcases List.mem_append.mp hx with hx | hx
  · simp [isWordChar, hlower.2 x hx]
  · exact hcs x hx

theorem mem_upperSnakeTail {cs : List Char} (h : ∀ c ∈ cs, isWordChar c = true) :
    ∀ before, ∀ d ∈ upperSnakeTail before cs, isWordChar d = true ∧ d.isLower = false := by
  induction cs with
  | nil => simp [upperSnakeTail]
  | cons c cs ih =>
      obtain ⟨hc, hcs⟩ := List.forall_mem_cons.mp h
      intro before d hd
      simp only [upperSnakeTail, List.mem_append] at hd
      rcases hd with (hd | hd) | hd
      · obtain rfl : d = '_' := by
          split_ifs at hd
          · simpa using hd
          · simp at hd
        decide
      · exact isWordChar_of_mem_uppercase hc hd
      · exact ih hcs c d hd

/-- The name of a constant is a word without small letters of ASCII. -/
theorem isWord_upperSnakeCase {name : String} (h : isWord name = true) :
    isWord (upperSnakeCase name) = true ∧
      ∀ c ∈ (upperSnakeCase name).toList, c.isLower = false := by
  obtain ⟨c, cs, ht, hc, hcs⟩ := exists_cons_of_isWord h
  obtain ⟨hne, hupper⟩ := isWordStart_of_mem_uppercase hc
  obtain ⟨d, ds, hd⟩ := List.exists_cons_of_ne_nil hne
  rw [hd, List.forall_mem_cons] at hupper
  have hcase : upperSnakeCase name = String.ofList (d :: (ds ++ upperSnakeTail c cs)) := by
    simp [upperSnakeCase, ht, hd]
  have htail : ∀ x ∈ ds ++ upperSnakeTail c cs, isWordChar x = true ∧ x.isLower = false := by
    intro x hx
    rcases List.mem_append.mp hx with hx | hx
    · exact ⟨by simp [isWordChar, (hupper.2 x hx).1], (hupper.2 x hx).2⟩
    · exact mem_upperSnakeTail hcs c x hx
  rw [hcase, isWord_ofList_cons, String.toList_ofList]
  exact ⟨⟨hupper.1.1, fun x hx => (htail x hx).1⟩,
    List.forall_mem_cons.mpr ⟨hupper.1.2, fun x hx => (htail x hx).2⟩⟩

end Emitter.Text

namespace Emitter.Layout

open Reading Text

theorem controlWords_subset (t : Target) : controlWords t ⊆ t.keywords.words := by
  cases t with
  | actionScript => decide
  | cFamily d => cases d <;> decide

/-- What is not reserved starts no statement. -/
theorem not_mem_controlWords {t : Target} {name : String} (h : name ∉ t.keywords.words) :
    name ∉ controlWords t := fun hmem => h (controlWords_subset t hmem)

/-- No target has control words that the C family does not have. -/
theorem not_mem_controlWords_of_cFamily {name : String}
    (h : name ∉ controlWords (.cFamily .standard)) (t : Target) : name ∉ controlWords t := by
  cases t with
  | actionScript => exact fun hmem => h (List.mem_append_left ["sizeof"] hmem)
  | cFamily _ => exact h

theorem not_mem_controlWords_of_isLower {name : String} (h : ∀ c ∈ name.toList, c.isLower = false)
    (t : Target) : name ∉ controlWords t := by
  refine not_mem_controlWords_of_cFamily (fun hmem => ?_) t
  have hall : ∀ w ∈ controlWords (.cFamily .standard), ∃ c ∈ w.toList, c.isLower = true := by decide
  obtain ⟨c, hc, hlower⟩ := hall name hmem
  simp [h c hc] at hlower

theorem not_mem_controlWords_of_underscore (name : String) (h : '_' ∈ name.toList)
    (t : Target) : name ∉ controlWords t := by
  refine not_mem_controlWords_of_cFamily (fun hmem => ?_) t
  have hall : ∀ w ∈ controlWords (.cFamily .standard), '_' ∉ w.toList := by decide
  exact hall name hmem h

end Emitter.Layout

namespace Emitter.Target

open Layout Reading Text

/-- A local name is a word that is not reserved. -/
theorem isWord_localName {t : Target} {name : String} (h : isWord name = true) :
    isWord (t.localName name) = true ∧ t.localName name ∉ t.keywords.words := by
  refine ⟨?_, localName_notMem_keywords t name⟩
  unfold localName Keywords.escape
  split_ifs with hmem
  · exact isWord_append (isWord_camelCase h) (by decide)
  · exact isWord_camelCase h

end Emitter.Target
