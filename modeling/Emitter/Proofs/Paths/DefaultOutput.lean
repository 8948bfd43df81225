import Emitter.Build
import Emitter.Proofs.Paths.Places
import Emitter.Proofs.Whole.Assembled
import Emitter.Proofs.Whole.FileNames

/-!
# The default output and its input

Where nothing says where the output goes, it goes beside the input: to the file of the same stem
with the target's extension. That is the input itself as soon as the input has this extension
already, and then printing the program takes its place. The files of an ActionScript program are all
below a directory, and none of them is the input.
-/

namespace Emitter

open Layout Emitter.Path Program Reading

namespace Path

variable {p : Path} {outer : List (List Char)} {name stem extension : List Char} {e : String}

theorem namedPieces_of_pieces (h : p.pieces = outer ++ [name]) (hname : ¬IsNameless name) :
    p.namedPieces = name :: outer.reverse := by
  rw [namedPieces, h, List.reverse_append]
  exact dropNameless_cons hname _

theorem fileName?_eq_some : p.fileName? = some name ↔
    ∃ rest, p.namedPieces = name :: rest ∧ IsFileName name := by
  unfold fileName?
  cases hnamed : p.namedPieces with
  | nil => simp
  | cons last rest =>
      have hdrop : dropNameless (last :: rest) = last :: rest := by
        rw [← hnamed, namedPieces, dropNameless_dropNameless]
      have hne := ne_nil_of_dropNameless hdrop
      by_cases hdots : last = ['.'] ∨ last = ['.', '.']
      · simp only [hdots, if_true, reduceCtorEq, List.cons.injEq, false_iff]
        rintro ⟨_, ⟨rfl, rfl⟩, hname⟩
        exact hdots.elim (fun h => hname.named (.inr h)) hname.not_back
      · obtain ⟨hdot, hback⟩ := not_or.mp hdots
        simp only [hdots, if_false, Option.some.injEq, List.cons.injEq]
        exact ⟨fun h => ⟨rest, ⟨h, rfl⟩, h ▸ ⟨not_or.mpr ⟨hne, hdot⟩, hback⟩⟩,
          fun ⟨_, h, _⟩ => h.1⟩

theorem fileName?_of_pieces (h : p.pieces = outer ++ [name]) (hname : IsFileName name) :
    p.fileName? = some name :=
  fileName?_eq_some.mpr ⟨_, namedPieces_of_pieces h hname.named, hname⟩

theorem fileName?_of_back (h : p.pieces = outer ++ [['.', '.']]) : p.fileName? = none := by
  rw [fileName?, namedPieces_of_pieces h (by simp [IsNameless])]
  rfl

theorem isFileName_extended (hstem : stem ≠ []) (h : extension ≠ [] ∨ stem ≠ ['.']) :
    IsFileName (stem ++ '.' :: extension) := by
  obtain ⟨c, cs, rfl⟩ := List.exists_cons_of_ne_nil hstem
  refine ⟨by simp [IsNameless], fun hback => ?_⟩
  obtain ⟨rfl, hrest⟩ := List.cons_eq_cons.mp hback
  cases cs with
  | nil => simp_all
  | cons d ds => simp at hrest

/-- What is cut off is what stands behind the last dot. -/
theorem afterDot (front : List Char) (h : '.' ∉ extension) :
    ((front ++ '.' :: extension).reverse.takeWhile (· ≠ '.')).reverse = extension := by
  have hall : ∀ c ∈ extension.reverse, decide (c ≠ '.') = true := fun c hc =>
    decide_eq_true fun heq => h (heq ▸ List.mem_reverse.mp hc)
  rw [List.reverse_append, List.reverse_cons, List.append_assoc,
    List.takeWhile_append_of_pos hall]
  simp

theorem cutExtension_extended (hstem : stem ≠ []) (hextension : '.' ∉ extension) :
    cutExtension (stem ++ '.' :: extension) = (stem, some extension) := by
  have hpos := List.length_pos_iff.mpr hstem
  unfold cutExtension
  simp only [afterDot stem hextension]
  rw [if_pos (by simp; omega)]
  simp [Nat.add_sub_assoc]

/-- A name is cut where it has a stem and an extension. -/
theorem cutExtension_cases (name : List Char) :
    cutExtension name = (name, none) ∨ ∃ stem extension, stem ≠ [] ∧ '.' ∉ extension ∧
      name = stem ++ '.' :: extension ∧ cutExtension name = (stem, some extension) := by
  by_cases hdot : '.' ∈ name
  · obtain ⟨extension, stem, hname, hextension⟩ :=
      List.eq_append_cons_of_mem (List.mem_reverse.mpr hdot)
    have hname : name = stem.reverse ++ '.' :: extension.reverse := by
      simpa using congrArg List.reverse hname
    have hextension : '.' ∉ extension.reverse := by simpa using hextension
    by_cases hstem : stem.reverse = []
    · -- A dot that opens the name.
      have hafter := afterDot stem.reverse hextension
      rw [← hname] at hafter
      rw [hstem] at hname
      have hlength : name.length = extension.reverse.length + 1 := by simp [hname]
      unfold cutExtension
      simp only [hafter]
      exact .inl (if_neg (by omega))
    · exact .inr ⟨_, _, hstem, hextension, hname, hname ▸ cutExtension_extended hstem hextension⟩
  · have hall : ∀ c ∈ name.reverse, decide (c ≠ '.') = true := fun c hc =>
      decide_eq_true fun heq => hdot (heq ▸ List.mem_reverse.mp hc)
    have hafter := List.takeWhile_eq_self_iff.mpr hall
    unfold cutExtension
    simp only [hafter, List.reverse_reverse]
    exact .inl (if_neg (by omega))

/-! Setting an extension first drops the old one from the end of the text and then looks at the last
piece again. If that has become `..`, it is no file name any more and stays. -/

/-- Characters at the end of the last piece are dropped from it. -/
theorem pieces_dropLast {front back : List Char} (h : p.pieces = outer ++ [front ++ back]) :
    (p.dropLast back.length).pieces = outer ++ [front] := by
  have hall : AreCut (outer ++ [front ++ back]) := h ▸ areCut_pieces p
  have hcut : AreCut (outer ++ [front]) := by
    obtain ⟨houter, hlast⟩ := areCut_concat.mp hall
    exact areCut_concat.mpr ⟨houter, fun hslash => hlast (List.mem_append_left _ hslash)⟩
  have htext : p.text.toList = List.intercalate ['/'] (outer ++ [front]) ++ back := by
    rw [← joinPieces_pieces, h, toList_joinPieces, intercalate_concat]
  have hdropped : p.dropLast back.length = ⟨joinPieces (outer ++ [front])⟩ := by
    rw [dropLast, htext, joinPieces]
    simp
  rw [hdropped, pieces_mk_joinPieces (by simp) hcut]

/-- A stem with an extension, or alone where that is empty. -/
def extended (stem : List Char) (e : String) : List Char :=
  if e = "" then stem else stem ++ '.' :: e.toList

theorem notMem_stem {c : Char} (h : c ∉ name) : c ∉ (cutExtension name).1 := by
  rcases cutExtension_cases name with hcut | ⟨stem, extension, -, -, rfl, hcut⟩
  · rwa [hcut]
  · rw [hcut]
    exact fun hmem => h (List.mem_append_left _ hmem)

theorem pieces_setExtension {rest : List (List Char)} (h : p.namedPieces = name :: rest)
    (hname : IsFileName name) (he : '/' ∉ e.toList) :
    (p.setExtension e).pieces = rest.reverse ++ [extended (cutExtension name).1 e] := by
  have hcut : AreCut (name :: rest) := by
    obtain ⟨dropped, hdropped, -⟩ := exists_dropNameless p.pieces.reverse
    rw [← namedPieces, h] at hdropped
    exact fun piece hpiece =>
      areCut_pieces p piece (List.mem_reverse.mp (by simp [hdropped, hpiece]))
  obtain ⟨hlast, hrest⟩ := List.forall_mem_cons.mp hcut
  have houter : AreCut rest.reverse := fun piece hpiece => hrest piece (List.mem_reverse.mp hpiece)
  have hset : p.setExtension e =
      ⟨joinPieces (rest.reverse ++ [extended (cutExtension name).1 e])⟩ := by
    unfold setExtension extended
    rw [fileName?_eq_some.mpr ⟨rest, h, hname⟩, h]
    dsimp only
    split_ifs
    · simp
    · rw [Path.mk.injEq, ← String.toList_inj, toList_joinPieces, intercalate_concat]
      simp [toList_joinPieces]
  rw [hset, pieces_mk_joinPieces (by simp) (areCut_concat.mpr ⟨houter, ?_⟩)]
  have hstem := notMem_stem hlast
  unfold extended
  split_ifs
  · exact hstem
  · simp [hstem, he]

/-- The last piece with another extension. A stem that would be `.` goes back with the dot that
follows. -/
def renamed (name : List Char) (e : String) : List Char :=
  match cutExtension name with
  | (_, none) => extended name e
  | (stem, some _) => if stem = ['.'] then ['.', '.'] else extended stem e

theorem renamed_extended (hstem : stem ≠ []) (hextension : '.' ∉ extension) :
    renamed (stem ++ '.' :: extension) e =
      if stem = ['.'] then ['.', '.'] else extended stem e := by
  rw [renamed, cutExtension_extended hstem hextension]

theorem dropLast_zero (p : Path) : p.dropLast 0 = p := by simp [dropLast]

theorem extension?_of_fileName? (h : p.fileName? = some name) :
    p.extension? = (cutExtension name).2 := by
  rw [extension?, h]
  rfl

theorem extension?_of_none (h : p.fileName? = none) : p.extension? = none := by
  rw [extension?, h]
  rfl

theorem pieces_withExtension (h : p.pieces = outer ++ [name]) (hname : IsFileName name)
    (he : '/' ∉ e.toList) : (p.withExtension e).pieces = outer ++ [renamed name e] := by
  unfold withExtension renamed
  rw [extension?_of_fileName? (fileName?_of_pieces h hname)]
  rcases cutExtension_cases name with hcut | ⟨stem, extension, hstem, -, rfl, hcut⟩
  · have hset := pieces_setExtension (namedPieces_of_pieces h hname.named) hname he
    rw [hcut, List.reverse_reverse] at hset
    simpa [hcut, dropLast_zero] using hset
  · rw [hcut]
    have hdropped : (p.dropLast extension.length).pieces = outer ++ [stem ++ ['.']] :=
      pieces_dropLast (by simpa using h)
    by_cases hdot : stem = ['.']
    · rw [hdot] at hdropped
      simp [hdot, setExtension, fileName?_of_back hdropped, hdropped]
    · have hshort : IsFileName (stem ++ ['.']) := isFileName_extended hstem (.inr hdot)
      have hset := pieces_setExtension (namedPieces_of_pieces hdropped hshort.named) hshort he
      rw [cutExtension_extended hstem (by simp), List.reverse_reverse] at hset
      simpa [hdot] using hset

theorem withExtension_of_fileName? (h : p.fileName? = none) : p.withExtension e = p := by
  simp [withExtension, extension?_of_none h, dropLast_zero, setExtension, h]

/-- An extension that is set stands in the last piece, unless there is no file name or none is
left. -/
theorem withExtension_cases (p : Path) (hne : e ≠ "") (hslash : '/' ∉ e.toList) :
    p.fileName? = none ∧ p.withExtension e = p ∨
      (p.withExtension e).fileName? = none ∧ p.withExtension e ≠ p ∨
      ∃ outer stem, (p.withExtension e).pieces = outer ++ [stem ++ '.' :: e.toList] ∧
        stem ≠ [] := by
  unfold withExtension
  generalize hq : p.dropLast ((p.extension?.map List.length).getD 0) = q
  cases hname : q.fileName? with
  | none =>
      have hset : q.setExtension e = q := by rw [setExtension, hname]
      rw [hset]
      by_cases hsame : q = p
      · exact .inl ⟨hsame ▸ hname, hsame⟩
      · exact .inr (.inl ⟨hname, hsame⟩)
  | some name =>
      obtain ⟨rest, hnamed, hfile⟩ := fileName?_eq_some.mp hname
      refine .inr (.inr ⟨rest.reverse, (cutExtension name).1, ?_, ?_⟩)
      · rw [pieces_setExtension hnamed hfile hslash, extended, if_neg hne]
      · rcases cutExtension_cases name with hcut | ⟨stem, extension, hstem, -, -, hcut⟩
        · rw [hcut]
          exact fun hempty => hfile.named (.inl hempty)
        · rwa [hcut]

/-- The path has the extension behind a stem, in its last piece. -/
def EndsIn (p : Path) (e : String) : Prop :=
  ∃ outer stem, p.pieces = outer ++ [stem ++ '.' :: e.toList] ∧ stem ≠ [] ∧ stem ≠ ['.']

/-- What makes a text an extension that is found again. -/
structure IsPlainExtension (e : String) : Prop where
  ne_empty : e ≠ ""
  no_slash : '/' ∉ e.toList
  no_dot : '.' ∉ e.toList

theorem IsPlainExtension.isFileName (he : IsPlainExtension e) (hstem : stem ≠ []) :
    IsFileName (stem ++ '.' :: e.toList) :=
  isFileName_extended hstem (.inl fun h => he.ne_empty (String.toList_eq_nil_iff.mp h))

/-- Setting the extension changes nothing where there is no file name and where the extension is
there already. -/
theorem withExtension_eq_self_iff (he : IsPlainExtension e) :
    p.withExtension e = p ↔ p.fileName? = none ∨ p.EndsIn e := by
  constructor
  · intro hsame
    rcases withExtension_cases p he.ne_empty he.no_slash with ⟨hnone, -⟩ | ⟨-, hne⟩ |
      ⟨outer, stem, hpieces, hstem⟩
    · exact .inl hnone
    · exact absurd hsame hne
    · refine .inr ⟨outer, stem, hsame ▸ hpieces, hstem, ?_⟩
      rintro rfl
      -- The stem `.` and its dot would have gone back.
      rw [pieces_withExtension (hsame ▸ hpieces) (he.isFileName hstem) he.no_slash,
        renamed_extended hstem he.no_dot] at hpieces
      have hempty : e.toList = [] := by simpa using hpieces
      exact he.ne_empty (String.toList_eq_nil_iff.mp hempty)
  · rintro (hnone | ⟨outer, stem, hpieces, hstem, hdot⟩)
    · exact withExtension_of_fileName? hnone
    · refine ext_pieces ?_
      rw [pieces_withExtension hpieces (he.isFileName hstem) he.no_slash,
        renamed_extended hstem he.no_dot, if_neg hdot, extended, if_neg he.ne_empty, hpieces]

theorem outputPath_of_fileName? {t : Target} (h : p.fileName? = none) :
    CFamily.outputPath t p = p := by
  rw [CFamily.outputPath, extension?_of_none h, if_neg (by simp)]
  exact withExtension_of_fileName? h

/-- A path with an extension set keeps it, and one without a file name gets none. -/
theorem outputPath_withExtension (p : Path) (t : Target) (he : IsPlainExtension t.extension) :
    CFamily.outputPath t (p.withExtension t.extension) = p.withExtension t.extension := by
  rcases withExtension_cases p he.ne_empty he.no_slash with ⟨hnone, hsame⟩ | ⟨hnone, -⟩ |
    ⟨outer, stem, hpieces, hstem⟩
  · rw [hsame, outputPath_of_fileName? hnone]
  · exact outputPath_of_fileName? hnone
  · have hfile := fileName?_of_pieces hpieces (he.isFileName hstem)
    rw [CFamily.outputPath, extension?_of_fileName? hfile, cutExtension_extended hstem he.no_dot,
      if_pos (by simp)]

theorem ne_nil_of_isWord {word : String} (h : isWord word = true) : word.toList ≠ [] := by
  intro hnil
  simp [isWord, hnil] at h

theorem notMem_of_isWord {word : String} (h : isWord word = true) {c : Char}
    (hc : isWordChar c = false) : c ∉ word.toList := by
  intro hmem
  rw [Text.isWordChar_of_isWord h c hmem] at hc
  cases hc

theorem isFileName_of_isWord {word : String} (h : isWord word = true) : IsFileName word.toList := by
  have hdot : '.' ∉ word.toList := notMem_of_isWord h (by decide)
  refine ⟨?_, fun heq => hdot (by simp [heq])⟩
  rintro (hnil | heq)
  · exact ne_nil_of_isWord h hnil
  · exact hdot (by simp [heq])

/-- Below the directory that is named as the path without its extension. -/
theorem pieces_join_withExtension {word : String} (hword : isWord word = true)
    (h : p.pieces = outer ++ [(word ++ ".as").toList]) :
    ((p.withExtension "").join ⟨word ++ ".as"⟩).pieces =
      outer ++ [word.toList] ++ [(word ++ ".as").toList] := by
  have hstem := ne_nil_of_isWord hword
  have hdot : word.toList ≠ ['.'] := fun heq =>
    notMem_of_isWord hword (c := '.') (by decide) (by simp [heq])
  have hname : (word ++ ".as").toList = word.toList ++ '.' :: ['a', 's'] := by simp
  have houtput : (p.withExtension "").pieces = outer ++ [word.toList] := by
    rw [hname] at h
    rw [pieces_withExtension h (isFileName_extended hstem (.inr hdot)) (by decide),
      renamed_extended hstem (by decide), if_neg hdot]
    rfl
  have hslash : '/' ∉ (word ++ ".as").toList := by
    simpa using notMem_of_isWord hword (by decide)
  obtain ⟨front, back, hpieces, hback, hjoined⟩ :=
    pieces_join ⟨word ++ ".as"⟩ hslash (p.withExtension "")
  rw [houtput] at hpieces
  rcases hback with rfl | rfl
  · rw [hjoined, hpieces, List.append_nil]
  · exact absurd (List.append_inj' hpieces rfl).2 (by simpa using hstem)

theorem exists_pieces_join (directory : Path) {word : String} (hword : isWord word = true) :
    ∃ front, (directory.join ⟨word ++ ".as"⟩).pieces = front ++ [(word ++ ".as").toList] := by
  have hslash : '/' ∉ (word ++ ".as").toList := by
    simpa using notMem_of_isWord hword (by decide)
  obtain ⟨front, -, -, -, hjoined⟩ := pieces_join ⟨word ++ ".as"⟩ hslash directory
  exact ⟨front, hjoined⟩

theorem join_withExtension_ne {word : String} (hword : isWord word = true) :
    (p.withExtension "").join ⟨word ++ ".as"⟩ ≠ p := by
  intro hsame
  obtain ⟨outer, hpieces⟩ := exists_pieces_join (p.withExtension "") hword
  rw [hsame] at hpieces
  have hbelow := pieces_join_withExtension hword hpieces
  rw [hsame, hpieces] at hbelow
  simpa using congrArg List.length hbelow

theorem isFileName_file {word : String} (hword : isWord word = true) :
    IsFileName (word ++ ".as").toList := by
  have hname : IsFileName (word.toList ++ '.' :: ['a', 's']) :=
    isFileName_extended (ne_nil_of_isWord hword) (.inl (by simp))
  simpa using hname

end Path

namespace FileTree

variable {t : FileTree} {p : Path} {last : Location}

/-- A file below that directory is in another place than a file that the path names. -/
theorem locate_join_withExtension_ne {word : String} {contents : ByteArray} (ht : t.IsRooted)
    (hword : isWord word = true) (h : t.locate p = .ok last)
    (hfile : t.at? last = some (.file contents)) :
    t.locate ((p.withExtension "").join ⟨word ++ ".as"⟩) ≠ .ok last := by
  intro hbelow
  have hlastName := isFileName_file hword
  obtain ⟨outer, name, hpieces, hname⟩ := pieces_of_file ht h hfile
  obtain ⟨place, hplace, rfl⟩ := locate_of_pieces hpieces hname h
  obtain ⟨front, hfront⟩ := exists_pieces_join (p.withExtension "") hword
  obtain ⟨place', hplace', hlast⟩ := locate_of_pieces hfront hlastName hbelow
  obtain ⟨hsame, rfl⟩ := List.cons.inj hlast
  obtain rfl : name = (word ++ ".as").toList := String.ofList_injective hsame
  -- The directory is named as the file without the extension, so it is below where the file is.
  have hjoined := pieces_join_withExtension hword hpieces
  have habsolute : p.isAbsolute = ((p.withExtension "").join ⟨word ++ ".as"⟩).isAbsolute := by
    rw [Bool.eq_iff_iff, isAbsolute_iff, isAbsolute_iff, hpieces, hjoined]
    cases outer <;> simp [ne_nil_of_isWord hword]
  rw [hfront] at hjoined
  obtain ⟨rfl, -⟩ := List.append_inj' hjoined rfl
  rw [← origin_congr habsolute] at hplace'
  obtain ⟨between, hbetween, hstep⟩ := walk_append_eq_ok.mp hplace'
  obtain rfl := Except.ok.inj (hbetween.symm.trans hplace)
  simpa using congrArg List.length (step_of_isFileName (isFileName_of_isWord hword) hstep)

end FileTree

theorem isPlainExtension_name (t : Target) : IsPlainExtension t.name := by
  rcases t with _ | d
  · exact ⟨by decide, by decide, by decide⟩
  · cases d <;> exact ⟨by decide, by decide, by decide⟩

/-- A run that goes through is one for a known target. -/
theorem exists_target {target : String} {p : Program} {o : Options} {files : List OutputFile}
    (h : (generate target p o).files = .ok files) : ∃ t : Target, target = t.name := by
  unfold generate Backend.ofName? at h
  cases ht : Target.ofName? target with
  | none => simp [ht] at h
  | some t =>
      refine ⟨t, ?_⟩
      have hfound := List.find?_some ht
      exact (of_decide_eq_true hfound).symm

section Runs

variable {p : Program} {input output : Path} {package : Option String} {target : String}
  {files : List OutputFile}

/-- The one file of a C program stands where the default output is. -/
theorem CFamily.path_of_defaultOutput {d : Dialect}
    (houtput : defaultOutput? input (Target.cFamily d).name = some output)
    (h : (generate (Target.cFamily d).name p ⟨output, package⟩).files = .ok files) :
    ∃ contents, files = [⟨input.withExtension (Target.cFamily d).name, contents⟩] := by
  have hplain := isPlainExtension_name (.cFamily d)
  have hext : isExtension (Target.cFamily d).name = true := by cases d <;> decide
  have hother : (Target.cFamily d).name ≠ Target.actionScript.name := by cases d <;> decide
  rw [defaultOutput?, if_neg hother, if_pos hext] at houtput
  obtain rfl := Option.some.inj houtput
  obtain ⟨contents, rfl, -⟩ := CFamily.generate_eq_ok h
  exact ⟨contents, by rw [show (Target.cFamily d).name = (Target.cFamily d).extension from rfl,
    outputPath_withExtension _ _ hplain]⟩

/-- The files of an ActionScript program are named for words. -/
theorem ActionScript.path_of_defaultOutput
    (hwords : ∀ name ∈ p.enums.map (·.name) ++ p.classes.map (·.name), isWord name = true)
    (houtput : defaultOutput? input Target.actionScript.name = some output)
    (h : (generate "as" p ⟨output, package⟩).files = .ok files) :
    ∀ file ∈ files, ∃ word, isWord word = true ∧
      file.path = (input.withExtension "").join ⟨word ++ ".as"⟩ := by
  rw [defaultOutput?, if_pos rfl] at houtput
  obtain rfl := Option.some.inj houtput
  rw [ActionScript.generate_eq_ok h]
  intro file hfile
  obtain ⟨unit, hunit, rfl⟩ := List.mem_map.mp hfile
  refine ⟨unit.1, ?_, rfl⟩
  have hname := List.mem_map_of_mem (f := Prod.fst) hunit
  rw [ActionScript.fst_units] at hname
  rcases List.mem_append.mp hname with hname | hname
  · obtain ⟨id, -, hid⟩ := List.mem_filterMap.mp hname
    exact hwords _ (symbolName?_mem hid)
  · split_ifs at hname
    · rw [List.mem_singleton.mp hname]
      decide
    · cases hname

/-- Of the files of a program whose output is the default one of the input, one has the path of the
input exactly if the target is a C dialect and the input has its extension already or no file name.
In a tree where the input is a file, one stands where the input is exactly if the target is a C
dialect and the input has its extension. -/
theorem input_mem_defaultOutput_iff
    (hwords : ∀ name ∈ p.enums.map (·.name) ++ p.classes.map (·.name), isWord name = true)
    (houtput : defaultOutput? input target = some output)
    (h : (generate target p ⟨output, package⟩).files = .ok files) :
    ((∃ file ∈ files, file.path = input) ↔
      target ≠ Target.actionScript.name ∧ (input.fileName? = none ∨ input.EndsIn target)) ∧
    ∀ (t : FileTree) (place : Location) (contents : ByteArray), t.IsRooted →
      t.locate input = .ok place → t.at? place = some (.file contents) →
      ((∃ file ∈ files, t.locate file.path = .ok place) ↔
        target ≠ Target.actionScript.name ∧ input.EndsIn target) := by
  obtain ⟨t, rfl⟩ := exists_target h
  cases t with
  | actionScript =>
      have hpaths := ActionScript.path_of_defaultOutput hwords houtput h
      refine ⟨⟨fun ⟨file, hmem, hpath⟩ => ?_, fun hne => absurd rfl hne.1⟩,
        fun t place contents ht hplace hfile =>
          ⟨fun ⟨file, hmem, hpath⟩ => ?_, fun hne => absurd rfl hne.1⟩⟩
      · obtain ⟨word, hword, hjoin⟩ := hpaths file hmem
        exact absurd (hjoin.symm.trans hpath) (join_withExtension_ne hword)
      · obtain ⟨word, hword, hjoin⟩ := hpaths file hmem
        rw [hjoin] at hpath
        exact absurd hpath (FileTree.locate_join_withExtension_ne ht hword hplace hfile)
  | cFamily d =>
      have hplain := isPlainExtension_name (.cFamily d)
      have hother : (Target.cFamily d).name ≠ Target.actionScript.name := by cases d <;> decide
      obtain ⟨contents, rfl⟩ := CFamily.path_of_defaultOutput houtput h
      have hself := withExtension_eq_self_iff (p := input) hplain
      refine ⟨by simp [hother, hself], fun t place contents ht hplace hfile => ?_⟩
      obtain ⟨outer, name, hpieces, hname⟩ := FileTree.pieces_of_file ht hplace hfile
      have hnamed : input.fileName? ≠ none := by simp [fileName?_of_pieces hpieces hname]
      have hsame : t.locate (input.withExtension (Target.cFamily d).name) = .ok place ↔
          input.withExtension (Target.cFamily d).name = input :=
        ⟨FileTree.eq_of_locate hpieces (pieces_withExtension hpieces hname hplain.no_slash) hname
          hplace, fun heq => heq.symm ▸ hplace⟩
      simp [hother, hsame, hself, hnamed]

/-- A program of one enumeration. -/
def modeProgram : Program := ⟨[⟨"Mode", .exported, none, []⟩], [], [.enumeration ⟨0⟩], [], .empty⟩

/-- From `src/prog.json` the printed file goes to `src/prog.c`. -/
theorem input_notMem_defaultOutput_json :
    ∃ files, (∀ name ∈ modeProgram.enums.map (·.name) ++ modeProgram.classes.map (·.name),
        isWord name = true) ∧
      defaultOutput? ⟨"src/prog.json"⟩ "c" = some ⟨"src/prog.c"⟩ ∧
      (generate "c" modeProgram ⟨⟨"src/prog.c"⟩, none⟩).files = .ok files ∧
      ¬(∃ file ∈ files, file.path = ⟨"src/prog.json"⟩) := by
  have hwords : ∀ name ∈ modeProgram.enums.map (·.name) ++ modeProgram.classes.map (·.name),
      isWord name = true := by decide
  have houtput : defaultOutput? ⟨"src/prog.json"⟩ "c" = some ⟨"src/prog.c"⟩ := by decide
  have hrun : (generate "c" modeProgram ⟨⟨"src/prog.c"⟩, none⟩).files.toOption.isSome = true := by
    decide +kernel
  obtain ⟨files, hfiles⟩ := Option.isSome_iff_exists.mp hrun
  have h := Result.eq_ok_of_toOption hfiles
  refine ⟨files, hwords, houtput, h, ?_⟩
  rw [(input_mem_defaultOutput_iff hwords houtput h).1]
  rintro ⟨-, hends⟩
  have hsame := (withExtension_eq_self_iff (isPlainExtension_name (.cFamily .standard))).mpr hends
  exact absurd hsame (by decide)

/-- The file printed from `prog.c` goes to `prog.c`. -/
theorem input_mem_defaultOutput_c :
    (∀ name ∈ modeProgram.enums.map (·.name) ++ modeProgram.classes.map (·.name),
        isWord name = true) ∧
      ∃ output files, defaultOutput? ⟨"prog.c"⟩ "c" = some output ∧
        (generate "c" modeProgram ⟨output, none⟩).files = .ok files ∧
        ∃ file ∈ files, file.path = ⟨"prog.c"⟩ := by
  have houtput : defaultOutput? ⟨"prog.c"⟩ "c" = some ⟨"prog.c"⟩ := by decide
  have hrun : (generate "c" modeProgram ⟨⟨"prog.c"⟩, none⟩).files.toOption.isSome = true := by
    decide +kernel
  obtain ⟨files, hfiles⟩ := Option.isSome_iff_exists.mp hrun
  have h := Result.eq_ok_of_toOption hfiles
  obtain ⟨contents, rfl⟩ := CFamily.path_of_defaultOutput (d := .standard) houtput h
  have hpath : (Path.mk "prog.c").withExtension (Target.cFamily .standard).name = ⟨"prog.c"⟩ := by
    decide
  exact ⟨by decide, ⟨"prog.c"⟩, _, houtput, h, _, List.mem_singleton_self _, hpath⟩

end Runs

end Emitter
