import Emitter.Path
import Mathlib.Data.List.Basic

/-!
# The pieces of a path

Cutting a text at slashes and putting slashes between the pieces undo each other. What names nothing
at the end of a path can be taken away piece by piece.
-/

namespace Emitter.Path

theorem splitAtSlash_slash (cs : List Char) : splitAtSlash ('/' :: cs) = [] :: splitAtSlash cs := by
  obtain ⟨piece, rest, hcs⟩ := List.exists_cons_of_ne_nil (splitAtSlash_ne_nil cs)
  simp [splitAtSlash, hcs]

theorem splitAtSlash_cons {c : Char} (hc : c ≠ '/') {cs piece : List Char}
    {rest : List (List Char)} (h : splitAtSlash cs = piece :: rest) :
    splitAtSlash (c :: cs) = (c :: piece) :: rest := by
  simp [splitAtSlash, h, hc]

theorem splitAtSlash_append_slash (cs ds : List Char) :
    splitAtSlash (cs ++ '/' :: ds) = splitAtSlash cs ++ splitAtSlash ds := by
  induction cs with
  | nil => simp [splitAtSlash_slash, splitAtSlash]
  | cons c cs ih =>
      by_cases hc : c = '/'
      · subst hc
        simp [splitAtSlash_slash, ih]
      · obtain ⟨piece, rest, hcs⟩ := List.exists_cons_of_ne_nil (splitAtSlash_ne_nil cs)
        have hall : splitAtSlash (cs ++ '/' :: ds) = piece :: (rest ++ splitAtSlash ds) := by
          rw [ih, hcs, List.cons_append]
        rw [List.cons_append, splitAtSlash_cons hc hall, splitAtSlash_cons hc hcs,
          List.cons_append]

theorem splitAtSlash_of_notMem {cs : List Char} (h : '/' ∉ cs) : splitAtSlash cs = [cs] := by
  induction cs with
  | nil => rfl
  | cons c cs ih =>
      obtain ⟨hc, hcs⟩ : '/' ≠ c ∧ '/' ∉ cs := by simpa using h
      exact splitAtSlash_cons hc.symm (ih hcs)

theorem notMem_of_mem_splitAtSlash {cs piece : List Char} (h : piece ∈ splitAtSlash cs) :
    '/' ∉ piece := by
  induction cs generalizing piece with
  | nil =>
      obtain rfl : piece = [] := by simpa [splitAtSlash] using h
      simp
  | cons c cs ih =>
      by_cases hc : c = '/'
      · subst hc
        rw [splitAtSlash_slash] at h
        rcases List.mem_cons.mp h with rfl | h
        · simp
        · exact ih h
      · obtain ⟨first, rest, hcs⟩ := List.exists_cons_of_ne_nil (splitAtSlash_ne_nil cs)
        rw [splitAtSlash_cons hc hcs] at h
        rw [hcs] at ih
        rcases List.mem_cons.mp h with rfl | h
        · simpa [Ne.symm hc] using ih (List.mem_cons_self ..)
        · exact ih (List.mem_cons_of_mem _ h)

/-- Pieces in which there is no slash. -/
def AreCut (pieces : List (List Char)) : Prop := ∀ piece ∈ pieces, '/' ∉ piece

theorem areCut_pieces (p : Path) : AreCut p.pieces := fun _ => notMem_of_mem_splitAtSlash

theorem pieces_ne_nil (p : Path) : p.pieces ≠ [] := splitAtSlash_ne_nil _

theorem intercalate_append {first rest : List (List Char)} (hfirst : first ≠ [])
    (hrest : rest ≠ []) : List.intercalate ['/'] (first ++ rest) =
      List.intercalate ['/'] first ++ '/' :: List.intercalate ['/'] rest := by
  induction first with
  | nil => exact absurd rfl hfirst
  | cons piece first ih =>
      by_cases hnil : first = []
      · subst hnil
        simp [List.intercalate_cons_of_ne_nil hrest]
      · rw [List.cons_append, List.intercalate_cons_of_ne_nil (by simp [hnil]), ih hnil,
          List.intercalate_cons_of_ne_nil hnil]
        simp

/-- What is added to the last piece is added at the end. -/
theorem intercalate_concat (outer : List (List Char)) (piece more : List Char) :
    List.intercalate ['/'] (outer ++ [piece ++ more]) =
      List.intercalate ['/'] (outer ++ [piece]) ++ more := by
  by_cases hnil : outer = []
  · simp [hnil]
  · rw [intercalate_append hnil (by simp), intercalate_append hnil (by simp)]
    simp

theorem areCut_concat {outer : List (List Char)} {piece : List Char} :
    AreCut (outer ++ [piece]) ↔ AreCut outer ∧ '/' ∉ piece := by
  simp [AreCut, or_imp, forall_and]

theorem splitAtSlash_intercalate {pieces : List (List Char)} (hne : pieces ≠ [])
    (hcut : AreCut pieces) : splitAtSlash (List.intercalate ['/'] pieces) = pieces := by
  induction pieces with
  | nil => exact absurd rfl hne
  | cons piece rest ih =>
      obtain ⟨hpiece, hrest⟩ := List.forall_mem_cons.mp hcut
      by_cases hnil : rest = []
      · subst hnil
        simpa using splitAtSlash_of_notMem hpiece
      · have hcons : List.intercalate ['/'] (piece :: rest) =
            piece ++ '/' :: List.intercalate ['/'] rest := by
          rw [List.intercalate_cons_of_ne_nil hnil]
          simp
        rw [hcons, splitAtSlash_append_slash, splitAtSlash_of_notMem hpiece, ih hnil hrest]
        rfl

theorem toList_joinPieces (pieces : List (List Char)) :
    (joinPieces pieces).toList = List.intercalate ['/'] pieces := by
  simp [joinPieces]

/-- The pieces of a path that was put together. -/
theorem pieces_mk_joinPieces {pieces : List (List Char)} (hne : pieces ≠ [])
    (hcut : AreCut pieces) : (Path.mk (joinPieces pieces)).pieces = pieces := by
  rw [Path.pieces, toList_joinPieces, splitAtSlash_intercalate hne hcut]

/-- What stands between a directory and what is below it. -/
def separator (directory : Path) : String :=
  if directory.text = "" ∨ directory.text.toList.getLast? = some '/' then "" else "/"

theorem text_join {below : Path} (h : below.isAbsolute = false) (directory : Path) :
    (directory.join below).text = directory.text ++ separator directory ++ below.text := by
  unfold join separator
  simp only [h, Bool.false_eq_true, if_false]
  split_ifs <;> simp

theorem isAbsolute_of_notMem {p : Path} (h : '/' ∉ p.text.toList) : p.isAbsolute = false := by
  unfold isAbsolute
  cases hlist : p.text.toList with
  | nil => rfl
  | cons c cs =>
      have hc : c ≠ '/' := fun heq => h (by simp [hlist, heq])
      simpa using hc

theorem isAbsolute_iff {p : Path} :
    p.isAbsolute = true ↔ p.pieces.head? = some [] ∧ 1 < p.pieces.length := by
  unfold isAbsolute Path.pieces
  cases p.text.toList with
  | nil => simp [splitAtSlash]
  | cons c cs =>
      obtain ⟨piece, rest, hcs⟩ := List.exists_cons_of_ne_nil (splitAtSlash_ne_nil cs)
      by_cases hc : c = '/'
      · simp [hc, splitAtSlash_slash, hcs]
      · simp [hc, splitAtSlash_cons hc hcs]

/-- The pieces of a path below a directory are those of the directory and one more, an empty piece
at the end of the directory left out. -/
theorem pieces_join (below : Path) (hbelow : '/' ∉ below.text.toList) (directory : Path) :
    ∃ front back, directory.pieces = front ++ back ∧ (back = [] ∨ back = [[]]) ∧
      (directory.join below).pieces = front ++ [below.text.toList] := by
  have hname : splitAtSlash below.text.toList = [below.text.toList] := splitAtSlash_of_notMem hbelow
  unfold Path.pieces
  rw [text_join (isAbsolute_of_notMem hbelow)]
  by_cases hempty : directory.text = ""
  · exact ⟨[], [[]], by simp [hempty, splitAtSlash], .inr rfl, by simp [separator, hempty, hname]⟩
  by_cases hslash : directory.text.toList.getLast? = some '/'
  · obtain ⟨front, hfront⟩ := List.getLast?_eq_some_iff.mp hslash
    refine ⟨splitAtSlash front, [[]], by simp [hfront, splitAtSlash_append_slash, splitAtSlash],
      .inr rfl, ?_⟩
    simp [separator, hfront, splitAtSlash_append_slash, hname]
  · refine ⟨splitAtSlash directory.text.toList, [], by simp, .inl rfl, ?_⟩
    simp [separator, hempty, hslash, splitAtSlash_append_slash, hname]

theorem ext_pieces {p q : Path} (h : p.pieces = q.pieces) : p = q := by
  have htext : p.text = q.text := by rw [← joinPieces_pieces, h, joinPieces_pieces]
  cases p
  cases q
  exact congrArg Path.mk htext

/-- The piece does not lead anywhere else. -/
def IsNameless (piece : List Char) : Prop := piece = [] ∨ piece = ['.']

/-- A piece that is the name of a file where it is the last one. -/
structure IsFileName (piece : List Char) : Prop where
  named : ¬IsNameless piece
  not_back : piece ≠ ['.', '.']

/-- Of pieces in reverse order, only such as name nothing are dropped. -/
theorem exists_dropNameless (pieces : List (List Char)) :
    ∃ dropped, pieces = dropped ++ dropNameless pieces ∧ ∀ piece ∈ dropped, IsNameless piece := by
  induction pieces with
  | nil => exact ⟨[], rfl, by simp⟩
  | cons piece rest ih =>
      cases rest with
      | nil =>
          by_cases hempty : piece = []
          · exact ⟨[piece], by simp [dropNameless, hempty], by simp [hempty, IsNameless]⟩
          · exact ⟨[], by simp [dropNameless, hempty], by simp⟩
      | cons next rest =>
          obtain ⟨dropped, hdropped, hnameless⟩ := ih
          unfold dropNameless
          split_ifs with hpiece
          · have hnone : IsNameless piece := by simpa [IsNameless] using hpiece
            exact ⟨piece :: dropped, congrArg (piece :: ·) hdropped,
              List.forall_mem_cons.mpr ⟨hnone, hnameless⟩⟩
          · exact ⟨[], rfl, by simp⟩

theorem dropNameless_cons {piece : List Char} (h : ¬IsNameless piece)
    (rest : List (List Char)) : dropNameless (piece :: rest) = piece :: rest := by
  obtain ⟨hempty, hdot⟩ := not_or.mp h
  cases rest <;> simp [dropNameless, hempty, hdot]

/-- A piece at which nothing more is dropped is not empty. -/
theorem ne_nil_of_dropNameless {piece : List Char} {rest : List (List Char)}
    (h : dropNameless (piece :: rest) = piece :: rest) : piece ≠ [] := by
  rintro rfl
  cases rest with
  | nil => simp [dropNameless] at h
  | cons next rest =>
      obtain ⟨dropped, hdropped, -⟩ := exists_dropNameless (next :: rest)
      have hlength := congrArg List.length hdropped
      have heq : dropNameless (next :: rest) = [] :: next :: rest := by
        simpa [dropNameless] using h
      rw [heq] at hlength
      simp at hlength
      omega

theorem dropNameless_dropNameless (pieces : List (List Char)) :
    dropNameless (dropNameless pieces) = dropNameless pieces := by
  induction pieces with
  | nil => rfl
  | cons piece rest ih =>
      cases rest with
      | nil => by_cases hempty : piece = [] <;> simp [dropNameless, hempty]
      | cons next rest =>
          by_cases hpiece : piece.isEmpty ∨ piece = ['.']
          · have hdrop : dropNameless (piece :: next :: rest) = dropNameless (next :: rest) := by
              simp only [dropNameless, hpiece, if_true]
            rw [hdrop, ih]
          · have hkeep : dropNameless (piece :: next :: rest) = piece :: next :: rest := by
              simp only [dropNameless, hpiece, if_false]
            rw [hkeep, hkeep]

theorem isNameless_of_dropNameless_ne {piece : List Char} {rest : List (List Char)}
    (h : dropNameless (piece :: rest) ≠ piece :: rest) : IsNameless piece :=
  not_not.mp fun hnamed => h (dropNameless_cons hnamed rest)

end Emitter.Path
