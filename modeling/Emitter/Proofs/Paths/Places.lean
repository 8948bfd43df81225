import Emitter.FileTree
import Emitter.Proofs.Paths.Pieces
import Mathlib.Data.List.Induction

/-!
# Places that paths lead to

The pieces of a path are followed one after the other. What a piece does depends on it alone: it
stays, goes back or goes to a name. Places above the last one are passed on the way, up to where the
way turns.
-/

namespace Emitter.FileTree

open Emitter.Path

variable {t : FileTree} {p q : Path} {start place last : Location}
  {pieces rest outer : List (List Char)} {name : List Char}

/-- Where the pieces of the path are followed from. -/
def origin (t : FileTree) (p : Path) : Location := if p.isAbsolute then [] else t.current

/-- Where pieces lead. -/
abbrev walk (t : FileTree) (start : Location) (pieces : List (List Char)) :
    Except FileError Location := t.follow start (pieces.map String.ofList)

theorem walk_append_eq_ok : t.walk start (pieces ++ rest) = .ok last ↔
    ∃ place, t.walk start pieces = .ok place ∧ t.walk place rest = .ok last := by
  unfold walk follow
  rw [List.map_append, List.foldlM_append]
  cases (pieces.map String.ofList).foldlM t.step start with
  | error e => simp [bind, Except.bind]
  | ok place => simp [bind, Except.bind]

theorem walk_cons_eq_ok {piece : List Char} : t.walk start (piece :: rest) = .ok last ↔
    ∃ place, t.walk start [piece] = .ok place ∧ t.walk place rest = .ok last := by
  rw [← List.singleton_append, walk_append_eq_ok]

theorem walk_singleton (piece : List Char) :
    t.walk start [piece] = t.step start (String.ofList piece) := by
  unfold walk follow
  simp only [List.map_cons, List.map_nil, List.foldlM_cons, List.foldlM_nil]
  cases t.step start (String.ofList piece) <;> rfl

/-- A step is taken from a directory. It stays there, goes back, or goes to a name. -/
theorem step_eq_ok {piece : String} (h : t.step start piece = .ok last) :
    t.at? start = some .directory ∧
      ((piece = "" ∨ piece = ".") ∧ last = start ∨ piece = ".." ∧ last = start.tail ∨
        ¬(piece = "" ∨ piece = ".") ∧ piece ≠ ".." ∧ last = piece :: start) := by
  unfold step at h
  split at h
  · cases h
  · cases h
  · rename_i hdirectory
    refine ⟨hdirectory, ?_⟩
    split_ifs at h with hstay hback
    · exact .inl ⟨hstay, (Except.ok.inj h).symm⟩
    · exact .inr (.inl ⟨hback, (Except.ok.inj h).symm⟩)
    · exact .inr (.inr ⟨hstay, hback, (Except.ok.inj h).symm⟩)

theorem ofList_eq_iff {piece : List Char} {text : String} :
    String.ofList piece = text ↔ piece = text.toList := by
  rw [← String.toList_inj, String.toList_ofList]

theorem walk_singleton_of_isNameless {piece : List Char} (hpiece : IsNameless piece)
    (h : t.walk start [piece] = .ok last) : last = start := by
  rw [walk_singleton] at h
  have hstay : String.ofList piece = "" ∨ String.ofList piece = "." :=
    hpiece.imp ofList_eq_iff.mpr ofList_eq_iff.mpr
  obtain ⟨-, ⟨-, rfl⟩ | ⟨hback, -⟩ | ⟨hgo, -⟩⟩ := step_eq_ok h
  · rfl
  · rcases hstay with hempty | hdot
    · exact absurd (hempty.symm.trans hback) (by decide)
    · exact absurd (hdot.symm.trans hback) (by decide)
  · exact absurd hstay hgo

/-- Before the last piece there is a directory. -/
theorem at?_of_walk_append (h : t.walk start (pieces ++ rest) = .ok last)
    (hlast : t.at? last = some .directory) (hplace : t.walk start pieces = .ok place) :
    t.at? place = some .directory := by
  obtain ⟨middle, hmiddle, hrest⟩ := walk_append_eq_ok.mp h
  obtain rfl := Except.ok.inj (hmiddle.symm.trans hplace)
  cases rest with
  | nil =>
      obtain rfl := Except.ok.inj hrest
      exact hlast
  | cons piece rest =>
      obtain ⟨next, hnext, -⟩ := walk_cons_eq_ok.mp hrest
      rw [walk_singleton] at hnext
      exact (step_eq_ok hnext).1

theorem walk_of_isNameless (h : ∀ piece ∈ pieces, IsNameless piece)
    (hdirectory : t.at? start = some .directory) : t.walk start pieces = .ok start := by
  induction pieces with
  | nil => rfl
  | cons piece rest ih =>
      obtain ⟨hpiece, hrest⟩ := List.forall_mem_cons.mp h
      have hstay : String.ofList piece = "" ∨ String.ofList piece = "." :=
        hpiece.imp ofList_eq_iff.mpr ofList_eq_iff.mpr
      have hstep : t.walk start [piece] = .ok start := by
        rw [walk_singleton, step, hdirectory]
        exact if_pos hstay
      exact walk_cons_eq_ok.mpr ⟨start, hstep, ih hrest⟩

theorem walk_of_locate (h : t.locate p = .ok last) : t.walk (t.origin p) p.pieces = .ok last := by
  unfold locate at h
  split_ifs at h with _ _ _ habsolute
  · rwa [origin, if_pos habsolute]
  · rwa [origin, if_neg habsolute]

/-- What stands somewhere stands in a directory. -/
def IsRooted (t : FileTree) : Prop := ∀ l e, t.at? l = some e → t.at? l.tail = some .directory

/-- A file is named by the last piece of its path. -/
theorem pieces_of_file (ht : t.IsRooted) (h : t.locate p = .ok last) {contents : ByteArray}
    (hfile : t.at? last = some (.file contents)) :
    ∃ outer name, p.pieces = outer ++ [name] ∧ IsFileName name := by
  obtain hnil | ⟨outer, name, hpieces⟩ := List.eq_nil_or_concat p.pieces
  · exact absurd hnil (pieces_ne_nil p)
  rw [List.concat_eq_append] at hpieces
  refine ⟨outer, name, hpieces, ?_⟩
  have hwalk := walk_of_locate h
  rw [hpieces] at hwalk
  obtain ⟨place, -, hlast⟩ := walk_append_eq_ok.mp hwalk
  rw [walk_singleton] at hlast
  obtain ⟨hdirectory, ⟨-, rfl⟩ | ⟨-, rfl⟩ | ⟨hnamed, hback, -⟩⟩ := step_eq_ok hlast
  · rw [hdirectory] at hfile
    cases hfile
  · rw [ht _ _ hdirectory] at hfile
    cases hfile
  · exact ⟨fun h => hnamed (h.imp ofList_eq_iff.mpr ofList_eq_iff.mpr),
      fun h => hback (ofList_eq_iff.mpr h)⟩

theorem step_of_isFileName (hname : IsFileName name)
    (h : t.walk place [name] = .ok last) : last = String.ofList name :: place := by
  rw [walk_singleton] at h
  obtain ⟨-, ⟨hnone, -⟩ | ⟨hback, -⟩ | ⟨-, -, hlast⟩⟩ := step_eq_ok h
  · exact absurd (hnone.imp ofList_eq_iff.mp ofList_eq_iff.mp) hname.named
  · exact absurd (ofList_eq_iff.mp hback) hname.not_back
  · exact hlast

/-- Where the path leads, one piece after another that are the same in front. -/
theorem locate_of_pieces (hp : p.pieces = outer ++ [name]) (hname : IsFileName name)
    (h : t.locate p = .ok last) :
    ∃ place, t.walk (t.origin p) outer = .ok place ∧ last = String.ofList name :: place := by
  have hwalk := walk_of_locate h
  rw [hp] at hwalk
  obtain ⟨place, hplace, hlast⟩ := walk_append_eq_ok.mp hwalk
  exact ⟨place, hplace, step_of_isFileName hname hlast⟩

theorem origin_congr (h : p.isAbsolute = q.isAbsolute) : t.origin p = t.origin q := by
  rw [origin, origin, h]

/-- Paths that differ at most in the last piece lead to one place only if they are the same. -/
theorem eq_of_locate {other : List Char} (hp : p.pieces = outer ++ [name])
    (hq : q.pieces = outer ++ [other]) (hname : IsFileName name) (h : t.locate p = .ok last)
    (h' : t.locate q = .ok last) : q = p := by
  have habsolute : p.isAbsolute = q.isAbsolute := by
    rw [Bool.eq_iff_iff, isAbsolute_iff, isAbsolute_iff, hp, hq]
    cases outer <;> simp
  obtain ⟨place, hplace, rfl⟩ := locate_of_pieces hp hname h
  have hwalk := walk_of_locate h'
  rw [hq, ← origin_congr habsolute] at hwalk
  obtain ⟨place', hplace', hlast⟩ := walk_append_eq_ok.mp hwalk
  obtain rfl := Except.ok.inj (hplace'.symm.trans hplace)
  rw [walk_singleton] at hlast
  obtain ⟨-, ⟨-, hlast⟩ | ⟨-, hlast⟩ | ⟨-, -, hlast⟩⟩ := step_eq_ok hlast
  · simpa using congrArg List.length hlast
  · have hlength := congrArg List.length hlast
    simp at hlength
    omega
  · obtain rfl : name = other := String.ofList_injective (List.cons.inj hlast).1
    exact ext_pieces (hq.trans hp.symm)

/-- Without going back, pieces lead further down. -/
theorem suffix_of_walk (h : t.walk start pieces = .ok last) (hback : "..".toList ∉ pieces) :
    start <:+ last := by
  induction pieces using List.reverseRecOn generalizing last with
  | nil =>
      obtain rfl := Except.ok.inj h
      exact List.suffix_refl _
  | append_singleton pieces piece ih =>
      obtain ⟨place, hplace, hpiece⟩ := walk_append_eq_ok.mp h
      have hbelow := ih hplace fun hmem => hback (List.mem_append_left _ hmem)
      rw [walk_singleton] at hpiece
      obtain ⟨-, ⟨-, rfl⟩ | ⟨hpiece, -⟩ | ⟨-, -, rfl⟩⟩ := step_eq_ok hpiece
      · exact hbelow
      · exact absurd (by simp [← ofList_eq_iff.mp hpiece]) hback
      · exact hbelow.trans (List.suffix_cons ..)

/-- On the way to a place, every place above it is passed, up to where the way turns. -/
theorem exists_walk_of_suffix (h : t.walk start pieces = .ok last) (hlast : place <:+ last)
    (hturn : ∀ common, common <:+ start → common <:+ last → common <:+ place) :
    ∃ front back, pieces = front ++ back ∧ t.walk start front = .ok place := by
  induction pieces using List.reverseRecOn generalizing last with
  | nil =>
      obtain rfl := Except.ok.inj h
      have hstart := hturn start (List.suffix_refl _) (List.suffix_refl _)
      obtain rfl := hlast.eq_of_length_le hstart.length_le
      exact ⟨[], [], rfl, h⟩
  | append_singleton pieces piece ih =>
      obtain ⟨before, hbefore, hpiece⟩ := walk_append_eq_ok.mp h
      by_cases hend : place = last
      · exact ⟨pieces ++ [piece], [], by simp, hend ▸ h⟩
      -- The last step ends below the place, so it starts there or below.
      obtain ⟨habove, hturn⟩ : place <:+ before ∧
          ∀ common, common <:+ start → common <:+ before → common <:+ place := by
        rw [walk_singleton] at hpiece
        obtain ⟨-, ⟨-, rfl⟩ | ⟨-, rfl⟩ | ⟨-, -, rfl⟩⟩ := step_eq_ok hpiece
        · exact ⟨hlast, hturn⟩
        · refine ⟨hlast.trans (List.tail_suffix _), fun common hstart hcommon => ?_⟩
          cases before with
          | nil => exact hturn common hstart hcommon
          | cons name outer =>
              rcases List.suffix_cons_iff.mp hcommon with rfl | hcommon
              · -- Going back from a place above the start leads to where the way turns.
                have houter := hturn outer ((List.suffix_cons ..).trans hstart)
                  (List.suffix_refl _)
                exact absurd (hlast.eq_of_length_le houter.length_le) hend
              · exact hturn common hstart hcommon
        · exact ⟨(List.suffix_cons_iff.mp hlast).resolve_left hend,
            fun common hstart hcommon => hturn common hstart (hcommon.trans (List.suffix_cons ..))⟩
      obtain ⟨front, back, rfl, hfront⟩ := ih hbefore habove hturn
      exact ⟨front, back ++ [piece], by simp, hfront⟩

end Emitter.FileTree
