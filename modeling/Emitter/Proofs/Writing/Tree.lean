import Emitter.FileTree
import Emitter.Layout.Writer
import Mathlib.Data.List.Basic

/-!
# What writing leaves of a tree

Writing adds directories and replaces the contents of files; it never takes a directory away. A path
that named a place before therefore names the same place afterwards, and it can be said at the end
which of the files written so far went to a place: the last one whose path leads there.
-/

namespace Emitter.FileTree

variable {t t' t'' before : FileTree} {p : Path} {l place : Location}
  {file : OutputFile} {written tried : List OutputFile}

/-- The second tree has the directories of the first. -/
structure Grows (t t' : FileTree) : Prop where
  current : t'.current = t.current
  directories : ∀ l, t.at? l = some .directory → t'.at? l = some .directory

theorem Grows.refl : t.Grows t := ⟨rfl, fun _ h => h⟩

theorem Grows.trans (h : t.Grows t') (h' : t'.Grows t'') : t.Grows t'' where
  current := h'.current.trans h.current
  directories l hl := h'.directories l (h.directories l hl)

theorem Grows.step (h : t.Grows t') {piece : String} (hstep : t.step l piece = .ok place) :
    t'.step l piece = .ok place := by
  unfold FileTree.step at hstep ⊢
  cases hat : t.at? l with
  | none => simp [hat] at hstep
  | some entry =>
      cases entry with
      | file contents => simp [hat] at hstep
      | directory =>
          rw [h.directories l hat]
          rwa [hat] at hstep

theorem Grows.follow (h : t.Grows t') {pieces : List String}
    (hfollow : t.follow l pieces = .ok place) : t'.follow l pieces = .ok place := by
  induction pieces generalizing l with
  | nil => exact hfollow
  | cons piece rest ih =>
      rw [FileTree.follow, List.foldlM_cons] at hfollow ⊢
      cases hstep : t.step l piece with
      | error e => simp [hstep, bind, Except.bind] at hfollow
      | ok next =>
          rw [hstep] at hfollow
          rw [h.step hstep]
          exact ih hfollow

/-- A path goes on naming the place that it names. -/
theorem Grows.locate (h : t.Grows t') (hlocate : t.locate p = .ok place) :
    t'.locate p = .ok place := by
  unfold FileTree.locate at hlocate ⊢
  rw [h.current]
  split_ifs at hlocate ⊢
  · exact h.follow hlocate
  · exact h.follow hlocate

/-- The place at which a directory of the path is made: slashes at the end do not matter. -/
def directoryPlace (t : FileTree) (p : Path) : Except FileError Location :=
  t.locate (if (withoutTrailingSlash p).text = "" then p else withoutTrailingSlash p)

theorem makeDirectory_eq_ok (h : t.makeDirectory p = .ok t') :
    ∃ l, t.directoryPlace p = .ok l ∧ t.at? l = none ∧ t' = t.put l .directory := by
  change (t.directoryPlace p >>= fun l => _) = .ok t' at h
  cases hplace : t.directoryPlace p with
  | error e => simp [hplace, bind, Except.bind] at h
  | ok l =>
      rw [hplace] at h
      refine ⟨l, rfl, ?_⟩
      cases hat : t.at? l with
      | some entry => simp [hat, bind, Except.bind, throw, throwThe, MonadExceptOf.throw] at h
      | none =>
          simp only [hat, bind, Except.bind, pure, Except.pure, Except.ok.injEq] at h
          exact ⟨rfl, h.symm⟩

theorem writeText_eq_ok {contents : String} (h : t.writeText p contents = .ok t') :
    ∃ l, t.locate p = .ok l ∧ t.at? l ≠ some .directory ∧
      t' = t.put l (.file contents.toUTF8) := by
  by_cases hnamed : withoutTrailingSlash p = p
  · simp only [writeText, ne_eq, hnamed, not_true_eq_false, if_false] at h
    cases hplace : t.locate p with
    | error e => simp [hplace, bind, Except.bind] at h
    | ok l =>
        refine ⟨l, rfl, ?_⟩
        simp only [hplace, bind, Except.bind] at h
        split at h
        · simp [throw, throwThe, MonadExceptOf.throw] at h
        · rename_i hat
          exact ⟨hat, (Except.ok.inj h).symm⟩
  · -- A path with a slash at its end is refused, whether or not its directory is found.
    simp only [writeText, ne_eq, hnamed, not_false_eq_true, if_true, bind, Except.bind] at h
    split at h
    · exact absurd h nofun
    · simp [throw, throwThe, MonadExceptOf.throw] at h

theorem grows_put {e : Entry} (h : t.at? l = some .directory → e = .directory) :
    t.Grows (t.put l e) := by
  refine ⟨rfl, fun l' hl' => ?_⟩
  rw [at?_put]
  split_ifs with hroot hsame
  · rfl
  · rw [h (hsame ▸ hl')]
  · exact hl'

theorem at?_put_ne {e : Entry} (h : place ≠ l) : (t.put l e).at? place = t.at? place := by
  rw [at?_put, if_neg h]
  split_ifs with hroot
  · rw [hroot]
    rfl
  · rfl

theorem ne_nil_of_at?_ne (h : t.at? l ≠ some .directory) : l ≠ [] := by
  rintro rfl
  exact h rfl

theorem at?_put_self {e : Entry} (h : t.at? l ≠ some .directory) : (t.put l e).at? l = some e := by
  rw [at?_put, if_neg (ne_nil_of_at?_ne h), if_pos rfl]

/-- The file is the last one of the list whose path names the place. -/
def LastAt (t : FileTree) (files : List OutputFile) (l : Location) (last : OutputFile) : Prop :=
  ∃ earlier later, files = earlier ++ last :: later ∧ t.locate last.path = .ok l ∧
    ∀ file ∈ later, t.locate file.path ≠ .ok l

/-- A directory stands there for the sake of the file: the path of its parent, or of one of the
parent's ancestors, names the place. -/
def IsParentPlace (t : FileTree) (file : OutputFile) (l : Location) : Prop :=
  ∃ parent ∈ file.path.parent?, ∃ directory ∈ parent.ancestors, t.directoryPlace directory = .ok l

/-- What writing leaves. The place of each written file holds the contents of the last one that was
written there. All other places hold what they held before, except that directories may stand at
places that were free and that parents of the tried files name. -/
structure Wrote (before after : FileTree) (written tried : List OutputFile) : Prop where
  grows : before.Grows after
  holds : ∀ file ∈ written, ∃ l last, after.locate file.path = .ok l ∧
    after.LastAt written l last ∧ after.at? l = some (.file last.contents.toUTF8)
  keeps : ∀ l, (∀ file ∈ written, after.locate file.path ≠ .ok l) →
    after.at? l = before.at? l ∨ before.at? l = none ∧ after.at? l = some .directory ∧
      ∃ file ∈ tried, after.IsParentPlace file l

theorem IsParentPlace.mono (hgrows : t.Grows t') (h : t.IsParentPlace file l) :
    t'.IsParentPlace file l := by
  obtain ⟨parent, hparent, directory, hdirectory, hplace⟩ := h
  exact ⟨parent, hparent, directory, hdirectory, hgrows.locate hplace⟩

theorem Wrote.start (tried : List OutputFile) : Wrote t t [] tried where
  grows := .refl
  holds := by simp
  keeps l _ := .inl rfl

theorem Wrote.mono {more : List OutputFile} (h : Wrote before t written tried)
    (hsubset : tried ⊆ more) : Wrote before t written more where
  grows := h.grows
  holds := h.holds
  keeps l hl := by
    refine (h.keeps l hl).imp_right ?_
    rintro ⟨hnone, hdirectory, file, hfile, hplace⟩
    exact ⟨hnone, hdirectory, file, hsubset hfile, hplace⟩

/-- The written files are still where they were written. -/
theorem Wrote.locate_iff (h : Wrote before t written tried) (hgrows : t.Grows t')
    (hfile : file ∈ written) : t'.locate file.path = .ok l ↔ t.locate file.path = .ok l := by
  obtain ⟨place, -, hplace, -⟩ := h.holds file hfile
  rw [hplace, hgrows.locate hplace]

theorem Wrote.lastAt (h : Wrote before t written tried) (hgrows : t.Grows t') {last : OutputFile}
    (hlast : t.LastAt written l last) : t'.LastAt written l last := by
  obtain ⟨earlier, later, rfl, hplace, hlater⟩ := hlast
  refine ⟨earlier, later, rfl, hgrows.locate hplace, fun file hfile => ?_⟩
  rw [Ne, h.locate_iff hgrows (by simp [hfile])]
  exact hlater file hfile

/-- Making a directory for a tried file. -/
theorem Wrote.makeDirectory (h : Wrote before t written tried)
    (hmade : t.makeDirectory p = .ok t') {parent : Path} (hfile : file ∈ tried)
    (hparent : file.path.parent? = some parent) (hp : p ∈ parent.ancestors) :
    Wrote before t' written tried := by
  obtain ⟨place, hplace, hfree, rfl⟩ := makeDirectory_eq_ok hmade
  have hgrows : t.Grows (t.put place .directory) := grows_put fun _ => rfl
  refine ⟨h.grows.trans hgrows, fun file hfile => ?_, fun l hl => ?_⟩
  · obtain ⟨l, last, hl, hlast, hcontents⟩ := h.holds file hfile
    have hne : l ≠ place := by
      rintro rfl
      simp [hfree] at hcontents
    refine ⟨l, last, hgrows.locate hl, h.lastAt hgrows hlast, ?_⟩
    rw [at?_put_ne hne, hcontents]
  · have hkept := h.keeps l fun file hfile => by
      rw [Ne, ← h.locate_iff hgrows hfile]
      exact hl file hfile
    by_cases heq : l = place
    · subst heq
      right
      refine ⟨?_, at?_put_self (by simp [hfree]), file, hfile, parent, hparent, p, hp,
        hgrows.locate hplace⟩
      rcases hkept with hsame | ⟨hnone, -⟩
      · exact hsame ▸ hfree
      · exact hnone
    · rw [at?_put_ne heq]
      refine hkept.imp_right ?_
      rintro ⟨hnone, hdirectory, file, hfile, hparentPlace⟩
      exact ⟨hnone, hdirectory, file, hfile, hparentPlace.mono hgrows⟩

/-- Writing one more file. -/
theorem Wrote.writeText (h : Wrote before t written tried)
    (hwritten : t.writeText file.path file.contents = .ok t') :
    Wrote before t' (written ++ [file]) tried := by
  obtain ⟨place, hplace, hfree, rfl⟩ := writeText_eq_ok hwritten
  set after := t.put place (.file file.contents.toUTF8) with hafter
  have hgrows : t.Grows after := grows_put fun h => absurd h hfree
  have hnew : after.locate file.path = .ok place := hgrows.locate hplace
  have hself : after.at? place = some (.file file.contents.toUTF8) := at?_put_self hfree
  have hlast : after.LastAt (written ++ [file]) place file := ⟨written, [], rfl, hnew, by simp⟩
  refine ⟨h.grows.trans hgrows, fun other hother => ?_, fun l hl => ?_⟩
  · rcases List.mem_append.mp hother with hother | hother
    · obtain ⟨l, last, hl, hlastAt, hcontents⟩ := h.holds other hother
      have hlocate := hgrows.locate hl
      by_cases heq : l = place
      · subst heq
        exact ⟨l, file, hlocate, hlast, hself⟩
      · obtain ⟨earlier, later, hsplit, hat, hlater⟩ := h.lastAt hgrows hlastAt
        refine ⟨l, last, hlocate, ⟨earlier, later ++ [file], by simp [hsplit], hat, ?_⟩, ?_⟩
        · intro f hf
          rcases List.mem_append.mp hf with hf | hf
          · exact hlater f hf
          · obtain rfl := List.mem_singleton.mp hf
            intro hsame
            exact heq (Except.ok.inj (hsame.symm.trans hnew))
        · rw [hafter, at?_put_ne heq, hcontents]
    · obtain rfl := List.mem_singleton.mp hother
      exact ⟨place, other, hnew, hlast, hself⟩
  · have hne : l ≠ place := by
      rintro rfl
      exact hl file (by simp) hnew
    have hkept := h.keeps l fun other hother => by
      rw [Ne, ← h.locate_iff hgrows hother]
      exact hl other (List.mem_append_left _ hother)
    rw [hafter, at?_put_ne hne]
    refine hkept.imp_right ?_
    rintro ⟨hnone, hdirectory, other, hother, hparentPlace⟩
    exact ⟨hnone, hdirectory, other, hother, hparentPlace.mono hgrows⟩

end Emitter.FileTree
