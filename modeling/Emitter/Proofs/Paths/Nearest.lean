import Emitter.Settings
import Emitter.Proofs.Paths.Places

/-!
# The nearest settings file

Settings are looked for in the directory that a path names and in those that are named by what
remains as the last components of the path are taken away. The search follows the text of the path:
taking a name or a `.` away leads to the directory above or to the same one, but taking `..` away
leads to where `..` went back from, which is none of the directories above. Up to there the search
finds the nearest settings file, and where it finds none, there is none between the directory and
the place where the path starts.
-/

namespace Emitter

open Emitter.Path

namespace FileTree

variable {t : FileTree} {p directory : Path} {start place last : Location}
  {pieces rest : List (List Char)}

/-- The path names a directory. The empty path names the one where relative paths start. -/
def NamesDirectory (t : FileTree) (p : Path) (l : Location) : Prop :=
  (if p.text = "" then l = t.current else t.locate p = .ok l) ∧ t.at? l = some .directory

/-- Something is there under the name of a settings file. -/
def HasSettings (t : FileTree) (place : Location) : Prop :=
  (t.at? (Settings.fileName :: place)).isSome

/-- Among a directory and those above it, the nearest one with a settings file. -/
structure IsNearest (t : FileTree) (named place : Location) : Prop where
  above : place <:+ named
  hasSettings : t.HasSettings place
  none_between : ∀ between, between <:+ named → place <:+ between → between ≠ place →
    ¬t.HasSettings between

/-- The path of the settings file that is looked for in a directory. -/
def candidate (directory : Path) : Path := directory.join ⟨Settings.fileName⟩

/-- A directory of the path that candidates are looked for in. -/
structure Suits (t : FileTree) (start : Location) (directory : Path) : Prop where
  origin : t.origin directory = start
  noNul : '\x00' ∉ directory.text.toList
  fits : (candidate directory).text.utf8ByteSize ≤ 4095

theorem text_candidate (directory : Path) : (candidate directory).text =
    directory.text ++ separator directory ++ Settings.fileName :=
  text_join (by decide) directory

theorem isAbsolute_candidate (directory : Path) :
    (candidate directory).isAbsolute = directory.isAbsolute := by
  unfold isAbsolute
  rw [text_candidate]
  by_cases hempty : directory.text = ""
  · simp [separator, hempty, Settings.fileName]
  · have hlist : directory.text.toList ≠ [] := fun h => hempty (String.toList_eq_nil_iff.mp h)
    simp [List.head?_append_of_ne_nil _ hlist]

theorem step_fileName (h : t.at? place = some .directory) :
    t.step place Settings.fileName = .ok (Settings.fileName :: place) := by
  have hname : ¬(Settings.fileName = "" ∨ Settings.fileName = ".") ∧ Settings.fileName ≠ ".." ∧
      ¬255 < Settings.fileName.utf8ByteSize := by decide
  unfold step
  rw [h]
  simp only [hname, if_false]

/-- A settings file is looked for where the pieces of its directory lead. -/
theorem locate_candidate (h : t.Suits start directory)
    (hplace : t.walk start directory.pieces = .ok place)
    (hdirectory : t.at? place = some .directory) :
    t.locate (candidate directory) = .ok (Settings.fileName :: place) := by
  have hnul : (candidate directory).text.toList.contains '\x00' = false := by
    have hnone : '\x00' ∉ (separator directory).toList ∧ '\x00' ∉ Settings.fileName.toList :=
      ⟨by unfold separator; split_ifs <;> decide, by decide⟩
    simpa [text_candidate, hnone] using h.noNul
  have hne : (candidate directory).text ≠ "" := by
    rw [text_candidate]
    exact fun hempty => absurd (String.append_eq_empty_iff.mp hempty).2 (by decide)
  have horigin : t.origin (candidate directory) = start := by
    rw [← h.origin, origin, origin, isAbsolute_candidate]
  obtain ⟨front, back, hpieces, hback, hfile⟩ :=
    pieces_join ⟨Settings.fileName⟩ (by decide) directory
  have hfront : t.walk start front = .ok place := by
    rw [hpieces] at hplace
    obtain ⟨middle, hmiddle, hrest⟩ := walk_append_eq_ok.mp hplace
    rcases hback with rfl | rfl
    · exact hmiddle.trans hrest
    · exact walk_singleton_of_isNameless (.inl rfl) hrest ▸ hmiddle
  have hwalk : t.walk start (candidate directory).pieces = .ok (Settings.fileName :: place) := by
    rw [candidate, hfile]
    refine walk_append_eq_ok.mpr ⟨place, hfront, ?_⟩
    rw [walk_singleton]
    simpa using step_fileName hdirectory
  unfold locate
  rw [hnul, if_neg (by simp), if_neg hne, if_neg (by have := h.fits; omega)]
  rw [← hwalk, ← horigin]
  rfl

theorem isPresent_iff {l : Location} (h : t.locate p = .ok l) :
    t.isPresent p = true ↔ (t.at? l).isSome := by
  unfold isPresent lookUp
  rw [h]
  simp only [bind, Except.bind]
  cases t.at? l with
  | none => simp [Except.isOk, Except.toBool, throw, throwThe, MonadExceptOf.throw]
  | some e => simp [Except.isOk, Except.toBool, pure, Except.pure]

theorem isPresent_candidate_iff (h : t.Suits start directory)
    (hplace : t.walk start directory.pieces = .ok place)
    (hdirectory : t.at? place = some .directory) :
    t.isPresent (candidate directory) = true ↔ t.HasSettings place :=
  isPresent_iff (locate_candidate h hplace hdirectory)

/-! The search takes pieces off the path. That is climbing in the tree as long as the piece taken
off is no `..`, which is why the place that is found may be aside. -/

/-- The candidate that is found first is in a place that leading pieces lead to, and no place that
more of the pieces lead to has a settings file, that place apart. If none is found, no place has one
that leading pieces lead to. -/
def Finds (t : FileTree) (start : Location) (pieces : List (List Char)) : Option Path → Prop
  | none => ∀ kept dropped, pieces = kept ++ dropped → ∀ place, t.walk start kept = .ok place →
      ¬t.HasSettings place
  | some path => ∃ kept dropped place, pieces = kept ++ dropped ∧
      t.walk start kept = .ok place ∧ t.locate path = .ok (Settings.fileName :: place) ∧
      t.HasSettings place ∧ ∀ front back, dropped = front ++ back → ∀ between,
        t.walk place front = .ok between → between ≠ place → ¬t.HasSettings between

/-- The candidates of directories are tried in order, and nothing changes. -/
theorem run_findIn (t : FileTree) (directories : List Path) :
    (Settings.findIn directories : StateM FileTree (Option Path)).run t =
      ((directories.map candidate).find? t.isPresent, t) := by
  induction directories with
  | nil => rfl
  | cons directory rest ih =>
      have hstep : (Settings.findIn (directory :: rest) : StateM FileTree (Option Path)).run t =
          (if t.isPresent (candidate directory) then
            (pure (some (candidate directory)) : StateM FileTree (Option Path))
          else Settings.findIn rest).run t := rfl
      rw [hstep, List.map_cons, List.find?_cons]
      cases t.isPresent (candidate directory) with
      | true => rfl
      | false => simpa using ih

theorem run_find (t : FileTree) (p : Path) :
    (Settings.find p : StateM FileTree (Option Path)).run t =
      ((p.ancestors.map candidate).find? t.isPresent, t) := run_findIn t p.ancestors

/-- What is found is found first if the last piece is there too, which leads to no other place with
a settings file. -/
theorem Finds.concat {found : Option Path} {piece : List Char} (h : t.Finds start pieces found)
    (hplace : t.walk start pieces = .ok place) (hlast : t.walk place [piece] = .ok last)
    (hnone : last = place ∨ ¬t.HasSettings last) : t.Finds start (pieces ++ [piece]) found := by
  have hall : t.walk start (pieces ++ [piece]) = .ok last :=
    walk_append_eq_ok.mpr ⟨place, hplace, hlast⟩
  cases found with
  | none =>
      intro kept dropped hpieces there hthere
      rcases List.eq_nil_or_concat dropped with rfl | ⟨front, final, rfl⟩
      · rw [List.append_nil] at hpieces
        subst hpieces
        obtain rfl := Except.ok.inj (hthere.symm.trans hall)
        rcases hnone with rfl | hnone
        · exact h pieces [] (by simp) _ hplace
        · exact hnone
      · rw [List.concat_eq_append, ← List.append_assoc] at hpieces
        obtain ⟨hpieces, -⟩ := List.append_inj' hpieces rfl
        exact h kept front hpieces there hthere
  | some path =>
      obtain ⟨kept, dropped, there, rfl, hthere, hpath, hsettings, hbetween⟩ := h
      have hdropped : t.walk there dropped = .ok place := by
        obtain ⟨there', hthere', hdropped⟩ := walk_append_eq_ok.mp hplace
        obtain rfl := Except.ok.inj (hthere'.symm.trans hthere)
        exact hdropped
      refine ⟨kept, dropped ++ [piece], there, by simp, hthere, hpath, hsettings, ?_⟩
      intro front back hfront between hwalk hne
      rcases List.eq_nil_or_concat back with rfl | ⟨back, final, rfl⟩
      · rw [List.append_nil] at hfront
        subst hfront
        obtain ⟨place', hplace', hlast'⟩ := walk_append_eq_ok.mp hwalk
        obtain rfl := Except.ok.inj (hplace'.symm.trans hdropped)
        obtain rfl := Except.ok.inj (hlast'.symm.trans hlast)
        rcases hnone with rfl | hnone
        · exact hbetween dropped [] (by simp) _ hdropped hne
        · exact hnone
      · rw [List.concat_eq_append, ← List.append_assoc] at hfront
        obtain ⟨hfront, -⟩ := List.append_inj' hfront rfl
        exact hbetween front back hfront between hwalk hne

/-- Pieces that name nothing make no difference at the end. -/
theorem Finds.nameless {found : Option Path} {more : List (List Char)}
    (h : t.Finds start pieces found) (hmore : ∀ piece ∈ more, IsNameless piece)
    (hall : t.walk start (pieces ++ more) = .ok last) : t.Finds start (pieces ++ more) found := by
  induction more using List.reverseRecOn generalizing last with
  | nil => simpa using h
  | append_singleton more piece ih =>
      rw [← List.append_assoc] at hall ⊢
      obtain ⟨place, hplace, hlast⟩ := walk_append_eq_ok.mp hall
      have hpiece := hmore piece (by simp)
      exact (ih (fun piece h => hmore piece (List.mem_append_left _ h)) hplace).concat hplace hlast
        (.inl (walk_singleton_of_isNameless hpiece hlast))

/-- A candidate that is present is found. -/
theorem finds_of_isPresent (h : t.Suits start directory)
    (hplace : t.walk start directory.pieces = .ok place)
    (hdirectory : t.at? place = some .directory)
    (hpresent : t.isPresent (candidate directory) = true)
    (hpieces : t.walk start pieces = .ok place) :
    t.Finds start pieces (some (candidate directory)) := by
  refine ⟨pieces, [], place, by simp, hpieces, locate_candidate h hplace hdirectory,
    (isPresent_candidate_iff h hplace hdirectory).mp hpresent, ?_⟩
  intro front back hfront between hbetween hne
  obtain ⟨rfl, -⟩ := List.append_eq_nil_iff.mp hfront.symm
  exact absurd (Except.ok.inj hbetween).symm hne

/-- The search through what remains as the last pieces are taken away. -/
theorem finds_ancestorsOf {absolute : Bool} (hcut : AreCut rest)
    (hsuits : ∀ directory ∈ ancestorsOf absolute rest, t.Suits start directory)
    (hplace : t.walk start rest.reverse = .ok place) (hdirectory : t.at? place = some .directory) :
    t.Finds start rest.reverse (((ancestorsOf absolute rest).map candidate).find? t.isPresent) := by
  induction rest generalizing place with
  | nil =>
      obtain rfl := Except.ok.inj hplace
      have hpieces : t.walk start (ofReversed absolute []).pieces = .ok start := by
        refine walk_of_isNameless (fun piece hpiece => .inl ?_) hdirectory
        cases absolute <;> simpa [ofReversed, dropNameless, Path.pieces, splitAtSlash] using hpiece
      have hsuits := hsuits _ (List.mem_cons_self ..)
      cases hpresent : t.isPresent (candidate (ofReversed absolute [])) with
      | true =>
          simpa [ancestorsOf, hpresent] using
            finds_of_isPresent hsuits hpieces hdirectory hpresent hplace
      | false =>
          simp only [ancestorsOf, List.map_cons, List.map_nil, List.find?_cons, hpresent,
            List.find?_nil]
          intro kept dropped hkept there hthere
          obtain ⟨rfl, -⟩ := List.append_eq_nil_iff.mp hkept.symm
          obtain rfl := Except.ok.inj hthere
          rw [← isPresent_candidate_iff hsuits hpieces hdirectory, hpresent]
          simp
  | cons piece rest ih =>
      obtain ⟨hpiece, hrest⟩ := List.forall_mem_cons.mp hcut
      rw [List.reverse_cons] at hplace ⊢
      obtain ⟨before, hbefore, hlast⟩ := walk_append_eq_ok.mp hplace
      have hoctory := at?_of_walk_append hplace hdirectory hbefore
      unfold ancestorsOf at hsuits ⊢
      split_ifs at hsuits ⊢ with hkeep
      · have hpath : ofReversed absolute (piece :: rest) =
            ⟨joinPieces (piece :: rest).reverse⟩ := by
          rw [ofReversed, hkeep]
        have hpieces : (ofReversed absolute (piece :: rest)).pieces = rest.reverse ++ [piece] := by
          rw [hpath, pieces_mk_joinPieces (by simp)
            fun piece h => hcut piece (List.mem_reverse.mp h), List.reverse_cons]
        obtain ⟨hfirst, hsuits⟩ := List.forall_mem_cons.mp hsuits
        have hsearched := ih hrest hsuits hbefore hoctory
        rw [List.map_cons, List.find?_cons]
        cases hpresent : t.isPresent (candidate (ofReversed absolute (piece :: rest))) with
        | true =>
            exact finds_of_isPresent hfirst (hpieces ▸ hplace) hdirectory hpresent hplace
        | false =>
            refine hsearched.concat hbefore hlast (.inr ?_)
            rw [← isPresent_candidate_iff hfirst (hpieces ▸ hplace) hdirectory, hpresent]
            simp
      · exact (ih hrest hsuits hbefore hoctory).concat hbefore hlast
          (.inl (walk_singleton_of_isNameless (isNameless_of_dropNameless_ne hkeep) hlast))

/-- The search through a path and its ancestors. -/
theorem finds_ancestors (hsuits : ∀ directory ∈ p.ancestors, t.Suits start directory)
    (hplace : t.walk start p.pieces = .ok place) (hdirectory : t.at? place = some .directory) :
    t.Finds start p.pieces ((p.ancestors.map candidate).find? t.isPresent) := by
  obtain ⟨dropped, hdropped, hnameless⟩ := exists_dropNameless p.pieces.reverse
  have hnameless : ∀ piece ∈ dropped.reverse, IsNameless piece := fun piece h =>
    hnameless piece (List.mem_reverse.mp h)
  have hpieces : p.pieces = p.namedPieces.reverse ++ dropped.reverse := by
    rw [← List.reverse_append, namedPieces, ← hdropped, List.reverse_reverse]
  have hself : t.Suits start p := hsuits p (by unfold ancestors; split <;> simp)
  have hpresence := isPresent_candidate_iff hself hplace hdirectory
  unfold ancestors at hsuits ⊢
  cases hpresent : t.isPresent (candidate p) with
  | true =>
      have hfound := finds_of_isPresent hself hplace hdirectory hpresent hplace
      split <;> simpa [hpresent] using hfound
  | false =>
      have hnone : ¬t.HasSettings place := by simp [← hpresence, hpresent]
      cases hnamed : p.namedPieces with
      | nil =>
          rw [hnamed, List.reverse_nil] at hpieces
          have hall : t.walk start dropped.reverse = .ok place := by simpa [hpieces] using hplace
          have hfront : t.walk start ([] ++ dropped.reverse) = .ok place := hall
          obtain rfl := Except.ok.inj (hall.symm.trans
            (walk_of_isNameless hnameless (at?_of_walk_append hfront hdirectory rfl)))
          have hstart : t.Finds place [] none := by
            intro kept dropped hkept there hthere
            obtain ⟨rfl, -⟩ := List.append_eq_nil_iff.mp hkept.symm
            exact Except.ok.inj hthere ▸ hnone
          rw [hpieces]
          simpa [hpresent] using hstart.nameless hnameless hall
      | cons name rest =>
          rw [hnamed] at hsuits hpieces
          rw [hpieces] at hplace ⊢
          obtain ⟨named, hwalked, hrest⟩ := walk_append_eq_ok.mp hplace
          obtain rfl := Except.ok.inj (hrest.symm.trans
            (walk_of_isNameless hnameless (at?_of_walk_append hplace hdirectory hwalked)))
          rw [List.reverse_cons] at hwalked
          obtain ⟨before, hbefore, hlast⟩ := walk_append_eq_ok.mp hwalked
          have hcut : AreCut rest := fun piece h => areCut_pieces p piece (by simp [hpieces, h])
          have habove := finds_ancestorsOf hcut (fun directory h => hsuits directory
            (List.mem_cons_of_mem _ h)) hbefore (at?_of_walk_append hwalked hdirectory hbefore)
          have hnext := (habove.concat hbefore hlast (.inr hnone)).nameless hnameless
            (by rw [← List.reverse_cons]; exact hplace)
          simpa [hpresent] using hnext

/-- What the paths above a path are put together from. -/
theorem mem_ancestorsOf {absolute : Bool} (h : directory ∈ ancestorsOf absolute rest) :
    directory = ⟨if absolute then "/" else ""⟩ ∨ ∃ dropped piece kept,
      rest = dropped ++ piece :: kept ∧ piece ≠ [] ∧
        directory = ⟨joinPieces (piece :: kept).reverse⟩ := by
  induction rest with
  | nil =>
      obtain rfl := List.mem_singleton.mp h
      exact .inl rfl
  | cons piece rest ih =>
      unfold ancestorsOf at h
      have hlater (h : directory ∈ ancestorsOf absolute rest) :
          directory = ⟨if absolute then "/" else ""⟩ ∨ ∃ dropped next kept,
            piece :: rest = dropped ++ next :: kept ∧ next ≠ [] ∧
              directory = ⟨joinPieces (next :: kept).reverse⟩ :=
        (ih h).imp_right fun ⟨dropped, next, kept, hkept, hdirectory⟩ =>
          ⟨piece :: dropped, next, kept, congrArg (piece :: ·) hkept, hdirectory⟩
      split_ifs at h with hkeep
      · rcases List.mem_cons.mp h with rfl | h
        · refine .inr ⟨[], piece, rest, rfl, ne_nil_of_dropNameless hkeep, ?_⟩
          rw [ofReversed, hkeep]
        · exact hlater h
      · exact hlater h

theorem utf8ByteSize_candidate (directory : Path) :
    directory.text.utf8ByteSize + 13 ≤ (candidate directory).text.utf8ByteSize ∧
      (candidate directory).text.utf8ByteSize ≤ directory.text.utf8ByteSize + 14 := by
  have hname : Settings.fileName.utf8ByteSize = 13 := by decide
  have hseparator : (separator directory).utf8ByteSize ≤ 1 := by
    unfold separator
    split_ifs <;> decide
  rw [text_candidate, String.utf8ByteSize_append, String.utf8ByteSize_append, hname]
  omega

/-- Every directory that is looked through is the path, the place where the path starts or what
stands in front of a slash of the path's text. -/
theorem mem_ancestors (h : directory ∈ p.ancestors) :
    directory = p ∨ directory = ⟨if p.isAbsolute then "/" else ""⟩ ∨
      directory.text ≠ "" ∧ ∃ more, p.text.toList = directory.text.toList ++ '/' :: more := by
  obtain ⟨dropped, hdropped, -⟩ := exists_dropNameless p.pieces.reverse
  unfold ancestors at h
  cases hnamed : p.namedPieces with
  | nil =>
      rw [hnamed] at h
      exact .inl (List.mem_singleton.mp h)
  | cons name rest =>
      rw [hnamed] at h
      rcases List.mem_cons.mp h with rfl | h
      · exact .inl rfl
      rcases mem_ancestorsOf h with h | ⟨lost, piece, kept, rfl, hpiece, rfl⟩
      · exact .inr (.inl h)
      have hpieces : p.pieces = (piece :: kept).reverse ++ (dropped ++ name :: lost).reverse := by
        rw [← List.reverse_append, ← List.reverse_eq_iff, hdropped, ← namedPieces, hnamed]
        simp
      refine .inr (.inr ⟨?_, List.intercalate ['/'] (dropped ++ name :: lost).reverse, ?_⟩)
      · intro hempty
        have hlast : piece ∈ (Path.mk (joinPieces (piece :: kept).reverse)).pieces := by
          rw [pieces_mk_joinPieces (by simp) fun piece h => areCut_pieces p piece (by
            rw [hpieces]; exact List.mem_append_left _ h)]
          simp
        rw [Path.pieces, hempty] at hlast
        exact hpiece (by simpa [splitAtSlash] using hlast)
      · rw [← joinPieces_pieces p, hpieces, toList_joinPieces, toList_joinPieces,
          intercalate_append (by simp) (by simp)]

theorem suits_of_mem_ancestors (hnul : '\x00' ∉ p.text.toList)
    (hfits : (candidate p).text.utf8ByteSize ≤ 4095) (h : directory ∈ p.ancestors) :
    t.Suits (t.origin p) directory := by
  rcases mem_ancestors h with rfl | rfl | ⟨hne, more, htext⟩
  · exact ⟨rfl, hnul, hfits⟩
  · cases habsolute : p.isAbsolute
    · exact ⟨by rw [origin, origin, habsolute]; rfl, by decide, by decide⟩
    · exact ⟨by rw [origin, origin, habsolute]; rfl, by decide, by decide⟩
  · have hlist : directory.text.toList ≠ [] := fun h => hne (String.toList_eq_nil_iff.mp h)
    have hsize : p.text.utf8ByteSize =
        directory.text.utf8ByteSize + 1 + (String.ofList more).utf8ByteSize := by
      have hparts : p.text = directory.text ++ "/" ++ String.ofList more := by
        simp [← String.toList_inj, htext]
      rw [hparts, String.utf8ByteSize_append, String.utf8ByteSize_append]
      rfl
    refine ⟨?_, fun hmem => hnul (by simp [htext, hmem]), ?_⟩
    · simp [origin, isAbsolute, htext, List.head?_append_of_ne_nil _ hlist]
    · have := utf8ByteSize_candidate p
      have := utf8ByteSize_candidate directory
      omega

theorem NamesDirectory.noNul (h : t.NamesDirectory p last) : '\x00' ∉ p.text.toList := by
  intro hnul
  obtain ⟨hlocate, -⟩ := h
  split_ifs at hlocate with hempty
  · rw [hempty] at hnul
    exact absurd hnul (by decide)
  · rw [locate, if_pos (List.contains_iff_mem.mpr hnul)] at hlocate
    cases hlocate

theorem NamesDirectory.walk_eq (h : t.NamesDirectory p last) :
    t.walk (t.origin p) p.pieces = .ok last := by
  obtain ⟨hlocate, hdirectory⟩ := h
  split_ifs at hlocate with hempty
  · subst hlocate
    have hstart : t.origin p = t.current := by simp [origin, isAbsolute, hempty]
    have hpieces : p.pieces = [[]] := by simp [Path.pieces, hempty, splitAtSlash]
    rw [hstart, hpieces]
    exact walk_of_isNameless (by simp [IsNameless]) hdirectory
  · exact walk_of_locate hlocate

/-- The search ends and changes nothing. If it finds nothing, there is no settings file from the
directory that is named up to where the way to it turns, which is the start of the path if that is
above. If it finds one, that stands where leading pieces of the path lead. It is the nearest one as
soon as it is in the directory or above, and this is so unless the search gave up a `..`. -/
theorem find_nearest {p : Path} {named : Location} (hnamed : t.NamesDirectory p named)
    (hfits : (candidate p).text.utf8ByteSize ≤ 4095) :
    ∃ found, (Settings.find p : StateM FileTree (Option Path)).run t = (found, t) ∧
      (found = none → ∀ place, place <:+ named →
        (∀ common, common <:+ t.origin p → common <:+ named → common <:+ place) →
        ¬t.HasSettings place) ∧
      ∀ path, found = some path → ∃ kept dropped place, p.pieces = kept ++ dropped ∧
        t.walk (t.origin p) kept = .ok place ∧
        t.locate path = .ok (Settings.fileName :: place) ∧ t.HasSettings place ∧
        (t.IsNearest named place ↔ place <:+ named) ∧
        ("..".toList ∉ dropped → t.IsNearest named place) := by
  have hwalk := hnamed.walk_eq
  have hfinds := finds_ancestors (fun directory h => suits_of_mem_ancestors hnamed.noNul hfits h)
    hwalk hnamed.2
  refine ⟨_, run_find t p, fun hnone place habove hturn => ?_, fun path hpath => ?_⟩
  · rw [hnone] at hfinds
    obtain ⟨kept, dropped, hpieces, hplace⟩ := exists_walk_of_suffix hwalk habove hturn
    exact hfinds kept dropped hpieces place hplace
  · rw [hpath] at hfinds
    obtain ⟨kept, dropped, place, hpieces, hplace, hlocate, hsettings, hlater⟩ := hfinds
    have hdropped : t.walk place dropped = .ok named := by
      rw [hpieces] at hwalk
      obtain ⟨place', hplace', hdropped⟩ := walk_append_eq_ok.mp hwalk
      obtain rfl := Except.ok.inj (hplace'.symm.trans hplace)
      exact hdropped
    have hnearest (habove : place <:+ named) : t.IsNearest named place := by
      refine ⟨habove, hsettings, fun between hbetween hbelow hne => ?_⟩
      obtain ⟨front, back, hfront, hthere⟩ := exists_walk_of_suffix hdropped hbetween
        fun common hcommon _ => hcommon.trans hbelow
      exact hlater front back hfront between hthere hne
    exact ⟨kept, dropped, place, hpieces, hplace, hlocate, hsettings, ⟨fun h => h.above, hnearest⟩,
      fun hback => hnearest (suffix_of_walk hdropped hback)⟩

/-- A tree with two settings files, one of them aside. -/
def twoSettings : FileTree where
  current := ["work"]
  entries := [(["work"], .directory), ([Settings.fileName, "work"], .file ByteArray.empty),
    (["a", "work"], .directory), (["x", "a", "work"], .directory),
    ([Settings.fileName, "x", "a", "work"], .file ByteArray.empty),
    (["y", "a", "work"], .directory)]

theorem find_nearest_above :
    twoSettings.NamesDirectory ⟨"a/./y"⟩ ["y", "a", "work"] ∧
    ∃ found, (Settings.find ⟨"a/./y"⟩ : StateM FileTree (Option Path)).run twoSettings =
        (found, twoSettings) ∧
      (found = none → ∀ place, place <:+ ["y", "a", "work"] →
        (∀ common, common <:+ twoSettings.origin ⟨"a/./y"⟩ → common <:+ ["y", "a", "work"] →
          common <:+ place) → ¬twoSettings.HasSettings place) ∧
      ∀ path, found = some path → ∃ kept dropped place,
        (Path.mk "a/./y").pieces = kept ++ dropped ∧
        twoSettings.walk (twoSettings.origin ⟨"a/./y"⟩) kept = .ok place ∧
        twoSettings.locate path = .ok (Settings.fileName :: place) ∧
        twoSettings.HasSettings place ∧
        (twoSettings.IsNearest ["y", "a", "work"] place ↔ place <:+ ["y", "a", "work"]) ∧
        ("..".toList ∉ dropped → twoSettings.IsNearest ["y", "a", "work"] place) := by
  have hnamed : twoSettings.NamesDirectory ⟨"a/./y"⟩ ["y", "a", "work"] :=
    ⟨by rw [if_neg (by decide)]; decide, by decide⟩
  exact ⟨hnamed, find_nearest hnamed (by decide)⟩

/-- From `a/x/../y`, which names `a/y`, the settings in `a/x` are found. -/
theorem find_aside : ∃ path place,
    twoSettings.NamesDirectory ⟨"a/x/../y"⟩ ["y", "a", "work"] ∧
    (Settings.find ⟨"a/x/../y"⟩ : StateM FileTree (Option Path)).run twoSettings =
      (some path, twoSettings) ∧
    twoSettings.locate path = .ok (Settings.fileName :: place) ∧
    ¬place <:+ ["y", "a", "work"] := by
  refine ⟨⟨"a/x/polyemit.toml"⟩, ["x", "a", "work"], ⟨?_, by decide⟩, ?_, by decide, by decide⟩
  · rw [if_neg (by decide)]
    decide
  · rw [run_find]
    exact congrArg (·, twoSettings) (by decide)

end FileTree

end Emitter
