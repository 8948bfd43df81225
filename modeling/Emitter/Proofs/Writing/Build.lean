import Emitter.Build
import Emitter.Proofs.Writing.Tree

/-!
# What a build leaves of a tree

A build is run here on a tree whose keeper may refuse any question for reasons that the tree does
not know, such as a full disk, and then leaves the tree as it is. What the build reports follows
from how its phases end. A program that cannot be read or printed leaves the tree unchanged; the
files of one that is printed are saved in order, up to the first that cannot be.
-/

namespace Emitter

open FileTree Program

/-- A tree of files whose keeper may refuse what it is asked. The list says of each question to
come whether it is refused, and why; after its end no question is. -/
structure GuardedTree where
  tree : FileTree
  refusals : List (Option FileError)

namespace GuardedTree

variable {α β : Type}

/-- The next question: put to the tree, or refused without a change to it. -/
def ask (refused : FileError → α) (question : StateM FileTree α) : StateM GuardedTree α := fun g =>
  match g.refusals.head?.join with
  | some e => (refused e, ⟨g.tree, g.refusals.tail⟩)
  | none => ((question g.tree).1, ⟨(question g.tree).2, g.refusals.tail⟩)

/-- A question after a Boolean is refused by the answer that nothing is there. -/
instance : Files (StateM GuardedTree) where
  readText p := ask .error (Files.readText p)
  isPresent p := ask (fun _ => false) (Files.isPresent p)
  isDirectory p := ask (fun _ => false) (Files.isDirectory p)
  makeDirectory p := ask .error (Files.makeDirectory p)
  writeText p contents := ask .error (Files.writeText p contents)

/-- From a tree with a property, the run ends with a result and a tree that fit together. -/
def Leaves (I : FileTree → Prop) (x : StateM GuardedTree α) (Q : α → FileTree → Prop) : Prop :=
  ∀ g, I g.tree → Q (x g).1 (x g).2.tree

variable {I : FileTree → Prop} {Q : α → FileTree → Prop} {R : β → FileTree → Prop}
  {x : StateM GuardedTree α} {p : Path}

theorem run_bind (x : StateM GuardedTree α) (next : α → StateM GuardedTree β) (g : GuardedTree) :
    (x >>= next) g = next (x g).1 (x g).2 := rfl

theorem leaves_pure {a : α} (h : ∀ t, I t → Q a t) : Leaves I (pure a) Q :=
  fun g hg => h g.tree hg

theorem Leaves.bind {next : α → StateM GuardedTree β} (hx : Leaves I x Q)
    (hnext : ∀ a, Leaves (Q a) (next a) R) : Leaves I (x >>= next) R :=
  fun g hg => hnext (x g).1 (x g).2 (hx g hg)

theorem Leaves.mono {Q' : α → FileTree → Prop} (hx : Leaves I x Q)
    (h : ∀ a t, Q a t → Q' a t) : Leaves I x Q' :=
  fun g hg => h _ _ (hx g hg)

/-- A question leaves what the tree's answer to it leaves, or was refused. -/
theorem leaves_ask {refused : FileError → α} {question : StateM FileTree α}
    (hrefused : ∀ e t, I t → Q (refused e) t)
    (hasked : ∀ t, I t → Q (question t).1 (question t).2) : Leaves I (ask refused question) Q := by
  intro g hg
  rw [ask]
  split
  · exact hrefused _ _ hg
  · exact hasked _ hg

theorem leaves_readText :
    Leaves I (Files.readText p) fun _ t => I t :=
  leaves_ask (fun _ _ h => h) fun _ h => h

theorem leaves_isDirectory : Leaves I (Files.isDirectory p) fun _ t => I t :=
  leaves_ask (fun _ _ h => h) fun _ h => h

theorem leaves_attempt {change : FileTree → Except FileError FileTree} {J : FileTree → Prop}
    (h : ∀ t t', I t → change t = .ok t' → J t') :
    Leaves I (ask .error (attempt change)) fun outcome t =>
      (outcome = .ok () → J t) ∧ (∀ e, outcome = .error e → I t) := by
  refine leaves_ask (fun e t ht => ⟨nofun, fun _ _ => ht⟩) fun t ht => ?_
  cases hchange : change t with
  | ok t' =>
      simp only [attempt, hchange]
      exact ⟨fun _ => h t t' ht hchange, nofun⟩
  | error e =>
      simp only [attempt, hchange]
      exact ⟨nofun, fun _ _ => ht⟩

/-- An invariant that survives the making of the directory. -/
def KeptBy (I : FileTree → Prop) (p : Path) : Prop :=
  ∀ t t', I t → t.makeDirectory p = .ok t' → I t'

theorem leaves_makeDirectory (h : KeptBy I p) : Leaves I (Files.makeDirectory p) fun _ t => I t :=
  (leaves_attempt h).mono fun outcome t ht => by
    cases outcome with
    | ok => exact ht.1 rfl
    | error e => exact ht.2 e rfl

theorem leaves_ensureOne (h : KeptBy I p) : Leaves I (Files.ensureOne p) fun _ t => I t := by
  refine (leaves_makeDirectory h).bind fun outcome => ?_
  cases outcome with
  | ok => exact leaves_pure fun _ ht => ht
  | error e => exact leaves_isDirectory.bind fun _ => leaves_pure fun _ ht => ht

theorem leaves_ensureDirectory {directories : List Path} (h : ∀ p ∈ directories, KeptBy I p) :
    Leaves I (Files.ensureDirectory directories) fun _ t => I t := by
  induction directories with
  | nil => exact leaves_pure fun _ ht => ht
  | cons p ancestors ih =>
      obtain ⟨hp, hrest⟩ := List.forall_mem_cons.mp h
      rw [Files.ensureDirectory]
      split_ifs
      · exact leaves_pure fun _ ht => ht
      · refine (leaves_ensureOne hp).bind fun outcome => ?_
        split
        · refine (ih hrest).bind fun outcome => ?_
          split
          · exact leaves_ensureOne hp
          · exact leaves_pure fun _ ht => ht
        · exact leaves_pure fun _ ht => ht

section Writing

variable {before : FileTree} {file : OutputFile} {written tried : List OutputFile}

theorem leaves_writeText :
    Leaves (Wrote before · written tried) (Files.writeText file.path file.contents)
      fun outcome t =>
        (outcome = .ok () → Wrote before t (written ++ [file]) tried) ∧
        (∀ e, outcome = .error e → Wrote before t written tried) :=
  leaves_attempt fun _ _ ht hwritten => ht.writeText hwritten

/-- One more file is written, or else at most directories are made for it. -/
theorem leaves_save (hfile : file ∈ tried) :
    Leaves (Wrote before · written tried) (Files.save file.path file.contents) fun outcome t =>
      (outcome = .ok () → Wrote before t (written ++ [file]) tried) ∧
      (∀ e, outcome = .error e → Wrote before t written tried) := by
  rw [Files.save]
  cases hparent : file.path.parent? with
  | none => exact leaves_writeText
  | some parent =>
      have hkept : ∀ p ∈ parent.ancestors, KeptBy (Wrote before · written tried) p :=
        fun p hp t t' ht hmade => ht.makeDirectory hmade hfile hparent hp
      refine (leaves_ensureDirectory hkept).bind fun outcome => ?_
      cases outcome with
      | ok => exact leaves_writeText
      | error e => exact leaves_pure fun t ht => ⟨nofun, fun _ _ => ht⟩

end Writing

/-! The run over the files is described by its saves: each goes through, or a first one is refused
and ends it. -/

/-- Saving a file, with its contents at its path. -/
def save (file : OutputFile) : StateM GuardedTree (Except FileError Unit) :=
  Files.save file.path file.contents

/-- The files are saved one after the other, and none is refused. -/
inductive Saves : GuardedTree → List OutputFile → GuardedTree → Prop
  | nil (g : GuardedTree) : Saves g [] g
  | cons {g next after : GuardedTree} {file : OutputFile} {rest : List OutputFile} :
      save file g = (.ok (), next) → Saves next rest after → Saves g (file :: rest) after

/-- The files `earlier` are saved, and then the next one cannot be. -/
def StopsAt (g : GuardedTree) (earlier : List OutputFile) (file : OutputFile) (cause : FileError)
    (after : GuardedTree) : Prop :=
  ∃ reached, Saves g earlier reached ∧ save file reached = (.error cause, after)

section Saving

variable {g next reached after : GuardedTree} {file : OutputFile}
  {files earlier later done : List OutputFile} {cause : FileError} {before : FileTree}

theorem writeFiles_cons (hsave : save file g = (.ok (), next)) :
    (writeFiles (file :: later) : StateM GuardedTree _) g =
      (writeFiles later : StateM GuardedTree _) next := by
  rw [writeFiles, run_bind, ← save, hsave]

theorem Saves.writeFiles_append (h : Saves g earlier reached) :
    (writeFiles (earlier ++ later) : StateM GuardedTree _) g =
      (writeFiles later : StateM GuardedTree _) reached := by
  induction h with
  | nil => rfl
  | cons hsave _ ih => rw [List.cons_append, writeFiles_cons hsave, ih]

theorem Saves.writeFiles_eq (h : Saves g files after) :
    (writeFiles files : StateM GuardedTree _) g = (.ok (), after) := by
  have happend : (writeFiles (files ++ []) : StateM GuardedTree _) g = (.ok (), after) :=
    h.writeFiles_append
  rwa [List.append_nil] at happend

theorem StopsAt.writeFiles_eq (h : StopsAt g earlier file cause after) :
    (writeFiles (earlier ++ file :: later) : StateM GuardedTree _) g =
      (.error ⟨file.path, cause⟩, after) := by
  obtain ⟨reached, hsaves, hsave⟩ := h
  rw [hsaves.writeFiles_append, writeFiles, run_bind, ← save, hsave]
  rfl

/-- Either all files are saved, or there is a first one that cannot be. -/
theorem saves_or_stopsAt (g : GuardedTree) (files : List OutputFile) :
    (∃ after, Saves g files after) ∨ ∃ earlier file later cause after,
      files = earlier ++ file :: later ∧ StopsAt g earlier file cause after := by
  induction files generalizing g with
  | nil => exact .inl ⟨g, .nil g⟩
  | cons file rest ih =>
      rcases hsave : save file g with ⟨outcome, next⟩
      cases outcome with
      | error cause => exact .inr ⟨[], file, rest, cause, next, rfl, g, .nil g, hsave⟩
      | ok =>
          rcases ih next with ⟨after, hsaves⟩ | ⟨earlier, failed, later, cause, after, rfl, hstops⟩
          · exact .inl ⟨after, .cons hsave hsaves⟩
          · obtain ⟨reached, hsaves, hfailed⟩ := hstops
            exact .inr ⟨file :: earlier, failed, later, cause, after, rfl, reached,
              .cons hsave hsaves, hfailed⟩

/-- After files are saved, the last of them stands at each place that they name. -/
theorem Saves.wrote (h : Saves g files after) (hdone : Wrote before g.tree done done) :
    Wrote before after.tree (done ++ files) (done ++ files) := by
  induction h generalizing done with
  | nil => simpa using hdone
  | @cons g next _ file _ hsave _ ih =>
      have htried := hdone.mono (List.subset_append_left done [file])
      have hsaved := (leaves_save (List.mem_append_right done List.mem_cons_self) g htried).1
      rw [← save, hsave] at hsaved
      simpa using ih (hsaved rfl)

/-- Of the file that cannot be saved there are at most directories. -/
theorem StopsAt.wrote (h : StopsAt g earlier file cause after) (hdone : Wrote before g.tree [] []) :
    Wrote before after.tree earlier (earlier ++ [file]) := by
  obtain ⟨reached, hsaves, hsave⟩ := h
  have htried := (hsaves.wrote hdone).mono (List.subset_append_left earlier [file])
  have hmem : file ∈ earlier ++ [file] := List.mem_append_right earlier List.mem_cons_self
  have hfailed := (leaves_save hmem reached htried).2
  rw [← save, hsave] at hfailed
  exact hfailed cause rfl

end Saving

theorem tree_loadProgram (input : Path) (g : GuardedTree) :
    ((loadProgram input : StateM GuardedTree _) g).2.tree = g.tree := by
  have h : Leaves (· = g.tree) (loadProgram input) fun _ t => t = g.tree := by
    refine leaves_readText.bind fun outcome => ?_
    cases outcome with
    | ok => exact leaves_pure fun _ ht => ht
    | error => exact leaves_pure fun _ ht => ht
  exact h g rfl

/-- Where nothing is refused, the run is that on the tree itself. -/
def Agrees (x : StateM GuardedTree α) (y : StateM FileTree α) : Prop :=
  ∀ t, x ⟨t, []⟩ = ((y t).1, ⟨(y t).2, []⟩)

section Agreeing

variable {x : StateM GuardedTree α} {y : StateM FileTree α}

theorem agrees_pure (a : α) : Agrees (pure a) (pure a) := fun _ => rfl

theorem Agrees.bind {next : α → StateM GuardedTree β} {next' : α → StateM FileTree β}
    (h : Agrees x y) (hnext : ∀ a, Agrees (next a) (next' a)) :
    Agrees (x >>= next) (y >>= next') := by
  intro t
  rw [run_bind, h t]
  exact hnext (y t).1 (y t).2

theorem agrees_ask (refused : FileError → α) (question : StateM FileTree α) :
    Agrees (ask refused question) question := fun _ => rfl

theorem agrees_ensureOne (p : Path) : Agrees (Files.ensureOne p) (Files.ensureOne p) := by
  refine (agrees_ask _ _).bind fun outcome => ?_
  cases outcome with
  | ok => exact agrees_pure _
  | error e => exact (agrees_ask _ _).bind fun _ => agrees_pure _

theorem agrees_ensureDirectory (directories : List Path) :
    Agrees (Files.ensureDirectory directories) (Files.ensureDirectory directories) := by
  induction directories with
  | nil => exact agrees_pure _
  | cons p ancestors ih =>
      rw [Files.ensureDirectory, Files.ensureDirectory]
      split_ifs
      · exact agrees_pure _
      · refine (agrees_ensureOne p).bind fun outcome => ?_
        rcases outcome with (_ | _) | _
        case error.missing =>
          refine ih.bind fun outcome => ?_
          cases outcome with
          | ok => exact agrees_ensureOne p
          | error e => exact agrees_pure _
        all_goals exact agrees_pure _

theorem agrees_save (p : Path) (contents : String) :
    Agrees (Files.save p contents) (Files.save p contents) := by
  rw [Files.save, Files.save]
  cases p.parent? with
  | none => exact agrees_ask _ _
  | some parent =>
      refine (agrees_ensureDirectory parent.ancestors).bind fun outcome => ?_
      cases outcome with
      | ok => exact agrees_ask _ _
      | error e => exact agrees_pure _

theorem agrees_writeFiles (files : List OutputFile) :
    Agrees (writeFiles files) (writeFiles files) := by
  induction files with
  | nil => exact agrees_pure _
  | cons file rest ih =>
      rw [writeFiles, writeFiles]
      refine (agrees_save file.path file.contents).bind fun outcome => ?_
      cases outcome with
      | ok => exact ih
      | error cause => exact agrees_pure _

theorem agrees_loadProgram (input : Path) : Agrees (loadProgram input) (loadProgram input) := by
  refine (agrees_ask _ _).bind fun outcome => ?_
  cases outcome with
  | ok text => exact agrees_pure _
  | error cause => exact agrees_pure _

theorem agrees_build (input : Path) (target : String) (o : Options) :
    Agrees (build input target o) (build input target o) := by
  rw [build, build]
  refine (agrees_loadProgram input).bind fun outcome => ?_
  cases outcome with
  | error e => exact agrees_pure _
  | ok p =>
      cases hfiles : (generate target p o).files with
      | error fault =>
          simp only [hfiles]
          exact agrees_pure _
      | ok files =>
          simp only [hfiles]
          refine (agrees_writeFiles files).bind fun outcome => ?_
          cases outcome with
          | ok => exact agrees_pure _
          | error e => exact agrees_pure _

end Agreeing

end GuardedTree

open GuardedTree in
/-- What a build does on any tree, whatever is refused on the way. If the program cannot be read or
printed, the report says so and the tree is as it was. Otherwise the files are saved one after the
other. If all of them are, the report lists them; if one cannot be, the report names it, and it is
the files before it that are written. Paths are told apart by the places that they name and not by
their texts: of two files at one place the later one stands there. Where nothing is refused, the run
is that on the tree itself. -/
theorem build_leaves (input : Path) (target : String) (o : Options) (before : GuardedTree) :
    ∃ outcome loaded report after,
      (loadProgram input : StateM GuardedTree _) before = (outcome, loaded) ∧
      (build input target o : StateM GuardedTree BuildReport) before = (report, after) ∧
      loaded.tree = before.tree ∧
      (∀ e, outcome = .error e → report = ⟨.error (.load e), []⟩ ∧ after = loaded) ∧
      (∀ p, outcome = .ok p →
        (∀ fault, (generate target p o).files = .error fault →
          report = ⟨.error (.generate fault), (generate target p o).notices⟩ ∧ after = loaded) ∧
        ∀ files, (generate target p o).files = .ok files →
          (∀ saved, Saves loaded files saved →
            report = ⟨.ok files, (generate target p o).notices⟩ ∧ after = saved ∧
              Wrote before.tree after.tree files files) ∧
          (∀ earlier file later cause stopped, files = earlier ++ file :: later →
            StopsAt loaded earlier file cause stopped →
            report = ⟨.error (.write ⟨file.path, cause⟩), (generate target p o).notices⟩ ∧
              after = stopped ∧ Wrote before.tree after.tree earlier (earlier ++ [file])) ∧
          ((∃ saved, Saves loaded files saved) ∨ ∃ earlier file later cause stopped,
            files = earlier ++ file :: later ∧ StopsAt loaded earlier file cause stopped)) ∧
      (before.refusals = [] →
        (build input target o : StateM FileTree BuildReport) before.tree =
          (report, after.tree)) := by
  have htree := tree_loadProgram input before
  rcases hload : (loadProgram input : StateM GuardedTree _) before with ⟨outcome, loaded⟩
  rcases hbuild : (build input target o : StateM GuardedTree _) before with ⟨report, after⟩
  rw [hload] at htree
  have hstart : Wrote before.tree loaded.tree [] [] := htree ▸ .start []
  have hphases := hbuild
  rw [build, run_bind, hload] at hphases
  refine ⟨outcome, loaded, report, after, rfl, rfl, htree, ?_, ?_, fun hnone => ?_⟩
  · rintro e rfl
    obtain ⟨rfl, rfl⟩ := Prod.mk.inj hphases
    exact ⟨rfl, rfl⟩
  · rintro p rfl
    refine ⟨fun fault hfault => ?_, fun files hfiles =>
      ⟨fun saved hsaves => ?_, ?_, saves_or_stopsAt loaded files⟩⟩
    · simp only [hfault] at hphases
      obtain ⟨rfl, rfl⟩ := Prod.mk.inj hphases
      exact ⟨rfl, rfl⟩
    · simp only [hfiles] at hphases
      rw [run_bind, hsaves.writeFiles_eq] at hphases
      obtain ⟨rfl, rfl⟩ := Prod.mk.inj hphases
      exact ⟨rfl, rfl, hsaves.wrote hstart⟩
    · rintro earlier file later cause stopped rfl hstops
      simp only [hfiles] at hphases
      rw [run_bind, hstops.writeFiles_eq] at hphases
      obtain ⟨rfl, rfl⟩ := Prod.mk.inj hphases
      exact ⟨rfl, rfl, hstops.wrote hstart⟩
  · obtain ⟨tree, refusals⟩ := before
    obtain rfl : refusals = [] := hnone
    obtain ⟨rfl, rfl⟩ := Prod.mk.inj ((agrees_build input target o tree).symm.trans hbuild)
    rfl

/-- The text of a program with a class called `A` and another one of the given name. -/
def pairText (name : String) : String :=
  "\x7b\"classes\":[\x7b\"name\":\"A\"\x7d,\x7b\"name\":\"" ++ name ++
    "\"\x7d],\"globals\":[\x7b\"class\":0\x7d,\x7b\"class\":1\x7d]\x7d"

/-- A directory with the program in it. -/
def pairTree (name : String) : FileTree :=
  (FileTree.work "w").put ["prog.json", "w"] (.file (pairText name).toUTF8)

/-- The build of the two classes into a directory beside the program. -/
def buildPair (name : String) (refusals : List (Option FileError)) : BuildReport × GuardedTree :=
  (build ⟨"prog.json"⟩ "as" ⟨⟨"out"⟩, none⟩ : StateM GuardedTree BuildReport)
    ⟨pairTree name, refusals⟩

theorem BuildReport.eq_ok_of_toOption {report : BuildReport} {files : List OutputFile}
    (h : report.files.toOption = some files) : report.files = .ok files := by
  cases hfiles : report.files with
  | error e => simp [hfiles, Except.toOption] at h
  | ok written => simpa [hfiles, Except.toOption] using h

/-- The file that could not be written, if that is what the report says. -/
def BuildReport.unwritten? (report : BuildReport) : Option WriteError :=
  match report.files with
  | .error (.write e) => some e
  | _ => none

theorem BuildReport.eq_error_of_unwritten? {report : BuildReport} {e : WriteError}
    (h : report.unwritten? = some e) : report.files = .error (.write e) := by
  unfold unwritten? at h
  split at h
  case h_1 e' hfiles => rw [hfiles, Option.some.inj h]
  case h_2 => exact absurd h nofun

theorem buildPair_written : (buildPair "B" []).1.files.toOption.any (fun files =>
    files.map (·.path.text) = ["out/A.as", "out/B.as"] ∧
    ∀ file ∈ files, (buildPair "B" []).2.tree.readText file.path = .ok file.contents) = true := by
  decide +kernel

/-- What is answered when there is no room for a file. -/
def fullDisk : FileError := .other "No space left on device (os error 28)"

/-- Five questions are asked before the second file is written. -/
def diskOfOne : List (Option FileError) := List.replicate 5 none ++ [some fullDisk]

/-- The second file is refused, and the first one is what it is on a free disk. -/
theorem buildPair_stopped :
    (buildPair "B" diskOfOne).1.unwritten? = some ⟨⟨"out/B.as"⟩, fullDisk⟩ ∧
      (buildPair "B" diskOfOne).2.tree.readText ⟨"out/A.as"⟩ =
        (buildPair "B" []).2.tree.readText ⟨"out/A.as"⟩ ∧
      (buildPair "B" diskOfOne).2.tree.readText ⟨"out/B.as"⟩ = .error .missing := by
  decide +kernel

/-- Two files are written to a free disk. To one that is full after the first file, that file is
written as well, and the report names the other. -/
theorem build_leaves_pair :
    (∃ files, (buildPair "B" []).1.files = .ok files ∧
      files.map (·.path.text) = ["out/A.as", "out/B.as"] ∧
      Wrote (pairTree "B") (buildPair "B" []).2.tree files files ∧
      (∀ file ∈ files, (buildPair "B" []).2.tree.readText file.path = .ok file.contents) ∧
      (build ⟨"prog.json"⟩ "as" ⟨⟨"out"⟩, none⟩ : StateM FileTree BuildReport) (pairTree "B") =
        ((buildPair "B" []).1, (buildPair "B" []).2.tree)) ∧
    ∃ earlier file,
      (buildPair "B" diskOfOne).1.files = .error (.write ⟨file.path, fullDisk⟩) ∧
      file.path = ⟨"out/B.as"⟩ ∧
      Wrote (pairTree "B") (buildPair "B" diskOfOne).2.tree earlier (earlier ++ [file]) ∧
      (buildPair "B" diskOfOne).2.tree.readText ⟨"out/A.as"⟩ =
        (buildPair "B" []).2.tree.readText ⟨"out/A.as"⟩ ∧
      (buildPair "B" diskOfOne).2.tree.readText ⟨"out/B.as"⟩ = .error .missing := by
  have hphases : ∀ refusals,
      (∀ files, (buildPair "B" refusals).1.files = .ok files →
        Wrote (pairTree "B") (buildPair "B" refusals).2.tree files files) ∧
      ∀ e, (buildPair "B" refusals).1.files = .error (.write e) → ∃ earlier file,
        file.path = e.path ∧
          Wrote (pairTree "B") (buildPair "B" refusals).2.tree earlier (earlier ++ [file]) := by
    intro refusals
    obtain ⟨outcome, loaded, report, after, -, hbuild, -, hunread, hread, -⟩ :=
      build_leaves ⟨"prog.json"⟩ "as" ⟨⟨"out"⟩, none⟩ ⟨pairTree "B", refusals⟩
    rw [← buildPair] at hbuild
    rw [hbuild]
    cases outcome with
    | error e =>
        obtain ⟨rfl, -⟩ := hunread e rfl
        exact ⟨nofun, nofun⟩
    | ok p =>
        obtain ⟨hunprinted, hprinted⟩ := hread p rfl
        cases hfiles : (generate "as" p ⟨⟨"out"⟩, none⟩).files with
        | error fault =>
            obtain ⟨rfl, -⟩ := hunprinted fault hfiles
            exact ⟨nofun, nofun⟩
        | ok files =>
            obtain ⟨hwritten, hstopped, ⟨saved, hsaves⟩ |
              ⟨earlier, file, later, cause, stopped, rfl, hstops⟩⟩ := hprinted files hfiles
            · obtain ⟨rfl, -, hwrote⟩ := hwritten saved hsaves
              refine ⟨fun files' h => ?_, nofun⟩
              obtain rfl := Except.ok.inj h
              exact hwrote
            · obtain ⟨rfl, -, hwrote⟩ := hstopped _ _ _ _ _ rfl hstops
              refine ⟨nofun, fun e h => ?_⟩
              obtain rfl := BuildError.write.inj (Except.error.inj h)
              exact ⟨earlier, file, rfl, hwrote⟩
  have hplain : (build ⟨"prog.json"⟩ "as" ⟨⟨"out"⟩, none⟩ : StateM FileTree BuildReport)
      (pairTree "B") = ((buildPair "B" []).1, (buildPair "B" []).2.tree) := by
    obtain ⟨_, _, report, after, -, hbuild, -, -, -, hfree⟩ :=
      build_leaves ⟨"prog.json"⟩ "as" ⟨⟨"out"⟩, none⟩ ⟨pairTree "B", []⟩
    rw [← buildPair] at hbuild
    rw [hbuild]
    exact hfree rfl
  refine ⟨?_, ?_⟩
  · obtain ⟨files, hfiles, hall⟩ := (Option.any_eq_true _ _).mp buildPair_written
    obtain ⟨hpaths, hcontents⟩ := of_decide_eq_true hall
    have hok := BuildReport.eq_ok_of_toOption hfiles
    exact ⟨files, hok, hpaths, (hphases []).1 files hok, hcontents, hplain⟩
  · obtain ⟨hunwritten, hfirst, hsecond⟩ := buildPair_stopped
    have herror := BuildReport.eq_error_of_unwritten? hunwritten
    obtain ⟨earlier, file, hpath, hwrote⟩ := (hphases diskOfOne).2 _ herror
    have hsecondPath : file.path = ⟨"out/B.as"⟩ := hpath
    rw [← hsecondPath] at herror
    exact ⟨earlier, file, herror, hsecondPath, hwrote, hfirst, hsecond⟩

/-- Two paths with different texts may name one place. A file whose path no other file has is then
not what stands at its path. -/
theorem buildPair_overwritten : ∃ files,
    (buildPair "x/../A" []).1.files = .ok files ∧
      files.map (·.path.text) = ["out/A.as", "out/x/../A.as"] ∧
      ∃ file ∈ files, (∀ other ∈ files, other.path = file.path → other.contents = file.contents) ∧
        (buildPair "x/../A" []).2.tree.readText file.path ≠ .ok file.contents := by
  have hrun : (buildPair "x/../A" []).1.files.toOption.any (fun files =>
      files.map (·.path.text) = ["out/A.as", "out/x/../A.as"] ∧
      ∃ file ∈ files, (∀ other ∈ files, other.path = file.path → other.contents = file.contents) ∧
        (buildPair "x/../A" []).2.tree.readText file.path ≠ .ok file.contents) = true := by
    decide +kernel
  obtain ⟨files, hfiles, hall⟩ := (Option.any_eq_true _ _).mp hrun
  exact ⟨files, BuildReport.eq_ok_of_toOption hfiles, of_decide_eq_true hall⟩

end Emitter
