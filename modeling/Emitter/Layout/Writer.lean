import Emitter.Path
import Emitter.Text.Lines

/-!
# Indented output

A writer collects text in a buffer. At the start of a line it puts one tab for each level of
indentation before the first text that is not empty. A section sets the buffer aside until it is
taken out as a text of its own, and a file is handed out once it has been closed.

Steps that only make sense in some states answer `none` in the others: going below the left
margin, opening a file while another is open, and closing one with blocks still open.
-/

namespace Emitter

/-- A finished file. -/
structure OutputFile where
  path : Path
  contents : String
  deriving DecidableEq

namespace Layout

open Text

structure Writer where
  out : String
  indent : Nat
  atLineStart : Bool
  /-- Buffers set aside by open sections, the innermost first, each with its `atLineStart`. -/
  suspended : List (String × Bool)
  currentFile : Option Path
  files : List OutputFile
  deriving DecidableEq

namespace Writer

def new : Writer := ⟨"", 0, true, [], none, []⟩

/-- Tabs up to the level of indentation. -/
def margin (levels : Nat) : String := String.ofList (List.replicate levels '\t')

def write (w : Writer) (text : String) : Writer :=
  if text = "" then w
  else if w.atLineStart then
    { w with out := w.out ++ margin w.indent ++ text, atLineStart := false }
  else { w with out := w.out ++ text }

def writeChar (w : Writer) (c : Char) : Writer := w.write (String.singleton c)

def newline (w : Writer) : Writer := { w with out := w.out ++ "\n", atLineStart := true }

def writeLine (w : Writer) (text : String) : Writer := (w.write text).newline

/-- Every line of the text on a line of its own, indented. -/
def writeLines (w : Writer) (text : String) : Writer := (linesOf text).foldl writeLine w

def indentMore (w : Writer) : Writer := { w with indent := w.indent + 1 }

def dedent? (w : Writer) : Option Writer :=
  if w.indent = 0 then none else some { w with indent := w.indent - 1 }

/-- An opening brace, and one level deeper. -/
def openBlock (w : Writer) : Writer := (w.writeLine "\x7b").indentMore

/-- One level shallower, and a closing brace. -/
def closeBlock? (w : Writer) : Option Writer := w.dedent?.map (·.writeLine "\x7d")

/-- Sets the buffer aside and starts an empty one. -/
def beginSection (w : Writer) : Writer :=
  { w with out := "", atLineStart := true, suspended := (w.out, w.atLineStart) :: w.suspended }

/-- The text of the innermost section, and the writer back at the buffer set aside for it. -/
def endSection (w : Writer) : String × Writer :=
  let (outer, outerStart) := w.suspended.head?.getD ("", false)
  (w.out, { w with out := outer, atLineStart := outerStart, suspended := w.suspended.tail })

/-- Text as it is, without indentation. -/
def writeRaw (w : Writer) (text : String) : Writer :=
  { w with out := w.out ++ text, atLineStart := text = "" || text.toList.getLast? = some '\n' }

/-- Ends a section and puts its text after an empty line, unless it is empty. -/
def pasteSection (w : Writer) : Writer :=
  let (text, outer) := w.endSection
  if text = "" then outer else outer.newline.writeRaw text

def createFile? (w : Writer) (path : Path) : Option Writer :=
  if w.currentFile.isSome then none
  else some { w with out := "", indent := 0, atLineStart := true, currentFile := some path }

/-- Hands the buffer out as the open file, if one is open. -/
def closeFile? (w : Writer) : Option Writer :=
  if w.indent ≠ 0 then none
  else
    match w.currentFile with
    | some path =>
      some { w with
        out := "", atLineStart := true, currentFile := none, files := w.files ++ [⟨path, w.out⟩] }
    | none => some { w with atLineStart := true }

/-- The files closed so far, which the writer forgets. -/
def takeFiles (w : Writer) : List OutputFile × Writer := (w.files, { w with files := [] })

/-- The step of a writer as a value. -/
inductive Call
  | write (text : String)
  | writeChar (c : Char)
  | newline
  | writeLine (text : String)
  | writeLines (text : String)
  | writeRaw (text : String)
  | indentMore
  | dedent
  | openBlock
  | closeBlock
  | beginSection
  | endSection
  | createFile (path : Path)
  | closeFile
  | takeFiles
  | reset
  deriving DecidableEq

/-- What a step hands back beside the changed writer. -/
inductive Answer
  | nothing
  | text (text : String)
  | files (files : List OutputFile)
  deriving DecidableEq

/-- Carries a step out. -/
def perform (w : Writer) : Call → Option (Answer × Writer)
  | .write text => some (.nothing, w.write text)
  | .writeChar c => some (.nothing, w.writeChar c)
  | .newline => some (.nothing, w.newline)
  | .writeLine text => some (.nothing, w.writeLine text)
  | .writeLines text => some (.nothing, w.writeLines text)
  | .writeRaw text => some (.nothing, w.writeRaw text)
  | .indentMore => some (.nothing, w.indentMore)
  | .dedent => w.dedent?.map (.nothing, ·)
  | .openBlock => some (.nothing, w.openBlock)
  | .closeBlock => w.closeBlock?.map (.nothing, ·)
  | .beginSection => some (.nothing, w.beginSection)
  | .endSection => some (.text w.endSection.1, w.endSection.2)
  | .createFile path => (w.createFile? path).map (.nothing, ·)
  | .closeFile => w.closeFile?.map (.nothing, ·)
  | .takeFiles => some (.files w.takeFiles.1, w.takeFiles.2)
  | .reset => some (.nothing, new)

/-- What a text written now and the end of the section would give: the buffer and the margin the
text would get. -/
def pending (w : Writer) (text : String) : String := (w.write text).endSection.1

end Writer

end Layout

end Emitter
