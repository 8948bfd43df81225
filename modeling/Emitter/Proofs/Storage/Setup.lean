import Emitter.Proofs.Reading.Execution
import Emitter.Proofs.Statement.Nesting
import Emitter.Proofs.Storage.Held
import Emitter.Proofs.Whole.ClassFiles

/-!
# What a constructor sets up

The function that constructs an instance goes through its fields in order. A field that is not
stored in place gets its value, if it has one. A field that is gets its parts constructed, one loop
inside the other for arrays of arrays, if the innermost class needs that.
-/

namespace Emitter

open Layout Program Reading

/-- The text of lines of code, each at a level of its own. -/
def linesText (lines : List (Nat × Code)) : String :=
  String.join (lines.map fun line => Writer.margin line.1 ++ (line.2.text ++ "\n"))

/-- The tokens that the lines of code are put together from. -/
def linesTokens (lines : List (Nat × Code)) : List Token := lines.flatMap fun line => line.2.tokens

/-- A value of the type is an instance of the class, or arrays of the given lengths inside each
other, in place, with such an instance innermost. -/
inductive Program.Ty.Nests (id : ClassId) : List Nat → Ty → Prop
  | direct : Nests id [] (.classStorage id)
  | element {element : Ty} {length : UInt32} {lengths : List Nat} :
      Nests id lengths element →
        Nests id (length.toNat :: lengths) (.array element true (some length))

theorem Program.Ty.Nests.unique {id id' : ClassId} {lengths lengths' : List Nat} {ty : Ty}
    (h : ty.Nests id lengths) (h' : ty.Nests id' lengths') : id = id' ∧ lengths = lengths' := by
  induction h generalizing lengths' with
  | direct =>
      cases h'
      exact ⟨rfl, rfl⟩
  | element _ ih =>
      cases h' with
      | element h' =>
          obtain ⟨rfl, rfl⟩ := ih h'
          exact ⟨rfl, rfl⟩

theorem Program.Ty.Nests.inPlace {id : ClassId} {lengths : List Nat} {ty : Ty}
    (h : ty.Nests id lengths) : ty.InPlace id := by
  induction h with
  | direct => exact .direct
  | element _ ih => exact .element ih

/-- The field's name is an identifier, and so are the names in its value. -/
def Program.FieldDef.IsNamed (f : FieldDef) : Prop :=
  isWord f.name = true ∧ ∀ e ∈ f.value, e.everywhere Expr.isNamed = true

namespace CFamily

variable {cx : Context} {c : ClassDef} {f : FieldDef}

/-- What setting a field up has to do. -/
inductive SetUp (cx : Context) (f : FieldDef) : List Event → Prop
  /-- A value is assigned once, as the tokens that its text is read as. -/
  | assigned {e : Expr} {ts : List Token} (hstorage : f.ty.isStorage = false)
      (hvalue : f.value = some e) (htokens : cx.tokens? e = some ts) :
      SetUp cx f [.assign ⟨cx.target.localName f.name, []⟩ ts]
  /-- A field with neither a value nor storage is left alone. -/
  | unset (hstorage : f.ty.isStorage = false) (hvalue : f.value = none) : SetUp cx f []
  /-- Each part is constructed once, in row-major order. -/
  | constructed {id : ClassId} {inner : ClassDef} {lengths : List Nat} {indices : List (List Nat)}
      (hstorage : f.ty.Nests id lengths) (hclass : cx.program.classOf id = .ok inner)
      (hneeds : cx.program.needsConstruction id = .ok true)
      (hindices : IsRowMajor lengths indices) :
      SetUp cx f (indices.map fun is =>
        .call (constructName inner.name) ⟨cx.target.localName f.name, is⟩)
  /-- Storage that needs no construction is left alone. -/
  | zeroed (hstorage : f.ty.isStorage = true)
      (hneeds : ∀ id, f.ty.InPlace id → cx.program.needsConstruction id = .ok false) :
      SetUp cx f []

theorem inPlace_isStorage {ty : Ty} {id : ClassId} (h : ty.InPlace id) : ty.isStorage = true := by
  cases h <;> rfl

/-- What setting a field up has to do leaves no choice. -/
theorem SetUp.unique {events events' : List Event} (h : SetUp cx f events)
    (h' : SetUp cx f events') : events = events' := by
  have hnot : ∀ {id}, f.ty.isStorage = false → ¬f.ty.InPlace id := fun hs hty => by
    rw [inPlace_isStorage hty] at hs
    exact Bool.noConfusion hs
  cases h with
  | assigned hstorage hvalue htokens =>
      cases h' with
      | assigned _ hvalue' htokens' =>
          obtain rfl := Option.some.inj (hvalue.symm.trans hvalue')
          obtain rfl := Option.some.inj (htokens.symm.trans htokens')
          rfl
      | unset _ hvalue' => exact absurd (hvalue.symm.trans hvalue') (Option.some_ne_none _)
      | constructed hnests => exact absurd hnests.inPlace (hnot hstorage)
      | zeroed hstorage' => exact absurd (hstorage.symm.trans hstorage') Bool.false_ne_true
  | unset hstorage hvalue =>
      cases h' with
      | assigned _ hvalue' => exact absurd (hvalue'.symm.trans hvalue) (Option.some_ne_none _)
      | unset => rfl
      | constructed hnests => exact absurd hnests.inPlace (hnot hstorage)
      | zeroed => rfl
  | constructed hnests hclass hneeds hindices =>
      cases h' with
      | assigned hstorage => exact absurd hnests.inPlace (hnot hstorage)
      | unset hstorage => exact absurd hnests.inPlace (hnot hstorage)
      | constructed hnests' hclass' _ hindices' =>
          obtain ⟨rfl, rfl⟩ := hnests.unique hnests'
          obtain rfl := Except.ok.inj (hclass.symm.trans hclass')
          rw [hindices.unique hindices']
      | zeroed _ hnone =>
          exact absurd (hneeds.symm.trans (hnone _ hnests.inPlace)) (by simp)
  | zeroed hstorage hnone =>
      cases h' with
      | assigned hstorage' => exact absurd (hstorage'.symm.trans hstorage) Bool.false_ne_true
      | unset => rfl
      | constructed hnests _ hneeds =>
          exact absurd (hneeds.symm.trans (hnone _ hnests.inPlace)) (by simp)
      | zeroed => rfl

/-- The place that the counters of that many loops lead to. -/
def placeCode (cx : Context) (f : FieldDef) (depth : Nat) : Code :=
  selfField cx f ++ (List.range depth).flatMap fun k => [.symbol "[", counter k, .symbol "]"]

/-- The lines that call a function on every part of the place that is an array of arrays of the
lengths. -/
def elementLines (function : String) : Nat → Nat → Code → List UInt32 → List (Nat × Code)
  | level, _, place, [] => [(level, .word function ::
      Code.parenthesized (.symbol "&" :: place) ++ [.symbol ";"])]
  | level, depth, place, n :: lengths => (level, countingLoop (counter depth) n) ::
      elementLines function (level + 1) (depth + 1)
        (place ++ [.symbol "[", counter depth, .symbol "]"]) lengths

/-- The lines that call a function on every part of the field that is an array of arrays of the
lengths. -/
def callLines (cx : Context) (f : FieldDef) (function : String) :
    Nat → Nat → List UInt32 → List (Nat × Code)
  | level, depth, [] => [(level, .word function ::
      Code.parenthesized (.symbol "&" :: placeCode cx f depth) ++ [.symbol ";"])]
  | level, depth, n :: lengths => (level, countingLoop (counter depth) n) ::
      callLines cx f function (level + 1) (depth + 1) lengths

theorem placeCode_succ (depth : Nat) : placeCode cx f (depth + 1) =
    placeCode cx f depth ++ [.symbol "[", counter depth, .symbol "]"] := by
  simp [placeCode, List.range_succ]

theorem callLines_eq (function : String) (level depth : Nat) (lengths : List UInt32) :
    callLines cx f function level depth lengths =
      elementLines function level depth (placeCode cx f depth) lengths := by
  induction lengths generalizing level depth with
  | nil => rfl
  | cons n lengths ih => rw [callLines, elementLines, ih, placeCode_succ]

theorem tokens_placeCode (depth : Nat) :
    (placeCode cx f depth).tokens = placeTokens (cx.target.localName f.name) depth := by
  induction depth with
  | zero => rfl
  | succ depth ih =>
      rw [placeCode_succ, Code.tokens_append, ih, placeTokens_succ]
      rfl

theorem linesTokens_callLines (function : String) (level depth : Nat) (lengths : List UInt32) :
    linesTokens (callLines cx f function level depth lengths) =
      (eachCall function (cx.target.localName f.name) depth
        (lengths.map UInt32.toNat)).tokens := by
  induction lengths generalizing level depth with
  | nil =>
      simp [callLines, linesTokens, eachCall, Shape.tokens, tokens_placeCode, Code.parenthesized]
  | cons n lengths ih =>
      have hinner := ih (level + 1) (depth + 1)
      simp only [callLines, linesTokens, List.flatMap_cons, List.map_cons, eachCall, Shape.tokens]
      rw [← hinner]
      rfl

theorem linesText_append (first rest : List (Nat × Code)) :
    linesText (first ++ rest) = linesText first ++ linesText rest := by
  simp [linesText]

theorem addsLines_line {level : Nat} {l : Lexeme} {code : Code} (hne : l.text ≠ "") :
    (Emit.line (l :: code)).AddsLines level (linesText [(level, l :: code)]) := by
  have hline : (Emit.line (l :: code)).AddsLines level _ := Emit.addsLines_line hne
  simpa [linesText] using hline

/-- Nothing is printed where no class that a value of the type has in place needs construction. -/
theorem constructCalls_eq_nil {ty : Ty} {depth : Nat} {place : Code} {steps : List Step}
    (hnone : ∀ id, ty.InPlace id → cx.program.needsConstruction id = .ok false)
    (h : constructCalls cx depth place ty = ⟨steps, .ok ()⟩) : steps = [] := by
  have hholds : cx.program.holdsConstructed ty = .ok false := by
    unfold Program.holdsConstructed
    cases hheld : ty.heldClass with
    | none => rfl
    | some id => exact hnone id (Ty.heldClass_eq_some_iff.mp hheld)
  rw [Context.constructCalls_eq_pure hholds] at h
  exact (Emit.pure_eq_ok.mp h).2

/-- If the class innermost needs construction, loops inside each other construct the parts. -/
theorem exists_elementLines {ty : Ty} {id : ClassId} (hty : ty.InPlace id)
    (hneeds : cx.program.needsConstruction id = .ok true) (level : Nat) {depth : Nat} {place : Code}
    {steps : List Step} (h : constructCalls cx depth place ty = ⟨steps, .ok ()⟩) :
    ∃ inner lengths, cx.program.classOf id = .ok inner ∧
      ty.Nests id (lengths.map UInt32.toNat) ∧
      Emit.AddsLines level
        (linesText (elementLines (constructName inner.name) level depth place lengths))
        ⟨steps, .ok ()⟩ := by
  -- The inner loops stand one level further in, and their place has one index more.
  induction hty generalizing level depth place steps with
  | direct =>
      obtain ⟨needed, hneeded, h⟩ := Emit.liftM_bind_eq_ok.mp h
      have hneeded := lookedUp_eq_ok hneeded
      rw [hneeds] at hneeded
      obtain rfl := Except.ok.inj hneeded
      obtain ⟨inner, hinner, h⟩ := Emit.liftM_bind_eq_ok.mp h
      have hname : (Lexeme.word (constructName inner.name)).text ≠ "" := by
        simp [Lexeme.text, constructName, functionName]
      refine ⟨inner, [], lookedUp_eq_ok hinner, .direct, ?_⟩
      rw [← h]
      exact addsLines_line hname
  | @element element length hty ih =>
      obtain ⟨needed, hneeded, h⟩ := Emit.liftM_bind_eq_ok.mp h
      have hneeded : cx.program.holdsConstructed (.array element true length) = .ok needed :=
        lookedUp_eq_ok hneeded
      have hholds : cx.program.holdsConstructed (.array element true length) = .ok true := by
        rw [Program.holdsConstructed, Ty.heldClass_eq_some_iff.mpr hty.element]
        exact hneeds
      rw [hholds] at hneeded
      obtain rfl := Except.ok.inj hneeded
      cases length with
      | none => exact absurd h (by simp [Context.unsupported, Emit.liftM_eq_ok])
      | some n =>
          obtain ⟨rest, hrest, rfl⟩ := Emit.ofSteps_bind_eq_ok.mp h
          obtain ⟨steps, hinner, rfl⟩ := Emit.indented_eq_ok.mp hrest
          obtain ⟨inner, lengths, hclass, hnests, hadds⟩ := ih (level + 1) hinner
          have hhead : (Emit.line (countingLoop (counter depth) n)).AddsLines level
              (linesText [(level, countingLoop (counter depth) n)]) := addsLines_line (by decide)
          have hall := hhead.seq hadds.indented
          rw [← linesText_append] at hall
          exact ⟨inner, n :: lengths, hclass, hnests.element, hall⟩

/-- The text of the code is cut into its lexemes. -/
structure IsCut (code : Code) : Prop where
  spelled : ∀ l ∈ code, l.Spelled
  apart : code.IsChain Lexeme.Apart

theorem IsCut.append {a b : Code} (ha : IsCut a) (hb : IsCut b)
    (hapart : ∀ x ∈ a.getLast?, ∀ y ∈ b.head?, x.Apart y) : IsCut (a ++ b) where
  spelled l hl := (List.mem_append.mp hl).elim (ha.spelled l) (hb.spelled l)
  apart := List.isChain_append.mpr ⟨ha.apart, hb.apart, hapart⟩

theorem IsCut.of_tidy {code : Code} (h : Code.Tidy true code) : IsCut code :=
  ⟨h.spelled, h.joint.imp fun _ _ hjoint => hjoint.apart rfl⟩

/-- Whatever starts with something separate may stand behind an expression. -/
theorem IsCut.of_stretch {code next : Code} (h : Code.Stretch true code) (hnext : IsCut next)
    (hseparate : ∀ l ∈ next.head?, l.isSeparate = true) : IsCut (code ++ next) :=
  (IsCut.of_tidy h.toTidy).append hnext fun x hx y hy =>
    (h.joint_separate (hseparate y hy) x hx).apart rfl

theorem settles_margin (level : Nat) : Settles (Writer.margin level).toList [] := by
  intro rest
  rw [scanFrom_space fun c hc => ?_]
  · simp
  · simp [List.eq_of_mem_replicate (by simpa [Writer.margin] using hc)]

theorem settles_linesText {lines : List (Nat × Code)} (h : ∀ line ∈ lines, IsCut line.2) :
    Settles (linesText lines).toList (linesTokens lines) := by
  induction lines with
  | nil => exact fun rest => by simp [linesText, linesTokens]
  | cons line lines ih =>
      obtain ⟨hline, hlines⟩ := List.forall_mem_cons.mp h
      have hcode : Settles (line.2.text.toList ++ ['\n']) line.2.tokens := fun rest => by
        rw [List.append_assoc, Code.scanFrom_text hline.spelled hline.apart]
        · have hspace : scanFrom .between (['\n'] ++ rest) = scanFrom .between rest :=
            scanFrom_space (by simp) rest
          exact congrArg _ hspace
        · intro l _ c hc
          obtain rfl : '\n' = c := by simpa using hc
          exact Mode.extend_newline _
      have hall := ((settles_margin line.1).append hcode).append (ih hlines)
      simpa [linesText, linesTokens] using hall

theorem isWord_counterName (depth : Nat) (t : Target) :
    isWord (counterName depth) = true ∧ counterName depth ∉ controlWords t := by
  refine ⟨Text.isWord_append (by decide) fun c hc => ?_,
    not_mem_controlWords_of_underscore _ (by simp [counterName]) t⟩
  rw [Nat.toString_eq_ofList_toDigits, String.toList_ofList] at hc
  simp [isWordChar, Nat.isDigit_of_mem_toDigits (by decide) (by decide) hc]

/-- Next to a space, a bracket or a semicolon nothing runs into anything. -/
theorem IsCut.of_separate {code : Code} (hs : ∀ l ∈ code, l.Spelled)
    (hc : code.IsChain fun a b => a.isSeparate = true ∨ b.isSeparate = true) : IsCut code where
  spelled := hs
  apart := by
    induction code with
    | nil => exact .nil
    | cons a code ih =>
        obtain ⟨ha, hs⟩ := List.forall_mem_cons.mp hs
        obtain ⟨hnext, hc⟩ := List.isChain_cons.mp hc
        refine List.isChain_cons.mpr ⟨fun b hb c hc => ?_, ih hs hc⟩
        rcases hnext b hb with hseparate | hseparate
        · exact Lexeme.extend_pending_of_isSeparate hseparate c
        · exact Lexeme.extend_separateChar ha (Lexeme.mem_separateChars_of_isSeparate hseparate hc)

theorem isCut_countingLoop (depth : Nat) (n : UInt32) :
    IsCut (countingLoop (counter depth) n) := by
  have hcounter : (counter depth).Spelled := (isWord_counterName depth .actionScript).1
  have hlength : (Lexeme.number (toString n.toNat)).Spelled := (isNumeral_toString n.toNat).number
  have hzero : (Lexeme.number "0").Spelled := (by decide : isNumber "0" = true)
  have hword : ∀ w ∈ ["for", "int"], (Lexeme.word w).Spelled :=
    (by decide : ∀ w ∈ ["for", "int"], isWord w = true)
  have hsymbol : ∀ s ∈ ["(", "=", ";", "<", "++", ")"], (Lexeme.symbol s).Spelled :=
    (by decide : ∀ s ∈ ["(", "=", ";", "<", "++", ")"], s.toList ∈ operators)
  have hgap : Lexeme.gap.Spelled := trivial
  -- The counter and the `++` behind it are the only neighbours of which neither is separate.
  have hfront : IsCut [.word "for", .gap, .symbol "(", .word "int", .gap, counter depth, .gap,
      .symbol "=", .gap, .number "0", .symbol ";", .gap, counter depth, .gap, .symbol "<", .gap,
      .number (toString n.toNat), .symbol ";", .gap, counter depth] := by
    refine .of_separate ?_ (by simp [Lexeme.isSeparate])
    simp [-Nat.toString_eq_repr, hcounter, hlength, hzero, hword, hsymbol, hgap]
  have hback : IsCut [.symbol "++", .symbol ")"] := by
    refine .of_separate ?_ (by simp [Lexeme.isSeparate])
    simp [hsymbol]
  refine hfront.append hback fun x hx y hy => ?_
  obtain rfl : counter depth = x := by simpa using hx
  obtain rfl : y = .symbol "++" := by simpa using hy.symm
  have hends : (counter depth).Ends := trivial
  exact hends.apart (by decide) (by simp)

theorem exists_piece_placeCode (cx : Context) (hname : isWord f.name = true) (depth : Nat) :
    ∃ tree, Piece cx.target true 12 (placeCode cx f depth) tree := by
  induction depth with
  | zero =>
      have hself : Piece cx.target true 13 [.word "self"] (.name "self") :=
        .name (.inl rfl) (by decide) (not_mem_controlWords_of_cFamily (by decide) cx.target)
      exact ⟨_, (hself.mono (by decide)).member (.inr rfl) (.inl rfl)
        (isWord_localWord cx hname).1 (by simp)⟩
  | succ depth ih =>
      obtain ⟨tree, hplace⟩ := ih
      obtain ⟨hword, hcontrol⟩ := isWord_counterName depth cx.target
      have hcounter : Piece cx.target true 13 [counter depth] (.name (counterName depth)) :=
        .name (.inl rfl) hword hcontrol
      rw [placeCode_succ]
      exact ⟨_, hplace.element (hcounter.mono (by decide))⟩

/-- The lines are cut into their lexemes if the place is a name with fields and indices behind
it. -/
theorem isCut_elementLines {d : Dialect} (ht : cx.target = .cFamily d) {function : String}
    (hfunction : isWord function = true) (hcontrol : function ∉ controlWords cx.target)
    (level depth : Nat) {place : Code} {tree : Tree} {w : String}
    (hplace : Piece cx.target true 12 place tree) (hhead : place.head? = some (.word w))
    (lengths : List UInt32) :
    ∀ line ∈ elementLines function level depth place lengths, IsCut line.2 := by
  induction lengths generalizing level depth place tree with
  | nil =>
      have haddress : Piece cx.target true 11 (.symbol "&" :: place) (.prefixed "&" tree) :=
        (hplace.mono (by decide)).prefixed (by simp [ht, prefixOperators]) (by decide) (by simp)
          (by simp [hhead])
      have hname : Piece cx.target true 12 [.word function] (.name function) :=
        (Piece.name (.inl rfl) hfunction hcontrol).mono (by decide)
      have hargs : ∀ p ∈ [(Lexeme.symbol "&" :: place, Tree.prefixed "&" tree)],
          Piece cx.target true 0 p.1 p.2 :=
        List.forall_mem_singleton.mpr (haddress.mono (by decide))
      have hcall := hname.call hargs
      refine List.forall_mem_singleton.mpr ?_
      have hspelled : (Lexeme.symbol ";").Spelled := (by decide : ";".toList ∈ operators)
      have hsemicolon : IsCut [.symbol ";"] :=
        ⟨List.forall_mem_singleton.mpr hspelled, .singleton _⟩
      have hcut := IsCut.of_stretch hcall.toStretch hsemicolon (by simp [Lexeme.isSeparate])
      simpa [Code.commaSeparated] using hcut
  | cons n lengths ih =>
      obtain ⟨hword, hcontrol⟩ := isWord_counterName depth cx.target
      have hcounter : Piece cx.target true 13 [counter depth] (.name (counterName depth)) :=
        .name (.inl rfl) hword hcontrol
      have helement := hplace.element (hcounter.mono (by decide))
      have hfirst :
          (place ++ [.symbol "[", counter depth, .symbol "]"]).head? = some (.word w) := by
        rw [List.head?_append, hhead, Option.some_or]
      exact List.forall_mem_cons.mpr ⟨isCut_countingLoop depth n,
        ih (level + 1) (depth + 1) helement hfirst⟩

/-- The line that assigns the field a value. -/
def assignCode (cx : Context) (f : FieldDef) (value : Code) : Code :=
  selfField cx f ++ Code.operator "=" ++ value ++ [.symbol ";"]

/-- The assignment of a value that is read as the tokens. -/
def assignment (cx : Context) (f : FieldDef) (ts : List Token) : Shape :=
  .simple (.word "self" :: .symbol "->" :: .word (cx.target.localName f.name) :: .symbol "=" :: ts)

/-- The line is read as the assignment, also if the text of the value is cut into other tokens than
its code has. -/
theorem settles_assignCode (hname : isWord f.name = true) {value : Code} {ts : List Token}
    (hvalue : Scans value.text.toList ts) :
    Settles (linesText [(1, assignCode cx f value)]).toList (assignment cx f ts).tokens := by
  obtain ⟨tree, hplace⟩ := exists_piece_placeCode cx hname 0
  have hself : Code.Stretch true (selfField cx f) := by simpa [placeCode] using hplace.toStretch
  have hspelled : (Lexeme.symbol "=").Spelled := (by decide : "=".toList ∈ operators)
  have hgap : Lexeme.gap.Spelled := trivial
  have hoperator : IsCut (Code.operator "=") :=
    .of_separate (by simp [Code.operator, hspelled, hgap])
      (by simp [Code.operator, Lexeme.isSeparate])
  have hcut := IsCut.of_stretch hself hoperator (by simp [Code.operator, Lexeme.isSeparate])
  have hfront : Settles (Code.text (selfField cx f ++ Code.operator "=")).toList
      [.word "self", .symbol "->", .word (cx.target.localName f.name), .symbol "="] := by
    intro rest
    rw [Code.scanFrom_text hcut.spelled hcut.apart]
    · rfl
    · intro l hl c _
      obtain rfl : .gap = l := by simpa [Code.operator] using hl
      exact Lexeme.extend_pending_of_isSeparate rfl c
  have hend : Settles [';', '\n'] [.symbol ";"] := settles_lineEnd (s := ";") rfl
  have hall := ((settles_margin 1).append hfront).append
    (hvalue.append hend ⟨';', rfl, by decide⟩)
  simpa [linesText, assignCode, assignment, Shape.tokens, Code.toList_text, Lexeme.text] using hall

/-! A text that sets a field up is described by what may stand behind it. So descriptions compose:
each text goes in front of whatever reads as the rest of a block. -/

/-- The text between the braces of a function. -/
def blockText (inside : String) : String := "\x7b\n" ++ inside ++ "\x7d\n"

/-- A text of statements may stand in front of what is read as the rest of a block. -/
theorem readShape_of_settles {text : String} {shapes : List Shape}
    (htext : Settles text.toList (Shape.tokensOf shapes)) (hsane : Shape.SaneAll shapes)
    (hattached : Shape.attachedAll shapes = true) {more : String} {stmts : List Shape}
    (h : readShape (blockText more) = some (.block stmts)) :
    readShape (blockText (text ++ more)) = some (.block (shapes ++ stmts)) := by
  have hopen : Settles ['\x7b', '\n'] [.symbol "\x7b"] := settles_lineEnd (s := "\x7b") rfl
  have hblock : ∀ inside, blockText inside =
      String.ofList (['\x7b', '\n'] ++ (inside.toList ++ ['\x7d', '\n'])) := fun inside =>
    String.toList_inj.mp (by simp [blockText])
  rw [hblock] at h ⊢
  rw [String.toList_append, List.append_assoc]
  exact Shape.readShape_append hsane hattached hopen htext h

/-- A text of one statement may stand in front of what is read as the rest of a block. -/
theorem readShape_of_settles_tokens {text : String} {shape : Shape}
    (htext : Settles text.toList shape.tokens) (hsane : shape.Sane)
    (hattached : shape.attached = true) {more : String} {stmts : List Shape}
    (h : readShape (blockText more) = some (.block stmts)) :
    readShape (blockText (text ++ more)) = some (.block (shape :: stmts)) := by
  have htexts : Settles text.toList (Shape.tokensOf [shape]) := by
    simpa [Shape.tokensOf] using htext
  have hall : Shape.attachedAll [shape] = true := by
    rw [Shape.attachedAll, hattached]
    rfl
  exact readShape_of_settles htexts (by simpa only [Shape.SaneAll, and_true] using hsane) hall h

/-- The text is of statements that set the fields up. -/
structure SetsUp (cx : Context) (fields : List FieldDef) (text : String) (shapes : List Shape)
    (events : List (List Event)) : Prop where
  /-- It is read as the statements, in front of what is read as the rest of a block. -/
  reads : ∀ more stmts, readShape (blockText more) = some (.block stmts) →
    readShape (blockText (text ++ more)) = some (.block (shapes ++ stmts))
  /-- They run if the counters of the loops can hold the lengths of the arrays. -/
  runs : ∀ largest : Option Nat, (∀ most ∈ largest, ∀ f ∈ fields, ∀ id lengths,
      f.ty.Nests id lengths → ∀ n ∈ lengths, n ≤ most) →
    runAll largest [] shapes = some events.flatten
  /-- The fields are set up in order. -/
  setUp : List.Forall₂ (SetUp cx) fields events

namespace SetsUp

variable {fields more : List FieldDef} {text rest : String} {shapes stmts : List Shape}
  {events others : List (List Event)}

theorem nil : SetsUp cx [] "" [] [] where
  reads more stmts h := by rwa [String.empty_append]
  runs _ _ := rfl
  setUp := .nil

theorem append (h : SetsUp cx fields text shapes events) (h' : SetsUp cx more rest stmts others) :
    SetsUp cx (fields ++ more) (text ++ rest) (shapes ++ stmts) (events ++ others) where
  reads behind last hread := by
    rw [String.append_assoc, List.append_assoc]
    exact h.reads _ _ (h'.reads _ _ hread)
  runs largest hlargest := by
    rw [List.flatten_append]
    refine runAll_append (h.runs largest fun most hmost f hf => ?_)
      (h'.runs largest fun most hmost f hf => ?_)
    · exact hlargest most hmost f (List.mem_append_left _ hf)
    · exact hlargest most hmost f (List.mem_append_right _ hf)
  setUp := List.rel_append h.setUp h'.setUp

/-- A field that is left alone. -/
theorem untouched (h : SetUp cx f []) : SetsUp cx [f] "" [] [[]] where
  reads more stmts h := by rwa [String.empty_append]
  runs _ _ := rfl
  setUp := .cons h .nil

theorem assigned (hnamed : cx.program.Named cx.target) (hname : f.IsNamed) {e : Expr} {code : Code}
    (hstorage : f.ty.isStorage = false) (hvalue : f.value = some e) (hcode : cx.code e = .ok code) :
    ∃ ts, SetsUp cx [f] (linesText [(1, assignCode cx f code)]) [assignment cx f ts]
      [[.assign ⟨cx.target.localName f.name, []⟩ ts]] := by
  obtain ⟨ts, hts, hscans, hbalanced⟩ := Context.exists_tokens? hnamed (hname.2 e hvalue) hcode
  have hsane : (assignment cx f ts).Sane := by
    have hfront : Balanced [.word "self", .symbol "->", .word (cx.target.localName f.name),
        .symbol "="] := fun _ => rfl
    simp only [assignment, Shape.Sane]
    exact ⟨hfront.append hbalanced, by simp [Shape.openers]⟩
  refine ⟨ts, fun more stmts h => ?_, fun _ _ => ?_, .cons (.assigned hstorage hvalue hts) .nil⟩
  · exact readShape_of_settles_tokens (settles_assignCode hname.1 hscans) hsane rfl h
  · rw [runAll, assignment, run, act_assign]
    rfl

theorem constructed (hnamed : cx.program.Named cx.target) (hname : f.IsNamed) {id : ClassId}
    {inner : ClassDef} {lengths : List UInt32} {d : Dialect} (ht : cx.target = .cFamily d)
    (hnests : f.ty.Nests id (lengths.map UInt32.toNat)) (hclass : cx.program.classOf id = .ok inner)
    (hneeds : cx.program.needsConstruction id = .ok true) :
    SetsUp cx [f] (linesText (callLines cx f (constructName inner.name) 1 0 lengths))
      [eachCall (constructName inner.name) (cx.target.localName f.name) 0
        (lengths.map UInt32.toNat)]
      [(rowMajor (lengths.map UInt32.toNat)).map fun is =>
        .call (constructName inner.name) ⟨cx.target.localName f.name, is⟩] := by
  refine ⟨fun more stmts h => ?_, fun largest hlargest => ?_,
    .cons (.constructed hnests hclass hneeds (isRowMajor_rowMajor _)) .nil⟩
  · have hinner : cx.classOf id = .ok inner := by rw [Context.classOf, hclass, lookedUp]
    have hconstruct : isWord "Construct" = true := by decide
    obtain ⟨hfunction, hcontrol⟩ :=
      isWord_functionName (hnamed.className hinner).1 hconstruct cx.target
    have hopeners : .word (constructName inner.name) ∉ Shape.openers := by
      have hwords : ∀ w : String, .word w ∈ Shape.openers → w ∈ statementWords := by
        simp [Shape.openers, statementWords]
      exact fun hmem => not_mem_statementWords hcontrol (hwords _ hmem)
    obtain ⟨tree, hplace⟩ := exists_piece_placeCode cx hname.1 0
    have hcut := isCut_elementLines ht hfunction hcontrol 1 0 hplace rfl lengths
    rw [← callLines_eq] at hcut
    have htext := settles_linesText hcut
    rw [linesTokens_callLines] at htext
    exact readShape_of_settles_tokens htext (sane_eachCall _ _ hopeners _ _)
      (attached_eachCall _ _ _ _) h
  · have hrun := run_eachCall (constructName inner.name) (cx.target.localName f.name)
      (lengths.map UInt32.toNat) (counts_nil [])
      fun most hmost => hlargest most hmost f (List.mem_singleton_self f) id _ hnests
    rw [List.length_nil] at hrun
    rw [runAll, runAll, hrun]
    simp

end SetsUp

/-- Whether a class that is held in place needs construction is looked up. -/
theorem needsConstruction_of_constructCalls {ty : Ty} {id : ClassId} (hty : ty.InPlace id)
    {depth : Nat} {place : Code} {steps : List Step}
    (h : constructCalls cx depth place ty = ⟨steps, .ok ()⟩) :
    ∃ needed, cx.program.needsConstruction id = .ok needed := by
  cases hty with
  | direct =>
      obtain ⟨needed, hneeded, -⟩ := Emit.liftM_bind_eq_ok.mp h
      exact ⟨needed, lookedUp_eq_ok hneeded⟩
  | @element element length hty =>
      obtain ⟨needed, hneeded, -⟩ := Emit.liftM_bind_eq_ok.mp h
      have hneeded : cx.program.holdsConstructed (.array element true length) = .ok needed :=
        lookedUp_eq_ok hneeded
      rw [Program.holdsConstructed, Ty.heldClass_eq_some_iff.mpr hty.element] at hneeded
      exact ⟨needed, hneeded⟩

theorem exists_setsUp_calls (hnamed : cx.program.Named cx.target) (hname : f.IsNamed) {d : Dialect}
    (ht : cx.target = .cFamily d) {steps : List Step}
    (hstorage : f.ty.isStorage = true ∨ f.value = none)
    (h : constructCalls cx 0 (selfField cx f) f.ty = ⟨steps, .ok ()⟩) :
    ∃ text shapes events, Emit.AddsLines 1 text ⟨steps, .ok ()⟩ ∧
      SetsUp cx [f] text shapes [events] := by
  have hplace : selfField cx f = placeCode cx f 0 := by simp [placeCode]
  by_cases hneeded : ∃ id, f.ty.InPlace id ∧ cx.program.needsConstruction id = .ok true
  · obtain ⟨id, hty, hneeds⟩ := hneeded
    rw [hplace] at h
    obtain ⟨inner, lengths, hclass, hnests, hadds⟩ := exists_elementLines hty hneeds 1 h
    rw [← callLines_eq] at hadds
    exact ⟨_, _, _, hadds, .constructed hnamed hname ht hnests hclass hneeds⟩
  · have hnone : ∀ id, f.ty.InPlace id → cx.program.needsConstruction id = .ok false := by
      intro id hty
      obtain ⟨needed, hneeds⟩ := needsConstruction_of_constructCalls hty h
      cases needed with
      | false => exact hneeds
      | true => exact absurd ⟨id, hty, hneeds⟩ hneeded
    obtain rfl := constructCalls_eq_nil hnone h
    have huntouched : SetUp cx f [] := by
      cases hs : f.ty.isStorage with
      | true => exact .zeroed hs hnone
      | false => exact .unset hs (hstorage.resolve_left (by simp [hs]))
    exact ⟨"", [], [], Emit.addsLines_pure, .untouched huntouched⟩

theorem exists_setsUp_field (hnamed : cx.program.Named cx.target) (hname : f.IsNamed) {d : Dialect}
    (ht : cx.target = .cFamily d) {steps : List Step} (h : fieldSetup cx c f = ⟨steps, .ok ()⟩) :
    ∃ text shapes events, Emit.AddsLines 1 text ⟨steps, .ok ()⟩ ∧
      SetsUp cx [f] text shapes [events] := by
  unfold fieldSetup at h
  split at h
  case h_1 e hstorage hvalue =>
    obtain ⟨code, hcode, h⟩ := Emit.liftM_bind_eq_ok.mp h
    obtain ⟨ts, hsets⟩ := SetsUp.assigned hnamed hname hstorage hvalue hcode
    rw [← h]
    exact ⟨_, _, _, addsLines_line (by decide), hsets⟩
  case h_2 hother =>
    have hstorage : f.ty.isStorage = true ∨ f.value = none := by
      cases hs : f.ty.isStorage with
      | true => exact .inl rfl
      | false => exact .inr (Option.eq_none_iff_forall_ne_some.mpr fun e he => hother e hs he)
    dsimp only at h
    split_ifs at h with hvalue
    · obtain ⟨⟨⟩, notes, rest, hnotes, hrest, rfl⟩ := Emit.bind_eq_ok.mp h
      obtain ⟨text, shapes, events, hadds, hsets⟩ :=
        exists_setsUp_calls hnamed hname ht hstorage hrest
      have hquiet : Emit.AddsLines 1 "" ⟨notes, .ok ()⟩ := by
        rw [← hnotes]
        exact Emit.addsLines_note _
      have hall := hquiet.seq hadds
      rw [String.empty_append] at hall
      exact ⟨text, shapes, events, hall, hsets⟩
    · exact exists_setsUp_calls hnamed hname ht hstorage h

/-- The fields are set up one after the other. -/
theorem exists_setsUp (hnamed : cx.program.Named cx.target) {d : Dialect}
    (ht : cx.target = .cFamily d) {fields : List FieldDef} (hnames : ∀ f ∈ fields, f.IsNamed)
    {steps : List Step} (h : fields.forM (fieldSetup cx c) = ⟨steps, .ok ()⟩) :
    ∃ text shapes events, Emit.AddsLines 1 text ⟨steps, .ok ()⟩ ∧
      SetsUp cx fields text shapes events := by
  induction fields generalizing steps with
  | nil =>
      obtain ⟨-, rfl⟩ := Emit.pure_eq_ok.mp h
      exact ⟨"", [], [], Emit.addsLines_pure, .nil⟩
  | cons f fields ih =>
      obtain ⟨hname, hnames⟩ := List.forall_mem_cons.mp hnames
      obtain ⟨⟨⟩, first, last, hfirst, hlast, rfl⟩ := Emit.bind_eq_ok.mp h
      obtain ⟨text, shapes, events, hadds, hsets⟩ := exists_setsUp_field hnamed hname ht hfirst
      obtain ⟨rest, stmts, others, hadds', hsets'⟩ := ih hnames hlast
      exact ⟨_, _, _, hadds.seq hadds', hsets.append hsets'⟩

end CFamily

end Emitter
