import Emitter.Proofs.Names.Printed
import Emitter.Proofs.Statement.Clauses

/-!
# Names in printed statements

Which names the code of a statement has in it: its keywords, the types and names that it declares,
the functions that construct what it declares, and the names of its expressions. Explicit
initializers that the type makes superfluous are not printed, so their names are not listed.
-/

namespace Emitter

open Layout Number Program Text

namespace Step

/-- The step opens and closes neither a file nor a section. -/
def staysInFile : Step → Bool
  | .openFile _ | .closeFile | .beginSection | .pasteSection | .dropSection => false
  | _ => true

/-- The code that the step prints. -/
def code : Step → Code
  | .put code => code
  | _ => []

/-- The names in the code that steps print. -/
def names (steps : List Step) : List Lexeme := steps.flatMap fun step => step.code.names

@[simp] theorem names_nil : names [] = [] := rfl

@[simp] theorem names_put (code : Code) (steps : List Step) :
    names (.put code :: steps) = code.names ++ names steps := rfl

@[simp] theorem names_append (first second : List Step) :
    names (first ++ second) = names first ++ names second := List.flatMap_append

end Step

theorem PrintedName.supplier?_eq_some {p : Program} {n : PrintedName} {s : Supplier} :
    n.supplier? = some s ↔ ∃ name, n.lexeme p = .supplied name s := by
  cases n with
  | fixed l => cases l <;> simp [PrintedName.supplier?, Lexeme.supplier?, PrintedName.lexeme]
  | _ => simp [PrintedName.supplier?, PrintedName.lexeme]

namespace Context

variable {cx : Context} {names names' : List PrintedName} {ns ns' : List Lexeme}

theorem Lists.nil : cx.Lists [] [] := by simp [Lists]

theorem Lists.append (h : cx.Lists names ns) (h' : cx.Lists names' ns') :
    cx.Lists (names ++ names') (ns ++ ns') := fun l hl => by
  simp [h l hl, h' l hl, or_and_right, exists_or]

/-- Names that are listed as they are printed. -/
theorem lists_map (names : List PrintedName) :
    cx.Lists names (names.map (PrintedName.lexeme cx.program)) := fun l _ => by simp

theorem lists_of_eq (h : ns = names.map (PrintedName.lexeme cx.program)) : cx.Lists names ns :=
  h ▸ lists_map names

/-- Nothing is listed where nothing is kept account of. -/
theorem lists_of_plain (ht : cx.target = .actionScript) {code : Code}
    (h : ActionScript.Plain code) : cx.Lists [] code.names := fun l hl => by
  rw [ht] at hl
  cases l with
  | supplied name supplier => simpa using h name supplier
  | _ => simp [Target.counts, Lexeme.supplier?] at hl

theorem lists_flatMap {α : Type} {items : List α} {f : α → List PrintedName}
    {g : α → List Lexeme} (h : ∀ item ∈ items, cx.Lists (f item) (g item)) :
    cx.Lists (items.flatMap f) (items.flatMap g) := by
  induction items with
  | nil => exact .nil
  | cons item rest ih =>
      obtain ⟨hitem, hrest⟩ := List.forall_mem_cons.mp h
      simpa using hitem.append (ih hrest)

/-- Supplied names are kept account of for every target. -/
theorem Lists.exists_supplied (h : cx.Lists names ns) {s : Supplier} :
    (∃ name, .supplied name s ∈ ns) ↔ s ∈ names.filterMap PrintedName.supplier? := by
  have hcounts : ∀ name, cx.target.counts (.supplied name s) = true := fun name => by
    cases ht : cx.target <;> simp [Target.counts, Lexeme.isName, Lexeme.supplier?]
  simp only [List.mem_filterMap]
  constructor
  · rintro ⟨name, hname⟩
    obtain ⟨n, hn, hl⟩ := (h _ (hcounts name)).mp hname
    exact ⟨n, hn, PrintedName.supplier?_eq_some.mpr ⟨name, hl⟩⟩
  · rintro ⟨n, hn, hs⟩
    obtain ⟨name, hl⟩ := @PrintedName.supplier?_eq_some cx.program n s |>.mp hs
    exact ⟨name, (h _ (hcounts name)).mpr ⟨n, hn, hl⟩⟩

end Context

namespace Emit

variable {α β : Type} {cx : Context} {names names' : List PrintedName} {e : Emit Unit}

theorem mem_suppliers {e : Emit α} {s : Supplier} :
    s ∈ e.suppliers ↔ ∃ name, .supplied name s ∈ Step.names e.steps := by
  have hcode : ∀ code : Code, s ∈ code.filterMap Lexeme.supplier? ↔
      ∃ name, .supplied name s ∈ code.names := by
    intro code
    simp only [List.mem_filterMap, Code.names, List.mem_filter]
    constructor
    · rintro ⟨l, hl, hs⟩
      cases l with
      | supplied name supplier =>
          obtain rfl := Option.some.inj hs
          exact ⟨name, hl, rfl⟩
      | _ => simp [Lexeme.supplier?] at hs
    · rintro ⟨name, hl, -⟩
      exact ⟨_, hl, rfl⟩
  simp only [Emit.suppliers, Step.names, List.mem_flatMap]
  constructor
  · rintro ⟨step, hstep, hs⟩
    cases step with
    | put code =>
        obtain ⟨name, hname⟩ := (hcode code).mp hs
        exact ⟨name, _, hstep, hname⟩
    | _ => simp at hs
  · rintro ⟨name, step, hstep, hname⟩
    refine ⟨step, hstep, ?_⟩
    cases step with
    | put code => exact (hcode code).mpr ⟨name, hname⟩
    | _ => simp [Step.code] at hname

/-- An emission that goes through stays in the file, and its code has the listed names. -/
def Prints (cx : Context) (names : List PrintedName) (e : Emit α) : Prop :=
  ∀ steps a, e = ⟨steps, .ok a⟩ →
    (∀ step ∈ steps, step.staysInFile = true) ∧ cx.Lists names (Step.names steps)

theorem Prints.of_eq {e : Emit α} (h : e.Prints cx names) (hnames : names = names') :
    e.Prints cx names' := hnames ▸ h

theorem Prints.bind {e : Emit α} {next : α → Emit β} (h : e.Prints cx names)
    (hnext : ∀ a, e.outcome = .ok a → (next a).Prints cx names') :
    (e >>= next).Prints cx (names ++ names') := by
  intro steps b hsteps
  obtain ⟨a, first, rest, hfirst, hrest, rfl⟩ := bind_eq_ok.mp hsteps
  obtain ⟨hstay, hlists⟩ := h first a hfirst
  obtain ⟨hstay', hlists'⟩ := hnext a (by rw [hfirst]) rest b hrest
  refine ⟨fun step hstep => ?_, by simpa using hlists.append hlists'⟩
  rcases List.mem_append.mp hstep with hstep | hstep
  · exact hstay step hstep
  · exact hstay' step hstep

theorem Prints.seq {e : Emit Unit} {next : Emit α} (h : e.Prints cx names)
    (hnext : next.Prints cx names') : (do e; next).Prints cx (names ++ names') :=
  h.bind fun _ _ => hnext

theorem prints_lift {r : Result α} {next : α → Emit β}
    (h : ∀ a, r = .ok a → (next a).Prints cx names) : (liftM r >>= next).Prints cx names := by
  intro steps b hsteps
  obtain ⟨a, hr, hnext⟩ := liftM_bind_eq_ok.mp hsteps
  exact h a hr steps b hnext

theorem prints_refused {names : List PrintedName} (fault : Fault) :
    (liftM (.error fault : Result α) : Emit α).Prints cx names := fun _ _ h => by
  simp [liftM_eq_ok] at h

theorem prints_pure (a : α) : (pure a : Emit α).Prints cx [] := fun steps b h => by
  obtain ⟨-, rfl⟩ := pure_eq_ok.mp h
  exact ⟨by simp, Context.Lists.nil⟩

theorem prints_steps {given : List Step} (hstay : ∀ step ∈ given, step.staysInFile = true)
    (h : cx.Lists names (Step.names given)) :
    (ofSteps given).Prints cx names := fun steps _ hs => by
  obtain rfl := ofSteps_eq_ok.mp hs
  exact ⟨hstay, h⟩

theorem prints_put {code : Code} (h : cx.Lists names code.names) : (put code).Prints cx names :=
  prints_steps (by simp [Step.staysInFile]) (by simpa using h)

theorem prints_line {code : Code} (h : cx.Lists names code.names) : (line code).Prints cx names :=
  prints_steps (by simp [Step.staysInFile]) (by simpa [Step.names, Step.code] using h)

/-- Code between keywords and symbols. -/
theorem prints_line_of_eq {code : Code}
    (h : code.names = names.map (PrintedName.lexeme cx.program)) : (line code).Prints cx names :=
  prints_line (Context.lists_of_eq h)

theorem prints_put_of_eq {code : Code}
    (h : code.names = names.map (PrintedName.lexeme cx.program)) : (put code).Prints cx names :=
  prints_put (Context.lists_of_eq h)

/-- Code without names. -/
theorem prints_line_of_plain {code : Code} (h : code.names = []) : (line code).Prints cx [] :=
  prints_line_of_eq h

theorem prints_put_of_plain {code : Code} (h : code.names = []) : (put code).Prints cx [] :=
  prints_put_of_eq h

theorem prints_newline : newline.Prints cx [] :=
  prints_steps (by simp [Step.staysInFile])
    (by simpa [Step.names, Step.code] using Context.Lists.nil)

theorem prints_note (notice : Notice) : (note notice).Prints cx [] :=
  prints_steps (by simp [Step.staysInFile])
    (by simpa [Step.names, Step.code] using Context.Lists.nil)

theorem prints_lines (text : String) : (lines text).Prints cx [] :=
  prints_steps (by simp [Step.staysInFile])
    (by simpa [Step.names, Step.code] using Context.Lists.nil)

/-- Steps around an emission that stay in the file and print no names. -/
theorem Prints.between {e' : Emit Unit} {last : List Step} (h : e.Prints cx names)
    (first : List Step)
    (he' : ∀ steps, e' = ⟨steps, .ok ()⟩ → ∃ inner, e = ⟨inner, .ok ()⟩ ∧
      steps = first ++ (inner ++ last))
    (hstay : ∀ step ∈ first ++ last, step.staysInFile = true)
    (hnames : Step.names first = [] ∧ Step.names last = []) : e'.Prints cx names := by
  intro steps a hsteps
  obtain ⟨inner, he, rfl⟩ := he' steps hsteps
  obtain ⟨hinner, hlists⟩ := h inner () he
  refine ⟨fun step hstep => ?_, by simpa [hnames.1, hnames.2] using hlists⟩
  simp only [List.mem_append] at hstep hstay
  rcases hstep with hstep | hstep | hstep
  · exact hstay step (.inl hstep)
  · exact hinner step hstep
  · exact hstay step (.inr hstep)

theorem Prints.indented (h : e.Prints cx names) : e.indented.Prints cx names :=
  h.between [.indent] (fun _ => indented_eq_ok.mp) (by simp [Step.staysInFile])
    ⟨rfl, rfl⟩

theorem Prints.deeper (h : e.Prints cx names) : e.deeper.Prints cx names :=
  h.between [.indent] (fun _ => deeper_eq_ok.mp) (by simp [Step.staysInFile])
    ⟨rfl, rfl⟩

theorem Prints.braced (h : e.Prints cx names) : e.braced.Prints cx names :=
  h.between [.put [.symbol "\x7b"], .newline, .indent] (fun _ => braced_eq_ok.mp)
    (by simp [Step.staysInFile]) ⟨rfl, rfl⟩

theorem prints_forM {f : α → Emit Unit} {g : α → List PrintedName} {items : List α}
    (h : ∀ item ∈ items, (f item).Prints cx (g item)) :
    (items.forM f).Prints cx (items.flatMap g) := by
  induction items with
  | nil => exact prints_pure ()
  | cons item rest ih =>
      obtain ⟨hitem, hrest⟩ := List.forall_mem_cons.mp h
      exact hitem.seq (ih hrest)

theorem prints_forM_of_plain {f : α → Emit Unit} {items : List α}
    (h : ∀ item ∈ items, (f item).Prints cx []) : (items.forM f).Prints cx [] :=
  (prints_forM h).of_eq (by simp)

end Emit

namespace Context

/-- The names in the spelling of a type in the C family. -/
def typeNames (d : Dialect) : Ty → List PrintedName
  | .void => [.word "void"]
  | .bool => [.header "bool" .stdbool]
  | .int kind => [.fixed (d.intType kind)]
  | .float .float => [.word "float"]
  | .float .double => [.word "double"]
  | .string => [.fixed d.readOnly, .word "char"]
  | .enumeration _ => [.word "int"]
  | .null => []
  | .classStorage id | .classRef id => [.type id]
  | .array element _ _ => typeNames d element

/-- The names in the declaration of a local, a parameter or a field. -/
def declaredNames (cx : Context) (name : String) (ty : Ty) : List PrintedName :=
  match cx.target with
  | .actionScript => []
  | .cFamily d => typeNames d ty ++ [.coined (cx.target.localName name)]

/-- The names of a local: those of its explicit initializer only if it is printed. -/
def localNames (cx : Context) (decl : VarDecl) : List PrintedName :=
  cx.declaredNames decl.name decl.ty ++
    if decl.ty.isStorage then [] else cx.receiverNames decl.value

/-- The names in the calls that construct what a place holds. -/
def constructionNames (p : Program) : Nat → List PrintedName → Ty → List PrintedName
  | _, place, .classStorage id =>
    match p.needsConstruction id with
    | .ok true => .constructor id :: place
    | _ => []
  | depth, place, .array element true length =>
    match p.holdsConstructed (.array element true length) with
    | .ok true => .word "for" :: .word "int" :: .coined ("_i" ++ toString depth) ::
        constructionNames p (depth + 1) (place ++ [.coined ("_i" ++ toString depth)]) element
    | _ => []
  | _, _, _ => []

end Context

namespace CFamily

variable {cx : Context} {d : Dialect} {code : Code}

@[simp] theorem names_pointerTo (type : Code) : (pointerTo type).names = type.names := by
  unfold pointerTo
  split_ifs <;> simp

@[simp] theorem names_beforeName (type : Code) : (beforeName type).names = type.names := by
  unfold beforeName
  split_ifs <;> simp

theorem names_typeCode {ty : Ty} (hc : typeCode cx d ty = .ok code) :
    code.names = (Context.typeNames d ty).map (PrintedName.lexeme cx.program) := by
  induction ty generalizing code with
  | null => simp [typeCode, Context.unmappedType] at hc
  | int kind =>
      obtain rfl := Except.ok.inj hc
      simp [Context.typeNames]
  | float kind =>
      cases kind <;> obtain rfl := Except.ok.inj hc <;> simp [Context.typeNames]
  | string =>
      obtain rfl := Except.ok.inj hc
      cases d <;> simp [Context.typeNames, Dialect.stringType, Dialect.readOnly]
  | classStorage id | classRef id =>
      obtain ⟨c, hclass, hc⟩ := Result.bind_eq_ok.mp hc
      obtain rfl := Except.ok.inj hc
      simp [Context.typeNames, className_of_classOf hclass]
  | array element storage length ih =>
      obtain ⟨inner, hinner, hc⟩ := Result.bind_eq_ok.mp hc
      obtain rfl := Except.ok.inj hc
      simpa [Context.typeNames] using ih hinner
  | _ =>
      obtain rfl := Except.ok.inj hc
      simp [Context.typeNames]

/-- Storage arrays are declared by their elements' type. -/
theorem typeNames_of_dimensions {ty base : Ty} {lengths : List UInt32}
    (h : dimensions cx ty = .ok (lengths, base)) :
    Context.typeNames d base = Context.typeNames d ty := by
  induction ty generalizing lengths with
  | array element storage length ih =>
      cases storage with
      | false =>
          obtain ⟨-, rfl⟩ := Prod.mk.inj (Except.ok.inj h)
          rfl
      | true =>
          cases length with
          | none => simp [dimensions, Context.unsupported] at h
          | some n =>
              obtain ⟨⟨inner, base'⟩, hinner, h⟩ := Result.bind_eq_ok.mp h
              obtain ⟨-, rfl⟩ := Prod.mk.inj (Except.ok.inj h)
              exact ih hinner
  | _ =>
      obtain ⟨-, rfl⟩ := Prod.mk.inj (Except.ok.inj h)
      rfl

theorem names_declaration {ty : Ty} {w : String} (hc : declaration cx d ty (.word w) = .ok code) :
    code.names =
      (Context.typeNames d ty ++ [PrintedName.coined w]).map (PrintedName.lexeme cx.program) := by
  obtain ⟨⟨lengths, base⟩, hdimensions, hc⟩ := Result.bind_eq_ok.mp hc
  obtain ⟨type, htype, hc⟩ := Result.bind_eq_ok.mp hc
  obtain rfl := Except.ok.inj hc
  simp [names_typeCode htype, typeNames_of_dimensions hdimensions]

theorem lookedUp_eq_ok {α : Type} {r : Except SymbolId α} {a : α} (h : lookedUp r = .ok a) :
    r = .ok a := by
  cases r with
  | ok b => rw [Except.ok.inj h]
  | error id => simp [lookedUp] at h

theorem prints_constructCalls (depth : Nat) {place : Code} {places : List PrintedName}
    (hplace : place.names = places.map (PrintedName.lexeme cx.program)) (ty : Ty) :
    (constructCalls cx depth place ty).Prints cx
      (Context.constructionNames cx.program depth places ty) := by
  induction ty generalizing depth place places with
  | classStorage id =>
      refine Emit.prints_lift fun constructed hconstructed => ?_
      have hneeds : cx.program.needsConstruction id = .ok constructed := lookedUp_eq_ok hconstructed
      cases constructed with
      | false => simpa [Context.constructionNames, hneeds] using Emit.prints_pure ()
      | true =>
          refine Emit.prints_lift fun c hclass => ?_
          simp only [Context.constructionNames, hneeds]
          exact Emit.prints_line_of_eq (by simp [className_of_classOf hclass, hplace])
  | array element storage length ih =>
      cases storage with
      | false => exact Emit.prints_pure ()
      | true =>
          refine Emit.prints_lift fun constructed hconstructed => ?_
          have hholds : cx.program.holdsConstructed (.array element true length) =
              .ok constructed := lookedUp_eq_ok hconstructed
          cases constructed with
          | false => simpa [Context.constructionNames, hholds] using Emit.prints_pure ()
          | true =>
              cases length with
              | none => exact Emit.prints_refused _
              | some n =>
                  have hinner := @ih (depth + 1)
                    (place ++ [.symbol "[", counter depth, .symbol "]"])
                    (places ++ [PrintedName.coined ("_i" ++ toString depth)])
                      (by simp [hplace, counter])
                  have hhead : (Emit.line (countingLoop (counter depth) n)).Prints cx
                      [.word "for", .word "int", .coined ("_i" ++ toString depth)] :=
                    Emit.prints_line fun l _ => by simp [countingLoop, counter, eq_comm]
                  simp only [Context.constructionNames, hholds]
                  exact hhead.seq hinner.indented
  | _ => exact Emit.prints_pure ()

theorem prints_declareLocal (ht : cx.target = .cFamily d) (decl : VarDecl) :
    (declareLocal cx d decl).Prints cx (cx.localNames decl) := by
  refine Emit.prints_lift fun type htype => ?_
  have hdeclared : (Emit.put type).Prints cx (cx.declaredNames decl.name decl.ty) :=
    Emit.prints_put_of_eq (by
      simpa [Context.declaredNames, Context.localWord, ht] using names_declaration htype)
  refine hdeclared.seq ?_
  cases hstorage : decl.ty.isStorage with
  | true =>
      have hzeros : (Emit.put (Code.operator "=" ++
          [Lexeme.symbol "\x7b", Lexeme.gap, Lexeme.number "0", Lexeme.gap,
            Lexeme.symbol "\x7d"])).Prints cx [] :=
        Emit.prints_put_of_eq rfl
      rw [if_pos rfl, if_pos rfl]
      split
      · exact (Emit.prints_note _).seq hzeros
      · exact hzeros
  | false =>
      rw [if_neg Bool.false_ne_true, if_neg Bool.false_ne_true]
      cases decl.value with
      | none => exact Emit.prints_pure ()
      | some e =>
          refine Emit.prints_lift fun code hcode => Emit.prints_put ?_
          simpa [Context.receiverNames] using Context.lists_code e hcode

end CFamily

namespace ActionScript

variable {cx : Context} {code : Code}

theorem plain_typeCode {ty : Ty} (hc : typeCode cx ty = .ok code) : Plain code := by
  cases ty with
  | null => simp [typeCode, Context.unmappedType] at hc
  | int kind =>
      cases kind <;> simp only [typeCode, Context.unmappedType, reduceCtorEq] at hc <;>
        obtain rfl := Except.ok.inj hc <;> simp [Plain]
  | array | classStorage | classRef =>
      obtain ⟨inner, -, hc⟩ := Result.bind_eq_ok.mp hc
      obtain rfl := Except.ok.inj hc
      simp [Plain]
  | _ =>
      obtain rfl := Except.ok.inj hc
      simp [Plain]

theorem plain_typed {name : String} {ty : Ty} (hc : typed cx name ty = .ok code) : Plain code := by
  obtain ⟨type, htype, hc⟩ := Result.bind_eq_ok.mp hc
  obtain rfl := Except.ok.inj hc
  simpa [Plain, Context.localWord] using plain_typeCode htype

theorem plain_impliedInitializer {ty : Ty} (hc : impliedInitializer cx ty = .ok (some code)) :
    Plain code ∧ ty.isStorage = true := by
  unfold impliedInitializer at hc
  split at hc
  case h_1 id =>
    obtain ⟨c, -, hc⟩ := Result.bind_eq_ok.mp hc
    obtain rfl := Option.some.inj (Except.ok.inj hc)
    exact ⟨by simp [Plain], rfl⟩
  case h_2 element length =>
    obtain rfl := Option.some.inj (Except.ok.inj hc)
    refine ⟨?_, rfl⟩
    split_ifs <;> cases length <;> simp [Plain]
  case h_3 => simp [pure, Except.pure] at hc

theorem isStorage_of_impliedInitializer {ty : Ty} (hc : impliedInitializer cx ty = .ok none) :
    ty.isStorage = false := by
  cases ty with
  | classStorage id =>
      obtain ⟨c, -, hc⟩ := Result.bind_eq_ok.mp hc
      simp [pure, Except.pure] at hc
  | array element storage length =>
      cases storage with
      | false => rfl
      | true => simp [impliedInitializer, pure, Except.pure] at hc
  | _ => rfl

/-- What follows the type in a declaration. -/
theorem prints_initializer (ht : cx.target = .actionScript) (name : String) (ty : Ty)
    (value : Option Expr) : (initializer cx name ty value).Prints cx
      (if ty.isStorage then [] else cx.receiverNames value) := by
  refine Emit.prints_lift fun implied himplied => ?_
  cases implied with
  | some init =>
      obtain ⟨hplain, hstorage⟩ := plain_impliedInitializer himplied
      have hput : (Emit.put (Code.operator "=" ++ init)).Prints cx [] :=
        Emit.prints_put (Context.lists_of_plain ht (by simpa [Plain] using hplain))
      rw [hstorage]
      refine hput.seq ?_
      split
      · exact Emit.prints_note _
      · exact Emit.prints_pure ()
  | none =>
      rw [isStorage_of_impliedInitializer himplied]
      cases value with
      | none => exact Emit.prints_pure ()
      | some e =>
          refine Emit.prints_lift fun code hcode => Emit.prints_put ?_
          simpa [Context.receiverNames] using Context.lists_code e hcode

theorem prints_declareLocal (ht : cx.target = .actionScript) (decl : VarDecl) :
    (declareLocal cx decl).Prints cx (cx.localNames decl) := by
  refine Emit.prints_lift fun type htype => ?_
  have hdeclared : (Emit.put ([Lexeme.word "var", Lexeme.gap] ++ type)).Prints cx
      (cx.declaredNames decl.name decl.ty) := by
    simp only [Context.declaredNames, ht]
    exact Emit.prints_put (Context.lists_of_plain ht (by simpa [Plain] using plain_typed htype))
  exact hdeclared.seq (prints_initializer ht decl.name decl.ty decl.value)

end ActionScript

namespace Context

/-- The names of an assignment. In ActionScript, an element whose place has effects is divided by a
function of the helper class. -/
def assignNames (cx : Context) (target : Expr) (op : AssignOp) (value : Expr) :
    List PrintedName :=
  cx.names target ++ cx.names value ++
    if cx.target = .actionScript ∧ op = .div ∧ target.ty.isInteger ∧ target.hasSideEffect then
      [.helper "divideElement" .divideElement]
    else []

/-- The names of an expression, a local or an assignment. -/
def simpleNames (cx : Context) : Stmt → List PrintedName
  | .eval e => cx.names e
  | .declare decl => cx.localNames decl
  | .assign target op value => cx.assignNames target op value
  | _ => []

def clauseNames (cx : Context) : Option Stmt → List PrintedName
  | none => []
  | some s => cx.simpleNames s

/-- The names in what follows a simple statement. -/
def afterNames (cx : Context) : Stmt → List PrintedName
  | .declare decl =>
    match cx.target with
    | .actionScript => []
    | .cFamily _ => constructionNames cx.program 0 [.coined (cx.target.localName decl.name)] decl.ty
  | _ => []

mutual

/-- The names in a printed statement. -/
def stmtNames (cx : Context) : Stmt → List PrintedName
  | .block stmts => blockNames cx stmts
  | .eval e => cx.simpleNames (.eval e) ++ cx.afterNames (.eval e)
  | .declare decl => cx.simpleNames (.declare decl) ++ cx.afterNames (.declare decl)
  | .assign target op value =>
    cx.simpleNames (.assign target op value) ++ cx.afterNames (.assign target op value)
  | .branch cond onTrue none => .word "if" :: cx.names cond ++ stmtNames cx onTrue
  | .branch cond onTrue (some onFalse) =>
    .word "if" :: cx.names cond ++ stmtNames cx onTrue ++ .word "else" :: stmtNames cx onFalse
  | .whileLoop cond body => .word "while" :: cx.names cond ++ stmtNames cx body
  | .doLoop body cond => .word "do" :: stmtNames cx body ++ .word "while" :: cx.names cond
  | .forLoop start cond advance body =>
    .word "for" :: cx.clauseNames start ++ cx.receiverNames cond ++ cx.clauseNames advance ++
      stmtNames cx body
  | .breakLoop => [.word "break"]
  | .continueLoop => [.word "continue"]
  | .returnValue value => .word "return" :: cx.receiverNames value
  | .throwError message => .word "throw" :: cx.names message
  | .native _ => []

def blockNames (cx : Context) : List Stmt → List PrintedName
  | [] => []
  | s :: rest => stmtNames cx s ++ blockNames cx rest

end

variable {cx : Context} {s : Stmt}

/-- Code with the names of some expressions and a few of its own. -/
theorem Adds.lists {names : List PrintedName} {es : List Expr} {code : Code}
    (h : cx.Adds names (es.map cx.operand) code) :
    cx.Lists (names ++ es.flatMap cx.names) code.names := by
  obtain ⟨ns, hns, hcode⟩ := h
  intro l hl
  have hes := mem_of_namesAll hns fun e _ code hc => lists_code e hc l hl
  rw [hcode l hl, hes]
  simp only [List.mem_append, List.mem_flatMap]
  constructor
  · rintro (⟨n, hn, rfl⟩ | ⟨e, he, n, hn, rfl⟩)
    · exact ⟨n, .inl hn, rfl⟩
    · exact ⟨n, .inr ⟨e, he, hn⟩, rfl⟩
  · rintro ⟨n, hn | ⟨e, he, hn⟩, rfl⟩
    · exact .inl ⟨n, hn, rfl⟩
    · exact .inr ⟨e, he, n, hn, rfl⟩

theorem Lists.congr {names names' : List PrintedName} {ns : List Lexeme} (h : cx.Lists names ns)
    (hmem : ∀ n, n ∈ names ↔ n ∈ names') : cx.Lists names' ns := fun l hl => by
  simp [h l hl, hmem]

theorem lists_assign {target value : Expr} {op : AssignOp} {code : Code}
    (hc : cx.assign target op value = .ok code) :
    cx.Lists (cx.assignNames target op value) code.names := by
  have hplain : ∀ {code : Code}, (do
      return (← cx.code target) ++ Code.operator op.text ++ (← cx.code value) : Result Code) =
        .ok code → cx.Lists (cx.names target ++ cx.names value) code.names := by
    intro code hc
    obtain ⟨place, hplace, hc⟩ := Result.bind_eq_ok.mp hc
    obtain ⟨given, hgiven, hc⟩ := Result.bind_eq_ok.mp hc
    obtain rfl := Except.ok.inj hc
    simpa using (lists_code target hplace).append (lists_code value hgiven)
  unfold assign at hc
  unfold assignNames
  cases ht : cx.target with
  | cFamily d =>
      simp only [ht] at hc
      simpa using hplain hc
  | actionScript =>
      simp only [ht] at hc
      unfold ActionScript.assign at hc
      by_cases hdiv : op = .div ∧ target.ty.isInteger = true
      · rw [if_pos hdiv] at hc
        cases heffect : target.hasSideEffect with
        | false =>
            simp only [heffect, Bool.not_false, if_true] at hc
            obtain ⟨place, hplace, hc⟩ := Result.bind_eq_ok.mp hc
            obtain ⟨quotient, hquotient, hc⟩ := Result.bind_eq_ok.mp hc
            obtain rfl := Except.ok.inj hc
            obtain ⟨ns, hns, hnames⟩ := ActionScript.exists_names_quotient hquotient
            have hquotient : cx.Adds [] ([target, value].map cx.operand) quotient :=
              ActionScript.adds_of_supplied ht hns (by simp [hnames])
            have hall :
                cx.Lists (cx.names target ++ cx.names value) (place.names ++ quotient.names) :=
              ((lists_code target hplace).append hquotient.lists).congr (by simp)
            simpa [heffect] using hall
        | true =>
            simp only [heffect, Bool.not_true, Bool.false_eq_true, if_false] at hc
            split at hc
            case h_1 array position ty =>
              have hcall := (@ActionScript.adds_helperCall cx
                ([array, position, value].map cx.operand) _ ht _ _ hc).lists
              have hown : cx.own (.index array position ty) = [] := by
                simp [own, ht, ActionScript.own]
              refine hcall.congr fun n => ?_
              simp only [hdiv, and_self, if_true, names, hown]
              simp
              grind
            case h_2 => simp [unsupported] at hc
      · rw [if_neg hdiv] at hc
        have hnot : ¬(op = .div ∧ target.ty.isInteger = true ∧ target.hasSideEffect = true) :=
          fun h => hdiv ⟨h.1, h.2.1⟩
        simpa [hnot] using hplain hc

theorem prints_simple (s : Stmt) : (cx.simple s).Prints cx (cx.simpleNames s) := by
  cases s with
  | eval e => exact Emit.prints_lift fun code hc => Emit.prints_put (lists_code e hc)
  | declare decl =>
      change (cx.declareLocal decl).Prints cx (cx.localNames decl)
      unfold declareLocal
      split
      case h_1 ht => exact ActionScript.prints_declareLocal ht decl
      case h_2 d ht => exact CFamily.prints_declareLocal ht decl
  | assign target op value =>
      exact Emit.prints_lift fun code hc => Emit.prints_put (lists_assign hc)
  | _ => exact Emit.prints_refused _

theorem prints_afterSimple (s : Stmt) : (cx.afterSimple s).Prints cx (cx.afterNames s) := by
  cases s with
  | declare decl =>
      unfold afterSimple afterNames
      cases ht : cx.target with
      | actionScript => exact Emit.prints_pure ()
      | cFamily d => exact CFamily.prints_constructCalls _ (by simp [localWord, ht]) _
  | _ =>
      unfold afterSimple afterNames
      cases cx.target <;> exact Emit.prints_pure ()

theorem prints_simpleLine (s : Stmt) :
    (cx.simpleLine s).Prints cx (cx.simpleNames s ++ cx.afterNames s) := by
  have hend : (Emit.line [.symbol ";"]).Prints cx [] := Emit.prints_line_of_eq rfl
  exact (prints_simple s).seq (hend.seq (prints_afterSimple s))

theorem prints_loopStart (s : Stmt) : (cx.loopStart s).Prints cx (cx.simpleNames s) := by
  unfold loopStart
  cases cx.target with
  | actionScript => exact (Emit.prints_pure ()).seq (prints_simple s)
  | cFamily d => exact Emit.prints_lift fun _ _ => prints_simple s

theorem prints_loopHead (start : Option Stmt) (cond : Option Expr) (advance : Option Stmt) :
    (cx.loopHead start cond advance).Prints cx
      (.word "for" :: cx.clauseNames start ++ cx.receiverNames cond ++ cx.clauseNames advance) := by
  have hsymbol : ∀ s, (Emit.put [.symbol s]).Prints cx [] := fun s => Emit.prints_put_of_eq rfl
  have hfor : (Emit.put [.word "for", .gap, .symbol "("]).Prints cx [.word "for"] :=
    Emit.prints_put_of_eq rfl
  have hstart : (cx.startClause start).Prints cx (cx.clauseNames start) := by
    cases start with
    | none => exact Emit.prints_pure ()
    | some s => exact prints_loopStart s
  have hcond : (cx.condClause cond).Prints cx (cx.receiverNames cond) := by
    cases cond with
    | none => exact Emit.prints_pure ()
    | some e =>
        refine Emit.prints_lift fun code hc => Emit.prints_put ?_
        simpa [receiverNames] using lists_code e hc
  have hadvance : (cx.advanceClause advance).Prints cx (cx.clauseNames advance) := by
    cases advance with
    | none => exact Emit.prints_pure ()
    | some s => exact (Emit.prints_put_of_plain rfl).seq (prints_simple s)
  have hall := hfor.seq (hstart.seq ((hsymbol ";").seq (hcond.seq ((hsymbol ";").seq
    (hadvance.seq (hsymbol ")"))))))
  rw [loopHead_eq]
  simpa using hall

theorem prints_head (keyword : String) (cond : Expr) :
    (cx.head keyword cond).Prints cx (.word keyword :: cx.names cond) := by
  refine Emit.prints_lift fun code hc => Emit.prints_put ?_
  have hall := (@lists_map cx [.word keyword]).append (lists_code cond hc)
  simpa using hall

theorem prints_nested {printed : Emit Unit} {names : List PrintedName} (s : Stmt)
    (h : printed.Prints cx names) : (nested s printed).Prints cx names := by
  unfold nested
  split
  · exact (Emit.prints_put_of_plain rfl).seq h
  · exact Emit.prints_newline.seq h.indented

theorem prints_alternative {printed : Emit Unit} {names : List PrintedName} (s : Stmt)
    (h : printed.Prints cx names) : (alternative s printed).Prints cx (.word "else" :: names) := by
  have helse : (Emit.put [.word "else"]).Prints cx [.word "else"] := Emit.prints_put_of_eq rfl
  refine helse.seq ?_
  split
  · exact (Emit.prints_put_of_plain rfl).seq h
  · exact prints_nested s h

/-- A word, and what may follow it on the line. -/
theorem prints_wordLine (keyword : String) (e : Expr) :
    Emit.Prints cx (.word keyword :: cx.names e) (do
      Emit.line ([Lexeme.word keyword, Lexeme.gap] ++ (← cx.inline e) ++ [Lexeme.symbol ";"])) := by
  refine Emit.prints_lift fun code hc => Emit.prints_line ?_
  have hall := (@lists_map cx [.word keyword]).append (lists_code e hc)
  simpa using hall

theorem prints_statements {stmts : List Stmt}
    (h : ∀ s ∈ stmts, (cx.statement s).Prints cx (cx.stmtNames s)) :
    (cx.statements stmts).Prints cx (cx.blockNames stmts) := by
  induction stmts with
  | nil => exact Emit.prints_pure ()
  | cons s rest ih =>
      obtain ⟨hs, hrest⟩ := List.forall_mem_cons.mp h
      rw [statements, blockNames]
      exact hs.seq (ih hrest)

/-- The names in a printed statement are those that are listed for it. -/
theorem prints_statement (s : Stmt) : (cx.statement s).Prints cx (cx.stmtNames s) := by
  induction s using Stmt.inductOn with
  | h s ih =>
  cases s with
  | block stmts =>
      rw [statement, stmtNames]
      exact (prints_statements ih).braced
  | eval e =>
      rw [statement, stmtNames]
      exact prints_simpleLine (.eval e)
  | declare decl =>
      rw [statement, stmtNames]
      exact prints_simpleLine (.declare decl)
  | assign target op value =>
      rw [statement, stmtNames]
      exact prints_simpleLine (.assign target op value)
  | branch cond onTrue onFalse =>
      have htrue := prints_nested onTrue (ih onTrue (by simp [Stmt.children]))
      cases onFalse with
      | none =>
          rw [statement, stmtNames]
          exact (prints_head "if" cond).seq htrue
      | some onFalse =>
          have hfalse := prints_alternative onFalse (ih onFalse (by simp [Stmt.children]))
          have hall := (prints_head "if" cond).seq (htrue.seq hfalse)
          rw [statement, stmtNames]
          simpa using hall
  | whileLoop cond body =>
      rw [statement, stmtNames]
      exact (prints_head "while" cond).seq (prints_nested body (ih body (by simp [Stmt.children])))
  | doLoop body cond =>
      have hdo : (Emit.put [.word "do"]).Prints cx [.word "do"] := Emit.prints_put_of_eq rfl
      have hend : (Emit.line [.symbol ";"]).Prints cx [] := Emit.prints_line_of_eq rfl
      have hbody := prints_nested body (ih body (by simp [Stmt.children]))
      have hall := hdo.seq (hbody.seq ((prints_head "while" cond).seq hend))
      rw [statement, stmtNames]
      simpa using hall
  | forLoop start cond advance body =>
      have hbody := prints_nested body (ih body (by simp [Stmt.children]))
      have hall := (prints_loopHead start cond advance).seq hbody
      rw [statement, stmtNames]
      simpa using hall
  | breakLoop | continueLoop =>
      rw [statement, stmtNames]
      exact Emit.prints_line_of_eq rfl
  | returnValue value =>
      rw [statement, stmtNames]
      cases value with
      | none => exact Emit.prints_line_of_eq rfl
      | some e => exact prints_wordLine "return" e
  | native text =>
      rw [statement, stmtNames]
      exact Emit.prints_lines text
  | _ =>
      rw [statement, stmtNames]
      unfold thrown
      cases cx.target with
      | actionScript => exact prints_wordLine "throw" _
      | cFamily d => exact Emit.prints_refused _

theorem prints_body (stmts : Block) : (cx.body stmts).Prints cx (cx.blockNames stmts) :=
  (prints_statements fun s _ => prints_statement s).braced

end Context

end Emitter
