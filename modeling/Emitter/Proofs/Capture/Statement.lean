import Emitter.Proofs.Capture.Expression

/-!
# Bare names in printed statements

The bare names of a statement: its keywords, the types and variables that it declares, the functions
and counters that construct what it declares, and the bare names of its expressions. Texts of target
code are copied and give none.
-/

namespace Emitter

open Layout Number Program Text

namespace Emit

variable {α β : Type} {cx : Context} {names names' : List BareName} {e : Emit Unit}

/-- The code of an emission that goes through has exactly these bare names. -/
def Lists (cx : Context) (names : List BareName) (e : Emit α) : Prop :=
  ∀ steps a, e = ⟨steps, .ok a⟩ → cx.Shows names (steps.flatMap Step.code)

theorem Lists.of_eq {e : Emit α} (h : e.Lists cx names) (hnames : names = names') :
    e.Lists cx names' := hnames ▸ h

theorem Lists.bind {e : Emit α} {next : α → Emit β} (h : e.Lists cx names)
    (hnext : ∀ a, e.outcome = .ok a → (next a).Lists cx names') :
    (e >>= next).Lists cx (names ++ names') := by
  intro steps b hsteps
  obtain ⟨a, first, rest, hfirst, hrest, rfl⟩ := bind_eq_ok.mp hsteps
  rw [List.flatMap_append]
  exact (h first a hfirst).append (hnext a (by rw [hfirst]) rest b hrest)

theorem Lists.seq {e : Emit Unit} {next : Emit α} (h : e.Lists cx names)
    (hnext : next.Lists cx names') : (do e; next).Lists cx (names ++ names') :=
  h.bind fun _ _ => hnext

theorem lists_lift {r : Result α} {next : α → Emit β}
    (h : ∀ a, r = .ok a → (next a).Lists cx names) : (liftM r >>= next).Lists cx names := by
  intro steps b hsteps
  obtain ⟨a, hr, hnext⟩ := liftM_bind_eq_ok.mp hsteps
  exact h a hr steps b hnext

theorem lists_refused (fault : Fault) :
    (liftM (.error fault : Result α) : Emit α).Lists cx names := fun _ _ h => by
  simp [liftM_eq_ok] at h

/-- Steps without code. -/
theorem lists_steps {given : List Step} (h : cx.Shows names (given.flatMap Step.code)) :
    (ofSteps given).Lists cx names := fun steps _ hs => by
  obtain rfl := ofSteps_eq_ok.mp hs
  exact h

theorem lists_pure (a : α) : (pure a : Emit α).Lists cx [] := fun steps b h => by
  obtain ⟨-, rfl⟩ := pure_eq_ok.mp h
  exact Context.shows_nil

theorem lists_put {code : Code} (h : cx.Shows names code) : (put code).Lists cx names :=
  lists_steps (by simpa [Step.code] using h)

theorem lists_line {code : Code} (h : cx.Shows names code) : (line code).Lists cx names :=
  lists_steps (by simpa [Step.code] using h)

theorem lists_newline : newline.Lists cx [] := lists_steps Context.shows_nil

theorem lists_note (notice : Notice) : (note notice).Lists cx [] :=
  lists_steps Context.shows_nil

theorem lists_lines (text : String) : (lines text).Lists cx [] := lists_steps Context.shows_nil

/-- Steps around an emission that print no names. -/
theorem Lists.between {e' : Emit Unit} {last : List Step} (h : e.Lists cx names)
    (first : List Step)
    (he' : ∀ steps, e' = ⟨steps, .ok ()⟩ → ∃ inner, e = ⟨inner, .ok ()⟩ ∧
      steps = first ++ (inner ++ last))
    (hfirst : cx.Shows [] (first.flatMap Step.code))
    (hlast : cx.Shows [] (last.flatMap Step.code)) : e'.Lists cx names := by
  intro steps a hsteps
  obtain ⟨inner, he, rfl⟩ := he' steps hsteps
  rw [List.flatMap_append, List.flatMap_append]
  exact (hfirst.append ((h inner () he).append hlast)).of_eq (by simp)

theorem Lists.indented (h : e.Lists cx names) : e.indented.Lists cx names :=
  h.between [.indent] (fun _ => indented_eq_ok.mp) Context.shows_nil Context.shows_nil

theorem Lists.braced (h : e.Lists cx names) : e.braced.Lists cx names :=
  h.between [.put [.symbol "\x7b"], .newline, .indent] (fun _ => braced_eq_ok.mp)
    (Context.shows_plain (by decide)) (Context.shows_plain (by decide))

theorem lists_forM {f : α → Emit Unit} {g : α → List BareName} {items : List α}
    (h : ∀ item ∈ items, (f item).Lists cx (g item)) :
    (items.forM f).Lists cx (items.flatMap g) := by
  induction items with
  | nil => exact lists_pure ()
  | cons item rest ih =>
      obtain ⟨hitem, hrest⟩ := List.forall_mem_cons.mp h
      exact hitem.seq (ih hrest)

end Emit

namespace CFamily

variable {cx : Context} {d : Dialect} {code : Code}

/-- The bare names in the calls that construct what a place holds. -/
def constructionNames (p : Program) : Nat → List BareName → Ty → List BareName
  | _, place, .classStorage id =>
    match p.needsConstruction id with
    | .ok true => .constructor id :: place
    | _ => []
  | depth, place, .array element true length =>
    match p.holdsConstructed (.array element true length) with
    | .ok true => .word "for" :: .word "int" :: .counter depth ::
        constructionNames p (depth + 1) (place ++ [.counter depth]) element
    | _ => []
  | _, _, _ => []

theorem shows_typeCode (ht : cx.target = .cFamily d) {ty : Ty} (hc : typeCode cx d ty = .ok code) :
    cx.Shows (bareOf (Context.typeNames d ty)) code := by
  induction ty generalizing code with
  | null => simp [typeCode, Context.unmappedType] at hc
  | int kind =>
      obtain rfl := Except.ok.inj hc
      exact shows_intType d kind
  | float kind =>
      cases kind <;> obtain rfl := Except.ok.inj hc <;> exact Context.shows_nil.word _
  | string =>
      obtain rfl := Except.ok.inj hc
      cases d <;> exact fun rest w => by
        simp [Context.typeNames, Dialect.stringType, Dialect.readOnly, or_assoc]
  | classStorage id | classRef id =>
      obtain ⟨c, hclass, hc⟩ := Result.bind_eq_ok.mp hc
      obtain rfl := Except.ok.inj hc
      intro rest w
      simp [Context.typeNames, BareName.ofPrinted?, className_of_classOf hclass]
  | array element storage length ih =>
      obtain ⟨inner, hinner, hc⟩ := Result.bind_eq_ok.mp hc
      obtain rfl := Except.ok.inj hc
      unfold pointerTo
      split_ifs <;> exact (ih hinner).append_plain (Context.shows_plain (by decide))
  | bool =>
      obtain rfl := Except.ok.inj hc
      exact Context.shows_nil.supplied "bool" (.header .stdbool)
  | _ =>
      obtain rfl := Except.ok.inj hc
      exact Context.shows_nil.word _

theorem shows_declaration (ht : cx.target = .cFamily d) {ty : Ty} {name : String}
    (hc : declaration cx d ty (cx.localWord name) = .ok code) :
    cx.Shows (bareOf (Context.typeNames d ty) ++ [BareName.own name]) code := by
  obtain ⟨⟨lengths, base⟩, hdimensions, hc⟩ := Result.bind_eq_ok.mp hc
  obtain ⟨type, htype, hc⟩ := Result.bind_eq_ok.mp hc
  obtain rfl := Except.ok.inj hc
  have htype := shows_typeCode ht htype
  rw [typeNames_of_dimensions hdimensions] at htype
  have hname : cx.Shows [.own name] [cx.localWord name] := fun rest w => by
    simp [Context.localWord]
  have hdims : cx.Shows [] (lengths.flatMap fun n =>
      [.symbol "[", .number (toString n.toNat), .symbol "]"]) :=
    Context.shows_plain fun l hl => by
      obtain ⟨n, -, hl⟩ := List.mem_flatMap.mp hl
      simp only [List.mem_cons, List.not_mem_nil, or_false] at hl
      rcases hl with rfl | rfl | rfl <;> simp [Lexeme.isName, Lexeme.selects]
  refine Context.Shows.append ?_ (hname.append_plain hdims)
  unfold beforeName
  split_ifs
  · exact htype
  · exact htype.append_plain (Context.shows_plain (by decide))

theorem lists_constructCalls (depth : Nat) {place : Code} {places : List BareName}
    (hplace : cx.Shows places place) (ty : Ty) :
    (constructCalls cx depth place ty).Lists cx (constructionNames cx.program depth places ty) := by
  induction ty generalizing depth place places with
  | classStorage id =>
      refine Emit.lists_lift fun constructed hconstructed => ?_
      have hneeds : cx.program.needsConstruction id = .ok constructed := lookedUp_eq_ok hconstructed
      cases constructed with
      | false => simpa [constructionNames, hneeds] using Emit.lists_pure ()
      | true =>
          refine Emit.lists_lift fun c hclass => ?_
          simp only [constructionNames, hneeds]
          refine Emit.lists_line fun rest w => ?_
          simp [className_of_classOf hclass, Code.parenthesized, hplace.mem, or_assoc]
  | array element storage length ih =>
      cases storage with
      | false => exact Emit.lists_pure ()
      | true =>
          refine Emit.lists_lift fun constructed hconstructed => ?_
          have hholds : cx.program.holdsConstructed (.array element true length) =
              .ok constructed := lookedUp_eq_ok hconstructed
          cases constructed with
          | false => simpa [constructionNames, hholds] using Emit.lists_pure ()
          | true =>
              cases length with
              | none => exact Emit.lists_refused _
              | some n =>
                  have hinner : cx.Shows (places ++ [.counter depth])
                      (place ++ [.symbol "[", counter depth, .symbol "]"]) :=
                    hplace.append fun rest w => by simp [counter]
                  have hhead : (Emit.line (countingLoop (counter depth) n)).Lists cx
                      [.word "for", .word "int", .counter depth] :=
                    Emit.lists_line fun rest w => by
                      simp [countingLoop, counter]
                      tauto
                  simp only [constructionNames, hholds]
                  exact hhead.seq (ih (depth + 1) hinner).indented
  | _ => exact Emit.lists_pure ()

/-- The bare names of a local: those of its explicit initializer only if it is printed. -/
def localNames (cx : Context) (d : Dialect) (decl : VarDecl) : List BareName :=
  bareOf (Context.typeNames d decl.ty) ++ [.own decl.name] ++
    if decl.ty.isStorage then [] else decl.value.toList.flatMap cx.bareNames

theorem lists_declareLocal (ht : cx.target = .cFamily d) (decl : VarDecl) :
    (declareLocal cx d decl).Lists cx (localNames cx d decl) := by
  refine Emit.lists_lift fun type htype => (Emit.lists_put (shows_declaration ht htype)).seq ?_
  cases hstorage : decl.ty.isStorage with
  | true =>
      have hzeros : (Emit.put (Code.operator "=" ++
          [Lexeme.symbol "\x7b", Lexeme.gap, Lexeme.number "0", Lexeme.gap,
            Lexeme.symbol "\x7d"])).Lists cx [] :=
        Emit.lists_put (Context.shows_plain (by decide))
      rw [if_pos rfl, if_pos rfl]
      split
      · exact (Emit.lists_note _).seq hzeros
      · exact hzeros
  | false =>
      rw [if_neg Bool.false_ne_true, if_neg Bool.false_ne_true]
      cases decl.value with
      | none => exact Emit.lists_pure ()
      | some e =>
          refine Emit.lists_lift fun code hcode => Emit.lists_put ?_
          have hall := (Context.shows_operator "=" (by decide)).append
            (Context.shows_code e hcode)
          exact hall.of_eq (by simp)

end CFamily

namespace ActionScript

variable {cx : Context} {code : Code}

/-- The bare names in the spelling of a type. -/
def typeNames : Ty → List BareName
  | .void => [.word "void"]
  | .bool => [.word "Boolean"]
  | .int _ | .enumeration _ => [.word "int"]
  | .float _ => [.word "Number"]
  | .string => [.word "String"]
  | .null => []
  | .array element storage length =>
    [.word (if (Ty.array element storage length).isByteArray then "ByteArray" else "Array")]
  | .classStorage id | .classRef id => [.type id]

/-- The bare names in the value that a declaration of storage type constructs. -/
def impliedNames : Ty → List BareName
  | .classStorage id => [.word "new", .type id]
  | .array element true _ =>
    [.word "new", .word (if element = .int .byte then "ByteArray" else "Array")]
  | _ => []

/-- The bare names of a local. -/
def localNames (cx : Context) (decl : VarDecl) : List BareName :=
  .word "var" :: .own decl.name :: typeNames decl.ty ++
    if decl.ty.isStorage then impliedNames decl.ty else decl.value.toList.flatMap cx.bareNames

theorem shows_typeCode {ty : Ty} (hc : typeCode cx ty = .ok code) :
    cx.Shows (typeNames ty) code := by
  cases ty with
  | null => simp [typeCode, Context.unmappedType] at hc
  | int kind =>
      cases kind <;> simp only [typeCode, Context.unmappedType, reduceCtorEq] at hc <;>
        obtain rfl := Except.ok.inj hc <;> exact Context.shows_nil.word "int"
  | classStorage id | classRef id =>
      obtain ⟨c, hclass, hc⟩ := Result.bind_eq_ok.mp hc
      obtain rfl := Except.ok.inj hc
      exact fun rest w => by simp [typeNames, CFamily.className_of_classOf hclass]
  | array =>
      obtain ⟨inner, -, hc⟩ := Result.bind_eq_ok.mp hc
      obtain rfl := Except.ok.inj hc
      exact Context.shows_nil.word _
  | _ =>
      obtain rfl := Except.ok.inj hc
      exact Context.shows_nil.word _

theorem shows_impliedInitializer {ty : Ty} (hc : impliedInitializer cx ty = .ok (some code)) :
    ty.isStorage = true ∧ cx.Shows (impliedNames ty) code := by
  unfold impliedInitializer at hc
  split at hc
  case h_1 id =>
    obtain ⟨c, hclass, hc⟩ := Result.bind_eq_ok.mp hc
    obtain rfl := Option.some.inj (Except.ok.inj hc)
    refine ⟨rfl, fun rest w => ?_⟩
    simp [impliedNames, CFamily.className_of_classOf hclass, or_assoc]
  case h_2 element length =>
    obtain rfl := Option.some.inj (Except.ok.inj hc)
    refine ⟨rfl, fun rest w => ?_⟩
    by_cases hbyte : element = .int .byte <;> cases length <;>
      simp [impliedNames, hbyte, Code.parenthesized, or_assoc]
  case h_3 => simp [pure, Except.pure] at hc

/-- What follows the type in a declaration. -/
theorem lists_initializer (name : String) (ty : Ty) (value : Option Expr) :
    (initializer cx name ty value).Lists cx
      (if ty.isStorage then impliedNames ty else value.toList.flatMap cx.bareNames) := by
  have hequals : cx.Shows [] (Code.operator "=") := Context.shows_operator "=" (by decide)
  refine Emit.lists_lift fun implied himplied => ?_
  cases implied with
  | some init =>
      obtain ⟨hstorage, hinit⟩ := shows_impliedInitializer himplied
      rw [hstorage]
      have hinit : (Emit.put (Code.operator "=" ++ init)).Lists cx (impliedNames ty) :=
        Emit.lists_put (hequals.append hinit)
      have hnote : (if value.isSome then Emit.note (.initializerDropped cx.target name)
          else pure ()).Lists cx [] := by
        split
        · exact Emit.lists_note _
        · exact Emit.lists_pure ()
      exact (hinit.seq hnote).of_eq (by simp)
  | none =>
      rw [isStorage_of_impliedInitializer himplied]
      cases value with
      | none => exact Emit.lists_pure ()
      | some e =>
          refine Emit.lists_lift fun code hcode => Emit.lists_put ?_
          exact (hequals.append (Context.shows_code e hcode)).of_eq (by simp)

theorem lists_declareLocal (decl : VarDecl) :
    (declareLocal cx decl).Lists cx (localNames cx decl) := by
  refine Emit.lists_lift fun typed htyped => ?_
  obtain ⟨type, htype, htyped⟩ := Result.bind_eq_ok.mp htyped
  obtain rfl := Except.ok.inj htyped
  have hdeclared : cx.Shows (.word "var" :: .own decl.name :: typeNames decl.ty)
      ([Lexeme.word "var", Lexeme.gap] ++ (cx.localWord decl.name :: Code.operator ":" ++ type)) :=
    fun rest w => by
      simp [Context.localWord, Code.operator, (shows_typeCode htype).mem, or_assoc]
  exact (Emit.lists_put hdeclared).seq (lists_initializer decl.name decl.ty decl.value)

end ActionScript

namespace Context

/-- The bare names of an assignment. Integer division in place is printed as a quotient, or as a
call of the helper class where the place has effects. -/
def bareOfAssign (cx : Context) (target : Expr) (op : AssignOp) (value : Expr) : List BareName :=
  cx.bareNames target ++ cx.bareNames value ++
    if cx.target = .actionScript ∧ op = .div ∧ target.ty.isInteger then
      [.word (if target.hasSideEffect then "Ci" else "int")]
    else []

def bareOfLocal (cx : Context) (decl : VarDecl) : List BareName :=
  match cx.target with
  | .actionScript => ActionScript.localNames cx decl
  | .cFamily d => CFamily.localNames cx d decl

/-- The bare names of an expression, a local or an assignment. -/
def bareOfSimple (cx : Context) : Stmt → List BareName
  | .eval e => cx.bareNames e
  | .declare decl => cx.bareOfLocal decl
  | .assign target op value => cx.bareOfAssign target op value
  | _ => []

/-- The bare names in what follows a simple statement. -/
def bareAfter (cx : Context) : Stmt → List BareName
  | .declare decl =>
    match cx.target with
    | .actionScript => []
    | .cFamily _ => CFamily.constructionNames cx.program 0 [.own decl.name] decl.ty
  | _ => []

mutual

/-- The bare names in a printed statement. -/
def bareOfStmt (cx : Context) : Stmt → List BareName
  | .block stmts => bareOfBlock cx stmts
  | .eval e => cx.bareOfSimple (.eval e) ++ cx.bareAfter (.eval e)
  | .declare decl => cx.bareOfSimple (.declare decl) ++ cx.bareAfter (.declare decl)
  | .assign target op value =>
    cx.bareOfSimple (.assign target op value) ++ cx.bareAfter (.assign target op value)
  | .branch cond onTrue none => .word "if" :: cx.bareNames cond ++ bareOfStmt cx onTrue
  | .branch cond onTrue (some onFalse) =>
    .word "if" :: cx.bareNames cond ++ bareOfStmt cx onTrue ++
      .word "else" :: bareOfStmt cx onFalse
  | .whileLoop cond body => .word "while" :: cx.bareNames cond ++ bareOfStmt cx body
  | .doLoop body cond =>
    .word "do" :: bareOfStmt cx body ++ .word "while" :: cx.bareNames cond
  | .forLoop start cond advance body =>
    .word "for" :: start.toList.flatMap cx.bareOfSimple ++ cond.toList.flatMap cx.bareNames ++
      advance.toList.flatMap cx.bareOfSimple ++ bareOfStmt cx body
  | .breakLoop => [.word "break"]
  | .continueLoop => [.word "continue"]
  | .returnValue value => .word "return" :: value.toList.flatMap cx.bareNames
  | .throwError message =>
    (if cx.target = .actionScript then [.word "throw"] else []) ++ cx.bareNames message
  | .native _ => []

def bareOfBlock (cx : Context) : List Stmt → List BareName
  | [] => []
  | s :: rest => bareOfStmt cx s ++ bareOfBlock cx rest

end

variable {cx : Context} {code : Code}

theorem shows_assign {target value : Expr} {op : AssignOp}
    (hc : cx.assign target op value = .ok code) :
    cx.Shows (cx.bareOfAssign target op value) code := by
  have hplain : ∀ {code : Code}, (do
      return (← cx.code target) ++ Code.operator op.text ++ (← cx.code value) : Result Code) =
        .ok code → cx.Shows (cx.bareNames target ++ cx.bareNames value) code := by
    intro code hc
    obtain ⟨place, hplace, hc⟩ := Result.bind_eq_ok.mp hc
    obtain ⟨given, hgiven, hc⟩ := Result.bind_eq_ok.mp hc
    obtain rfl := Except.ok.inj hc
    exact ((shows_code target hplace).append_plain (shows_operator _ op.text_ne_selector)).append
      (shows_code value hgiven)
  have hoperand : ∀ e, (cx.operand e).Shows cx := fun e code hc => shows_code e hc
  unfold assign at hc
  unfold bareOfAssign
  cases ht : cx.target with
  | cFamily d =>
      simp only [ht] at hc
      simpa using hplain hc
  | actionScript =>
      simp only [ht] at hc
      unfold ActionScript.assign at hc
      by_cases hdiv : op = .div ∧ target.ty.isInteger = true
      · rw [if_pos hdiv] at hc
        rw [if_pos ⟨rfl, hdiv⟩]
        cases heffect : target.hasSideEffect with
        | false =>
            simp only [heffect, Bool.not_false, if_true] at hc
            obtain ⟨place, hplace, hc⟩ := Result.bind_eq_ok.mp hc
            obtain ⟨quotient, hquotient, hc⟩ := Result.bind_eq_ok.mp hc
            obtain rfl := Except.ok.inj hc
            have hquotient :=
              ActionScript.shows_quotient (hoperand target) (hoperand value) hquotient
            have hall := ((shows_code target hplace).append_plain
              (shows_operator "=" (by decide))).append hquotient
            refine hall.congr fun n => ?_
            simp [operand]
            tauto
        | true =>
            simp only [heffect, Bool.not_true, Bool.false_eq_true, if_false] at hc
            split at hc
            case h_1 array position ty =>
              have hargs : ∀ o ∈ [cx.operand array, cx.operand position, cx.operand value],
                  o.Shows cx := by simp [hoperand]
              have hown : cx.bareOwn (.index array position ty) = [] := by
                simp [bareOwn, ht, ActionScript.bareOwn]
              refine (ActionScript.shows_helperCall hargs hc).congr fun n => ?_
              simp [bareNames_eq cx (.index array position ty), hown, printedChildren,
                Expr.children, operand]
              tauto
            case h_2 => simp [unsupported] at hc
      · rw [if_neg hdiv] at hc
        have hnot : ¬(Target.actionScript = .actionScript ∧ op = .div ∧
            target.ty.isInteger = true) := fun h => hdiv h.2
        rw [if_neg hnot]
        simpa using hplain hc

theorem lists_simple (s : Stmt) : (cx.simple s).Lists cx (cx.bareOfSimple s) := by
  cases s with
  | eval e => exact Emit.lists_lift fun code hc => Emit.lists_put (shows_code e hc)
  | declare decl =>
      change (cx.declareLocal decl).Lists cx (cx.bareOfLocal decl)
      unfold declareLocal bareOfLocal
      cases ht : cx.target with
      | actionScript => exact ActionScript.lists_declareLocal decl
      | cFamily d => exact CFamily.lists_declareLocal ht decl
  | assign target op value =>
      exact Emit.lists_lift fun code hc => Emit.lists_put (shows_assign hc)
  | _ => exact Emit.lists_refused _

theorem lists_afterSimple (s : Stmt) : (cx.afterSimple s).Lists cx (cx.bareAfter s) := by
  cases s with
  | declare decl =>
      unfold afterSimple bareAfter
      cases ht : cx.target with
      | actionScript => exact Emit.lists_pure ()
      | cFamily d =>
          exact CFamily.lists_constructCalls 0 (fun rest w => by simp [localWord]) decl.ty
  | _ =>
      unfold afterSimple bareAfter
      cases cx.target <;> exact Emit.lists_pure ()

theorem lists_simpleLine (s : Stmt) :
    (cx.simpleLine s).Lists cx (cx.bareOfSimple s ++ cx.bareAfter s) := by
  have hend : (Emit.line [.symbol ";"]).Lists cx [] := Emit.lists_line (shows_plain (by decide))
  exact (lists_simple s).seq (hend.seq (lists_afterSimple s))

theorem lists_loopStart (s : Stmt) : (cx.loopStart s).Lists cx (cx.bareOfSimple s) := by
  unfold loopStart
  cases cx.target with
  | actionScript => exact (Emit.lists_pure ()).seq (lists_simple s)
  | cFamily d => exact Emit.lists_lift fun _ _ => lists_simple s

theorem lists_loopHead (start : Option Stmt) (cond : Option Expr) (advance : Option Stmt) :
    (cx.loopHead start cond advance).Lists cx
      (.word "for" :: start.toList.flatMap cx.bareOfSimple ++
        cond.toList.flatMap cx.bareNames ++ advance.toList.flatMap cx.bareOfSimple) := by
  have hsemicolon : (Emit.put [.symbol ";"]).Lists cx [] := Emit.lists_put (shows_plain (by decide))
  have hend : (Emit.put [.symbol ")"]).Lists cx [] := Emit.lists_put (shows_plain (by decide))
  have hgap : (Emit.put [.gap]).Lists cx [] := Emit.lists_put (shows_plain (by decide))
  have hfor : (Emit.put [.word "for", .gap, .symbol "("]).Lists cx [.word "for"] :=
    Emit.lists_put fun rest w => by simp
  have hstart : (cx.startClause start).Lists cx (start.toList.flatMap cx.bareOfSimple) := by
    cases start with
    | none => exact Emit.lists_pure ()
    | some s => exact (lists_loopStart s).of_eq (by simp)
  have hcond : (cx.condClause cond).Lists cx (cond.toList.flatMap cx.bareNames) := by
    cases cond with
    | none => exact Emit.lists_pure ()
    | some e =>
        refine Emit.lists_lift fun code hc => Emit.lists_put fun rest w => ?_
        simp [(shows_code e hc).mem]
  have hadvance : (cx.advanceClause advance).Lists cx
      (advance.toList.flatMap cx.bareOfSimple) := by
    cases advance with
    | none => exact Emit.lists_pure ()
    | some s => exact (hgap.seq (lists_simple s)).of_eq (by simp)
  rw [loopHead_eq]
  have hall := hfor.seq (hstart.seq (hsemicolon.seq (hcond.seq (hsemicolon.seq
    (hadvance.seq hend)))))
  exact hall.of_eq (by simp)

theorem lists_head (keyword : String) (cond : Expr) :
    (cx.head keyword cond).Lists cx (.word keyword :: cx.bareNames cond) := by
  refine Emit.lists_lift fun code hc => Emit.lists_put fun rest w => ?_
  simp [(shows_code cond hc).parenthesized.mem, or_assoc]

theorem lists_nested {printed : Emit Unit} {names : List BareName} (s : Stmt)
    (h : printed.Lists cx names) : (nested s printed).Lists cx names := by
  unfold nested
  split
  · exact (Emit.lists_put (shows_plain (by decide))).seq h
  · exact Emit.lists_newline.seq h.indented

theorem lists_alternative {printed : Emit Unit} {names : List BareName} (s : Stmt)
    (h : printed.Lists cx names) :
    (alternative s printed).Lists cx (.word "else" :: names) := by
  have helse : (Emit.put [.word "else"]).Lists cx [.word "else"] :=
    Emit.lists_put (shows_nil.word "else")
  refine helse.seq ?_
  split
  · exact (Emit.lists_put (shows_plain (by decide))).seq h
  · exact lists_nested s h

/-- A line of one keyword. -/
theorem lists_keywordLine (keyword : String) :
    (Emit.line [.word keyword, .symbol ";"]).Lists cx [.word keyword] :=
  Emit.lists_line fun rest w => by simp

/-- A word, and what may follow it on the line. -/
theorem lists_wordLine (keyword : String) (e : Expr) :
    Emit.Lists cx (.word keyword :: cx.bareNames e) (do
      Emit.line ([Lexeme.word keyword, Lexeme.gap] ++ (← cx.inline e) ++ [Lexeme.symbol ";"])) := by
  refine Emit.lists_lift fun code hc => Emit.lists_line fun rest w => ?_
  simp [(shows_code e hc).mem, or_assoc]

theorem lists_statements {stmts : List Stmt}
    (h : ∀ s ∈ stmts, (cx.statement s).Lists cx (cx.bareOfStmt s)) :
    (cx.statements stmts).Lists cx (cx.bareOfBlock stmts) := by
  induction stmts with
  | nil => exact Emit.lists_pure ()
  | cons s rest ih =>
      obtain ⟨hs, hrest⟩ := List.forall_mem_cons.mp h
      rw [statements, bareOfBlock]
      exact hs.seq (ih hrest)

/-- The bare names in a printed statement are those that are listed for it. -/
theorem lists_statement (s : Stmt) : (cx.statement s).Lists cx (cx.bareOfStmt s) := by
  induction s using Stmt.inductOn with
  | h s ih =>
  cases s with
  | block stmts =>
      rw [statement, bareOfStmt]
      exact (lists_statements ih).braced
  | eval e =>
      rw [statement, bareOfStmt]
      exact lists_simpleLine (.eval e)
  | declare decl =>
      rw [statement, bareOfStmt]
      exact lists_simpleLine (.declare decl)
  | assign target op value =>
      rw [statement, bareOfStmt]
      exact lists_simpleLine (.assign target op value)
  | branch cond onTrue onFalse =>
      have htrue := lists_nested onTrue (ih onTrue (by simp [Stmt.children]))
      cases onFalse with
      | none =>
          rw [statement, bareOfStmt]
          exact (lists_head "if" cond).seq htrue
      | some onFalse =>
          have hfalse := lists_alternative onFalse (ih onFalse (by simp [Stmt.children]))
          rw [statement, bareOfStmt]
          exact ((lists_head "if" cond).seq (htrue.seq hfalse)).of_eq (by simp)
  | whileLoop cond body =>
      rw [statement, bareOfStmt]
      exact (lists_head "while" cond).seq (lists_nested body (ih body (by simp [Stmt.children])))
  | doLoop body cond =>
      have hdo : (Emit.put [.word "do"]).Lists cx [.word "do"] :=
        Emit.lists_put (shows_nil.word "do")
      have hend : (Emit.line [.symbol ";"]).Lists cx [] :=
        Emit.lists_line (shows_plain (by decide))
      have hbody := lists_nested body (ih body (by simp [Stmt.children]))
      rw [statement, bareOfStmt]
      exact (hdo.seq (hbody.seq ((lists_head "while" cond).seq hend))).of_eq (by simp)
  | forLoop start cond advance body =>
      have hbody := lists_nested body (ih body (by simp [Stmt.children]))
      rw [statement, bareOfStmt]
      exact (lists_loopHead start cond advance).seq hbody
  | breakLoop | continueLoop =>
      rw [statement, bareOfStmt]
      exact lists_keywordLine _
  | returnValue value =>
      rw [statement, bareOfStmt]
      cases value with
      | none => exact lists_keywordLine "return"
      | some e => exact (lists_wordLine "return" e).of_eq (by simp)
  | native text =>
      rw [statement, bareOfStmt]
      exact Emit.lists_lines text
  | «throwError» message =>
      rw [statement, bareOfStmt]
      unfold thrown
      cases ht : cx.target with
      | actionScript => exact lists_wordLine "throw" _
      | cFamily d => exact Emit.lists_refused _

end Context

end Emitter
