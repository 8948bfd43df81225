import Emitter.Proofs.Names.Statement

/-!
# Names without a qualifier

A name in printed code is bare unless it stands behind a dot or an arrow. Listed here are the bare
names that an expression is to be printed with: those of its parameters and local variables, those
of what it refers to, and those that lowering brings in. A field is always behind its instance, so
it gives none.
-/

namespace Emitter

open Layout Number Program Text

namespace Layout

/-- The lexeme takes what follows it out of what stands before it. -/
def Lexeme.selects : Lexeme → Bool
  | symbol s => s = "." || s = "->"
  | _ => false

namespace Code

/-- The bare names in code that is `behind` a selector or not, in order. -/
def bareFrom : Bool → Code → List String
  | _, [] => []
  | behind, l :: rest => (if l.isName && !behind then [l.text] else []) ++ bareFrom l.selects rest

/-- The names in the code that are not behind a selector, in order. -/
def bare (code : Code) : List String := bareFrom false code

variable {code : Code}

@[simp] theorem bare_nil : bare [] = [] := rfl

@[simp] theorem bare_word (w : String) : bare (.word w :: code) = w :: code.bare := rfl

@[simp] theorem bare_supplied (name : String) (supplier : Supplier) :
    bare (.supplied name supplier :: code) = name :: code.bare := rfl

@[simp] theorem bare_number (s : String) : bare (.number s :: code) = code.bare := rfl

@[simp] theorem bare_quoted (s : String) : bare (.quoted s :: code) = code.bare := rfl

@[simp] theorem bare_gap : bare (.gap :: code) = code.bare := rfl

@[simp] theorem bare_symbol {s : String} (hdot : s ≠ ".") (harrow : s ≠ "->") :
    bare (.symbol s :: code) = code.bare := by
  simp [bare, bareFrom, Lexeme.isName, Lexeme.selects, hdot, harrow]

theorem bare_selected {s w : String} (h : s = "." ∨ s = "->") :
    bare (.symbol s :: .word w :: code) = code.bare := by
  rcases h with rfl | rfl <;> rfl

@[simp] theorem bare_dot_word (w : String) :
    bare (.symbol "." :: .word w :: code) = code.bare := rfl

@[simp] theorem bare_dot_supplied (name : String) (supplier : Supplier) :
    bare (.symbol "." :: .supplied name supplier :: code) = code.bare := rfl

@[simp] theorem bare_arrow_word (w : String) :
    bare (.symbol "->" :: .word w :: code) = code.bare := rfl

end Code

end Layout

namespace Program

@[simp] theorem BinaryOp.text_ne_selector (op : BinaryOp) : op.text ≠ "." ∧ op.text ≠ "->" := by
  cases op <;> decide

@[simp] theorem AssignOp.text_ne_selector (op : AssignOp) : op.text ≠ "." ∧ op.text ≠ "->" := by
  cases op <;> decide

@[simp] theorem UnaryOp.text_ne_selector (op : UnaryOp) : op.text ≠ "." ∧ op.text ≠ "->" := by
  cases op <;> decide

/-- The name a constant of a class is printed under, before the target's spelling. -/
def emittedName (p : Program) (owner : ClassId) (name : String) : String :=
  (((p.classes[owner.index.toNat]?).bind (·.findConst name)).map ConstDef.emittedName).getD name

end Program

/-- A bare name in printed code. -/
inductive BareName
  /-- A parameter or a local variable. -/
  | own (name : String)
  /-- The counter of a loop that constructs the elements of an array. -/
  | counter (depth : Nat)
  /-- A word of the language, or one that lowering brings in. -/
  | fixed (lexeme : Lexeme)
  /-- A method of the class that the code stands in. -/
  | method (name : String)
  | type (id : ClassId)
  | enumeration (id : EnumId)
  | function (owner : ClassId) (name : String)
  | constructor (id : ClassId)
  | constant (owner : ClassId) (name : String)
  | enumerator (id : EnumId) (index : UInt64)
  | resource (name : String)

namespace BareName

/-- The name as it is printed. -/
def text (cx : Context) : BareName → String
  | own name | method name => cx.target.localName name
  | counter depth => "_i" ++ toString depth
  | fixed l => l.text
  | type id => cx.program.className id
  | enumeration id => cx.program.enumName id
  | function owner name => CFamily.functionName (cx.program.className owner) name
  | constructor id => CFamily.constructName (cx.program.className id)
  | constant owner name =>
    match cx.target with
    | .actionScript => upperSnakeCase (cx.program.emittedName owner name)
    | .cFamily _ => cx.program.constantName owner name
  | enumerator id index => cx.program.enumeratorName id index
  | resource name => CFamily.resourceName name

/-- A word of the language. -/
abbrev word (w : String) : BareName := fixed (.word w)

section Text

variable {cx : Context}

@[simp] theorem text_own (name : String) : (own name).text cx = cx.target.localName name := rfl

@[simp] theorem text_fixed_word (w : String) : (fixed (.word w)).text cx = w := rfl

@[simp] theorem text_fixed_supplied (name : String) (supplier : Supplier) :
    (fixed (.supplied name supplier)).text cx = name := rfl

@[simp] theorem text_method (name : String) :
    (method name).text cx = cx.target.localName name := rfl

@[simp] theorem text_counter (depth : Nat) : (counter depth).text cx = "_i" ++ toString depth := rfl

@[simp] theorem text_type (id : ClassId) : (type id).text cx = cx.program.className id := rfl

@[simp] theorem text_enumeration (id : EnumId) :
    (enumeration id).text cx = cx.program.enumName id := rfl

@[simp] theorem text_function (owner : ClassId) (name : String) :
    (function owner name).text cx =
      CFamily.functionName (cx.program.className owner) name := rfl

@[simp] theorem text_constructor (id : ClassId) :
    (constructor id).text cx = CFamily.constructName (cx.program.className id) := rfl

theorem text_constant_of_cFamily {d : Dialect} (ht : cx.target = .cFamily d) (owner : ClassId)
    (name : String) : (constant owner name).text cx = cx.program.constantName owner name := by
  simp [text, ht]

theorem text_constant_of_actionScript (ht : cx.target = .actionScript) (owner : ClassId)
    (name : String) :
    (constant owner name).text cx = upperSnakeCase (cx.program.emittedName owner name) := by
  simp [text, ht]

end Text

/-- A name of the C family. One that is coined where it is printed refers to nothing else. -/
def ofPrinted? : PrintedName → Option BareName
  | .fixed l => some (fixed l)
  | .coined _ => none
  | .type id => some (type id)
  | .function owner name => some (function owner name)
  | .constructor id => some (constructor id)
  | .constant owner name => some (constant owner name)
  | .enumerator id index => some (enumerator id index)
  | .resource name => some (resource name)

@[simp] theorem ofPrinted?_fixed (l : Lexeme) : ofPrinted? (.fixed l) = some (fixed l) := rfl

@[simp] theorem ofPrinted?_coined (w : String) : ofPrinted? (.coined w) = none := rfl

@[simp] theorem ofPrinted?_function (owner : ClassId) (name : String) :
    ofPrinted? (.function owner name) = some (function owner name) := rfl

theorem text_of_ofPrinted? {cx : Context} {d : Dialect} (ht : cx.target = .cFamily d)
    {n : PrintedName} {b : BareName} (h : ofPrinted? n = some b) :
    b.text cx = (n.lexeme cx.program).text := by
  cases n <;> cases h <;> simp [text, PrintedName.lexeme, Lexeme.text, ht]

end BareName

namespace CFamily

/-- The bare names that an expression is printed with, besides those in its operands. -/
def bareOwn (cx : Context) (d : Dialect) (e : Expr) : List BareName :=
  match e with
  | .var name _ => [.own name]
  | e => (own cx d e).filterMap BareName.ofPrinted?

end CFamily

namespace ActionScript

def floatNames (x : Binary64) : List BareName :=
  if x.isNaN then [.word "NaN"] else if x.isInfinite then [.word "Infinity"] else []

def literalNames : Literal → List BareName
  | .float x => floatNames x
  | .bool b => [.word (if b then "true" else "false")]
  | .null => [.word "null"]
  | .int _ | .str _ => []

mutual

def valueNames : ConstValue → List BareName
  | .float x => floatNames x
  | .bool b => [.word (if b then "true" else "false")]
  | .enumValue id _ => [.enumeration id]
  | .array items => itemNames items
  | .int _ | .str _ => []

def itemNames : List ConstValue → List BareName
  | [] => []
  | item :: rest => valueNames item ++ itemNames rest

end

/-- The bare names of a constant: those of its value where that takes its place. -/
def constantNames (cx : Context) (owner : ClassId) (name : String) : List BareName :=
  match cx.inlined? owner name with
  | some k => valueNames k.value
  | none => [if cx.current = some owner then .constant owner name else .type owner]

/-- The functions and classes that a built-in method is printed with. -/
def methodNames (args : List Expr) : BuiltinMethod → List BareName
  | .mulDiv => [.word "int"]
  | .substring => if args.head?.any Expr.hasSideEffect then [.word "Ci"] else []
  | .arrayCopyTo | .arrayToString | .arrayClear => [.word "Ci"]
  | .consoleWriteLine => [.word "trace"]
  | .mathAbs | .mathSqrt => [.word "Math"]
  | .charAt | .consoleWrite => []

/-- The bare names that an expression is printed with, besides those in its operands. A method
without a receiver is one of the class itself, unless it is a static one of another class. -/
def bareOwn (cx : Context) : Expr → List BareName
  | .literal value _ => literalNames value
  | .var name _ => [.own name]
  | .this _ => [.word "this"]
  | .const owner name _ => constantNames cx owner name
  | .enumValue id _ _ => [.enumeration id]
  | .call none (.user owner name isStatic) _ _ =>
    [if isStatic ∧ cx.current ≠ some owner then .type owner else .method name]
  | .call _ (.builtin m) args _ => methodNames args m
  | .binary _ op _ ty => if op = .div ∧ ty.isInteger then [.word "int"] else []
  | _ => []

end ActionScript

namespace Context

/-- The bare names that an expression is printed with, besides those in its operands. -/
def bareOwn (cx : Context) (e : Expr) : List BareName :=
  match cx.target with
  | .actionScript => ActionScript.bareOwn cx e
  | .cFamily d => CFamily.bareOwn cx d e

/-- The bare names in the printed form of an expression. -/
def bareNames (cx : Context) (e : Expr) : List BareName :=
  cx.bareOwn e ++ (cx.printedChildren e).attach.flatMap fun ⟨child, h⟩ =>
    have := sizeOf_lt_of_mem_printedChildren h
    bareNames cx child
termination_by e

theorem bareNames_eq (cx : Context) (e : Expr) :
    cx.bareNames e = cx.bareOwn e ++ (cx.printedChildren e).flatMap cx.bareNames := by
  rw [bareNames]
  simp [List.flatMap_subtype]

theorem bareOwn_subset (cx : Context) (e : Expr) : cx.bareOwn e ⊆ cx.bareNames e := by
  rw [bareNames_eq]
  exact List.subset_append_left ..

/-- What holds of the bare names of single constructs holds of all bare names of an expression. -/
theorem forall_bareNames {cx : Context} {P : BareName → Prop} (h : ∀ e, ∀ n ∈ cx.bareOwn e, P n)
    (e : Expr) : ∀ n ∈ cx.bareNames e, P n := by
  intro n hn
  rw [bareNames_eq] at hn
  rcases List.mem_append.mp hn with hn | hn
  · exact h e n hn
  · obtain ⟨child, hchild, hn⟩ := List.mem_flatMap.mp hn
    have := sizeOf_lt_of_mem_printedChildren hchild
    exact forall_bareNames h child n hn
termination_by e

/-! Whether a name stands bare depends on what is in front of it. So code is looked at in front of
any other code, and what it shows adds up along `++`. -/

/-- In front of any other code, the code has exactly these bare names. -/
def Shows (cx : Context) (names : List BareName) (code : Code) : Prop :=
  ∀ (rest : Code) (w : String),
    w ∈ (code ++ rest).bare ↔ (∃ n ∈ names, w = n.text cx) ∨ w ∈ rest.bare

variable {cx : Context} {names names' : List BareName} {code code' rest : Code} {w : String}

theorem Shows.mem (h : cx.Shows names code) :
    w ∈ (code ++ rest).bare ↔ (∃ n ∈ names, w = n.text cx) ∨ w ∈ rest.bare := h rest w

theorem Shows.mem_bare (h : cx.Shows names code) :
    w ∈ code.bare ↔ ∃ n ∈ names, w = n.text cx := by
  simpa using h [] w

theorem shows_nil : cx.Shows [] [] := by simp [Shows]

theorem Shows.append (h : cx.Shows names code) (h' : cx.Shows names' code') :
    cx.Shows (names ++ names') (code ++ code') := by
  intro rest w
  simp [h.mem, h'.mem, or_and_right, exists_or, or_assoc]

theorem Shows.append_plain (h : cx.Shows names code) (h' : cx.Shows [] code') :
    cx.Shows names (code ++ code') := by
  simpa using h.append h'

/-- Code without names and selectors. -/
theorem shows_plain (h : ∀ l ∈ code, l.isName = false ∧ l.selects = false) : cx.Shows [] code := by
  intro rest w
  induction code with
  | nil => simp
  | cons l code ih =>
      obtain ⟨⟨hname, hselects⟩, hcode⟩ := List.forall_mem_cons.mp h
      simpa [Code.bare, Code.bareFrom, hname, hselects] using ih hcode

theorem Shows.congr (h : cx.Shows names code) (hmem : ∀ n, n ∈ names ↔ n ∈ names') :
    cx.Shows names' code := by
  intro rest w
  simp [h.mem, hmem]

theorem Shows.of_eq (h : cx.Shows names code) (heq : names = names') : cx.Shows names' code :=
  heq ▸ h

theorem Shows.word (h : cx.Shows names code) (w : String) :
    cx.Shows (.word w :: names) (.word w :: code) := by
  intro rest w
  simp [h.mem, or_assoc]

theorem Shows.supplied (h : cx.Shows names code) (name : String) (supplier : Supplier) :
    cx.Shows (.fixed (.supplied name supplier) :: names) (.supplied name supplier :: code) := by
  intro rest w
  simp [h.mem, or_assoc]

theorem Shows.parenthesized (h : cx.Shows names code) :
    cx.Shows names (Code.parenthesized code) := by
  intro rest w
  simp [Code.parenthesized, h.mem]

theorem shows_operator (text : String) (h : text ≠ "." ∧ text ≠ "->") :
    cx.Shows [] (Code.operator text) := by
  intro rest w
  simp [Code.operator, h]

theorem shows_integer (n : Int) : cx.Shows [] (Code.integer n) := by
  intro rest w
  unfold Code.integer
  split_ifs <;> simp

theorem shows_finiteFloat (x : Binary64) : cx.Shows [] (finiteFloat x) := by
  intro rest w
  unfold finiteFloat
  split_ifs <;> simp

/-- Pieces with commas between them. -/
theorem shows_commaSeparated {namess : List (List BareName)} {pieces : List Code}
    (h : List.Forall₂ cx.Shows namess pieces) :
    cx.Shows namess.flatten (Code.commaSeparated pieces) := by
  unfold Code.commaSeparated
  induction h with
  | nil => exact shows_nil
  | @cons names piece namess pieces hpiece hrest ih =>
      cases hrest with
      | nil => simpa using hpiece
      | cons hnext hrest =>
          have hcomma : cx.Shows [] Code.comma := fun rest w => by simp [Code.comma]
          simpa using hpiece.append (hcomma.append ih)

/-- Names of the C family, none of them coined. -/
theorem shows_of_names {d : Dialect} (ht : cx.target = .cFamily d) {ns : List PrintedName}
    (hcode : ∀ rest : Code, (code ++ rest).bare =
      ns.map (fun n => (n.lexeme cx.program).text) ++ rest.bare)
    (hns : ∀ n ∈ ns, (BareName.ofPrinted? n).isSome = true) :
    cx.Shows (ns.filterMap BareName.ofPrinted?) code := by
  intro rest w
  rw [hcode, List.mem_append, List.mem_map]
  refine or_congr_left ⟨?_, ?_⟩
  · rintro ⟨n, hn, rfl⟩
    obtain ⟨b, hb⟩ := Option.isSome_iff_exists.mp (hns n hn)
    exact ⟨b, List.mem_filterMap.mpr ⟨n, hn, hb⟩, (BareName.text_of_ofPrinted? ht hb).symm⟩
  · rintro ⟨b, hb, rfl⟩
    obtain ⟨n, hn, hb⟩ := List.mem_filterMap.mp hb
    exact ⟨n, hn, (BareName.text_of_ofPrinted? ht hb).symm⟩

end Context

/-- The operand's printed form has the bare names of its expression. -/
def Operand.Shows (cx : Context) (o : Operand) : Prop :=
  ∀ code, o.code = .ok code → cx.Shows (cx.bareNames o.expr) code

namespace Operand

variable {cx : Context} {o left right : Operand} {os : List Operand} {code : Code}

theorem Shows.parenthesized (h : o.Shows cx) (hc : o.parenthesized = .ok code) :
    cx.Shows (cx.bareNames o.expr) code := by
  obtain ⟨inner, hinner, rfl⟩ := Result.map_eq_ok.mp hc
  exact (h inner hinner).parenthesized

theorem Shows.atLeast (h : o.Shows cx) {least : Priority} (hc : o.atLeast least = .ok code) :
    cx.Shows (cx.bareNames o.expr) code := by
  unfold Operand.atLeast at hc
  split_ifs at hc
  · exact h.parenthesized hc
  · exact h code hc

theorem Shows.above (h : o.Shows cx) {bound : Priority} (hc : o.above bound = .ok code) :
    cx.Shows (cx.bareNames o.expr) code := by
  unfold Operand.above at hc
  split_ifs at hc
  · exact h.parenthesized hc
  · exact h code hc

theorem Shows.infixed (h : left.Shows cx) (h' : right.Shows cx) {op : BinaryOp}
    (hc : left.infixed op right = .ok code) :
    cx.Shows (cx.bareNames left.expr ++ cx.bareNames right.expr) code := by
  obtain ⟨first, hfirst, hc⟩ := Result.bind_eq_ok.mp hc
  obtain ⟨second, hsecond, hc⟩ := Result.bind_eq_ok.mp hc
  obtain rfl := Except.ok.inj hc
  have hall := ((h.atLeast hfirst).append (Context.shows_operator _ op.text_ne_selector)).append
    (h'.above hsecond)
  exact hall.of_eq (by simp)

theorem Shows.indexed (h : left.Shows cx) (h' : right.Shows cx)
    (hc : left.indexed right = .ok code) :
    cx.Shows (cx.bareNames left.expr ++ cx.bareNames right.expr) code := by
  obtain ⟨array, harray, hc⟩ := Result.bind_eq_ok.mp hc
  obtain ⟨position, hposition, hc⟩ := Result.bind_eq_ok.mp hc
  obtain rfl := Except.ok.inj hc
  intro rest w
  simp [(h.atLeast harray).mem, (h' position hposition).mem, or_and_right, exists_or, or_assoc]

theorem Shows.selected {cond : Operand} (hcond : cond.Shows cx) (h : left.Shows cx)
    (h' : right.Shows cx) (hc : cond.selected left right = .ok code) :
    cx.Shows (cx.bareNames cond.expr ++ cx.bareNames left.expr ++ cx.bareNames right.expr)
      code := by
  obtain ⟨first, hfirst, hc⟩ := Result.bind_eq_ok.mp hc
  obtain ⟨second, hsecond, hc⟩ := Result.bind_eq_ok.mp hc
  obtain ⟨third, hthird, hc⟩ := Result.bind_eq_ok.mp hc
  obtain rfl := Except.ok.inj hc
  intro rest w
  simp [Code.operator, (hcond.atLeast hfirst).mem, (h.atLeast hsecond).mem,
    (h'.atLeast hthird).mem, or_and_right, exists_or, or_assoc]

theorem Shows.unary (h : o.Shows cx) {op : UnaryOp} (hc : Context.unary op o = .ok code) :
    cx.Shows (cx.bareNames o.expr) code := by
  unfold Context.unary at hc
  split_ifs at hc
  · obtain ⟨base, hbase, hc⟩ := Result.bind_eq_ok.mp hc
    obtain rfl := Except.ok.inj hc
    intro rest w
    simp [(h.atLeast hbase).mem]
  · obtain ⟨inner, hinner, rfl⟩ := Operand.prefixed_eq_ok hc
    have hshows : cx.Shows (cx.bareNames o.expr) inner := by
      split_ifs at hinner
      · exact h.parenthesized hinner
      · exact h.atLeast hinner
    intro rest w
    simp [hshows.mem]

/-- Operands that are printed in places of their own. -/
theorem forall₂_mapM {f : Operand → List BareName} {place : Operand → Result Code}
    {pieces : List Code}
    (hplace : ∀ o ∈ os, ∀ code, place o = .ok code → cx.Shows (f o) code)
    (hc : os.mapM place = .ok pieces) : List.Forall₂ cx.Shows (os.map f) pieces := by
  have hall := (List.forall₂_and_left _ _).mpr ⟨hplace, Result.forall₂_of_mapM_eq_ok hc⟩
  exact List.forall₂_map_left_iff.mpr (hall.imp fun o code h => h.1 code h.2)

theorem shows_arguments (h : ∀ o ∈ os, o.Shows cx) (hc : arguments os = .ok code) :
    cx.Shows (os.flatMap fun o => cx.bareNames o.expr) code := by
  obtain ⟨pieces, hpieces, hc⟩ := Result.bind_eq_ok.mp hc
  obtain rfl := Except.ok.inj hc
  have hpieces := forall₂_mapM (fun o ho _ => (h o ho).atLeast) hpieces
  exact (Context.shows_commaSeparated hpieces).parenthesized

end Operand

end Emitter
