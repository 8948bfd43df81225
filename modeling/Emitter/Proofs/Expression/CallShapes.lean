import Emitter.Proofs.Printf.Arguments

/-!
# The shape of a call

A built-in method is defined with or without a receiver and for certain numbers of arguments. A
target prints a call of that shape with each of its parts in a place of its own, and refuses a call
of any other shape; only three methods of ActionScript are printed with any number of arguments.
-/

namespace Emitter.Program.BuiltinMethod

/-- The method is called on an object. -/
def takesReceiver : BuiltinMethod → Bool
  | consoleWrite | consoleWriteLine | mathAbs | mathSqrt => false
  | _ => true

/-- How many arguments the method is defined for. -/
def argumentCounts : BuiltinMethod → List Nat
  | mulDiv | substring | arrayToString => [2]
  | charAt | mathAbs | mathSqrt => [1]
  | arrayCopyTo => [4]
  | arrayClear => [0]
  | consoleWrite | consoleWriteLine => [0, 1]

/-- A call of the method has the shape of its definition. -/
def Fits (m : BuiltinMethod) (hasReceiver : Bool) (count : Nat) : Prop :=
  hasReceiver = m.takesReceiver ∧ count ∈ m.argumentCounts

instance (m : BuiltinMethod) (hasReceiver : Bool) (count : Nat) :
    Decidable (m.Fits hasReceiver count) :=
  inferInstanceAs (Decidable (_ ∧ _))

end Emitter.Program.BuiltinMethod

namespace Emitter

open Layout Program

/-- The pieces stand in the list one after the other, each in a place of its own. -/
def InTurn {α : Type} : List (List α) → List α → Prop
  | [], _ => True
  | piece :: pieces, whole => ∃ before after, whole = before ++ piece ++ after ∧ InTurn pieces after

namespace InTurn

variable {α : Type} {pieces more : List (List α)} {whole other : List α}

theorem behind (front : List α) (h : InTurn pieces whole) : InTurn pieces (front ++ whole) := by
  cases pieces with
  | nil => trivial
  | cons piece pieces =>
      obtain ⟨before, after, rfl, hrest⟩ := h
      exact ⟨front ++ before, after, by simp, hrest⟩

theorem append (h : InTurn pieces whole) (h' : InTurn more other) :
    InTurn (pieces ++ more) (whole ++ other) := by
  induction pieces generalizing whole with
  | nil => exact h'.behind whole
  | cons piece pieces ih =>
      obtain ⟨before, after, rfl, hrest⟩ := h
      exact ⟨before, after ++ other, by simp, ih hrest⟩

theorem singleton (piece : List α) : InTurn [piece] piece := ⟨[], [], by simp, trivial⟩

end InTurn

/-- The printed forms of the operands stand in the code one after the other. -/
def Layout.Code.Carries (code : Code) (os : List Operand) : Prop :=
  ∃ pieces, List.Forall₂ (fun o piece => Operand.code o = .ok piece) os pieces ∧ InTurn pieces code

namespace Layout.Code.Carries

variable {code other : Code} {os more : List Operand}

theorem nil (code : Code) : code.Carries [] := ⟨[], .nil, trivial⟩

theorem append (h : code.Carries os) (h' : other.Carries more) :
    Carries (code ++ other) (os ++ more) := by
  obtain ⟨pieces, hpieces, hturn⟩ := h
  obtain ⟨others, hothers, hturn'⟩ := h'
  exact ⟨pieces ++ others, List.rel_append hpieces hothers, hturn.append hturn'⟩

theorem behind (front : Code) (h : code.Carries os) : Carries (front ++ code) os :=
  append (nil front) h

theorem before (h : code.Carries os) (rest : Code) : Carries (code ++ rest) os := by
  simpa using append h (nil rest)

theorem parenthesized (h : code.Carries os) : Carries code.parenthesized os :=
  (h.before [.symbol ")"]).behind [.symbol "("]

theorem commaSeparated {codes : List Code} {oss : List (List Operand)}
    (h : List.Forall₂ Layout.Code.Carries codes oss) :
    Carries (Code.commaSeparated codes) oss.flatten := by
  induction h with
  | nil => exact nil _
  | @cons piece os codes oss hpiece hpieces ih =>
      cases hpieces with
      | nil => simpa [Code.commaSeparated] using hpiece
      | cons hnext hrest =>
          simpa [Code.commaSeparated] using hpiece.append (ih.behind Code.comma)

end Layout.Code.Carries

namespace Operand

variable {o left right : Operand} {code : Code}

theorem carries_code (hc : o.code = .ok code) : code.Carries [o] :=
  ⟨[code], .cons hc .nil, .singleton code⟩

theorem carries_parenthesized (hc : o.parenthesized = .ok code) : code.Carries [o] := by
  obtain ⟨inner, hinner, rfl⟩ := Result.map_eq_ok.mp hc
  exact (carries_code hinner).parenthesized

theorem carries_atLeast {least : Priority} (hc : o.atLeast least = .ok code) :
    code.Carries [o] := by
  unfold atLeast at hc
  split_ifs at hc
  · exact carries_parenthesized hc
  · exact carries_code hc

theorem carries_above {bound : Priority} (hc : o.above bound = .ok code) : code.Carries [o] := by
  unfold above at hc
  split_ifs at hc
  · exact carries_parenthesized hc
  · exact carries_code hc

theorem carries_infixed {op : BinaryOp} (hc : left.infixed op right = .ok code) :
    code.Carries [left, right] := by
  obtain ⟨first, hfirst, hc⟩ := Result.bind_eq_ok.mp hc
  obtain ⟨second, hsecond, hc⟩ := Result.bind_eq_ok.mp hc
  obtain rfl := Except.ok.inj hc
  exact ((carries_atLeast hfirst).before _).append (carries_above hsecond)

theorem carries_indexed (hc : left.indexed right = .ok code) : code.Carries [left, right] := by
  obtain ⟨array, harray, hc⟩ := Result.bind_eq_ok.mp hc
  obtain ⟨position, hposition, hc⟩ := Result.bind_eq_ok.mp hc
  obtain rfl := Except.ok.inj hc
  exact ((carries_atLeast harray).append
    ((carries_code hposition).behind [Lexeme.symbol "["])).before _

/-- A product of what is printed and a factor, over a divisor. -/
theorem carries_quotient {product first second : Code} {os : List Operand}
    (h : product.Carries os) (hfirst : left.atLeast .mul = .ok first)
    (hsecond : right.above .mul = .ok second) :
    Code.Carries (product ++ Code.operator "*" ++ first ++ Code.operator "/" ++ second)
      (os ++ [left] ++ [right]) :=
  (((h.before _).append (carries_atLeast hfirst)).before _).append (carries_above hsecond)

/-- Operands that are printed in positions of their own, with commas between them. -/
theorem carries_mapM {place : Operand → Result Code} {os : List Operand} {pieces : List Code}
    (h : ∀ o code, place o = .ok code → code.Carries [o]) (hc : os.mapM place = .ok pieces) :
    Code.Carries (Code.commaSeparated pieces) os := by
  have hall := (Result.forall₂_of_mapM_eq_ok hc).imp fun o piece => h o piece
  have hsingle : List.Forall₂ Code.Carries pieces (os.map fun o => [o]) :=
    List.forall₂_map_right_iff.mpr hall.flip
  simpa [← List.flatMap_def] using Code.Carries.commaSeparated hsingle

theorem carries_arguments {os : List Operand} (hc : arguments os = .ok code) : code.Carries os := by
  obtain ⟨pieces, hpieces, hc⟩ := Result.bind_eq_ok.mp hc
  obtain rfl := Except.ok.inj hc
  exact (carries_mapM (fun _ _ => carries_atLeast) hpieces).parenthesized

/-- Operands that are printed are printed in a place of any priority. -/
theorem exists_mapM_atLeast {least : Priority} {os : List Operand}
    (h : ∀ o ∈ os, ∃ shown, o.code = .ok shown) :
    ∃ pieces, os.mapM (atLeast least) = .ok pieces := by
  induction os with
  | nil => exact ⟨[], rfl⟩
  | cons o rest ih =>
      obtain ⟨⟨shown, hshown⟩, hrest⟩ := List.forall_mem_cons.mp h
      obtain ⟨pieces, hpieces⟩ := ih hrest
      obtain ⟨piece, hpiece⟩ : ∃ piece, o.atLeast least = .ok piece := by
        unfold atLeast parenthesized
        split_ifs
        · exact ⟨_, by rw [hshown]; rfl⟩
        · exact ⟨shown, hshown⟩
      exact ⟨piece :: pieces, by rw [List.mapM_cons, hpiece, hpieces]; rfl⟩

end Operand

/-- The message names the method, or gives the reason of the targets that print by `printf`. -/
def Refusal.Concerns (m : BuiltinMethod) (refusal : Refusal) : Prop :=
  (∃ before after, refusal.message = before ++ m.name ++ after) ∨
    m.argumentCounts = [0, 1] ∧ ∃ target, refusal = .unsupported target .printArguments

/-- The call is refused for what it calls. -/
def Refuses (m : BuiltinMethod) (result : Result Code) : Prop :=
  ∃ refusal, result = .error (.refused refusal) ∧ refusal.Concerns m

namespace Refuses

variable (cx : Context) (m : BuiltinMethod)

theorem argumentCount (count : Nat) : Refuses m (cx.unsupported (.argumentCount m count)) := by
  refine ⟨_, rfl, .inl ⟨cx.target.name ++ ": " ++ "`",
    "` called with " ++ toString count ++ " argument(s)", ?_⟩⟩
  change cx.target.name ++ ": " ++
    ("`" ++ m.name ++ "` called with " ++ toString count ++ " argument(s)") = _
  simp only [String.append_assoc]

theorem receiver : Refuses m (cx.unsupported (.receiver m)) := by
  refine ⟨_, rfl, .inl ⟨cx.target.name ++ ": " ++ "`", "` needs a receiver", ?_⟩⟩
  change cx.target.name ++ ": " ++ ("`" ++ m.name ++ "` needs a receiver") = _
  simp only [String.append_assoc]

theorem unmapped : Refuses m (cx.unmappedMethod m) :=
  ⟨_, rfl, .inl ⟨cx.target.name ++ ": built-in `", "` is not supported on this target", rfl⟩⟩

theorem printArguments (h : m.argumentCounts = [0, 1]) :
    Refuses m (cx.unsupported .printArguments) :=
  ⟨_, rfl, .inr ⟨h, _, rfl⟩⟩

end Refuses

namespace ActionScript

variable {cx : Context} {code : Code}

theorem carries_helperCall {helper : Helper} {name : String} {os : List Operand}
    (hc : helperCall helper name os = .ok code) : code.Carries os := by
  obtain ⟨args, hargs, hc⟩ := Result.bind_eq_ok.mp hc
  obtain rfl := Except.ok.inj hc
  exact (Operand.carries_arguments hargs).behind _

theorem carries_mathCall {name : String} {os : List Operand} (hc : mathCall name os = .ok code) :
    code.Carries os := by
  obtain ⟨args, hargs, hc⟩ := Result.bind_eq_ok.mp hc
  obtain rfl := Except.ok.inj hc
  exact (Operand.carries_arguments hargs).behind _

theorem carries_substring {obj start length : Operand}
    (hc : substring obj start length = .ok code) : code.Carries [obj, start, length] := by
  unfold substring at hc
  split_ifs at hc
  · exact carries_helperCall hc
  · obtain ⟨receiver, hreceiver, hc⟩ := Result.bind_eq_ok.mp hc
    obtain ⟨first, hfirst, hc⟩ := Result.bind_eq_ok.mp hc
    obtain ⟨last, hlast, hc⟩ := Result.bind_eq_ok.mp hc
    obtain rfl := Except.ok.inj hc
    -- The end of the range prints the start once more, so the length is looked for behind it.
    have hlength : last.Carries [length] := by
      obtain ⟨left, -, hlast⟩ := Result.bind_eq_ok.mp hlast
      obtain ⟨right, hright, hlast⟩ := Result.bind_eq_ok.mp hlast
      obtain rfl := Except.ok.inj hlast
      exact (Operand.carries_above hright).behind _
    have hrange := Code.Carries.commaSeparated
      (.cons (Operand.carries_atLeast hfirst) (.cons hlength .nil))
    exact ((Operand.carries_atLeast hreceiver).before _).append hrange.parenthesized

/-- A method of a receiver prints the receiver and then the arguments. -/
theorem carries_method {obj : Operand} {m : BuiltinMethod} {args : List Operand}
    (hc : method cx obj m args = .ok code) : code.Carries (obj :: args) := by
  unfold method at hc
  split at hc
  case h_1 factor divisor =>
    obtain ⟨first, hfirst, hc⟩ := Result.bind_eq_ok.mp hc
    obtain ⟨second, hsecond, hc⟩ := Result.bind_eq_ok.mp hc
    obtain ⟨third, hthird, hc⟩ := Result.bind_eq_ok.mp hc
    obtain rfl := Except.ok.inj hc
    have hproduct := (Operand.carries_atLeast hfirst).behind [Lexeme.word "int", .symbol "("]
    exact (Operand.carries_quotient hproduct hsecond hthird).before _
  case h_2 position =>
    obtain ⟨base, hbase, hc⟩ := Result.bind_eq_ok.mp hc
    obtain ⟨inner, hinner, hc⟩ := Result.bind_eq_ok.mp hc
    obtain rfl := Except.ok.inj hc
    exact ((Operand.carries_atLeast hbase).before _).append
      (Operand.carries_code hinner).parenthesized
  case h_3 => exact carries_substring hc
  case h_4 => exact carries_helperCall hc
  case h_5 => exact carries_helperCall hc
  case h_6 =>
    obtain ⟨inner, hinner, hc⟩ := Result.bind_eq_ok.mp hc
    obtain rfl := Except.ok.inj hc
    exact (Operand.carries_parenthesized hinner).behind _
  case h_7 => simp [Context.unsupported] at hc

/-- A method of a receiver is refused where its arguments are not as many as it takes. -/
theorem refuses_method (obj : Operand) {m : BuiltinMethod} {args : List Operand}
    (h : ¬m.Fits true args.length) : Refuses m (method cx obj m args) := by
  unfold method
  split
  case h_7 => exact .argumentCount cx m _
  all_goals exact absurd ⟨rfl, by simp [BuiltinMethod.argumentCounts]⟩ h

/-- The methods that are printed with any number of arguments, as functions without a receiver. -/
def acceptsAny (m : BuiltinMethod) : Bool :=
  m = .consoleWriteLine || m = .mathAbs || m = .mathSqrt

/-- The arguments that a call of the method prints: `trace` is given the first one only. -/
def kept {α : Type} (m : BuiltinMethod) (args : List α) : List α :=
  if m = .consoleWriteLine then args.take 1 else args

theorem kept_map {α β : Type} (f : α → β) (m : BuiltinMethod) (args : List α) :
    kept m (args.map f) = (kept m args).map f := by
  unfold kept
  split_ifs
  · exact List.map_take.symm
  · rfl

theorem carries_builtinCall {receiver : Option Operand} {m : BuiltinMethod} {args : List Operand}
    (hc : builtinCall cx receiver m args = .ok code) :
    code.Carries (receiver.toList ++ kept m args) := by
  unfold builtinCall at hc
  split at hc
  case h_2 obj hwrite =>
    have hline : m ≠ .consoleWriteLine := by
      rintro rfl
      simp [method, Context.unsupported] at hc
    rw [kept, if_neg hline]
    exact carries_method hc
  case h_3 =>
    rcases args with _ | ⟨arg, rest⟩
    · exact .nil _
    · obtain ⟨shown, hshown, hc⟩ := Result.bind_eq_ok.mp hc
      obtain rfl := Except.ok.inj hc
      exact (Operand.carries_code hshown).parenthesized.behind [_]
  case h_4 => exact carries_mathCall hc
  case h_5 => exact carries_mathCall hc
  all_goals simp [Context.unmappedMethod, Context.unsupported] at hc

theorem refuses_builtinCall {receiver : Option Operand} {m : BuiltinMethod} {args : List Operand}
    (h : ¬m.Fits receiver.isSome args.length) (hany : ¬(receiver = none ∧ acceptsAny m = true)) :
    Refuses m (builtinCall cx receiver m args) := by
  unfold builtinCall
  split
  case h_1 => exact .unmapped cx _
  case h_2 obj _ => exact refuses_method obj h
  case h_6 => exact .receiver cx m
  all_goals exact absurd ⟨rfl, rfl⟩ hany

/-- Any number of arguments is printed. -/
theorem exists_builtinCall {m : BuiltinMethod} {args : List Operand} (hany : acceptsAny m = true)
    (hargs : ∀ o ∈ kept m args, ∃ shown, o.code = .ok shown) :
    ∃ code, builtinCall cx none m args = .ok code := by
  have hmath (name : String) (hkept : kept m args = args) :
      ∃ code, mathCall name args = .ok code := by
    obtain ⟨pieces, hpieces⟩ : ∃ pieces, args.mapM (Operand.atLeast .argument) = .ok pieces :=
      Operand.exists_mapM_atLeast (hkept ▸ hargs)
    exact ⟨_, by rw [mathCall, Operand.arguments, hpieces]; rfl⟩
  cases m with
  | mathAbs => exact hmath "abs" rfl
  | mathSqrt => exact hmath "sqrt" rfl
  | consoleWriteLine =>
      cases args with
      | nil => exact ⟨_, rfl⟩
      | cons arg rest =>
          obtain ⟨shown, hshown⟩ := hargs arg (by simp [kept])
          exact ⟨_, by rw [builtinCall, hshown]; rfl⟩
  | _ => simp [acceptsAny] at hany

end ActionScript

namespace CFamily

variable {cx : Context} {d : Dialect} {code : Code}

theorem carries_cast {type : Code} {o : Operand} (hc : cast type o = .ok code) :
    code.Carries [o] := by
  obtain ⟨inner, hinner, hc⟩ := Result.bind_eq_ok.mp hc
  obtain rfl := Except.ok.inj hc
  exact ((Operand.carries_atLeast hinner).behind [Lexeme.gap]).behind _

theorem carries_libraryCall {name : Lexeme} {codes : List Code} {oss : List (List Operand)}
    (h : List.Forall₂ Code.Carries codes oss) :
    Code.Carries (name :: Code.parenthesized (Code.commaSeparated codes)) oss.flatten :=
  (Code.Carries.commaSeparated h).parenthesized.behind [name]

/-- A method of an array prints the array and the arguments, the destination of a copy before its
source. -/
theorem carries_arrayMethod {array : Operand} {m : BuiltinMethod} {args : List Operand}
    (hc : arrayMethod cx d array m args = .ok code) :
    ∃ order : List Operand, order.Perm (array :: args) ∧ code.Carries order := by
  unfold arrayMethod at hc
  split at hc
  case h_1 start target targetStart length =>
    obtain ⟨destination, hdestination, hc⟩ := Result.bind_eq_ok.mp hc
    obtain ⟨source, hsource, hc⟩ := Result.bind_eq_ok.mp hc
    obtain ⟨count, hcount, hc⟩ := Result.bind_eq_ok.mp hc
    obtain ⟨size, -, hc⟩ := Result.bind_eq_ok.mp hc
    obtain rfl := Except.ok.inj hc
    have hcount := ((Operand.carries_atLeast hcount).before (Code.operator "*")).before size
    have hargs : List.Forall₂ Code.Carries _ [[target, targetStart], [array, start], [length]] :=
      .cons (Operand.carries_infixed hdestination)
        (.cons (Operand.carries_infixed hsource) (.cons hcount .nil))
    have horder : ([target, targetStart] ++ [array, start]).Perm
        ([array, start] ++ [target, targetStart]) := List.perm_append_comm
    exact ⟨_, horder.append_right [length], carries_libraryCall hargs⟩
  case h_2 =>
    split at hc
    · obtain ⟨target, htarget, hc⟩ := Result.bind_eq_ok.mp hc
      obtain ⟨size, -, hc⟩ := Result.bind_eq_ok.mp hc
      obtain rfl := Except.ok.inj hc
      have hargs (zero bytes : Code) :
          List.Forall₂ Code.Carries [target, zero, bytes] [[array], [], []] :=
        .cons (Operand.carries_code htarget) (.cons (.nil zero) (.cons (.nil bytes) .nil))
      exact ⟨_, .refl _, carries_libraryCall (hargs _ _)⟩
    · simp [Context.unsupported] at hc
  case h_3 => simp [Context.unmappedMethod] at hc

/-- A built-in that does not print has its receiver and its arguments in its printed form. -/
theorem carries_builtinCall {receiver : Option Operand} {m : BuiltinMethod} {args : List Operand}
    (hc : builtinCall cx d receiver m args = .ok code) :
    ∃ order : List Operand, order.Perm (receiver.toList ++ args) ∧ code.Carries order := by
  unfold builtinCall at hc
  split at hc
  case h_1 obj factor divisor =>
    obtain ⟨product, hproduct, hc⟩ := Result.bind_eq_ok.mp hc
    obtain ⟨first, hfirst, hc⟩ := Result.bind_eq_ok.mp hc
    obtain ⟨second, hsecond, hc⟩ := Result.bind_eq_ok.mp hc
    obtain rfl := Except.ok.inj hc
    have hquotient := Operand.carries_quotient (carries_cast hproduct) hfirst hsecond
    exact ⟨_, .refl _, (hquotient.parenthesized.behind [Lexeme.gap]).behind _⟩
  case h_2 => exact ⟨_, .refl _, Operand.carries_indexed hc⟩
  case h_5 => exact carries_arrayMethod hc
  case h_6 => exact carries_arrayMethod hc
  case h_7 value =>
    obtain ⟨shown, hshown, hc⟩ := Result.bind_eq_ok.mp hc
    obtain rfl := Except.ok.inj hc
    exact ⟨_, .refl _, (Operand.carries_arguments hshown).behind [_]⟩
  case h_8 value =>
    obtain ⟨shown, hshown, hc⟩ := Result.bind_eq_ok.mp hc
    obtain rfl := Except.ok.inj hc
    exact ⟨_, .refl _, (Operand.carries_arguments hshown).behind [_]⟩
  all_goals simp [Context.unmappedMethod, Context.unsupported] at hc

theorem refuses_arrayMethod {array : Operand} {m : BuiltinMethod} {args : List Operand}
    (h : ¬m.Fits true args.length) : Refuses m (arrayMethod cx d array m args) := by
  unfold arrayMethod
  split
  case h_3 => exact .unmapped cx _
  all_goals exact absurd ⟨rfl, by simp [BuiltinMethod.argumentCounts]⟩ h

theorem refuses_builtinCall {receiver : Option Operand} {m : BuiltinMethod} {args : List Operand}
    (h : ¬m.Fits receiver.isSome args.length) : Refuses m (builtinCall cx d receiver m args) := by
  unfold builtinCall
  split
  case h_3 => exact .unmapped cx _
  case h_4 => exact .unmapped cx _
  case h_5 => exact refuses_arrayMethod h
  case h_6 => exact refuses_arrayMethod h
  case h_9 => exact .argumentCount cx m _
  all_goals exact absurd ⟨rfl, by simp [BuiltinMethod.argumentCounts]⟩ h

theorem carries_printedValue {o : Operand} (hc : printedValue d o = .ok code) :
    code.Carries [o] := by
  unfold printedValue at hc
  split at hc
  · split_ifs at hc
    · obtain ⟨inner, hinner, hc⟩ := Result.bind_eq_ok.mp hc
      obtain rfl := Except.ok.inj hc
      exact ((Operand.carries_atLeast hinner).behind [Lexeme.gap]).behind _
    · exact Operand.carries_atLeast hc
  · exact Operand.carries_atLeast hc

/-- The call prints the texts in its format and the values behind it. -/
def Formats (code : Code) (texts : List String) (values : List Operand) : Prop :=
  (∃ format, Lexeme.quoted format ∈ code ∧
    InTurn (texts.map fun text => (formatText text).toList) format.toList) ∧
  code.Carries values

theorem formats_printfCall {format : String} {texts : List String} {values : List Operand}
    (htexts : InTurn (texts.map fun text => (formatText text).toList) format.toList)
    (hc : printfCall d format values = .ok code) : Formats code texts values := by
  obtain ⟨rest, hrest, hc⟩ := Result.bind_eq_ok.mp hc
  obtain rfl := Except.ok.inj hc
  refine ⟨⟨format, ?_, htexts⟩, ?_⟩
  · cases rest <;> simp [Code.parenthesized, Code.commaSeparated]
  · have hvalues := Operand.carries_mapM (fun _ _ => carries_printedValue) hrest
    have hall : Code.Carries (Code.commaSeparated ([.quoted format] :: rest)) values := by
      cases rest with
      | nil => exact hvalues.behind _
      | cons first rest => exact (hvalues.behind Code.comma).behind [.quoted format]
    exact hall.parenthesized.behind [_]

theorem inTurn_holeFormats {holes : List (Hole × Operand)} {formats : String}
    (hc : holeFormats cx d holes = .ok formats) :
    InTurn (holes.map fun hole => (formatText hole.1.before).toList) formats.toList := by
  obtain ⟨texts, htexts, hjoin⟩ := Result.bind_eq_ok.mp hc
  obtain rfl := Except.ok.inj hjoin
  have hall := Result.forall₂_of_mapM_eq_ok htexts
  clear hc hjoin htexts
  induction hall with
  | nil => trivial
  | @cons hole text holes texts hfirst _ ih =>
      obtain ⟨c, -, htext⟩ := Result.bind_eq_ok.mp hfirst
      obtain rfl := Except.ok.inj htext
      refine ⟨[], c.text.toList ++ (String.join texts).toList, ?_, ih.behind _⟩
      simp [String.join_cons]

/-- The texts of what a call prints: those of an interpolated string, or of a literal. -/
def printedTexts : List Expr → List String
  | [.interpolated parts suffix _] => parts.map (fun part => part.hole.before) ++ [suffix]
  | [.literal (.str text) _] => [text]
  | _ => []

/-- What is printed stands in the call, its texts in the format and its values behind them. -/
theorem formats_print {lineEnd : String} {args : List Expr}
    (hc : print cx d lineEnd (cx.shown args) = .ok code) :
    Formats code (printedTexts args) (((printedParts args).map Part.arg).map cx.operand) := by
  rcases args with _ | ⟨e, _ | ⟨second, rest⟩⟩
  · exact formats_printfCall trivial hc
  · rcases shown_singleton cx e with ⟨parts, suffix, ty, rfl⟩ | ⟨hshown, -⟩
    · obtain ⟨formats, hformats, hc⟩ := Result.bind_eq_ok.mp hc
      have hvalues : (cx.holes parts).map Prod.snd = (parts.map Part.arg).map cx.operand := by
        simp [Context.holes_eq, Function.comp_def]
      have hbefore := inTurn_holeFormats hformats
      rw [Context.holes_eq, List.map_map] at hbefore
      refine formats_printfCall ?_ (hvalues ▸ hc)
      have htexts := (hbefore.append (.singleton (formatText suffix).toList)).append
        (show InTurn [] lineEnd.toList from trivial)
      simpa [printedTexts, Function.comp_def] using htexts
    · rw [hshown] at hc
      simp only [print] at hc
      split at hc
      case h_1 text ty hliteral =>
        obtain rfl : e = .literal (.str text) ty := hliteral
        refine formats_printfCall ?_ hc
        have htexts := (InTurn.singleton (formatText text).toList).append
          (show InTurn [] lineEnd.toList from trivial)
        simpa [printedTexts] using htexts
      case h_2 hvalue =>
        obtain ⟨c, -, hc⟩ := Result.bind_eq_ok.mp hc
        have hparts : printedParts [e] = [.mk plainHole e] ∧ printedTexts [e] = [] := by
          cases e with
          | interpolated => simp [Context.shown] at hshown
          | literal value ty =>
              cases value with
              | str text => exact absurd rfl (hvalue text ty)
              | _ => exact ⟨rfl, rfl⟩
          | _ => exact ⟨rfl, rfl⟩
        rw [hparts.1, hparts.2]
        exact formats_printfCall trivial hc
  · simp [print_many, Context.unsupported] at hc

theorem formats_printCall {receiver : Option Operand} {m : BuiltinMethod} {lineEnd : String}
    {args : List Expr} (hc : printCall cx d receiver m lineEnd (cx.shown args) = .ok code) :
    Formats code (printedTexts args) (((printedParts args).map Part.arg).map cx.operand) := by
  cases receiver with
  | none => exact formats_print hc
  | some obj => simp [printCall, Context.unsupported] at hc

/-- A method that prints is refused with a receiver and with more than one argument. -/
theorem refuses_printCall {receiver : Option Operand} {m : BuiltinMethod} {lineEnd : String}
    {args : List Expr} (hm : m.takesReceiver = false ∧ m.argumentCounts = [0, 1])
    (h : ¬m.Fits receiver.isSome args.length) :
    Refuses m (printCall cx d receiver m lineEnd (cx.shown args)) := by
  cases receiver with
  | some obj => exact .argumentCount cx m _
  | none =>
      rcases args with _ | ⟨e, _ | ⟨second, rest⟩⟩
      · exact absurd ⟨hm.1.symm, by simp [hm.2]⟩ h
      · exact absurd ⟨hm.1.symm, by simp [hm.2]⟩ h
      · rw [printCall, print_many]
        exact .printArguments cx m hm.2

end CFamily

namespace Context

/-- The target prints a call of the method with any number of arguments. -/
def AcceptsAny (cx : Context) (hasReceiver : Bool) (m : BuiltinMethod) : Prop :=
  cx.target = .actionScript ∧ hasReceiver = false ∧ ActionScript.acceptsAny m = true

/-- What a printed call has of its receiver and its arguments. In the C family a method that prints
has the texts of its argument in a format. -/
def CarriesCall (cx : Context) (receiver : Option Expr) (m : BuiltinMethod) (args : List Expr)
    (call : Code) : Prop :=
  match cx.target with
  | .actionScript => call.Carries ((receiver.toList ++ ActionScript.kept m args).map cx.operand)
  | .cFamily _ =>
    if m = .consoleWrite ∨ m = .consoleWriteLine then
      CFamily.Formats call (CFamily.printedTexts args)
        (((CFamily.printedParts args).map Part.arg).map cx.operand)
    else
      ∃ order, order.Perm ((receiver.toList ++ args).map cx.operand) ∧ call.Carries order

variable {cx : Context} {receiver : Option Expr} {m : BuiltinMethod} {args : List Expr}

theorem carriesCall_of_code {ty : Ty} {call : Code}
    (hc : cx.code (.call receiver (.builtin m) args ty) = .ok call) :
    cx.CarriesCall receiver m args call := by
  rw [code_builtinCall] at hc
  unfold CarriesCall
  have hreceiver : (receiver.map cx.operand).toList = receiver.toList.map cx.operand := by
    cases receiver <;> rfl
  cases ht : cx.target with
  | actionScript =>
      simp only [ht] at hc
      have hcarries := ActionScript.carries_builtinCall hc
      rwa [ActionScript.kept_map, hreceiver, ← List.map_append] at hcarries
  | cFamily d =>
      simp only [ht] at hc
      split_ifs at hc with hwrite hline
      · exact (if_pos (.inl hwrite)).mpr (CFamily.formats_printCall hc)
      · exact (if_pos (.inr hline)).mpr (CFamily.formats_printCall hc)
      · have hcarries := CFamily.carries_builtinCall hc
        rw [hreceiver, ← List.map_append] at hcarries
        exact (if_neg (not_or.mpr ⟨hwrite, hline⟩)).mpr hcarries

/-- A call of another shape than its method's is refused, except for the methods that are printed
with any number of arguments. -/
theorem refuses_code (ty : Ty) (h : ¬m.Fits receiver.isSome args.length)
    (hany : ¬cx.AcceptsAny receiver.isSome m) :
    Refuses m (cx.code (.call receiver (.builtin m) args ty)) := by
  rw [code_builtinCall]
  have hfits : ¬m.Fits (receiver.map cx.operand).isSome args.length := by simpa using h
  cases ht : cx.target with
  | actionScript =>
      refine ActionScript.refuses_builtinCall (by simpa using h) ?_
      rintro ⟨hnone, hm⟩
      exact hany ⟨ht, by simpa using hnone, hm⟩
  | cFamily d =>
      change Refuses m (if m = .consoleWrite then _ else _)
      split_ifs with hwrite hline
      · subst hwrite
        exact CFamily.refuses_printCall ⟨rfl, rfl⟩ hfits
      · subst hline
        exact CFamily.refuses_printCall ⟨rfl, rfl⟩ hfits
      · exact CFamily.refuses_builtinCall (by simpa using h)

/-- A call of a built-in is printed only in the shape that the method is defined in, or by a method
that ActionScript prints with any number of arguments; it then has each of its parts in a place of
its own, those that `trace` is not given apart. Every other call is refused for its shape. -/
theorem builtinCall_printed_or_refused (cx : Context) (receiver : Option Expr) (m : BuiltinMethod)
    (args : List Expr) (ty : Ty) :
    (∀ call, cx.code (.call receiver (.builtin m) args ty) = .ok call →
      (m.Fits receiver.isSome args.length ∨ cx.AcceptsAny receiver.isSome m) ∧
        cx.CarriesCall receiver m args call) ∧
    (¬m.Fits receiver.isSome args.length → ¬cx.AcceptsAny receiver.isSome m →
      Refuses m (cx.code (.call receiver (.builtin m) args ty))) ∧
    (cx.AcceptsAny receiver.isSome m →
      (∀ e ∈ ActionScript.kept m args, ∃ shown, cx.code e = .ok shown) →
        ∃ call, cx.code (.call receiver (.builtin m) args ty) = .ok call) := by
  refine ⟨fun call hc => ⟨?_, carriesCall_of_code hc⟩, refuses_code ty, fun hany hargs => ?_⟩
  · by_contra hneither
    obtain ⟨hfits, hany⟩ := not_or.mp hneither
    obtain ⟨refusal, hrefused, -⟩ := refuses_code ty hfits hany
    simp [hrefused] at hc
  · obtain ⟨ht, hreceiver, hm⟩ := hany
    obtain rfl : receiver = none := by simpa using hreceiver
    rw [code_builtinCall, ht]
    refine ActionScript.exists_builtinCall hm ?_
    rw [ActionScript.kept_map]
    exact List.forall_mem_map.mpr hargs

/-- Two texts given to `Console.WriteLine`, of which only the first one is printed, and two numbers
given to `Math.Abs`. -/
theorem not_fits_of_code :
    let cx : Context := ⟨.empty, .actionScript, none⟩
    let texts : List Expr := [.literal (.str "a") .string, .literal (.str "b") .string]
    let numbers : List Expr := [.literal (.int 1) (.int .int), .literal (.int 2) (.int .int)]
    cx.code (.call none (.builtin .consoleWriteLine) texts .void) =
        .ok [.word "trace", .symbol "(", .quoted "a", .symbol ")"] ∧
      ¬BuiltinMethod.Fits .consoleWriteLine false texts.length ∧
      cx.code (.call none (.builtin .mathAbs) numbers (.int .int)) =
        .ok [.word "Math", .symbol ".", .word "abs", .symbol "(", .number "1", .symbol ",", .gap,
          .number "2", .symbol ")"] ∧
      ¬BuiltinMethod.Fits .mathAbs false numbers.length :=
  ⟨rfl, by decide, by rfl, by decide⟩

end Context

end Emitter
