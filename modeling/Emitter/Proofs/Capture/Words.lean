import Emitter.Proofs.Capture.Statement
import Emitter.Proofs.Names.Casing

/-!
# Words that variables can be spelled like

Besides names of the program and counters, a body is printed with reserved words, with words that
start with a capital letter, and with a few others. No variable is printed like a word of the first
two kinds, so only those others can be spelled like a variable.
-/

namespace Emitter

open Layout Number Program Text

namespace Target

/-- The words in printed bodies that are neither reserved nor start with a capital letter. -/
def exposedWords : Target → List String
  | actionScript => ["int", "trace"]
  | cFamily .standard => ["abs", "fabs", "int16_t", "int64_t", "int8_t", "memmove", "memset",
      "printf", "sqrt", "strcmp", "strlen", "uint16_t", "uint8_t"]
  | cFamily .openCL => ["abs", "fabs", "memmove", "memset", "printf", "sqrt", "streq", "strlen"]

/-- The word may stand in printed bodies. -/
def isBodyWord (t : Target) (word : String) : Bool :=
  word ∈ t.keywords.words || startsCapital word || word ∈ t.exposedWords

/-- The name may stand in printed bodies. -/
def allows (t : Target) : BareName → Bool
  | .fixed l => t.isBodyWord l.text
  | _ => true

variable {t : Target} {name word : String}

theorem exposedWords_free (h : word ∈ t.exposedWords) : word ∉ t.keywords.words ∧
    startsCapital word = false ∧ ∀ k ∈ t.keywords.words, word ≠ k ++ "_" := by
  revert word
  cases t with
  | actionScript => decide +kernel
  | cFamily d => cases d <;> decide +kernel

/-- Of the words in printed bodies, variables are printed only like the exposed ones. -/
theorem localName_eq_iff_of_isBodyWord (hword : t.isBodyWord word = true) :
    t.localName name = word ↔ word ∈ t.exposedWords ∧ camelCase name = word := by
  have hexposed : word ∈ t.exposedWords → (t.localName name = word ↔ camelCase name = word) :=
    fun h => localName_eq_iff_of_free (exposedWords_free h).1 (exposedWords_free h).2.2
  constructor
  · intro heq
    have hreserved : word ∉ t.keywords.words := heq ▸ localName_notMem_keywords t name
    have hcapital : startsCapital word = false := heq ▸ startsCapital_localName t name
    have hmem : word ∈ t.exposedWords := by simpa [isBodyWord, hreserved, hcapital] using hword
    exact ⟨hmem, (hexposed hmem).mp heq⟩
  · rintro ⟨hmem, heq⟩
    exact (hexposed hmem).mpr heq

/-- A variable is printed like a counter only if that is its name. -/
theorem localName_eq_counter_iff (t : Target) (depth : Nat) :
    t.localName name = "_i" ++ toString depth ↔ name = "_i" ++ toString depth := by
  have hword : "_i" ++ toString depth = String.ofList ('_' :: 'i' :: (toString depth).toList) := by
    rw [← String.toList_inj]
    simp
  have hreserved : ∀ k ∈ t.keywords.words,
      k.toList.take 2 ≠ ['_', 'i'] ∧ (k ++ "_").toList.take 2 ≠ ['_', 'i'] := by
    cases t with
    | actionScript => decide +kernel
    | cFamily d => cases d <;> decide +kernel
  have hstart : ("_i" ++ toString depth).toList.take 2 = ['_', 'i'] := by simp
  rw [localName_eq_iff_of_free, hword, camelCase_eq_iff_of_underscore]
  · exact fun h => (hreserved _ h).1 hstart
  · exact fun k hk h => (hreserved k hk).2 (h ▸ hstart)

/-- The reserved words of ActionScript have small letters, and names of constants have none. -/
theorem localName_eq_upperSnakeCase_iff (const : String) :
    actionScript.localName name = upperSnakeCase const ↔ camelCase name = upperSnakeCase const := by
  have hsmall : ∀ k ∈ actionScript.keywords.words, k.toList.any Char.isLower = true := by
    decide +kernel
  have hfree : ∀ k ∈ actionScript.keywords.words, ∀ rest, upperSnakeCase const ≠ k ++ rest := by
    intro k hk rest h
    obtain ⟨c, hc, hlower⟩ := List.any_eq_true.mp (hsmall k hk)
    have hmem : c ∈ (upperSnakeCase const).toList := by simp [h, hc]
    rw [isLower_of_mem_upperSnakeCase hmem] at hlower
    contradiction
  refine localName_eq_iff_of_free (fun h => ?_) fun k hk => hfree k hk "_"
  exact hfree _ h "" (by simp)

end Target

namespace CFamily

variable {cx : Context} {d : Dialect} {b : BareName}

/-- The name may stand in printed bodies. -/
def allowsName (d : Dialect) : PrintedName → Bool
  | .fixed l => (Target.cFamily d).isBodyWord l.text
  | _ => true

theorem allows_bareOf {ns : List PrintedName} (h : ns.all (allowsName d) = true)
    (hb : b ∈ bareOf ns) : (Target.cFamily d).allows b = true := by
  obtain ⟨n, hn, hb⟩ := List.mem_filterMap.mp hb
  have hallowed := List.all_eq_true.mp h n hn
  cases n with
  | fixed l =>
      obtain rfl := Option.some.inj hb
      exact hallowed
  | _ => cases hb <;> rfl

theorem allowsName_ifPresent {p : Program} {n : PrintedName} (h : allowsName d n = true) :
    (PrintedName.ifPresent p n).all (allowsName d) = true := by
  unfold PrintedName.ifPresent
  split_ifs <;> simp [h]

theorem allowsName_own (e : Expr) : (own cx d e).all (allowsName d) = true := by
  cases e with
  | literal value ty =>
      cases value with
      | bool b => cases d <;> cases b <;> rfl
      | null => cases d <;> rfl
      | _ => rfl
  | this ty => cases d <;> rfl
  | enumValue id index ty => exact allowsName_ifPresent rfl
  | resource name ty => exact allowsName_ifPresent rfl
  | property obj accessor ty => cases accessor <;> cases d <;> rfl
  | call receiver callee args ty =>
      cases callee with
      | user owner name isStatic =>
          simp only [own, List.all_cons]
          split_ifs <;> cases d <;> rfl
      | builtin m =>
          cases m with
          | mathAbs | consoleWrite | consoleWriteLine =>
              simp only [own, methodNames]
              cases d <;> split_ifs <;> decide
          | _ => cases d <;> rfl
  | binary left op right ty =>
      simp only [own, comparisonNames]
      split_ifs
      · cases d <;> decide
      · rfl
  | _ => rfl

theorem allows_bareOwn (e : Expr) (hb : b ∈ bareOwn cx d e) :
    (Target.cFamily d).allows b = true := by
  cases e with
  | var name ty =>
      obtain rfl := List.mem_singleton.mp hb
      rfl
  | _ => exact allows_bareOf (allowsName_own _) hb

theorem allowsName_typeNames (ty : Ty) : (Context.typeNames d ty).all (allowsName d) = true := by
  induction ty with
  | int kind => cases d <;> cases kind <;> decide
  | float kind => cases d <;> cases kind <;> decide
  | array element storage length ih => exact ih
  | null | classStorage id | classRef id => rfl
  | _ => cases d <;> rfl

theorem allows_constructionNames {p : Program} (ty : Ty) (depth : Nat) {place : List BareName}
    (hplace : ∀ b ∈ place, (Target.cFamily d).allows b = true)
    (hb : b ∈ constructionNames p depth place ty) : (Target.cFamily d).allows b = true := by
  induction ty generalizing depth place with
  | classStorage id =>
      simp only [constructionNames] at hb
      split at hb
      · rcases List.mem_cons.mp hb with rfl | hb
        · rfl
        · exact hplace b hb
      · simp at hb
  | array element storage length ih =>
      cases storage with
      | false => simp [constructionNames] at hb
      | true =>
          simp only [constructionNames] at hb
          split at hb
          · have hcounter : ∀ b ∈ place ++ [.counter depth],
                (Target.cFamily d).allows b = true := by
              rw [List.forall_mem_append]
              exact ⟨hplace, by simp [Target.allows]⟩
            have hwords : (Target.cFamily d).allows (.word "for") = true ∧
                (Target.cFamily d).allows (.word "int") = true := by
              cases d <;> decide
            simp only [List.mem_cons] at hb
            rcases hb with rfl | rfl | rfl | hb
            · exact hwords.1
            · exact hwords.2
            · rfl
            · exact ih (depth + 1) hcounter hb
          · simp at hb
  | _ => simp [constructionNames] at hb

end CFamily

namespace ActionScript

variable {cx : Context} {b : BareName}

theorem allows_floatNames {x : Binary64} (hb : b ∈ floatNames x) :
    Target.actionScript.allows b = true := by
  unfold floatNames at hb
  split_ifs at hb
  · obtain rfl := List.mem_singleton.mp hb
    decide
  · obtain rfl := List.mem_singleton.mp hb
    decide
  · simp at hb

theorem allows_truth (value : Bool) :
    Target.actionScript.allows (.word (if value then "true" else "false")) = true := by
  cases value <;> decide

theorem allows_literalNames {value : Literal} (hb : b ∈ literalNames value) :
    Target.actionScript.allows b = true := by
  cases value with
  | float x => exact allows_floatNames hb
  | bool value =>
      obtain rfl := List.mem_singleton.mp hb
      exact allows_truth value
  | null =>
      obtain rfl := List.mem_singleton.mp hb
      decide
  | int | str => simp [literalNames] at hb

mutual

theorem allows_valueNames : ∀ {value : ConstValue}, b ∈ valueNames value →
    Target.actionScript.allows b = true
  | .float x, hb => allows_floatNames hb
  | .bool value, hb => by
      obtain rfl := List.mem_singleton.mp hb
      exact allows_truth value
  | .enumValue id index, hb => by
      obtain rfl := List.mem_singleton.mp hb
      rfl
  | .array items, hb => allows_itemNames hb
  | .int n, hb | .str s, hb => by simp [valueNames] at hb

theorem allows_itemNames : ∀ {items : List ConstValue}, b ∈ itemNames items →
    Target.actionScript.allows b = true
  | [], hb => by simp [itemNames] at hb
  | item :: rest, hb => (List.mem_append.mp hb).elim allows_valueNames allows_itemNames

end

theorem allows_bareOwn (e : Expr) (hb : b ∈ bareOwn cx e) :
    Target.actionScript.allows b = true := by
  cases e with
  | literal value ty => exact allows_literalNames hb
  | const owner name ty =>
      simp only [bareOwn, constantNames] at hb
      split at hb
      · exact allows_valueNames hb
      · obtain rfl := List.mem_singleton.mp hb
        split_ifs <;> rfl
  | call receiver callee args ty =>
      cases callee with
      | user owner name isStatic =>
          cases receiver with
          | some obj => simp [bareOwn] at hb
          | none =>
              obtain rfl := List.mem_singleton.mp hb
              split_ifs <;> rfl
      | builtin m =>
          simp only [bareOwn] at hb
          cases m with
          | substring =>
              simp only [methodNames] at hb
              split_ifs at hb
              · obtain rfl := List.mem_singleton.mp hb
                decide
              · simp at hb
          | charAt | consoleWrite => simp [methodNames] at hb
          | _ =>
              obtain rfl := List.mem_singleton.mp hb
              decide
  | binary left op right ty =>
      simp only [bareOwn] at hb
      split_ifs at hb
      · obtain rfl := List.mem_singleton.mp hb
        decide
      · simp at hb
  | var name ty | this ty | enumValue id index ty =>
      obtain rfl := List.mem_singleton.mp hb
      rfl
  | _ => simp [bareOwn] at hb

theorem allows_typeNames {ty : Ty} (hb : b ∈ typeNames ty) :
    Target.actionScript.allows b = true := by
  cases ty with
  | null => simp [typeNames] at hb
  | array element storage length =>
      obtain rfl := List.mem_singleton.mp hb
      split_ifs <;> decide
  | _ =>
      obtain rfl := List.mem_singleton.mp hb
      rfl

theorem allows_impliedNames {ty : Ty} (hb : b ∈ impliedNames ty) :
    Target.actionScript.allows b = true := by
  unfold impliedNames at hb
  split at hb
  case h_1 id =>
    rcases List.mem_pair.mp hb with rfl | rfl
    · decide
    · rfl
  case h_2 element length =>
    rcases List.mem_pair.mp hb with rfl | rfl
    · decide
    · split_ifs <;> decide
  case h_3 => simp at hb

end ActionScript

namespace Context

variable {cx : Context}

theorem allows_bareNames (e : Expr) : ∀ b ∈ cx.bareNames e, cx.target.allows b = true := by
  refine forall_bareNames (fun e b hb => ?_) e
  unfold bareOwn at hb
  split at hb
  case h_1 ht => exact ht ▸ ActionScript.allows_bareOwn e hb
  case h_2 d ht => exact ht ▸ CFamily.allows_bareOwn e hb

theorem allows_flatMap {α : Type} {f : α → List BareName} {items : List α}
    (h : ∀ item ∈ items, ∀ b ∈ f item, cx.target.allows b = true) :
    ∀ b ∈ items.flatMap f, cx.target.allows b = true := by
  intro b hb
  obtain ⟨item, hitem, hb⟩ := List.mem_flatMap.mp hb
  exact h item hitem b hb

theorem allows_bareOfLocal (decl : VarDecl) :
    ∀ b ∈ cx.bareOfLocal decl, cx.target.allows b = true := by
  have hvalue : ∀ b ∈ decl.value.toList.flatMap cx.bareNames, cx.target.allows b = true :=
    allows_flatMap fun e _ => allows_bareNames e
  intro b hb
  unfold bareOfLocal at hb
  cases ht : cx.target with
  | actionScript =>
      simp only [ht, ActionScript.localNames, List.cons_append, List.mem_cons,
        List.mem_append] at hb
      rcases hb with rfl | rfl | hb | hb
      · rfl
      · rfl
      · exact ActionScript.allows_typeNames hb
      · split_ifs at hb
        · exact ActionScript.allows_impliedNames hb
        · exact ht ▸ hvalue b hb
  | cFamily d =>
      simp only [ht, CFamily.localNames, List.mem_append, List.mem_singleton] at hb
      rcases hb with (hb | rfl) | hb
      · exact CFamily.allows_bareOf (CFamily.allowsName_typeNames _) hb
      · rfl
      · split_ifs at hb
        · simp at hb
        · exact ht ▸ hvalue b hb

theorem allows_bareOfAssign (target value : Expr) (op : AssignOp) :
    ∀ b ∈ cx.bareOfAssign target op value, cx.target.allows b = true := by
  intro b hb
  unfold bareOfAssign at hb
  rcases List.mem_append.mp hb with hb | hb
  · exact (List.mem_append.mp hb).elim (allows_bareNames target b) (allows_bareNames value b)
  · obtain ⟨⟨ht, -⟩, hb⟩ := List.mem_ite_nil_right.mp hb
    obtain rfl := List.mem_singleton.mp hb
    rw [ht]
    cases target.hasSideEffect <;> rfl

theorem allows_bareOfSimple (s : Stmt) : ∀ b ∈ cx.bareOfSimple s, cx.target.allows b = true := by
  cases s with
  | eval e => exact allows_bareNames e
  | declare decl => exact allows_bareOfLocal decl
  | assign target op value => exact allows_bareOfAssign target value op
  | _ => simp [bareOfSimple]

theorem allows_bareAfter (s : Stmt) : ∀ b ∈ cx.bareAfter s, cx.target.allows b = true := by
  intro b hb
  unfold bareAfter at hb
  split at hb
  case h_1 decl =>
    cases ht : cx.target with
    | actionScript => simp [ht] at hb
    | cFamily d =>
        simp only [ht] at hb
        exact CFamily.allows_constructionNames _ 0 (by simp [Target.allows]) hb
  case h_2 => simp at hb

/-- Keywords of statements are reserved. -/
theorem allows_keyword (t : Target) {w : String}
    (hw : w ∈ ["if", "else", "while", "do", "for", "break", "continue", "return"]) :
    t.allows (.word w) = true := by
  have hall : ∀ w ∈ ["if", "else", "while", "do", "for", "break", "continue", "return"],
      w ∈ t.keywords.words := by
    cases t with
    | actionScript => decide
    | cFamily d => cases d <;> decide
  simp [Target.allows, Target.isBodyWord, Lexeme.text, hall w hw]

theorem allows_bareOfBlock {stmts : List Stmt}
    (h : ∀ s ∈ stmts, ∀ b ∈ cx.bareOfStmt s, cx.target.allows b = true) :
    ∀ b ∈ cx.bareOfBlock stmts, cx.target.allows b = true := by
  induction stmts with
  | nil => simp [bareOfBlock]
  | cons s rest ih =>
      obtain ⟨hs, hrest⟩ := List.forall_mem_cons.mp h
      rw [bareOfBlock, List.forall_mem_append]
      exact ⟨hs, ih hrest⟩

theorem allows_bareOfStmt (s : Stmt) : ∀ b ∈ cx.bareOfStmt s, cx.target.allows b = true := by
  induction s using Stmt.inductOn with
  | h s ih =>
  have hkeyword := fun {w} => allows_keyword cx.target (w := w)
  have hvalues : ∀ values : Option Expr, ∀ b ∈ values.toList.flatMap cx.bareNames,
      cx.target.allows b = true := fun _ => allows_flatMap fun e _ => allows_bareNames e
  have hsimple : ∀ simple : Option Stmt, ∀ b ∈ simple.toList.flatMap cx.bareOfSimple,
      cx.target.allows b = true := fun _ => allows_flatMap fun s _ => allows_bareOfSimple s
  cases s with
  | block stmts =>
      rw [bareOfStmt]
      exact allows_bareOfBlock ih
  | eval e | declare decl | assign target op value =>
      rw [bareOfStmt, List.forall_mem_append]
      exact ⟨allows_bareOfSimple _, allows_bareAfter _⟩
  | branch cond onTrue onFalse =>
      have htrue := ih onTrue (by simp [Stmt.children])
      cases onFalse with
      | none =>
          simp only [bareOfStmt, List.forall_mem_append, List.forall_mem_cons]
          exact ⟨⟨hkeyword (by simp), allows_bareNames cond⟩, htrue⟩
      | some onFalse =>
          have hfalse := ih onFalse (by simp [Stmt.children])
          simp only [bareOfStmt, List.forall_mem_append, List.forall_mem_cons]
          exact ⟨⟨⟨hkeyword (by simp), allows_bareNames cond⟩, htrue⟩, hkeyword (by simp), hfalse⟩
  | whileLoop cond body =>
      have hbody := ih body (by simp [Stmt.children])
      simp only [bareOfStmt, List.forall_mem_append, List.forall_mem_cons]
      exact ⟨⟨hkeyword (by simp), allows_bareNames cond⟩, hbody⟩
  | doLoop body cond =>
      have hbody := ih body (by simp [Stmt.children])
      simp only [bareOfStmt, List.forall_mem_append, List.forall_mem_cons]
      exact ⟨⟨hkeyword (by simp), hbody⟩, hkeyword (by simp), allows_bareNames cond⟩
  | forLoop start cond advance body =>
      have hbody := ih body (by simp [Stmt.children])
      simp only [bareOfStmt, List.forall_mem_append, List.forall_mem_cons]
      exact ⟨⟨⟨⟨hkeyword (by simp), hsimple start⟩, hvalues cond⟩, hsimple advance⟩, hbody⟩
  | breakLoop | continueLoop =>
      rw [bareOfStmt, List.forall_mem_singleton]
      exact hkeyword (by simp)
  | returnValue value =>
      rw [bareOfStmt, List.forall_mem_cons]
      exact ⟨hkeyword (by simp), hvalues value⟩
  | «throwError» message =>
      rw [bareOfStmt, List.forall_mem_append]
      refine ⟨?_, allows_bareNames message⟩
      split_ifs with ht
      · rw [ht, List.forall_mem_singleton]
        rfl
      · simp
  | native text => simp [bareOfStmt]

end Context

end Emitter
