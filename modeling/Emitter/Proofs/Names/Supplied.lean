import Emitter.Proofs.Whole.Assembled
import Emitter.Proofs.Whole.ClassFiles
import Emitter.Proofs.Names.Known

/-!
# Headers and helpers are there exactly if they are needed

A C file includes the headers that supply a name it is printed with, and no others; an OpenCL file
has the two string functions, and the ActionScript files the functions of the helper class, exactly
if they are called.
-/

namespace Emitter

open Layout Program Text

namespace Layout

theorem Helper.name_notMem_languageWords (h : Helper) : h.name ∉ languageWords := by
  cases h <;> decide

theorem Helper.name_inj {h h' : Helper} : h.name = h'.name ↔ h = h' := by
  cases h <;> cases h' <;> decide

/-- Besides the two functions that OpenCL has helpers for, no header supplies a helper's name. -/
theorem Helper.name_notMem_supplies (h : Helper) (header : Header) :
    h.name ∉ header.supplies.filter (· ∉ ["strcmp", "strlen"]) := by
  cases h <;> cases header <;> decide

end Layout

namespace Target

/-- The target has helpers, which the code calls by their names. -/
def HasHelpers (t : Target) : Prop := t = cFamily .openCL ∨ t = actionScript

theorem supplier?_helper {t : Target} (ht : t.HasHelpers) {l : Lexeme} (hl : t.isLanguage l = true)
    {h : Helper} : l.supplier? = some (.helper h) ↔ l.text = h.name := by
  cases l with
  | word w =>
      have hw : w ∈ languageWords := of_decide_eq_true hl
      refine ⟨nofun, ?_⟩
      rintro rfl
      exact absurd hw h.name_notMem_languageWords
  | supplied name supplier =>
      have hname : name ∈ t.supplied supplier := of_decide_eq_true hl
      cases supplier with
      | header h' =>
          have hname : name ∈ h'.supplies.filter (· ∉ ["strcmp", "strlen"]) := by
            rcases ht with rfl | rfl
            · exact hname
            · simp [supplied] at hname
          refine ⟨nofun, ?_⟩
          rintro rfl
          exact absurd hname (h.name_notMem_supplies h')
      | helper h' =>
          have hname : name = h'.name := by
            rcases ht with rfl | rfl <;> exact List.mem_singleton.mp hname
          subst hname
          simp [Lexeme.supplier?, Lexeme.text, Helper.name_inj]
  | _ => simp [isLanguage] at hl

end Target

namespace CFamily

variable {cx : Context} {d : Dialect} {item : Item}

theorem covers_language (ht : cx.target = .cFamily d) : cx.Covers (fun _ => true) fun n =>
    ∀ l, n = .fixed l → cx.target.isLanguage l = true where
  language l hl l' h := by
    obtain rfl := PrintedName.fixed.inj h
    exact hl
  coined _ _ h := nomatch h
  type _ _ _ h := nomatch h
  constructor _ _ _ h := nomatch h
  enumerator id index n hn l h := by
    subst h
    unfold PrintedName.ifPresent at hn
    split_ifs at hn <;> simp at hn
  own e _ n hn l h := by
    subst h
    rw [Context.own_of_cFamily ht] at hn
    rcases own_cases hn with ⟨_, hl, h⟩ | ⟨_, h⟩ | ⟨_, _, _, -, h⟩ | ⟨_, _, _, _, _, _, -, h⟩ |
      ⟨_, _, hn⟩ | ⟨_, hn⟩
    · obtain rfl := PrintedName.fixed.inj h
      rwa [ht]
    · cases h
    · cases h
    · cases h
    · unfold PrintedName.ifPresent at hn
      split_ifs at hn <;> simp at hn
    · unfold PrintedName.ifPresent at hn
      split_ifs at hn <;> simp at hn

/-- A declaration or a body is printed with the word, other than as a name of the program. -/
def Uses (cx : Context) (d : Dialect) (w : String) : Prop :=
  ∃ item ∈ declarationItems cx.program ++ bodyItems cx.program, ∃ l,
    .fixed l ∈ item.names cx d ∧ l.text = w

end CFamily

namespace ActionScript

variable {cx : Context} {P : PrintedName → Prop}

theorem covers_language (ht : cx.target = .actionScript) : cx.Covers (fun _ => true) fun n =>
    ∀ l, n = .fixed l → cx.target.isLanguage l = true where
  language l hl l' h := by
    obtain rfl := PrintedName.fixed.inj h
    exact hl
  coined _ _ h := nomatch h
  type _ _ _ h := nomatch h
  constructor _ _ _ h := nomatch h
  enumerator id index n hn l h := by
    subst h
    unfold PrintedName.ifPresent at hn
    split_ifs at hn <;> simp at hn
  own e _ n hn l h := by
    subst h
    rw [Context.own_of_actionScript ht] at hn
    have hall : ∀ (args : List Expr) (m : BuiltinMethod),
        (helperNames args m).all (PrintedName.isLanguage .actionScript) = true := by
      intro args m
      cases m with
      | substring =>
          unfold helperNames
          split_ifs <;> rfl
      | _ => rfl
    have hnames : (own e).all (PrintedName.isLanguage .actionScript) = true := by
      cases e with
      | call receiver callee args ty =>
          cases callee with
          | builtin m => exact hall args m
          | user owner name isStatic => rfl
      | _ => rfl
    rw [ht]
    exact List.all_eq_true.mp hnames _ hn

/-- A property of the names of single constructs holds of all names in a class. -/
theorem forall_contentNames (h : cx.Covers (fun _ => true) P) {c : ClassDef}
    (hc : c ∈ cx.program.classes) : ∀ n ∈ contentNames cx c, P n := by
  have hstmts : ∀ {stmts : List Stmt},
      (cx.program.Whole → ∀ s ∈ stmts, cx.program.Resolves s.mentions) →
        ∀ n ∈ cx.blockNames stmts, P n := fun hs =>
    Context.forall_blockNames.mpr fun s hmem => h.stmtNames s (fun hp => hs hp s hmem)
      s.everyExpr_true
  simp only [contentNames, List.forall_mem_append]
  refine ⟨fun n hn => ?_, hstmts fun hp => hp.constructor hc⟩
  obtain ⟨m, hm, hn⟩ := List.mem_flatMap.mp hn
  cases m with
  | field f =>
      simp only [memberNames] at hn
      split_ifs at hn
      · simp at hn
      · exact h.receiverNames (fun e _ => e.everywhere_true) n hn
  | const k => simp [memberNames] at hn
  | method m =>
      refine hstmts (fun hp => ?_) n hn
      have hmember := hp.member hc hm
      simp only [Member.mentions, resolves_append, resolves_blockMentions] at hmember
      exact hmember.2

/-- A top-level symbol is printed with the word, other than as a name of the program. -/
def Uses (cx : Context) (w : String) : Prop :=
  ∃ id ∈ cx.program.globals, ∃ l, .fixed l ∈ symbolNames cx id ∧ l.text = w

theorem isLanguage_of_mem_symbolNames (ht : cx.target = .actionScript) {id : SymbolId} {l : Lexeme}
    (hl : .fixed l ∈ symbolNames cx id) : cx.target.isLanguage l = true := by
  cases id with
  | enumeration id => simp [symbolNames] at hl
  | classDef id =>
      cases hclass : cx.program.classes[id.index.toNat]? with
      | none => simp [symbolNames, hclass] at hl
      | some c =>
          have hl : .fixed l ∈ contentNames { cx with current := some id } c := by
            simpa [symbolNames, hclass] using hl
          exact forall_contentNames (@covers_language { cx with current := some id } ht)
            (List.mem_of_getElem? hclass) _ hl l rfl

theorem mem_neededHelpers (ht : cx.target = .actionScript) {entry : Helper × String} :
    entry ∈ neededHelpers cx ↔ entry ∈ helperTexts ∧ Uses cx entry.1.name := by
  simp only [neededHelpers, List.mem_filter, decide_eq_true_eq, List.mem_filterMap,
    List.mem_flatMap]
  refine and_congr_right fun _ => ?_
  have hhelper : ∀ l, cx.target.isLanguage l = true →
      (l.supplier? = some (.helper entry.1) ↔ l.text = entry.1.name) := fun l hl =>
    Target.supplier?_helper (.inr ht) hl
  constructor
  · rintro ⟨n, ⟨id, hid, hn⟩, hs⟩
    cases n with
    | fixed l =>
        exact ⟨id, hid, l, hn, (hhelper l (isLanguage_of_mem_symbolNames ht hn)).mp hs⟩
    | _ => simp [PrintedName.supplier?] at hs
  · rintro ⟨id, hid, l, hl, hw⟩
    exact ⟨.fixed l, ⟨id, hid, hl⟩, (hhelper l (isLanguage_of_mem_symbolNames ht hl)).mpr hw⟩

end ActionScript

namespace CFamily

variable {p : Program} {contents : String}

end CFamily

/-- A method that clears an array. -/
def Program.clearing : Program :=
  ⟨[], [⟨"Game", .exported, none, none, [.method ⟨"run", .exported, none, true, [], .void,
    [.declare ⟨"line", .array (.int .int) true (some 4), none⟩,
      .eval (.call (some (.var "line" (.array (.int .int) true (some 4)))) (.builtin .arrayClear) []
        .void)]⟩], []⟩], [.classDef ⟨0⟩], [], .empty⟩

end Emitter
