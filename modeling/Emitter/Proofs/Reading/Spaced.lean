import Emitter.Proofs.Reading.Loose

/-!
# Texts that are read on their own

A text that is cut into tokens on its own keeps its tokens wherever a space, a comma or a bracket
follows. So an expression that is read on its own is read as the same expression where it is an
operand, with spaces around the operator or parentheses around the operand. Nothing is asked of the
code behind the text.
-/

namespace Emitter.Reading

namespace Mode

/-- A symbol that is being read is an operator. -/
def Sound (m : Mode) : Prop := ∀ read, m = .symbol read → read ∈ operators

variable {m next : Mode} {c : Char}

theorem sound_between : between.Sound := nofun

theorem Sound.of_start (h : start c = some next) : next.Sound := by
  rintro read rfl
  unfold start at h
  split_ifs at h with _ _ _ _ hop
  · simp at h
  · simp at h
  · simp at h
  · simp at h
  · obtain rfl : [c] = read := by simpa using h
    exact hop

theorem Sound.of_extend (h : m.extend c = some next) : next.Sound := by
  rintro read rfl
  cases m with
  | between | closed => simp [extend] at h
  | escaping read' =>
      obtain ⟨d, -, hd⟩ := Option.map_eq_some_iff.mp h
      simp at hd
  | word | number | opened =>
      simp only [extend] at h
      split_ifs at h <;> simp at h
  | symbol read' =>
      simp only [extend] at h
      split_ifs at h with hpoint hop
      · simp at h
      · obtain rfl : read' ++ [c] = read := by simpa using h
        exact hop

theorem Sound.idle (hm : m.Sound) {ended : List Token} (h : m.settle = some ended) : m.Idle := by
  cases m with
  | opened | escaping => simp [settle] at h
  | symbol read => exact hm read rfl
  | between | word | number | closed => trivial

end Mode

/-- What has been read to its end is not changed by a separate character behind it. -/
theorem scanFrom_append {m : Mode} (hm : m.Sound) {cs rest : List Char} {ts : List Token}
    (h : scanFrom m cs = some ts) (hrest : ∀ c ∈ rest.head?, c ∈ separateChars) :
    scanFrom m (cs ++ rest) = (scanFrom .between rest).map (ts ++ ·) := by
  induction cs generalizing m ts with
  | nil =>
      have hidle := hm.idle (show m.settle = some ts from h)
      exact scanFrom_settle h fun c hc => hidle.extend_separateChar (hrest c hc)
  | cons c cs ih =>
      rw [scanFrom] at h
      rw [List.cons_append, scanFrom]
      cases hextend : m.extend c with
      | some next =>
          rw [hextend] at h
          exact ih (.of_extend hextend) h
      | none =>
          rw [hextend] at h
          obtain ⟨ended, hended, h⟩ := Option.bind_eq_some_iff.mp h
          obtain ⟨next, hstart, h⟩ := Option.bind_eq_some_iff.mp h
          obtain ⟨others, hothers, h⟩ := Option.bind_eq_some_iff.mp h
          obtain rfl := Option.some.inj h
          simp only [hended, hstart, Option.bind_eq_bind, Option.bind_some,
            ih (.of_start hstart) hothers]
          cases scanFrom .between rest <;> simp

theorem scans_of_scan {text : String} {ts : List Token} (h : scan text = some ts) :
    Scans text.toList ts := fun _ hrest => scanFrom_append Mode.sound_between h hrest

namespace Tree

/-- The level of the grammar that the tree's outermost operation belongs to. -/
def level : Tree → Nat
  | name _ | number _ | text _ | items _ => 13
  | member .. | element .. | call .. | postfixed .. => 12
  | prefixed .. | cast .. => 11
  | binary op _ _ => (binaryLevel? op).getD 0
  | select .. => 0

end Tree

/-- An expression is one of the level of its outermost operation, at whatever level it was found. -/
theorem Parses.outermost {t : Target} {level : Nat} {ts : List Token} {tree : Tree}
    (h : Parses t level ts tree) : Parses t tree.level ts tree := by
  have hle : ∀ tree : Tree, tree.level ≤ 13 := by
    intro tree
    have hlevels : ∀ p ∈ binaryLevels, p.2 ≤ 13 := by decide
    cases tree with
    | binary op left right =>
        rw [Tree.level]
        cases hop : binaryLevel? op with
        | none => simp
        | some level => exact hlevels _ (mem_binaryLevels hop)
    | _ => simp [Tree.level]
  induction h with
  | name h => exact .name h
  | number text => exact .number text
  | text contents => exact .text contents
  | group h ht ih => exact (Parses.group h ht).mono (hle _)
  | items h => exact .items h
  | member h hs name => exact h.member hs name
  | element ha hp => exact ha.element hp
  | call hf h => exact hf.call h
  | postfixed h hop => exact h.postfixed hop
  | prefixed hop h => exact h.prefixed hop
  | cast hne htype h => exact h.cast hne htype
  | binary hop hl hr =>
      rw [Tree.level, hop]
      exact hl.binary hop hr
  | select hc ha hb => exact hc.select ha hb
  | looser _ ih => exact ih

end Emitter.Reading

namespace Emitter.Layout

open Reading

theorem Lexeme.scans {l : Lexeme} (h : l.Spelled) : Scans l.text.toList l.token?.toList := by
  intro rest hrest
  rw [Lexeme.scanFrom_text h]
  exact scanFrom_settle (Lexeme.settle_pending l) fun c hc =>
    (Lexeme.idle_pending h).extend_separateChar (hrest c hc)

namespace Code

/-- An operator with its spaces. -/
theorem settles_operator {s : String} (h : s.toList ∈ operators) :
    Settles (Code.operator s).text.toList [.symbol s] := by
  have hspace : Settles [' '] [] := .space (by decide)
  have hsymbol : Scans s.toList [.symbol s] := Lexeme.scans (l := .symbol s) h
  have hrest := hsymbol.append hspace ⟨' ', rfl, by decide⟩
  simpa [Code.operator, toList_text, Lexeme.text] using hspace.append hrest

/-- The text is cut into tokens that are an expression of the given level or a tighter one, wherever
a separate character follows it. -/
def ReadsAt (t : Target) (level : Nat) (code : Code) (tree : Tree) : Prop :=
  ∃ tokens, Scans code.text.toList tokens ∧ Parses t level tokens tree

variable {t : Target} {level : Nat} {code : Code} {tree : Tree}

/-- A text that is read on its own is read so at the level of its outermost operation. -/
theorem ReadsAs.readsAt (h : code.ReadsAs t tree) : code.ReadsAt t tree.level tree := by
  obtain ⟨tokens, hscan, hparses⟩ := h
  exact ⟨tokens, scans_of_scan hscan, ((hparses tree).mpr rfl).outermost⟩

namespace ReadsAt

theorem readsAs (h : code.ReadsAt t level tree) : code.ReadsAs t tree := by
  obtain ⟨tokens, hscans, hparses⟩ := h
  refine ⟨tokens, hscans.scanFrom_eq, fun tree' => ⟨fun h' => h'.unique hparses, ?_⟩⟩
  rintro rfl
  exact hparses.mono (Nat.zero_le level)

theorem mono {level' : Nat} (h : code.ReadsAt t level' tree) (hle : level ≤ level') :
    code.ReadsAt t level tree := by
  obtain ⟨tokens, hscans, hparses⟩ := h
  exact ⟨tokens, hscans, hparses.mono hle⟩

theorem of_piece (h : Piece t true level code tree) : code.ReadsAt t level tree :=
  ⟨code.tokens, scans_of_scan (Code.scan_text h.spelled (h.joint.imp fun _ _ hj => hj.apart rfl)),
    h.parses rfl⟩

theorem text (contents : String) : ReadsAt t 13 [.quoted contents] (.text contents) :=
  of_piece (.text contents)

theorem number {text : String} (h : isNumber text = true)
    (hexp : ∀ c ∈ text.toList.getLast?, c ∉ ['e', 'E', 'p', 'P']) :
    ReadsAt t 13 [.number text] (.number text) :=
  of_piece (.number h hexp)

/-- What stands between parentheses is cut off from everything around it. -/
theorem settles_parenthesized {ts : List Token} (h : Scans code.text.toList ts) :
    Settles code.parenthesized.text.toList (.symbol "(" :: (ts ++ [Token.symbol ")"])) := by
  have hopen : Settles ['('] [.symbol "("] := settles_symbol (s := "(") rfl
  have hclose : Settles [')'] [.symbol ")"] := settles_symbol (s := ")") rfl
  have hsettles := hopen.append (h.append hclose ⟨')', rfl, by decide⟩)
  simpa [Code.parenthesized, toList_text, Lexeme.text] using hsettles

theorem parenthesized (h : code.ReadsAt t 0 tree) (ht : ¬tree.isType t) :
    code.parenthesized.ReadsAt t 13 tree := by
  obtain ⟨tokens, hscans, hparses⟩ := h
  exact ⟨_, (settles_parenthesized hscans).scans, hparses.group ht⟩

/-- A prefix operator in front of a parenthesis. -/
theorem prefixed {op : String} (h : code.ReadsAt t 0 tree) (ht : ¬tree.isType t)
    (hop : .symbol op ∈ prefixOperators t) (hs : op.toList ∈ operators) :
    ReadsAt t 11 (.symbol op :: code.parenthesized) (.prefixed op tree) := by
  obtain ⟨tokens, hscans, hparses⟩ := h
  have hsettles := (Lexeme.scans (l := .symbol op) hs).append (settles_parenthesized hscans)
    ⟨'(', by simp [Code.parenthesized, toList_text, Lexeme.text], by decide⟩
  refine ⟨_, ?_, ((hparses.group ht).mono (by decide)).prefixed hop⟩
  simpa [toList_text, Lexeme.token?] using hsettles.scans

/-- A postfix operator behind a parenthesis. -/
theorem postfixed {op : String} (h : code.ReadsAt t 0 tree) (ht : ¬tree.isType t)
    (hop : op = "++" ∨ op = "--") :
    ReadsAt t 12 (code.parenthesized ++ [Lexeme.symbol op]) (.postfixed op tree) := by
  obtain ⟨tokens, hscans, hparses⟩ := h
  have hs : op.toList ∈ operators := by rcases hop with rfl | rfl <;> decide
  have hsettles := (settles_parenthesized hscans).append_scans (Lexeme.scans (l := .symbol op) hs)
  refine ⟨_, ?_, ((hparses.group ht).mono (by decide)).postfixed hop⟩
  simpa [toList_text, Lexeme.token?] using hsettles

/-- A selection from what stands between parentheses. -/
theorem member {name : String} (h : code.ReadsAt t 0 tree) (ht : ¬tree.isType t)
    (hname : isWord name = true) :
    ReadsAt t 12 (code.parenthesized ++ [Lexeme.symbol ".", Lexeme.word name])
      (.member tree "." name) := by
  obtain ⟨tokens, hscans, hparses⟩ := h
  have hpoint : Scans (Code.text [.symbol ".", .word name]).toList [.symbol ".", .word name] := by
    refine scans_of_scan (Code.scan_text (by simpa [Lexeme.Spelled] using ⟨by decide, hname⟩) ?_)
    refine List.isChain_pair.mpr fun c hc => ?_
    have hstart : isWordStart c = true := isWordStart_of_mem_head? hname hc
    have hop : ∀ op ∈ operators, ∀ d ∈ op.getLast?, isWordStart d = false := by decide
    have hno : ['.', c] ∉ operators := fun hmem => by simpa [hstart] using hop _ hmem c rfl
    simp [Lexeme.pending, Mode.extend, isDigit_of_isWordStart hstart, hno]
  refine ⟨_, ?_, ((hparses.group ht).mono (by decide)).member (.inl rfl) name⟩
  simpa using (settles_parenthesized hscans).append_scans hpoint

/-- An element of what stands between parentheses. -/
theorem element {position : Code} {p : Tree} (h : code.ReadsAt t 0 tree) (ht : ¬tree.isType t)
    (hp : position.ReadsAt t 0 p) :
    ReadsAt t 12 (code.parenthesized ++ Lexeme.symbol "[" :: (position ++ [Lexeme.symbol "]"]))
      (.element tree p) := by
  obtain ⟨tokens, hscans, hparses⟩ := h
  obtain ⟨pts, hpscans, hpparses⟩ := hp
  have hopen : Settles ['['] [.symbol "["] := settles_symbol (s := "[") rfl
  have hclose : Settles [']'] [.symbol "]"] := settles_symbol (s := "]") rfl
  have hposition := hopen.append (hpscans.append hclose ⟨']', rfl, by decide⟩)
  refine ⟨_, ?_, ((hparses.group ht).mono (by decide)).element hpparses⟩
  simpa [toList_text, Lexeme.text] using ((settles_parenthesized hscans).append hposition).scans

/-- A call of a function by its name, with one argument. -/
theorem call {f : String} (hf : isWord f = true) (hname : .word f ∉ prefixOperators t)
    (h : code.ReadsAt t 0 tree) :
    ReadsAt t 12 (.word f :: code.parenthesized) (.call (.name f) [tree]) := by
  obtain ⟨tokens, hscans, hparses⟩ := h
  have hsettles := (Lexeme.scans (l := .word f) hf).append (settles_parenthesized hscans)
    ⟨'(', by simp [Code.parenthesized, toList_text, Lexeme.text], by decide⟩
  have hcallee : Parses t 12 [.word f] (.name f) := (Parses.name hname).mono (by decide)
  have hpieces : ∀ p ∈ [(tokens, tree)], Parses t 0 p.1 p.2 := by simpa using hparses
  have hcall := hcallee.call hpieces
  refine ⟨_, ?_, hcall⟩
  simpa [toList_text, Lexeme.token?, commaTokens] using hsettles.scans

theorem binary {ls rs : Code} {left right : Tree} (op : String)
    (hop : binaryLevel? op = some level) (hl : ls.ReadsAt t level left)
    (hr : rs.ReadsAt t (level + 1) right) :
    (ls ++ Code.operator op ++ rs).ReadsAt t level (.binary op left right) := by
  have hplain : ∀ p ∈ binaryLevels, p.1.toList ∈ operators := by decide
  obtain ⟨lts, hlscans, hlparses⟩ := hl
  obtain ⟨rts, hrscans, hrparses⟩ := hr
  have hoperator := settles_operator (hplain _ (mem_binaryLevels hop))
  have hleft := hlscans.append hoperator ⟨' ', by simp [toList_text, Code.operator, Lexeme.text],
    by decide⟩
  refine ⟨_, ?_, hlparses.binary hop hrparses⟩
  simpa using hleft.append_scans hrscans

theorem select {cs as bs : Code} {cond onTrue onFalse : Tree} (hc : cs.ReadsAt t 1 cond)
    (ha : as.ReadsAt t 0 onTrue) (hb : bs.ReadsAt t 0 onFalse) :
    (cs ++ Code.operator "?" ++ as ++ Code.operator ":" ++ bs).ReadsAt t 0
      (.select cond onTrue onFalse) := by
  obtain ⟨cts, hcscans, hcparses⟩ := hc
  obtain ⟨ats, hascans, haparses⟩ := ha
  obtain ⟨bts, hbscans, hbparses⟩ := hb
  have hcond := hcscans.append (settles_operator (s := "?") (by decide)) ⟨' ', rfl, by decide⟩
  have htrue := hascans.append (settles_operator (s := ":") (by decide)) ⟨' ', rfl, by decide⟩
  refine ⟨_, ?_, hcparses.select haparses hbparses⟩
  simpa using (hcond.append htrue).append_scans hbscans

/-- A cast with a space behind it. -/
theorem cast {type : Code} {words : List String} (h : code.ReadsAt t 11 tree)
    (htype : Scans type.text.toList (words.map .word)) (hne : words ≠ [])
    (hwords : ∀ w ∈ words, w ∈ typeWords t) :
    (type.parenthesized ++ .gap :: code).ReadsAt t 11 (.cast words tree) := by
  obtain ⟨tokens, hscans, hparses⟩ := h
  have hspace : Settles [' '] [] := .space (by decide)
  have hfront := ((settles_parenthesized htype).append hspace).append_scans hscans
  refine ⟨_, ?_, hparses.cast hne hwords⟩
  simpa [toList_text, Lexeme.text] using hfront

end ReadsAt

end Code

end Emitter.Layout
