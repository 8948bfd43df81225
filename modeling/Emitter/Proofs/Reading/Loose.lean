import Emitter.Proofs.Reading.Piece
import Emitter.Proofs.Reading.Shapes

/-!
# Code that is not strict

A number may run into the name behind it, and a sign into the sign behind it. The text is still cut
into tokens then, and its brackets and semicolons are those of the code.
-/

namespace Emitter.Reading

/-- Brackets, semicolons and the openers of comments. -/
def Token.isLoud : Token → Bool
  | .symbol s => s ∈ ["(", "[", "\x7b", ")", "]", "\x7d", ";", "//", "/*"]
  | _ => false

def loud (ts : List Token) : List Token := ts.filter Token.isLoud

@[simp] theorem loud_append (as bs : List Token) : loud (as ++ bs) = loud as ++ loud bs :=
  List.filter_append ..

@[simp] theorem loud_word (text : String) : loud [.word text] = [] := rfl

@[simp] theorem loud_number (text : String) : loud [.number text] = [] := rfl

@[simp] theorem loud_quoted (contents : String) : loud [.quoted contents] = [] := rfl

theorem depthAfter_of_not_isLoud {t : Token} (h : t.isLoud = false) (depth : Nat) :
    t.depthAfter depth = some depth := by
  cases t with
  | symbol s =>
      simp only [Token.isLoud, List.mem_cons, List.not_mem_nil, or_false, decide_eq_false_iff_not,
        not_or] at h
      simp [Token.depthAfter, h]
  | _ => rfl

theorem foldlM_loud (ts : List Token) (depth : Nat) :
    (loud ts).foldlM Token.depthAfter depth = ts.foldlM Token.depthAfter depth := by
  induction ts generalizing depth with
  | nil => rfl
  | cons t ts ih =>
      cases ht : t.isLoud with
      | true =>
          have hloud : loud (t :: ts) = t :: loud ts := List.filter_cons_of_pos ht
          rw [hloud, List.foldlM_cons, List.foldlM_cons]
          exact bind_congr fun next => ih next
      | false =>
          have hloud : loud (t :: ts) = loud ts := List.filter_cons_of_neg (by simp [ht])
          simpa [hloud, depthAfter_of_not_isLoud ht] using ih depth

theorem Balanced.of_loud_eq {as bs : List Token} (h : Balanced as) (hloud : loud bs = loud as) :
    Balanced bs := by
  intro depth
  rw [← foldlM_loud, hloud, foldlM_loud, h depth]

/-- Nothing in balanced tokens ends a statement or opens a comment. -/
theorem Balanced.not_mem {ts : List Token} (h : Balanced ts) {s : String}
    (hs : s ∈ [";", "//", "/*"]) : .symbol s ∉ ts := by
  intro hmem
  obtain ⟨before, after, rfl⟩ := List.append_of_mem hmem
  have hnone : ∀ s ∈ [";", "//", "/*"], s ∉ ["(", "[", "\x7b"] ∧ s ∉ [")", "]", "\x7d"] := by
    decide
  have hfail : ∀ depth, Token.depthAfter depth (.symbol s) = none := fun depth => by
    simp only [Token.depthAfter, if_neg (hnone s hs).1, if_neg (hnone s hs).2, if_pos hs]
  have h := h 0
  rw [List.foldlM_append] at h
  obtain ⟨depth, -, h⟩ := Option.bind_eq_some_iff.mp h
  simp [hfail] at h

/-- The character belongs to a word, a number or an operator. -/
def Readable (c : Char) : Prop := isWordChar c = true ∨ [c] ∈ operators

/-- The two characters do not open a comment. -/
def Calm (a b : Char) : Prop := a = '/' → b ∉ ['/', '*']

instance : DecidableRel Calm := fun a b => inferInstanceAs (Decidable (a = '/' → b ∉ ['/', '*']))

namespace Mode

/-- The tokens that would end here. -/
def pend (m : Mode) : List Token := m.settle.getD []

theorem Idle.settle {m : Mode} (h : m.Idle) : m.settle = some m.pend := by
  cases m <;> first | rfl | exact h.elim

theorem Idle.extend_quote {m : Mode} (h : m.Idle) : m.extend '"' = none := by
  cases m with
  | word read => simp [extend, show isWordChar '"' = false by decide]
  | number read =>
      have hnumber : ∀ before, continuesNumber before '"' = false := by
        simp [continuesNumber, show isWordChar '"' = false by decide]
      cases hlast : read.getLast? <;> simp [extend, hlast, hnumber]
  | symbol read =>
      have hall :
          ∀ op ∈ operators, ¬(op = ['.'] ∧ '"'.isDigit = true) ∧ op ++ ['"'] ∉ operators := by
        decide
      obtain ⟨hpoint, hop⟩ := hall _ h
      simp only [extend, if_neg hpoint, if_neg hop]
  | between | closed => rfl
  | opened | escaping => exact h.elim

/-- Reading the characters leads from one mode to another, and the loud tokens among those that end
on the way are the given ones. -/
structure Passes (m : Mode) (cs : List Char) (next : Mode) (ts : List Token) : Prop where
  idle : next.Idle
  reads : ∃ ended, (∀ rest, scanFrom m (cs ++ rest) = (scanFrom next rest).map (ended ++ ·)) ∧
    loud (ended ++ next.pend) = loud m.pend ++ ts

variable {m next last : Mode} {cs ds : List Char} {ts us : List Token}

theorem Passes.refl (h : m.Idle) : Passes m [] m [] := ⟨h, [], by simp, by simp⟩

theorem Passes.trans (h : Passes m cs next ts) (h' : Passes next ds last us) :
    Passes m (cs ++ ds) last (ts ++ us) := by
  obtain ⟨ended, hscan, hloud⟩ := h.reads
  obtain ⟨ended', hscan', hloud'⟩ := h'.reads
  refine ⟨h'.idle, ended ++ ended', fun rest => ?_, ?_⟩
  · rw [List.append_assoc, hscan, hscan']
    simp [Option.map_map, Function.comp_def]
  · simp only [loud_append] at hloud hloud' ⊢
    rw [List.append_assoc, hloud', ← List.append_assoc, hloud, List.append_assoc]

/-- What ends a token starts the next one. -/
theorem Passes.of_start {c : Char} (h : m.Idle) (hextend : m.extend c = none)
    (hstart : Mode.start c = some next) (hnext : next.Idle) (hloud : loud next.pend = ts) :
    Passes m [c] next ts := by
  refine ⟨hnext, m.pend, fun rest => ?_, by simp [hloud]⟩
  simp only [List.singleton_append, scanFrom, hextend, h.settle, hstart, Option.bind_eq_bind,
    Option.bind_some]
  cases scanFrom next rest <;> rfl

theorem Passes.of_extend {c : Char} (hextend : m.extend c = some next) (hnext : next.Idle)
    (hloud : loud next.pend = loud m.pend ++ ts) : Passes m [c] next ts := by
  refine ⟨hnext, [], fun rest => ?_, by simpa using hloud⟩
  simp [scanFrom, hextend]

theorem loud_of_isWordChar {c : Char} (h : isWordChar c = true) :
    loud [.symbol (String.singleton c)] = [] := by
  have hall : ∀ s ∈ ["(", "[", "\x7b", ")", "]", "\x7d", ";", "//", "/*"],
      ∀ d ∈ s.toList.head?, isWordChar d = false := by decide
  have hquiet : Token.isLoud (.symbol (String.singleton c)) = false := by
    rw [← Bool.not_eq_true]
    intro hloud
    have hmem := of_decide_eq_true hloud
    simpa [h] using hall _ hmem c (by simp)
  exact List.filter_cons_of_neg (by simp [hquiet])

/-- A token of one character ends and another begins. -/
theorem Idle.step_start (h : m.Idle) {c : Char} (hc : Readable c) (hextend : m.extend c = none) :
    ∃ next, Passes m [c] next (loud [.symbol (String.singleton c)]) ∧
      (next = symbol ['/'] → c = '/') := by
  rcases hc with hword | hop
  · rcases Bool.or_eq_true _ _ ▸ hword with hstart | hdigit
    · exact ⟨_, .of_start h hextend (start_of_isWordStart hstart) trivial
        (loud_of_isWordChar hword).symm, by simp⟩
    · exact ⟨_, .of_start h hextend (start_of_isDigit hdigit) trivial
        (loud_of_isWordChar hword).symm, by simp⟩
  · have hstart : ∀ op ∈ operators, ∀ c ∈ op.head?, op = [c] → start c = some (symbol [c]) := by
      decide
    exact ⟨_, .of_start h hextend (hstart [c] hop c rfl rfl) hop (by simp [pend, Mode.settle]),
      by simp⟩

/-- A token goes on. -/
theorem Idle.step_extend (h : m.Idle) {c : Char} (hslash : m = symbol ['/'] → c ∉ ['/', '*'])
    (hextend : m.extend c = some next) :
    Passes m [c] next (loud [.symbol (String.singleton c)]) ∧ next ≠ symbol ['/'] := by
  cases m with
  | word read =>
      have hword : isWordChar c = true ∧ word (read ++ [c]) = next := by
        simpa [extend] using hextend
      obtain ⟨hword, rfl⟩ := hword
      exact ⟨.of_extend hextend trivial (by simp [pend, Mode.settle, loud_of_isWordChar hword]),
        by simp⟩
  | number read =>
      have hnumber : read.getLast?.any (continuesNumber · c) = true ∧
          number (read ++ [c]) = next := by
        simpa [extend] using hextend
      obtain ⟨hany, rfl⟩ := hnumber
      have hquiet : loud [.symbol (String.singleton c)] = [] := by
        obtain ⟨before, hcontinues⟩ : ∃ before, continuesNumber before c = true := by
          cases hlast : read.getLast? with
          | none => simp [hlast] at hany
          | some before => exact ⟨before, by simpa [hlast] using hany⟩
        by_cases hword : isWordChar c = true
        · exact loud_of_isWordChar hword
        · have hc : c = '.' ∨ c = '+' ∨ c = '-' := by
            simp only [continuesNumber, hword, Bool.false_or, Bool.or_eq_true, Bool.and_eq_true,
              beq_iff_eq] at hcontinues
            tauto
          rcases hc with rfl | rfl | rfl <;> decide
      exact ⟨.of_extend hextend trivial (by simp [pend, Mode.settle, hquiet]), by simp⟩
  | symbol read =>
      have hop : ∀ op ∈ operators, 2 ≤ op.length → op ∉ [['/', '/'], ['/', '*']] →
          loud [.symbol (String.ofList op)] = [] ∧ loud [.symbol (String.ofList op.dropLast)] = [] ∧
            ∀ d ∈ op.getLast?, loud [.symbol (String.singleton d)] = [] := by decide
      have hne : ∀ op ∈ operators, op ≠ [] := by decide
      simp only [extend] at hextend
      split_ifs at hextend with hpoint hmem
      · obtain rfl := Option.some.inj hextend
        obtain ⟨rfl, hdigit⟩ := hpoint
        have hquiet := loud_of_isWordChar (c := c) (by simp [isWordChar, hdigit])
        refine ⟨.of_extend (by simp [extend, hdigit]) trivial ?_, by simp⟩
        simpa [hquiet, pend, Mode.settle]
          using (by decide : loud [.symbol (String.ofList ['.'])] = [])
      · obtain rfl := Option.some.inj hextend
        have hread := hne read h
        have hlength : 2 ≤ (read ++ [c]).length := by
          have := List.length_pos_iff.mpr hread
          simp
          omega
        have hplain : read ++ [c] ∉ [['/', '/'], ['/', '*']] := by
          intro hcomment
          have hsplit : ∃ d ∈ ['/', '*'], read ++ [c] = ['/'] ++ [d] := by simpa using hcomment
          obtain ⟨d, hd, hsplit⟩ := hsplit
          obtain ⟨rfl, hlast⟩ := List.append_inj' hsplit rfl
          obtain rfl : c = d := by simpa using hlast
          exact hslash rfl hd
        obtain ⟨hnext, hbefore, hlast⟩ := hop _ hmem hlength hplain
        have hlast : loud [.symbol (String.singleton c)] = [] := hlast c (by simp)
        rw [List.dropLast_concat] at hbefore
        have hne : symbol (read ++ [c]) ≠ symbol ['/'] := by
          rintro hsame
          rw [symbol.inj hsame] at hlength
          simp at hlength
        refine ⟨.of_extend (by simp [extend, hpoint, hmem]) hmem ?_, hne⟩
        simp only [pend, Mode.settle, Option.getD_some]
        rw [hnext, hbefore, hlast]
        rfl
  | between | closed => simp [extend] at hextend
  | opened | escaping => exact h.elim

theorem Idle.step (h : m.Idle) {c : Char} (hc : Readable c)
    (hslash : m = symbol ['/'] → c ∉ ['/', '*']) :
    ∃ next, Passes m [c] next (loud [.symbol (String.singleton c)]) ∧
      (next = symbol ['/'] → c = '/') := by
  cases hextend : m.extend c with
  | none => exact h.step_start hc hextend
  | some next =>
      obtain ⟨hpasses, hne⟩ := h.step_extend hslash hextend
      exact ⟨next, hpasses, fun heq => absurd heq hne⟩

/-- What is loud in characters that are read one after the other. -/
def sounds (cs : List Char) : List Token :=
  cs.flatMap fun c => loud [.symbol (String.singleton c)]

theorem Idle.chars (h : m.Idle) (hread : ∀ c ∈ cs, Readable c) (hcalm : cs.IsChain Calm)
    (hslash : m = symbol ['/'] → ∀ c ∈ cs.head?, c ∉ ['/', '*']) (hne : cs ≠ []) :
    ∃ next, Passes m cs next (sounds cs) ∧
      (next = symbol ['/'] → cs.getLast? = some '/') := by
  induction cs generalizing m with
  | nil => exact absurd rfl hne
  | cons c cs ih =>
      obtain ⟨hc, hcs⟩ := List.forall_mem_cons.mp hread
      obtain ⟨next, hpasses, hnext⟩ := h.step hc fun hm => hslash hm c rfl
      cases cs with
      | nil => exact ⟨next, by simpa [sounds] using hpasses, fun heq => by simp [hnext heq]⟩
      | cons d ds =>
          have hcalm := List.isChain_cons_cons.mp hcalm
          obtain ⟨last, hpasses', hlast⟩ := ih hpasses.idle hcs hcalm.2
            (fun heq e he => by
              obtain rfl : d = e := by simpa using he
              exact hcalm.1 (hnext heq)) (by simp)
          refine ⟨last, ?_, fun heq => by simpa [List.getLast?_cons_cons] using hlast heq⟩
          simpa [sounds] using hpasses.trans hpasses'

/-! What the scanner has read of a token is the start of that token, whatever follows. -/

/-- A token that starts with what has been read. -/
def Leads : Mode → Token → Prop
  | between, _ => False
  | word read, t => ∃ more, t = .word (String.ofList (read ++ more))
  | number _, t => ∃ text, t = .number text
  | opened _, t | escaping _, t | closed _, t => ∃ contents, t = .quoted contents
  | symbol read, t =>
    (∃ more, t = .symbol (String.ofList (read ++ more))) ∨ ∃ text, t = .number text

theorem Leads.of_extend {c : Char} {t : Token} (hextend : m.extend c = some next)
    (h : next.Leads t) : m.Leads t := by
  cases m with
  | between | closed => simp [extend] at hextend
  | word read =>
      have hnext : isWordChar c = true ∧ word (read ++ [c]) = next := by
        simpa [extend] using hextend
      obtain ⟨-, rfl⟩ := hnext
      obtain ⟨more, rfl⟩ := h
      exact ⟨c :: more, by simp⟩
  | number read =>
      have hnext :
          read.getLast?.any (continuesNumber · c) = true ∧ number (read ++ [c]) = next := by
        simpa [extend] using hextend
      obtain ⟨-, rfl⟩ := hnext
      exact h
  | opened read =>
      simp only [extend] at hextend
      split_ifs at hextend <;> obtain rfl := Option.some.inj hextend <;> exact h
  | escaping read =>
      obtain ⟨d, -, rfl⟩ := Option.map_eq_some_iff.mp hextend
      exact h
  | symbol read =>
      simp only [extend] at hextend
      split_ifs at hextend
      · obtain rfl := Option.some.inj hextend
        exact .inr h
      · obtain rfl := Option.some.inj hextend
        rcases h with ⟨more, rfl⟩ | h
        · exact .inl ⟨c :: more, by simp⟩
        · exact .inr h

theorem Leads.of_settle {ended : List Token} (hm : m ≠ between) (h : m.settle = some ended) :
    ∃ t, ended = [t] ∧ m.Leads t := by
  cases m with
  | between => exact absurd rfl hm
  | opened | escaping => simp [Mode.settle] at h
  | word read => exact ⟨_, (Option.some.inj h).symm, [], by simp⟩
  | number read => exact ⟨_, (Option.some.inj h).symm, _, rfl⟩
  | closed read => exact ⟨_, (Option.some.inj h).symm, _, rfl⟩
  | symbol read => exact ⟨_, (Option.some.inj h).symm, .inl ⟨[], by simp⟩⟩

theorem ne_between_of_extend {c : Char} (h : m.extend c = some next) : next ≠ between := by
  rintro rfl
  cases m with
  | escaping read =>
      obtain ⟨d, -, hd⟩ := Option.map_eq_some_iff.mp h
      simp at hd
  | between | closed => simp [extend] at h
  | word | number | opened | symbol =>
      simp only [extend] at h
      split_ifs at h <;> simp at h

theorem leads_of_scanFrom (hm : m ≠ between) (h : scanFrom m cs = some ts) :
    ∃ t, ts.head? = some t ∧ m.Leads t := by
  induction cs generalizing m ts with
  | nil =>
      obtain ⟨t, rfl, ht⟩ := Leads.of_settle hm h
      exact ⟨t, rfl, ht⟩
  | cons c cs ih =>
      rw [scanFrom] at h
      cases hextend : m.extend c with
      | some next =>
          rw [hextend] at h
          obtain ⟨t, hhead, ht⟩ := ih (ne_between_of_extend hextend) h
          exact ⟨t, hhead, ht.of_extend hextend⟩
      | none =>
          rw [hextend] at h
          obtain ⟨ended, hsettle, h⟩ := Option.bind_eq_some_iff.mp h
          obtain ⟨next, -, h⟩ := Option.bind_eq_some_iff.mp h
          obtain ⟨rest, -, h⟩ := Option.bind_eq_some_iff.mp h
          obtain ⟨t, rfl, ht⟩ := Leads.of_settle hm hsettle
          obtain rfl := Option.some.inj h
          exact ⟨t, rfl, ht⟩

end Mode

/-- The text has the given tokens wherever nothing runs into its end. -/
def Scans (text : List Char) (ts : List Token) : Prop :=
  ∀ rest : List Char, (∀ c ∈ rest.head?, c ∈ separateChars) →
    scanFrom .between (text ++ rest) = (scanFrom .between rest).map (ts ++ ·)

/-- The text has the given tokens whatever follows. -/
def Settles (text : List Char) (ts : List Token) : Prop :=
  ∀ rest, scanFrom .between (text ++ rest) = (scanFrom .between rest).map (ts ++ ·)

section Texts

variable {first second : List Char} {ts us : List Token}

theorem Scans.nil : Scans [] [] := fun rest _ => by simp

theorem Scans.scanFrom_eq (h : Scans first ts) : scanFrom .between first = some ts := by
  simpa [scanFrom] using h [] (by simp)

theorem Settles.scans (h : Settles first ts) : Scans first ts := fun rest _ => h rest

theorem Settles.append (h : Settles first ts) (h' : Settles second us) :
    Settles (first ++ second) (ts ++ us) := by
  intro rest
  rw [List.append_assoc, h, h', Option.map_map]
  simp [Function.comp_def]

theorem Settles.append_scans (h : Settles first ts) (h' : Scans second us) :
    Scans (first ++ second) (ts ++ us) := by
  intro rest hrest
  rw [List.append_assoc, h, h' rest hrest, Option.map_map]
  simp [Function.comp_def]

theorem Scans.append (h : Scans first ts) (h' : Settles second us)
    (hsecond : ∃ c ∈ second.head?, c ∈ separateChars) : Settles (first ++ second) (ts ++ us) := by
  intro rest
  obtain ⟨c, hc, hseparate⟩ := hsecond
  have hhead : ∀ d ∈ (second ++ rest).head?, d ∈ separateChars := by
    intro d hd
    obtain rfl : c = d := by
      cases second with
      | nil => simp at hc
      | cons e second =>
          obtain rfl : e = c := by simpa using hc
          simpa using hd
    exact hseparate
  rw [List.append_assoc, h _ hhead, h', Option.map_map]
  simp [Function.comp_def]

theorem Settles.space {c : Char} (h : c ∈ [' ', '\t', '\n']) : Settles [c] [] := by
  have hstart : ∀ c ∈ [' ', '\t', '\n'], Mode.start c = some .between := by decide
  intro rest
  simp [scanFrom_start (hstart c h)]

end Texts

end Emitter.Reading

namespace Emitter.Layout

open Reading

namespace Lexeme

/-- The character is in words and numbers. -/
structure Quiet (c : Char) : Prop where
  readable : Readable c
  ne_slash : c ≠ '/'
  loud : loud [.symbol (String.singleton c)] = []

theorem quiet_of_isWordChar {c : Char} (h : isWordChar c = true) : Quiet c := by
  refine ⟨.inl h, ?_, Mode.loud_of_isWordChar h⟩
  rintro rfl
  revert h
  decide

theorem quiet_of_isWord {text : String} (h : isWord text = true) :
    ∀ c ∈ text.toList, Quiet c := by
  cases ht : text.toList with
  | nil => simp
  | cons c cs =>
      obtain ⟨hc, hcs⟩ : isWordStart c = true ∧ cs.all isWordChar = true := by
        simpa [isWord, ht] using h
      exact List.forall_mem_cons.mpr ⟨quiet_of_isWordChar (by simp [isWordChar, hc]),
        fun d hd => quiet_of_isWordChar (List.all_eq_true.mp hcs d hd)⟩

theorem quiet_of_numberTail {before : Char} {cs : List Char}
    (h : numberTail before cs = true) : ∀ c ∈ cs, Quiet c := by
  induction cs generalizing before with
  | nil => simp
  | cons c cs ih =>
      obtain ⟨hc, hcs⟩ : continuesNumber before c = true ∧ numberTail c cs = true := by
        simpa [numberTail] using h
      refine List.forall_mem_cons.mpr ⟨?_, ih hcs⟩
      by_cases hword : isWordChar c = true
      · exact quiet_of_isWordChar hword
      · have hsign : c = '.' ∨ c = '+' ∨ c = '-' := by
          simp only [continuesNumber, hword, Bool.false_or, Bool.or_eq_true, Bool.and_eq_true,
            beq_iff_eq] at hc
          tauto
        rcases hsign with rfl | rfl | rfl <;> exact ⟨.inr (by decide), by decide, by decide⟩

theorem quiet_of_isNumber {text : String} (h : isNumber text = true) :
    ∀ c ∈ text.toList, Quiet c := by
  cases ht : text.toList with
  | nil => simp
  | cons c cs =>
      obtain ⟨hc, hcs⟩ : c.isDigit = true ∧ numberTail c cs = true := by
        simpa [isNumber, ht] using h
      exact List.forall_mem_cons.mpr ⟨quiet_of_isWordChar (by simp [isWordChar, hc]),
        quiet_of_numberTail hcs⟩

/-- A lexeme that does not go on with the token in front of it. -/
theorem passes_of_extend {m : Mode} (hm : m.Idle) {l : Lexeme} (h : l.Spelled)
    (hextend : ∀ c ∈ l.text.toList.head?, m.extend c = none) :
    m.Passes l.text.toList l.pending (loud l.token?.toList) := by
  refine ⟨idle_pending h, m.pend, fun rest => ?_, by simp [Mode.pend]⟩
  obtain ⟨c, cs, htext⟩ := text_eq_cons h
  have hhead : ∀ d ∈ (l.text.toList ++ rest).head?, m.extend d = none := by
    intro d hd
    exact hextend d (by simpa [htext] using hd)
  rw [scanFrom_settle hm.settle hhead, scanFrom_text h]

theorem isChain_calm {cs : List Char} (h : ∀ c ∈ cs, c ≠ '/') : cs.IsChain Calm := by
  induction cs with
  | nil => exact .nil
  | cons c cs ih =>
      obtain ⟨hc, hcs⟩ := List.forall_mem_cons.mp h
      exact List.isChain_cons.mpr ⟨fun _ _ heq => absurd heq hc, ih hcs⟩

/-- A word or a number, which may go on with the token in front of it. -/
theorem passes_quiet {m : Mode} (hm : m.Idle) {cs : List Char} (hne : cs ≠ [])
    (h : ∀ c ∈ cs, Quiet c) (hslash : m ≠ .symbol ['/']) :
    ∃ next, m.Passes cs next [] ∧ next ≠ .symbol ['/'] := by
  obtain ⟨next, hpasses, hnext⟩ := hm.chars (fun c hc => (h c hc).readable)
    (isChain_calm fun c hc => (h c hc).ne_slash) (fun heq => absurd heq hslash) hne
  have hsounds : Mode.sounds cs = [] := List.flatMap_eq_nil_iff.mpr fun c hc => (h c hc).loud
  refine ⟨next, hsounds ▸ hpasses, fun heq => ?_⟩
  exact (h '/' (List.mem_of_getLast? (hnext heq))).ne_slash rfl

theorem passes {m : Mode} (hm : m.Idle) {l : Lexeme} (h : l.Spelled)
    (hcomment : l ≠ symbol "//" ∧ l ≠ symbol "/*") (hslash : m = .symbol ['/'] → l = gap) :
    ∃ next, m.Passes l.text.toList next (loud l.token?.toList) ∧
      (next = .symbol ['/'] → l = symbol "/") := by
  obtain ⟨first, others, htext⟩ := text_eq_cons h
  have hquiet : l ≠ gap → (∀ c ∈ l.text.toList, Quiet c) → loud l.token?.toList = [] →
      ∃ next, m.Passes l.text.toList next (loud l.token?.toList) ∧
        (next = .symbol ['/'] → l = symbol "/") := by
    intro hgap hquiet hloud
    obtain ⟨next, hpasses, hnext⟩ := passes_quiet hm (by simp [htext]) hquiet
      fun heq => hgap (hslash heq)
    exact ⟨next, hloud ▸ hpasses, fun heq => absurd heq hnext⟩
  cases l with
  | gap =>
      refine ⟨_, passes_of_extend hm h fun c hc => ?_, by simp [pending]⟩
      exact hm.extend_separateChar (mem_separateChars_of_isSeparate rfl hc)
  | quoted contents =>
      refine ⟨_, passes_of_extend hm h fun c hc => ?_, by simp [pending]⟩
      obtain rfl : '"' = c := by simpa [Lexeme.text, Text.quoted] using hc
      exact hm.extend_quote
  | word text => exact hquiet (by simp) (quiet_of_isWord h) rfl
  | supplied text supplier => exact hquiet (by simp) (quiet_of_isWord h) rfl
  | number text => exact hquiet (by simp) (quiet_of_isNumber h) rfl
  | symbol text =>
      have hop : ∀ op ∈ operators, op ∉ [['/', '/'], ['/', '*']] →
          op.IsChain Calm ∧ (∀ c ∈ op, [c] ∈ operators) ∧
            Mode.sounds op = loud [.symbol (String.ofList op)] ∧
              (op.getLast? = some '/' → op = ['/']) := by decide
      have hplain : text.toList ∉ [['/', '/'], ['/', '*']] := by
        intro hmem
        have hcases : text = "//" ∨ text = "/*" := by
          simpa [← String.toList_inj] using hmem
        rcases hcases with rfl | rfl
        · exact hcomment.1 rfl
        · exact hcomment.2 rfl
      obtain ⟨hcalm, hread, hsounds, hlast⟩ := hop _ h hplain
      obtain ⟨next, hpasses, hnext⟩ := hm.chars (fun c hc => .inr (hread c hc)) hcalm
        (fun heq => absurd (hslash heq) (by simp)) (List.ne_nil_of_length_pos (by
          rw [show text.toList = first :: others from htext]
          simp))
      rw [String.ofList_toList] at hsounds
      refine ⟨next, hsounds ▸ hpasses, fun heq => ?_⟩
      exact congrArg symbol (String.toList_inj.mp (hlast (hnext heq)))

end Lexeme

namespace Code

open Lexeme

/-- The text of tidy code is cut into tokens whose loud ones are those of the code. -/
theorem passes {m : Mode} (hm : m.Idle) {code : Code}
    (hs : ∀ l ∈ code, l.Spelled ∧ l ≠ .symbol "//" ∧ l ≠ .symbol "/*")
    (hc : code.IsChain (Joint false)) (hslash : m = .symbol ['/'] → ∀ l ∈ code.head?, l = gap) :
    ∃ next, m.Passes code.text.toList next (loud code.tokens) := by
  induction code generalizing m with
  | nil => exact ⟨m, by simpa [Code.text, loud] using Mode.Passes.refl hm⟩
  | cons l code ih =>
      obtain ⟨⟨hl, hcomment⟩, hs⟩ := List.forall_mem_cons.mp hs
      obtain ⟨next, hpasses, hnext⟩ := Lexeme.passes hm hl hcomment fun heq => hslash heq l rfl
      have hslash' : next = .symbol ['/'] → ∀ b ∈ code.head?, b = gap := by
        intro heq b hb
        exact ((List.isChain_cons.mp hc).1 b hb).slash (.inl (hnext heq))
      obtain ⟨last, hpasses'⟩ := ih hpasses.idle hs (List.isChain_of_isChain_cons hc) hslash'
      refine ⟨last, ?_⟩
      have htext : (Code.text (l :: code)).toList = l.text.toList ++ (Code.text code).toList := by
        simp [toList_text]
      have hsounds : loud (tokens (l :: code)) = loud l.token?.toList ++ loud (tokens code) := by
        rw [← loud_append]
        cases htoken : l.token? <;> simp [tokens, htoken]
      rw [htext, hsounds]
      exact hpasses.trans hpasses'

/-- A bracket, a comma or a semicolon is a token whatever follows. -/
theorem settles_symbol {s : String} (h : (Lexeme.symbol s).isSeparate = true) :
    Settles s.toList [.symbol s] := by
  have hmem : ∀ s ∈ ["(", ")", "[", "]", "\x7b", "\x7d", ",", ";"], s.toList ∈ operators := by
    decide
  have hspelled : (Lexeme.symbol s).Spelled := hmem s (by simpa [isSeparate] using h)
  intro rest
  refine (Lexeme.scanFrom_text hspelled rest).trans ?_
  exact scanFrom_settle (Lexeme.settle_pending _) fun c _ => extend_pending_of_isSeparate h c

theorem Tidy.exists_scans {code : Code} (h : Code.Tidy false code) :
    ∃ ts, Scans code.text.toList ts ∧ Balanced ts := by
  have hcomment : ∀ l ∈ code, l.Spelled ∧ l ≠ .symbol "//" ∧ l ≠ .symbol "/*" := by
    intro l hl
    refine ⟨h.spelled l hl, ?_, ?_⟩ <;> rintro rfl
    · exact h.balanced.not_mem (by decide) (List.mem_filterMap.mpr ⟨_, hl, rfl⟩)
    · exact h.balanced.not_mem (by decide) (List.mem_filterMap.mpr ⟨_, hl, rfl⟩)
  obtain ⟨next, hpasses⟩ := passes (m := .between) trivial hcomment h.joint nofun
  obtain ⟨ended, hscan, hloud⟩ := hpasses.reads
  refine ⟨ended ++ next.pend, fun rest hrest => ?_, h.balanced.of_loud_eq hloud⟩
  rw [hscan, scanFrom_settle hpasses.idle.settle
    fun c hc => hpasses.idle.extend_separateChar (hrest c hc)]
  simp [Option.map_map, Function.comp_def]

theorem isWordChar_head {b : Lexeme} (h : b.Spelled) (hb : b.isWordlike = false) :
    ∀ c ∈ b.text.toList.head?, isWordChar c = false := by
  intro c hc
  cases b with
  | gap =>
      obtain rfl : ' ' = c := by simpa [Lexeme.text] using hc
      decide
  | quoted contents =>
      obtain rfl : '"' = c := by simpa [Lexeme.text, Text.quoted] using hc
      decide
  | symbol s =>
      have hall : ∀ op ∈ operators, ∀ c ∈ op.head?, isWordChar c = false := by decide
      exact hall _ h c hc
  | _ => simp [isWordlike] at hb

/-- A word in front of the rest of tidy code is a token. -/
theorem scanFrom_word {text : String} {code : Code} (hs : ∀ l ∈ code, l.Spelled)
    (hnext : ∀ b ∈ code.head?, b.isWordlike = false) {ts : List Token}
    (h : scanFrom (.word text.toList) code.text.toList = some ts) :
    ts.head? = some (.word text) := by
  have hextend : ∀ c ∈ code.text.toList.head?, (Mode.word text.toList).extend c = none := by
    cases code with
    | nil => simp [Code.text]
    | cons b code =>
        obtain ⟨c, cs, hb⟩ := text_eq_cons (hs b (by simp))
        have hchar := isWordChar_head (hs b (by simp)) (hnext b rfl) c (by simp [hb])
        simp [toList_text, hb, Mode.extend, hchar]
  rw [scanFrom_settle rfl hextend] at h
  obtain ⟨us, -, rfl⟩ := Option.map_eq_some_iff.mp h
  simp

/-- The first token of tidy code that begins as an expression does is not the start of a statement
of another kind than an expression. -/
theorem not_mem_openers_of_begins {code : Code} (h : Code.Tidy false code)
    (hbegins : ∀ l ∈ code.head?, l.Begins) {ts : List Token} (hts : Scans code.text.toList ts) :
    ∀ t ∈ ts.head?, t ∉ Shape.openers := by
  cases code with
  | nil =>
      have hnil : some ts = some [] := by
        simpa [Code.text, scanFrom] using (hts [] (by simp)).symm
      simp [Option.some.inj hnil]
  | cons l code =>
      have hl : l.Spelled := h.spelled l (by simp)
      have hscan : scanFrom l.pending (Code.text code).toList = some ts := by
        have hts := hts [] (by simp)
        have htext : (Code.text (l :: code)).toList = l.text.toList ++ (Code.text code).toList := by
          simp [toList_text]
        rw [htext, List.append_nil, Lexeme.scanFrom_text hl] at hts
        simpa [scanFrom] using hts
      have hbegins : l.Begins := hbegins l rfl
      intro t ht
      have hleads : l ≠ .gap → l.pending.Leads t := by
        intro hgap
        obtain ⟨t', ht', hleads⟩ := Mode.leads_of_scanFrom
          (by cases l <;> simp_all [Lexeme.pending]) hscan
        rwa [Option.mem_unique ht ht']
      cases l with
      | gap => exact hbegins.elim
      | number text =>
          obtain ⟨text, rfl⟩ := hleads (by simp)
          simp [Shape.openers]
      | quoted contents =>
          obtain ⟨contents, rfl⟩ := hleads (by simp)
          simp [Shape.openers]
      | symbol s =>
          have hall : ∀ s ∈ ["(", "[", "-", "!", "~", "++", "--", "&"],
              s.toList ≠ [] ∧ s.toList.head? ≠ some '\x7b' ∧ s.toList.head? ≠ some '\x7d' := by
            decide
          obtain ⟨hne, hopen, hclose⟩ := hall s hbegins
          rcases hleads (by simp) with ⟨more, rfl⟩ | ⟨text, rfl⟩
          · have hhead : (s.toList ++ more).head? = s.toList.head? := by
              cases hs : s.toList with
              | nil => exact absurd hs hne
              | cons c cs => rfl
            have hbrace : ∀ brace : Char, s.toList.head? ≠ some brace →
                String.ofList (s.toList ++ more) ≠ String.singleton brace := by
              rintro brace hbrace heq
              have hlist : s.toList ++ more = [brace] := by simpa using congrArg String.toList heq
              exact hbrace (by rw [← hhead, hlist]; rfl)
            have hopen := hbrace '\x7b' hopen
            have hclose := hbrace '\x7d' hclose
            simp only [Shape.openers, List.mem_cons, List.not_mem_nil, or_false, reduceCtorEq,
              false_or, Token.symbol.injEq, not_or]
            exact ⟨hopen, hclose⟩
          · simp [Shape.openers]
      | word text | supplied text _ =>
          have hfirst : ts.head? = some (.word text) :=
            scanFrom_word (fun b hb => h.spelled b (by simp [hb]))
              (fun b hb => ((List.isChain_cons.mp h.joint).1 b hb).wordlike rfl) hscan
          obtain rfl := Option.mem_unique ht hfirst
          have hno : text ∉ statementWords := hbegins
          simp only [statementWords, List.mem_cons, List.not_mem_nil, or_false, not_or] at hno
          simp [Shape.openers, hno]

end Code

end Emitter.Layout
