import Emitter.Proofs.Brackets.Files
import Emitter.Proofs.Json.Text
import Emitter.Proofs.Types.Tables

/-!
# Tables of bytes

The bytes of a resource are printed as hexadecimal constants in rows of at most sixteen. Whatever
bytes there are, what stands between the braces of the table is read back as them.
-/

namespace Emitter

open Layout Reading Text

namespace Reading

/-- The value of hexadecimal digits behind digits of the given value. -/
def hexadecimalFrom : Nat → List Char → Option Nat
  | value, [] => some value
  | value, c :: cs => do hexadecimalFrom (value * 16 + (← Json.hexValue c)) cs

/-- The value of a hexadecimal constant, which has one digit at least. -/
def hexadecimal? (text : String) : Option Nat :=
  match text.toList with
  | '0' :: x :: c :: cs => if x = 'x' ∨ x = 'X' then hexadecimalFrom 0 (c :: cs) else none
  | _ => none

/-- The values of hexadecimal constants. A comma stands between any two neighbours, and nowhere
else. -/
def constants? : List Token → Option (List Nat)
  | [] => some []
  | [.number text] => (hexadecimal? text).map ([·])
  | .number text :: .symbol "," :: next :: rest => do
    return (← hexadecimal? text) :: (← constants? (next :: rest))
  | _ => none

/-- What stands between the braces of a definition that ends with them and a semicolon. -/
def braced? (tokens : List Token) : Option (List Token) :=
  match tokens.dropWhile (· ≠ .symbol "\x7b") with
  | [] => none
  | _ :: rest =>
    let inside := rest.takeWhile (· ≠ .symbol "\x7d")
    if rest.drop inside.length = [.symbol "\x7d", .symbol ";"] then some inside else none

def Token.isNumber : Token → Bool
  | .number _ => true
  | _ => false

theorem braced?_eq_some {front inside : List Token} (hfront : Token.symbol "\x7b" ∉ front)
    (hinside : Token.symbol "\x7d" ∉ inside) :
    braced? (front ++ Token.symbol "\x7b" :: (inside ++ [Token.symbol "\x7d", Token.symbol ";"])) =
      some inside := by
  have hopened : ∀ rest : List Token,
      (front ++ Token.symbol "\x7b" :: rest).dropWhile (· ≠ Token.symbol "\x7b") =
        Token.symbol "\x7b" :: rest := fun rest => by
    rw [List.dropWhile_append_of_pos fun t ht => by simpa using ne_of_mem_of_not_mem ht hfront]
    simp
  have hclosed : (inside ++ [Token.symbol "\x7d", Token.symbol ";"]).takeWhile
      (· ≠ Token.symbol "\x7d") = inside := by
    rw [List.takeWhile_append_of_pos fun t ht => by simpa using ne_of_mem_of_not_mem ht hinside]
    simp
  rw [braced?, hopened]
  simp only [hclosed, List.drop_left, if_true]

theorem commaTokens_append {first rest : List (List Token)} (hfirst : first ≠ [])
    (hrest : rest ≠ []) :
    commaTokens (first ++ rest) = commaTokens first ++ Token.symbol "," :: commaTokens rest := by
  obtain ⟨next, rest, rfl⟩ := List.exists_cons_of_ne_nil hrest
  induction first with
  | nil => exact absurd rfl hfirst
  | cons piece first ih =>
      cases first with
      | nil => simp [commaTokens]
      | cons second first =>
          have hbehind := ih (by simp)
          simp only [commaTokens, List.cons_append, List.intersperse_cons_cons,
            List.flatten_cons] at hbehind ⊢
          rw [hbehind]
          simp

end Reading

namespace CFamily

/-! The bytes are printed in rows of sixteen. Put together, the rows are the bytes again. -/

theorem flatten_byteRows {fuel : Nat} {bytes : List UInt8} (h : bytes.length ≤ fuel) :
    (byteRows fuel bytes).flatten = bytes := by
  induction fuel generalizing bytes with
  | zero => simp [List.length_eq_zero_iff.mp (Nat.le_zero.mp h), byteRows]
  | succ fuel ih =>
      cases bytes with
      | nil => simp [byteRows]
      | cons b bytes =>
          have hrest : ((b :: bytes).drop 16).length ≤ fuel := by
            simp only [List.length_drop, List.length_cons] at h ⊢
            omega
          rw [byteRows, List.flatten_cons, ih hrest, List.take_append_drop]
          exact List.cons_ne_nil b bytes

theorem length_row {fuel : Nat} {bytes row : List UInt8} (h : row ∈ byteRows fuel bytes) :
    row ≠ [] ∧ row.length ≤ 16 := by
  induction fuel generalizing bytes with
  | zero => simp [byteRows] at h
  | succ fuel ih =>
      cases bytes with
      | nil => simp [byteRows] at h
      | cons b bytes =>
          rw [byteRows] at h
          · rcases List.mem_cons.mp h with rfl | h
            · exact ⟨by simp, List.length_take_le 16 _⟩
            · exact ih h
          · exact List.cons_ne_nil b bytes

def byteToken (b : UInt8) : Token := .number (byteLexeme b).text

def byteTokens (bytes : List UInt8) : List Token := commaTokens (bytes.map fun b => [byteToken b])

def rowCode (row : List UInt8) : Code := Code.commaSeparated (row.map fun b => [byteLexeme b])

/-- The lines of the rows, all but the last with a comma at their end. -/
def rowLines : List (List UInt8) → List Code
  | [] => []
  | [row] => [rowCode row]
  | row :: rest => (rowCode row ++ [.symbol ","]) :: rowLines rest

theorem hexadecimal?_byte (b : UInt8) : hexadecimal? (byteLexeme b).text = some b.toNat := by
  have hlt : b.toNat < 256 := b.toNat_lt
  have hhigh := Json.hexValue_digitChar (show b.toNat / 16 < 16 by omega)
  have hlow := Json.hexValue_digitChar (show b.toNat % 16 < 16 by omega)
  simp only [hexadecimal?, byteLexeme, Lexeme.text, String.toList_append, String.toList_ofList]
  simp [hexadecimalFrom, hhigh, hlow]
  omega

theorem byteTokens_cons_cons (b next : UInt8) (bytes : List UInt8) :
    byteTokens (b :: next :: bytes) =
      byteToken b :: .symbol "," :: byteTokens (next :: bytes) := by
  simp [byteTokens, commaTokens]

theorem constants?_byteTokens (bytes : List UInt8) :
    constants? (byteTokens bytes) = some (bytes.map UInt8.toNat) := by
  induction bytes with
  | nil => rfl
  | cons b bytes ih =>
      cases bytes with
      | nil =>
          have hvalue := hexadecimal?_byte b
          simp [byteTokens, commaTokens, byteToken, constants?, hvalue]
      | cons next bytes =>
          obtain ⟨rest, hrest⟩ :
              ∃ rest, byteTokens (next :: bytes) = byteToken next :: rest := by
            cases bytes <;> exact ⟨_, rfl⟩
          rw [hrest] at ih
          rw [byteTokens_cons_cons, hrest, byteToken, constants?, ih, hexadecimal?_byte]
          rfl

theorem tokens_rowCode (row : List UInt8) : (rowCode row).tokens = byteTokens row := by
  have hbyte : ∀ b, Code.tokens [byteLexeme b] = [byteToken b] := fun b => rfl
  simp only [rowCode, byteTokens, Piece.tokens_commaSeparated, List.map_map, Function.comp_def,
    hbyte]

theorem tokens_rowLines {rows : List (List UInt8)} (h : ∀ row ∈ rows, row ≠ []) :
    (rowLines rows).flatMap Code.tokens = byteTokens rows.flatten := by
  induction rows with
  | nil => rfl
  | cons row rows ih =>
      obtain ⟨hrow, hrows⟩ := List.forall_mem_cons.mp h
      cases rows with
      | nil => simp [rowLines, tokens_rowCode]
      | cons next rows =>
          have hnext : ((next :: rows).flatten.map fun b => [byteToken b]) ≠ [] := by
            simpa using fun hnil => absurd hnil (hrows next (by simp))
          have hfirst : (row.map fun b => [byteToken b]) ≠ [] := by simpa using hrow
          have hall := commaTokens_append hfirst hnext
          have hmap : byteTokens (row :: next :: rows).flatten =
              byteTokens row ++ Token.symbol "," :: byteTokens (next :: rows).flatten := by
            rw [byteTokens, List.flatten_cons, List.map_append, hall]
            rfl
          rw [rowLines, List.flatMap_cons, ih hrows, Code.tokens_append, tokens_rowCode, hmap]
          · simp
          · simp

/-- What stands in front of the bytes. -/
def resourceHead (d : Dialect) (name : String) : Code :=
  d.tableStorage ++ [d.readOnly, .gap, .word "unsigned", .gap, .word "char", .gap,
    .word (resourceName name), .symbol "[", .symbol "]"] ++ Code.operator "=" ++ [.symbol "\x7b"]

/-- The lines of a table, each with its level. -/
def resourceLines (d : Dialect) (name : String) (rows : List (List UInt8)) : List (Nat × Code) :=
  (0, resourceHead d name) :: ((rowLines rows).map (1, ·) ++ [(0, [.symbol "\x7d", .symbol ";"])])

theorem addsLines_byteLines {rows : List (List UInt8)} (h : ∀ row ∈ rows, row ≠ []) :
    (byteLines rows).AddsLines 1 (linesText ((rowLines rows).map (1, ·))) := by
  have hline : ∀ {row : List UInt8} (rest : Code), row ≠ [] →
      (Emit.line (rowCode row ++ rest)).AddsLines 1 (linesText [(1, rowCode row ++ rest)]) := by
    intro row rest hrow
    obtain ⟨b, row, rfl⟩ := List.exists_cons_of_ne_nil hrow
    obtain ⟨others, hothers⟩ :
        ∃ others, rowCode (b :: row) ++ rest = byteLexeme b :: others := by
      cases row <;> exact ⟨_, rfl⟩
    rw [hothers]
    exact addsLines_line (by simp [byteLexeme, Lexeme.text])
  induction rows with
  | nil => exact Emit.addsLines_pure
  | cons row rows ih =>
      obtain ⟨hrow, hrows⟩ := List.forall_mem_cons.mp h
      cases rows with
      | nil => simpa [byteLines, rowLines, rowCode] using hline [] hrow
      | cons next rows =>
          have hall := (hline [.symbol ","] hrow).seq (ih hrows)
          rw [← linesText_append] at hall
          exact hall

theorem addsLines_deeper {e : Emit Unit} {level : Nat} {text : String}
    (h : e.AddsLines (level + 1) text) : e.deeper.AddsLines level text := by
  have hsame : e.deeper = e.indented := by
    obtain ⟨steps, outcome⟩ := e
    obtain rfl : outcome = .ok () := h.outcome
    rfl
  rw [hsame]
  exact h.indented

theorem addsLines_resourceTable (d : Dialect) (name : String) (bytes : List UInt8) :
    (resourceTable d name bytes).AddsLines 0
      ("\n" ++ linesText (resourceLines d name (byteRows bytes.length bytes))) := by
  have hhead : (Emit.line (resourceHead d name)).AddsLines 0
      (linesText [(0, resourceHead d name)]) := by
    cases d <;> exact addsLines_line (by decide)
  have hfoot : (Emit.line [.symbol "\x7d", .symbol ";"]).AddsLines 0 _ := addsLines_line (by decide)
  have hrows : (byteLines (byteRows bytes.length bytes)).AddsLines 1 _ :=
    addsLines_byteLines fun row hrow => (length_row hrow).1
  have hall := Emit.addsLines_newline.seq (hhead.seq ((addsLines_deeper hrows).seq hfoot))
  rw [← linesText_append, ← linesText_append] at hall
  exact hall

theorem spelled_byteLexeme (b : UInt8) : (byteLexeme b).Spelled := by
  have hdigit : ∀ n < 16, isWordChar (Nat.digitChar n) = true := by decide
  have hhigh := hdigit (b.toNat / 16) (by have := b.toNat_lt; omega)
  have hlow := hdigit (b.toNat % 16) (by omega)
  simp [byteLexeme, Lexeme.Spelled, isNumber, numberTail, continuesNumber, hhigh, hlow,
    (by decide : isWordChar 'x' = true), (by decide : '0'.isDigit = true)]

theorem isCut_rowCode (row : List UInt8) : IsCut (rowCode row) :=
  isCut_commaSeparated (by simpa using fun b _ =>
    (⟨by simpa using spelled_byteLexeme b, .singleton _⟩ : IsCut [byteLexeme b]))

theorem isCut_resourceHead (d : Dialect) (name : String) : IsCut (resourceHead d name) := by
  have hname : isWord (resourceName name) = true :=
    (isWord_resourceName ⟨⟨[], [], [], [], .empty⟩, .cFamily d, none⟩ name).1
  have hwords : ∀ w ∈ ["static", "const", "constant", "unsigned", "char"],
      (Lexeme.word w).Spelled :=
    (by decide : ∀ w ∈ ["static", "const", "constant", "unsigned", "char"], isWord w = true)
  have hsymbols : ∀ s ∈ ["[", "]", "=", "\x7b"], (Lexeme.symbol s).Spelled :=
    (by decide : ∀ s ∈ ["[", "]", "=", "\x7b"], s.toList ∈ operators)
  have hnamed : (Lexeme.word (resourceName name)).Spelled := hname
  have hgap : Lexeme.gap.Spelled := trivial
  refine .of_separate ?_ ?_
  · cases d <;> simp [resourceHead, Dialect.tableStorage, Dialect.readOnly, Code.operator, hnamed,
      hgap, hwords, hsymbols]
  · cases d <;> simp [resourceHead, Dialect.tableStorage, Dialect.readOnly, Code.operator,
      Lexeme.isSeparate]

/-- What holds of the first line, of every row with and without a comma behind it, and of the last
line holds of all lines. -/
theorem forall_resourceLines {P : Code → Prop} {d : Dialect} {name : String}
    {rows : List (List UInt8)} (hhead : P (resourceHead d name))
    (hrow : ∀ row ∈ rows, P (rowCode row) ∧ P (rowCode row ++ [.symbol ","]))
    (hfoot : P [.symbol "\x7d", .symbol ";"]) :
    ∀ line ∈ resourceLines d name rows, P line.2 := by
  have hrows : ∀ code ∈ rowLines rows, P code := by
    induction rows with
    | nil => simp [rowLines]
    | cons row rows ih =>
        obtain ⟨hfirst, hrest⟩ := List.forall_mem_cons.mp hrow
        cases rows with
        | nil => simpa [rowLines] using hfirst.1
        | cons next rows => exact List.forall_mem_cons.mpr ⟨hfirst.2, ih hrest⟩
  intro line hline
  rcases List.mem_cons.mp hline with rfl | hline
  · exact hhead
  · rcases List.mem_append.mp hline with hline | hline
    · obtain ⟨code, hcode, rfl⟩ := List.mem_map.mp hline
      exact hrows code hcode
    · obtain rfl := List.mem_singleton.mp hline
      exact hfoot

theorem isCut_resourceLines (d : Dialect) (name : String) (rows : List (List UInt8)) :
    ∀ line ∈ resourceLines d name rows, IsCut line.2 := by
  have hsymbols : ∀ s ∈ [",", "\x7d", ";"], (Lexeme.symbol s).Spelled :=
    (by decide : ∀ s ∈ [",", "\x7d", ";"], s.toList ∈ operators)
  have hcomma : IsCut [.symbol ","] := .of_separate (by simp [hsymbols]) (.singleton _)
  refine forall_resourceLines (isCut_resourceHead d name) (fun row _ => ?_) ?_
  · exact ⟨isCut_rowCode row,
      (isCut_rowCode row).append_separate hcomma (by simp [Lexeme.isSeparate])⟩
  · exact .of_separate (by simp [hsymbols]) (by simp [Lexeme.isSeparate])

/-- No literal is in a table. -/
theorem unquoted_resourceLines (d : Dialect) (name : String) (rows : List (List UInt8)) :
    ∀ line ∈ resourceLines d name rows, ∀ l ∈ line.2, ∀ s, l ≠ .quoted s := by
  have hrow : ∀ row : List UInt8, ∀ l ∈ rowCode row, ∀ s, l ≠ .quoted s := by
    intro row
    induction row with
    | nil => simp [rowCode, Code.commaSeparated]
    | cons b row ih =>
        cases row with
        | nil => simp [rowCode, Code.commaSeparated, byteLexeme]
        | cons next row =>
            have hcons : rowCode (b :: next :: row) =
                byteLexeme b :: .symbol "," :: .gap :: rowCode (next :: row) := by
              simp [rowCode, Code.commaSeparated, Code.comma]
            simpa [hcons, byteLexeme] using ih
  refine forall_resourceLines (P := fun code => ∀ l ∈ code, ∀ s, l ≠ .quoted s) ?_
    (fun row _ => ⟨hrow row, fun l hl => ?_⟩) (by simp)
  · cases d <;> simp [resourceHead, Dialect.tableStorage, Dialect.readOnly, Code.operator]
  · rcases List.mem_append.mp hl with hl | hl
    · exact hrow row l hl
    · obtain rfl := List.mem_singleton.mp hl
      simp

/-- What is spelled otherwise than as a literal has no line ends in it. -/
theorem notMem_text {l : Lexeme} (h : l.Spelled) (hquoted : ∀ s, l ≠ .quoted s) :
    ∀ c ∈ l.text.toList, c ≠ '\n' ∧ c ≠ '\r' := by
  have hline : ∀ {c : Char}, Readable c → c ≠ '\n' ∧ c ≠ '\r' := by
    have hends : ∀ c ∈ ['\n', '\r'], isWordChar c = false ∧ [c] ∉ operators := by decide
    refine fun {c} hc => ⟨?_, ?_⟩ <;> rintro rfl <;>
      exact hc.elim (by simp [hends]) (by simp [hends])
  intro c hc
  cases l with
  | word text | supplied text _ => exact hline (Lexeme.quiet_of_isWord h c hc).readable
  | number text => exact hline (Lexeme.quiet_of_isNumber h c hc).readable
  | symbol text =>
      have hall : ∀ op ∈ operators, ∀ c ∈ op, c ≠ '\n' ∧ c ≠ '\r' := by decide
      exact hall _ h c hc
  | quoted s => exact absurd rfl (hquoted s)
  | gap =>
      obtain rfl : c = ' ' := by simpa [Lexeme.text] using hc
      decide

theorem linesOf_linesText {lines : List (Nat × Code)}
    (h : ∀ line ∈ lines, ∀ c ∈ line.2.text.toList, c ≠ '\n' ∧ c ≠ '\r') :
    linesOf (linesText lines) = lines.map fun line => Writer.margin line.1 ++ line.2.text := by
  have hall : linesFrom [] (linesText lines).toList =
      lines.map fun line => (Writer.margin line.1 ++ line.2.text).toList := by
    induction lines with
    | nil => rfl
    | cons line rest ih =>
        obtain ⟨hline, hrest⟩ := List.forall_mem_cons.mp h
        have hchars : ∀ c ∈ (Writer.margin line.1 ++ line.2.text).toList,
            c ≠ '\n' ∧ c ≠ '\r' := by
          intro c hc
          rcases List.mem_append.mp (by simpa using hc) with hc | hc
          · obtain rfl := List.eq_of_mem_replicate (by simpa [Writer.margin] using hc)
            decide
          · exact hline c hc
        have hreturn : dropReturn (Writer.margin line.1 ++ line.2.text).toList =
            (Writer.margin line.1 ++ line.2.text).toList :=
          if_neg fun hlast => (hchars _ (List.mem_of_getLast? hlast)).2 rfl
        have hsplit : (linesText (line :: rest)).toList =
            (Writer.margin line.1 ++ line.2.text).toList ++ '\n' :: (linesText rest).toList := by
          simp [linesText]
        rw [hsplit, linesFrom_append fun hmem => (hchars _ hmem).1 rfl, linesFrom, if_pos rfl,
          List.nil_append, hreturn, ih hrest, List.map_cons]
  rw [linesOf, hall, List.map_map]
  exact List.map_congr_left fun line _ => String.ofList_toList

theorem endsLine_linesText (lines : List (Nat × Code)) : EndsLine (linesText lines) := by
  induction lines with
  | nil => exact .inl rfl
  | cons line rest ih =>
      have hline : EndsLine (linesText [line]) := .inr (by simp [linesText])
      have hall := hline.append ih
      rwa [← linesText_append] at hall

theorem countP_byteTokens (bytes : List UInt8) :
    (byteTokens bytes).countP Token.isNumber = bytes.length := by
  induction bytes with
  | nil => rfl
  | cons b bytes ih =>
      cases bytes with
      | nil => rfl
      | cons next bytes =>
          rw [byteTokens_cons_cons, List.countP_cons, List.countP_cons, ih]
          rfl

/-- No more constants stand in a line than bytes in its row. -/
theorem countP_resourceLines (d : Dialect) (name : String) {rows : List (List UInt8)}
    (hrows : ∀ row ∈ rows, row.length ≤ 16) :
    ∀ line ∈ resourceLines d name rows, line.2.tokens.countP Token.isNumber ≤ 16 := by
  refine forall_resourceLines (P := fun code => code.tokens.countP Token.isNumber ≤ 16) ?_
    (fun row hrow => ?_) (by simp [Token.isNumber])
  · cases d <;> simp [resourceHead, Dialect.tableStorage, Dialect.readOnly, Code.operator,
      Token.isNumber]
  · simpa [tokens_rowCode, countP_byteTokens, Token.isNumber] using hrows row hrow

theorem exists_front (d : Dialect) (name : String) :
    ∃ front, (resourceHead d name).tokens = front ++ [Token.symbol "\x7b"] ∧
      Token.symbol "\x7b" ∉ front := by
  refine ⟨Code.tokens (resourceHead d name).dropLast, ?_, ?_⟩ <;>
    cases d <;> simp [resourceHead, Dialect.tableStorage, Dialect.readOnly, Code.operator]

theorem symbol_notMem_byteTokens (bytes : List UInt8) :
    Token.symbol "\x7d" ∉ byteTokens bytes := by
  induction bytes with
  | nil => simp [byteTokens, commaTokens]
  | cons b bytes ih =>
      cases bytes with
      | nil => simp [byteTokens, commaTokens, byteToken]
      | cons next bytes => simpa [byteTokens_cons_cons, byteToken] using ih

/-- The table of a resource is read back as its bytes: every byte once and in order, with a comma
between any two neighbours and nowhere else, and at most sixteen of them in a line. -/
theorem resourceTable_reads_back (d : Dialect) (name : String) (bytes : List UInt8) :
    ∃ text lines, (resourceTable d name bytes).PrintsText text ∧
      (linesOf text).mapM scan = some lines ∧ scan text = some lines.flatten ∧
      (braced? lines.flatten).bind constants? = some (bytes.map UInt8.toNat) ∧
      ∀ line ∈ lines, line.countP Token.isNumber ≤ 16 := by
  have hrows : ∀ row ∈ byteRows bytes.length bytes, row ≠ [] ∧ row.length ≤ 16 :=
    fun row hrow => length_row hrow
  -- The empty line in front of the table is a line like the others.
  obtain ⟨lines, hlines⟩ : ∃ lines : List (Nat × Code), lines =
    (0, []) :: resourceLines d name (byteRows bytes.length bytes) := ⟨_, rfl⟩
  have hall : (resourceTable d name bytes).AddsLines 0 (linesText lines) := by
    have hadds := addsLines_resourceTable d name bytes
    rwa [hlines, ← List.singleton_append, linesText_append]
  have hcut : ∀ line ∈ lines, IsCut line.2 := by
    rw [hlines]
    exact List.forall_mem_cons.mpr ⟨.of_tidy .nil, isCut_resourceLines d name _⟩
  have hquoted : ∀ line ∈ lines, ∀ l ∈ line.2, ∀ s, l ≠ .quoted s := by
    rw [hlines]
    exact List.forall_mem_cons.mpr ⟨by simp, unquoted_resourceLines d name _⟩
  have hends : ∀ line ∈ lines, ∀ c ∈ line.2.text.toList, c ≠ '\n' ∧ c ≠ '\r' := by
    intro line hline c hc
    rw [Code.toList_text] at hc
    obtain ⟨l, hl, hc⟩ := List.mem_flatMap.mp hc
    exact notMem_text ((hcut line hline).spelled l hl) (hquoted line hline l hl) c hc
  have hscan : ∀ line ∈ lines,
      scan (Writer.margin line.1 ++ line.2.text) = some line.2.tokens := by
    intro line hline
    have hscans := ((settles_margin line.1).append_scans (hcut line hline).scans).scanFrom_eq
    simpa [scan] using hscans
  have htokens : (lines.map fun line => line.2.tokens).flatten = linesTokens lines := by
    simp [linesTokens, List.flatMap]
  refine ⟨linesText lines, lines.map fun line => line.2.tokens,
    ⟨endsLine_linesText lines, hall.plays⟩, ?_, ?_, ?_, ?_⟩
  · rw [linesOf_linesText hends]
    clear hlines hall hcut hquoted hends htokens
    induction lines with
    | nil => rfl
    | cons line rest ih =>
        obtain ⟨hline, hrest⟩ := List.forall_mem_cons.mp hscan
        simp [hline, ih hrest]
  · rw [htokens]
    exact (settles_linesText hcut).scans.scanFrom_eq
  · have hrest : linesTokens lines = (resourceHead d name).tokens ++
        (byteTokens bytes ++ [.symbol "\x7d", .symbol ";"]) := by
      rw [hlines]
      simp only [linesTokens, resourceLines, List.flatMap_cons, List.flatMap_append,
        List.flatMap_map, List.flatMap_nil]
      rw [tokens_rowLines fun row hrow => (hrows row hrow).1, flatten_byteRows (Nat.le_refl _)]
      simp
    obtain ⟨front, hfront, hopen⟩ := exists_front d name
    have hbraced := braced?_eq_some hopen (symbol_notMem_byteTokens bytes)
    rw [htokens, hrest, hfront, List.append_assoc, List.singleton_append, hbraced,
      Option.bind_some, constants?_byteTokens]
  · rw [hlines]
    simp only [List.forall_mem_map]
    exact List.forall_mem_cons.mpr
      ⟨by simp, countP_resourceLines d name fun row hrow => (hrows row hrow).2⟩

end CFamily

end Emitter
