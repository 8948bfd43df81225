import Emitter.Proofs.Statement.Margins
import Emitter.Proofs.Whole.Lines

/-!
# Texts that are read

The grammar of statements reads nothing but the tokens of the statements it finds. A text that ends
its line is cut into tokens of its own, whatever stands behind it. So statements that are read on
their own are read in front of others as well.
-/

namespace Emitter.Reading

theorem Token.depthAfter_add {t : Token} {depth next : Nat} (h : t.depthAfter depth = some next)
    (more : Nat) : t.depthAfter (depth + more) = some (next + more) := by
  unfold depthAfter at h ⊢
  split at h
  · split_ifs at h ⊢ <;> grind
  · obtain rfl := Option.some.inj h
    rfl

/-- Brackets that are all closed again at the outermost level are so at any depth. -/
theorem balanced_of_foldlM {ts : List Token} (h : ts.foldlM Token.depthAfter 0 = some 0) :
    Balanced ts := by
  have hdeeper : ∀ (ts : List Token) (depth next more : Nat),
      ts.foldlM Token.depthAfter depth = some next →
        ts.foldlM Token.depthAfter (depth + more) = some (next + more) := by
    intro ts
    induction ts with
    | nil => simp
    | cons t ts ih =>
        intro depth next more h
        obtain ⟨mid, hmid, h⟩ := Option.bind_eq_some_iff.mp h
        rw [List.foldlM_cons, Token.depthAfter_add hmid]
        exact ih mid next more h
  intro depth
  simpa using hdeeper ts 0 0 depth h

/-- In front of the stop, what is cut off closes its brackets. -/
theorem foldlM_of_cutAt {stop : String} {depth : Nat} {ts inside rest : List Token}
    (h : cutAt stop depth ts = some (inside, rest)) :
    inside.foldlM Token.depthAfter depth = some 0 ∧ ts = inside ++ .symbol stop :: rest := by
  induction ts generalizing depth inside with
  | nil => simp [cutAt] at h
  | cons t ts ih =>
      rw [cutAt] at h
      split_ifs at h with hstop
      · obtain ⟨rfl, rfl⟩ := hstop
        obtain ⟨rfl, rfl⟩ := Prod.mk.inj (Option.some.inj h)
        exact ⟨rfl, rfl⟩
      · obtain ⟨next, hnext, h⟩ := Option.bind_eq_some_iff.mp h
        obtain ⟨⟨more, rest⟩, hmore, h⟩ := Option.bind_eq_some_iff.mp h
        obtain ⟨rfl, rfl⟩ := Prod.mk.inj (Option.some.inj h)
        obtain ⟨hfold, rfl⟩ := ih hmore
        exact ⟨by rw [List.foldlM_cons, hnext]; exact hfold, rfl⟩

theorem balanced_of_cutAt {stop : String} {ts inside rest : List Token}
    (h : cutAt stop 0 ts = some (inside, rest)) :
    Balanced inside ∧ ts = inside ++ .symbol stop :: rest :=
  ⟨balanced_of_foldlM (foldlM_of_cutAt h).1, (foldlM_of_cutAt h).2⟩

theorem skip_eq_some {t : Token} {ts rest : List Token} (h : skip t ts = some rest) :
    ts = t :: rest := by
  cases ts with
  | nil => simp [skip] at h
  | cons u ts =>
      rw [skip] at h
      split_ifs at h with heq
      rw [heq, Option.some.inj h]

theorem balanced_of_cutParentheses {ts inside rest : List Token}
    (h : cutParentheses ts = some (inside, rest)) :
    Balanced inside ∧ ts = .symbol "(" :: (inside ++ .symbol ")" :: rest) := by
  obtain ⟨us, hus, h⟩ := Option.bind_eq_some_iff.mp h
  obtain ⟨hbalanced, rfl⟩ := balanced_of_cutAt h
  exact ⟨hbalanced, skip_eq_some hus⟩

namespace Shape

/-- A statement is read from its own tokens only. -/
theorem tokens_of_read (fuel : Nat) :
    (∀ ts s rest, readStatement fuel ts = some (s, rest) → ts = s.tokens ++ rest ∧ s.Sane) ∧
    (∀ ts stmts rest, readBlock fuel ts = some (stmts, rest) →
      ts = tokensOf stmts ++ .symbol "\x7d" :: rest ∧ SaneAll stmts) := by
  induction fuel with
  | zero => exact ⟨by simp [readStatement], by simp [readBlock]⟩
  | succ fuel ih =>
      obtain ⟨ihs, ihb⟩ := ih
      refine ⟨fun ts s rest h => ?_, fun ts stmts rest h => ?_⟩
      · cases ts with
        | nil => simp [readStatement] at h
        | cons t ts =>
            rw [readStatement] at h
            split_ifs at h with hblock hif hwhile hdo hfor hother
            · obtain ⟨⟨stmts, behind⟩, hstmts, h⟩ := Option.bind_eq_some_iff.mp h
              obtain ⟨rfl, rfl⟩ := Prod.mk.inj (Option.some.inj h)
              obtain ⟨rfl, hsane⟩ := ihb _ _ _ hstmts
              exact ⟨by simp [hblock, tokens], by simpa only [Sane] using hsane⟩
            · obtain ⟨⟨cond, behind⟩, hcond, h⟩ := Option.bind_eq_some_iff.mp h
              obtain ⟨⟨onTrue, behind'⟩, htrue, h⟩ := Option.bind_eq_some_iff.mp h
              obtain ⟨hbalanced, hts⟩ := balanced_of_cutParentheses hcond
              obtain ⟨htokens, hsane⟩ := ihs _ _ _ htrue
              rw [hts, htokens]
              dsimp only at h
              split_ifs at h with helse
              · obtain ⟨⟨onFalse, behind''⟩, hfalse, h⟩ := Option.bind_eq_some_iff.mp h
                obtain ⟨rfl, rfl⟩ := Prod.mk.inj (Option.some.inj h)
                obtain ⟨us, rfl⟩ := List.head?_eq_some_iff.mp helse
                obtain ⟨hus, hsane'⟩ := ihs _ _ _ hfalse
                rw [List.tail_cons] at hus
                exact ⟨by simp [hif, tokens, hus],
                  by simp only [Sane]; exact ⟨hbalanced, hsane, hsane'⟩⟩
              · obtain ⟨rfl, rfl⟩ := Prod.mk.inj (Option.some.inj h)
                exact ⟨by simp [hif, tokens], by simp only [Sane]; exact ⟨hbalanced, hsane⟩⟩
            · obtain ⟨⟨cond, behind⟩, hcond, h⟩ := Option.bind_eq_some_iff.mp h
              obtain ⟨⟨body, behind'⟩, hbody, h⟩ := Option.bind_eq_some_iff.mp h
              obtain ⟨rfl, rfl⟩ := Prod.mk.inj (Option.some.inj h)
              obtain ⟨hbalanced, rfl⟩ := balanced_of_cutParentheses hcond
              obtain ⟨rfl, hsane⟩ := ihs _ _ _ hbody
              exact ⟨by simp [hwhile, tokens], by simp only [Sane]; exact ⟨hbalanced, hsane⟩⟩
            · obtain ⟨⟨body, behind⟩, hbody, h⟩ := Option.bind_eq_some_iff.mp h
              obtain ⟨behind', hskip, h⟩ := Option.bind_eq_some_iff.mp h
              obtain ⟨⟨cond, behind''⟩, hcond, h⟩ := Option.bind_eq_some_iff.mp h
              obtain ⟨last, hlast, h⟩ := Option.bind_eq_some_iff.mp h
              obtain ⟨rfl, rfl⟩ := Prod.mk.inj (Option.some.inj h)
              obtain rfl := skip_eq_some hskip
              obtain ⟨hbalanced, rfl⟩ := balanced_of_cutParentheses hcond
              obtain rfl := skip_eq_some hlast
              obtain ⟨rfl, hsane⟩ := ihs _ _ _ hbody
              exact ⟨by simp [hdo, tokens], by simp only [Sane]; exact ⟨hbalanced, hsane⟩⟩
            · obtain ⟨behind, hskip, h⟩ := Option.bind_eq_some_iff.mp h
              obtain ⟨⟨start, behind₁⟩, hstart, h⟩ := Option.bind_eq_some_iff.mp h
              obtain ⟨⟨cond, behind₂⟩, hcond, h⟩ := Option.bind_eq_some_iff.mp h
              obtain ⟨⟨advance, behind₃⟩, hadvance, h⟩ := Option.bind_eq_some_iff.mp h
              obtain ⟨⟨body, behind₄⟩, hbody, h⟩ := Option.bind_eq_some_iff.mp h
              obtain ⟨rfl, rfl⟩ := Prod.mk.inj (Option.some.inj h)
              obtain rfl := skip_eq_some hskip
              obtain ⟨hbalanced, rfl⟩ := balanced_of_cutAt hstart
              obtain ⟨hbalanced', rfl⟩ := balanced_of_cutAt hcond
              obtain ⟨hbalanced'', rfl⟩ := balanced_of_cutAt hadvance
              obtain ⟨rfl, hsane⟩ := ihs _ _ _ hbody
              exact ⟨by simp [hfor, tokens],
                by simp only [Sane]; exact ⟨hbalanced, hbalanced', hbalanced'', hsane⟩⟩
            · obtain ⟨⟨inside, behind⟩, hcut, h⟩ := Option.bind_eq_some_iff.mp h
              obtain ⟨rfl, rfl⟩ := Prod.mk.inj (Option.some.inj h)
              obtain ⟨hbalanced, hts⟩ := balanced_of_cutAt hcut
              refine ⟨by simp [tokens, hts], ?_⟩
              simp only [Sane]
              refine ⟨hbalanced, fun u hu => ?_⟩
              obtain ⟨us, rfl⟩ := List.head?_eq_some_iff.mp hu
              obtain ⟨rfl, -⟩ := List.cons.inj hts
              simp_all [openers]
      · rw [readBlock] at h
        split_ifs at h with hclose
        · obtain ⟨rfl, rfl⟩ := Prod.mk.inj (Option.some.inj h)
          obtain ⟨us, rfl⟩ := List.head?_eq_some_iff.mp hclose
          exact ⟨rfl, trivial⟩
        · obtain ⟨⟨s, behind⟩, hs, h⟩ := Option.bind_eq_some_iff.mp h
          obtain ⟨⟨more, behind'⟩, hmore, h⟩ := Option.bind_eq_some_iff.mp h
          obtain ⟨rfl, rfl⟩ := Prod.mk.inj (Option.some.inj h)
          obtain ⟨rfl, hsane⟩ := ihs _ _ _ hs
          obtain ⟨rfl, hsane'⟩ := ihb _ _ _ hmore
          exact ⟨by simp [tokensOf], by simp only [SaneAll]; exact ⟨hsane, hsane'⟩⟩

/-- A text is read as a statement exactly if it is made of the statement's tokens, and every `else`
in it is attached. -/
theorem readShape_eq_some {s : Shape} {text : String} : readShape text = some s ↔
    scan text = some s.tokens ∧ s.Sane ∧ s.attached = true := by
  constructor
  · intro h
    obtain ⟨ts, hts, h⟩ := Option.bind_eq_some_iff.mp h
    obtain ⟨⟨s', rest⟩, hread, h⟩ := Option.bind_eq_some_iff.mp h
    obtain ⟨rfl, rfl⟩ : rest = [] ∧ s' = s := by simpa using h
    obtain ⟨rfl, hsane⟩ := (tokens_of_read _).1 _ _ _ hread
    rw [List.append_nil] at hts
    exact ⟨hts, hsane, ((attached_all _).1 _ _ _ hread).1⟩
  · rintro ⟨hscan, hsane, hattached⟩
    exact (readShape_eq_some_iff hscan hsane).mpr hattached

end Shape

/-- Whatever stands in front of a line end has tokens of its own. -/
theorem scanFrom_newline_append (m : Mode) (cs rest : List Char) :
    scanFrom m (cs ++ '\n' :: rest) = (scanFrom m (cs ++ ['\n'])).bind fun ts =>
      (scanFrom .between rest).map (ts ++ ·) := by
  induction cs generalizing m with
  | nil =>
      have hstart : Mode.start '\n' = some .between := by decide
      simp only [List.nil_append, scanFrom, m.extend_newline, hstart]
      cases m.settle <;> cases hrest : scanFrom .between rest <;> simp [hrest]
  | cons c cs ih =>
      simp only [List.cons_append, scanFrom]
      cases m.extend c with
      | some next => exact ih next
      | none =>
          cases m.settle with
          | none => rfl
          | some ended =>
              cases Mode.start c with
              | none => rfl
              | some next =>
                  simp only [ih next, Option.bind_eq_bind, Option.bind_some]
                  cases scanFrom next (cs ++ ['\n']) <;> cases scanFrom .between rest <;> simp

theorem scanFrom_append_of_endsLine {text : String} (h : EndsLine text) (rest : List Char) :
    scanFrom .between (text.toList ++ rest) = (scan text).bind fun ts =>
      (scanFrom .between rest).map (ts ++ ·) := by
  rcases h with rfl | h
  · simp [scan, scanFrom]
  · obtain ⟨cs, hcs⟩ := List.getLast?_eq_some_iff.mp h
    rw [scan, hcs, List.append_assoc]
    exact scanFrom_newline_append .between cs rest

/-- A text that ends its line and has tokens has them whatever follows. -/
theorem settles_of_scan {text : String} {ts : List Token} (h : EndsLine text)
    (hts : scan text = some ts) : Settles text.toList ts := fun rest => by
  rw [scanFrom_append_of_endsLine h, hts, Option.bind_some]

end Emitter.Reading
