import Emitter.Proofs.Storage.Constructors

/-!
# What an initializer of storage type builds

ActionScript has no values in place: a declaration of storage type is initialized with a `new` of
its own. That is enough for an instance, and for an array whose elements need not be built. The
elements of a new array of some length are undefined, though, so an array of instances or of arrays
in place stays without them.
-/

namespace Emitter

open Layout Program Reading

namespace ActionScript

/-- A value, as far as an initializer can build one. An object, a byte array and an array are each
at an address. -/
inductive Value
  | undefined
  | object (address : Nat) (id : ClassId)
  | byteArray (address : Nat)
  | array (address : Nat) (items : List Value)

/-- What `new` makes. -/
inductive Made
  | object (id : ClassId)
  | byteArray
  | array
  deriving DecidableEq

/-- The value made at an address. Only an array can be given a length. -/
def Made.value? (address : Nat) : Made → Option Nat → Option Value
  | .object id, none => some (.object address id)
  | .byteArray, none => some (.byteArray address)
  | .array, length => some (.array address (List.replicate (length.getD 0) .undefined))
  | _, some _ => none

/-- What the names in scope make behind `new`. -/
abbrev Scope := String → Option Made

mutual

/-- Evaluates an initializer. The arrays around it are given by the items they have so far, the last
one first, and every value made takes the next address. -/
def evaluateFrom (σ : Scope) : List (List Value) → Nat → List Token → Option Value
  | around, next, .word "new" :: .word name :: .symbol "(" :: .symbol ")" :: ts => do
    evaluateBehind σ around (← (← σ name).value? next none) (next + 1) ts
  | around, next, .word "new" :: .word name :: .symbol "(" :: .number n :: .symbol ")" :: ts => do
    evaluateBehind σ around (← (← σ name).value? next (some (← n.toNat?))) (next + 1) ts
  | around, next, .symbol "[" :: .symbol "]" :: ts =>
    evaluateBehind σ around (.array next []) (next + 1) ts
  | around, next, .symbol "[" :: ts => evaluateFrom σ ([] :: around) next ts
  | _, _, _ => none

/-- Goes on behind a value. -/
def evaluateBehind (σ : Scope) : List (List Value) → Value → Nat → List Token → Option Value
  | [], v, _, [] => some v
  | items :: around, v, next, .symbol "," :: ts => evaluateFrom σ ((v :: items) :: around) next ts
  | items :: around, v, next, .symbol "]" :: ts =>
    evaluateBehind σ around (.array next (v :: items).reverse) (next + 1) ts
  | _, _, _, _ => none

end

/-- The value of an initializer, which takes the addresses from `next` on. -/
def evaluate (σ : Scope) (next : Nat) (ts : List Token) : Option Value := evaluateFrom σ [] next ts

/-- What the type holds in place is there. A number of elements that the type leaves open may be
any; a byte array grows as bytes are written. -/
def isBuilt : Ty → Value → Bool
  | .classStorage id, .object _ made => made = id
  | .array element true length, v =>
    match v with
    | .byteArray _ => element = .int .byte
    | .array _ items => element ≠ .int .byte && length.all (items.length = ·.toNat) &&
        items.all (isBuilt element)
    | _ => false
  | ty, _ => !ty.isStorage

/-- The addresses of what the type holds in place, of the value itself first. -/
def addresses : Ty → Value → List Nat
  | .classStorage _, .object address _ | .array _ true _, .byteArray address => [address]
  | .array element true _, .array address items =>
    address :: items.flatMap (addresses element)
  | _, _ => []

/-- Everything that the type holds in place is there, was made from the address `next` on, and is
held once only. -/
structure IsComplete (next : Nat) (ty : Ty) (v : Value) : Prop where
  built : isBuilt ty v = true
  made : ∀ address ∈ addresses ty v, next ≤ address
  distinct : (addresses ty v).Nodup

/-- The value that the indices lead to. -/
def Value.at? : Value → List Nat → Option Value
  | v, [] => some v
  | .array _ items, i :: is => items[i]?.bind (·.at? is)
  | _, _ :: _ => none

variable {cx : Context} {id : ClassId} {lengths : List Nat} {ty : Ty} {next : Nat} {v : Value}

theorem isBuilt_array {element : Ty} {n : UInt32} (helement : element.isStorage = true)
    (h : isBuilt (.array element true (some n)) v = true) : ∃ address items,
      v = .array address items ∧ items.length = n.toNat ∧
        ∀ item ∈ items, isBuilt element item = true := by
  have hbyte : element ≠ .int .byte := by
    rintro rfl
    exact Bool.noConfusion helement
  cases v with
  | array address items =>
      have hall : items.length = n.toNat ∧ ∀ item ∈ items, isBuilt element item = true := by
        simpa [isBuilt, hbyte] using h
      exact ⟨address, items, rfl, hall.1, hall.2⟩
  | _ => simp [isBuilt, hbyte] at h

/-- Arrays inside each other that are built have an instance of the class at every place that
indices below the lengths lead to. -/
theorem exists_object (hty : ty.Nests id lengths) (hbuilt : isBuilt ty v = true) {is : List Nat}
    (his : List.Forall₂ (· < ·) is lengths) :
    ∃ address ∈ addresses ty v, v.at? is = some (.object address id) := by
  induction hty generalizing v is with
  | direct =>
      obtain rfl := List.forall₂_nil_right_iff.mp his
      cases v with
      | object address made =>
          obtain rfl : made = id := by simpa [isBuilt] using hbuilt
          exact ⟨address, by simp [addresses], rfl⟩
      | _ => simp [isBuilt, Ty.isStorage] at hbuilt
  | @element element n lengths hty ih =>
      obtain ⟨i, is, hi, hinner, rfl⟩ := List.forall₂_cons_right_iff.mp his
      obtain ⟨address, items, rfl, hlength, hitems⟩ :=
        isBuilt_array (CFamily.inPlace_isStorage hty.inPlace) hbuilt
      have hi : i < items.length := hlength ▸ hi
      obtain ⟨found, hfound, hat⟩ := ih (hitems items[i] (List.getElem_mem hi)) hinner
      refine ⟨found, ?_, by simpa [Value.at?, hi] using hat⟩
      exact List.mem_cons_of_mem _ (List.mem_flatMap.mpr ⟨_, List.getElem_mem hi, hfound⟩)

/-- If nothing is held twice, different indices lead to different instances. -/
theorem eq_of_at?_eq (hty : ty.Nests id lengths) (hbuilt : isBuilt ty v = true)
    (hdistinct : (addresses ty v).Nodup) {is js : List Nat}
    (his : List.Forall₂ (· < ·) is lengths) (hjs : List.Forall₂ (· < ·) js lengths)
    (heq : v.at? is = v.at? js) : is = js := by
  induction hty generalizing v is js with
  | direct =>
      rw [List.forall₂_nil_right_iff.mp his, List.forall₂_nil_right_iff.mp hjs]
  | @element element n lengths hty ih =>
      obtain ⟨i, is, hi, hii, rfl⟩ := List.forall₂_cons_right_iff.mp his
      obtain ⟨j, js, hj, hjj, rfl⟩ := List.forall₂_cons_right_iff.mp hjs
      obtain ⟨address, items, rfl, hlength, hitems⟩ :=
        isBuilt_array (CFamily.inPlace_isStorage hty.inPlace) hbuilt
      have hi : i < items.length := hlength ▸ hi
      have hj : j < items.length := hlength ▸ hj
      have heq : items[i].at? is = items[j].at? js := by simpa [Value.at?, hi, hj] using heq
      obtain ⟨hinner, happart⟩ := List.nodup_flatMap.mp (List.nodup_cons.mp hdistinct).2
      -- An instance in two items would have its address in both.
      have hsame : i = j := by
        by_contra hne
        obtain ⟨a, ha, hat⟩ := exists_object hty (hitems _ (List.getElem_mem hi)) hii
        obtain ⟨b, hb, hbt⟩ := exists_object hty (hitems _ (List.getElem_mem hj)) hjj
        rw [hat, hbt] at heq
        obtain rfl : a = b := by simpa using heq
        have hdisjoint : ∀ {k l : Nat} (hk : k < items.length) (hl : l < items.length), k < l →
            a ∈ addresses element items[k] → a ∉ addresses element items[l] :=
          fun hk hl hlt ha hb => List.pairwise_iff_getElem.mp happart _ _ hk hl hlt ha hb
        rcases Nat.lt_or_gt_of_ne hne with hlt | hlt
        · exact hdisjoint hi hj hlt ha hb
        · exact hdisjoint hj hi hlt hb ha
      subst hsame
      rw [ih (hitems _ (List.getElem_mem hi)) (hinner _ (List.getElem_mem hi)) hii hjj heq]

/-- A complete value has an instance at each place that is constructed where values are held in
place, each made by the initializer and no two the same. -/
theorem IsComplete.objects (h : IsComplete next ty v) (hty : ty.Nests id lengths)
    {indices : List (List Nat)} (hindices : IsRowMajor lengths indices) :
    (∀ is ∈ indices, ∃ address, next ≤ address ∧ v.at? is = some (.object address id)) ∧
      ∀ is ∈ indices, ∀ js ∈ indices, v.at? is = v.at? js → is = js := by
  refine ⟨fun is his => ?_, fun is his js hjs heq => ?_⟩
  · obtain ⟨address, hmem, hat⟩ := exists_object hty h.built ((hindices.mem_iff is).mp his)
    exact ⟨address, h.made address hmem, hat⟩
  · exact eq_of_at?_eq hty h.built h.distinct ((hindices.mem_iff is).mp his)
      ((hindices.mem_iff js).mp hjs) heq

/-- The initializer of a declaration: what stands behind its equals sign, up to a semicolon. -/
def initializerTokens (ts : List Token) : Option (List Token) := do
  let (_, value) ← cutAt "=" 0 ts
  return value.takeWhile (· ≠ .symbol ";")

/-- The steps print a declaration of a name with a type, as a field or as a local. -/
inductive Declares (cx : Context) (name : String) (ty : Ty) (steps : List Step) : Prop
  | ofField {f : FieldDef} (hname : f.name = name) (hty : f.ty = ty)
      (h : memberLines cx (.field f) = ⟨steps, .ok ()⟩)
  | ofLocal {decl : VarDecl} (hname : decl.name = name) (hty : decl.ty = ty)
      (h : cx.simple (.declare decl) = ⟨steps, .ok ()⟩)

/-- The name behind the `new` of a type, what it has to make, and the length it is given. -/
inductive Instantiates (cx : Context) : Ty → String → Made → Option UInt32 → Prop
  | object {id : ClassId} {c : ClassDef} (h : cx.classOf id = .ok c) :
      Instantiates cx (.classStorage id) c.name (.object id) none
  | byteArray (length : Option UInt32) :
      Instantiates cx (.array (.int .byte) true length) "ByteArray" .byteArray none
  | array {element : Ty} (h : element ≠ .int .byte) (length : Option UInt32) :
      Instantiates cx (.array element true length) "Array" .array length

/-- One `new` builds everything that the type holds in place: there is nothing to build in the
elements of an array, or the array has none. -/
def isBuiltByNew : Ty → Bool
  | .array element true (some n) => !element.isStorage || n = 0
  | _ => true

/-- A `new` with the length, if there is one, between its parentheses. -/
def newCode (name : String) (length : Option UInt32) : Code :=
  [.word "new", .gap, .word name] ++
    Code.parenthesized (length.elim [] fun n => [.number (toString n.toNat)])

/-- The code of a declaration: words that say what is declared, its name and type, the `new`, and
what ends it. -/
def declaredCode (words : List String) (name type made : String) (length : Option UInt32)
    (last : Code) : Code :=
  words.flatMap (fun w => [.word w, .gap]) ++ [.word name] ++ Code.operator ":" ++ [.word type] ++
    Code.operator "=" ++ newCode made length ++ last

variable {name made type : String} {what : Made} {length : Option UInt32} {steps : List Step}

theorem exists_newCode (hstorage : ty.isStorage = true) {code? : Option Code}
    (h : impliedInitializer cx ty = .ok code?) : ∃ made what length,
      Instantiates cx ty made what length ∧ code? = some (newCode made length) := by
  unfold impliedInitializer at h
  split at h
  · obtain ⟨c, hc, h⟩ := Result.bind_eq_ok.mp h
    exact ⟨c.name, _, none, .object hc, (Except.ok.inj h).symm⟩
  · next element length =>
      by_cases hbyte : element = .int .byte
      · subst hbyte
        exact ⟨"ByteArray", _, none, .byteArray length, (Except.ok.inj h).symm⟩
      · refine ⟨"Array", _, length, .array hbyte length, ?_⟩
        rw [← Except.ok.inj h, if_neg hbyte]
        cases length <;> rfl
  · next hother hobject harray =>
      cases ty with
      | classStorage id => exact absurd rfl (hobject id)
      | array element storage length =>
          obtain rfl : storage = true := hstorage
          exact absurd rfl (harray element length)
      | _ => exact Bool.noConfusion hstorage

theorem exists_typeCode (hnamed : cx.program.Named cx.target) (hstorage : ty.isStorage = true)
    {code : Code} (h : typeCode cx ty = .ok code) :
    ∃ type, isWord type = true ∧ code = [.word type] := by
  cases ty with
  | classStorage id =>
      obtain ⟨c, hc, h⟩ := Result.bind_eq_ok.mp h
      exact ⟨c.name, (hnamed.className hc).1, (Except.ok.inj h).symm⟩
  | array element storage length =>
      obtain ⟨_, -, h⟩ := Result.bind_eq_ok.mp h
      refine ⟨_, ?_, (Except.ok.inj h).symm⟩
      split_ifs <;> decide
  | _ => exact Bool.noConfusion hstorage

theorem exists_initializer (hstorage : ty.isStorage = true) {value : Option Expr}
    (h : initializer cx name ty value = ⟨steps, .ok ()⟩) : ∃ made what length,
      Instantiates cx ty made what length ∧
        steps.flatMap Step.code = Code.operator "=" ++ newCode made length := by
  obtain ⟨code?, hcode, h⟩ := Emit.liftM_bind_eq_ok.mp h
  obtain ⟨made, what, length, hnew, rfl⟩ := exists_newCode hstorage hcode
  refine ⟨made, what, length, hnew, ?_⟩
  obtain ⟨rest, hrest, rfl⟩ := Emit.ofSteps_bind_eq_ok.mp h
  have hnote : rest.flatMap Step.code = [] := by
    split_ifs at hrest
    · obtain rfl := Emit.ofSteps_eq_ok.mp hrest
      rfl
    · obtain ⟨-, rfl⟩ := Emit.pure_eq_ok.mp hrest
      rfl
  simp [Step.code, hnote]

/-- Every declaration of storage type has the same form. -/
theorem Declares.exists_code (h : Declares cx name ty steps) (ht : cx.target = .actionScript)
    (hnamed : cx.program.Named cx.target) (hstorage : ty.isStorage = true) :
    ∃ words type made what length last, (∀ w ∈ words, isWord w = true) ∧ isWord type = true ∧
      (last = [] ∨ last = [.symbol ";"]) ∧ Instantiates cx ty made what length ∧
      steps.flatMap Step.code =
        declaredCode words (cx.target.localName name) type made length last := by
  cases h with
  | @ofField f hname hty h =>
      subst hname hty
      obtain ⟨front, hfront, h⟩ := Emit.liftM_bind_eq_ok.mp h
      obtain ⟨code, hcode, hfront⟩ := Result.bind_eq_ok.mp hfront
      obtain rfl := Except.ok.inj hfront
      obtain ⟨rest, hrest, rfl⟩ := Emit.ofSteps_bind_eq_ok.mp h
      obtain ⟨⟨⟩, first, last, hfirst, hlast, rfl⟩ := Emit.bind_eq_ok.mp hrest
      obtain rfl := Emit.ofSteps_eq_ok.mp hlast
      obtain ⟨type, htype, rfl⟩ := exists_typeCode hnamed hstorage hcode
      obtain ⟨made, what, length, hnew, hcode⟩ := exists_initializer hstorage hfirst
      have hvisibility : ∃ w, isWord w = true ∧ visibilityWord f.visibility = .word w := by
        cases f.visibility <;> exact ⟨_, by decide, rfl⟩
      obtain ⟨w, hw, hvisibility⟩ := hvisibility
      refine ⟨[w, "const"], type, made, what, length, [.symbol ";"], ?_, htype, .inr rfl, hnew, ?_⟩
      · simpa using ⟨hw, by decide⟩
      · simp [Step.code, hcode, hvisibility, hstorage, declaredCode, Context.localWord]
  | @ofLocal decl hname hty h =>
      subst hname hty
      simp only [Context.simple, Context.declareLocal, ht] at h
      obtain ⟨front, hfront, h⟩ := Emit.liftM_bind_eq_ok.mp h
      obtain ⟨code, hcode, hfront⟩ := Result.bind_eq_ok.mp hfront
      obtain rfl := Except.ok.inj hfront
      obtain ⟨rest, hrest, rfl⟩ := Emit.ofSteps_bind_eq_ok.mp h
      obtain ⟨type, htype, rfl⟩ := exists_typeCode hnamed hstorage hcode
      obtain ⟨made, what, length, hnew, hcode⟩ := exists_initializer hstorage hrest
      refine ⟨["var"], type, made, what, length, [], ?_, htype, .inl rfl, hnew, ?_⟩
      · exact List.forall_mem_singleton.mpr (by decide)
      · simp [Step.code, hcode, declaredCode, Context.localWord]

theorem Instantiates.isWord (h : Instantiates cx ty made what length)
    (hnamed : cx.program.Named cx.target) : isWord made = true := by
  cases h with
  | object hc => exact (hnamed.className hc).1
  | byteArray => decide
  | array => decide

/-- The text of a declaration is cut into the tokens that its code is put together from. -/
theorem isCut_declaredCode {words : List String} (hwords : ∀ w ∈ words, isWord w = true)
    (hname : isWord name = true) (htype : isWord type = true) (hmade : isWord made = true)
    (length : Option UInt32) {last : Code} (hlast : last = [] ∨ last = [.symbol ";"]) :
    CFamily.IsCut (declaredCode words name type made length last) := by
  induction words with
  | nil =>
      have hsymbols : ∀ s ∈ [":", "=", "(", ")", ";"], s.toList ∈ operators := by decide
      have hnew : Reading.isWord "new" = true := by decide
      have hlength : ∀ n : UInt32, isNumber (toString n.toNat) = true := fun n =>
        (isNumeral_toString n.toNat).number
      refine CFamily.IsCut.of_separate ?_ ?_
      · rcases hlast with rfl | rfl <;> cases length <;>
          simp_all [declaredCode, Code.operator, newCode, Code.parenthesized, Lexeme.Spelled]
      · rcases hlast with rfl | rfl <;> cases length <;>
          simp [declaredCode, Code.operator, newCode, Code.parenthesized, Lexeme.isSeparate]
  | cons w words ih =>
      obtain ⟨hw, hwords⟩ := List.forall_mem_cons.mp hwords
      have hfront : CFamily.IsCut [.word w, .gap] :=
        .of_separate (by simp [Lexeme.Spelled, hw]) (by simp [Lexeme.isSeparate])
      have hall := hfront.append (ih hwords) fun l hl next _ c _ => by
        obtain rfl : Lexeme.gap = l := by simpa using hl
        exact Lexeme.extend_pending_of_isSeparate rfl c
      simpa [declaredCode] using hall

/-- Behind its equals sign, a declaration has a `new`. -/
theorem initializerTokens_declaredCode (words : List String) (name type made : String)
    (length : Option UInt32) {last : Code} (hlast : last = [] ∨ last = [.symbol ";"]) :
    initializerTokens (declaredCode words name type made length last).tokens =
      some (newCode made length).tokens := by
  have hcut : cutAt "=" 0 (declaredCode words name type made length last).tokens =
      some (words.map Token.word ++ [Token.word name, Token.symbol ":", Token.word type],
        (newCode made length ++ last).tokens) := by
    induction words with
    | nil => simp [declaredCode, Code.operator, cutAt, Token.depthAfter]
    | cons w words ih =>
        have hcons : (declaredCode (w :: words) name type made length last).tokens =
            .word w :: (declaredCode words name type made length last).tokens := by
          simp [declaredCode]
        simp [hcons, cutAt, Token.depthAfter, ih]
  rw [initializerTokens, hcut]
  rcases hlast with rfl | rfl <;> cases length <;> simp [newCode, Code.parenthesized]

/-- A `new` is evaluated to what the name in it makes. -/
theorem evaluate_newCode (σ : Scope) (next : Nat) (made : String) (length : Option UInt32) :
    evaluate σ next (newCode made length).tokens =
      (σ made).bind fun what => what.value? next (length.map UInt32.toNat) := by
  cases length <;> simp [newCode, Code.parenthesized, evaluate, evaluateFrom, evaluateBehind]

theorem Instantiates.exists_value? (h : Instantiates cx ty made what length) (next : Nat) :
    ∃ v, what.value? next (length.map UInt32.toNat) = some v := by
  cases h <;> exact ⟨_, rfl⟩

/-- A value with nothing in place inside is complete when it is built. -/
theorem isComplete_iff_of_addresses (h : addresses ty v = [next]) :
    IsComplete next ty v ↔ isBuilt ty v = true :=
  ⟨IsComplete.built, fun hbuilt => ⟨hbuilt, by simp [h], by simp [h]⟩⟩

/-- An undefined value is all that is needed of a type without storage only. -/
theorem isBuilt_undefined (ty : Ty) : isBuilt ty .undefined = !ty.isStorage := by
  cases ty with
  | array element storage length => cases storage <;> rfl
  | _ => rfl

theorem addresses_undefined (ty : Ty) : addresses ty .undefined = [] := by
  cases ty with
  | array element storage length => cases storage <;> rfl
  | _ => rfl

/-- What the `new` of a type makes is complete exactly if there is nothing more to build in it: the
elements of an array with a length are undefined. -/
theorem Instantiates.isComplete_iff (h : Instantiates cx ty made what length)
    (hv : what.value? next (length.map UInt32.toNat) = some v) :
    IsComplete next ty v ↔ isBuiltByNew ty = true := by
  cases h with
  | object =>
      obtain rfl := Option.some.inj hv
      rw [isComplete_iff_of_addresses rfl]
      simp [isBuilt, isBuiltByNew]
  | byteArray length =>
      obtain rfl := Option.some.inj hv
      rw [isComplete_iff_of_addresses rfl]
      cases length <;> simp [isBuilt, isBuiltByNew, Ty.isStorage]
  | array hbyte length =>
      obtain rfl := Option.some.inj hv
      rw [isComplete_iff_of_addresses (by simp [addresses, addresses_undefined])]
      cases length with
      | none => simp [isBuilt, isBuiltByNew, hbyte]
      | some n =>
          have hzero : n = 0 ↔ n.toNat = 0 := UInt32.toNat_inj.symm
          simp [isBuilt, isBuiltByNew, hbyte, isBuilt_undefined, hzero, or_comm]

/-- What a value was made as. -/
def Value.made? : Value → Option Made
  | .undefined => none
  | .object _ id => some (.object id)
  | .byteArray _ => some .byteArray
  | .array _ _ => some .array

theorem Made.made?_of_value? {given : Option Nat} (h : what.value? next given = some v) :
    v.made? = some what := by
  cases what with
  | array =>
      obtain rfl := Option.some.inj h
      rfl
  | _ =>
      cases given with
      | some n => exact absurd h.symm (Option.some_ne_none v)
      | none =>
          obtain rfl := Option.some.inj h
          rfl

/-- Only what the `new` of a type makes is what the type needs. -/
theorem Instantiates.made?_of_isBuilt (h : Instantiates cx ty made what length)
    (hbuilt : isBuilt ty v = true) : v.made? = some what := by
  cases h <;> cases v <;> simp_all [isBuilt, Value.made?, Ty.isStorage]

end ActionScript

open ActionScript in
/-- The initializer of a declaration of storage type, evaluated, builds everything that the type
holds in place exactly if one `new` does, and the name behind it makes what it should. -/
theorem initializer_isComplete_iff {cx : Context} (ht : cx.target = .actionScript)
    (hnamed : cx.program.Named cx.target) {name : String} (hname : isWord name = true) {ty : Ty}
    (hstorage : ty.isStorage = true) {steps : List Step} (h : Declares cx name ty steps) :
    ∃ ts init made what length, scan (Code.text (steps.flatMap Step.code)) = some ts ∧
      initializerTokens ts = some init ∧ Instantiates cx ty made what length ∧
        ∀ σ next, (∃ v, evaluate σ next init = some v ∧ IsComplete next ty v) ↔
          isBuiltByNew ty = true ∧ σ made = some what := by
  obtain ⟨words, type, made, what, length, last, hwords, htype, hlast, hnew, hcode⟩ :=
    h.exists_code ht hnamed hstorage
  have hcut := isCut_declaredCode hwords (cx.target.isWord_localName hname).1 htype
    (hnew.isWord hnamed) length hlast
  rw [hcode]
  refine ⟨_, _, made, what, length, Code.scan_text hcut.spelled hcut.apart,
    initializerTokens_declaredCode _ _ _ _ _ hlast, hnew, fun σ next => ?_⟩
  rw [evaluate_newCode]
  constructor
  · rintro ⟨v, hv, hcomplete⟩
    obtain ⟨what', hfound, hv⟩ := Option.bind_eq_some_iff.mp hv
    obtain rfl := Option.some.inj
      ((Made.made?_of_value? hv).symm.trans (hnew.made?_of_isBuilt hcomplete.built))
    exact ⟨(hnew.isComplete_iff hv).mp hcomplete, hfound⟩
  · rintro ⟨hbuilt, hfound⟩
    obtain ⟨v, hv⟩ := hnew.exists_value? next
    exact ⟨v, by rw [hfound, Option.bind_some, hv], (hnew.isComplete_iff hv).mpr hbuilt⟩

open ActionScript in
/-- A local that is a cell is initialized with a cell of its own, made there. -/
theorem initializer_isComplete_cell :
    let cx : Context := ⟨.grid, .actionScript, some ⟨1⟩⟩
    ∃ steps ts init, cx.simple (.declare ⟨"cell", .classStorage ⟨0⟩, none⟩) = ⟨steps, .ok ()⟩ ∧
      Code.text (steps.flatMap Step.code) = "var cell : Cell = new Cell()" ∧
      scan (Code.text (steps.flatMap Step.code)) = some ts ∧ initializerTokens ts = some init ∧
      ∀ σ : Scope, σ "Cell" = some (.object ⟨0⟩) →
        ∀ next, ∃ v, evaluate σ next init = some v ∧ IsComplete next (.classStorage ⟨0⟩) v ∧
          ∃ address, next ≤ address ∧ v.at? [] = some (.object address ⟨0⟩) := by
  intro cx
  have hnamed : cx.program.Named cx.target := ⟨by simp [cx, Program.grid], by decide +kernel⟩
  have hprinted : cx.simple (.declare ⟨"cell", .classStorage ⟨0⟩, none⟩) = ⟨_, .ok ()⟩ := rfl
  obtain ⟨ts, init, made, what, length, hts, hinit, hnew, hiff⟩ :=
    initializer_isComplete_iff rfl hnamed (by decide : isWord "cell" = true) rfl
      (.ofLocal rfl rfl hprinted)
  refine ⟨_, ts, init, hprinted, by decide +kernel, hts, hinit, fun σ hσ next => ?_⟩
  cases hnew with
  | object hc =>
      obtain rfl := Except.ok.inj hc
      obtain ⟨v, hv, hcomplete⟩ := (hiff σ next).mpr ⟨rfl, hσ⟩
      obtain ⟨hobjects, -⟩ := hcomplete.objects .direct (isRowMajor_rowMajor [])
      exact ⟨v, hv, hcomplete, hobjects [] List.mem_cons_self⟩

open ActionScript in
/-- The elements of an array of two cells stay undefined. A list of two new cells would build the
type. -/
theorem initializer_leaves_cells_undefined :
    let cx : Context := ⟨.grid, .actionScript, some ⟨1⟩⟩
    let cells : Ty := .array (.classStorage ⟨0⟩) true (some 2)
    let listed : List Token :=
      [.symbol "[", .word "new", .word "Cell", .symbol "(", .symbol ")", .symbol ",",
        .word "new", .word "Cell", .symbol "(", .symbol ")", .symbol "]"]
    ∃ steps ts init, cx.simple (.declare ⟨"cells", cells, none⟩) = ⟨steps, .ok ()⟩ ∧
      Code.text (steps.flatMap Step.code) = "var cells : Array = new Array(2)" ∧
      scan (Code.text (steps.flatMap Step.code)) = some ts ∧ initializerTokens ts = some init ∧
      ∀ σ : Scope, σ "Array" = some .array → ∀ next,
        evaluate σ next init = some (.array next [.undefined, .undefined]) ∧
        ¬IsComplete next cells (.array next [.undefined, .undefined]) ∧
        (σ "Cell" = some (.object ⟨0⟩) → ∃ v, evaluate σ next listed = some v ∧
          IsComplete next cells v ∧
          (∀ i < 2, ∃ address, next ≤ address ∧ v.at? [i] = some (.object address ⟨0⟩)) ∧
          v.at? [0] ≠ v.at? [1]) := by
  intro cx cells listed
  have hprinted : cx.simple (.declare ⟨"cells", cells, none⟩) = ⟨_, .ok ()⟩ := rfl
  refine ⟨_, [.word "var", .word "cells", .symbol ":", .word "Array", .symbol "=", .word "new",
    .word "Array", .symbol "(", .number "2", .symbol ")"], _, hprinted, by decide +kernel,
    by decide +kernel, rfl, fun σ hσ next => ⟨?_, fun h => ?_, fun hcell => ?_⟩⟩
  · have htwo : "2".toNat? = some 2 := Nat.toNat?_repr 2
    simp [evaluate, evaluateFrom, evaluateBehind, hσ, Made.value?, htwo]
  · exact Bool.noConfusion h.built
  · let v : Value := .array (next + 2) [.object next ⟨0⟩, .object (next + 1) ⟨0⟩]
    have hcomplete : IsComplete next cells v := by
      constructor
      · simp [cells, v, isBuilt]
      · simp [cells, v, addresses]
      · simp [cells, v, addresses]
    obtain ⟨hobjects, hdistinct⟩ :=
      hcomplete.objects (.element .direct) (isRowMajor_rowMajor [2])
    have hmem : ∀ i < 2, [i] ∈ rowMajor [2] := fun i hi =>
      ((isRowMajor_rowMajor [2]).mem_iff [i]).mpr (.cons hi .nil)
    refine ⟨v, ?_, hcomplete, fun i hi => hobjects [i] (hmem i hi), fun hsame => ?_⟩
    · simp [listed, v, evaluate, evaluateFrom, evaluateBehind, hcell, Made.value?]
    · exact absurd (hdistinct _ (hmem 0 (by decide)) _ (hmem 1 (by decide)) hsame) (by decide)

end Emitter
