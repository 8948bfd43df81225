import Emitter.Proofs.Expression.Alone
import Emitter.Proofs.Expression.Faithful

/-!
# The low byte of an integer

What the printed forms of the low byte compute. The C family casts to the types of eight bits.
ActionScript has none, so it masks the byte, and flips the byte's sign bit and subtracts its weight
to give it a sign. That leaves the bits above the byte as they are, so only an integer that is a
byte already gets the sign right.
-/

namespace Emitter

open Layout Program Reading

/-- The sign bit of the low byte is flipped, and all other bits stay. -/
theorem xor_128 (n : Nat) : n ^^^ 128 = if n % 256 < 128 then n + 128 else n - 128 := by
  have hbyte : ∀ r < 256, r ^^^ 128 = if r < 128 then r + 128 else r - 128 := by decide +kernel
  have hhigh : (n ^^^ 128) / 2 ^ 8 = n / 2 ^ 8 := by
    rw [Nat.xor_div_two_pow]
    exact Nat.xor_zero _
  have hlow : (n ^^^ 128) % 2 ^ 8 = (n % 2 ^ 8) ^^^ 128 := Nat.xor_mod_two_pow
  rw [hbyte (n % 2 ^ 8) (Nat.mod_lt _ (by decide))] at hlow
  rw [← Nat.div_add_mod (n ^^^ 128) (2 ^ 8), hhigh, hlow]
  split_ifs <;> omega

theorem toInt_eq (x : Int32) : x.toInt =
    if x.toBitVec.toNat < 2 ^ 31 then (x.toBitVec.toNat : Int) else x.toBitVec.toNat - 2 ^ 32 := by
  rw [Int32.toInt, BitVec.toInt_eq_toNat_cond]
  split_ifs <;> omega

/-- What flipping the sign of the byte and subtracting its weight makes of a signed integer. -/
theorem toInt_xor_128 (x : Int32) : (x ^^^ 128).toInt - 128 =
    if x.toInt % 256 < 128 then x.toInt else x.toInt - 256 := by
  have hbits : (x ^^^ 128).toBitVec.toNat = x.toBitVec.toNat ^^^ 128 := by
    rw [Int32.toBitVec_xor, BitVec.toNat_xor]
    rfl
  have hlt := x.toBitVec.isLt
  rw [toInt_eq, toInt_eq, hbits, xor_128]
  split_ifs <;> omega

theorem toInt_and_255 (x : Int32) : (x &&& 255).toInt = x.toInt % 256 := by
  have hbits : (x &&& 255).toBitVec.toNat = x.toBitVec.toNat % 2 ^ 8 := by
    rw [Int32.toBitVec_and, BitVec.toNat_and, ← Nat.and_two_pow_sub_one_eq_mod]
    rfl
  have hlt := x.toBitVec.isLt
  rw [toInt_eq, toInt_eq, hbits]
  split_ifs <;> omega

/-- The signed byte comes out exactly if the integer is a byte. -/
theorem flipped_eq_bmod_iff (x : Int32) :
    (x ^^^ 128).toInt - 128 = x.toInt.bmod 256 ↔ 0 ≤ x.toInt ∧ x.toInt < 256 := by
  rw [toInt_xor_128, Int.bmod_def]
  split_ifs <;> omega

namespace Reading

/-- The conversion that a cast to a type of eight bits is. -/
def byteCast : Dialect → List String → Option (Int → Int)
  | .standard, ["int8_t"] | .openCL, ["char"] => some (Int.bmod · 256)
  | .standard, ["uint8_t"] | .openCL, ["uchar"] => some (· % 256)
  | _, _ => none

/-- A computation of integers by the rules of the target. ActionScript takes the operands of bit
operations as signed integers of 32 bits and subtracts exactly; the C family casts. -/
structure Arithmetic (t : Target) where
  value : Tree → Option Int
  value_sign : value (.number "128") = some 128
  value_mask : value (.number "0xff") = some 255
  value_xor : t = .actionScript → ∀ left right, value (.binary "^" left right) = do
    let a ← value left
    let b ← value right
    return (Int32.ofInt a ^^^ Int32.ofInt b).toInt
  value_and : t = .actionScript → ∀ left right, value (.binary "&" left right) = do
    let a ← value left
    let b ← value right
    return (Int32.ofInt a &&& Int32.ofInt b).toInt
  value_sub : t = .actionScript → ∀ left right, value (.binary "-" left right) = do
    let a ← value left
    let b ← value right
    return a - b
  value_cast : ∀ d, t = .cFamily d → ∀ type convert, byteCast d type = some convert →
    ∀ operand, value (.cast type operand) = (value operand).map convert

namespace Arithmetic

variable {t : Target}

/-- The text of the code is an expression with the given value. -/
def Evaluates (A : Arithmetic t) (code : Code) (n : Int) : Prop :=
  ∃ tree, code.ReadsAs t tree ∧ A.value tree = some n

theorem evaluates_iff {A : Arithmetic t} {code : Code} {tree : Tree} (h : code.ReadsAs t tree)
    (n : Int) : A.Evaluates code n ↔ A.value tree = some n := by
  refine ⟨?_, fun hvalue => ⟨tree, h, hvalue⟩⟩
  rintro ⟨tree', h', hvalue⟩
  rwa [h.unique h' rfl]

/-- The computation in which names stand for the given integers. -/
def plainValue (t : Target) (env : String → Int) : Tree → Option Int
  | .name w => some (env w)
  | .number text => [("128", 128), ("0xff", 255)].lookup text
  | .binary op left right => do
    let a ← plainValue t env left
    let b ← plainValue t env right
    match op with
    | "^" => return (Int32.ofInt a ^^^ Int32.ofInt b).toInt
    | "&" => return (Int32.ofInt a &&& Int32.ofInt b).toInt
    | "-" => return a - b
    | _ => none
  | .cast type operand => do
    let convert ← match t with
      | .actionScript => none
      | .cFamily d => byteCast d type
    (plainValue t env operand).map convert
  | _ => none

def plain (t : Target) (env : String → Int) : Arithmetic t where
  value := plainValue t env
  value_sign := rfl
  value_mask := rfl
  value_xor _ _ _ := rfl
  value_and _ _ _ := rfl
  value_sub _ _ _ := rfl
  value_cast d ht type convert h operand := by
    subst ht
    simp [plainValue, h]

end Arithmetic

end Reading

theorem Target.eq_actionScript_or (t : Target) : t = .actionScript ∨ ∃ d, t = .cFamily d := by
  cases t <;> simp

namespace Context

variable {cx : Context} {obj : Expr} {code : Code}

theorem value_lowByte {A : Arithmetic cx.target} {x : Int32}
    (hx : A.value (cx.tree obj) = some x.toInt) :
    A.value (cx.propertyTree .lowByte (cx.tree obj)) = some (x.toInt % 256) := by
  rcases cx.target.eq_actionScript_or with ht | ⟨d, ht⟩
  · have htree : cx.propertyTree .lowByte (cx.tree obj) =
        .binary "&" (cx.tree obj) (.number "0xff") := by
      rw [propertyTree, ht]
      rfl
    rw [htree, A.value_and ht, hx, A.value_mask]
    simpa using toInt_and_255 x
  · have htree : cx.propertyTree .lowByte (cx.tree obj) =
        .cast [(d.intType .byte).text] (cx.tree obj) := by
      rw [propertyTree, ht]
      rfl
    have hcast : byteCast d [(d.intType .byte).text] = some (· % 256) := by cases d <;> rfl
    rw [htree, A.value_cast d ht _ _ hcast, hx]
    rfl

theorem value_signExtendByte {A : Arithmetic cx.target} {x : Int32}
    (hx : A.value (cx.tree obj) = some x.toInt) :
    A.value (cx.propertyTree .signExtendByte (cx.tree obj)) =
      some (if cx.target = .actionScript then (x ^^^ 128).toInt - 128 else x.toInt.bmod 256) := by
  rcases cx.target.eq_actionScript_or with ht | ⟨d, ht⟩
  · have htree : cx.propertyTree .signExtendByte (cx.tree obj) =
        .binary "-" (.binary "^" (cx.tree obj) (.number "128")) (.number "128") := by
      rw [propertyTree, ht]
      rfl
    rw [htree, A.value_sub ht, A.value_xor ht, hx, A.value_sign]
    simp [ht]
  · have htree : cx.propertyTree .signExtendByte (cx.tree obj) =
        .cast [(d.intType .sbyte).text] (cx.tree obj) := by
      rw [propertyTree, ht]
      rfl
    have hcast : byteCast d [(d.intType .sbyte).text] = some (Int.bmod · 256) := by
      cases d <;> rfl
    rw [htree, A.value_cast d ht _ _ hcast, hx]
    simp [ht]

/-- The low byte is printed wherever its operand is. -/
theorem exists_code_byteProperty {accessor : BuiltinProperty} (hbyte : accessor ≠ .stringLength)
    (hc : cx.code obj = .ok code) (ty : Ty) :
    ∃ printed, cx.code (.property obj accessor ty) = .ok printed := by
  have hatLeast : ∀ least, ∃ operand, (cx.operand obj).atLeast least = .ok operand := by
    intro least
    have hcode : (cx.operand obj).code = .ok code := hc
    unfold Operand.atLeast Operand.parenthesized
    rw [hcode]
    split_ifs <;> exact ⟨_, rfl⟩
  have hproperty : cx.code (.property obj accessor ty) = cx.property accessor (cx.operand obj) :=
    rfl
  rw [hproperty, Context.property]
  cases cx.target with
  | actionScript =>
      cases accessor with
      | stringLength => exact absurd rfl hbyte
      | signExtendByte =>
          obtain ⟨operand, hoperand⟩ := hatLeast .xor
          exact ⟨_, Result.bind_eq_ok.mpr ⟨operand, hoperand, rfl⟩⟩
      | lowByte =>
          obtain ⟨operand, hoperand⟩ := hatLeast .and
          exact ⟨_, Result.bind_eq_ok.mpr ⟨operand, hoperand, rfl⟩⟩
  | cFamily d =>
      obtain ⟨operand, hoperand⟩ := hatLeast .prefixed
      cases accessor with
      | stringLength => exact absurd rfl hbyte
      | signExtendByte | lowByte => exact ⟨_, Result.bind_eq_ok.mpr ⟨operand, hoperand, rfl⟩⟩

/-- **Low bytes.** Where an operand's text reads as the operand on its own, both forms of its low
byte are printed. On an operand that is a signed integer of 32 bits, the byte without a sign comes
out on every target. The byte with a sign comes out in the C family, and in ActionScript exactly if
the operand is a byte. -/
theorem low_byte_values (hobj : cx.ReadsAlone obj) (hc : cx.code obj = .ok code) (ty ty' : Ty) :
    ∃ low signed, cx.code (.property obj .lowByte ty) = .ok low ∧
      cx.code (.property obj .signExtendByte ty') = .ok signed ∧
      ∀ (A : Arithmetic cx.target) (x : Int32), A.value (cx.tree obj) = some x.toInt →
        A.Evaluates low (x.toInt % 256) ∧ (∃ n, A.Evaluates signed n) ∧
        (A.Evaluates signed (x.toInt.bmod 256) ↔
          (cx.target = .actionScript → 0 ≤ x.toInt ∧ x.toInt < 256)) := by
  have hlowByte : BuiltinProperty.lowByte ≠ .stringLength := by decide
  have hsignExtendByte : BuiltinProperty.signExtendByte ≠ .stringLength := by decide
  obtain ⟨low, hlow⟩ := exists_code_byteProperty hlowByte hc ty
  obtain ⟨signed, hsigned⟩ := exists_code_byteProperty hsignExtendByte hc ty'
  refine ⟨low, signed, hlow, hsigned, fun A x hx => ?_⟩
  have hreadsLow := hobj.byteProperty (by decide) ty low hlow
  have hreadsSigned := hobj.byteProperty (by decide) ty' signed hsigned
  rw [tree] at hreadsLow hreadsSigned
  have hvalue := value_signExtendByte hx
  refine ⟨(Arithmetic.evaluates_iff hreadsLow _).mpr (value_lowByte hx),
    ⟨_, (Arithmetic.evaluates_iff hreadsSigned _).mpr hvalue⟩, ?_⟩
  rw [Arithmetic.evaluates_iff hreadsSigned, hvalue, Option.some.injEq]
  split_ifs with ht
  · rw [flipped_eq_bmod_iff]
    simp [ht]
  · simp [ht]

/-- The low byte of a difference of 200, without a sign and with one. -/
theorem low_byte_values_difference :
    let cx : Context := ⟨.empty, .actionScript, none⟩
    let name (text : String) : Expr := .var text (.int .int)
    let obj : Expr := .binary (name "a") .sub (name "b") (.int .int)
    let A : Arithmetic cx.target := .plain _ fun w => if w = "a" then 300 else 100
    ∃ low signed, cx.code (.property obj .lowByte (.int .byte)) = .ok low ∧
      low.text = "a - b & 0xff" ∧ A.Evaluates low 200 ∧
      cx.code (.property obj .signExtendByte (.int .sbyte)) = .ok signed ∧
      signed.text = "(a - b ^ 128) - 128" ∧ A.Evaluates signed (-56) := by
  intro cx name obj A
  have hnamed : cx.program.Named cx.target :=
    ⟨by simp [cx, Program.empty], by simp [cx, Program.empty]⟩
  have hobj : cx.ReadsAlone obj := fun code hc => readsAs_tree hnamed (by decide) (by decide) hc
  have hcode : cx.code obj = .ok _ := rfl
  obtain ⟨low, signed, hlow, hsigned, hvalues⟩ :=
    low_byte_values hobj hcode (.int .byte) (.int .sbyte)
  have htext : low.text = "a - b & 0xff" ∧ signed.text = "(a - b ^ 128) - 128" := by
    obtain rfl := Except.ok.inj hlow
    obtain rfl := Except.ok.inj hsigned
    decide
  obtain ⟨hunsigned, -, hiff⟩ := hvalues A 200 rfl
  exact ⟨low, signed, hlow, htext.1, hunsigned, hsigned, htext.2, hiff.mpr (by decide)⟩

/-- The signed low byte of 256 is 0, and not what ActionScript computes. -/
theorem not_evaluates_signed_256 :
    let code (t : Target) : Result Code :=
      (Context.mk .empty t none).code
        (.property (.var "x" (.int .int)) .signExtendByte (.int .sbyte))
    let A (t : Target) : Arithmetic t := .plain t fun _ => 256
    (∃ signed, code (.cFamily .standard) = .ok signed ∧ signed.text = "(int8_t) x" ∧
      (A (.cFamily .standard)).Evaluates signed (Int.bmod 256 256)) ∧
    ∃ signed, code .actionScript = .ok signed ∧ signed.text = "(x ^ 128) - 128" ∧
      (A .actionScript).Evaluates signed 256 ∧
      ¬(A .actionScript).Evaluates signed (Int.bmod 256 256) := by
  intro code A
  have hreads :
      ∀ t, (Context.mk .empty t none).ReadsAlone (.var "x" (.int .int)) := fun t code hc =>
    readsAs_tree ⟨by simp [Program.empty], by simp [Program.empty]⟩ (by cases t <;> rfl)
      (by cases t <;> rfl) hc
  have hsignExtendByte : BuiltinProperty.signExtendByte ≠ .stringLength := by decide
  have hsigned : ∀ t signed, code t = .ok signed → signed.ReadsAs t _ := fun t signed hc =>
    (hreads t).byteProperty hsignExtendByte (.int .sbyte) signed hc
  refine ⟨⟨_, rfl, by decide, ?_⟩, _, rfl, by decide, ?_⟩
  · exact (Arithmetic.evaluates_iff (hsigned _ _ rfl) _).mpr (by decide)
  · rw [Arithmetic.evaluates_iff (hsigned _ _ rfl), Arithmetic.evaluates_iff (hsigned _ _ rfl)]
    decide

end Context

end Emitter
