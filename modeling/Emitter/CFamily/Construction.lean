import Emitter.CFamily.Declarator
import Emitter.Program.Storage
import Emitter.Target.Emit

/-!
# Constructing instances in place

After a place for a value has been declared, every instance in it whose class needs construction is
constructed by a call of the class's function, inside one counting loop for each array around it.
-/

namespace Emitter.CFamily

open Layout Program

/-- The counter of the loop at a depth of nesting. -/
def counter (depth : Nat) : Lexeme := .word ("_i" ++ toString depth)

/-- The head of a loop that counts from zero up to a length. -/
def countingLoop (index : Lexeme) (length : UInt32) : Code :=
  [.word "for", .gap, .symbol "(", .word "int", .gap, index, .gap, .symbol "=", .gap, .number "0",
    .symbol ";", .gap, index, .gap, .symbol "<", .gap, .number (toString length.toNat),
    .symbol ";", .gap, index, .symbol "++", .symbol ")"]

/-- The statements that construct what the place holds. -/
def constructCalls (cx : Context) : Nat → Code → Ty → Emit Unit
  | _, place, .classStorage id => do
    if ← (lookedUp (cx.program.needsConstruction id) : Result Bool) then
      let c ← (cx.classOf id : Result ClassDef)
      Emit.line (.word (constructName c.name) :: Code.parenthesized (.symbol "&" :: place) ++
        [.symbol ";"])
  | depth, place, .array element true length => do
    if ← (lookedUp (cx.program.holdsConstructed (.array element true length)) : Result Bool) then
      match length with
      | none => (cx.unsupported .dynamicArrayStorage : Result Unit)
      | some length =>
        Emit.line (countingLoop (counter depth) length)
        Emit.indented (constructCalls cx (depth + 1)
          (place ++ [.symbol "[", counter depth, .symbol "]"]) element)
  | _, _, _ => pure ()

end Emitter.CFamily
