/-!
# Resolved types

Enumeration and class types refer to their declarations by position, so two types are the same
exactly when they are equal values, whatever their declarations are called.
-/

namespace Emitter.Program

/-- The position of an enumeration in its program. -/
structure EnumId where
  index : UInt64
  deriving DecidableEq, Repr

/-- The position of a class in its program. -/
structure ClassId where
  index : UInt64
  deriving DecidableEq, Repr

inductive IntKind
  | sbyte
  | byte
  | short
  | ushort
  | int
  | long
  deriving DecidableEq, Repr

inductive FloatKind
  | float
  | double
  deriving DecidableEq, Repr

/-- A resolved type. `null` is the type of the null literal. An array marked `storage` owns its
elements, and `classStorage` is an instance held in place rather than by reference. -/
inductive Ty
  | void
  | bool
  | int (kind : IntKind)
  | float (kind : FloatKind)
  | string
  | null
  | enumeration (id : EnumId)
  | array (element : Ty) (storage : Bool) (length : Option UInt32)
  | classStorage (id : ClassId)
  | classRef (id : ClassId)
  deriving DecidableEq, Repr

namespace Ty

def isInteger : Ty → Bool
  | int _ => true
  | _ => false

def isFloating : Ty → Bool
  | float _ => true
  | _ => false

def isString : Ty → Bool
  | string => true
  | _ => false

def isArray : Ty → Bool
  | array .. => true
  | _ => false

/-- An array whose elements are bytes. -/
def isByteArray : Ty → Bool
  | array (int .byte) _ _ => true
  | _ => false

/-- A declaration of this type constructs its value by itself. -/
def isStorage : Ty → Bool
  | classStorage _ => true
  | array _ storage _ => storage
  | _ => false

/-- The class whose instances a value of this type holds in place, through storage arrays of any
depth. -/
def heldClass : Ty → Option ClassId
  | classStorage id => some id
  | array element true _ => element.heldClass
  | _ => none

end Ty

end Emitter.Program
