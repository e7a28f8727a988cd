import TermRules.Env.Table
import TermRules.Location

/-!
# Types and terms

A type is the builtin truth type, a primitive of the target language or an enum.
Each variant of an enum is a term as well. A term has at most one way to be
built and at most one way to be matched.
-/

namespace TermRules

-- Unbounded numbers stand for words of 32 bits; below 2^32 entries the two are the same.
abbrev TypeId := Nat
abbrev TermId := Nat
abbrev VarId := Nat

structure FieldInfo where
  name : Bytes
  type : TypeId
deriving DecidableEq, Repr, Inhabited

structure VariantInfo where
  name : Bytes
  fields : List FieldInfo
  term : TermId
deriving DecidableEq, Repr, Inhabited

inductive TypeShape
  | builtin (spelling : Bytes)
  | primitive (spelling : Bytes)
  | enum (variants : Array VariantInfo)
deriving DecidableEq, Repr, Inhabited

namespace TypeShape

def isPrimitive : TypeShape → Bool
  | .primitive _ => true
  | _ => false

def isEnum : TypeShape → Bool
  | .enum _ => true
  | _ => false

def variants : TypeShape → Array VariantInfo
  | .enum variants => variants
  | _ => #[]

def addVariant (v : VariantInfo) : TypeShape → TypeShape
  | .enum variants => .enum (variants.push v)
  | shape => shape

end TypeShape

structure TypeInfo where
  name : Bytes
  shape : TypeShape
  isExternal : Bool
  loc : Loc
deriving DecidableEq, Repr, Inhabited

instance : Named TypeInfo := ⟨TypeInfo.name⟩

def boolType : TypeId := 0

def boolInfo : TypeInfo := ⟨ascii "bool", .builtin (ascii "bool"), false, .unknown⟩

structure VariantRef where
  type : TypeId
  index : Nat
deriving DecidableEq, Repr, Inhabited

inductive Constructor
  | missing
  | internal (loc : Loc)
  | external (function : Bytes) (loc : Loc)
  | variant (ref : VariantRef)
deriving DecidableEq, Repr, Inhabited

inductive Extractor
  | missing
  | external (function : Bytes) (infallible : Bool) (loc : Loc)
  | template (index : Nat) (loc : Loc)
  | variant (ref : VariantRef)
deriving DecidableEq, Repr, Inhabited

structure TermInfo where
  name : Bytes
  args : List TypeId
  ret : TypeId
  isPure : Bool
  isPartial : Bool
  loc : Loc
  constructor : Constructor
  extractor : Extractor
deriving DecidableEq, Repr, Inhabited

instance : Named TermInfo := ⟨TermInfo.name⟩

end TermRules
