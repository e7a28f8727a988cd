import TermRules.RuleSet

/-!
# Names in generated Zig code

Names of rule files become Zig identifiers byte by byte, and an identifier that
is a keyword is quoted. A constructor function is named for its term behind the
name segments that the options ask for.
-/

namespace TermRules

inductive Target
  | zig
  | unknown (code : Int)
deriving DecidableEq, Repr

structure Options where
  target : Target
  omitPragma : Bool
  segments : List Bytes
deriving DecidableEq, Repr

def Options.standard : Options := ⟨.zig, false, []⟩

namespace Zig

def keywords : List Bytes :=
  ["addrspace", "align", "allowzero", "and", "anyframe", "anytype", "asm", "async", "await",
   "break", "callconv", "catch", "comptime", "const", "continue", "defer", "else", "enum",
   "errdefer", "error", "export", "extern", "fn", "for", "if", "inline", "linksection",
   "noalias", "noinline", "nosuspend", "opaque", "or", "orelse", "packed", "pub", "resume",
   "return", "struct", "suspend", "switch", "test", "threadlocal", "try", "type", "union",
   "unreachable", "usingnamespace", "var", "while"].map ascii

def identifierByte (b : UInt8) : UInt8 :=
  if Byte.isAlphanumeric b then b else Byte.underscore

/-- Bytes outside identifiers become underscores, and no identifier is empty or starts with a
digit. -/
def sanitize (name : Bytes) : Bytes :=
  let clean := name.map identifierByte
  match clean with
  | [] => [Byte.underscore]
  | b :: _ => if Byte.isDigit b then Byte.underscore :: clean else clean

def identifier (name : Bytes) : Bytes :=
  let clean := sanitize name
  if keywords.contains clean then ascii "@\"" ++ clean ++ ascii "\"" else clean

structure Setting where
  ruleSet : RuleSet
  options : Options

namespace Setting

variable (s : Setting)

def constructorName (term : TermId) : Bytes :=
  ascii "constructor_" ++ s.options.segments.flatMap (sanitize · ++ ascii "_") ++
    sanitize (s.ruleSet.termInfo term).name

/-- A type by the name declared for it, or by its own spelling where nothing is declared. -/
def typeName (type : TypeId) : Bytes :=
  let info := s.ruleSet.typeInfo type
  match info.shape with
  | .builtin spelling => spelling
  | .primitive spelling =>
      if info.isExternal || info.name = spelling then spelling else identifier info.name
  | .enum _ => identifier info.name

def tag (ref : VariantRef) : Bytes := identifier (s.ruleSet.variantInfo ref).name

def fieldNames (ref : VariantRef) : List Bytes :=
  (s.ruleSet.variantInfo ref).fields.map fun f => identifier f.name

def buildMethod (term : TermId) : Bytes :=
  match (s.ruleSet.termInfo term).constructor with
  | .external function _ => identifier function
  | _ => identifier []

def matchMethod (term : TermId) : Bytes :=
  match (s.ruleSet.termInfo term).extractor with
  | .external function _ _ => identifier function
  | _ => identifier []

end Setting

end Zig

end TermRules
