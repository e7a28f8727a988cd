import TermRules.Zig.Lowering
import TermRules.Zig.Text

/-!
# Generated modules

A module starts with a header that lists the rule files. Then follow, as a
comment, the methods that the context must provide, the declared types, and a
function for each term that rules are written for.
-/

namespace TermRules.Zig

namespace Setting

variable (s : Setting)

def headerText (inputs : List Bytes) : Bytes :=
  lineText "" (ascii "// GENERATED BY ISLE. DO NOT EDIT!") ++
  lineText "" (ascii "//") ++
  lineText "" (ascii "// Generated automatically from the rule files:") ++
  inputs.flatMap (fun path => lineText "" (ascii "// - " ++ path)) ++
  lineText "" [] ++
  (if s.options.omitPragma then [] else lineText "" (ascii "// zig fmt: off") ++ lineText "" []) ++
  lineText "" (ascii "const std = @import(\"std\");")

def buildEntry? (term : TermInfo) : Option Bytes :=
  match term.constructor with
  | .external function _ =>
      some (callText (ascii "ctx." ++ identifier function) (term.args.map s.typeName) ++
        ascii " " ++ s.returnTypeText term)
  | _ => none

def resultsText (term : TermInfo) : Bytes :=
  match term.args with
  | [] => ascii "bool"
  | [type] => s.typeName type
  | types => ascii "struct \x7b " ++ commaSeparated (types.map s.typeName) ++ ascii " \x7d"

def matchEntry? (term : TermInfo) : Option Bytes :=
  match term.extractor with
  | .external function infallible _ =>
      some (callText (ascii "ctx." ++ identifier function) [s.typeName term.ret] ++ ascii " " ++
        (if infallible || term.args.isEmpty then [] else ascii "?") ++ s.resultsText term)
  | _ => none

def contextEntries : List Bytes :=
  s.ruleSet.terms.entries.toList.flatMap fun term =>
    (s.buildEntry? term).toList ++ (s.matchEntry? term).toList

def contextText : Bytes :=
  match s.contextEntries with
  | [] => []
  | entries =>
      lineText "" [] ++ lineText "" (ascii "// Context interface: `ctx` must provide") ++
        entries.flatMap fun entry => lineText "//   " entry

def fieldText (f : FieldInfo) : Bytes := identifier f.name ++ ascii ": " ++ s.typeName f.type

def variantDeclText (v : VariantInfo) : Bytes :=
  let payload :=
    match v.fields with
    | [] => ascii "void"
    | fields => ascii "struct \x7b " ++ commaSeparated (fields.map s.fieldText) ++ ascii " \x7d"
  lineText "    " (identifier v.name ++ ascii ": " ++ payload ++ ascii ",")

/-- External types are declared elsewhere, and a primitive under its own spelling needs no
declaration. -/
def typeDeclText (info : TypeInfo) : Bytes :=
  if info.isExternal then []
  else
    match info.shape with
    | .builtin _ => []
    | .primitive spelling =>
        if info.name = spelling then []
        else
          lineText "" [] ++
            lineText "" (ascii "pub const " ++ identifier info.name ++ ascii " = " ++ spelling ++
              ascii ";")
    | .enum variants =>
        lineText "" [] ++
          lineText "" (ascii "pub const " ++ identifier info.name ++
            ascii " = union(enum) \x7b") ++
          variants.toList.flatMap s.variantDeclText ++
          lineText "" (ascii "\x7d;")

def typesText : Bytes := s.ruleSet.types.entries.toList.flatMap s.typeDeclText

def internalTerms : List TermId :=
  (List.range s.ruleSet.terms.size).filter fun id =>
    match (s.ruleSet.termInfo id).constructor with
    | .internal _ => true
    | _ => false

def functions : List Function := s.internalTerms.map (Function.ofTerm s.ruleSet)

def functionsText : Bytes := s.functions.flatMap fun f => lineText "" [] ++ s.functionText f

def moduleText (inputs : List Bytes) : Bytes :=
  s.headerText inputs ++ s.contextText ++ s.typesText ++ s.functionsText

end Setting

end TermRules.Zig
