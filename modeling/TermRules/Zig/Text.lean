import TermRules.Zig.Statement

/-!
# The text of generated functions

Every value, statement, block and function has one text. Only here do terms,
variants and types get their names.
-/

namespace TermRules.Zig

def tempName (i : Nat) : Bytes := ascii "v" ++ decimal i

def paramName (i : Nat) : Bytes := ascii "arg" ++ decimal i

def label (index : Nat) : Bytes := ascii "rule_" ++ decimal index

def commaSeparated (texts : List Bytes) : Bytes := joinWith (ascii ", ") texts

def callText (function : Bytes) (args : List Bytes) : Bytes :=
  function ++ ascii "(" ++ commaSeparated args ++ ascii ")"

namespace Setting

variable (s : Setting)

/-- A variant without fields holds the empty value. -/
def variantText (ref : VariantRef) (args : List Bytes) : Bytes :=
  let payload :=
    match s.fieldNames ref with
    | [] => ascii "\x7b\x7d"
    | names =>
        let fields := (names.zip args).map fun (name, arg) =>
          ascii "." ++ name ++ ascii " = " ++ arg
        ascii ".\x7b " ++ commaSeparated fields ++ ascii " \x7d"
  s.typeName ref.type ++ ascii "\x7b ." ++ s.tag ref ++ ascii " = " ++ payload ++ ascii " \x7d"

mutual

def valueText : Value → Bytes
  | .param i => paramName i
  | .temp i => tempName i
  | .int n => n.text
  | .bool b => if b then ascii "true" else ascii "false"
  | .payload base ref field =>
      valueText base ++ ascii "." ++ s.tag ref ++ ascii "." ++
        ((s.fieldNames ref)[field]?).getD (identifier [])
  | .component base i => valueText base ++ ascii "[" ++ decimal i ++ ascii "]"
  | .variant ref args => s.variantText ref (valueTexts args)
  | .construct term args => callText (s.constructorName term) (ascii "ctx" :: valueTexts args)
  | .contextBuild term args => callText (ascii "ctx." ++ s.buildMethod term) (valueTexts args)
  | .contextMatch term arg => callText (ascii "ctx." ++ s.matchMethod term) [valueText arg]
  | .undefined => ascii "undefined"

def valueTexts : List Value → List Bytes
  | [] => []
  | v :: vs => valueText v :: valueTexts vs

end

def conditionText : Condition → Bytes
  | .differ a b => s.valueText a ++ ascii " != " ++ s.valueText b
  | .differDeeply a b => ascii "!" ++ callText (ascii "std.meta.eql") [s.valueText a, s.valueText b]
  | .otherTag v ref => s.valueText v ++ ascii " != ." ++ s.tag ref
  | .isTrue v => s.valueText v
  | .isFalse v => ascii "!" ++ s.valueText v

def breakText (index : Nat) : Bytes := ascii "break :" ++ label index

def statementText (index : Nat) : Statement → Bytes
  | .const temp type value orBreak =>
      ascii "const " ++ tempName temp ++
        (match type with
          | some t => ascii ": " ++ s.typeName t
          | none => []) ++
        ascii " = " ++ s.valueText value ++
        (if orBreak then ascii " orelse " ++ breakText index else []) ++ ascii ";"
  | .breakIf c =>
      ascii "if (" ++ s.conditionText c ++ ascii ") " ++ breakText index ++ ascii ";"
  | .discard v => ascii "_ = " ++ s.valueText v ++ ascii ";"
  | .ret v => ascii "return " ++ s.valueText v ++ ascii ";"

def lineText (indent : String) (text : Bytes) : Bytes :=
  ascii indent ++ text ++ [Byte.newline]

def blockText (b : Block) : Bytes :=
  (match b.ruleName with
    | some name => lineText "    " (ascii "// " ++ name)
    | none => []) ++
  lineText "    " (if b.breaks then label b.index ++ ascii ": \x7b" else ascii "\x7b") ++
  b.body.flatMap (fun t => lineText "        " (s.statementText b.index t)) ++
  lineText "    " (ascii "\x7d")

def returnTypeText (term : TermInfo) : Bytes :=
  (if term.isPartial then ascii "?" else []) ++ s.typeName term.ret

def fallThroughText (term : TermInfo) : Bytes :=
  if term.isPartial then ascii "return null;"
  else ascii "@panic(\"no rule matched for term " ++ term.name ++ ascii "\");"

def paramText (i : Nat) (type : TypeId) : Bytes :=
  ascii ", " ++ paramName i ++ ascii ": " ++ s.typeName type

def discardText (name : Bytes) : Bytes := ascii "_ = " ++ name ++ ascii ";"

def functionText (f : Function) : Bytes :=
  let term := s.ruleSet.termInfo f.term
  let params := (term.args.mapIdx s.paramText).flatten
  let unused := (List.range term.args.length).filter (· ∉ f.usedParams)
  lineText "" (ascii "pub fn " ++ s.constructorName f.term ++ ascii "(ctx: anytype" ++ params ++
    ascii ") " ++ s.returnTypeText term ++ ascii " \x7b") ++
  (if f.usesContext then [] else lineText "    " (discardText (ascii "ctx"))) ++
  unused.flatMap (fun i => lineText "    " (discardText (paramName i))) ++
  f.blocks.flatMap s.blockText ++
  (if f.fallsThrough then lineText "    " (fallThroughText term) else []) ++
  lineText "" (ascii "\x7d")

end Setting

end TermRules.Zig
