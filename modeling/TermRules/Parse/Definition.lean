import TermRules.Parse.Pattern

/-!
# Reading definitions

One reader for each kind of definition; `definition` reads the parenthesis and
the keyword and hands over. A rule's priority is the value of its literal, if a
signed 64-bit word holds that value.
-/

namespace TermRules

def IntLiteral.toInt64? (n : IntLiteral) : Option Int64 :=
  if Int64.minValue.toInt ≤ n.value ∧ n.value ≤ Int64.maxValue.toInt then
    some (Int64.ofInt n.value)
  else none

namespace Parse

def field : Parse Field := do
  advance
  let name ← symbol "field name"
  let type ← symbol "field type"
  expect .rparen "')'"
  return ⟨name, type⟩

def variant : Parse Variant := do
  if (← get).kind = .symbol then
    return ⟨← symbol "variant name", []⟩
  else
    expect .lparen "variant"
    let name ← symbol "variant name"
    let fields ← many (·.kind = .lparen) field
    expect .rparen "')' or field"
    return ⟨name, fields⟩

def typeBody : Parse TypeBody := do
  if (← get).kind = .symbol then
    return .primitive (← symbol "primitive type")
  else
    expect .lparen "'(' or primitive type name"
    let form ← symbol "'primitive' or 'enum'"
    let body ←
      if form.name = ascii "primitive" then
        TypeBody.primitive <$> symbol "primitive type name"
      else if form.name = ascii "enum" then
        TypeBody.enum <$> many Cursor.inList variant
      else failAt form.loc (.unknownTypeBody form.name)
    expect .rparen "')'"
    return body

def typeDef (loc : Loc) : Parse TypeDef := do
  let name ← symbol "type name"
  let flags ← many (fun c => c.atSymbol "extern" || c.atSymbol "nodebug") (symbol "type modifier")
  let body ← typeBody
  expect .rparen "')'"
  return {
    name, body, loc
    isExternal := flags.any (·.name = ascii "extern")
    noDebug := flags.any (·.name = ascii "nodebug") }

def termDecl (loc : Loc) : Parse TermDecl := do
  let flags ← many (fun c => c.atSymbol "pure" || c.atSymbol "partial") (symbol "term modifier")
  let c ← get
  if c.atSymbol "multi" then failAt c.loc .multiTerm
  let term ← symbol "term name"
  expect .lparen "'(' before argument types"
  let args ← many (·.kind = .symbol) (symbol "argument type")
  expect .rparen "')' after argument types"
  let ret ← symbol "return type"
  expect .rparen "')'"
  return {
    term, args, ret, loc
    isPure := flags.any (·.name = ascii "pure")
    isPartial := flags.any (·.name = ascii "partial") }

def externalKind : Parse ExternalKind := do
  let kind ← symbol "'constructor' or 'extractor'"
  if kind.name = ascii "constructor" then return .constructor
  else if kind.name = ascii "extractor" then
    if (← get).atSymbol "infallible" then
      advance
      return .extractor true
    else return .extractor false
  else failAt kind.loc (.unknownExternalKind kind.name)

def externalDef (loc : Loc) : Parse ExternalDef := do
  let kind ← externalKind
  let term ← symbol "term name"
  let function ← symbol "function name"
  expect .rparen "')'"
  return { kind, term, function, loc }

def template (loc : Loc) : Parse Template := do
  expect .lparen "'(' before extractor signature"
  let term ← symbol "extractor term name"
  let params ← many (·.kind = .symbol) (symbol "extractor parameter")
  expect .rparen "')' after extractor parameters"
  let body ← pattern
  expect .rparen "')'"
  return { term, params, body, loc }

def priority : Parse Int64 := do
  let c ← get
  match c.lexeme? with
  | some (.int n) =>
      advance
      match n.toInt64? with
      | some priority => return priority
      | none => failAt c.loc .priorityOutOfRange
  | _ => return 0

/-- A guard without a pattern of its own accepts every value. -/
def guard : Parse Guard := do
  let loc := (← get).loc
  advance
  let c ← get
  advance
  let pattern ← if c.atSymbol "if-let" then pattern else pure (.wildcard c.loc)
  let value ← expr
  expect .rparen "')' after guard"
  return { pattern, value, loc }

def ruleName : Parse (Option Ident) := do
  if (← get).kind = .symbol then return some (← symbol "rule name") else return none

def rule (loc : Loc) : Parse Rule := do
  let name ← ruleName
  let priority ← priority
  let pattern ← pattern
  let guards ← many (fun c => c.atForm "if-let" || c.atForm "if") guard
  let result ← expr
  expect .rparen "')' after rule body"
  return { name, priority, pattern, guards, result, loc }

def definition : Parse Definition := do
  let loc := (← get).loc
  expect .lparen "'('"
  let keyword ← symbol "definition keyword"
  if keyword.name = ascii "type" then Definition.type <$> typeDef loc
  else if keyword.name = ascii "decl" then Definition.decl <$> termDecl loc
  else if keyword.name = ascii "extern" then Definition.external <$> externalDef loc
  else if keyword.name = ascii "extractor" then Definition.template <$> template loc
  else if keyword.name = ascii "rule" then Definition.rule <$> rule loc
  else failAt keyword.loc (.unknownDefinition keyword.name)

end Parse

end TermRules
