import Mathlib.Tactic.Common
import TermRules.Parse.Cursor

/-!
# Syntax at other places

Relocation applies a function to every place in a piece of syntax and leaves the
rest alone. Two pieces of syntax are the same up to their places when they are
relocated to the same piece, with all places unknown.
-/

namespace TermRules

class Relocatable (α : Type) where
  relocate : (Loc → Loc) → α → α

variable (move : Loc → Loc)

instance : Relocatable Unit := ⟨fun _ u => u⟩
instance : Relocatable Bool := ⟨fun _ b => b⟩
instance : Relocatable Int64 := ⟨fun _ n => n⟩
instance : Relocatable Loc := ⟨fun move loc => move loc⟩

instance {α : Type} [Relocatable α] : Relocatable (List α) :=
  ⟨fun move as => as.map (Relocatable.relocate move)⟩

instance {α : Type} [Relocatable α] : Relocatable (Option α) :=
  ⟨fun move a => a.map (Relocatable.relocate move)⟩

def Token.relocate (t : Token) : Token := { t with loc := move t.loc }

def SyntaxError.relocate (e : SyntaxError) : SyntaxError := { e with loc := move e.loc }

def Ident.relocate (i : Ident) : Ident := { i with loc := move i.loc }

instance : Relocatable Ident := ⟨Ident.relocate⟩

mutual

def Pattern.relocate : Pattern → Pattern
  | .wildcard loc => .wildcard (move loc)
  | .var loc name => .var (move loc) name
  | .bind loc name sub => .bind (move loc) name sub.relocate
  | .int loc value => .int (move loc) value
  | .bool loc value => .bool (move loc) value
  | .term loc name args => .term (move loc) name (relocateAll args)
  | .all loc parts => .all (move loc) (relocateAll parts)

def Pattern.relocateAll : List Pattern → List Pattern
  | [] => []
  | p :: ps => p.relocate :: relocateAll ps

end

mutual

def Expr.relocate : Expr → Expr
  | .var loc name => .var (move loc) name
  | .int loc value => .int (move loc) value
  | .bool loc value => .bool (move loc) value
  | .term loc name args => .term (move loc) name (relocateAll args)
  | .letIn loc bindings body => .letIn (move loc) (relocateIn bindings) body.relocate

def Expr.relocateAll : List Expr → List Expr
  | [] => []
  | e :: es => e.relocate :: relocateAll es

def Expr.relocateIn : List (Binding Expr) → List (Binding Expr)
  | [] => []
  | ⟨name, type, value⟩ :: bs =>
      ⟨name.relocate move, type.relocate move, value.relocate⟩ :: relocateIn bs

end

instance : Relocatable Pattern := ⟨Pattern.relocate⟩
instance : Relocatable Expr := ⟨Expr.relocate⟩

def Binding.relocate (b : Binding Expr) : Binding Expr :=
  ⟨b.var.relocate move, b.type.relocate move, b.value.relocate move⟩

instance : Relocatable (Binding Expr) := ⟨Binding.relocate⟩

theorem Pattern.relocateAll_eq_map (ps : List Pattern) :
    relocateAll move ps = ps.map (relocate move) := by
  induction ps with
  | nil => rfl
  | cons p ps ih => rw [relocateAll, ih, List.map_cons]

theorem Pattern.length_relocateAll (ps : List Pattern) :
    (relocateAll move ps).length = ps.length := by
  rw [relocateAll_eq_map, List.length_map]

theorem Expr.relocateAll_eq_map (es : List Expr) :
    relocateAll move es = es.map (relocate move) := by
  induction es with
  | nil => rfl
  | cons e es ih => rw [relocateAll, ih, List.map_cons]

theorem Expr.length_relocateAll (es : List Expr) : (relocateAll move es).length = es.length := by
  rw [relocateAll_eq_map, List.length_map]

theorem Expr.relocateIn_eq_map (bs : List (Binding Expr)) :
    relocateIn move bs = bs.map (Binding.relocate move) := by
  induction bs with
  | nil => rfl
  | cons b bs ih => rw [relocateIn, ih, List.map_cons, Binding.relocate]

def Field.relocate (f : Field) : Field := ⟨f.name.relocate move, f.type.relocate move⟩

instance : Relocatable Field := ⟨Field.relocate⟩

def Variant.relocate (v : Variant) : Variant :=
  ⟨v.name.relocate move, v.fields.map (Field.relocate move)⟩

instance : Relocatable Variant := ⟨Variant.relocate⟩

def TypeBody.relocate : TypeBody → TypeBody
  | .primitive spelling => .primitive (spelling.relocate move)
  | .enum variants => .enum (variants.map (Variant.relocate move))

instance : Relocatable TypeBody := ⟨TypeBody.relocate⟩

def TypeDef.relocate (d : TypeDef) : TypeDef :=
  { d with name := d.name.relocate move, body := d.body.relocate move, loc := move d.loc }

instance : Relocatable TypeDef := ⟨TypeDef.relocate⟩

def TermDecl.relocate (d : TermDecl) : TermDecl :=
  { d with
    term := d.term.relocate move
    args := d.args.map (Ident.relocate move)
    ret := d.ret.relocate move
    loc := move d.loc }

instance : Relocatable TermDecl := ⟨TermDecl.relocate⟩

instance : Relocatable ExternalKind := ⟨fun _ kind => kind⟩

def ExternalDef.relocate (d : ExternalDef) : ExternalDef :=
  { d with
    term := d.term.relocate move, function := d.function.relocate move, loc := move d.loc }

instance : Relocatable ExternalDef := ⟨ExternalDef.relocate⟩

def Template.relocate (t : Template) : Template where
  term := t.term.relocate move
  params := t.params.map (Ident.relocate move)
  body := t.body.relocate move
  loc := move t.loc

instance : Relocatable Template := ⟨Template.relocate⟩

def Guard.relocate (g : Guard) : Guard :=
  ⟨g.pattern.relocate move, g.value.relocate move, move g.loc⟩

instance : Relocatable Guard := ⟨Guard.relocate⟩

def Rule.relocate (r : Rule) : Rule where
  name := r.name.map (Ident.relocate move)
  priority := r.priority
  pattern := r.pattern.relocate move
  guards := r.guards.map (Guard.relocate move)
  result := r.result.relocate move
  loc := move r.loc

instance : Relocatable Rule := ⟨Rule.relocate⟩

def Definition.relocate : Definition → Definition
  | .type d => .type (d.relocate move)
  | .decl d => .decl (d.relocate move)
  | .external d => .external (d.relocate move)
  | .template d => .template (d.relocate move)
  | .rule d => .rule (d.relocate move)

instance : Relocatable Definition := ⟨Definition.relocate⟩

theorem Token.relocate_id : Token.relocate id = id := rfl

theorem Ident.relocate_id : Ident.relocate id = id := rfl

theorem Field.relocate_id : Field.relocate id = id := rfl

mutual

theorem Pattern.relocate_id : ∀ p : Pattern, p.relocate id = p
  | .wildcard _ | .var _ _ | .int _ _ | .bool _ _ => rfl
  | .bind loc name sub => congrArg (bind loc name) sub.relocate_id
  | .term loc name args => congrArg (term loc name) (relocateAll_id args)
  | .all loc parts => congrArg (all loc) (relocateAll_id parts)

theorem Pattern.relocateAll_id : ∀ ps : List Pattern, relocateAll id ps = ps
  | [] => rfl
  | p :: ps => congrArg₂ List.cons p.relocate_id (relocateAll_id ps)

end

mutual

theorem Expr.relocate_id : ∀ e : Expr, e.relocate id = e
  | .var _ _ | .int _ _ | .bool _ _ => rfl
  | .term loc name args => congrArg (term loc name) (relocateAll_id args)
  | .letIn loc bindings body =>
      congrArg₂ (letIn loc) (relocateIn_id bindings) body.relocate_id

theorem Expr.relocateAll_id : ∀ es : List Expr, relocateAll id es = es
  | [] => rfl
  | e :: es => congrArg₂ List.cons e.relocate_id (relocateAll_id es)

theorem Expr.relocateIn_id : ∀ bs : List (Binding Expr), relocateIn id bs = bs
  | [] => rfl
  | ⟨name, type, value⟩ :: bs =>
      congrArg₂ List.cons (congrArg (Binding.mk name type) value.relocate_id) (relocateIn_id bs)

end

theorem Variant.relocate_id : Variant.relocate id = id := by
  funext v
  simp [relocate, Ident.relocate_id, Field.relocate_id]

theorem TypeBody.relocate_id (b : TypeBody) : b.relocate id = b := by
  cases b with
  | primitive spelling => rfl
  | enum variants => simp [relocate, Variant.relocate_id]

theorem Guard.relocate_id : Guard.relocate id = id := by
  funext g
  simp [relocate, Pattern.relocate_id, Expr.relocate_id]

theorem TypeDef.relocate_id (d : TypeDef) : d.relocate id = d := by
  simp [relocate, Ident.relocate_id, TypeBody.relocate_id]

theorem TermDecl.relocate_id (d : TermDecl) : d.relocate id = d := by
  simp [relocate, Ident.relocate_id]

theorem ExternalDef.relocate_id (d : ExternalDef) : d.relocate id = d := rfl

theorem Template.relocate_id (d : Template) : d.relocate id = d := by
  simp [relocate, Ident.relocate_id, Pattern.relocate_id]

theorem Rule.relocate_id (r : Rule) : r.relocate id = r := by
  simp [relocate, Ident.relocate_id, Pattern.relocate_id, Guard.relocate_id, Expr.relocate_id]

theorem Definition.relocate_id (d : Definition) : d.relocate id = d := by
  cases d with
  | type d => rw [relocate, d.relocate_id]
  | decl d => rw [relocate, d.relocate_id]
  | external d => rw [relocate, d.relocate_id]
  | template d => rw [relocate, d.relocate_id]
  | rule r => rw [relocate, r.relocate_id]

end TermRules
