import TermRules.Proofs.Variants

/-!
# Values and interpretations

A value is a truth value, a value of some primitive type or a variant with its
fields. External functions, and the functions of terms that rules are written
for, are interpreted as functions on values which respect the declared types.
Partial terms and fallible extractors may have no result.
-/

namespace TermRules

/-- A value over the primitive values `P`. An extractor with several results finds them together
in a tuple, which no type has. -/
inductive Val (P : Type)
  | bool (b : Bool)
  | prim (p : P)
  | variant (ref : VariantRef) (fields : List (Val P))
  | tuple (parts : List (Val P))
deriving Repr

namespace Val

section Equality

variable {P : Type} [DecidableEq P]

mutual

def same : Val P → Val P → Bool
  | .bool a, .bool b => a == b
  | .prim a, .prim b => a == b
  | .variant r xs, .variant s ys => r == s && sameAll xs ys
  | .tuple xs, .tuple ys => sameAll xs ys
  | _, _ => false

def sameAll : List (Val P) → List (Val P) → Bool
  | [], [] => true
  | x :: xs, y :: ys => same x y && sameAll xs ys
  | _, _ => false

end

mutual

theorem same_iff : ∀ (x y : Val P), same x y = true ↔ x = y
  | .bool a, y => by cases y <;> simp [same]
  | .prim a, y => by cases y <;> simp [same]
  | .variant r xs, y => by
      cases y with
      | variant s ys => simp [same, sameAll_iff xs ys]
      | _ => simp [same]
  | .tuple xs, y => by
      cases y with
      | tuple ys => simp [same, sameAll_iff xs ys]
      | _ => simp [same]

theorem sameAll_iff : ∀ (xs ys : List (Val P)), sameAll xs ys = true ↔ xs = ys
  | [], ys => by cases ys <;> simp [sameAll]
  | x :: xs, ys => by
      cases ys with
      | nil => simp [sameAll]
      | cons y ys => simp [sameAll, same_iff x y, sameAll_iff xs ys]

end

instance : DecidableEq (Val P) := fun x y => decidable_of_iff (same x y = true) (same_iff x y)

end Equality

section Typing

variable (rs : RuleSet) {P : Type}

mutual

def HasType : Val P → TypeId → Prop
  | .bool _, type => type = boolType
  | .prim _, type => (rs.typeInfo type).shape.isPrimitive = true
  | .variant ref fields, type =>
      ref.type = type ∧ ∃ v, (rs.typeInfo type).shape.variants[ref.index]? = some v ∧
        HaveTypes fields (v.fields.map FieldInfo.type)
  | .tuple _, _ => False

def HaveTypes : List (Val P) → List TypeId → Prop
  | [], [] => True
  | x :: xs, type :: types => HasType x type ∧ HaveTypes xs types
  | _, _ => False

end

variable {rs}

theorem HaveTypes.length_eq : ∀ {xs : List (Val P)} {types : List TypeId},
    HaveTypes rs xs types → xs.length = types.length
  | [], [], _ => rfl
  | _ :: _, _ :: _, ⟨_, h⟩ => congrArg (· + 1) h.length_eq

theorem HasType.isEnum {ref : VariantRef} {fields : List (Val P)} {type : TypeId}
    (h : HasType rs (.variant ref fields) type) :
    (rs.typeInfo type).shape.isEnum = true := by
  obtain ⟨-, v, hv, -⟩ := h
  cases hs : (rs.typeInfo type).shape with
  | enum vs => rfl
  | builtin => simp [hs, TypeShape.variants] at hv
  | primitive => simp [hs, TypeShape.variants] at hv

theorem HasType.of_bool (hc : rs.Coherent) {x : Val P} (h : HasType rs x boolType) :
    ∃ b, x = .bool b := by
  have hshape : (rs.typeInfo boolType).shape = boolInfo.shape := by
    rw [RuleSet.typeInfo_of_get? hc.bool]
  cases x with
  | bool b => exact ⟨b, rfl⟩
  | prim p =>
    rw [HasType, hshape] at h
    cases h
  | variant ref fields =>
    have he := h.isEnum
    rw [hshape] at he
    cases he
  | tuple => exact h.elim

end Typing

end Val

inductive Ending (P : Type)
  | value (x : Val P)
  | null
  | panic
deriving DecidableEq, Repr

def Constructor.isCalled : Constructor → Bool
  | .internal _ | .external .. => true
  | _ => false

/-- What the functions of a rule set do. Without a result a constructor fails, and an extractor
does not match. -/
structure Interpretation (rs : RuleSet) (P : Type) where
  numeral : Int → P
  build : TermId → List (Val P) → Option (Val P)
  find : TermId → Val P → Option (List (Val P))
  build_total : ∀ {t info xs}, rs.terms.get? t = some info → info.constructor.isCalled = true →
    info.isPartial = false → Val.HaveTypes rs xs info.args → (build t xs).isSome = true
  build_typed : ∀ {t info xs y}, rs.terms.get? t = some info → info.constructor.isCalled = true →
    Val.HaveTypes rs xs info.args → build t xs = some y → Val.HasType rs y info.ret
  find_total : ∀ {t info function loc x}, rs.terms.get? t = some info →
    info.extractor = .external function true loc → Val.HasType rs x info.ret →
    (find t x).isSome = true
  find_typed : ∀ {t info function infallible loc x ys}, rs.terms.get? t = some info →
    info.extractor = .external function infallible loc → Val.HasType rs x info.ret →
    find t x = some ys → Val.HaveTypes rs ys info.args

end TermRules
