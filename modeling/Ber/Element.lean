import Ber.Value.Primitive

/-!
# Ber.Element — values read as a whole

An element is a value with everything inside it. Elements are equal if they hold the same content in
the same order; where they keep an identifier, its octets have to be the same. `==` decides this.
-/

namespace Ber

/-- A value with everything inside it. -/
inductive Element where
  /-- A value of application or private class: its content is not looked into. -/
  | uninterpreted (identifier : Identifier) (content : Octets)
  /-- A value without parts. A segmented octet string appears here with its segments joined. -/
  | primitive (value : Primitive)
  | sequence (elements : List Element)
  | set (elements : List Element)
  /-- A tagged value that is not marked as constructed, by its content octets. -/
  | taggedContent (identifier : Identifier) (content : Octets)
  /-- A tagged value made up of values. -/
  | tagged (identifier : Identifier) (elements : List Element)
deriving Repr

namespace Element

/-! ## Equality -/

mutual

/-- Whether two elements are equal. -/
def beq : Element → Element → Bool
  | uninterpreted i c, uninterpreted j d => i == j && c == d
  | primitive p, primitive q => p == q
  | sequence es, sequence fs => beqList es fs
  | set es, set fs => beqList es fs
  | taggedContent i c, taggedContent j d => i == j && c == d
  | tagged i es, tagged j fs => i == j && beqList es fs
  | _, _ => false

/-- Whether two lists of elements are equal. -/
def beqList : List Element → List Element → Bool
  | [], [] => true
  | e :: es, f :: fs => beq e f && beqList es fs
  | _, _ => false

end

instance : BEq Element := ⟨beq⟩

mutual

/-- The test for equality decides equality. -/
theorem beq_iff_eq : (e f : Element) → (beq e f = true ↔ e = f)
  | uninterpreted .., f | primitive _, f | taggedContent .., f => by cases f <;> simp [beq]
  | sequence es, f | set es, f | tagged _ es, f => by
    cases f <;> simp [beq, beqList_iff_eq es]

/-- The test for equality of lists decides equality. -/
theorem beqList_iff_eq : (es fs : List Element) → (beqList es fs = true ↔ es = fs)
  | [], fs => by cases fs <;> simp [beqList]
  | e :: es, fs => by
    cases fs <;> simp [beqList, beq_iff_eq e, beqList_iff_eq es]

end

instance : LawfulBEq Element where
  eq_of_beq := (beq_iff_eq _ _).1
  rfl := (beq_iff_eq _ _).2 rfl

instance : DecidableEq Element := instDecidableEqOfLawfulBEq

end Element
end Ber
