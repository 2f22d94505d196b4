import Ber.Proofs.Arcs

/-!
# Ber.Proofs.ArcWords — which arcs of a path are words

The arc of a component and the number that it is written in may be of any size. This module says which
components there are and which of their arcs come out as words of 32 bits:

1. The component at an index is the one at the place of that index, written in the subidentifier that
   stands there (`components_getElem?_iff`).
2. It is the number that has to be a word, and not the arc. So a first arc, and some second ones, are lost
   although they would fit: these are the components that their number outgrows (`Component.Outgrown`,
   `Component.converts_iff`).

`ObjectIdentifier.words_of_components` puts it together.
-/

namespace Ber
namespace ObjectIdentifier

open Octets

variable {oid : ObjectIdentifier} {component : Component}

/-! ## Places -/

/-- The place of the component at an index. -/
def Place.ofIndex : Nat → Place
  | 0 => .first
  | 1 => .second
  | _ => .later

/-- The component at an index has the place of the index. It is written in the first subidentifier, if it
is one of the first two components, and else in the one before the index. -/
theorem components_getElem?_iff {index : Nat} :
    oid.components[index]? = some component ↔
      component.place = .ofIndex index ∧
        (subidentifiers oid.content)[index - 1]? = some component.subidentifier := by
  rcases component with ⟨place, subidentifier⟩
  cases hsubidentifiers : subidentifiers oid.content with
  | nil =>
    rw [components_nil hsubidentifiers]
    simp
  | cons first others =>
    rw [components_cons hsubidentifiers]
    match index with
    | 0 | 1 => simp [Place.ofIndex, eq_comm]
    | index + 2 => simp [Place.ofIndex, eq_comm, and_comm]

/-! ## Arcs -/

namespace Component

/-- A component is outgrown if its arc is a word and its number is none. The first arc is always a word,
and the second one is, up to 80 numbers beyond the words. -/
def Outgrown (component : Component) : Prop :=
  0x100000000 ≤ component.number ∧
    (component.place = .first ∨
      component.place = .second ∧ component.number < 0x100000000 + 80)

/-- A component converts if it comes out as its arc exactly if this is a word. -/
def Converts (component : Component) : Prop :=
  component.arc? = if component.value < 0x100000000 then some component.value else none

theorem outgrown_iff :
    component.Outgrown ↔ 0x100000000 ≤ component.number ∧ component.value < 0x100000000 := by
  unfold Outgrown value
  cases component.place with
  | first =>
    rw [Place.arc_first]
    simp only [reduceCtorEq, false_and, or_false, and_true]
    omega
  | second =>
    rw [Place.arc_second]
    simp only [reduceCtorEq, true_and, false_or, and_congr_right_iff]
    intro hnumber
    omega
  | later =>
    simp only [reduceCtorEq, false_and, or_false, and_false, false_iff, not_and]
    intro hnumber hvalue
    exact absurd hvalue (Nat.not_lt.2 hnumber)

/-- The components that convert are those that are not outgrown. -/
theorem converts_iff : component.Converts ↔ ¬ component.Outgrown := by
  have hle := component.place.arc_le component.number
  unfold Converts
  rw [arc?_eq, outgrown_iff]
  constructor
  · intro hconverts houtgrown
    rw [if_neg (Nat.not_lt.2 houtgrown.1), if_pos houtgrown.2] at hconverts
    cases hconverts
  · intro hkept
    by_cases hnumber : component.number < 0x100000000
    · have hvalue : component.value < 0x100000000 := Nat.lt_of_le_of_lt hle hnumber
      rw [if_pos hnumber, if_pos hvalue]
    · have hvalue : ¬ component.value < 0x100000000 := by
        intro hvalue
        exact hkept ⟨Nat.not_lt.1 hnumber, hvalue⟩
      rw [if_neg hnumber, if_neg hvalue]

end Component

/-! ## What components come out as -/

/-- The components of an object identifier come out as words as far as their numbers are words. -/
structure Worded (oid : ObjectIdentifier) : Prop where
  /-- The component at an index is written in the subidentifier that stands there. -/
  placed : ∀ index component, oid.components[index]? = some component ↔
    component.place = .ofIndex index ∧
      (subidentifiers oid.content)[index - 1]? = some component.subidentifier
  /-- The first two arcs are the ones that share their number: up to two forties of it, and the rest. -/
  shared : ∀ first second, oid.components[0]? = some first → oid.components[1]? = some second →
    40 * first.value + second.value = first.number ∧ second.number = first.number ∧
      first.value ≤ 2 ∧ (first.value < 2 → second.value < 40)
  /-- A later arc is its number. -/
  later : ∀ component ∈ oid.components, component.place = .later → component.value = component.number
  /-- A component comes out as its arc if its number is a word, and else not at all. -/
  word : ∀ component ∈ oid.components,
    component.arc? = if component.number < 0x100000000 then some component.value else none
  /-- So it does exactly if the arc itself is a word, unless the number outgrows it. -/
  converts : ∀ component ∈ oid.components, component.Converts ↔ ¬ component.Outgrown

/-- Whatever the octets of an object identifier are, this is what its components come out as. -/
theorem words_of_components (oid : ObjectIdentifier) : oid.Worded := by
  constructor
  · intro index component
    exact components_getElem?_iff
  · intro first second hfirst hsecond
    obtain ⟨hfirstPlace, hfirstPiece⟩ := components_getElem?_iff.1 hfirst
    obtain ⟨hsecondPlace, hsecondPiece⟩ := components_getElem?_iff.1 hsecond
    have hnumber : second.number = first.number := by
      have hpiece := hsecondPiece.symm.trans hfirstPiece
      exact congrArg base128 (Option.some.inj hpiece)
    have hfirstValue : first.value = min (first.number / 40) 2 := by
      rw [Component.value, hfirstPlace]
      exact Place.arc_first first.number
    have hsecondValue : second.value = first.number - 40 * min (first.number / 40) 2 := by
      rw [Component.value, hsecondPlace, hnumber]
      exact Place.arc_second first.number
    refine ⟨?_, hnumber, ?_, ?_⟩ <;> omega
  · intro component hmem hplace
    rw [Component.value, hplace]
    rfl
  · intro component hmem
    exact component.arc?_eq
  · intro component hmem
    exact Component.converts_iff

/-- The number 2 ^ 32 holds the arcs 2 and 2 ^ 32 - 80. Both are words, and neither comes out. -/
theorem lost_arcs :
    (ObjectIdentifier.mk [0x90, 0x80, 0x80, 0x80, 0x00]).components.map
        (fun component => (component.place, component.value, component.arc?)) =
      [(.first, 2, none), (.second, 0xffffffb0, none)] ∧
    ¬ ∀ component ∈ (ObjectIdentifier.mk [0x90, 0x80, 0x80, 0x80, 0x00]).components,
      component.Converts := by
  rw [components_eq]
  constructor
  · decide
  · intro h
    have hfirst := h ⟨.first, [0x90, 0x80, 0x80, 0x80, 0x00]⟩ (by decide)
    exact Component.converts_iff.1 hfirst (by unfold Component.Outgrown; decide)

end ObjectIdentifier
end Ber
