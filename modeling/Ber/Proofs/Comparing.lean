import Ber.Proofs.ArcWords

/-!
# Ber.Proofs.Comparing — when object identifiers and their components are equal

Object identifiers are compared by their octets, and components by their places and the octets of their
subidentifiers. This module says what that comes to:

1. The components tell the octets up to the last one that ends a number, and no more
   (`components_eq_iff`). So two object identifiers that end there are equal exactly if their components
   are.
2. A number in base 128 that is written without padding is told by its value
   (`Octets.IsNumber.eq_of_base128_eq`). So without padding, components are compared by the numbers that
   they are written in (`Component.beq_iff_number`).
3. For a later component that number is the arc. Each of the first two arcs is only a part of theirs, so
   components with the same arc may differ: the other arc tears them apart (`Component.Torn`).

`ObjectIdentifier.equal_by_components` and `ObjectIdentifier.compared_of_unpadded` put it together.
-/

namespace Ber

/-! ## Numbers without padding -/

namespace Octets

variable {l m n : Octets}

/-- No octet stands in front that only takes up room. -/
def IsUnpadded (octets : Octets) : Prop := octets.head? ≠ some 0x80

instance (octets : Octets) : Decidable octets.IsUnpadded :=
  inferInstanceAs (Decidable (octets.head? ≠ some 0x80))

theorem IsUnpadded.of_append (h : (l ++ m).IsUnpadded) : l.IsUnpadded := by
  cases l with
  | nil => simp [IsUnpadded]
  | cons octet l => exact h

/-- Octets with their high bits set write a number above zero, if there are any and no padding. -/
theorem base128_pos (hhigh : ∀ octet ∈ l, ¬ octet < 0x80) (hunpadded : l.IsUnpadded)
    (hne : l ≠ []) : 0 < l.base128 := by
  cases l with
  | nil => exact absurd rfl hne
  | cons octet l =>
    have hoctet : 0x80 ≤ octet.toNat := by
      have hle := UInt8.le_iff_toNat_le.1 (UInt8.not_lt.1 (hhigh octet List.mem_cons_self))
      simpa using hle
    have hother : octet.toNat ≠ 0x80 := by
      intro heq
      exact hunpadded (congrArg some (UInt8.toNat_inj.1 heq))
    have hless := octet.toNat_lt
    have hgrows := Identifier.le_foldl_base128 l (0 * 128 + octet.toNat % 128)
    have hdigit : 0 < octet.toNat % 128 := by omega
    have hfirst : 0 < 0 * 128 + octet.toNat % 128 := by omega
    exact Nat.lt_of_lt_of_le hfirst hgrows

/-- The low bits tell an octet, given its high bit. -/
theorem eq_of_low {octet other : UInt8} (hhigh : octet < 0x80 ↔ other < 0x80)
    (hlow : octet.toNat % 128 = other.toNat % 128) : octet = other := by
  apply UInt8.toNat_inj.1
  have hoctet := octet.toNat_lt
  have hother := other.toNat_lt
  simp only [UInt8.lt_iff_toNat_lt, UInt8.reduceToNat] at hhigh
  omega

/-- Octets with their high bits set, without padding, are told by the number that they write. -/
theorem eq_of_base128_eq (hl : ∀ octet ∈ l, ¬ octet < 0x80) (hm : ∀ octet ∈ m, ¬ octet < 0x80)
    (hl' : l.IsUnpadded) (hm' : m.IsUnpadded) (h : l.base128 = m.base128) : l = m := by
  -- from the end: the last octets are told by the remainder, and what is in front by the quotient
  induction l using List.reverseRecOn generalizing m with
  | nil =>
    by_contra hne
    have hpos := base128_pos hm hm' (fun hnil => hne hnil.symm)
    rw [← h] at hpos
    exact absurd hpos (by decide)
  | append_singleton l last ih =>
    rcases m.eq_nil_or_concat' with rfl | ⟨m, last', rfl⟩
    · have hpos := base128_pos hl hl' (by simp)
      rw [h] at hpos
      exact absurd hpos (by decide)
    · rw [base128_append, base128_append] at h
      have hlast : last = last' := by
        apply eq_of_low
        · exact iff_of_false (hl last (by simp)) (hm last' (by simp))
        · omega
      have hfront : l = m := by
        apply ih
        · intro octet hmem
          exact hl octet (List.mem_append_left _ hmem)
        · intro octet hmem
          exact hm octet (List.mem_append_left _ hmem)
        · exact hl'.of_append
        · exact hm'.of_append
        · omega
      rw [hfront, hlast]

/-- A number that is written without padding is told by its value. -/
theorem IsNumber.eq_of_base128_eq (hn : n.IsNumber) (hm : m.IsNumber) (hn' : n.IsUnpadded)
    (hm' : m.IsUnpadded) (h : n.base128 = m.base128) : n = m := by
  obtain ⟨leading, last, rfl, hleading, hlast⟩ := isNumber_iff.1 hn
  obtain ⟨leading', last', rfl, hleading', hlast'⟩ := isNumber_iff.1 hm
  rw [base128_append, base128_append] at h
  have hsame : last = last' := by
    apply eq_of_low
    · exact iff_of_true hlast hlast'
    · omega
  have hfront : leading = leading' := by
    apply Octets.eq_of_base128_eq hleading hleading' hn'.of_append hm'.of_append
    omega
  rw [hfront, hsame]

end Octets

namespace ObjectIdentifier

open Octets

variable {a b oid : ObjectIdentifier} {x y : Component}

/-! ## Object identifiers -/

/-- The content is complete if its last octet ends a number, or if there is none. -/
def IsComplete (oid : ObjectIdentifier) : Prop := ∀ last ∈ oid.content.getLast?, last < 0x80

/-- Nothing stands behind the last number of complete content. -/
theorem IsComplete.rdropWhile (h : oid.IsComplete) :
    oid.content.rdropWhile (0x80 ≤ ·) = oid.content := by
  rw [List.rdropWhile_eq_self_iff]
  intro hne
  have hlast := h (oid.content.getLast hne) (List.getLast?_eq_some_getLast hne)
  simpa using hlast

/-- What stands behind the last number makes no difference to the subidentifiers. -/
theorem subidentifiers_rdropWhile (content : Octets) :
    subidentifiers (content.rdropWhile (0x80 ≤ ·)) = subidentifiers content := by
  have htail : ∀ octet ∈ content.rtakeWhile (0x80 ≤ ·), ¬ octet < 0x80 := by
    intro octet hmem
    simpa using List.mem_rtakeWhile_imp hmem
  have happend := subidentifiers_append_high htail (content.rdropWhile (0x80 ≤ ·))
  rw [List.rdropWhile_append_rtakeWhile] at happend
  exact happend.symm

/-- The components tell the octets up to the last one that ends a number, and no more. -/
theorem components_eq_iff :
    a.components = b.components ↔
      a.content.rdropWhile (0x80 ≤ ·) = b.content.rdropWhile (0x80 ≤ ·) := by
  constructor
  · intro h
    rw [← flatten_subidentifiers, ← flatten_subidentifiers, ← flatMap_components,
      ← flatMap_components, h]
  · intro h
    apply components_congr
    rw [← subidentifiers_rdropWhile a.content, h, subidentifiers_rdropWhile]

/-- Object identifiers are compared by their octets. -/
theorem beq_iff : (a == b) = true ↔ a.content = b.content := by
  rw [beq_iff_eq, ObjectIdentifier.mk.injEq]

namespace Component

/-- Components are compared by their places and the octets that they are written in. -/
theorem beq_iff : (x == y) = true ↔ x.place = y.place ∧ x.subidentifier = y.subidentifier := by
  rw [beq_iff_eq, Component.mk.injEq]

end Component

/-- The components of two object identifiers are as many, and equal one by one. -/
def SameComponents (a b : ObjectIdentifier) : Prop :=
  List.Forall₂ (fun x y => (x == y) = true) a.components b.components

theorem sameComponents_iff : a.SameComponents b ↔ a.components = b.components := by
  unfold SameComponents
  simp only [beq_iff_eq, List.forall₂_eq_eq_eq]

/-- Object identifiers are as equal as their components. -/
structure EqualByComponents : Prop where
  /-- The components of equal object identifiers are equal. -/
  same : ∀ a b : ObjectIdentifier, a == b → a.SameComponents b
  /-- If they are complete, this is all that is needed. -/
  complete : ∀ a b : ObjectIdentifier, a.IsComplete → b.IsComplete →
    (a == b ↔ a.SameComponents b)
  /-- If not, then what stands behind the last number may differ. -/
  incomplete : ∀ a b : ObjectIdentifier, a.SameComponents b ↔
    a.content.rdropWhile (0x80 ≤ ·) = b.content.rdropWhile (0x80 ≤ ·)
  equivalence : Equivalence fun x y : Component => (x == y) = true
  /-- Components at different places are not equal, whatever their arcs. -/
  places : ∀ x y : Component, x == y → x.place = y.place

/-- Equality of object identifiers is that of their components, up to an incomplete end. -/
theorem equal_by_components : EqualByComponents := by
  constructor
  · intro a b h
    rw [sameComponents_iff, components_eq_iff, beq_iff.1 h]
  · intro a b ha hb
    rw [sameComponents_iff, components_eq_iff, ha.rdropWhile, hb.rdropWhile, beq_iff]
  · intro a b
    rw [sameComponents_iff, components_eq_iff]
  · constructor
    · intro x
      exact beq_self_eq_true x
    · intro x y h
      exact BEq.symm h
    · intro x y z h h'
      exact BEq.trans h h'
  · intro x y h
    exact (Component.beq_iff.1 h).1

/-- Two object identifiers that are complete, and one of them again with an octet behind it that ends
no number. -/
theorem equal_by_components_unfinished :
    (mk [0x2a, 0x86, 0x48]).components =
      [⟨.first, [0x2a]⟩, ⟨.second, [0x2a]⟩, ⟨.later, [0x86, 0x48]⟩] ∧
    ¬ (mk [0x2a, 0x86, 0x48]).SameComponents (mk [0x2a, 0x86, 0x49]) ∧
    (mk [0x2a, 0x86, 0x48] == mk [0x2a, 0x86, 0x48, 0x81]) = false ∧
    (mk [0x2a, 0x86, 0x48]).SameComponents (mk [0x2a, 0x86, 0x48, 0x81]) := by
  have hcomplete := equal_by_components.complete (mk [0x2a, 0x86, 0x48]) (mk [0x2a, 0x86, 0x49])
    (by simp [IsComplete]) (by simp [IsComplete])
  refine ⟨?_, fun hsame => ?_, by decide, ?_⟩
  · rw [components_eq]
    decide
  · exact absurd (hcomplete.2 hsame) (by decide)
  · exact (equal_by_components.incomplete _ _).2 (by decide)

/-! ## Components -/

/-- No number of the content is padded. -/
def IsUnpadded (oid : ObjectIdentifier) : Prop :=
  ∀ n ∈ subidentifiers oid.content, n.IsUnpadded

/-- The first arcs of two numbers are equal if both numbers hold as many forties, from two on any. -/
theorem Place.arc_first_eq_iff {number other : Nat} :
    Place.arc .first number = Place.arc .first other ↔
      min (number / 40) 2 = min (other / 40) 2 := by
  rw [Place.arc_first, Place.arc_first]

/-- The second arcs of two different numbers are equal if both are below 120 and differ by forties. -/
theorem Place.arc_second_eq_iff {number other : Nat} :
    Place.arc .second number = Place.arc .second other ↔
      number = other ∨ number < 120 ∧ other < 120 ∧ number % 40 = other % 40 := by
  rw [Place.arc_second, Place.arc_second]
  omega

/-- The two arcs tell the number that they share. -/
theorem Place.eq_of_arcs {number other : Nat}
    (hfirst : Place.arc .first number = Place.arc .first other)
    (hsecond : Place.arc .second number = Place.arc .second other) : number = other := by
  simp only [Place.arc_first, Place.arc_second] at hfirst hsecond
  omega

namespace Component

/-- Without padding, components are compared by their places and the numbers that they are written
in. -/
theorem beq_iff_number (ha : a.IsUnpadded) (hb : b.IsUnpadded) (hx : x ∈ a.components)
    (hy : y ∈ b.components) : (x == y) = true ↔ x.place = y.place ∧ x.number = y.number := by
  have hxmem := subidentifier_mem hx
  have hymem := subidentifier_mem hy
  rw [beq_iff]
  constructor
  · rintro ⟨hplace, hpiece⟩
    exact ⟨hplace, congrArg base128 hpiece⟩
  · rintro ⟨hplace, hnumber⟩
    refine ⟨hplace, ?_⟩
    exact (isNumber_of_mem hxmem).eq_of_base128_eq (isNumber_of_mem hymem) (ha _ hxmem) (hb _ hymem)
      hnumber

/-- Two components are torn apart if they are the same one of the first two arcs, of different numbers:
two first ones if the numbers hold as many forties, and two second ones if what is left is the same. -/
def Torn (x y : Component) : Prop :=
  x.place = y.place ∧ x.number ≠ y.number ∧
    (x.place = .first ∧ min (x.number / 40) 2 = min (y.number / 40) 2 ∨
      x.place = .second ∧ x.number < 120 ∧ y.number < 120 ∧ x.number % 40 = y.number % 40)

/-- These are the components at one place that have the same arc in different numbers. -/
theorem torn_iff (hplace : x.place = y.place) :
    x.Torn y ↔ x.value = y.value ∧ x.number ≠ y.number := by
  unfold Torn value
  rw [← hplace]
  cases x.place with
  | first =>
    rw [Place.arc_first_eq_iff]
    simp [and_comm]
  | second =>
    rw [Place.arc_second_eq_iff]
    simp only [true_and, reduceCtorEq, false_and, false_or, ne_eq]
    constructor
    · rintro ⟨hne, hsame⟩
      exact ⟨.inr hsame, hne⟩
    · rintro ⟨heq | hsame, hne⟩
      · exact absurd heq hne
      · exact ⟨hne, hsame⟩
  | later =>
    simp only [reduceCtorEq, false_and, or_false, and_false, false_iff, not_and, not_not]
    intro h
    exact h

end Component

/-- How the components of two object identifiers are compared. -/
structure Compared (a b : ObjectIdentifier) : Prop where
  /-- They are equal if place and number are. -/
  number : ∀ x ∈ a.components, ∀ y ∈ b.components,
    (x == y ↔ x.place = y.place ∧ x.number = y.number)
  /-- Equal components have the same arc. -/
  value : ∀ x ∈ a.components, ∀ y ∈ b.components, x == y → x.value = y.value
  /-- Later components are compared by their arcs. -/
  later : ∀ x ∈ a.components, ∀ y ∈ b.components, x.place = .later → y.place = .later →
    (x == y ↔ x.value = y.value)
  /-- Each of the first two is compared by both arcs that the number holds. -/
  shared : ∀ x ∈ a.components, ∀ y ∈ b.components, x.place = y.place → x.place ≠ .later →
    (x == y ↔ ∀ place : Place, place ≠ .later → place.arc x.number = place.arc y.number)
  /-- So components at one place are compared by their arcs, unless they are torn apart. -/
  torn : ∀ x ∈ a.components, ∀ y ∈ b.components, x.place = y.place →
    ((x == y ↔ x.value = y.value) ↔ ¬ x.Torn y)

/-- Where no number is padded, components are compared by the numbers that they are written in. -/
theorem compared_of_unpadded (ha : a.IsUnpadded) (hb : b.IsUnpadded) : a.Compared b := by
  have hnumber : ∀ x ∈ a.components, ∀ y ∈ b.components,
      (x == y ↔ x.place = y.place ∧ x.number = y.number) := by
    intro x hx y hy
    exact Component.beq_iff_number ha hb hx hy
  constructor
  · exact hnumber
  · intro x hx y hy h
    obtain ⟨hplace, hsame⟩ := (hnumber x hx y hy).1 h
    rw [Component.value, Component.value, hplace, hsame]
  · intro x hx y hy hxplace hyplace
    rw [hnumber x hx y hy, Component.value, Component.value, hxplace, hyplace]
    constructor
    · intro h
      exact h.2
    · intro h
      exact ⟨rfl, h⟩
  · intro x hx y hy hplace hother
    rw [hnumber x hx y hy]
    constructor
    · rintro ⟨-, hsame⟩ place -
      rw [hsame]
    · intro harcs
      exact ⟨hplace, Place.eq_of_arcs (harcs .first (by decide)) (harcs .second (by decide))⟩
  · intro x hx y hy hplace
    rw [hnumber x hx y hy, Component.torn_iff hplace]
    constructor
    · rintro hiff ⟨hvalue, hne⟩
      exact hne (hiff.2 hvalue).2
    · intro hkept
      constructor
      · rintro ⟨-, hsame⟩
        rw [Component.value, Component.value, hplace, hsame]
      · intro hvalue
        refine ⟨hplace, ?_⟩
        by_contra hne
        exact hkept ⟨hvalue, hne⟩

/-- The paths 1.2.840 and 1.3.840 have the same third arc, and the same first one, which is torn apart. -/
theorem compared_of_unpadded_840 :
    (ObjectIdentifier.mk [0x2a, 0x86, 0x48]).IsUnpadded ∧
      (ObjectIdentifier.mk [0x2b, 0x86, 0x48]).IsUnpadded ∧
      (Component.mk .later [0x86, 0x48] == Component.mk .later [0x86, 0x48]) = true ∧
      (Component.mk .first [0x2a] == Component.mk .first [0x2b]) = false := by
  have ha : (ObjectIdentifier.mk [0x2a, 0x86, 0x48]).IsUnpadded := by
    unfold IsUnpadded
    decide
  have hb : (ObjectIdentifier.mk [0x2b, 0x86, 0x48]).IsUnpadded := by
    unfold IsUnpadded
    decide
  have hcompared := compared_of_unpadded ha hb
  refine ⟨ha, hb, ?_, ?_⟩
  · exact (hcompared.later _ (by rw [components_eq]; decide) _ (by rw [components_eq]; decide) rfl
      rfl).2 rfl
  · have hsame := hcompared.number ⟨.first, [0x2a]⟩ (by rw [components_eq]; decide)
      ⟨.first, [0x2b]⟩ (by rw [components_eq]; decide)
    exact Bool.eq_false_iff.2 (fun h => absurd (hsame.1 h).2 (by decide))

/-- Both 1.2 and 1.3 begin with the arc 1, and their first components are not equal. -/
theorem unequal_ones :
    ¬ ∀ a b : ObjectIdentifier, a.IsUnpadded → b.IsUnpadded →
      ∀ x ∈ a.components, ∀ y ∈ b.components, x.place = y.place →
        (x == y ↔ x.value = y.value) := by
  intro h
  have hones := h ⟨[0x2a]⟩ ⟨[0x2b]⟩ (by unfold IsUnpadded; decide) (by unfold IsUnpadded; decide)
    ⟨.first, [0x2a]⟩ (by rw [components_eq]; decide)
    ⟨.first, [0x2b]⟩ (by rw [components_eq]; decide) rfl
  exact absurd (hones.2 (by decide)) (by decide)

end ObjectIdentifier
end Ber
