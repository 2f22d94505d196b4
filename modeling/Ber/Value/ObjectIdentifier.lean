import Ber.Octets

/-!
# Ber.Value.ObjectIdentifier — paths in the tree of names

An object identifier is a path of arcs. The content octets are a row of subidentifiers, each a
number in base 128 that ends with an octet whose high bit is clear. The first subidentifier `s`
holds two arcs:

* the first arc is 0 for `s` below 40, 1 for `s` below 80, and else 2;
* the second arc is `s` modulo 40 for `s` below 80, and else `s` - 80.

Every later subidentifier is an arc. One goes through the arcs with a cursor, which takes one
subidentifier off the content at a time. The content is not checked: an incomplete subidentifier at
its end is no part of the path.
-/

namespace Ber

/-- An OBJECT IDENTIFIER, by its content octets. -/
structure ObjectIdentifier where
  content : Octets
deriving Repr

namespace ObjectIdentifier

/-- Object identifiers are compared by their octets. -/
instance : BEq ObjectIdentifier := ⟨fun oid other => oid.content == other.content⟩

/-- The test for equality decides equality. -/
protected theorem beq_iff_eq {oid other : ObjectIdentifier} :
    (oid == other) = true ↔ oid = other := by
  rcases oid with ⟨content⟩
  rcases other with ⟨content'⟩
  show (content == content') = true ↔ _
  rw [beq_iff_eq, mk.injEq]

instance : LawfulBEq ObjectIdentifier where
  eq_of_beq := ObjectIdentifier.beq_iff_eq.1
  rfl := ObjectIdentifier.beq_iff_eq.2 rfl

instance : DecidableEq ObjectIdentifier := instDecidableEqOfLawfulBEq

/-! ## Components -/

/-- Which arc of a path a component is. -/
inductive Place where
  | first
  | second
  | later
deriving DecidableEq, Repr

/-- An arc of a path, by its place and the subidentifier that it is written in. -/
structure Component where
  place : Place
  subidentifier : Octets
deriving Repr

namespace Component

/-- Components are compared by their places and the octets that they are written in. -/
instance : BEq Component :=
  ⟨fun x y => x.place == y.place && x.subidentifier == y.subidentifier⟩

/-- The test for equality decides equality. -/
protected theorem beq_iff_eq {x y : Component} : (x == y) = true ↔ x = y := by
  rcases x with ⟨place, subidentifier⟩
  rcases y with ⟨place', subidentifier'⟩
  show (place == place' && subidentifier == subidentifier') = true ↔ _
  rw [Bool.and_eq_true, beq_iff_eq, beq_iff_eq, mk.injEq]

instance : LawfulBEq Component where
  eq_of_beq := Component.beq_iff_eq.1
  rfl := Component.beq_iff_eq.2 rfl

instance : DecidableEq Component := instDecidableEqOfLawfulBEq

end Component

/-- Takes the first subidentifier off octets, up to the first octet whose high bit is clear. There
is none without such an octet. -/
def takeSubidentifier (octets : Octets) : Option (Octets × Octets) :=
  (octets.findIdx? (· < 0x80)).map fun last => octets.splitAt (last + 1)

theorem length_of_takeSubidentifier {octets n rest : Octets}
    (h : takeSubidentifier octets = some (n, rest)) : rest.length < octets.length := by
  obtain ⟨last, hlast, hsplit⟩ := Option.map_eq_some_iff.1 h
  have hless : last < octets.length := (List.findIdx?_eq_some_iff_findIdx_eq.1 hlast).1
  rw [List.splitAt_eq, Prod.mk.injEq] at hsplit
  rw [← hsplit.2, List.length_drop]
  omega

/-- How far one has gone through the components of an object identifier. -/
structure Cursor where
  /-- The octets that are left. -/
  rest : Octets
  /-- The first subidentifier, when its second component is still due. -/
  pending : Option Octets := none
  /-- The place of the next component. -/
  place : Place := .first
deriving DecidableEq, Repr

namespace Cursor

/-- The next component, and where one is behind it. The first subidentifier yields two. -/
def next? (cursor : Cursor) : Option (Component × Cursor) :=
  match cursor.place with
  | .first => (takeSubidentifier cursor.rest).map fun (first, rest) =>
    (⟨.first, first⟩, ⟨rest, some first, .second⟩)
  | .second => cursor.pending.map fun first => (⟨.second, first⟩, ⟨cursor.rest, none, .later⟩)
  | .later => (takeSubidentifier cursor.rest).map fun (later, rest) =>
    (⟨.later, later⟩, ⟨rest, cursor.pending, .later⟩)

/-- At most this many components are left. -/
def left (cursor : Cursor) : Nat := 2 * cursor.rest.length + cursor.pending.toList.length

/-- Every component uses up an octet, or the subidentifier that was pending. -/
theorem left_of_next? {cursor after : Cursor} {component : Component}
    (h : cursor.next? = some (component, after)) : after.left < cursor.left := by
  rcases cursor with ⟨rest, pending, place⟩
  cases place with
  | first =>
    obtain ⟨⟨first, behind⟩, htake, hafter⟩ := Option.map_eq_some_iff.1 h
    cases hafter
    have hless : behind.length < rest.length := length_of_takeSubidentifier htake
    simp only [left, Option.toList_some, List.length_singleton]
    omega
  | second =>
    obtain ⟨first, hpending, hafter⟩ := Option.map_eq_some_iff.1 h
    cases hafter
    obtain rfl : pending = some first := hpending
    exact Nat.lt_succ_self _
  | later =>
    obtain ⟨⟨later, behind⟩, htake, hafter⟩ := Option.map_eq_some_iff.1 h
    cases hafter
    have hless : behind.length < rest.length := length_of_takeSubidentifier htake
    simp only [left]
    omega

/-- The components that are left. -/
def components (cursor : Cursor) : List Component :=
  match _ : cursor.next? with
  | some (component, after) => component :: after.components
  | none => []
termination_by cursor.left
decreasing_by exact left_of_next? ‹_›

end Cursor

/-- The components of an object identifier, one after the other. -/
def components (oid : ObjectIdentifier) : List Component :=
  Cursor.components { rest := oid.content }

/-- The arc at a place, given the number of its subidentifier. -/
def Place.arc : Place → Nat → Nat
  | .first, number => if number < 40 then 0 else if number < 80 then 1 else 2
  | .second, number => if number < 80 then number % 40 else number - 80
  | .later, number => number

/-- The value of a component, if its subidentifier fits 32 bits. -/
def Component.toUInt32? (component : Component) : Option UInt32 :=
  (component.subidentifier.foldlM sevenBits? 0).map fun number =>
    UInt32.ofNat (component.place.arc number)

/-- The text of a component in decimal. -/
def Component.text (component : Component) : String :=
  match component.toUInt32? with
  | some value => toString value.toNat
  | none => "(too large)"

/-- The text of an object identifier: its components with dots between them. -/
def text (oid : ObjectIdentifier) : String :=
  ".".intercalate (oid.components.map Component.text)

end ObjectIdentifier
end Ber
