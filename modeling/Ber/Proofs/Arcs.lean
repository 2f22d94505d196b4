import Mathlib.Data.List.DropRight
import Mathlib.Data.List.Forall2
import Ber.Proofs.Naming
import Ber.Value.ObjectIdentifier

/-!
# Ber.Proofs.Arcs — the paths that object identifiers write

The content octets of an object identifier are cut behind each octet whose high bit is clear
(`subidentifiers`). This module says what comes of it, for any octets:

1. Each piece is one number in base 128 (`Octets.IsNumber`), there are as many as octets with a
   clear high bit, and together they are the content up to the last of these
   (`flatten_subidentifiers`). Cutting undoes joining (`subidentifiers_flatten`).
2. A component has a number, which its piece writes (`Component.number`), and an arc, which its place
   takes from that (`Component.value`). It comes out as the arc exactly if the number is a word
   (`Component.arc?_eq`).
3. Going through the components with a cursor takes the pieces one by one. It gives two components
   for the first piece and one for each other (`components_eq`).

`ObjectIdentifier.components_faithful` puts it together: a path of arcs comes out as it was written,
however many octets each of its numbers takes.
-/

namespace Ber

/-! ## Numbers in base 128 -/

namespace Octets

/-- The octets are one number: the last one has its high bit clear, and no other. -/
def IsNumber (octets : Octets) : Prop := octets.number? = some octets

variable {octets : Octets}

theorem isNumber_iff :
    octets.IsNumber ↔ ∃ leading last, octets = leading ++ [last] ∧
      (∀ octet ∈ leading, ¬ octet < 0x80) ∧ last < 0x80 := by
  constructor
  · intro h
    obtain ⟨leading, last, rest, hoctets, -, hleading, hlast⟩ := eq_of_number? h
    exact ⟨leading, last, hoctets, fun octet hmem => UInt8.not_lt.2 (hleading octet hmem), hlast⟩
  · rintro ⟨leading, last, rfl, hleading, hlast⟩
    have hnumber : number? (leading ++ [last] ++ []) = some (leading ++ [last]) :=
      number?_append hleading hlast
    rwa [List.append_nil] at hnumber

theorem isNumber_writtenNumber (count number : Nat) : (writtenNumber count number).IsNumber := by
  have hnumber := number?_writtenNumber count number []
  rwa [List.append_nil] at hnumber

/-- Seven bits are appended as long as the number fits, so the last number tells whether all did. -/
theorem foldlM_sevenBits? (octets : Octets) {number : Nat} (h : number < 0x100000000) :
    octets.foldlM sevenBits? number =
      if octets.foldl (fun number octet => number * 128 + octet.toNat % 128) number <
          0x100000000 then
        some (octets.foldl (fun number octet => number * 128 + octet.toNat % 128) number)
      else none := by
  induction octets generalizing number with
  | nil => exact (if_pos h).symm
  | cons octet octets ih =>
    rw [List.foldlM_cons, List.foldl_cons]
    cases hbits : sevenBits? number octet with
    | some next =>
      obtain ⟨rfl, hfits⟩ := Identifier.sevenBits?_eq_some_iff.1 hbits
      exact ih hfits
    | none =>
      -- the number only grows from here
      have hgrows := Identifier.le_foldl_base128 octets (number * 128 + octet.toNat % 128)
      have hlarge : ¬ number * 128 < 0x100000000 := by
        intro hsmall
        rw [sevenBits?, if_pos hsmall] at hbits
        cases hbits
      rw [if_neg (by omega)]
      rfl

end Octets

namespace ObjectIdentifier

open Octets

variable {content n tail : Octets} {oid : ObjectIdentifier}

/-! ## Subidentifiers -/

/-- Puts an octet in front of the subidentifiers behind it. If its high bit is set, it belongs to
the first of them, and is dropped if there is none. -/
def consOctet (octet : UInt8) (behind : List Octets) : List Octets :=
  if octet < 0x80 then [octet] :: behind
  else
    match behind with
    | [] => []
    | first :: others => (octet :: first) :: others

/-- The complete subidentifiers in content octets. -/
def subidentifiers (content : Octets) : List Octets := content.foldr consOctet []

section
variable {octet : UInt8}

/-- An octet with a clear high bit is a number of its own. -/
theorem consOctet_low (h : octet < 0x80) (behind : List Octets) :
    consOctet octet behind = [octet] :: behind := by
  unfold consOctet
  exact if_pos h

/-- An octet with a high bit belongs to the number behind it. -/
theorem consOctet_high (h : ¬ octet < 0x80) (first : Octets) (others : List Octets) :
    consOctet octet (first :: others) = (octet :: first) :: others := by
  unfold consOctet
  exact if_neg h

/-- If there is none, it is left out. -/
theorem consOctet_high_nil (h : ¬ octet < 0x80) : consOctet octet [] = [] := by
  unfold consOctet
  exact if_neg h

end

/-- A number in front is the first subidentifier. -/
theorem subidentifiers_append (h : n.IsNumber) (content : Octets) :
    subidentifiers (n ++ content) = n :: subidentifiers content := by
  obtain ⟨leading, last, rfl, hleading, hlast⟩ := isNumber_iff.1 h
  clear h
  induction leading with
  | nil =>
    show consOctet last (subidentifiers content) = _
    exact consOctet_low hlast _
  | cons octet leading ih =>
    obtain ⟨hoctet, hrest⟩ := List.forall_mem_cons.1 hleading
    show consOctet octet (subidentifiers (leading ++ [last] ++ content)) = _
    rw [ih hrest, consOctet_high hoctet]
    rfl

/-- Numbers that are joined are cut apart again. -/
theorem subidentifiers_flatten {numbers : List Octets} (h : ∀ n ∈ numbers, n.IsNumber) :
    subidentifiers numbers.flatten = numbers := by
  induction numbers with
  | nil => rfl
  | cons n numbers ih =>
    obtain ⟨hn, hrest⟩ := List.forall_mem_cons.1 h
    rw [List.flatten_cons, subidentifiers_append hn, ih hrest]

/-- Octets with a high bit at the end are left out. -/
theorem subidentifiers_append_high (htail : ∀ octet ∈ tail, ¬ octet < 0x80) (content : Octets) :
    subidentifiers (content ++ tail) = subidentifiers content := by
  have hnone : subidentifiers tail = [] := by
    induction tail with
    | nil => rfl
    | cons octet tail ih =>
      obtain ⟨hoctet, hrest⟩ := List.forall_mem_cons.1 htail
      show consOctet octet (subidentifiers tail) = []
      rw [ih hrest, consOctet_high_nil hoctet]
  rw [subidentifiers, List.foldr_append]
  exact congrArg (fun behind => content.foldr consOctet behind) hnone

/-- Every subidentifier is a number. -/
theorem isNumber_of_mem (h : n ∈ subidentifiers content) : n.IsNumber := by
  induction content generalizing n with
  | nil => cases h
  | cons octet content ih =>
    have hmem : n ∈ consOctet octet (subidentifiers content) := h
    by_cases hoctet : octet < 0x80
    · rw [consOctet_low hoctet] at hmem
      rcases List.mem_cons.1 hmem with rfl | hmem
      · exact isNumber_iff.2 ⟨[], octet, rfl, fun _ hnil => absurd hnil List.not_mem_nil, hoctet⟩
      · exact ih hmem
    · cases hbehind : subidentifiers content with
      | nil =>
        rw [hbehind, consOctet_high_nil hoctet] at hmem
        cases hmem
      | cons first others =>
        rw [hbehind] at ih
        rw [hbehind, consOctet_high hoctet] at hmem
        rcases List.mem_cons.1 hmem with rfl | hmem
        · obtain ⟨leading, last, rfl, hleading, hlast⟩ := isNumber_iff.1 (ih List.mem_cons_self)
          exact isNumber_iff.2
            ⟨octet :: leading, last, rfl, List.forall_mem_cons.2 ⟨hoctet, hleading⟩, hlast⟩
        · exact ih (List.mem_cons_of_mem _ hmem)

/-- There are as many subidentifiers as octets with a clear high bit. -/
theorem length_subidentifiers (content : Octets) :
    (subidentifiers content).length = content.countP (· < 0x80) := by
  induction content with
  | nil => rfl
  | cons octet content ih =>
    show (consOctet octet (subidentifiers content)).length = _
    by_cases hoctet : octet < 0x80
    · rw [consOctet_low hoctet, List.length_cons, ih,
        List.countP_cons_of_pos (by simpa using hoctet)]
    · rw [List.countP_cons_of_neg (by simpa using hoctet), ← ih]
      cases subidentifiers content with
      | nil => rw [consOctet_high_nil hoctet]
      | cons first others =>
        rw [consOctet_high hoctet]
        rfl

/-- In front of a number, no octet is left out. -/
theorem flatten_foldr_consOctet (content : Octets) {behind : List Octets} (h : behind ≠ []) :
    content.foldr consOctet behind ≠ [] ∧
      (content.foldr consOctet behind).flatten = content ++ behind.flatten := by
  induction content with
  | nil => exact ⟨h, rfl⟩
  | cons octet content ih =>
    obtain ⟨hne, hflatten⟩ := ih
    rw [List.foldr_cons]
    by_cases hoctet : octet < 0x80
    · rw [consOctet_low hoctet]
      exact ⟨List.cons_ne_nil _ _, congrArg (octet :: ·) hflatten⟩
    · cases hbehind : content.foldr consOctet behind with
      | nil => exact absurd hbehind hne
      | cons first others =>
        rw [hbehind] at hflatten
        rw [consOctet_high hoctet]
        exact ⟨List.cons_ne_nil _ _, congrArg (octet :: ·) hflatten⟩

/-- Together, the subidentifiers are the content up to its last octet with a clear high bit. -/
theorem flatten_subidentifiers (content : Octets) :
    (subidentifiers content).flatten = content.rdropWhile (0x80 ≤ ·) := by
  -- from the end: what is dropped there is left out, and nothing in front of a number is
  induction content using List.reverseRecOn with
  | nil => rfl
  | append_singleton content last ih =>
    by_cases hlast : last < 0x80
    · have hone : [last].foldr consOctet [] = [[last]] := consOctet_low hlast []
      have hbehind : [[last]] ≠ [] := List.cons_ne_nil _ _
      have hflatten := (flatten_foldr_consOctet content hbehind).2
      rw [List.rdropWhile_concat_neg _ _ _ (by simpa using hlast), subidentifiers,
        List.foldr_append, hone, hflatten]
      rfl
    · have htail : ∀ octet ∈ [last], ¬ octet < 0x80 := by simpa using hlast
      rw [List.rdropWhile_concat_pos _ _ _ (by simpa using hlast),
        subidentifiers_append_high htail, ih]

/-! ## Components -/

/-- The first arc of a number counts the forties in it, up to two. -/
theorem Place.arc_first (number : Nat) : Place.arc .first number = min (number / 40) 2 := by
  unfold Place.arc
  dsimp only
  split
  · omega
  · split <;> omega

/-- The second arc of a number is what these leave of it. -/
theorem Place.arc_second (number : Nat) :
    Place.arc .second number = number - 40 * min (number / 40) 2 := by
  unfold Place.arc
  dsimp only
  split <;> omega

/-- No arc is larger than its number. -/
theorem Place.arc_le (place : Place) (number : Nat) : place.arc number ≤ number := by
  cases place with
  | first =>
    rw [Place.arc_first]
    omega
  | second =>
    rw [Place.arc_second]
    omega
  | later => exact Nat.le_refl number

namespace Component

/-- The number that a component is written in. -/
def number (component : Component) : Nat := component.subidentifier.base128

/-- The arc that a component is. -/
def value (component : Component) : Nat := component.place.arc component.number

/-- The arc of a component as a number, if it is a word. -/
def arc? (component : Component) : Option Nat := component.toUInt32?.map UInt32.toNat

/-- A component is a word exactly if the number that it is written in fits. -/
theorem toUInt32?_eq (component : Component) :
    component.toUInt32? =
      if component.number < 0x100000000 then some (UInt32.ofNat component.value) else none := by
  rw [toUInt32?, foldlM_sevenBits? component.subidentifier (by decide)]
  unfold value number base128
  split <;> rfl

/-- A component comes out as its arc if its number is a word, and else not at all. -/
theorem arc?_eq (component : Component) :
    component.arc? = if component.number < 0x100000000 then some component.value else none := by
  rw [arc?, toUInt32?_eq]
  by_cases hnumber : component.number < 0x100000000
  · have hvalue : (UInt32.ofNat component.value).toNat = component.value := by
      have hle := component.place.arc_le component.number
      rw [UInt32.toNat_ofNat']
      exact Nat.mod_eq_of_lt (Nat.lt_of_le_of_lt hle hnumber)
    rw [if_pos hnumber, if_pos hnumber, Option.map_some, hvalue]
  · rw [if_neg hnumber, if_neg hnumber, Option.map_none]

end Component

/-! ## Going through the components -/

/-- An octet with a high bit is taken together with the number behind it. -/
theorem takeSubidentifier_cons {octet : UInt8} (h : ¬ octet < 0x80) (content : Octets) :
    takeSubidentifier (octet :: content) =
      (takeSubidentifier content).map fun (n, rest) => (octet :: n, rest) := by
  have hhigh : decide (octet < 0x80) = false := decide_eq_false h
  unfold takeSubidentifier
  rw [List.findIdx?_cons, hhigh]
  simp only [Bool.false_eq_true, if_false, Option.map_map]
  congr 1
  funext last
  simp [List.splitAt_eq]

/-- Taking the first subidentifier off leaves the others. -/
theorem subidentifiers_eq (content : Octets) :
    subidentifiers content =
      match takeSubidentifier content with
      | some (n, rest) => n :: subidentifiers rest
      | none => [] := by
  induction content with
  | nil => rfl
  | cons octet content ih =>
    show consOctet octet (subidentifiers content) = _
    by_cases hoctet : octet < 0x80
    · have htake : takeSubidentifier (octet :: content) = some ([octet], content) := by
        simp [takeSubidentifier, List.findIdx?_cons, hoctet, List.splitAt_eq]
      rw [htake, consOctet_low hoctet]
    · rw [takeSubidentifier_cons hoctet, ih]
      cases takeSubidentifier content with
      | none => exact consOctet_high_nil hoctet
      | some taken => exact consOctet_high hoctet _ _

namespace Cursor

theorem components_of_some {cursor after : Cursor} {component : Component}
    (h : cursor.next? = some (component, after)) :
    cursor.components = component :: after.components := by
  rw [components, h]

theorem components_of_none {cursor : Cursor} (h : cursor.next? = none) :
    cursor.components = [] := by
  rw [components, h]

/-- Behind the first two components, each subidentifier is one. -/
theorem components_later (rest : Octets) (pending : Option Octets) :
    Cursor.components ⟨rest, pending, .later⟩ = (subidentifiers rest).map (⟨.later, ·⟩) := by
  rw [subidentifiers_eq]
  cases htake : takeSubidentifier rest with
  | none => exact components_of_none (by rw [next?, htake]; rfl)
  | some taken =>
    obtain ⟨n, behind⟩ := taken
    have hnext : next? ⟨rest, pending, .later⟩ = some (⟨.later, n⟩, ⟨behind, pending, .later⟩) := by
      rw [next?, htake]
      rfl
    rw [components_of_some hnext, components_later behind pending, List.map_cons]
termination_by rest.length
decreasing_by exact length_of_takeSubidentifier htake

end Cursor

/-- The components by their places: the first two from one subidentifier, the others one each. -/
theorem components_eq (oid : ObjectIdentifier) :
    oid.components =
      match subidentifiers oid.content with
      | [] => []
      | first :: others => ⟨.first, first⟩ :: ⟨.second, first⟩ :: others.map (⟨.later, ·⟩) := by
  rw [components, subidentifiers_eq]
  cases htake : takeSubidentifier oid.content with
  | none => exact Cursor.components_of_none (by rw [Cursor.next?, htake]; rfl)
  | some taken =>
    obtain ⟨first, rest⟩ := taken
    have hfirst : Cursor.next? ⟨oid.content, none, .first⟩ =
        some (⟨.first, first⟩, ⟨rest, some first, .second⟩) := by
      rw [Cursor.next?, htake]
      rfl
    have hsecond : Cursor.next? ⟨rest, some first, .second⟩ =
        some (⟨.second, first⟩, ⟨rest, none, .later⟩) := rfl
    rw [Cursor.components_of_some hfirst, Cursor.components_of_some hsecond,
      Cursor.components_later]

theorem components_cons {first : Octets} {others : List Octets}
    (h : subidentifiers oid.content = first :: others) :
    oid.components = ⟨.first, first⟩ :: ⟨.second, first⟩ :: others.map (⟨.later, ·⟩) := by
  rw [components_eq, h]

theorem components_nil (h : subidentifiers oid.content = []) : oid.components = [] := by
  rw [components_eq, h]

/-- The subidentifier of a component is one of those in the content. -/
theorem subidentifier_mem {component : Component} (h : component ∈ oid.components) :
    component.subidentifier ∈ subidentifiers oid.content := by
  cases hsubidentifiers : subidentifiers oid.content with
  | nil =>
    rw [components_nil hsubidentifiers] at h
    cases h
  | cons first others =>
    rw [components_cons hsubidentifiers] at h
    rcases List.mem_cons.1 h with rfl | h
    · exact List.mem_cons_self
    rcases List.mem_cons.1 h with rfl | h
    · exact List.mem_cons_self
    · obtain ⟨n, hn, rfl⟩ := List.mem_map.1 h
      exact List.mem_cons_of_mem _ hn

/-- The components depend on the subidentifiers alone. -/
theorem components_congr {other : ObjectIdentifier}
    (h : subidentifiers other.content = subidentifiers oid.content) :
    other.components = oid.components := by
  rw [components_eq, components_eq, h]

/-! ## Paths -/

/-- A path of arcs that can be written: the first two share a number, and all numbers fit words. -/
structure Path where
  first : Nat
  second : Nat
  later : List Nat
  first_le : first ≤ 2
  second_lt : first < 2 → second < 40
  shared_lt : 40 * first + second < 0x100000000
  later_lt : ∀ arc ∈ later, arc < 0x100000000

namespace Path

/-- The arcs of a path. -/
def arcs (path : Path) : List Nat := path.first :: path.second :: path.later

/-- The number that the first two arcs share. -/
def shared (path : Path) : Nat := 40 * path.first + path.second

/-- The numbers that a path is written in. -/
def numbers (path : Path) : List Nat := path.shared :: path.later

/-- A path as it is written, each number in one octet behind so many others. -/
def octets (path : Path) (counts : List Nat) : Octets :=
  (List.zipWith writtenNumber counts path.numbers).flatten

/-- The two arcs are told from the number that they share. -/
theorem arc_shared (path : Path) :
    Place.arc .first path.shared = path.first ∧ Place.arc .second path.shared = path.second := by
  have hfirst := path.first_le
  have hsecond := path.second_lt
  rw [Place.arc_first, Place.arc_second, shared]
  constructor
  · omega
  · omega

end Path

/-- An arc comes out of the octets that write its number. -/
theorem Component.arc?_of_number {place : Place} {number arc : Nat} (hn : n.base128 = number)
    (hnumber : number < 0x100000000) (harc : place.arc number = arc) :
    Component.arc? ⟨place, n⟩ = some arc := by
  have hfits : (Component.mk place n).number < 0x100000000 := by
    rw [Component.number, hn]
    exact hnumber
  rw [arc?_eq, if_pos hfits, Component.value, Component.number, hn, harc]

/-- The text of a component is that of the number, if there is one. -/
theorem Component.text_eq (component : Component) :
    component.text = (component.arc?.map toString).getD "(too large)" := by
  unfold Component.text Component.arc?
  cases component.toUInt32? <;> rfl

/-- Numbers as they are written are pieces that write them, if there are enough octets for each. -/
theorem writtenNumbers_pieces {counts numbers : List Nat}
    (h : List.Forall₂ (fun count number => number < 128 ^ (count + 1)) counts numbers) :
    List.Forall₂ (fun (n : Octets) number => n.IsNumber ∧ n.base128 = number)
      (List.zipWith writtenNumber counts numbers) numbers := by
  induction h with
  | nil => exact .nil
  | cons hcount hrest ih =>
    exact .cons ⟨isNumber_writtenNumber _ _, base128_writtenNumber hcount⟩ ih

/-- Later arcs come out one by one. -/
theorem arc?_later {others : List Octets} {later : List Nat}
    (h : List.Forall₂ (fun n number => n.base128 = number) others later)
    (hfits : ∀ arc ∈ later, arc < 0x100000000) :
    (others.map (Component.mk .later)).map Component.arc? = later.map some := by
  induction h with
  | nil => rfl
  | @cons n arc others later hn hrest ih =>
    obtain ⟨harc, hothers⟩ := List.forall_mem_cons.1 hfits
    have hfirst : Component.arc? ⟨.later, n⟩ = some arc :=
      Component.arc?_of_number hn harc rfl
    rw [List.map_cons, List.map_cons, List.map_cons, ih hothers, hfirst]

/-- Where the numbers of a path are written one after the other, its arcs come out. -/
theorem components_of_path {path : Path} {pieces : List Octets}
    (hpieces : List.Forall₂ (fun n number => n.IsNumber ∧ n.base128 = number) pieces path.numbers)
    (hcontent : oid.content = pieces.flatten) :
    oid.components.map Component.arc? = path.arcs.map some := by
  obtain ⟨hnumbers, hvalues⟩ := (List.forall₂_and_left _ _).1 hpieces
  have hsubidentifiers : subidentifiers oid.content = pieces := by
    rw [hcontent]
    exact subidentifiers_flatten hnumbers
  cases hvalues with
  | @cons first _ others _ hshared hlater =>
    obtain ⟨hfirst, hsecond⟩ := path.arc_shared
    rw [components_cons hsubidentifiers, List.map_cons, List.map_cons,
      Component.arc?_of_number hshared path.shared_lt hfirst,
      Component.arc?_of_number hshared path.shared_lt hsecond,
      arc?_later hlater path.later_lt]
    rfl

/-- The text of an object identifier is that of the numbers of its components. -/
theorem text_of_numbers {numbers : List Nat} (h : oid.components.map Component.arc? =
    numbers.map some) : oid.text = ".".intercalate (numbers.map toString) := by
  have htext : Component.text =
      (fun arc? => (arc?.map toString).getD "(too large)") ∘ Component.arc? :=
    funext Component.text_eq
  rw [text, htext, ← List.map_map, h, List.map_map]
  rfl

/-! ## What object identifiers are decoded to -/

/-- An object identifier is decoded to what its octets write. -/
structure Faithful (oid : ObjectIdentifier) : Prop where
  /-- If they are those of a path, in which each number may take as many octets as one likes, the
  components are the arcs of the path, and so is the text, with dots between them. -/
  path : ∀ (path : Path) (counts : List Nat),
    List.Forall₂ (fun count number => number < 128 ^ (count + 1)) counts path.numbers →
    oid.content = path.octets counts →
    oid.components.map Component.arc? = path.arcs.map some ∧
      oid.text = ".".intercalate (path.arcs.map toString)
  /-- There are no components if every octet has its high bit set, and else one more than octets
  with a clear high bit. -/
  length : oid.components.length =
    if oid.content.all (0x80 ≤ ·) then 0 else oid.content.countP (· < 0x80) + 1
  /-- The first two components share a subidentifier, and each of the others has its own. -/
  places : oid.components = [] ∨ ∃ (first : Octets) (others : List Octets), oid.components =
    ⟨.first, first⟩ :: ⟨.second, first⟩ :: others.map (Component.mk .later)
  /-- Each of these is one number. -/
  pieces : ∀ component ∈ oid.components, component.subidentifier.IsNumber
  /-- Those of the first and the later components are the content up to the last octet with a clear
  high bit. -/
  joined : (oid.components.filter (·.place ≠ .second)).flatMap Component.subidentifier =
    oid.content.rdropWhile (0x80 ≤ ·)
  /-- What is appended and ends no number changes nothing. -/
  appended : ∀ tail : Octets, (∀ octet ∈ tail, 0x80 ≤ octet) →
    (ObjectIdentifier.mk (oid.content ++ tail)).components = oid.components ∧
      (ObjectIdentifier.mk (oid.content ++ tail)).text = oid.text

/-- The subidentifiers of the first and the later components are all there are. -/
theorem flatMap_components (oid : ObjectIdentifier) :
    (oid.components.filter (·.place ≠ .second)).flatMap Component.subidentifier =
      (subidentifiers oid.content).flatten := by
  cases hsubidentifiers : subidentifiers oid.content with
  | nil =>
    rw [components_nil hsubidentifiers]
    rfl
  | cons first others =>
    have hlater : (others.map (Component.mk .later)).filter (·.place ≠ .second) =
        others.map (Component.mk .later) := by
      rw [List.filter_eq_self]
      intro component hmem
      obtain ⟨n, -, rfl⟩ := List.mem_map.1 hmem
      rfl
    rw [components_cons hsubidentifiers, List.filter_cons_of_pos rfl,
      List.filter_cons_of_neg (by simp), hlater, List.flatMap_cons, List.flatMap_map,
      List.flatten_cons, List.flatMap_id']

/-- Whatever the octets of an object identifier are, it is decoded to what they write. -/
theorem components_faithful (oid : ObjectIdentifier) : oid.Faithful := by
  constructor
  · intro path counts hcounts hcontent
    have hcomponents := components_of_path (writtenNumbers_pieces hcounts) hcontent
    exact ⟨hcomponents, text_of_numbers hcomponents⟩
  · have hlength := length_subidentifiers oid.content
    have hall : oid.content.all (0x80 ≤ ·) ↔ oid.content.countP (· < 0x80) = 0 := by
      simp [List.countP_eq_zero]
    simp only [hall, ← hlength]
    cases hsubidentifiers : subidentifiers oid.content with
    | nil =>
      rw [components_nil hsubidentifiers]
      rfl
    | cons first others =>
      rw [components_cons hsubidentifiers]
      simp
  · cases hsubidentifiers : subidentifiers oid.content with
    | nil => exact .inl (components_nil hsubidentifiers)
    | cons first others => exact .inr ⟨first, others, components_cons hsubidentifiers⟩
  · intro component hmem
    exact isNumber_of_mem (subidentifier_mem hmem)
  · rw [flatMap_components, flatten_subidentifiers]
  · intro tail htail
    have hsame : subidentifiers (oid.content ++ tail) = subidentifiers oid.content :=
      subidentifiers_append_high (fun octet hmem => UInt8.not_lt.2 (htail octet hmem)) oid.content
    have hcomponents : (ObjectIdentifier.mk (oid.content ++ tail)).components = oid.components :=
      components_congr hsame
    exact ⟨hcomponents, by rw [text, text, hcomponents]⟩

/-- The arcs 1, 2 and 840, and an octet that ends no number. -/
example : (ObjectIdentifier.mk [0x2a, 0x86, 0x48, 0xff]).components.map Component.arc? =
    [some 1, some 2, some 840] := by
  rw [components_eq]
  decide

end ObjectIdentifier
end Ber
