import Ber.Proofs.Encoding

/-!
# Ber.Proofs.Choice — what writing a value leaves open

Two encodings of one value can differ only in what the value does not keep (`Encoding.choice`): how
many octets write its length, how the identifier of a universal type is written, where the segments
of an octet string end, and what is skipped inside NULL of indefinite length. Everything else is
determined by the value (`Encoding.octets_eq`).
-/

namespace Ber

/-! ## Length octets -/

/-- A number and the octets appended to it are told by the result and how many octets there are. -/
theorem Octets.foldl_bigEndian_inj {a b : Octets} {m n : Nat} (hlength : a.length = b.length)
    (h : a.foldl (fun number octet => number * 256 + octet.toNat) m =
      b.foldl (fun number octet => number * 256 + octet.toNat) n) : m = n ∧ a = b := by
  induction a generalizing b m n with
  | nil =>
    rcases List.length_eq_zero_iff.1 hlength.symm with rfl
    exact ⟨h, rfl⟩
  | cons x a ih =>
    match b with
    | [] => simp at hlength
    | y :: b =>
      simp only [List.length_cons, Nat.add_right_cancel_iff, List.foldl_cons] at hlength h
      -- the last octet is the lowest digit, so the digits in front agree
      rcases ih hlength h with ⟨hnumber, rfl⟩
      have hx := x.toNat_lt
      have hy := y.toNat_lt
      have hxy : x = y := UInt8.toNat_inj.1 (by omega)
      exact ⟨by omega, by rw [hxy]⟩

/-- A length is written in one way in so many octets. -/
theorem Length.Written.eq_of_length {length : Length} {a b : Octets}
    (ha : Length.Written a length) (hb : Length.Written b length) (hlength : a.length = b.length) :
    a = b := by
  cases ha with
  | @short x hx =>
    generalize hcount : x.toNat = count at hb
    cases hb with
    | @short y hy => rw [UInt8.toNat_inj.1 hcount]
    | @long y octets hfirst hne =>
      match octets with
      | [] => exact absurd rfl hne
      | _ :: _ => simp at hlength
  | @long x octets hfirst hne =>
    generalize hcount : octets.bigEndian = count at hb
    cases hb with
    | @short y hy =>
      match octets with
      | [] => exact absurd rfl hne
      | _ :: _ => simp at hlength
    | @long y others hother =>
      simp only [List.length_cons, Nat.add_right_cancel_iff] at hlength
      rcases Octets.foldl_bigEndian_inj hlength hcount with ⟨-, rfl⟩
      have hxy : x = y := UInt8.toNat_inj.1 (by omega)
      rw [hxy]
  | indefinite =>
    cases hb
    rfl

/-! ## Identifiers -/

/-- The identifier that a value keeps. -/
def Primitive.identifier? : Primitive → Option Identifier
  | unknown identifier _ => some identifier
  | _ => none

/-- The identifier that a container of a form keeps. -/
def Form.identifier? : Form → Option Identifier
  | .tagged identifier => some identifier
  | _ => none

namespace Identifier

variable {identifier other : Identifier} {kept : Option Identifier}

/-- What is open about an identifier, given what is kept of it. -/
def openPart (identifier : Identifier) : Option Identifier → Option Identifier
  | some _ => none
  | none => some identifier

/-- An identifier is told by what is kept of it and what is open. -/
theorem eq_of_openPart (hidentifier : ∀ i, kept = some i → i = identifier)
    (hother : ∀ i, kept = some i → i = other)
    (h : identifier.openPart kept = other.openPart kept) : identifier = other := by
  cases kept with
  | none => exact Option.some.inj h
  | some i => exact (hidentifier i rfl).symm.trans (hother i rfl)

end Identifier

theorem Primitive.NamedBy.identifier?_eq {value : Primitive} {identifier i : Identifier}
    (h : value.NamedBy identifier) (hkept : value.identifier? = some i) : i = identifier := by
  cases value with
  | unknown named content =>
    cases hkept
    exact h.1
  | _ => cases hkept

theorem Form.NamedBy.identifier?_eq {form : Form} {identifier i : Identifier} {isMarked : Bool}
    (h : form.NamedBy identifier isMarked) (hkept : form.identifier? = some i) :
    i = identifier := by
  cases form with
  | tagged named =>
    cases hkept
    exact h.1
  | _ => cases hkept

/-! ## Segments -/

/-- The sizes of the segments, where the elements are joined. -/
def Form.sizes (elements : List Element) : Form → List Nat
  | .octetString => (elements.filterMap Element.segment?).map List.length
  | _ => []

/-- Pieces are told by what they make up and where they end. -/
theorem eq_of_flatten_eq {a b : List Octets} (hsizes : a.map List.length = b.map List.length)
    (h : a.flatten = b.flatten) : a = b := by
  induction a generalizing b with
  | nil => simpa [eq_comm] using hsizes
  | cons x a ih =>
    match b with
    | [] => simp at hsizes
    | y :: b =>
      simp only [List.map_cons, List.cons.injEq, List.flatten_cons] at hsizes h
      rcases List.append_inj h hsizes.1 with ⟨rfl, hrest⟩
      rw [ih hsizes.2 hrest]

/-- Segments are told by their octets. -/
theorem eq_of_segments_eq {a b : List Element} (ha : Form.octetString.Holds a)
    (hb : Form.octetString.Holds b)
    (h : a.filterMap Element.segment? = b.filterMap Element.segment?) : a = b := by
  -- an element that is a segment is nothing but its octets
  have hsegment : ∀ {e : Element}, e.segment?.isSome →
      ∃ octets, e = .primitive (.octetString octets) := by
    intro e he
    unfold Element.segment? at he
    split at he
    · exact ⟨_, rfl⟩
    · cases he
  induction a generalizing b with
  | nil =>
    match b with
    | [] => rfl
    | e :: b =>
      rcases hsegment (hb e (by simp)) with ⟨octets, rfl⟩
      simp [Element.segment?] at h
  | cons e a ih =>
    rcases hsegment (ha e (by simp)) with ⟨octets, rfl⟩
    match b with
    | [] => simp [Element.segment?] at h
    | f :: b =>
      rcases hsegment (hb f (by simp)) with ⟨others, rfl⟩
      simp only [Element.segment?, List.filterMap_cons, List.cons.injEq] at h
      rw [h.1, ih (fun e he => ha e (by simp [he])) (fun e he => hb e (by simp [he])) h.2]

/-- The values of a container are told by the element it becomes and where its segments end. -/
theorem Form.element_inj {form other : Form} {a b : List Element} (ha : form.Holds a)
    (hb : other.Holds b) (h : form.element a = other.element b)
    (hsizes : form.sizes a = other.sizes b) : form = other ∧ a = b := by
  cases form <;> cases other <;> simp only [Form.element, reduceCtorEq] at h
  case sequence.sequence =>
    cases h
    exact ⟨rfl, rfl⟩
  case set.set =>
    cases h
    exact ⟨rfl, rfl⟩
  case octetString.octetString =>
    simp only [Element.primitive.injEq, Primitive.octetString.injEq] at h
    exact ⟨rfl, eq_of_segments_eq ha hb (eq_of_flatten_eq hsizes h)⟩
  case tagged.tagged =>
    cases h
    exact ⟨rfl, rfl⟩

/-! ## Choices -/

/-- What the writer of a value is free to choose. -/
inductive Choice where
  /-- How many octets write the length of content that is kept with its identifier. -/
  | kept (lengthOctets : Nat)
  /-- The identifier of a value without parts unless it is kept, and the octets of the length. -/
  | primitive (identifier? : Option Identifier) (lengthOctets : Nat)
  /-- The identifier of NULL, and what is skipped. -/
  | skippedNull (identifier : Identifier) (skipped : Octets)
  /-- The identifier of a container unless it is kept, the octets of its length unless it ends by a
  marker, where its segments end, and what is open about the values in it. -/
  | container (identifier? : Option Identifier) (lengthOctets? : Option Nat) (sizes : List Nat)
      (choices : List Choice)

/-- The number of length octets, if the end is given by a length. -/
def Extent.lengthOctets? : Extent → Option Nat
  | definite lengthOctets => some lengthOctets.length
  | marked => none

/-- An extent is told by what it says of the content and the number of octets used for it. -/
theorem Extent.eq_of_lengthOctets? {extent other : Extent} {count : Nat}
    (h : Length.Written extent.opening (extent.length count))
    (hother : Length.Written other.opening (other.length count))
    (hoctets : extent.lengthOctets? = other.lengthOctets?) : extent = other := by
  cases extent <;> cases other <;> simp only [lengthOctets?, reduceCtorEq] at hoctets
  case definite.definite =>
    exact congrArg definite (h.eq_of_length hother (Option.some.inj hoctets))
  case marked.marked => rfl

namespace Encoding

mutual

/-- What was chosen in writing a value. -/
def choice : Encoding → Choice
  | uninterpreted _ lengthOctets _ => .kept lengthOctets.length
  | primitive identifier lengthOctets value =>
    .primitive (identifier.openPart value.identifier?) lengthOctets.length
  | skippedNull identifier skipped => .skippedNull identifier skipped
  | taggedContent _ lengthOctets _ => .kept lengthOctets.length
  | container form identifier extent values =>
    .container (identifier.openPart form.identifier?) extent.lengthOctets?
      (form.sizes (elements values)) (choices values)

/-- What was chosen in writing values in a row. -/
def choices : List Encoding → List Choice
  | [] => []
  | value :: values => choice value :: choices values

end

mutual

/-- A value and what was chosen in writing it determine the octets. -/
theorem octets_eq : (a b : Encoding) → a.Valid → b.Valid → a.element = b.element →
    a.choice = b.choice → a.octets = b.octets
  | uninterpreted _ _ _, b, ha, hb, helement, hchoice => by
    cases b <;> simp only [choice, reduceCtorEq] at hchoice
    case uninterpreted =>
      cases helement
      rw [octets, octets, ha.2.1.eq_of_length hb.2.1 (Choice.kept.inj hchoice)]
    case taggedContent => cases helement
  | primitive identifier _ value, b, ha, hb, helement, hchoice => by
    cases b <;> simp only [choice, reduceCtorEq] at hchoice
    case primitive =>
      cases helement
      rcases Choice.primitive.inj hchoice with ⟨hidentifier, hlength⟩
      obtain rfl := Identifier.eq_of_openPart (fun _ => ha.2.2.identifier?_eq)
        (fun _ => hb.2.2.identifier?_eq) hidentifier
      rw [octets, octets, ha.2.1.eq_of_length hb.2.1 hlength]
  | skippedNull _ _, b, ha, hb, helement, hchoice => by
    cases b <;> simp only [choice, reduceCtorEq] at hchoice
    case skippedNull =>
      cases hchoice
      rfl
  | taggedContent _ _ _, b, ha, hb, helement, hchoice => by
    cases b <;> simp only [choice, reduceCtorEq] at hchoice
    case taggedContent =>
      cases helement
      rw [octets, octets, ha.2.1.eq_of_length hb.2.1 (Choice.kept.inj hchoice)]
    case uninterpreted => cases helement
  | container form identifier extent values, b, ha, hb, helement, hchoice => by
    cases b <;> simp only [choice, reduceCtorEq] at hchoice
    case container other _ _ others =>
      rcases ha with ⟨_, hlength, hnamed, -, hholds, hvalid, -⟩
      rcases hb with ⟨_, hlength', hnamed', -, hholds', hvalid', -⟩
      rcases Choice.container.inj hchoice with ⟨hidentifier, hoctets, hsizes, hchoices⟩
      rcases Form.element_inj hholds hholds' helement hsizes with ⟨rfl, helements⟩
      obtain rfl := Identifier.eq_of_openPart (fun _ => hnamed.identifier?_eq)
        (fun _ => hnamed'.identifier?_eq) hidentifier
      have hcontent := octetsAll_eq values others hvalid hvalid' helements hchoices
      rw [← hcontent] at hlength'
      rcases Extent.eq_of_lengthOctets? hlength hlength' hoctets with rfl
      rw [octets, octets, hcontent]

/-- The same for values in a row. -/
theorem octetsAll_eq : (as bs : List Encoding) → ValidAll as → ValidAll bs →
    elements as = elements bs → choices as = choices bs → octetsAll as = octetsAll bs
  | [], bs, _, _, helements, _ => by
    cases bs with
    | nil => rfl
    | cons b bs => cases helements
  | a :: as, bs, ha, hb, helements, hchoices => by
    cases bs with
    | nil => cases helements
    | cons b bs =>
      rcases List.cons.inj helements with ⟨helement, helements⟩
      rcases List.cons.inj hchoices with ⟨hchoice, hchoices⟩
      rw [octetsAll, octetsAll, octets_eq a b ha.1 hb.1 helement hchoice,
        octetsAll_eq as bs ha.2 hb.2 helements hchoices]

end

end Encoding
end Ber
