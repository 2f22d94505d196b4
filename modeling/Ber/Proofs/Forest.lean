import Ber.Proofs.Unambiguous

/-!
# Ber.Proofs.Forest — octets are those of one row of values

A value is a header and the content that the header announces. Both can be told from the octets
(`Encoding.told_of_octets`), and what becomes of the content is decided by the header. So values in
a row are determined by their octets, with all that was open in writing them
(`Encoding.eq_of_octetsAll`).
-/

namespace Ber.Encoding

variable {a b : Encoding}

/-! ## Header and content -/

/-- The identifier of a value. -/
def identifier : Encoding → Identifier
  | uninterpreted identifier _ _ | primitive identifier _ _ | skippedNull identifier _
  | taggedContent identifier _ _ | container _ identifier _ _ => identifier

/-- The octets that say how long a value is. -/
def lengthOctets : Encoding → Octets
  | uninterpreted _ lengthOctets _ | primitive _ lengthOctets _ | taggedContent _ lengthOctets _ =>
    lengthOctets
  | skippedNull .. => [0x80]
  | container _ _ extent _ => extent.opening

/-- What the length octets of a value say. -/
def length : Encoding → Length
  | uninterpreted _ _ content | taggedContent _ _ content => .definite content.length
  | primitive _ _ value => .definite value.content.length
  | skippedNull .. => .indefinite
  | container _ _ extent values => extent.length (octetsAll values).length

/-- The octets behind the header of a value, the end-of-contents marker included. -/
def body : Encoding → Octets
  | uninterpreted _ _ content | taggedContent _ _ content => content
  | primitive _ _ value => value.content
  | skippedNull _ skipped => skipped
  | container _ _ extent values => octetsAll values ++ extent.closing

/-- What becomes of the content of a value. -/
def content : Encoding → Content
  | uninterpreted _ _ content => .kept content.length
  | primitive _ _ value => .decoded value.content.length
  | skippedNull .. => .skipped
  | taggedContent identifier _ content => .entered (.tagged identifier) (.definite content.length)
  | container form _ extent values => .entered form (extent.region (octetsAll values).length)

theorem header_eq (value : Encoding) : value.header = value.identifier.octets ++ value.lengthOctets := by
  cases value <;> rfl

theorem octets_eq_header (value : Encoding) : value.octets = value.header ++ value.body := by
  cases value <;> rfl

/-- A header has octets. -/
theorem header_pos (value : Encoding) : 0 < value.header.length := by
  rw [header_eq, Identifier.octets]
  simp

/-- Only no values at all are written without octets. -/
theorem eq_nil_of_octetsAll {values : List Encoding} (h : octetsAll values = []) : values = [] := by
  cases values with
  | nil => rfl
  | cons value values =>
    have hpos := value.header_pos
    have hempty := congrArg List.length h
    simp only [octetsAll, octets_eq_header, List.length_append, List.length_nil] at hempty
    omega

/-- The header of a valid value is written as it may be, and says what becomes of the content. -/
theorem Valid.announces : {value : Encoding} → value.Valid →
    value.identifier.Written ∧ Length.Written value.lengthOctets value.length ∧
      Content.of value.identifier value.length = value.content
  | uninterpreted .., h => ⟨h.1, h.2.1, Content.of_eq_of_allowed ⟨rfl, h.2.2⟩ (by simp [content])⟩
  | primitive .., h => ⟨h.1, h.2.1, Content.of_eq_of_allowed (Content.allowed_decoded h.2.2 _)
      (by simp [content])⟩
  | skippedNull .., h => ⟨h.1, .indefinite, Content.of_eq_of_allowed ⟨rfl, h.2.1⟩
      (by simp [content])⟩
  | taggedContent .., h => ⟨h.1, h.2.1, Content.of_eq_of_allowed ⟨rfl, rfl, .inl h.2.2.1⟩
      (by simp [content])⟩
  | container .., h => ⟨h.1, h.2.1, Content.of_eq_of_allowed (Extent.allowed h.2.2.1)
      (by simp [content])⟩

/-! ## Told by the octets -/

/-- The octets tell header and content of a value, and what becomes of the content. -/
theorem told_of_octets (ha : a.Valid) (hb : b.Valid) (h : a.octets = b.octets) :
    a.identifier = b.identifier ∧ a.lengthOctets = b.lengthOctets ∧ a.content = b.content ∧
      a.body = b.body := by
  obtain ⟨haIdentifier, haLength, haContent⟩ := ha.announces
  obtain ⟨hbIdentifier, hbLength, hbContent⟩ := hb.announces
  simp only [octets_eq_header, header_eq] at h
  obtain ⟨hidentifier, hlengthOctets, hlength⟩ :=
    header_unique haIdentifier haLength hbIdentifier hbLength h
  refine ⟨hidentifier, hlengthOctets, ?_, ?_⟩
  · rw [← haContent, ← hbContent, hidentifier, hlength]
  · rw [hidentifier, hlengthOctets] at h
    exact List.append_cancel_left h

/-- The way in which the end of content is given is told by the octets that say so. -/
theorem extent_unique {extent extent' : Extent} {count count' : Nat}
    (hregion : extent.region count = extent'.region count')
    (hopening : extent.opening = extent'.opening) : extent = extent' := by
  cases extent <;> cases extent' <;> simp_all [Extent.region, Extent.opening]

/-- The octets of a value without parts tell the value. -/
theorem primitive_unique {identifier : Identifier} {value value' : Primitive}
    (h : value.NamedBy identifier) (h' : value'.NamedBy identifier)
    (hcontent : value.content = value'.content) : value = value' := by
  have hread := Primitive.ofContent_content h
  rw [hcontent, Primitive.ofContent_content h'] at hread
  exact (Except.ok.inj hread).symm

mutual

/-- A valid value is determined by its octets. -/
theorem eq_of_octets : (a : Encoding) → {b : Encoding} → a.Valid → b.Valid →
    a.octets = b.octets → a = b
  | uninterpreted .., b, ha, hb, h => by
    obtain ⟨hidentifier, hlengthOctets, hcontent, hbody⟩ := told_of_octets ha hb h
    -- what becomes of the content is different for the other kinds of values
    cases b with
    | uninterpreted => simp_all only [identifier, lengthOctets, body]
    | _ => simp [content] at hcontent
  | primitive .., b, ha, hb, h => by
    obtain ⟨hidentifier, hlengthOctets, hcontent, hbody⟩ := told_of_octets ha hb h
    cases b with
    | primitive =>
      simp only [identifier, lengthOctets, body] at hidentifier hlengthOctets hbody
      rw [hidentifier, hlengthOctets, primitive_unique (hidentifier ▸ ha.2.2) hb.2.2 hbody]
    | _ => simp [content] at hcontent
  | skippedNull .., b, ha, hb, h => by
    obtain ⟨hidentifier, -, hcontent, hbody⟩ := told_of_octets ha hb h
    cases b with
    | skippedNull => simp_all only [identifier, body]
    | _ => simp [content] at hcontent
  | taggedContent .., b, ha, hb, h => by
    obtain ⟨hidentifier, hlengthOctets, hcontent, hbody⟩ := told_of_octets ha hb h
    cases b with
    | taggedContent => simp_all only [identifier, lengthOctets, body]
    | container form =>
      -- a tagged value with values in it is constructed, and this one is not
      simp only [content, Content.entered.injEq] at hcontent
      exact absurd (hb.2.2.2.1 _ hcontent.1.symm) ha.2.2.2
    | _ => simp [content] at hcontent
  | container form identifier extent values, b, ha, hb, h => by
    obtain ⟨hidentifier, hlengthOctets, hcontent, hbody⟩ := told_of_octets ha hb h
    cases b with
    | taggedContent =>
      simp only [content, Content.entered.injEq] at hcontent
      exact absurd (ha.2.2.2.1 _ hcontent.1) hb.2.2.2
    | container form' identifier' extent' values' =>
      simp only [content, Content.entered.injEq] at hcontent
      simp only [lengthOctets, body] at hlengthOctets hbody
      obtain ⟨rfl, hregion⟩ := hcontent
      cases extent_unique hregion hlengthOctets
      have hvalues := eq_of_octetsAll values ha.2.2.2.2.2.1 hb.2.2.2.2.2.1
        (List.append_cancel_right hbody)
      rw [hvalues, show identifier = identifier' from hidentifier]
    | _ => simp [content] at hcontent

/-- Valid values in a row are determined by their octets. -/
theorem eq_of_octetsAll : (as : List Encoding) → {bs : List Encoding} → ValidAll as → ValidAll bs →
    octetsAll as = octetsAll bs → as = bs
  | [], bs, _, _, h => (eq_nil_of_octetsAll h.symm).symm
  | a :: as, bs, ha, hb, h => by
    cases bs with
    | nil => exact eq_nil_of_octetsAll h
    | cons b bs =>
      simp only [octetsAll] at h
      have hfirst := octets_unique ha.1 hb.1 h
      rw [hfirst] at h
      rw [eq_of_octets a ha.1 hb.1 hfirst,
        eq_of_octetsAll as ha.2 hb.2 (List.append_cancel_left h)]

end

end Ber.Encoding
