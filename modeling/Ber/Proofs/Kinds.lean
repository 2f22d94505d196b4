import Ber.Value.Primitive

/-!
# Ber.Proofs.Kinds — what values without parts are read as

A value without parts is read from its tag and its content. There are eighteen tags with a kind of value
of their own (`Tag.IsListed`), and a value of any other tag is kept with its identifier. Reading is
turned around here:

1. `Primitive.Faulty` is what may be wrong with content, and the only reason not to read it
   (`Primitive.ofContent_eq_error_iff`).
2. A value is read exactly if its tag and its content are the given ones and it is of the kind that the
   tag asks for (`Primitive.Suits`, `Primitive.ofContent_eq_ok_iff`). So the table that reads a tag and
   the one that tells it are the inverse of each other.

`Primitive.sorted_by_tag` puts it together.
-/

namespace Ber

/-! ## Listed tags -/

/-- The numbers of the universal tags that have a kind of value of their own. -/
def Tag.listedNumbers : List UInt32 :=
  [1, 2, 3, 4, 5, 6, 10, 12, 18, 19, 20, 22, 23, 24, 26, 27, 28, 30]

/-- A tag is listed if it has a kind of value of its own. -/
def Tag.IsListed (tag : Tag) : Prop :=
  tag.tagClass = .universal ∧ tag.number ∈ Tag.listedNumbers

namespace Tag

/-- The universal types have listed tags, but for three that are no values without parts. -/
theorem isListed_universal (type : UniversalType) :
    (universal type).IsListed ↔ type ≠ .endOfContents ∧ type ≠ .sequence ∧ type ≠ .set := by
  unfold IsListed
  cases type <;> decide

theorem isListed_characters (characters : CharacterSet) : (universal characters.type).IsListed := by
  rw [isListed_universal]
  cases characters <;> decide

theorem isListed_form (form : TimeForm) : (universal form.type).IsListed := by
  rw [isListed_universal]
  cases form <;> decide

/-- A listed tag is that of a universal type. -/
theorem IsListed.isSome {tag : Tag} (h : tag.IsListed) : tag.universalType?.isSome := by
  have hnumbers : listedNumbers.all (fun number => (UniversalType.ofNumber? number).isSome) = true := by
    decide
  rcases tag with ⟨tagClass, number⟩
  obtain ⟨hclass, hnumber⟩ := h
  cases hclass
  exact List.all_eq_true.1 hnumbers number hnumber

/-- A tag is not listed if it stands for no universal type, or for one of the three. -/
theorem not_isListed_iff {tag : Tag} :
    ¬ tag.IsListed ↔ tag.universalType? = none ∨ tag = universal .endOfContents ∨
      tag = universal .sequence ∨ tag = universal .set := by
  cases htype : tag.universalType? with
  | none =>
    simp only [true_or, iff_true]
    intro hlisted
    have hsome := hlisted.isSome
    rw [htype] at hsome
    cases hsome
  | some type =>
    rw [universalType?_eq_some_iff.1 htype, isListed_universal]
    simp only [universal_inj, reduceCtorEq, false_or]
    cases type <;> decide

end Tag

/-! ## Bit strings -/

namespace BitString

/-- A bit string is read from its content, and from no other. -/
theorem ofContent_eq_ok_iff {c : Octets} {bits : BitString} :
    ofContent c = .ok bits ↔ bits.content = c := by
  cases c with
  | nil => simp [ofContent, content]
  | cons unused octets =>
    simp only [ofContent, ofParts?]
    split
    · rename_i result hresult
      split at hresult
      · cases hresult
        constructor
        · intro h
          cases h
          simp [content]
        · intro h
          rcases List.cons.inj h with ⟨hunused, rfl⟩
          rcases bits with ⟨unused', octets, hlt, hzero⟩
          have hnat : unused' = unused.toNat := by
            rw [← hunused]
            simp
            omega
          subst hnat
          rfl
      · cases hresult
    · rename_i hresult
      simp only [reduceCtorEq, false_iff]
      rintro h
      rcases List.cons.inj h with ⟨hunused, rfl⟩
      rcases bits with ⟨unused', octets, hlt, hzero⟩
      have hnat : unused.toNat = unused' := by
        rw [← hunused]
        simp
        omega
      split at hresult
      · cases hresult
      · rename_i hvalid
        exact hvalid ⟨hnat ▸ hlt, fun h => hnat ▸ hzero h⟩

/-- What may be wrong with the content of a bit string, and how it is worded. -/
inductive Faulty : Octets → String → Prop where
  /-- It does not say how many bits are unused. -/
  | noCount : Faulty [] "empty bit string"
  /-- They are more than an octet may leave unused. -/
  | tooMany {unused : UInt8} {octets : Octets} (hunused : 7 < unused) :
    Faulty (unused :: octets) "invalid unused bits in bit string"
  /-- There is no octet to leave them unused. -/
  | noOctet {unused : UInt8} (hunused : unused ≠ 0) :
    Faulty [unused] "invalid unused bits in bit string"

/-- The unused bits and the octets make no bit string exactly if there are too many of these, or none of
those. -/
theorem ofParts?_eq_none_iff {unused : UInt8} {octets : Octets} :
    ofParts? unused octets = none ↔ 7 < unused ∨ octets = [] ∧ unused ≠ 0 := by
  have hmany : 7 < unused ↔ ¬ unused.toNat < 8 := by
    rw [UInt8.lt_iff_toNat_lt]
    simp only [UInt8.reduceToNat]
    omega
  have hzero : unused = 0 ↔ unused.toNat = 0 := by
    rw [← UInt8.toNat_inj]
    rfl
  rw [hmany, ne_eq, hzero, ofParts?]
  split
  · rename_i hvalid
    simp only [reduceCtorEq, false_iff]
    rintro (hlarge | ⟨hempty, hsome⟩)
    · exact hlarge hvalid.1
    · exact hsome (hvalid.2 hempty)
  · rename_i hinvalid
    simp only [true_iff]
    by_cases hless : unused.toNat < 8
    · right
      apply Classical.not_imp.1
      intro hzero
      exact hinvalid ⟨hless, hzero⟩
    · exact .inl hless

/-- The content of a bit string is refused for what is wrong with it. -/
theorem ofContent_eq_error_iff {c : Octets} {reason : String} :
    ofContent c = .error reason ↔ Faulty c reason := by
  cases c with
  | nil =>
    constructor
    · intro h
      cases h
      exact .noCount
    · intro h
      cases h
      rfl
  | cons unused octets =>
    constructor
    · intro h
      unfold ofContent at h
      dsimp only at h
      split at h
      · cases h
      · rename_i hnone
        cases h
        rcases ofParts?_eq_none_iff.1 hnone with hunused | ⟨rfl, hunused⟩
        · exact .tooMany hunused
        · exact .noOctet hunused
    · intro h
      cases h with
      | tooMany hunused =>
        have hnone : ofParts? unused octets = none := ofParts?_eq_none_iff.2 (.inl hunused)
        simp only [ofContent, hnone]
      | noOctet hunused =>
        have hnone : ofParts? unused [] = none := ofParts?_eq_none_iff.2 (.inr ⟨rfl, hunused⟩)
        simp only [ofContent, hnone]

end BitString

/-! ## Values -/

namespace Primitive

/-- The content octets of a value. -/
def content : Primitive → Octets
  | boolean value => value.content
  | integer value | enumerated value => value.content
  | bitString value => value.content
  | octetString octets => octets
  | null => []
  | objectIdentifier value => value.content
  | characterString value => value.content
  | time value => value.content
  | unknown _ content => content

/-- What may be wrong with the content of a value of a tag, and how it is worded. -/
inductive Faulty (tag : Tag) (octets : Octets) : String → Prop where
  | bitString {reason : String} (htag : tag = .universal .bitString)
    (hbits : BitString.Faulty octets reason) : Faulty tag octets reason
  | null (htag : tag = .universal .null) (hoctets : octets ≠ []) :
    Faulty tag octets "NULL with content"

/-- The values that an identifier and content may be read as: those with this tag and content, but of a
tag that is not listed, the one that keeps the identifier. -/
def Suits (identifier : Identifier) (octets : Octets) : Primitive → Prop
  | unknown named kept => named = identifier ∧ kept = octets ∧ ¬ identifier.tag.IsListed
  | value => value.tag = identifier.tag ∧ value.content = octets

variable {identifier : Identifier} {octets : Octets} {value : Primitive} {reason : String}

/-- Nothing but this is wrong with content. -/
theorem ofContent_eq_error_iff :
    ofContent identifier octets = .error reason ↔ Faulty identifier.tag octets reason := by
  constructor
  · intro h
    have htag : ∀ {type : UniversalType}, identifier.tag.universalType? = some type →
        identifier.tag = .universal type := Tag.universalType?_eq_some_iff.1
    unfold ofContent at h
    split at h
    case h_4 htype =>
      cases hbits : BitString.ofContent octets with
      | error found =>
        rw [hbits] at h
        cases h
        exact .bitString (htag htype) (BitString.ofContent_eq_error_iff.1 hbits)
      | ok bits =>
        rw [hbits] at h
        cases h
    case h_6 htype =>
      split at h
      · cases h
      · rename_i hoctets
        cases h
        exact .null (htag htype) hoctets
    all_goals cases h
  · intro h
    unfold ofContent
    cases h with
    | bitString htag hbits =>
      rw [Tag.universalType?_eq_some_iff.2 htag]
      simp only [BitString.ofContent_eq_error_iff.2 hbits]
      rfl
    | null htag hoctets =>
      rw [Tag.universalType?_eq_some_iff.2 htag]
      exact if_neg hoctets

/-- A value is read exactly from the tag and the content that it has. -/
theorem ofContent_eq_ok_iff :
    ofContent identifier octets = .ok value ↔ value.Suits identifier octets := by
  constructor
  · intro h
    have htag : ∀ {type : UniversalType}, identifier.tag.universalType? = some type →
        .universal type = identifier.tag := fun htype =>
      (Tag.universalType?_eq_some_iff.1 htype).symm
    unfold ofContent at h
    split at h
    -- the types that check their content, and those that keep their identifier
    case h_4 htype =>
      cases hbits : BitString.ofContent octets with
      | error found =>
        rw [hbits] at h
        cases h
      | ok bits =>
        rw [hbits] at h
        cases h
        exact ⟨htag htype, BitString.ofContent_eq_ok_iff.1 hbits⟩
    case h_6 htype =>
      split at h
      · rename_i hempty
        cases h
        exact ⟨htag htype, hempty.symm⟩
      · cases h
    case h_19 htype =>
      cases h
      exact ⟨rfl, rfl, Tag.not_isListed_iff.2 (.inr (.inl (htag htype).symm))⟩
    case h_20 htype =>
      cases h
      exact ⟨rfl, rfl, Tag.not_isListed_iff.2 (.inr (.inr (.inl (htag htype).symm)))⟩
    case h_21 htype =>
      cases h
      exact ⟨rfl, rfl, Tag.not_isListed_iff.2 (.inr (.inr (.inr (htag htype).symm)))⟩
    case h_22 htype =>
      cases h
      exact ⟨rfl, rfl, Tag.not_isListed_iff.2 (.inl htype)⟩
    -- all others take the content as it is
    all_goals
      rename_i htype
      cases h
      exact ⟨htag htype, rfl⟩
  · intro h
    have htype : ∀ {type : UniversalType}, .universal type = identifier.tag →
        identifier.tag.universalType? = some type := fun htag =>
      Tag.universalType?_eq_some_iff.2 htag.symm
    unfold ofContent
    cases value with
    | bitString bits =>
      rw [htype h.1]
      simp only [BitString.ofContent_eq_ok_iff.2 h.2]
      rfl
    | null =>
      rw [htype h.1]
      exact if_pos h.2.symm
    | characterString string =>
      obtain ⟨htag, rfl⟩ := h
      rcases string with ⟨characters, octets⟩
      cases characters <;> rw [htype htag] <;> rfl
    | time time =>
      obtain ⟨htag, rfl⟩ := h
      rcases time with ⟨form, octets⟩
      cases form <;> rw [htype htag] <;> rfl
    | unknown named kept =>
      obtain ⟨rfl, rfl, hlisted⟩ := h
      rcases Tag.not_isListed_iff.1 hlisted with hnone | htag | htag | htag
      · rw [hnone]
      all_goals rw [htype htag.symm]
    | _ =>
      obtain ⟨htag, rfl⟩ := h
      rw [htype htag]
      rfl

/-- A value that suits an identifier and content has this tag and this content. -/
theorem Suits.told (h : value.Suits identifier octets) :
    value.tag = identifier.tag ∧ value.content = octets := by
  cases value with
  | unknown named kept =>
    obtain ⟨rfl, rfl, -⟩ := h
    exact ⟨rfl, rfl⟩
  | _ => exact h

/-- Only an unknown value has a tag that is not listed. -/
theorem isListed_tag (h : ∀ named kept, value ≠ .unknown named kept) : value.tag.IsListed := by
  cases value with
  | unknown named kept => exact absurd rfl (h named kept)
  | characterString string => exact Tag.isListed_characters string.characters
  | time time => exact Tag.isListed_form time.form
  | _ => exact (Tag.isListed_universal _).2 (by decide)

/-! ## Reading by tag -/

/-- A value without parts is read by its tag, and neither tag nor content gets lost. -/
structure Sorted (identifier : Identifier) (octets : Octets) : Prop where
  /-- It is refused if a bit string does not say how many bits are unused, or says that more are than
  there may be, or if NULL has content; and for nothing else. -/
  refused : (∃ reason, ofContent identifier octets = .error reason) ↔
    identifier.tag = .universal .bitString ∧
        (octets = [] ∨ (∃ unused bits, octets = unused :: bits ∧ 7 < unused) ∨
          ∃ unused, octets = [unused] ∧ unused ≠ 0) ∨
      identifier.tag = .universal .null ∧ octets ≠ []
  /-- What is read has the tag and the content that it is read from. -/
  told : ∀ value, ofContent identifier octets = .ok value →
    value.tag = identifier.tag ∧ value.content = octets
  /-- The content of a bit string is the number of unused bits, and its octets. -/
  bits : ∀ bits, ofContent identifier octets = .ok (.bitString bits) →
    octets = UInt8.ofNat bits.unused :: bits.octets ∧ bits.unused ≤ 7
  null : ofContent identifier octets = .ok .null → octets = []
  /-- The value is unknown exactly if the tag is not listed. -/
  unknown : ∀ value, ofContent identifier octets = .ok value →
    ((∃ named kept, value = .unknown named kept) ↔ ¬ identifier.tag.IsListed)
  /-- An unknown value keeps the identifier, octet by octet, and the content. -/
  retained : ∀ named kept, ofContent identifier octets = .ok (.unknown named kept) →
    named = identifier ∧ kept = octets
  /-- Any other value is read from its tag and its content. -/
  inverse : ∀ value, (∀ named kept, value ≠ .unknown named kept) → value.tag = identifier.tag →
    value.content = octets → ofContent identifier octets = .ok value

/-- Something is wrong with the content of a bit string in three ways, and with that of NULL in one. -/
theorem faulty_iff :
    (∃ reason, Faulty identifier.tag octets reason) ↔
      identifier.tag = .universal .bitString ∧
          (octets = [] ∨ (∃ unused bits, octets = unused :: bits ∧ 7 < unused) ∨
            ∃ unused, octets = [unused] ∧ unused ≠ 0) ∨
        identifier.tag = .universal .null ∧ octets ≠ [] := by
  constructor
  · rintro ⟨reason, hfaulty⟩
    cases hfaulty with
    | bitString htag hbits =>
      left
      refine ⟨htag, ?_⟩
      cases hbits with
      | noCount => exact .inl rfl
      | @tooMany unused bits hunused => exact .inr (.inl ⟨unused, bits, rfl, hunused⟩)
      | @noOctet unused hunused => exact .inr (.inr ⟨unused, rfl, hunused⟩)
    | null htag hoctets => exact .inr ⟨htag, hoctets⟩
  · rintro (⟨htag, rfl | ⟨unused, bits, rfl, hunused⟩ | ⟨unused, rfl, hunused⟩⟩ | ⟨htag, hoctets⟩)
    · exact ⟨_, .bitString htag .noCount⟩
    · exact ⟨_, .bitString htag (.tooMany hunused)⟩
    · exact ⟨_, .bitString htag (.noOctet hunused)⟩
    · exact ⟨_, .null htag hoctets⟩

/-- Whatever the identifier and the content are, they are sorted by the tag. -/
theorem sorted_by_tag (identifier : Identifier) (octets : Octets) : Sorted identifier octets := by
  constructor
  · simp only [ofContent_eq_error_iff]
    exact faulty_iff
  · intro value h
    exact (ofContent_eq_ok_iff.1 h).told
  · intro bits h
    have hcontent := (ofContent_eq_ok_iff.1 h).told.2
    exact ⟨hcontent.symm, Nat.le_of_lt_succ bits.unused_lt⟩
  · intro h
    exact (ofContent_eq_ok_iff.1 h).told.2.symm
  · intro value h
    have hsuits := ofContent_eq_ok_iff.1 h
    constructor
    · rintro ⟨named, kept, rfl⟩
      exact hsuits.2.2
    · intro hlisted
      apply Classical.byContradiction
      intro hknown
      apply hlisted
      rw [← hsuits.told.1]
      apply isListed_tag
      intro named kept heq
      exact hknown ⟨named, kept, heq⟩
  · intro named kept h
    obtain ⟨rfl, rfl, -⟩ := ofContent_eq_ok_iff.1 h
    exact ⟨rfl, rfl⟩
  · intro value hknown htag hcontent
    rw [ofContent_eq_ok_iff]
    cases value with
    | unknown named kept => exact absurd rfl (hknown named kept)
    | _ => exact ⟨htag, hcontent⟩

end Primitive
end Ber
