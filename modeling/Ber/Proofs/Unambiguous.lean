import Ber.Proofs.Grammar

/-!
# Ber.Proofs.Unambiguous — octets can be read in one way only

Where a value starts, its header and its end are determined by the octets, whatever follows. Reading
is a function, and it reads all that is written (`element_complete`), so no two values that are
written at one place can differ in their octets.
-/

namespace Ber

namespace Source

/-- A source without faults over octets, with no region open. -/
theorem delivers_ofData (c rest : Octets) :
    Delivers c (.ofData (c ++ rest)) ⟨[], ⟨rest.map .octet, c.length⟩⟩ := by
  refine ⟨?_, rfl, fun _ hmem => nomatch hmem⟩
  simpa [ofData, Reader.ofData] using Reader.delivers_ofData c rest 0

theorem ready_ofData (data : Octets) : (ofData data).Ready := fun _ hmem => nomatch hmem

end Source

section
variable {identifier other : Identifier} {c e x y : Octets} {length length' : Length}

/-- Headers that begin the same octets are the same. -/
theorem header_unique (hidentifier : identifier.Written) (hlength : Length.Written c length)
    (hother : other.Written) (hlength' : Length.Written e length')
    (h : identifier.octets ++ c ++ x = other.octets ++ e ++ y) :
    identifier = other ∧ c = e ∧ length = length' := by
  have hready := Source.ready_ofData (identifier.octets ++ c ++ x)
  obtain ⟨first, v, v', hfirst, hafter, htake⟩ := (Source.firstOctet?_header_iff hready).2
    ⟨c, hidentifier, hlength, hlength.below, (fun hmarked => nomatch hmarked),
      Source.delivers_ofData (identifier.octets ++ c) x⟩
  have hdelivers := Source.delivers_ofData (other.octets ++ e) y
  rw [← h] at hdelivers
  obtain ⟨first', w, w', hfirst', hafter', htake'⟩ := (Source.firstOctet?_header_iff hready).2
    ⟨e, hother, hlength', hlength'.below, (fun hmarked => nomatch hmarked), hdelivers⟩
  cases hfirst.symm.trans hfirst'
  cases hafter.symm.trans hafter'
  obtain ⟨hread, hposition⟩ : length = length' ∧
      (identifier.octets ++ c).length = (identifier.octets ++ e).length := by
    have hsame := htake.symm.trans htake'
    simp only [EStateM.Result.ok.injEq, Source.mk.injEq, Reader.mk.injEq] at hsame
    exact ⟨hsame.1, hsame.2.2.2⟩
  have hoctets := (List.append_inj h hposition).1
  exact ⟨rfl, List.append_cancel_left hoctets, hread⟩

/-- Only a header that is the end-of-contents marker begins like it. -/
theorem header_eq_marker (hidentifier : identifier.Written) (hlength : Length.Written c length)
    (h : identifier.octets ++ c ++ x = [0, 0] ++ y) : identifier.octets ++ c = [0, 0] := by
  simp only [Identifier.octets, List.cons_append, List.nil_append, List.cons.injEq] at h ⊢
  rcases h with ⟨hfirst, h⟩
  have hfollowing := hidentifier.following_of_first hfirst
  rw [hfollowing] at h ⊢
  match c with
  | [] => exact absurd rfl hlength.ne_nil
  | b :: c =>
    rcases List.cons.inj h with ⟨rfl, -⟩
    exact ⟨hfirst, by simp [hlength.eq_zero]⟩

end

namespace Encoding

variable {a b : Encoding} {as bs : List Encoding} {x y : Octets}

/-- A valid value is a header that is written and the content that it announces. -/
structure Parts (value : Encoding) (identifier : Identifier) (lengthOctets : Octets)
    (length : Length) (body : Octets) : Prop where
  identifierWritten : identifier.Written
  lengthWritten : Length.Written lengthOctets length
  header : value.header = identifier.octets ++ lengthOctets
  octets : value.octets = identifier.octets ++ lengthOctets ++ body
  definite : ∀ count, length = .definite count → body.length = count
  indefinite : length = .indefinite → identifier.tag = .universal .null ∨
    ∃ form values, value = container form identifier .marked values

theorem Valid.parts : {value : Encoding} → value.Valid →
    ∃ identifier lengthOctets length body, Parts value identifier lengthOctets length body
  | uninterpreted identifier lengthOctets content, h =>
    ⟨identifier, lengthOctets, .definite content.length, content, h.1, h.2.1, rfl, rfl,
      fun _ hcount => Length.definite.inj hcount, fun hlength => nomatch hlength⟩
  | primitive identifier lengthOctets value, h =>
    ⟨identifier, lengthOctets, .definite value.content.length, value.content, h.1, h.2.1, rfl, rfl,
      fun _ hcount => Length.definite.inj hcount, fun hlength => nomatch hlength⟩
  | skippedNull identifier skipped, h =>
    ⟨identifier, [0x80], .indefinite, skipped, h.1, .indefinite, rfl, rfl,
      (fun _ hcount => nomatch hcount), fun _ => .inl h.2.1⟩
  | taggedContent identifier lengthOctets content, h =>
    ⟨identifier, lengthOctets, .definite content.length, content, h.1, h.2.1, rfl, rfl,
      fun _ hcount => Length.definite.inj hcount, fun hlength => nomatch hlength⟩
  | container form identifier (.definite lengthOctets) values, h =>
    ⟨identifier, lengthOctets, .definite (octetsAll values).length, octetsAll values, h.1, h.2.1,
      rfl, by simp [octets, Extent.opening, Extent.closing],
      fun _ hcount => Length.definite.inj hcount, fun hlength => nomatch hlength⟩
  | container form identifier .marked values, h =>
    ⟨identifier, [0x80], .indefinite, octetsAll values ++ [0, 0], h.1, h.2.1, rfl, rfl,
      (fun _ hcount => nomatch hcount), fun _ => .inr ⟨form, values, rfl⟩⟩

/-- A value that does not look like the end-of-contents marker does not begin with it. -/
theorem Valid.not_marker (h : a.Valid) (hheader : a.header ≠ [0, 0]) :
    a.octets ++ x ≠ [0, 0] ++ y := by
  intro heq
  rcases h.parts with ⟨identifier, lengthOctets, length, body, parts⟩
  rw [parts.octets, List.append_assoc _ body x] at heq
  rw [parts.header] at hheader
  exact hheader (header_eq_marker parts.identifierWritten parts.lengthWritten heq)

/-- Of the values that may begin octets, all end at the same place. -/
theorem octets_unique (ha : a.Valid) (hb : b.Valid) (h : a.octets ++ x = b.octets ++ y) :
    a.octets = b.octets := by
  have hready := Source.ready_ofData (a.octets ++ x)
  -- a scope with room for both
  have hwritten : ∀ {value : Encoding} {rest : Octets}, value.Valid →
      a.octets ++ x = value.octets ++ rest → value = a ∨ value = b →
      Source.Written ⟨(a.octets ++ x).length + 1, 0, max a.nesting b.nesting⟩ value
        (.ofData (a.octets ++ x)) ⟨[], ⟨rest.map .octet, value.octets.length⟩⟩ := by
    intro value rest hvalid hoctets hvalue
    refine ⟨hvalid, (fun hmarked => nomatch hmarked), ⟨fun n hn => ?_, ?_⟩, ?_⟩
    · have hlt := lt_of_mem_lengthsAll [value] hn
      simp only [octetsAll, List.append_nil] at hlt
      simp only [hoctets, List.length_append]
      omega
    · rcases hvalue with rfl | rfl <;> simp only [nestingAll] <;> omega
    · rw [hoctets]
      exact Source.delivers_ofData value.octets rest
  obtain ⟨item, m, hnext, helement⟩ :=
    Source.element_complete a hready (hwritten ha rfl (.inl rfl))
  obtain ⟨item', m', hnext', helement'⟩ :=
    Source.element_complete b hready (hwritten hb h (.inr rfl))
  cases hnext.symm.trans hnext'
  have hlength : a.octets.length = b.octets.length := by
    have hsame := helement.symm.trans helement'
    simp only [EStateM.Result.ok.injEq, Source.mk.injEq, Reader.mk.injEq] at hsame
    exact hsame.2.2.2
  exact (List.append_inj h hlength).1

/-- Values in a row in front of the end-of-contents marker end at the same place. -/
theorem octetsAll_unique (ha : ValidAll as) (hb : ValidAll bs) (hua : Unmarked as)
    (hub : Unmarked bs) (h : octetsAll as ++ ([0, 0] ++ x) = octetsAll bs ++ ([0, 0] ++ y)) :
    octetsAll as = octetsAll bs := by
  induction as generalizing bs with
  | nil =>
    match bs with
    | [] => rfl
    | b :: bs =>
      simp only [octetsAll, List.nil_append, List.append_assoc] at h
      exact absurd h.symm (hb.1.not_marker (hub b (by simp)))
  | cons a as ih =>
    match bs with
    | [] =>
      simp only [octetsAll, List.nil_append, List.append_assoc] at h
      exact absurd h (ha.1.not_marker (hua a (by simp)))
    | b :: bs =>
      simp only [octetsAll, List.append_assoc] at h ⊢
      have hfirst := octets_unique ha.1 hb.1 h
      rw [hfirst] at h ⊢
      rw [ih ha.2 hb.2 (fun v hv => hua v (by simp [hv])) (fun v hv => hub v (by simp [hv]))
        (List.append_cancel_left h)]

end Encoding
end Ber
