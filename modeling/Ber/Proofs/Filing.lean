import Ber.Proofs.Roundtrip
import Ber.Proofs.Tracing

/-!
# Ber.Proofs.Filing — records follow the values

A remark is filed as a record, with a level and a text. `Encoding.records` spells out the records on
values in a row, by recursion over what is written:

1. at level TRACE the header of each value, with its identifier, its length and the place where it
   ends;
2. right behind it, at level DEBUG a tag without a meaning, with the number of octets kept, and at
   level WARN NULL of indefinite length, with the place behind its marker;
3. at level TRACE behind the values in a container, the place where its region ends, and how many
   they are if it is drained.

The trace of the values is filed as these records (`Encoding.map_record_trace`), and
`Decoder.trace_of_drain` finds them behind each other in the journal of whoever drains octets.
-/

namespace Ber

/-! ## The records -/

/-- The record at the end of a region. -/
def Record.endOfContent (place : Nat) : Record :=
  ⟨"TRACE", "berstream", "end of content at " ++ toString place⟩

/-- The record on how many values were drained from a region that ends at a place. -/
def Record.drained (count place : Nat) : Record :=
  ⟨"TRACE", "berstream",
    "drained " ++ toString count ++ " elements, end at " ++ toString place⟩

/-- The records at the end of a region read value by value. -/
def Form.closingRecords (count place : Nat) : Form → List Record
  | .octetString => [.endOfContent place]
  | _ => [.endOfContent place, .drained count place]

/-- What is filed on a value without parts. -/
def Primitive.records : Primitive → List Record
  | unknown identifier content =>
    [⟨"DEBUG", "berstream", "unknown universal tag " ++ identifier.text ++ ", keeping " ++
      toString content.length ++ " content octets"⟩]
  | _ => []

namespace Encoding

/-- The record on the header of a value that starts at a place. -/
def headerRecord (start : Nat) (value : Encoding) : Record :=
  ⟨"TRACE", "berstream", value.identifier.text ++ " with length " ++ value.length.termText ++
    " at " ++ toString (start + value.header.length)⟩

mutual

/-- The records behind that on the header of a value that starts at a place. -/
def innerRecords (start : Nat) : Encoding → List Record
  | uninterpreted .. | taggedContent .. => []
  | primitive _ _ value => value.records
  | skippedNull identifier skipped =>
    [⟨"WARN", "berstream", "NULL with indefinite length before " ++
      toString (start + (skippedNull identifier skipped).octets.length)⟩]
  | container form identifier extent values =>
    records (start + (container form identifier extent values).header.length) values ++
      form.closingRecords values.length
        (start + (container form identifier extent values).octets.length)

/-- The records on values in a row, the first of which starts at a place. -/
def records (start : Nat) : List Encoding → List Record
  | [] => []
  | value :: values =>
    value.headerRecord start ::
      (innerRecords start value ++ records (start + value.octets.length) values)

end

end Encoding

/-! ## The trace, filed -/

theorem Form.map_record_closingRemarks (form : Form) (count place : Nat) :
    (form.closingRemarks count place).map Remark.record = form.closingRecords count place := by
  cases form <;> rfl

theorem Primitive.map_record_remarks (value : Primitive) :
    value.remarks.map Remark.record = value.records := by
  cases value <;> rfl

namespace Encoding

theorem record_headerRemark (start : Nat) (value : Encoding) :
    (value.headerRemark start).record = value.headerRecord start := rfl

mutual

/-- What is remarked inside a value is filed as its records. -/
theorem map_record_innerTrace (start : Nat) : (value : Encoding) →
    (innerTrace start value).map Remark.record = innerRecords start value
  | uninterpreted .. => rfl
  | taggedContent .. => rfl
  | primitive _ _ value => value.map_record_remarks
  | skippedNull .. => rfl
  | container form identifier extent values => by
    rw [innerTrace, innerRecords, List.map_append, map_record_trace _ values,
      form.map_record_closingRemarks]

/-- What is remarked on values in a row is filed as their records. -/
theorem map_record_trace (start : Nat) : (values : List Encoding) →
    (trace start values).map Remark.record = records start values
  | [] => rfl
  | value :: values => by
    rw [trace, records, List.map_cons, List.map_append, record_headerRemark,
      map_record_innerTrace start value, map_record_trace _ values]

end

end Encoding

namespace Decoder

open Encoding

/-! ## Outside of all containers -/

/-- Whoever drains octets successfully finds the remarks of one row of values in the journal, behind
those made before and in front of two at the end. They are filed as the records of these values,
which are the only ones that the octets write. Their headers end one behind the other. -/
theorem trace_of_drain {limit maxDepth : Nat} {reader : Reader} {journal : List Remark}
    {drained : List Element} {decoder : Decoder}
    (h : drain (Scope.top limit maxDepth) ⟨⟨[], reader⟩, journal⟩ = .ok drained decoder) :
    ∃ values, ValidAll values ∧ octetsAll values = reader.octetsLeft ∧ elements values = drained ∧
      (∀ others, ValidAll others → octetsAll others = reader.octetsLeft → others = values) ∧
      decoder.journal.reverse = journal.reverse ++ trace reader.position values ++
        [.endOfContent (reader.position + reader.octetsLeft.length),
          .drained values.length (reader.position + reader.octetsLeft.length)] ∧
      decoder.journal.reverse.map Remark.record = journal.reverse.map Remark.record ++
        records reader.position values ++
        [.endOfContent (reader.position + reader.octetsLeft.length),
          .drained values.length (reader.position + reader.octetsLeft.length)] ∧
      ((trace reader.position values).filterMap Remark.headerPlace?).Pairwise (· < ·) := by
  obtain ⟨values, hwritten, rfl, hoctets, hsource⟩ := writtenAll_of_drain h
  have hjournal : decoder.journal.reverse = journal.reverse ++ trace reader.position values ++
      [.endOfContent (reader.position + reader.octetsLeft.length),
        .drained values.length (reader.position + reader.octetsLeft.length)] := by
    have hready : Source.Ready ⟨[], reader⟩ := fun r hr => nomatch hr
    have htells := @elementsWithin_tells values _ _ _ (Source.left ⟨[], reader⟩ + 1) [] hready
      hwritten (by simp [Source.left, hoctets])
    have hdecoder := congrArg Decoder.journal
      (EStateM.Result.ok.inj (h.symm.trans (htells journal))).2
    rw [hdecoder, hsource]
    simp [Source.position]
  refine ⟨values, hwritten.valid, hoctets, rfl, ?_, hjournal, ?_, (ordered_trace _ values).increasing⟩
  · intro others hothers hsame
    exact eq_of_octetsAll others hothers hwritten.valid (hsame.trans hoctets.symm)
  · rw [hjournal, List.map_append, List.map_append, map_record_trace]
    rfl

/-- A sequence of indefinite length that holds a value of an unlisted tag, NULL of indefinite length,
a tagged value that is not constructed, and an octet string in segments. -/
theorem trace_of_drain_sequence :
    ∃ decoder, drain (Scope.top 22 2) ⟨Source.ofData [0x30, 0x80, 0x0f, 0x01, 0x07, 0x05, 0x80, 0x07,
        0x00, 0x00, 0x80, 0x01, 0x02, 0x24, 0x80, 0x04, 0x01, 0x0a, 0x00, 0x00, 0x00, 0x00], []⟩ =
        .ok [.sequence [.primitive (.unknown ⟨0x0f, [], 15⟩ [0x07]), .primitive .null,
          .taggedContent ⟨0x80, [], 0⟩ [0x02], .primitive (.octetString [0x0a])]] decoder ∧
      decoder.journal.reverse.map Remark.record =
        [⟨"TRACE", "berstream", "SEQUENCE (constructed) with length Indefinite at 2"⟩,
          ⟨"TRACE", "berstream", "[UNIVERSAL 15] with length Definite(1) at 4"⟩,
          ⟨"DEBUG", "berstream",
            "unknown universal tag [UNIVERSAL 15], keeping 1 content octets"⟩,
          ⟨"TRACE", "berstream", "NULL with length Indefinite at 7"⟩,
          ⟨"WARN", "berstream", "NULL with indefinite length before 10"⟩,
          ⟨"TRACE", "berstream", "[0] with length Definite(1) at 12"⟩,
          ⟨"TRACE", "berstream", "OCTET STRING (constructed) with length Indefinite at 15"⟩,
          ⟨"TRACE", "berstream", "OCTET STRING with length Definite(1) at 17"⟩,
          ⟨"TRACE", "berstream", "end of content at 20"⟩,
          ⟨"TRACE", "berstream", "end of content at 22"⟩,
          ⟨"TRACE", "berstream", "drained 4 elements, end at 22"⟩,
          ⟨"TRACE", "berstream", "end of content at 22"⟩,
          ⟨"TRACE", "berstream", "drained 1 elements, end at 22"⟩] := by
  have hunknown : (primitive ⟨0x0f, [], 15⟩ [0x01] (.unknown ⟨0x0f, [], 15⟩ [0x07])).Valid :=
    ⟨@Identifier.Written.short 0x0f (by decide), .short (by decide), rfl, rfl, by decide⟩
  have hnull : (skippedNull ⟨0x05, [], 5⟩ [0x07, 0x00, 0x00]).Valid :=
    ⟨@Identifier.Written.short 0x05 (by decide), rfl, by simp [EndsAtMarker]⟩
  have htagged : (taggedContent ⟨0x80, [], 0⟩ [0x01] [0x02]).Valid :=
    ⟨@Identifier.Written.short 0x80 (by decide), .short (by decide), rfl, by decide⟩
  have hsegment : (primitive ⟨0x04, [], 4⟩ [0x01] (.octetString [0x0a])).Valid :=
    ⟨@Identifier.Written.short 0x04 (by decide), .short (by decide), rfl, by decide⟩
  have hjoined : (container .octetString ⟨0x24, [], 4⟩ .marked
      [primitive ⟨0x04, [], 4⟩ [0x01] (.octetString [0x0a])]).Valid :=
    ⟨@Identifier.Written.short 0x24 (by decide), .indefinite, ⟨rfl, .inl rfl⟩, by simp,
      List.forall_mem_singleton.2 rfl, ⟨hsegment, trivial⟩,
      fun _ => by simp [Unmarked, header, Identifier.octets]⟩
  have hvalid : ValidAll [container .sequence ⟨0x30, [], 16⟩ .marked
      [primitive ⟨0x0f, [], 15⟩ [0x01] (.unknown ⟨0x0f, [], 15⟩ [0x07]),
        skippedNull ⟨0x05, [], 5⟩ [0x07, 0x00, 0x00], taggedContent ⟨0x80, [], 0⟩ [0x01] [0x02],
        container .octetString ⟨0x24, [], 4⟩ .marked
          [primitive ⟨0x04, [], 4⟩ [0x01] (.octetString [0x0a])]]] :=
    ⟨⟨@Identifier.Written.short 0x30 (by decide), .indefinite, rfl, by simp, trivial,
      ⟨hunknown, hnull, htagged, hjoined, trivial⟩,
      fun _ => by simp [Unmarked, header, Identifier.octets]⟩, trivial⟩
  obtain ⟨journal, hdrain⟩ :=
    @drain_of_fitIn _ 22 2 [] hvalid ⟨by decide, by decide⟩
  obtain ⟨values, -, -, -, honly, -, hrecords, -⟩ := trace_of_drain hdrain
  -- the encodings that the octets were put together from are the ones in the trace
  obtain rfl := honly _ hvalid rfl
  exact ⟨_, hdrain, hrecords.trans (by decide)⟩

end Decoder
end Ber
