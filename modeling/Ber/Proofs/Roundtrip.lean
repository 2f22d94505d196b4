import Ber.Proofs.Choice
import Ber.Proofs.Grammar

/-!
# Ber.Proofs.Roundtrip — draining and encoding undo each other

For the values outside of all containers the two directions read:

* `drain_encoded`: whatever is written by the format is drained, with every limit that its lengths
  stay below, among them the number of octets and no limit at all;
* `encoded_of_drain`: whatever is drained was written by the format; its octets are determined by
  the elements and by what was open in writing them.
-/

namespace Ber

/-! ## Lengths have at most 31 bits -/

namespace Encoding

mutual

/-- The lengths that a limit applies to have at most 31 bits. -/
theorem lengths_lt_of_valid : (value : Encoding) → value.Valid → {count : Nat} →
    count ∈ lengths value → count < 0x80000000
  | uninterpreted .., hvalid, count, h => by
    rcases List.mem_singleton.1 h with rfl
    exact hvalid.2.1.below
  | primitive .., hvalid, count, h => by
    rcases List.mem_singleton.1 h with rfl
    exact hvalid.2.1.below
  | skippedNull .., _, count, h => absurd h List.not_mem_nil
  | taggedContent .., hvalid, count, h => by
    rcases List.mem_singleton.1 h with rfl
    exact hvalid.2.1.below
  | container _ _ (.definite _) values, hvalid, count, h => by
    rcases List.mem_singleton.1 h with rfl
    exact Length.Written.below hvalid.2.1
  | container _ _ .marked values, hvalid, count, h =>
    lengthsAll_lt_of_valid values hvalid.2.2.2.2.2.1 h

/-- The same for values in a row. -/
theorem lengthsAll_lt_of_valid : (values : List Encoding) → ValidAll values → {count : Nat} →
    count ∈ lengthsAll values → count < 0x80000000
  | [], _, count, h => absurd h List.not_mem_nil
  | value :: values, hvalid, count, h => by
    rcases List.mem_append.1 h with h | h
    · exact lengths_lt_of_valid value hvalid.1 h
    · exact lengthsAll_lt_of_valid values hvalid.2 h

end

end Encoding

/-! ## Outside of all containers -/

namespace Source

/-- Without open regions, octets end where the reader ends. -/
theorem endsAfter_top {c : Octets} {reader : Reader} {t : Source}
    (h : EndsAfter c ⟨[], reader⟩ t) :
    reader.octetsLeft = c ∧ t = ⟨[], ⟨[], reader.position + c.length⟩⟩ := by
  rcases h with ⟨u, hu, hend⟩
  have hregions : u.regions = [] := hu.regions
  have hpassing : u.Passing := by
    intro region hmem
    rw [hregions] at hmem
    cases hmem
  rcases (firstOctet?_eq_none_iff hpassing.ready).1 hend with ⟨-, hnone⟩ | ⟨hmarked, -⟩
  · rcases (octet?_eq_none_iff hpassing).1 hnone with ⟨-, htregions, hnext⟩ | ⟨hhead, -⟩
    · rcases Reader.nextFrom_eq_none hnext with ⟨hleft, hreader⟩
      have hoctets := hu.rest
      have hposition := hu.position
      simp only [Source.rest, Source.position, Source.watch] at hoctets hposition
      refine ⟨?_, ?_⟩
      · rw [hoctets, show u.reader.octetsLeft = [] from hleft, List.append_nil]
      · cases t
        simp_all
    · rw [hregions] at hhead
      cases hhead
  · rw [isMarked, hregions] at hmarked
    cases hmarked

end Source

namespace Decoder

open Encoding

/-- Valid encodings in a row that fit in are drained to their values, and all of them is read. -/
theorem drain_of_fitIn {values : List Encoding} {limit maxDepth : Nat} {journal : List Remark}
    (hvalid : ValidAll values) (hfits : FitIn values (Scope.top limit maxDepth)) :
    ∃ journal', drain (Scope.top limit maxDepth) ⟨Source.ofData (octetsAll values), journal⟩ =
      .ok (elements values) ⟨⟨[], ⟨[], (octetsAll values).length⟩⟩, journal'⟩ := by
  have hdelivers : Reader.Delivers (octetsAll values) (Reader.ofData (octetsAll values))
      ⟨[], (octetsAll values).length⟩ := by
    simpa [Reader.ofData] using Reader.delivers_ofData (octetsAll values) [] 0
  have hends : Source.EndsAfter (octetsAll values) (Source.ofData (octetsAll values))
      ⟨[], ⟨[], (octetsAll values).length⟩⟩ :=
    ⟨⟨[], ⟨[], (octetsAll values).length⟩⟩, ⟨hdelivers, rfl, fun r hr => nomatch hr⟩, rfl⟩
  have hready : (Source.ofData (octetsAll values)).Ready := fun r hr => nomatch hr
  have hwritten : Source.WrittenAll (Scope.top limit maxDepth) values
      (Source.ofData (octetsAll values)) ⟨[], ⟨[], (octetsAll values).length⟩⟩ :=
    { valid := hvalid, unmarked := fun h => Bool.noConfusion h, fits := hfits, ends := hends }
  exact (silent_drain _).eq_ok_iff.1 (Source.elementsFrom_complete values hready hwritten)

/-- Draining what is written by the format gives the values written and reads all of it. The limit
may be the number of octets, none, or any other that the lengths outside of definite values stay
below. -/
theorem drain_encoded {values : List Encoding} {limit maxDepth : Nat} {journal : List Remark}
    (hvalid : ValidAll values) (hnesting : nestingAll values ≤ maxDepth)
    (hlimit : limit = (octetsAll values).length ∨ limit = Scope.noLimit ∨
      ∀ length ∈ lengthsAll values, length < limit) :
    ∃ journal', drain (Scope.top limit maxDepth) ⟨Source.ofData (octetsAll values), journal⟩ =
      .ok (elements values) ⟨⟨[], ⟨[], (octetsAll values).length⟩⟩, journal'⟩ := by
  -- each of the three kinds of limit is above the lengths that it applies to
  have hlengths : ∀ length ∈ lengthsAll values, length < limit := by
    intro length hmem
    rcases hlimit with rfl | rfl | h
    · exact lt_of_mem_lengthsAll values hmem
    · exact Nat.lt_trans (lengthsAll_lt_of_valid values hvalid hmem) (by decide)
    · exact h length hmem
  have hdepth : (Scope.top limit maxDepth).depth + nestingAll values ≤ maxDepth := by
    simpa [Scope.top] using hnesting
  exact drain_of_fitIn hvalid ⟨hlengths, hdepth⟩

/-- A sequence of indefinite length whose integer has a long length. -/
theorem drain_encoded_sequence :
    ∃ journal', drain Scope.top ⟨.ofData [0x30, 0x80, 0x02, 0x81, 0x01, 0x05, 0x00, 0x00], []⟩ =
      .ok [.sequence [.primitive (.integer ⟨[0x05]⟩)]] ⟨⟨[], ⟨[], 8⟩⟩, journal'⟩ := by
  have hinteger : (primitive ⟨0x02, [], 2⟩ [0x81, 0x01] (.integer ⟨[0x05]⟩)).Valid :=
    ⟨@Identifier.Written.short 0x02 (by decide),
      @Length.Written.long 0x81 [0x01] (by decide) (by decide) (by decide) (by decide), rfl⟩
  have hunmarked : Unmarked [primitive ⟨0x02, [], 2⟩ [0x81, 0x01] (.integer ⟨[0x05]⟩)] := by
    simp [Unmarked, header, Identifier.octets]
  exact @drain_encoded
    [container .sequence ⟨0x30, [], 16⟩ .marked
      [primitive ⟨0x02, [], 2⟩ [0x81, 0x01] (.integer ⟨[0x05]⟩)]]
    Scope.noLimit Scope.defaultMaxDepth []
    ⟨⟨@Identifier.Written.short 0x30 (by decide), .indefinite, rfl, by simp, trivial,
      ⟨hinteger, trivial⟩, fun _ => hunmarked⟩, trivial⟩ (by decide) (.inr (.inl rfl))

/-- Whatever is drained is written from where draining starts, and nothing is left behind it. -/
theorem writtenAll_of_drain {limit maxDepth : Nat} {reader : Reader} {journal : List Remark}
    {drained : List Element} {decoder : Decoder}
    (h : drain (Scope.top limit maxDepth) ⟨⟨[], reader⟩, journal⟩ = .ok drained decoder) :
    ∃ values, Source.WrittenAll (Scope.top limit maxDepth) values ⟨[], reader⟩ decoder.source ∧
      elements values = drained ∧ octetsAll values = reader.octetsLeft ∧
      decoder.source = ⟨[], ⟨[], reader.position + reader.octetsLeft.length⟩⟩ := by
  have hdrained : Source.elementsFrom (Scope.top limit maxDepth) [] ⟨[], reader⟩ =
      .ok drained decoder.source := by
    rw [← silent_drain (Scope.top limit maxDepth) ⟨[], reader⟩ journal, h]
    rfl
  have hready : Source.Ready ⟨[], reader⟩ := fun r hr => nomatch hr
  obtain ⟨values, hwritten, rfl⟩ :=
    Source.elementsFrom_sound hready (show (Scope.top limit maxDepth).depth ≤ _ from Nat.zero_le _)
      hdrained
  rcases Source.endsAfter_top hwritten.ends with ⟨hoctets, hsource⟩
  refine ⟨values, hwritten, rfl, hoctets.symm, ?_⟩
  rw [hsource, hoctets]

/-- Whatever is drained is a row of valid encodings that fit in, and nothing is left behind them. -/
theorem written_of_drain {limit maxDepth : Nat} {reader : Reader} {journal : List Remark}
    {drained : List Element} {decoder : Decoder}
    (h : drain (Scope.top limit maxDepth) ⟨⟨[], reader⟩, journal⟩ = .ok drained decoder) :
    ∃ values, ValidAll values ∧ FitIn values (Scope.top limit maxDepth) ∧
      elements values = drained ∧ octetsAll values = reader.octetsLeft ∧
      decoder.source = ⟨[], ⟨[], reader.position + reader.octetsLeft.length⟩⟩ := by
  obtain ⟨values, hwritten, hdrained⟩ := writtenAll_of_drain h
  exact ⟨values, hwritten.valid, hwritten.fits, hdrained⟩

/-- Whatever is drained was written by the format, from the first octet to the last: the elements
are the values of valid encodings in a row, whose lengths stay below the limit and which are not
nested deeper than allowed. Nothing is left behind them. The octets are determined by the elements
and by what was open in writing them. -/
theorem encoded_of_drain {limit maxDepth : Nat} {reader : Reader} {journal : List Remark}
    {drained : List Element} {decoder : Decoder}
    (h : drain (Scope.top limit maxDepth) ⟨⟨[], reader⟩, journal⟩ = .ok drained decoder) :
    ∃ values, ValidAll values ∧ octetsAll values = reader.octetsLeft ∧
      elements values = drained ∧ (∀ length ∈ lengthsAll values, length < limit) ∧
      nestingAll values ≤ maxDepth ∧
      decoder.source = ⟨[], ⟨[], reader.position + reader.octetsLeft.length⟩⟩ ∧
      ∀ others, ValidAll others → elements others = drained → choices others = choices values →
        octetsAll others = reader.octetsLeft := by
  obtain ⟨values, hvalid, ⟨hlengths, hnesting⟩, rfl, hoctets, hsource⟩ := written_of_drain h
  refine ⟨values, hvalid, hoctets, rfl, hlengths, by simpa [Scope.top] using hnesting, hsource, ?_⟩
  intro others hothers helements hchoices
  rw [← hoctets, octetsAll_eq others values hothers hvalid helements hchoices]

/-- A sequence of indefinite length with a value of application class whose number is padded, a NULL
in which an octet is skipped, and a bit string of four bits. -/
theorem encoded_of_drain_sequence :
    ∃ drained decoder values, drained = [.sequence [.uninterpreted ⟨0x5f, [0x80, 0x01], 1⟩ [0x0a],
        .primitive .null, .primitive (.bitString ⟨4, [0xf0], by decide, by decide⟩)]] ∧
      drain (Scope.top 18 1) ⟨Source.ofData [0x30, 0x80, 0x5f, 0x80, 0x01, 0x01, 0x0a, 0x05, 0x80,
        0x07, 0x00, 0x00, 0x03, 0x02, 0x04, 0xf0, 0x00, 0x00], []⟩ = .ok drained decoder ∧
      ValidAll values ∧ octetsAll values = [0x30, 0x80, 0x5f, 0x80, 0x01, 0x01, 0x0a, 0x05, 0x80,
        0x07, 0x00, 0x00, 0x03, 0x02, 0x04, 0xf0, 0x00, 0x00] ∧
      elements values = drained ∧ (∀ length ∈ lengthsAll values, length < 18) ∧
      nestingAll values ≤ 1 ∧ decoder.source = ⟨[], ⟨[], 18⟩⟩ ∧
      ∀ others, ValidAll others → elements others = drained → choices others = choices values →
        octetsAll others = [0x30, 0x80, 0x5f, 0x80, 0x01, 0x01, 0x0a, 0x05, 0x80,
          0x07, 0x00, 0x00, 0x03, 0x02, 0x04, 0xf0, 0x00, 0x00] := by
  have hdrain : drain (Scope.top 18 1) ⟨Source.ofData [0x30, 0x80, 0x5f, 0x80, 0x01, 0x01, 0x0a,
        0x05, 0x80, 0x07, 0x00, 0x00, 0x03, 0x02, 0x04, 0xf0, 0x00, 0x00], []⟩ =
      .ok [.sequence [.uninterpreted ⟨0x5f, [0x80, 0x01], 1⟩ [0x0a], .primitive .null,
          .primitive (.bitString ⟨4, [0xf0], by decide, by decide⟩)]]
        ⟨⟨[], ⟨[], 18⟩⟩, [.drained 1 18, .endOfContent 18, .drained 3 18, .endOfContent 18,
          .header ⟨0x03, [], 3⟩ (.definite 2) 14, .indefiniteNull 12,
          .header ⟨0x05, [], 5⟩ .indefinite 9, .header ⟨0x5f, [0x80, 0x01], 1⟩ (.definite 1) 6,
          .header ⟨0x30, [], 16⟩ .indefinite 2]⟩ := by decide +kernel
  obtain ⟨values, hencoded⟩ := encoded_of_drain hdrain
  exact ⟨_, _, values, rfl, hdrain, hencoded⟩

end Decoder
end Ber
