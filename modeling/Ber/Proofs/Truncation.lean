import Ber.Proofs.Extending
import Ber.Proofs.Roundtrip
import Ber.Proofs.Unambiguous

/-!
# Ber.Proofs.Truncation — what is cut off is missed

Octets that are drained are cut off somewhere. Between two values the cut cannot be told from the end
of the data, and the values in front of it are drained. Everywhere else draining fails at the cut,
because the octets end too early.

1. A value that is cut off within its octets is not read: with the rest behind it, it is
   (`Source.nextElement_complete`), so it would be read to the end of the shorter octets and no
   further, unless that is where reading fails (`Source.nextElement_cut`).
2. `Source.elementsFrom_cut` drains values up to the one that is cut off, and `Decoder.drain_of_cut`
   says so of whatever is drained.
-/

namespace Ber

/-! ## Where values begin -/

namespace Encoding

variable {value : Encoding} {values others : List Encoding}

/-- No value is written in no octets. -/
theorem octets_ne_nil (value : Encoding) : value.octets ≠ [] := by
  cases value <;> simp [octets, Identifier.octets]

/-- Octets can be taken for values in a row in one way only. -/
theorem map_octets_unique (hvalues : ValidAll values) (hothers : ValidAll others)
    (h : octetsAll others = octetsAll values) : others.map octets = values.map octets := by
  induction values generalizing others with
  | nil =>
    cases others with
    | nil => rfl
    | cons other others =>
      simp only [octetsAll, List.append_eq_nil_iff] at h
      exact absurd h.1 (octets_ne_nil other)
  | cons value values ih =>
    cases others with
    | nil =>
      have hempty : octets value ++ octetsAll values = [] := h.symm
      exact absurd (List.append_eq_nil_iff.1 hempty).1 (octets_ne_nil value)
    | cons other others =>
      simp only [octetsAll] at h
      have hfirst : octets other = octets value := octets_unique hothers.1 hvalues.1 h
      rw [hfirst] at h
      have hrest := ih hvalues.2 hothers.2 (List.append_cancel_left h)
      rw [List.map_cons, List.map_cons, hfirst, hrest]

end Encoding

/-! ## Values that are cut off -/

namespace Source

open Encoding

variable {scope : Scope} {value : Encoding} {values : List Encoding} {c e : Octets} {place k : Nat}

/-- A source with no region open, at a place of the data with octets behind it. -/
def bare (octets : Octets) (place : Nat) : Source := ⟨[], ⟨octets.map .octet, place⟩⟩

theorem bare_extend : (bare c place).extend (e.map .octet) = bare (c ++ e) place := by
  simp [bare, extend]

theorem bare_ready (c : Octets) (place : Nat) : (bare c place).Ready := fun _ hmem => nomatch hmem

theorem bare_rest (c : Octets) (place : Nat) : (bare c place).rest = c := by
  simp [bare, rest, Reader.octetsLeft, List.filterMap_map, Function.comp_def, Arrival.octet?]

/-- A value that stands in front of octets is read as a whole. -/
theorem nextElement_complete (hvalid : value.Valid) (hfits : FitIn [value] scope) :
    nextElement scope (bare (value.octets ++ e) place) =
      .ok (some value.element) (bare e (place + value.octets.length)) := by
  have hdelivers : Delivers value.octets (bare (value.octets ++ e) place)
      (bare e (place + value.octets.length)) :=
    ⟨Reader.delivers_ofData value.octets e place, rfl, fun _ hmem => nomatch hmem⟩
  have hwritten : Written scope value (bare (value.octets ++ e) place)
      (bare e (place + value.octets.length)) :=
    ⟨hvalid, (fun hmarked => nomatch hmarked), hfits, hdelivers⟩
  obtain ⟨item, m, hnext, helement⟩ := element_complete value (bare_ready _ _) hwritten
  exact Action.bind_eq_ok.2
    ⟨some item, m, hnext, Action.bind_eq_ok.2 ⟨value.element, _, helement, rfl⟩⟩

/-- Where there is an octet, a value is looked for. -/
theorem next_bare_ne_none (hc : c ≠ []) (t : Source) : next scope (bare c place) ≠ .ok none t := by
  intro hnone
  have hended : firstOctet? (bare c place) = .ok none t := next_eq_none_iff.1 hnone
  cases c with
  | nil => exact hc rfl
  | cons octet octets => cases hended

/-- A value that is cut off within its octets is missed at the cut. -/
theorem nextElement_cut (hvalid : value.Valid) (hfits : FitIn [value] scope) (hpos : 0 < k)
    (hless : k < value.octets.length) :
    ∃ after, nextElement scope (bare (value.octets.take k) place) =
      .error ⟨.truncated, place + k⟩ after := by
  have hcount : (value.octets.take k).length = k := by
    rw [List.length_take]
    omega
  have hfront : value.octets.take k ≠ [] := by
    intro hempty
    rw [hempty, List.length_nil] at hcount
    omega
  have hbehind : (value.octets.drop k).map Arrival.octet ≠ [] := by
    intro hempty
    have hlength := congrArg List.length hempty
    rw [List.length_map, List.length_drop, List.length_nil] at hlength
    omega
  have hsettled : (bare (value.octets.take k) place).Settled := .inl (bare_ready _ _)
  have hunaffected : Unaffected ((value.octets.drop k).map .octet) (nextElement scope)
      (bare (value.octets.take k) place) :=
    nextElement_unaffected hsettled fun _ => next_bare_ne_none hfront
  -- with the rest behind it, the value is read to its end
  have hlonger : nextElement scope ((bare (value.octets.take k) place).extend
      ((value.octets.drop k).map .octet)) =
        .ok (some value.element) (bare [] (place + value.octets.length)) := by
    have hcomplete := @nextElement_complete scope value [] place hvalid hfits
    rw [List.append_nil] at hcomplete
    rw [bare_extend, List.take_append_drop]
    exact hcomplete
  obtain ⟨failure, after, hfailed, hcut⟩ := hunaffected.cutOff hbehind hlonger rfl
  obtain ⟨c, hc⟩ := nextElement_proceeds scope _ hsettled
  rw [hfailed] at hc
  have hfailure := hcut.eq hc
  rw [bare_rest, hcount] at hfailure
  refine ⟨after, ?_⟩
  rw [hfailed, hfailure]
  rfl

/-! ## Values in a row that are cut off -/

/-- What draining values leads to that are cut off at an offset: if a value begins there, or the
values end, those in front of it are drained. -/
def CutAt (values : List Encoding) (place offset : Nat) :
    EStateM.Result Failure Source (List Element) → Prop
  | .ok taken after => ∃ done pending, values = done ++ pending ∧
    (octetsAll done).length = offset ∧ taken = elements done ∧ after = bare [] (place + offset)
  | .error failure _ => failure = ⟨.truncated, place + offset⟩ ∧
    ∀ done pending, values = done ++ pending → (octetsAll done).length ≠ offset

/-- Behind a value, the next ones are cut off. -/
theorem CutAt.cons {result : EStateM.Result Failure Source (List Element)} :
    CutAt values (place + value.octets.length) k result →
    CutAt (value :: values) place (value.octets.length + k)
      (match result with
      | .ok rest t => .ok (value.element :: rest) t
      | .error failure t => .error failure t) := by
  intro h
  have hplace : place + value.octets.length + k = place + (value.octets.length + k) := by omega
  cases result with
  | ok taken after =>
    obtain ⟨done, pending, hvalues, hlength, htaken, hafter⟩ := h
    refine ⟨value :: done, pending, ?_, ?_, ?_, ?_⟩
    · rw [hvalues, List.cons_append]
    · rw [octetsAll, List.length_append, hlength]
    · rw [htaken]
      rfl
    · rw [hafter, hplace]
  | error failure after =>
    obtain ⟨hfailure, hbetween⟩ := h
    refine ⟨?_, ?_⟩
    · rw [hfailure, hplace]
    · intro done pending hvalues hlength
      cases done with
      | nil =>
        -- no value begins where the first one does, and so far behind it
        rw [octetsAll, List.length_nil] at hlength
        have hpos := List.length_pos_iff.2 (octets_ne_nil value)
        omega
      | cons first done =>
        obtain ⟨rfl, hrest⟩ := List.cons.inj hvalues
        rw [octetsAll, List.length_append] at hlength
        exact hbetween done pending hrest (by omega)

/-- Values in a row are drained up to the one that is cut off. -/
theorem elementsFrom_cut (hvalid : ValidAll values) (hfits : FitIn values scope)
    (hle : k ≤ (octetsAll values).length) :
    CutAt values place k (elementsFrom scope [] (bare ((octetsAll values).take k) place)) := by
  have hended : ∀ place, elementsFrom scope [] (bare [] place) = .ok [] (bare [] place) :=
    fun place => elementsFrom_eq_ok_iff.2 (.inl ⟨rfl, next_eq_none_iff.2 rfl⟩)
  induction values generalizing place k with
  | nil =>
    have hzero : k = 0 := Nat.le_zero.1 hle
    subst hzero
    show CutAt [] place 0 (elementsFrom scope [] (bare [] place))
    rw [hended]
    exact ⟨[], [], rfl, rfl, rfl, rfl⟩
  | cons value values ih =>
    obtain ⟨hfit, hfitAll⟩ := fitIn_cons.1 hfits
    rw [octetsAll, List.length_append] at hle
    by_cases hzero : k = 0
    · subst hzero
      rw [List.take_zero, hended]
      exact ⟨[], value :: values, rfl, rfl, rfl, rfl⟩
    by_cases hless : k < value.octets.length
    · -- the cut is within the first value
      have htake : (octetsAll (value :: values)).take k = value.octets.take k := by
        rw [octetsAll, List.take_append_of_le_length (Nat.le_of_lt hless)]
      obtain ⟨after, hcut⟩ :=
        @nextElement_cut scope value place k hvalid.1 hfit (Nat.pos_of_ne_zero hzero) hless
      rw [htake, elementsFrom_nextElement, hcut]
      refine ⟨rfl, ?_⟩
      intro done pending hvalues hlength
      cases done with
      | nil => exact hzero hlength.symm
      | cons first done =>
        obtain ⟨rfl, -⟩ := List.cons.inj hvalues
        rw [octetsAll, List.length_append] at hlength
        omega
    · -- the first value is read, and the cut is behind it
      obtain ⟨offset, rfl⟩ : ∃ offset, k = value.octets.length + offset :=
        ⟨k - value.octets.length, by omega⟩
      have htake : (octetsAll (value :: values)).take (value.octets.length + offset) =
          value.octets ++ (octetsAll values).take offset := by
        rw [octetsAll, List.take_length_add_append]
      have hrest : offset ≤ (octetsAll values).length := by omega
      rw [htake, elementsFrom_nextElement, nextElement_complete hvalid.1 hfit]
      exact CutAt.cons (ih hvalid.2 hfitAll hrest)

end Source

namespace Decoder

open Encoding

/-- Whatever is drained is a row of values, whose bounds the octets determine. If the octets are cut
off where a value begins, the values in front of it are drained, and nothing is left. If they are cut
off anywhere else, draining fails at the cut, because the octets end too early. -/
theorem drain_of_cut {limit maxDepth : Nat} {data : Octets} {journal : List Remark}
    {drained : List Element} {decoder : Decoder}
    (h : drain (Scope.top limit maxDepth) ⟨.ofData data, journal⟩ = .ok drained decoder) :
    ∃ values, ValidAll values ∧ octetsAll values = data ∧ elements values = drained ∧
      (∀ others, ValidAll others → octetsAll others = data →
        others.map octets = values.map octets) ∧
      ∀ k journal', k < data.length →
        match drain (Scope.top limit maxDepth) ⟨.ofData (data.take k), journal'⟩ with
        | .ok taken after => ∃ done value pending, values = done ++ value :: pending ∧
          (octetsAll done).length = k ∧ taken = elements done ∧ after.source = ⟨[], ⟨[], k⟩⟩
        | .error failure _ => failure = ⟨.truncated, k⟩ ∧
          ∀ done pending, values = done ++ pending → (octetsAll done).length ≠ k := by
  obtain ⟨values, hvalid, hfits, helements, hoctets, -⟩ := written_of_drain h
  have hdata : (Reader.ofData data).octetsLeft = data := Source.bare_rest data 0
  rw [hdata] at hoctets
  refine ⟨values, hvalid, hoctets, helements, ?_, ?_⟩
  · intro others hothers hsame
    exact map_octets_unique hvalid hothers (hsame.trans hoctets.symm)
  · intro k journal' hless
    have hcut : Source.CutAt values 0 k
        (Source.elementsFrom (Scope.top limit maxDepth) [] (.ofData (data.take k))) := by
      rw [← hoctets] at hless ⊢
      exact Source.elementsFrom_cut hvalid hfits (Nat.le_of_lt hless)
    rw [← silent_drain (Scope.top limit maxDepth) (.ofData (data.take k)) journal'] at hcut
    cases hrun : drain (Scope.top limit maxDepth) ⟨.ofData (data.take k), journal'⟩ with
    | ok taken after =>
      rw [hrun] at hcut
      obtain ⟨done, pending, rfl, hlength, htaken, hafter⟩ := hcut
      rw [Nat.zero_add] at hafter
      cases pending with
      | nil =>
        rw [List.append_nil] at hoctets
        rw [← hoctets, hlength] at hless
        exact absurd hless (Nat.lt_irrefl k)
      | cons value pending => exact ⟨done, value, pending, rfl, hlength, htaken, hafter⟩
    | error failure after =>
      rw [hrun] at hcut
      obtain ⟨hfailure, hbetween⟩ := hcut
      rw [Nat.zero_add] at hfailure
      exact ⟨hfailure, hbetween⟩

/-- Two NULLs in a row. Cut off in between, the first one is drained; cut off within the second one,
the octets end too early. -/
theorem drain_of_cut_nulls :
    ∃ values, ValidAll values ∧ octetsAll values = [0x05, 0x00, 0x05, 0x00] ∧
      elements values = [.primitive .null, .primitive .null] ∧
      (∃ done value pending, values = done ++ value :: pending ∧ (octetsAll done).length = 2 ∧
        [.primitive .null] = elements done) ∧
      ∀ done pending, values = done ++ pending → (octetsAll done).length ≠ 3 := by
  have hdrained : ∃ decoder, drain (Scope.top 4 128) ⟨.ofData [0x05, 0x00, 0x05, 0x00], []⟩ =
      .ok [.primitive .null, .primitive .null] decoder := ⟨_, rfl⟩
  obtain ⟨decoder, hdrained⟩ := hdrained
  obtain ⟨values, hvalid, hoctets, helements, -, hcuts⟩ := drain_of_cut hdrained
  have hbetween := hcuts 2 [] (by decide)
  have hwithin := hcuts 3 [] (by decide)
  obtain ⟨done, value, pending, hvalues, hlength, htaken, -⟩ := hbetween
  obtain ⟨-, hinside⟩ := hwithin
  exact ⟨values, hvalid, hoctets, helements, ⟨done, value, pending, hvalues, hlength, htaken⟩,
    hinside⟩

end Decoder
end Ber
