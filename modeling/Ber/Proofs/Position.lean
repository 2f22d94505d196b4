import Ber.Proofs.Ledger

/-!
# Ber.Proofs.Position — where operations leave a session

Whatever is asked of a session, its position tells which octets are still to come, and the open
regions count them.

1. `Ledger.record` is what an operation does to the ledger, and `Session.Reaches` says which
   sessions a new one becomes by operations that do not fail.
2. What one operation keeps (`Session.accounted_perform`) holds of every session that is reached
   (`Session.accounted_of_reaches`).
3. `Session.exact_of_reaches`: no octet is lost or read twice, and a container that is read to its
   end is read exactly. An indefinite one is only if the containers given up inside it had been read
   to their end: what is left of one that had not is taken for its own
   (`Session.left_inside_marked`).
-/

namespace Ber

open Encoding Source

namespace Ledger

@[simp] theorem length_note (intact : Bool) (ledger : Ledger) :
    (ledger.note intact).length = ledger.length := by
  cases ledger <;> rfl

/-- Takes the innermost container out and notes in the one around it whether it was read to its end,
which is asked of the container. -/
def giveUp (intact : Opening → Bool) : Ledger → Ledger
  | [] => []
  | opening :: ledger => Ledger.note (intact opening) ledger

/-- The ledger after an operation that led from a session to a source. -/
def record (operation : Operation) (reply : Reply) (before : Session) (after : Source)
    (ledger : Ledger) : Ledger :=
  match reply with
  | .item (.container _) =>
    match after.regions.head? with
    | some region => ⟨before.decoder.source.position, after.position, region, true⟩ :: ledger
    | none => ledger
  | .dropped =>
    match before.found? with
    | some region => ledger.note region.isSpent
    | none => ledger
  | .left =>
    match before.decoder.source.regions.head? with
    | some now => ledger.giveUp (·.intact now)
    | none => ledger
  | .element _ => if operation = .finish then ledger.giveUp Opening.clean else ledger
  | _ => ledger

end Ledger

namespace Session

/-- A session on what a reader meets, with nothing read and no container open. -/
def fresh (arrivals : List Arrival) (limit maxDepth : Nat) : Session where
  decoder := ⟨⟨[], ⟨arrivals, 0⟩⟩, []⟩
  top := Scope.top limit maxDepth

/-- The number of octets delivered so far. -/
def position (session : Session) : Nat := session.decoder.source.position

/-- What operations that do not fail make of a session, with the ledger kept beside it. -/
inductive Reaches (first : Session) : Session → Ledger → Prop where
  | first : Reaches first first []
  | step {session after : Session} {ledger : Ledger} {operation : Operation} {reply : Reply}
    (hreaches : Reaches first session ledger)
    (hperform : perform operation session = .ok reply after) :
    Reaches first after (ledger.record operation reply session after.decoder.source)

variable {data : Octets} {session after : Session} {ledger : Ledger} {operation : Operation}
  {reply : Reply}

/-! ## What operations keep -/

/-- A session is accounted for: its source and the ledger agree with the data, the ledger is that of
its open containers, and none of them is nested too deep. -/
structure Accounted (data : Octets) (session : Session) (ledger : Ledger) : Prop where
  kept : ledger.Kept data session.decoder.source
  opened : session.opened.length = ledger.length
  depths : ∀ container ∈ session.opened, container.scope.depth ≤ container.scope.maxDepth
  top : session.top.depth = 0

/-- The values that a session acts on are not nested too deep. -/
theorem Accounted.depth (h : Accounted data session ledger) :
    session.current.depth ≤ session.current.maxDepth := by
  rcases session with ⟨decoder, top, opened⟩
  cases opened with
  | nil =>
    have hzero : top.depth = 0 := h.top
    simp [current, hzero]
  | cons container below => exact h.depths container List.mem_cons_self

theorem Accounted.depth_of_opened {container : Container} {below : List Container}
    (h : Accounted data session ledger) (hopened : session.opened = container :: below) :
    container.scope.depth ≤ container.scope.maxDepth :=
  h.depths container (by rw [hopened]; exact List.mem_cons_self)

/-- Giving up the innermost container, once reading in it has led to a source. -/
theorem Accounted.gives_up {container : Container} {below : List Container} {source : Source}
    (h : Accounted data session ledger) (hopened : session.opened = container :: below)
    (hkept : ledger.Kept data source) :
    ∃ (opening : Opening) (outer : Ledger) (now : Region), ledger = opening :: outer ∧
      source.regions.head? = some now ∧
      (outer.note (opening.intact now)).Kept data source.leave ∧
      below.length = (outer.note (opening.intact now)).length ∧
      ∀ container ∈ below, container.scope.depth ≤ container.scope.maxDepth := by
  have hlength := h.opened
  have hdepths := h.depths
  rw [hopened] at hlength hdepths
  cases ledger with
  | nil => cases hlength
  | cons opening outer =>
    rcases hkept.innermost with ⟨now, regions, hregions, -⟩
    have hnow : source.regions.head? = some now := by rw [hregions]; rfl
    refine ⟨opening, outer, now, rfl, hnow, hkept.leaves hnow, ?_,
      (List.forall_mem_cons.1 hdepths).2⟩
    rw [Ledger.length_note]
    exact Nat.succ.inj hlength

/-- A value that is no container leaves the ledger as it is. -/
theorem record_of_taken {item : Item} {source : Source} (hitem : item.isContainer = false)
    (hfound : session.found? = none) (hreply : reply = .item item ∨ reply = .dropped) :
    ledger.record operation reply session source = ledger := by
  rcases hreply with rfl | rfl
  · cases item with
    | container container => cases hitem
    | uninterpreted identifier content => rfl
    | primitive value => rfl
  · simp [Ledger.record, hfound]

/-- What a move does to the source, the ledger follows. -/
theorem kept_of_moves {source : Source} {opened : List Container}
    (h : Accounted data session ledger) (hmoves : Moves session operation reply source opened) :
    (ledger.record operation reply session source).Kept data source ∧
      opened.length = (ledger.record operation reply session source).length ∧
      ∀ container ∈ opened, container.scope.depth ≤ container.scope.maxDepth := by
  have hkept := h.kept
  have hsettled := hkept.settled
  cases hmoves with
  | still hreply =>
    have hrecord : ledger.record operation reply session session.decoder.source = ledger := by
      cases reply <;> first | rfl | cases hreply
    rw [hrecord]
    exact ⟨hkept, h.opened, h.depths⟩
  | exhausted hnext =>
    exact ⟨hkept.finishes (next_finishes hsettled h.depth hnext), h.opened, h.depths⟩
  | @taken _ _ item _ hnext hitem hfound hreply =>
    -- a value without parts is taken as a whole when it is met
    have helement : ∃ element, Source.element item source = .ok element source := by
      cases item with
      | container container => cases hitem
      | uninterpreted identifier content => exact ⟨_, rfl⟩
      | primitive value => exact ⟨_, rfl⟩
    rcases helement with ⟨element, helement⟩
    obtain ⟨value, hs, ht, hvalid, hheader, hadvances⟩ :=
      element_advances hsettled h.depth hnext helement
    rw [record_of_taken hitem hfound hreply]
    exact ⟨hkept.value hs ht hvalid hheader hadvances, h.opened, h.depths⟩
  | opened hnext =>
    obtain ⟨identifier, extent, count, limit, u, hs, hheaded, hnamed, hu, rfl, hdepth⟩ :=
      next_container hsettled hnext
    refine ⟨hkept.opens hs hu hheaded hnamed, ?_, List.forall_mem_cons.2 ⟨hdepth, h.depths⟩⟩
    exact congrArg (· + 1) h.opened
  | dropped hnext hfound =>
    obtain ⟨identifier, extent, count, limit, u, hs, hheaded, hnamed, hu, rfl, hdepth⟩ :=
      next_container hsettled hnext
    -- opened and given up at once
    have hopens := hkept.opens hs hu hheaded hnamed
    have hrecord : ledger.record operation .dropped session (u.enter (extent.region count)).leave =
        ledger.note (extent.region count).isSpent := by
      simp [Ledger.record, hfound, enter]
    have hintact : (⟨session.decoder.source.position, u.position, extent.region count, true⟩ :
        Opening).intact (extent.region count) = (extent.region count).isSpent := by
      simp [Opening.intact, Opening.clean]
    rw [hrecord, ← hintact]
    refine ⟨hopens.leaves rfl, ?_, h.depths⟩
    rw [Ledger.length_note, h.opened]
  | element hnext helement =>
    obtain ⟨value, hs, ht, hvalid, hheader, hadvances⟩ :=
      element_advances hsettled h.depth hnext helement
    exact ⟨hkept.value hs ht hvalid hheader hadvances, h.opened, h.depths⟩
  | drained helements =>
    exact ⟨hkept.finishes (elementsFrom_finishes hsettled h.depth helements), h.opened, h.depths⟩
  | content hopened hcontent =>
    exact ⟨hkept.finishes (remainder_finishes hsettled hcontent), h.opened, h.depths⟩
  | joined hopened hjoined =>
    exact ⟨hkept.finishes (joinedFrom_finishes hsettled h.depth hjoined), h.opened, h.depths⟩
  | @finished element source container below hopened hcontents =>
    have hfinishes := contents_finishes hsettled (h.depth_of_opened hopened) hcontents
    obtain ⟨opening, outer, now, rfl, hnow, hafter, hlength, hdepths⟩ :=
      h.gives_up hopened (hkept.finishes hfinishes)
    have hrecord : Ledger.record .finish (.element element) session source.leave
        (opening :: outer) = outer.note (opening.intact now) := by
      simp [Ledger.record, Ledger.giveUp, Opening.intact, hfinishes.atEnd now hnow]
    rw [hrecord]
    exact ⟨hafter, hlength, hdepths⟩
  | left hopened =>
    rcases h.gives_up hopened hkept with ⟨opening, outer, now, rfl, hnow, hafter, hlength, hdepths⟩
    have hrecord : Ledger.record .leave .left session session.decoder.source.leave
        (opening :: outer) = outer.note (opening.intact now) := by
      simp [Ledger.record, Ledger.giveUp, hnow]
    rw [hrecord]
    exact ⟨hafter, hlength, hdepths⟩

/-- What an operation that does not fail does, the ledger follows. -/
theorem accounted_perform (h : Accounted data session ledger)
    (hperform : perform operation session = .ok reply after) :
    Accounted data after (ledger.record operation reply session after.decoder.source) := by
  rcases perform_moves hperform with ⟨hmoves, -, htop⟩
  rcases kept_of_moves h hmoves with ⟨hkept, hopened, hdepths⟩
  exact ⟨hkept, hopened, hdepths, htop.trans h.top⟩

/-- Every session that a new one becomes is accounted for. -/
theorem accounted_of_reaches {arrivals : List Arrival} {limit maxDepth : Nat}
    (h : Reaches (fresh arrivals limit maxDepth) session ledger) :
    Accounted (arrivals.filterMap Arrival.octet?) session ledger := by
  induction h with
  | first =>
    refine ⟨⟨.inl fun _ hmem => absurd hmem List.not_mem_nil, rfl, .nil, ?_, trivial⟩, rfl, ?_, rfl⟩
    · exact fun _ hmem => absurd hmem List.not_mem_nil
    · exact fun _ hmem => absurd hmem List.not_mem_nil
  | step _ hperform ih => exact accounted_perform ih hperform

/-! ## The position -/

/-- Whether an operation with this reply has read the innermost container to its end. -/
def consumes : Operation → Reply → Bool
  | .finish, .element _ => true
  | _, .exhausted | _, .elements _ | _, .content _ | _, .joined _ => true
  | _, _ => false

/-- The position of a session is exact. -/
structure Exact (data : Octets) (session : Session) (ledger : Ledger) : Prop where
  /-- No open region holds an octet read ahead. -/
  ahead : ∀ region ∈ session.decoder.source.regions, region.ahead = 0
  /-- The containers of the ledger are the open ones, and the definite ones end where their length
  says: what they have left is what is missing to there. -/
  counted : List.Forall₂ (fun opening region => region.isMarked = opening.region.isMarked ∧
      ∀ length, opening.region = .definite length → ∃ remaining, region = .definite remaining ∧
        opening.start + length = session.position + remaining)
    ledger session.decoder.source.regions
  /-- What is still to come is the data behind the position: none of it was lost or read twice. -/
  rest : session.decoder.source.rest = data.drop session.position
  /-- A container that is given up leaves to the one around it what it has not read. -/
  left : ∀ after, perform .leave session = .ok .left after →
    after.position = session.position ∧ after.decoder.source.rest = data.drop session.position
  /-- A value that is taken as a whole is read exactly. -/
  element : ∀ element after, perform .element session = .ok (.element element) after →
    ∀ value rest, Encoding.Valid value → data.drop session.position = value.octets ++ rest →
      after.position = session.position + value.octets.length
  /-- A container that is read to its end is read exactly, with its marker if it has one. -/
  consumed : ∀ operation reply after opening outer, ledger = opening :: outer → opening.clean →
    perform operation session = .ok reply after → consumes operation reply →
    ∀ value rest, Encoding.Valid value → data.drop opening.begins = value.octets ++ rest →
      after.position = opening.begins + value.octets.length

/-- The open regions count the octets that are missing to their ends. -/
theorem Accounted.counted (h : Accounted data session ledger) :
    List.Forall₂ (fun opening region => region.isMarked = opening.region.isMarked ∧
      ∀ length, opening.region = .definite length → ∃ remaining, region = .definite remaining ∧
        opening.start + length = session.position + remaining)
    ledger session.decoder.source.regions := by
  refine (List.forall₂_map_right_iff.1 h.kept.tallies).imp fun opening region htallies => ?_
  rcases htallies with ⟨count, hposition, hroom, hnow⟩
  refine ⟨?_, fun length hregion => ?_⟩
  · rw [← Region.isMarked_outline, hnow, Region.isMarked_spend]
  · rw [hregion] at hroom hnow
    cases region with
    | marked state => cases hnow
    | definite remaining =>
      have hremaining : remaining = length - count := Region.definite.inj hnow
      have hle : count ≤ length := hroom
      refine ⟨remaining, rfl, ?_⟩
      rw [position, hposition]
      omega

/-- An operation that reads the innermost container to its end reads exactly its value. -/
theorem Accounted.consumed {opening : Opening} {outer : Ledger} {source : Source}
    {opened : List Container} (h : Accounted data session (opening :: outer))
    (hclean : opening.clean) (hmoves : Moves session operation reply source opened)
    (hconsumes : consumes operation reply)
    {value : Encoding} {rest : Octets} (hvalid : value.Valid)
    (hdata : data.drop opening.begins = value.octets ++ rest) :
    source.position = opening.begins + value.octets.length := by
  have hsettled := h.kept.settled
  -- all of these replies come from reading the region to its end
  have hends : ∀ {source : Source}, Finishes session.decoder.source source →
      source.position = opening.begins + value.octets.length := by
    intro source hfinishes
    have hafter := h.kept.finishes hfinishes
    rcases hafter.innermost with ⟨now, regions, hregions, -⟩
    have hnow : source.regions.head? = some now := by rw [hregions]; rfl
    have hintact : opening.intact now := by
      simp [Opening.intact, hclean, hfinishes.atEnd now hnow]
    exact hafter.exact hnow hintact hvalid hdata
  cases hmoves with
  | still hreply => cases reply <;> simp_all [Reply.isReport, consumes]
  | exhausted hnext => exact hends (next_finishes hsettled h.depth hnext)
  | taken hnext hitem hfound hreply =>
    rcases hreply with rfl | rfl <;> simp [consumes] at hconsumes
  | opened hnext => simp [consumes] at hconsumes
  | dropped hnext hfound => simp [consumes] at hconsumes
  | element hnext helement => simp [consumes] at hconsumes
  | drained helements => exact hends (elementsFrom_finishes hsettled h.depth helements)
  | content hopened hcontent => exact hends (remainder_finishes hsettled hcontent)
  | joined hopened hjoined => exact hends (joinedFrom_finishes hsettled h.depth hjoined)
  | finished hopened hcontents =>
    have hposition := hends (contents_finishes hsettled (h.depth_of_opened hopened) hcontents)
    exact hposition
  | left hopened => simp [consumes] at hconsumes

/-- A value that is taken as a whole is read from its first octet to its last. -/
theorem Accounted.element {element : Element} {source : Source} {opened : List Container}
    (h : Accounted data session ledger)
    (hmoves : Moves session .element (.element element) source opened) {value : Encoding}
    {rest : Octets} (hvalid : value.Valid)
    (hdata : data.drop session.position = value.octets ++ rest) :
    source.position = session.position + value.octets.length := by
  cases hmoves with
  | still hreply => cases hreply
  | taken hnext hitem hfound hreply => rcases hreply with hreply | hreply <;> cases hreply
  | element hnext helement =>
    obtain ⟨other, -, -, hother, -, hadvances⟩ :=
      element_advances h.kept.settled h.depth hnext helement
    have hsame : value.octets = other.octets :=
      octets_unique hvalid hother (hdata.symm.trans (h.kept.data_eq hadvances))
    rw [hadvances.position, hsame]
    rfl

/-- Giving up a container reads nothing. -/
theorem source_of_left {source : Source} {opened : List Container}
    (hmoves : Moves session .leave .left source opened) :
    source = session.decoder.source.leave := by
  cases hmoves with
  | still hreply => cases hreply
  | taken hnext hitem hfound hreply => rcases hreply with hreply | hreply <;> cases hreply
  | left hopened => rfl

/-- Whatever operations that do not fail are carried out on a new session, its position is exact. -/
theorem exact_of_reaches {arrivals : List Arrival} {limit maxDepth : Nat}
    (h : Reaches (fresh arrivals limit maxDepth) session ledger) :
    Exact (arrivals.filterMap Arrival.octet?) session ledger := by
  have haccounted := accounted_of_reaches h
  have hkept := haccounted.kept
  refine ⟨fun region hmem => hkept.settled.ahead hmem, haccounted.counted, hkept.rest, ?_, ?_, ?_⟩
  · intro after hperform
    rw [position, source_of_left (perform_moves hperform).1]
    exact ⟨rfl, hkept.rest⟩
  · intro element after hperform value rest hvalid hdata
    exact haccounted.element (perform_moves hperform).1 hvalid hdata
  · rintro operation reply after opening outer rfl hclean hperform hconsumes value rest hvalid hdata
    exact haccounted.consumed hclean (perform_moves hperform).1 hconsumes hvalid hdata

/-- A sequence of indefinite length that holds NULL, read to its end. -/
theorem exact_of_reaches_sequence :
    ∃ session, Reaches (fresh ([0x30, 0x80, 0x05, 0x00, 0x00, 0x00].map .octet) 6 1) session
        [⟨0, 2, .marked {}, true⟩] ∧ session.position = 6 ∧
      Exact [0x30, 0x80, 0x05, 0x00, 0x00, 0x00] session [⟨0, 2, .marked {}, true⟩] := by
  have hfirst := @Reaches.first (fresh ([0x30, 0x80, 0x05, 0x00, 0x00, 0x00].map .octet) 6 1)
  have hopened := hfirst.step (show perform .pull _ = .ok _ _ from rfl)
  have hnull := hopened.step (show perform .pull _ = .ok _ _ from rfl)
  have hended := hnull.step (show perform .pull _ = .ok _ _ from rfl)
  exact ⟨_, hended, rfl, exact_of_reaches hended⟩

/-- Two sequences of indefinite length, one in the other. The inner one is given up unread, so its
marker ends the outer one, two octets before the end of its value. -/
theorem left_inside_marked :
    ∃ (value : Encoding) (after : Session), value.Valid ∧ value.octets.length = 10 ∧
      value.octets = [0x30, 0x80, 0x30, 0x80, 0x05, 0x00, 0x00, 0x00, 0x00, 0x00] ∧
      run [.pull, .pull, .leave, .pull, .pull]
        (fresh ((value.octets ++ [0x01, 0x01, 0xff]).map .octet) 13 128) =
          ⟨[.item (.container ⟨.sequence, ⟨13, 1, 128⟩, true⟩),
            .item (.container ⟨.sequence, ⟨13, 2, 128⟩, true⟩), .left, .item (.primitive .null),
            .exhausted], none, after⟩ ∧
      after.opened = [⟨.sequence, ⟨13, 1, 128⟩, true⟩] ∧ after.position = 8 := by
  have hnull : (primitive ⟨0x05, [], 5⟩ [0x00] .null).Valid :=
    ⟨@Identifier.Written.short 0x05 (by decide), @Length.Written.short 0x00 (by decide), rfl⟩
  have hinner : (container .sequence ⟨0x30, [], 16⟩ .marked
      [primitive ⟨0x05, [], 5⟩ [0x00] .null]).Valid := by
    refine ⟨@Identifier.Written.short 0x30 (by decide), .indefinite, rfl, by simp, trivial,
      ⟨hnull, trivial⟩, fun _ => ?_⟩
    simp [Unmarked, header, Identifier.octets]
  have houter : (container .sequence ⟨0x30, [], 16⟩ .marked [container .sequence ⟨0x30, [], 16⟩
      .marked [primitive ⟨0x05, [], 5⟩ [0x00] .null]]).Valid := by
    refine ⟨@Identifier.Written.short 0x30 (by decide), .indefinite, rfl, by simp, trivial,
      ⟨hinner, trivial⟩, fun _ => ?_⟩
    simp [Unmarked, header, Identifier.octets]
  exact ⟨_, _, houter, rfl, rfl, rfl, rfl, rfl⟩

end Session
end Ber
