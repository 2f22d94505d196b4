import Ber.Proofs.Cost
import Ber.Proofs.Opening
import Ber.Proofs.Pulling
import Ber.Proofs.Visiting

/-!
# Ber.Proofs.Economy — what a session hands out is paid for

However operations are put together, everything that a session hands out costs octets of the data.

1. `Session.Priced` says what taking a value costs in a session, and asking for one where there is none.
   It holds of every session that is visited (`Session.Sound.priced`).
2. Every operation is made up of calls that are paid for (`Session.Moves.draws`), and so is a whole run
   (`Session.run_draws`).
3. So a run hands out no more than the octets that are left pay for (`Session.Sound.afforded`), whatever
   is opened or given up on the way, and it cannot go on taking values (`Session.objects_cost_input`).
-/

namespace Ber

open Source

/-! ## What is replied -/

/-- How many values were handed out with a reply, those inside elements included. The container that is
finished was handed out before. -/
def Reply.objects (operation : Operation) : Reply → Nat
  | .item _ | .dropped => 1
  | .element found => if operation = .finish then found.parts else found.parts + 1
  | .elements found => Element.count found
  | _ => 0

/-- The identifier and content octets that are retained with a reply. The identifier of the container that
is finished was handed out before. -/
def Reply.retained (operation : Operation) : Reply → Nat
  | .item found => found.retained
  | .element found => if operation = .finish then found.innerOctets else found.retained
  | .elements found => Element.retainedAll found
  | .content octets | .joined octets => octets.length
  | _ => 0

/-- Whether an operation asks for the next value. -/
def Operation.asks : Operation → Bool
  | .pull | .element | .primitive | .container => true
  | _ => false

namespace Session

variable {session after : Session} {operation : Operation} {reply : Reply} {source : Source}
  {opened : List Container}

/-! ## Operations -/

/-- What an operation does is made up of calls that hand out what it replies. -/
theorem Moves.draws (h : Moves session operation reply source opened) :
    ∃ gains, Draws gains session.decoder.source source ∧
      reply.objects operation ≤ Gain.objects gains ∧ reply.retained operation ≤ Gain.total gains := by
  cases h with
  | still hreply =>
    refine ⟨[], .nothing, ?_, ?_⟩
    · cases reply <;> first | exact Nat.le_refl 0 | cases hreply
    · cases reply <;> first | exact Nat.le_refl 0 | cases hreply
  | exhausted hnext => exact ⟨[], .none hnext .nothing, Nat.le_refl 0, Nat.le_refl 0⟩
  | @taken _ _ item _ hnext hitem hfound hreply =>
    refine ⟨[.object item], .value hnext .nothing, ?_, ?_⟩
    · rcases hreply with rfl | rfl <;> exact Nat.le_refl 1
    · rcases hreply with rfl | rfl
      · exact Nat.le_refl _
      · exact Nat.zero_le _
  | @opened _ container _ hnext =>
    exact ⟨[.object (.container container)], .value hnext .nothing, Nat.le_refl 1, Nat.le_refl _⟩
  | @dropped _ container _ hnext hfound =>
    exact ⟨[.object (.container container)], .value hnext (.leave .nothing), Nat.le_refl 1,
      Nat.zero_le _⟩
  | @element item element middle source hnext helement =>
    obtain ⟨gains, hgains, hparts, hretained⟩ := element_draws elementsFrom_draws helement
    refine ⟨.object item :: gains, .value hnext hgains, ?_, ?_⟩
    · rw [Gain.objects_object]
      exact Nat.succ_le_succ hparts
    · exact hretained
  | drained helements =>
    exact elementsFrom_draws helements
  | @content octets source container below hopened hcontent =>
    exact ⟨[.content octets], .content hcontent .nothing, Nat.zero_le _, Nat.le_refl _⟩
  | joined hopened hjoined =>
    obtain ⟨gains, hgains, hretained⟩ := joinedFrom_draws hjoined
    exact ⟨gains, hgains, Nat.zero_le _, hretained⟩
  | finished hopened hcontents =>
    obtain ⟨gains, hgains, hparts, hinner, -⟩ := contents_draws elementsFrom_draws hcontents
    have hleave := hgains.append (.leave .nothing)
    rw [List.append_nil] at hleave
    exact ⟨gains, hleave, hparts, hinner⟩
  | left hopened => exact ⟨[], .leave .nothing, Nat.le_refl 0, Nat.le_refl 0⟩

/-- An operation that asks for the next value hands one out, unless there is none. -/
theorem objects_of_asks (hasks : operation.asks) (h : perform operation session = .ok reply after) :
    reply = .exhausted ∨ 1 ≤ reply.objects operation := by
  have hnext : ∀ {use : Item → Stepping Reply},
      (∀ item middle, use item middle = .ok reply after → 1 ≤ reply.objects operation) →
      withNext use session = .ok reply after →
      reply = .exhausted ∨ 1 ≤ reply.objects operation := by
    intro use huse h
    rw [withNext_eq] at h
    obtain ⟨found, middle, -, hrest⟩ := Action.bind_eq_ok.1 h
    cases found with
    | none => exact .inl (Action.pure_eq_ok.1 hrest).1.symm
    | some item => exact .inr (huse item middle hrest)
  cases operation with
  | pull =>
    refine hnext (fun item middle huse => ?_) h
    cases item <;> cases huse <;> exact Nat.le_refl 1
  | element =>
    refine hnext (fun item middle huse => ?_) h
    obtain ⟨element, _, -, hreply⟩ := Action.bind_eq_ok.1 huse
    obtain ⟨rfl, -⟩ := Action.pure_eq_ok.1 hreply
    exact Nat.succ_pos _
  | primitive =>
    refine hnext (fun item middle huse => ?_) h
    cases item <;> cases huse <;> exact Nat.le_refl 1
  | container =>
    refine hnext (fun item middle huse => ?_) h
    cases item <;> cases huse <;> exact Nat.le_refl 1
  | _ => cases hasks

/-! ## Runs -/

/-- How many values a run of operations hands out. -/
def objects (operations : List Operation) (outcome : Outcome) : Nat :=
  (List.zipWith Reply.objects operations outcome.replies).foldr (· + ·) 0

/-- The identifier and content octets that are retained by what a run of operations hands out. -/
def retained (operations : List Operation) (outcome : Outcome) : Nat :=
  (List.zipWith Reply.retained operations outcome.replies).foldr (· + ·) 0

/-- A run leads to a session that is visited, whether it fails or not. -/
theorem visits_of_run {first : Session} (operations : List Operation)
    (h : Visits first session) : Visits first (run operations session).session := by
  induction operations generalizing session with
  | nil => exact h
  | cons operation operations ih =>
    have hstep := h.step operation
    simp only [run]
    cases hperform : perform operation session with
    | ok reply after =>
      rw [hperform] at hstep
      exact ih hstep
    | error failure after =>
      rw [hperform] at hstep
      exact hstep

/-- A run is made up of calls that hand out what is replied. -/
theorem run_draws (operations : List Operation) (session : Session) :
    ∃ gains source, Draws gains session.decoder.source source ∧
      objects operations (run operations session) ≤ Gain.objects gains ∧
      retained operations (run operations session) ≤ Gain.total gains := by
  induction operations generalizing session with
  | nil => exact ⟨[], _, .nothing, Nat.le_refl 0, Nat.le_refl 0⟩
  | cons operation operations ih =>
    cases hperform : perform operation session with
    | error failure after =>
      have hrun : run (operation :: operations) session = ⟨[], some failure, after⟩ := by
        simp only [run, hperform]
      rw [hrun]
      exact ⟨[], _, .nothing, Nat.le_refl 0, Nat.le_refl 0⟩
    | ok reply after =>
      obtain ⟨gains, hgains, hobjects, hretained⟩ := (perform_moves hperform).1.draws
      obtain ⟨others, source, hothers, hrestObjects, hrestRetained⟩ := ih after
      refine ⟨gains ++ others, source, hgains.append hothers, ?_, ?_⟩
      · rw [Gain.objects_append]
        simp only [objects, run, hperform, List.zipWith_cons_cons, List.foldr_cons]
        exact Nat.add_le_add hobjects hrestObjects
      · rw [Gain.total_append]
        simp only [retained, run, hperform, List.zipWith_cons_cons, List.foldr_cons]
        exact Nat.add_le_add hretained hrestRetained

/-- A run that never finds the end hands out a value whenever it asks for one. -/
theorem asks_le_objects (operations : List Operation) (session : Session)
    (hfailure : (run operations session).failure? = none)
    (hreplies : .exhausted ∉ (run operations session).replies) :
    operations.countP Operation.asks ≤ objects operations (run operations session) := by
  induction operations generalizing session with
  | nil => exact Nat.le_refl 0
  | cons operation operations ih =>
    cases hperform : perform operation session with
    | error failure after =>
      simp only [run, hperform] at hfailure
      cases hfailure
    | ok reply after =>
      simp only [run, hperform, List.mem_cons, not_or] at hfailure hreplies
      simp only [objects, run, hperform, List.zipWith_cons_cons, List.foldr_cons]
      have hrest := ih after hfailure hreplies.2
      by_cases hasks : operation.asks
      · have hone := (objects_of_asks hasks hperform).resolve_left fun h => hreplies.1 h.symm
        rw [List.countP_cons_of_pos hasks]
        unfold objects at hrest
        omega
      · rw [List.countP_cons_of_neg hasks]
        unfold objects at hrest
        omega

/-- A run hands out no more than data pays for, and finds an end if it keeps asking. -/
structure Afforded (data : Octets) (operations : List Operation) (outcome : Outcome) : Prop where
  objects : 2 * objects operations outcome ≤ data.length
  retained : retained operations outcome ≤ data.length
  /-- Asking more often leads to the end of a container or of the data, or fails. -/
  ends : data.length < 2 * operations.countP Operation.asks → outcome.failure? = none →
    .exhausted ∈ outcome.replies

/-! ## What each value costs -/

/-- What values cost in a session. -/
structure Priced (session : Session) : Prop where
  /-- Taking a value reads at least two octets, and more than the value retains. -/
  value : ∀ {scope : Scope} {item : Item} {source : Source},
    next scope session.decoder.source = .ok (some item) source →
    session.position + 2 ≤ source.position ∧
      session.position + item.retained + 1 ≤ source.position
  pull : ∀ {item : Item} {after : Session}, perform .pull session = .ok (.item item) after →
    session.position + 2 ≤ after.position ∧
      session.position + item.retained + 1 ≤ after.position
  /-- A container of indefinite length that is opened has not ended. -/
  opened : ∀ {container : Container} {after : Session},
    perform .pull session = .ok (.item (.container container)) after → container.isIndefinite →
    ¬ after.decoder.source.AtEnd
  /-- At the end of a definite container, or of the data, nothing is read. -/
  definite : ∀ {after : Session}, perform .pull session = .ok .exhausted after →
    (∀ container, session.opened.head? = some container → container.isIndefinite = false) →
    after.position = session.position
  /-- At the end of an indefinite container its marker is read, … -/
  indefinite : ∀ {after : Session} {container : Container},
    perform .pull session = .ok .exhausted after → session.opened.head? = some container →
    container.isIndefinite → ¬ session.decoder.source.AtEnd →
    after.position = session.position + 2
  /-- … and nothing if this was done before. -/
  again : ∀ {after : Session}, perform .pull session = .ok .exhausted after →
    session.decoder.source.AtEnd → after.position = session.position
  /-- An end that was found is there to stay, and nothing more is read. -/
  stays : ∀ {after : Session}, perform .pull session = .ok .exhausted after →
    after.decoder.source.AtEnd ∧ ∀ count, ∃ last,
      run (List.replicate count .pull) after =
        ⟨List.replicate count .exhausted, none, last⟩ ∧
      last.position = after.position

/-- Pulling again where there was no value finds the end again and again. -/
theorem run_pull_exhausted (h : next session.current session.decoder.source =
    .ok none session.decoder.source) (count : Nat) :
    ∃ last, run (List.replicate count .pull) session =
      ⟨List.replicate count .exhausted, none, last⟩ ∧ last.position = session.position := by
  induction count generalizing session with
  | zero => exact ⟨session, rfl, rfl⟩
  | succ count ih =>
    obtain ⟨after, hat, hperform⟩ := pull_exhausted h
    have hafter : next after.current after.decoder.source = .ok none after.decoder.source := by
      rw [hat.current, hat.source]
      exact h
    obtain ⟨last, hrun, hposition⟩ := ih hafter
    refine ⟨last, ?_, ?_⟩
    · simp only [List.replicate_succ, run, hperform, hrun]
    · rw [hposition, position, position, hat.source]

/-- The innermost region ends with a marker exactly if the innermost container is indefinite. -/
theorem Sound.isMarked (h : session.Sound) :
    session.decoder.source.isMarked = session.opened.head?.any Container.isIndefinite := by
  have hregions := h.regions
  rcases session with ⟨⟨⟨regions, reader⟩, journal⟩, top, opened⟩
  cases hregions with
  | nil => rfl
  | cons hfirst _ => exact hfirst.symm

theorem Sound.priced (h : session.Sound) : session.Priced := by
  have hsettled := h.settled
  have hvalue : ∀ {scope : Scope} {item : Item} {source : Source},
      next scope session.decoder.source = .ok (some item) source →
      session.position + 2 ≤ source.position ∧
        session.position + item.retained + 1 ≤ source.position := by
    intro scope item source hnext
    obtain ⟨c, hc, htwo, hretained⟩ := next_costs hsettled hnext
    have hposition : source.position = session.position + c.length := hc.position
    omega
  have hnone : ∀ {after : Session}, perform .pull session = .ok .exhausted after →
      after.decoder.source.AtEnd ∧ ∃ c : Octets,
        after.position = session.position + c.length ∧
        (session.decoder.source.isMarked → ¬ session.decoder.source.AtEnd → c = [0, 0]) ∧
        (session.decoder.source.isMarked = false ∨ session.decoder.source.AtEnd → c = []) := by
    intro after hperform
    obtain ⟨hatEnd, c, hc, hopen, hended⟩ :=
      next_none_costs hsettled (next_of_pull_exhausted hperform).1
    exact ⟨hatEnd, c, hc.position, hopen, hended⟩
  refine ⟨hvalue, fun hperform => hvalue (next_of_pull hperform).1, ?_, ?_, ?_, ?_, ?_⟩
  · -- the region of an indefinite container is new, so its marker has not been read
    intro container after hperform hindefinite
    obtain ⟨identifier, length, behind, form, -, -, -, hsource, rfl⟩ :=
      next_container_iff.1 (next_of_pull hperform).1
    intro hatEnd
    rw [hsource] at hatEnd
    have hspent : length.region.isSpent := hatEnd length.region rfl
    cases length with
    | definite octets => cases hindefinite
    | indefinite => cases hspent
  · intro after hperform hdefinite
    obtain ⟨-, c, hposition, -, hended⟩ := hnone hperform
    have hmarked : session.decoder.source.isMarked = false := by
      rw [h.isMarked]
      cases hhead : session.opened.head? with
      | none => rfl
      | some container => exact hdefinite container hhead
    rw [hposition, hended (.inl hmarked)]
    rfl
  · intro after container hperform hhead hindefinite hopen
    obtain ⟨-, c, hposition, hmarker, -⟩ := hnone hperform
    have hmarked : session.decoder.source.isMarked := by
      rw [h.isMarked, hhead]
      exact hindefinite
    rw [hposition, hmarker hmarked hopen]
    rfl
  · intro after hperform hatEnd
    obtain ⟨-, c, hposition, -, hended⟩ := hnone hperform
    rw [hposition, hended (.inr hatEnd)]
    rfl
  · intro after hperform
    obtain ⟨hatEnd, -⟩ := hnone hperform
    obtain ⟨hnext, hat⟩ := next_of_pull_exhausted hperform
    refine ⟨hatEnd, fun count => run_pull_exhausted ?_ count⟩
    rw [hat.current]
    exact next_of_next_eq_none hnext

/-! ## Everything is paid for -/

/-- Whatever calls hand out from now on, the octets that are left pay for. -/
theorem Sound.paid_of_draws {gains : List Gain} (h : session.Sound)
    (hdraws : Draws gains session.decoder.source source) :
    2 * Gain.objects gains ≤ session.decoder.source.rest.length ∧
      Gain.total gains ≤ session.decoder.source.rest.length := by
  obtain ⟨c, hc, hobjects, htotal⟩ := hdraws.paid h.settled
  have hrest : session.decoder.source.rest.length = c.length + source.rest.length := by
    rw [hc.rest, List.length_append]
  constructor <;> omega

/-- A run hands out no more than the octets that are left pay for. -/
theorem Sound.afforded (h : session.Sound) (operations : List Operation) :
    Afforded session.decoder.source.rest operations (run operations session) := by
  obtain ⟨gains, source, hgains, hobjects, hretained⟩ := run_draws operations session
  obtain ⟨htwo, htotal⟩ := h.paid_of_draws hgains
  refine ⟨by omega, by omega, fun hmany hfailure => ?_⟩
  -- if there were no end, every operation that asks would have been paid for
  by_cases hreplies : .exhausted ∈ (run operations session).replies
  · exact hreplies
  · have hasks := asks_le_objects operations session hfailure hreplies
    omega

/-- More steps than there are octets left do not change what draining does. -/
theorem drain_of_bound {decoder : Decoder} {scope : Scope} {bound : Nat}
    (h : decoder.source.left < bound) :
    Decoder.forget (Decoder.elementsWithin bound scope [] decoder) =
      Decoder.forget (Decoder.drain scope decoder) := by
  have hbound := Decoder.silent_elementsWithin bound scope [] decoder.source decoder.journal
  have hdrain := Decoder.silent_drain scope decoder.source decoder.journal
  rw [hbound, hdrain]
  exact elementsWithin_congr h (Nat.lt_succ_self _)

/-- Every value costs input. In a session on whatever a reader meets, taking a value reads two octets at
least, and more than the value retains, and finding an end reads the marker of an indefinite container
once. So all values that a run hands out, wherever they are taken and whatever is given up on the way,
are at most half as many as the octets of the data, and retain no more than these. This holds at any
time of the octets that are still left: asking for values comes to an end, and so does draining, within
as many steps as there are octets left. -/
theorem objects_cost_input (arrivals : List Arrival) (limit maxDepth : Nat) :
    (∀ operations, Afforded (arrivals.filterMap Arrival.octet?) operations
      (run operations (fresh arrivals limit maxDepth))) ∧
    ∀ session, Visits (fresh arrivals limit maxDepth) session →
      session.Priced ∧
      (∀ operations, Afforded session.decoder.source.rest operations (run operations session)) ∧
      (∀ gains source, Draws gains session.decoder.source source →
        2 * Gain.objects gains ≤ session.decoder.source.rest.length ∧
          Gain.total gains ≤ session.decoder.source.rest.length) ∧
      ∀ scope bound, session.decoder.source.left < bound →
        Decoder.forget (Decoder.elementsWithin bound scope [] session.decoder) =
          Decoder.forget (Decoder.drain scope session.decoder) := by
  constructor
  · intro operations
    exact (sound_of_visits .first).afforded operations
  · intro session hvisits
    have hsound := sound_of_visits hvisits
    exact ⟨hsound.priced, hsound.afforded, fun _ _ => hsound.paid_of_draws,
      fun _ _ => drain_of_bound⟩

/-- Six octets: an indefinite sequence that holds NULL. It is given up before its end, so its marker is
met outside, as a value of an unknown tag. These are three values, as many as six octets pay for. -/
theorem objects_cost_input_given_up :
    ∃ after, run [.pull, .pull, .leave, .pull]
        (fresh ([0x30, 0x80, 0x05, 0x00, 0x00, 0x00].map .octet) 6 1) =
      ⟨[.item (.container ⟨.sequence, ⟨6, 1, 1⟩, true⟩), .item (.primitive .null), .left,
        .item (.primitive (.unknown ⟨0x00, [], 0⟩ []))], none, after⟩ ∧
      Afforded [0x30, 0x80, 0x05, 0x00, 0x00, 0x00] [.pull, .pull, .leave, .pull]
        ⟨[.item (.container ⟨.sequence, ⟨6, 1, 1⟩, true⟩), .item (.primitive .null), .left,
          .item (.primitive (.unknown ⟨0x00, [], 0⟩ []))], none, after⟩ ∧
      after.Priced := by
  obtain ⟨hafforded, hvisited⟩ :=
    objects_cost_input ([0x30, 0x80, 0x05, 0x00, 0x00, 0x00].map .octet) 6 1
  have hrun : ∃ after, run [.pull, .pull, .leave, .pull]
      (fresh ([0x30, 0x80, 0x05, 0x00, 0x00, 0x00].map .octet) 6 1) =
        ⟨[.item (.container ⟨.sequence, ⟨6, 1, 1⟩, true⟩), .item (.primitive .null), .left,
          .item (.primitive (.unknown ⟨0x00, [], 0⟩ []))], none, after⟩ := ⟨_, rfl⟩
  obtain ⟨after, hrun⟩ := hrun
  have hall := hafforded [.pull, .pull, .leave, .pull]
  have hvisits := visits_of_run [.pull, .pull, .leave, .pull]
    (@Visits.first (fresh ([0x30, 0x80, 0x05, 0x00, 0x00, 0x00].map .octet) 6 1))
  rw [hrun] at hall hvisits
  exact ⟨after, hrun, hall, (hvisited after hvisits).1⟩

end Session
end Ber
