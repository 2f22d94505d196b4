import Ber.Proofs.Closing

/-!
# Ber.Proofs.Confinement — markers are searched for in front of values only

A region looks for its marker only while the first octet of one of its own values is asked for.
`Session.confined_of_visits` says what follows for every session that operations lead to, failing
ones included, and for every moment on the way of its next operation (`Session.Confined`):

1. No region looks for its marker while another one is open inside it, nor once the next value has
   been asked for (`Decoder.next_quiet`).
2. The region of an open container is closed only where the next one of its own values was asked
   for, and the marker stood there (`Session.endsAt_of_closes`).
-/

namespace Ber

open Source

/-! ## Operations -/

namespace Session

variable {session : Session} {operation : Operation} {height : Nat}

/-- On its way, an operation finds the marker of the region opened at a height. -/
def EndsAt (height : Nat) (session : Session) (operation : Operation) : Prop :=
  ∃ start, Asks session operation start ∧ Task.EndsAt height start

/-- Where an operation on the next value leaves the source, unless it reads the value as a whole: as
taking it does, or with the container given up that was found. -/
theorem withNext_source {use : Item → Stepping Reply} (session : Session)
    (huse : ∀ item after, (Action.final (use item after)).decoder.source = after.decoder.source ∨
      (Action.final (use item after)).decoder.source = after.decoder.source.leave) :
    (Action.final (withNext use session)).decoder.source =
        Task.leaves (.next session.current) session.decoder.source ∨
      (Action.final (withNext use session)).decoder.source =
        (Task.leaves (.next session.current) session.decoder.source).leave := by
  have hfinal := withNext_final use session
  rw [show Task.leaves (.next session.current) session.decoder.source =
    Action.final (Source.next session.current session.decoder.source) from rfl]
  match hrun : Source.next session.current session.decoder.source with
  | .error _ source =>
    rw [hrun] at hfinal
    exact .inl hfinal.source
  | .ok none source =>
    rw [hrun] at hfinal
    exact .inl hfinal.source
  | .ok (some item) source =>
    rw [hrun] at hfinal
    obtain ⟨middle, hmiddle, hafter⟩ := hfinal
    have hsource := huse item middle
    rw [hmiddle.source, ← hafter] at hsource
    exact hsource

/-- Taking the next value, and giving up a container that was found, closes regions by finding their
markers. -/
theorem endsAt_withNext {use : Item → Stepping Reply} (hs : session.decoder.source.Settled)
    (htakes : operation.takesNext)
    (huse : ∀ item after, (Action.final (use item after)).decoder.source = after.decoder.source ∨
      (Action.final (use item after)).decoder.source = after.decoder.source.leave)
    (h : Closes height session.decoder.source
      (Action.final (withNext use session)).decoder.source) :
    session.EndsAt height operation := by
  have hclosed : Closes height session.decoder.source
      (Task.leaves (.next session.current) session.decoder.source) := by
    rcases withNext_source session huse with hsource | hsource
    · rwa [hsource] at h
    · rw [hsource] at h
      exact h.of_leave
  rw [← Task.source_final] at hclosed
  exact ⟨_, .next htakes, Task.next_confines session.current session.decoder height hs hclosed⟩

/-- A value is read as it is with the bound that is set from the octets left. -/
theorem element_eq (item : Item) (s : Source) :
    Source.element item s = Source.elementWith (Task.contentsTaking (s.left + 1)) item s := by
  cases item with
  | container container =>
    show Action.afterwards leave (Source.contents container) s =
      Action.afterwards leave (Task.contentsTaking (s.left + 1) container) s
    unfold Action.afterwards
    rw [Task.contents_eq_taking]
  | _ => rfl

/-- What taking the next value as a whole leaves, by the value. -/
theorem final_nextElement (scope : Scope) (s : Source) :
    Action.final (nextElement scope s) =
      match Source.next scope s with
      | .error _ t | .ok none t => t
      | .ok (some item) t => Action.final (Source.element item t) := by
  unfold nextElement
  simp only [Bind.bind, EStateM.bind]
  rcases Source.next scope s with ⟨_ | item, t⟩ | ⟨failure, t⟩
  · rfl
  · exact Task.final_map (Source.element item) some t
  · rfl

/-- Taking the next value as a whole closes regions by finding their markers. -/
theorem endsAt_element (hs : session.decoder.source.Settled)
    (h : Closes height session.decoder.source
      (Action.final (perform .element session)).decoder.source) :
    session.EndsAt height .element := by
  have hnextEnds : Closes height session.decoder.source
      (Task.final (.next session.current) session.decoder).source →
      session.EndsAt height .element := fun hclosed =>
    ⟨_, .next rfl, Task.next_confines session.current session.decoder height hs hclosed⟩
  have hfinal : (Action.final (perform .element session)).decoder.source =
      Action.final (nextElement session.current session.decoder.source) := by
    have hperform := perform_element session
    match hrun : nextElement session.current session.decoder.source with
    | .error failure source =>
      rw [hrun] at hperform
      obtain ⟨after, hafter, hresult⟩ := hperform
      rw [hresult]
      exact hafter.source
    | .ok none source =>
      rw [hrun] at hperform
      obtain ⟨after, hafter, hresult⟩ := hperform
      rw [hresult]
      exact hafter.source
    | .ok (some first) source =>
      rw [hrun] at hperform
      obtain ⟨after, hafter, hresult⟩ := hperform
      rw [hresult]
      exact hafter.source
  rw [hfinal, final_nextElement] at h
  have hleaves : ∀ result, Source.next session.current session.decoder.source = result →
      (Task.final (.next session.current) session.decoder).source = Action.final result := by
    intro result hrun
    rw [Task.source_final, ← hrun]
    rfl
  cases hrun : Source.next session.current session.decoder.source with
  | error failure source =>
    rw [hrun] at h
    rw [hleaves _ hrun] at hnextEnds
    exact hnextEnds h
  | ok found source =>
    rw [hrun] at h
    rw [hleaves _ hrun] at hnextEnds
    cases found with
    | none => exact hnextEnds h
    | some item =>
      obtain ⟨journal, hdecoder⟩ := (Decoder.silent_next session.current).eq_ok_iff.1 hrun
      have helement : Closes height session.decoder.source
          (Task.final (.element (source.left + 1) item) ⟨source, journal⟩).source := by
        rw [Task.source_final]
        show Closes height _ (Action.final
          (Source.elementWith (Task.contentsTaking (source.left + 1)) item source))
        rw [← element_eq]
        exact h
      have hsome : (source.closedAt? height).isSome :=
        isSome_closedAt?_of_next hs hrun (Option.isSome_iff_exists.2 ⟨false, h.1⟩)
      rcases helement.split hsome with hfirst | hrest
      · exact hnextEnds hfirst
      · exact ⟨_, .element hdecoder, Task.confines (.element _ item) (by simp) ⟨source, journal⟩
          height (Task.fits_element _ hs hdecoder) hrest⟩

/-- Finishing a container closes regions by finding their markers. -/
theorem endsAt_finish (hs : session.decoder.source.Settled)
    (h : Closes height session.decoder.source
      (Action.final (perform .finish session)).decoder.source) :
    session.EndsAt height .finish := by
  rcases session with ⟨decoder, top, opened⟩
  cases opened with
  | nil => exact absurd h (not_closes_of_eq rfl)
  | cons container below =>
    have hat := answer_final Reply.element (Decoder.silent_contents container)
      ⟨decoder, top, container :: below⟩
    rw [finish_final] at h
    have hclosed : Closes height decoder.source
        (Task.final (.contents (decoder.source.left + 1) container) decoder).source := by
      have hleft := Closes.of_leave h
      rw [hat.source] at hleft
      rw [Task.source_final]
      show Closes height decoder.source
        (Action.final (Task.contentsTaking (decoder.source.left + 1) container decoder.source))
      rw [← Task.contents_eq_taking]
      exact hleft
    exact ⟨_, .finish rfl, Task.confines _ (by simp) decoder height hs hclosed⟩

/-- Whatever an operation closes, it closes by finding the marker on its way. -/
theorem endsAt_of_closes (hs : session.decoder.source.Settled)
    (h : Closes height session.decoder.source
      (Action.final (perform operation session)).decoder.source) :
    session.EndsAt height operation := by
  cases operation with
  | pull =>
    refine endsAt_withNext hs rfl (fun item after => ?_) h
    cases item <;> exact .inl rfl
  | primitive =>
    refine endsAt_withNext hs rfl (fun item after => ?_) h
    cases item with
    | container container => exact .inr rfl
    | _ => exact .inl rfl
  | container =>
    refine endsAt_withNext hs rfl (fun item after => ?_) h
    cases item <;> exact .inl rfl
  | element => exact endsAt_element hs h
  | finish => exact endsAt_finish hs h
  | drain =>
    have hat := answer_final Reply.elements (Decoder.silent_drain session.current) session
    refine ⟨_, .drain, Task.confines _ (by simp) session.decoder height hs ?_⟩
    rw [Task.source_final]
    exact ⟨h.1, (congrArg (closedAt? height) hat.source).symm.trans h.2⟩
  | takeContent =>
    rcases session with ⟨decoder, top, opened⟩
    match opened with
    | ⟨.tagged identifier, inner, isIndefinite⟩ :: below =>
      have hat := answer_final Reply.content (Decoder.Silent.liftM Source.remainder)
        ⟨decoder, top, ⟨.tagged identifier, inner, isIndefinite⟩ :: below⟩
      have hclosed : Closes height decoder.source
          (Action.final (Source.remainder decoder.source)) :=
        ⟨h.1, (congrArg (closedAt? height) hat.source).symm.trans h.2⟩
      exact absurd hclosed (Task.not_closes_of_remainder hs)
    | [] | ⟨.sequence, _, _⟩ :: _ | ⟨.set, _, _⟩ :: _ | ⟨.octetString, _, _⟩ :: _ =>
      exact absurd h (not_closes_of_eq rfl)
  | join =>
    rcases session with ⟨decoder, top, opened⟩
    match opened with
    | ⟨.octetString, inner, isIndefinite⟩ :: below =>
      have hat := answer_final Reply.joined (Decoder.silent_joined inner)
        ⟨decoder, top, ⟨.octetString, inner, isIndefinite⟩ :: below⟩
      refine ⟨_, .join rfl rfl, Task.confines _ (by simp) decoder height hs ?_⟩
      rw [Task.source_final]
      exact ⟨h.1, (congrArg (closedAt? height) hat.source).symm.trans h.2⟩
    | [] | ⟨.sequence, _, _⟩ :: _ | ⟨.set, _, _⟩ :: _ | ⟨.tagged _, _, _⟩ :: _ =>
      exact absurd h (not_closes_of_eq rfl)
  | inspect =>
    rcases session with ⟨decoder, top, opened⟩
    cases opened <;> exact absurd h (not_closes_of_eq rfl)
  | setMaxDepth maxDepth =>
    rcases session with ⟨decoder, top, opened⟩
    cases opened <;> exact absurd h (not_closes_of_eq rfl)
  | leave =>
    rcases session with ⟨decoder, top, opened⟩
    cases opened with
    | nil => exact absurd h (not_closes_of_eq rfl)
    | cons container below => exact absurd h.of_leave (not_closes_of_eq rfl)

end Session

/-! ## After taking the next value -/

/-- Once the next value has been asked for, no region looks for its marker, whatever came of it. Only
that of a container just opened does. -/
theorem Source.next_quiet {scope : Scope} {s : Source} (hs : s.Settled) :
    match next scope s with
    | .ok (some (.container _)) t => t.leave.Quiet
    | .ok _ t | .error _ t => t.Quiet := by
  have hleads : Leads scope s (next scope s) := next_leads hs
  generalize next scope s = result at hleads
  cases hleads with
  | closed hbelow hsource =>
    rw [hsource]
    intro region hmem
    rcases List.mem_cons.1 hmem with rfl | hmem
    · rfl
    · exact hbelow.quiet region hmem
  | ended hready hmarked hpasses => exact (hpasses.passing hready).quiet
  | @marker after hready hmarked hdelivers =>
    have hquiet : after.Quiet := (hdelivers.passing hready).quiet
    rcases after with ⟨regions, reader⟩
    cases regions with
    | nil => exact hquiet
    | cons head below =>
      intro region hmem
      have hhead : head.isWatching = false := hquiet head List.mem_cons_self
      cases head with
      | definite remaining => exact hquiet region hmem
      | marked state =>
        rcases List.mem_cons.1 hmem with rfl | hmem
        · exact hhead
        · exact hquiet region (List.mem_cons_of_mem _ hmem)
  | @value item octets after hready hitem hpasses =>
    have hquiet : after.Quiet := (hpasses.passing hready).quiet
    cases item with
    | container container => cases hitem
    | uninterpreted named content => exact hquiet
    | primitive value => exact hquiet
  | container hready hfresh hpasses => exact (hpasses.passing hready).quiet
  | failure hready hpasses => exact (hpasses.passing hready).quiet

/-- The same for a decoder. -/
theorem Decoder.next_quiet {scope : Scope} {decoder : Decoder} (hs : decoder.source.Settled) :
    match next scope decoder with
    | .ok (some (.container _)) after => after.source.leave.Quiet
    | .ok _ after | .error _ after => after.source.Quiet := by
  have hquiet := @Source.next_quiet scope decoder.source hs
  rw [← silent_next scope decoder.source decoder.journal] at hquiet
  have hsame : next scope decoder = next scope ⟨decoder.source, decoder.journal⟩ := rfl
  rw [hsame]
  generalize next scope ⟨decoder.source, decoder.journal⟩ = result at hquiet
  match result with
  | .error failure after => exact hquiet
  | .ok none after => exact hquiet
  | .ok (some (.container container)) after => exact hquiet
  | .ok (some (.primitive value)) after => exact hquiet
  | .ok (some (.uninterpreted named octets)) after => exact hquiet

/-! ## Every session -/

namespace Session

variable {session : Session}

/-- The search for markers is confined, in a session and throughout an operation on it. -/
structure Confined (session : Session) : Prop where
  /-- The open regions are those of the open containers. -/
  regions : List.Forall₂ (fun container region => container.isIndefinite = region.isMarked)
    session.opened session.decoder.source.regions
  /-- Between operations, a region looks for its marker only if no other is open inside it. -/
  guarded : session.decoder.source.Guarded
  /-- On the way of an operation as well, wherever a task starts and wherever it ends or fails. -/
  throughout : ∀ operation task decoder, session.Includes operation (task, decoder) →
    decoder.source.Guarded ∧ (task.final decoder).source.Guarded
  /-- Once the next value has been asked for, whatever came of it, no region that was open then looks
  for its marker. -/
  off : ∀ operation scope decoder, session.Includes operation (.next scope, decoder) →
    match Decoder.next scope decoder with
    | .ok (some (.container _)) after => after.source.leave.Quiet
    | .ok _ after | .error _ after => after.source.Quiet
  /-- So it is after the next value has been pulled. -/
  pulled : match perform .pull session with
    | .ok (.item (.container _)) after => after.decoder.source.leave.Quiet
    | .ok _ after | .error _ after => after.decoder.source.Quiet
  /-- An operation that closes the region of an open container takes on its way the next value of
  that container, and finds the marker in front of it. -/
  closes : ∀ operation height, Closes height session.decoder.source
    (Action.final (perform operation session)).decoder.source → session.EndsAt height operation
  /-- So does every task on the way. Skipping also closes the region that it is done in. -/
  tasks : ∀ operation task decoder height, session.Includes operation (task, decoder) →
    Closes height decoder.source (task.final decoder).source →
    Task.EndsAt height (task, decoder) ∨
      task = .skip ∧ decoder.source.regions.length = height + 1
  /-- What is read of identifiers, lengths and content closes nothing. -/
  inside : ∀ operation task decoder height, session.Includes operation (task, decoder) →
    task.readsInside → ¬ Closes height decoder.source (task.final decoder).source

/-- Whatever operations have been carried out on a new session, failing ones included, markers are
searched for in front of values only, and each region by itself. -/
theorem confined_of_visits {arrivals : List Arrival} {limit maxDepth : Nat}
    (h : Visits (fresh arrivals limit maxDepth) session) : session.Confined := by
  have hsound : session.Sound := sound_of_visits h
  have hs := hsound.settled
  refine ⟨hsound.regions, hs.guarded, ?_, ?_, ?_, ?_, ?_, ?_⟩
  · intro operation task decoder hincludes
    have hfits : task.Fits decoder.source := fits_of_includes hs hincludes
    refine ⟨hfits.guarded, ?_⟩
    rw [Task.source_final]
    exact hfits.leaves_guarded
  · intro operation scope decoder hincludes
    have hfits : Task.Fits (.next scope) decoder.source := fits_of_includes hs hincludes
    exact Decoder.next_quiet hfits
  · have hquiet := @Decoder.next_quiet session.current session.decoder hs
    rw [pull_eq]
    generalize Decoder.next session.current session.decoder = result at hquiet
    match result with
    | .error failure after => exact hquiet
    | .ok none after => exact hquiet
    | .ok (some (.container container)) after => exact hquiet
    | .ok (some (.primitive value)) after => exact hquiet
    | .ok (some (.uninterpreted named octets)) after => exact hquiet
  · intro operation height hcloses
    exact endsAt_of_closes hs hcloses
  · intro operation task decoder height hincludes hcloses
    have hfits : task.Fits decoder.source := fits_of_includes hs hincludes
    by_cases hskip : task = .skip
    · subst hskip
      rw [Task.source_final] at hcloses
      exact .inr ⟨rfl, Task.length_of_skip hfits hcloses⟩
    · exact .inl (Task.confines task hskip decoder height hfits hcloses)
  · intro operation task decoder height hincludes hinside
    have hfits : task.Fits decoder.source := fits_of_includes hs hincludes
    rw [Task.source_final]
    exact Task.not_closes_of_readsInside hfits hinside

/-- A sequence of indefinite length with a value in it that is refused. Behind the failure, pulling
finds the marker of the sequence. -/
theorem confined_of_visits_refused :
    ∃ session, Visits (fresh ([0x30, 0x80, 0x02, 0x80, 0x00, 0x00].map .octet) 6 128) session ∧
      session.position = 4 ∧ session.Confined ∧ Closes 0 session.decoder.source
        (Action.final (perform .pull session)).decoder.source := by
  have hfirst := @Visits.first (fresh ([0x30, 0x80, 0x02, 0x80, 0x00, 0x00].map .octet) 6 128)
  have hopened := hfirst.step .pull
  have hrefused := hopened.step .pull
  exact ⟨_, hrefused, rfl, confined_of_visits hrefused, rfl, rfl⟩

end Session
end Ber
