import Ber.Proofs.Shrinking
import Ber.Proofs.Tasks

/-!
# Ber.Proofs.Surroundings — the containers around a moment

Containers are opened inside one another: by operations, which leave them open, and on the way of
an operation, which gives up again what it opens. `Session.Around` tells the containers that are open at a
moment on the way of an operation, the innermost first, those of the session among them.

1. `Container.FoundIn` relates the scope of a container to the scope that it was found in, and
   `Scope.Chain` links containers that are open inside one another.
2. Whatever operations have been carried out, the open containers are linked, and the open regions
   are theirs (`Session.rooted_of_visits`).
3. So it is at every moment on the way of an operation, and whatever is done there is done in the
   scope of the innermost container (`Session.stands_of_around`).
-/

namespace Ber

open Source

/-! ## Containers inside one another -/

/-- How a container is related to the scope it was found in. -/
structure Container.FoundIn (container : Container) (scope : Scope) : Prop where
  depth : container.scope.depth = scope.depth + 1
  maxDepth : container.scope.maxDepth = scope.maxDepth
  allowed : scope.depth < scope.maxDepth
  limit : container.scope.limit ≤ scope.limit
  /-- The length of a definite container has to be below the limit. -/
  shorter : container.isIndefinite = false → container.scope.limit < scope.limit

/-- A container that is taken is found in the scope it is taken in. -/
theorem Source.foundIn_of_next {scope : Scope} {container : Container} {s t : Source}
    (h : next scope s = .ok (some (.container container)) t) : container.FoundIn scope := by
  obtain ⟨identifier, length, behind, form, haccepts, -, hdepth, -, rfl⟩ := next_container_iff.1 h
  have hlower := Scope.lower_limit_le scope s.available
  refine ⟨by simp, by simp, hdepth, ?_, fun hdefinite => ?_⟩
  · cases length with
    | definite octets => exact Nat.le_trans (Nat.le_of_lt haccepts.definite_lt) hlower
    | indefinite => exact hlower
  · cases length with
    | definite octets => exact Nat.lt_of_lt_of_le haccepts.definite_lt hlower
    | indefinite => cases hdefinite

namespace Scope

/-- The scope of the values in the innermost container, or outside of all. -/
def innermost (top : Scope) : List Container → Scope
  | [] => top
  | container :: _ => container.scope

/-- Each container was found in the one around it, and the outermost one outside of all. -/
def Chain (top : Scope) : List Container → Prop
  | [] => True
  | container :: below => container.FoundIn (top.innermost below) ∧ Chain top below

namespace Chain

variable {top : Scope} {opened : List Container} {container : Container}

/-- The depth counts the containers. -/
theorem depth (h : Chain top opened) :
    (top.innermost opened).depth = top.depth + opened.length := by
  induction opened with
  | nil => rfl
  | cons container below ih =>
    have hdepth : container.scope.depth = (top.innermost below).depth + 1 := h.1.depth
    rw [ih h.2] at hdepth
    exact hdepth

theorem maxDepth (h : Chain top opened) : (top.innermost opened).maxDepth = top.maxDepth := by
  induction opened with
  | nil => rfl
  | cons container below ih => exact h.1.maxDepth.trans (ih h.2)

/-- There are no more containers than may be nested. -/
theorem length_le (h : Chain top opened) (hopened : opened ≠ []) :
    top.depth + opened.length ≤ top.maxDepth := by
  cases opened with
  | nil => exact absurd rfl hopened
  | cons container below =>
    have hallowed := h.1.allowed
    rw [h.2.depth, h.2.maxDepth] at hallowed
    exact hallowed

/-- No container inside another one has a higher limit. -/
theorem limit_le (h : Chain top opened) :
    (top.innermost opened).limit ≤ top.limit ∧
      ∀ container ∈ opened, (top.innermost opened).limit ≤ container.scope.limit := by
  induction opened with
  | nil => exact ⟨Nat.le_refl _, fun _ hmem => nomatch hmem⟩
  | cons container below ih =>
    obtain ⟨hfound, hbelow⟩ := h
    obtain ⟨htop, hall⟩ := ih hbelow
    refine ⟨Nat.le_trans hfound.limit htop, fun other hmem => ?_⟩
    rcases List.mem_cons.1 hmem with rfl | hmem
    · exact Nat.le_refl _
    · exact Nat.le_trans hfound.limit (hall other hmem)

/-- The containers around a container are linked. -/
theorem of_suffix {below : List Container} (h : Chain top opened) (hbelow : below <:+ opened) :
    Chain top below := by
  induction opened with
  | nil => rwa [List.suffix_nil.1 hbelow]
  | cons container opened ih =>
    rcases List.suffix_cons_iff.1 hbelow with rfl | hbelow
    · exact h
    · exact ih h.2 hbelow

end Chain
end Scope

/-! ## Regions of containers -/

/-- A region is that of a container: a definite one has no more octets than the container is long. -/
def Container.Holds (container : Container) (region : Region) : Prop :=
  container.isIndefinite = region.isMarked ∧
    ∀ remaining, region = .definite remaining → remaining ≤ container.scope.limit

theorem Container.Holds.shrinks {container : Container} {before after : Region}
    (h : container.Holds before) (hshrinks : before.Shrinks after) : container.Holds after := by
  refine ⟨h.1.trans hshrinks.isMarked.symm, fun remaining hafter => ?_⟩
  cases hshrinks with
  | definite hle =>
    cases hafter
    exact Nat.le_trans hle (h.2 _ rfl)
  | marked before after => cases hafter

/-- The innermost regions are those of the open containers. -/
def Fitted : List Container → List Region → Prop
  | [], _ => True
  | container :: opened, region :: regions => container.Holds region ∧ Fitted opened regions
  | _ :: _, [] => False

namespace Fitted

variable {opened : List Container} {container : Container} {s t : Source}

theorem shrinks (h : Fitted opened s.regions) (hshrinks : s.Shrinks t) :
    Fitted opened t.regions := by
  unfold Source.Shrinks at hshrinks
  generalize s.regions = before at h hshrinks
  generalize t.regions = after at hshrinks
  induction opened generalizing before after with
  | nil => trivial
  | cons container opened ih =>
    cases hshrinks with
    | nil => exact h.elim
    | cons hhead hrest => exact ⟨h.1.shrinks hhead, ih _ h.2 _ hrest⟩

theorem tail (h : Fitted (container :: opened) s.regions) : Fitted opened s.leave.regions := by
  show Fitted opened s.regions.tail
  generalize s.regions = regions at h
  cases regions with
  | nil => exact h.elim
  | cons region regions => exact h.2

/-- A container that is taken has a region of its own. -/
theorem of_next {scope : Scope} (h : Fitted opened s.regions)
    (hnext : next scope s = .ok (some (.container container)) t) :
    Fitted (container :: opened) t.regions := by
  obtain ⟨identifier, length, behind, form, haccepts, -, -, rfl, rfl⟩ := next_container_iff.1 hnext
  refine ⟨⟨rfl, fun remaining hregion => ?_⟩, h.shrinks haccepts.shrinks⟩
  rw [hregion]
  exact Nat.le_refl remaining

/-- A value that is no container leaves the open regions. -/
theorem of_next_value {scope : Scope} {item : Item} (h : Fitted opened s.regions)
    (hitem : item.isContainer = false) (hnext : next scope s = .ok (some item) t) :
    Fitted opened t.regions := by
  have hshrinks := @shrinks_next s scope fun container m hrun => by
    cases hnext.symm.trans hrun
    cases hitem
  rw [hnext] at hshrinks
  exact h.shrinks hshrinks

end Fitted

/-! ## Sessions -/

namespace Session

variable {session after : Session}

theorem current_eq (session : Session) :
    session.current = session.top.innermost session.opened := by
  rcases session with ⟨decoder, top, _ | ⟨container, below⟩⟩ <;> rfl

/-- The containers that are open are linked, and the open regions are theirs. -/
structure Rooted (limit : Nat) (session : Session) : Prop where
  chain : session.top.Chain session.opened
  /-- Outside of all containers, the depth is none and the limit remains what it was. -/
  depth : session.top.depth = 0
  limit : session.top.limit = limit
  fitted : Fitted session.opened session.decoder.source.regions

/-- An operation keeps them so, whether it fails or not. -/
theorem Rooted.leaves {limit : Nat} (h : session.Rooted limit) (hleaves : Leaves session after) :
    after.Rooted limit := by
  have hkept : ∀ {source : Source}, session.At source after →
      session.decoder.source.Shrinks source → after.Rooted limit := by
    rintro source ⟨journal, rfl⟩ hshrinks
    exact ⟨h.chain, h.depth, h.limit, h.fitted.shrinks hshrinks⟩
  -- only an opened or a finished container changes which ones are open
  cases hleaves with
  | asks hnone hafter => exact hkept hafter (shrinks_next hnone)
  | drops hnext hafter =>
    obtain ⟨region, behind, hbehind, rfl⟩ := shrinks_of_container hnext
    exact hkept hafter hbehind
  | opens hnext hopened htop =>
    refine ⟨?_, htop ▸ h.depth, htop ▸ h.limit, ?_⟩
    · rw [htop, hopened]
      refine ⟨?_, h.chain⟩
      rw [← current_eq]
      exact foundIn_of_next hnext
    · rw [hopened]
      exact h.fitted.of_next hnext
  | reads hwhole hafter => exact hkept hafter (shrinking.of_whole hwhole _ trivial)
  | gives hwhole hsource hopened htop =>
    have hchain := h.chain
    have hfitted := h.fitted.shrinks (shrinking.of_whole hwhole _ trivial)
    rw [hopened] at hchain hfitted
    refine ⟨?_, htop ▸ h.depth, htop ▸ h.limit, ?_⟩
    · rw [htop]
      exact hchain.2
    · rw [hsource]
      exact hfitted.tail
  | sets hopened hafter =>
    subst hafter
    refine ⟨?_, h.depth, h.limit, h.fitted⟩
    rw [hopened]
    trivial

/-- Whatever operations have been carried out, failing ones included, from wherever the first one
started. -/
theorem rooted_of_visits {decoder : Decoder} {limit maxDepth : Nat}
    (h : Visits ⟨decoder, Scope.top limit maxDepth, []⟩ session) : session.Rooted limit := by
  induction h with
  | first => exact ⟨trivial, rfl, rfl, trivial⟩
  | step operation _ ih => exact ih.leaves (perform_leaves operation _)

end Session

/-! ## Moments -/

/-- A task on a decoder goes into a container, where another task starts. -/
inductive Task.Enters : Task × Decoder → Container → Task × Decoder → Prop where
  /-- A container that is read as a whole is read from inside. -/
  | contents {bound : Nat} {container : Container} {decoder : Decoder} :
    Enters (.element bound (.container container), decoder) container
      (.contents bound container, decoder)
  /-- So are the segments in a segment. -/
  | segments {bound : Nat} {scope inner : Scope} {isIndefinite : Bool} {pieces : List Octets}
    {decoder middle : Decoder} (hnext : Decoder.next scope decoder =
      .ok (some (.container ⟨.octetString, inner, isIndefinite⟩)) middle) :
    Enters (.segments (bound + 1) scope pieces, decoder) ⟨.octetString, inner, isIndefinite⟩
      (.segments bound inner [], middle)

/-- The containers around a moment on the way of an operation, the innermost first. -/
inductive Session.Around (session : Session) (operation : Operation) :
    List Container → Task × Decoder → Prop where
  /-- Where an operation starts, those of the session are open. -/
  | asks {moment : Task × Decoder} (h : Asks session operation moment) :
    Around session operation session.opened moment
  | enters {opened : List Container} {container : Container} {moment next : Task × Decoder}
    (h : Around session operation opened moment) (henters : Task.Enters moment container next) :
    Around session operation (container :: opened) next
  | stays {opened : List Container} {moment next : Task × Decoder}
    (h : Around session operation opened moment) (hcalls : Task.Calls moment next)
    (hstays : ∀ container, ¬ Task.Enters moment container next) :
    Around session operation opened next

namespace Task

variable {top : Scope} {opened : List Container} {task next : Task} {decoder after : Decoder}

/-- A task acts in the scope of the innermost container. -/
def ActsIn (top : Scope) (opened : List Container) : Task → Prop
  | .next scope | elements _ scope _ | segments _ scope _ => scope = top.innermost opened
  | element _ (.container container) => container.FoundIn (top.innermost opened)
  | contents _ container => opened.head? = some container
  | remainder => opened ≠ []
  | _ => True

/-- The regions where a task starts are those of the open containers. The region of a container
to be read is open already, and so is the one that content is skipped in. -/
def FitsIn (opened : List Container) (regions : List Region) : Task → Prop
  | skip => Fitted opened regions.tail
  | element _ (.container container) => Fitted (container :: opened) regions
  | _ => Fitted opened regions

/-- A task stands inside open containers. -/
structure Stands (top : Scope) (opened : List Container) (task : Task) (source : Source) : Prop where
  chain : top.Chain opened
  acts : task.ActsIn top opened
  fits : task.FitsIn opened source.regions

/-- A value that was taken is read as a whole inside the same containers. -/
theorem stands_element {scope : Scope} {item : Item} (bound : Nat) (hchain : top.Chain opened)
    (hscope : scope = top.innermost opened) (hfitted : Fitted opened decoder.source.regions)
    (hnext : Decoder.next scope decoder = .ok (some item) after) :
    Stands top opened (.element bound item) after.source := by
  have hsource := (Decoder.silent_next scope).of_ok hnext
  subst hscope
  cases item with
  | container container => exact ⟨hchain, foundIn_of_next hsource, hfitted.of_next hsource⟩
  | uninterpreted named octets => exact ⟨hchain, trivial, hfitted.of_next_value rfl hsource⟩
  | primitive value => exact ⟨hchain, trivial, hfitted.of_next_value rfl hsource⟩

/-- Behind a container that was read and given up, the regions are those around it. -/
theorem fitted_of_leaving {α : Type} {container : Container} {action : Taking α} {a : α}
    {s t : Source} (h : Fitted (container :: opened) s.regions) (haction : shrinking.Follows action)
    (hrun : Action.afterwards leave action s = .ok a t) : Fitted opened t.regions := by
  obtain ⟨m, hm, rfl⟩ := Action.afterwards_eq_ok.1 hrun
  have hshrinks : s.Shrinks (Action.final (action s)) := haction s trivial
  rw [hm] at hshrinks
  exact (h.shrinks hshrinks).tail

/-- Where a task stands, a task that it goes into a container for stands inside that. -/
theorem Stands.enters {container : Container} (h : Stands top opened task decoder.source)
    (henters : Enters (task, decoder) container (next, after)) :
    Stands top (container :: opened) next after.source := by
  cases henters with
  | contents => exact ⟨⟨h.acts, h.chain⟩, rfl, h.fits⟩
  | segments hnext =>
    have hsource := (Decoder.silent_next _).of_ok hnext
    refine ⟨⟨?_, h.chain⟩, rfl, Fitted.of_next h.fits hsource⟩
    have hscope := h.acts
    rw [← show _ = top.innermost opened from hscope]
    exact foundIn_of_next hsource

/-- The scope in a container that is read is the innermost one. -/
theorem Stands.scope_of_contents {bound : Nat} {container : Container} {source : Source}
    (h : Stands top opened (.contents bound container) source) :
    container.scope = top.innermost opened := by
  have hhead := h.acts
  cases opened with
  | nil => cases hhead
  | cons innermost below =>
    cases hhead
    rfl

/-- Any other task that it does on the way stands inside the same containers. -/
theorem Stands.stays (h : Stands top opened task decoder.source)
    (hcalls : Calls (task, decoder) (next, after))
    (hstays : ∀ container, ¬ Enters (task, decoder) container (next, after)) :
    Stands top opened next after.source := by
  have hcontents := @Stands.scope_of_contents top opened
  obtain ⟨hchain, hacts, hfits⟩ := h
  cases hcalls with
  | identifier hfirst => exact ⟨hchain, trivial, hfits.shrinks (shrinks_of_firstOctet? hfirst)⟩
  | length hfirst hafter =>
    have hshrinks := (shrinks_of_firstOctet? hfirst).trans
      (shrinks_of_scans (Identifier.after_scans _) hafter)
    exact ⟨hchain, trivial, Fitted.shrinks hfits hshrinks⟩
  | content hfirst hafter hlength =>
    have haccepts : Accepts _ _ _ decoder.source _ := ⟨_, _, _, hfirst, hafter, hlength⟩
    exact ⟨hchain, trivial, Fitted.shrinks hfits haccepts.shrinks⟩
  | skip => exact ⟨hchain, trivial, hfits⟩
  | nextElement => exact ⟨hchain, hacts, hfits⟩
  | element hnext => exact stands_element _ hchain hacts hfits hnext
  | @elements bound _ _ item _ _ middle _ hnext helement =>
    refine ⟨hchain, hacts, ?_⟩
    have hmiddle := (stands_element bound hchain hacts hfits hnext).fits
    cases item with
    | container container =>
      exact fitted_of_leaving hmiddle
        (Course.contentsWith (shrinking.elementsWithin bound · [])
          (shrinking.joinedWithin bound · []) container)
        ((silent_contentsWithin bound container).leaving.of_ok helement)
    | uninterpreted named octets =>
      cases helement
      exact hmiddle
    | primitive value =>
      cases helement
      exact hmiddle
  -- going into a container is no staying, so these two cases do not occur
  | contents => exact absurd .contents (hstays _)
  | drain => exact ⟨hchain, hcontents ⟨hchain, hacts, hfits⟩, hfits⟩
  | remainder =>
    refine ⟨hchain, ?_, hfits⟩
    rintro rfl
    cases hacts
  | join => exact ⟨hchain, hcontents ⟨hchain, hacts, hfits⟩, hfits⟩
  | nextSegment => exact ⟨hchain, hacts, hfits⟩
  | inner hnext => exact absurd (.segments hnext) (hstays _)
  | segmented hnext hinner =>
    have hmiddle := (stands_element 0 hchain hacts hfits hnext).fits
    exact ⟨hchain, hacts, fitted_of_leaving hmiddle (shrinking.joinedWithin _ _ [])
      ((Decoder.silent_joinedWithin _ _ []).leaving.of_ok hinner)⟩
  | segment hnext => exact ⟨hchain, hacts, (stands_element 0 hchain hacts hfits hnext).fits⟩

end Task

namespace Session

variable {session : Session} {operation : Operation} {opened : List Container} {task : Task}
  {decoder : Decoder} {limit : Nat}

/-- Where an operation starts, it stands inside the open containers. -/
theorem stands_of_asks (h : session.Rooted limit) (hasks : Asks session operation (task, decoder)) :
    Task.Stands session.top session.opened task decoder.source := by
  have hcurrent := session.current_eq
  cases hasks with
  | next htakes => exact ⟨h.chain, hcurrent, h.fitted⟩
  | element hnext => exact Task.stands_element _ h.chain hcurrent h.fitted hnext
  | drain => exact ⟨h.chain, hcurrent, h.fitted⟩
  | takeContent hopened hform =>
    refine ⟨h.chain, ?_, h.fitted⟩
    rw [Task.ActsIn, hopened]
    exact List.cons_ne_nil _ _
  | join hopened hform =>
    refine ⟨h.chain, ?_, h.fitted⟩
    rw [Task.ActsIn, hopened]
    rfl
  | finish hopened =>
    refine ⟨h.chain, ?_, h.fitted⟩
    rw [Task.ActsIn, hopened]
    rfl

/-- Whatever an operation does on its way, it stands inside the containers around it. -/
theorem stands_of_around {moment : Task × Decoder} (h : session.Rooted limit)
    (haround : session.Around operation opened moment) :
    Task.Stands session.top opened moment.1 moment.2.source := by
  induction haround with
  | asks hasks => exact stands_of_asks h hasks
  | enters _ henters ih => exact ih.enters henters
  | stays _ hcalls hstays ih => exact ih.stays hcalls hstays

/-- Every moment on the way of an operation is inside some containers, those of the session among
them. -/
theorem around_of_includes {moment : Task × Decoder} (h : session.Includes operation moment) :
    ∃ entered, session.Around operation (entered ++ session.opened) moment := by
  obtain ⟨start, hasks, hincludes⟩ := h
  induction hincludes with
  | refl => exact ⟨[], .asks hasks⟩
  | @tail middle last _ hcalls ih =>
    obtain ⟨entered, haround⟩ := ih
    -- a task either goes into a container or stays where the one before it stands
    by_cases henters : ∃ container, Task.Enters middle container last
    · obtain ⟨container, henters⟩ := henters
      exact ⟨container :: entered, haround.enters henters⟩
    · exact ⟨entered, haround.stays hcalls fun container h => henters ⟨container, h⟩⟩

end Session
end Ber
