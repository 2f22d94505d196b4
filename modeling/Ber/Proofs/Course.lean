import Ber.Proofs.Reading
import Ber.Proofs.Steps

/-!
# Ber.Proofs.Course — where reading as a whole leads

Reading as a whole takes values one after the other, and whatever it opens it gives up again. So what
can be said of taking a value, and of going into a container and out again, can be said of joining
segments, of draining, and of taking a value as a whole.

A `Course` is such a relation between the source that reading starts from and the source that it
leaves, whether it fails or not. `Course.Follows` says that an action leads there.
-/

namespace Ber.Source

/-- A relation between sources and where reading leads from them. -/
structure Course where
  /-- Where reading may start. -/
  starts : Source → Prop
  leads : Source → Source → Prop
  refl : ∀ {s}, starts s → leads s s
  trans : ∀ {s t u}, leads s t → leads t u → leads s u
  starts_of_leads : ∀ {s t}, starts s → leads s t → starts t
  remainder : ∀ {s}, starts s → leads s (Action.final (Source.remainder s))
  /-- Taking a value that is no container leads somewhere, and so does finding none or failing. -/
  next : ∀ {scope s}, starts s →
    (∀ container t, Source.next scope s ≠ .ok (some (.container container)) t) →
    leads s (Action.final (Source.next scope s))
  /-- From a container that was opened, reading leads out of it. -/
  opens : ∀ {scope s t container}, starts s →
    Source.next scope s = .ok (some (.container container)) t →
    starts t ∧ ∀ u, leads t u → leads s u.leave

/-- What follows goes on where an action has led, unless that fails. -/
theorem final_bind {α β : Type} (action : Taking α) (rest : α → Taking β) (s : Source) :
    (∃ failure t, action s = .error failure t ∧ Action.final ((action >>= rest) s) = t) ∨
      ∃ a t, action s = .ok a t ∧
        Action.final ((action >>= rest) s) = Action.final (rest a t) := by
  simp only [Bind.bind, EStateM.bind]
  cases hrun : action s with
  | error failure t => exact .inl ⟨failure, t, rfl, rfl⟩
  | ok a t => exact .inr ⟨a, t, rfl, rfl⟩

namespace Course

variable {course : Course} {scope : Scope} {s t : Source} {α β : Type}

/-- An action leads from where reading may start, whether it fails or not. -/
def Follows (course : Course) (action : Taking α) : Prop :=
  ∀ s, course.starts s → course.leads s (Action.final (action s))

/-- An action leads out of a container that was opened. -/
def LeadsOut (course : Course) (action : Taking α) : Prop :=
  ∀ s t, course.starts s → course.starts t → (∀ u, course.leads t u → course.leads s u.leave) →
    course.leads s (Action.final (action t))

namespace Follows

theorem pure (a : α) : course.Follows (pure a : Taking α) := fun _ hs => course.refl hs

theorem fail (cause : Cause) : course.Follows (fail cause : Taking α) :=
  fun _ hs => course.refl hs

theorem throw (failure : Failure) : course.Follows (throw failure : Taking α) :=
  fun _ hs => course.refl hs

/-- Where an action leads, the rest goes on. -/
theorem bind {action : Taking α} {rest : α → Taking β} (haction : course.Follows action)
    (hrest : ∀ a, course.Follows (rest a)) : course.Follows (action >>= rest) := by
  intro s hs
  have hfirst := haction s hs
  rcases final_bind action rest s with ⟨failure, t, hrun, hfinal⟩ | ⟨a, t, hrun, hfinal⟩
  · rw [hrun] at hfirst
    rw [hfinal]
    exact hfirst
  · rw [hrun] at hfirst
    rw [hfinal]
    exact course.trans hfirst (hrest a t (course.starts_of_leads hs hfirst))

/-- A container may be given up behind what was read in it. -/
theorem leaving {action : Taking α} (haction : course.Follows action) :
    course.LeadsOut (Action.afterwards leave action) := by
  intro s t hs ht hout
  rw [Action.final_afterwards]
  exact hout _ (haction t ht)

end Follows

theorem LeadsOut.bind {action : Taking α} {rest : α → Taking β} (haction : course.LeadsOut action)
    (hrest : ∀ a, course.Follows (rest a)) : course.LeadsOut (action >>= rest) := by
  intro s t hs ht hout
  have hfirst := haction s t hs ht hout
  rcases final_bind action rest t with ⟨failure, m, hrun, hfinal⟩ | ⟨a, m, hrun, hfinal⟩
  · rw [hrun] at hfirst
    rw [hfinal]
    exact hfirst
  · rw [hrun] at hfirst
    rw [hfinal]
    exact course.trans hfirst (hrest a m (course.starts_of_leads hs hfirst))

/-- An action that goes on with the next value. -/
theorem Follows.next {use : Option Item → Taking α} (hended : course.Follows (use none))
    (hvalue : ∀ item, item.isContainer = false → course.Follows (use (some item)))
    (hcontainer : ∀ container, course.LeadsOut (use (some (.container container)))) :
    course.Follows (Source.next scope >>= use) := by
  intro s hs
  rcases final_bind (Source.next scope) use s with ⟨failure, t, hrun, hfinal⟩ |
    ⟨found, t, hrun, hfinal⟩
  · have hnext := @course.next scope s hs fun _ _ h => nomatch hrun.symm.trans h
    rw [hrun] at hnext
    rw [hfinal]
    exact hnext
  · rw [hfinal]
    by_cases hopened : ∃ container, found = some (.container container)
    · obtain ⟨container, rfl⟩ := hopened
      obtain ⟨ht, hout⟩ := course.opens hs hrun
      exact hcontainer container s t hs ht hout
    · have hnext := @course.next scope s hs fun container m h =>
        hopened ⟨container, by cases hrun.symm.trans h; rfl⟩
      rw [hrun] at hnext
      have huse : course.Follows (use found) := by
        match found with
        | none => exact hended
        | some (.container container) => exact absurd ⟨container, rfl⟩ hopened
        | some (.primitive value) => exact hvalue _ rfl
        | some (.uninterpreted identifier content) => exact hvalue _ rfl
      exact course.trans hnext (huse t (course.starts_of_leads hs hnext))

/-! ## Reading as a whole -/

variable (course)

theorem joinedWithin (bound : Nat) (scope : Scope) (pieces : List Octets) :
    course.Follows (Source.joinedWithin bound scope pieces) := by
  induction bound generalizing scope pieces with
  | zero => exact .fail _
  | succ bound ih =>
    intro s hs
    -- the position before the value is part of what is done with it
    show course.leads s (Action.final ((Source.next scope >>= _) s))
    refine Follows.next ?_ (fun item hitem => ?_) (fun container => ?_) s hs
    · exact .pure _
    · match item with
      | .container _ => cases hitem
      | .uninterpreted _ _ => exact .throw _
      | .primitive value =>
        cases value with
        | octetString octets => exact ih _ _
        | _ => exact .throw _
    · rcases container with ⟨form, inner, isIndefinite⟩
      cases form with
      | octetString => exact (ih inner []).leaving.bind fun octets => ih _ _
      | _ => exact (Follows.throw _).leaving

variable {course}

/-- Reading a container follows a course if draining and joining do. -/
theorem contentsWith {drain : Scope → Taking (List Element)} {join : Scope → Taking Octets}
    (hdrain : ∀ scope, course.Follows (drain scope)) (hjoin : ∀ scope, course.Follows (join scope))
    (container : Container) : course.Follows (Source.contentsWith drain join container) := by
  unfold Source.contentsWith
  cases container.form with
  | sequence => exact (hdrain _).bind fun _ => .pure _
  | set => exact (hdrain _).bind fun _ => .pure _
  | octetString => exact (hjoin _).bind fun _ => .pure _
  | tagged identifier =>
    by_cases hconstructed : identifier.isConstructed
    · simp only [hconstructed, if_true]
      exact (hdrain _).bind fun _ => .pure _
    · simp only [hconstructed]
      exact Follows.bind (fun _ hs => course.remainder hs) fun _ => .pure _

variable (course)

theorem elementsWithin (bound : Nat) (scope : Scope) (taken : List Element) :
    course.Follows (Source.elementsWithin bound scope taken) := by
  induction bound generalizing scope taken with
  | zero => exact .fail _
  | succ bound ih =>
    refine Follows.next (.pure _) (fun item hitem => ?_) (fun container => ?_)
    · match item with
      | .container _ => cases hitem
      | .uninterpreted _ _ => exact (Follows.pure _).bind fun element => ih _ _
      | .primitive _ => exact (Follows.pure _).bind fun element => ih _ _
    · have hcontents : course.Follows (Source.contentsWith (Source.elementsWithin bound · [])
          (Source.joinedWithin bound · []) container) :=
        contentsWith (ih · []) (course.joinedWithin bound · []) container
      exact hcontents.leaving.bind fun element => ih _ _

theorem joinedFrom (scope : Scope) (pieces : List Octets) :
    course.Follows (Source.joinedFrom scope pieces) := fun s =>
  course.joinedWithin (s.left + 1) scope pieces s

theorem elementsFrom (scope : Scope) (taken : List Element) :
    course.Follows (Source.elementsFrom scope taken) := fun s =>
  course.elementsWithin (s.left + 1) scope taken s

theorem contents (container : Container) : course.Follows (Source.contents container) :=
  contentsWith (course.elementsFrom · []) (course.joinedFrom · []) container

theorem nextElement (scope : Scope) : course.Follows (Source.nextElement scope) := by
  refine Follows.next (.pure _) (fun item hitem => ?_) (fun container => ?_)
  · match item with
    | .container _ => cases hitem
    | .uninterpreted _ _ => exact (Follows.pure _).bind fun element => .pure _
    | .primitive _ => exact (Follows.pure _).bind fun element => .pure _
  · exact (course.contents container).leaving.bind fun element => .pure _

/-- An action that reads something as a whole, or nothing at all. -/
inductive Whole : {α : Type} → Taking α → Prop where
  | nothing : Whole (pure () : Taking Unit)
  | remainder : Whole Source.remainder
  | joined (scope : Scope) : Whole (Source.joinedFrom scope [])
  | elements (scope : Scope) : Whole (Source.elementsFrom scope [])
  | contents (container : Container) : Whole (Source.contents container)
  | nextElement (scope : Scope) : Whole (Source.nextElement scope)

/-- Whatever reads as a whole follows every course. -/
theorem of_whole {action : Taking α} (h : Whole action) : course.Follows action := by
  cases h with
  | nothing => exact .pure ()
  | remainder => exact fun _ hs => course.remainder hs
  | joined scope => exact course.joinedFrom scope []
  | elements scope => exact course.elementsFrom scope []
  | contents container => exact course.contents container
  | nextElement scope => exact course.nextElement scope

end Course
end Ber.Source
