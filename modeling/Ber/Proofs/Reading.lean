import Ber.Proofs.Advance

/-!
# Ber.Proofs.Reading — actions that take octets, also when they fail

A failure undoes nothing, so what holds of a source after every reading has to be shown for failures
as well.

1. `Source.Passes octets before after` says that octets have passed through the open regions, which
   count them, and that nothing else has changed. Where octets pass, taking an octet does nothing
   else (`Source.octet?_passes`).
2. An action is `Source.Octetwise` if it changes a source by nothing but taking octets. All that is
   read behind the first octet of a value is, unless a region is entered
   (`Source.Octetwise.of_scans`).
-/

namespace Ber

/-- A change afterwards changes what an action leaves. -/
theorem Action.final_afterwards {σ α : Type} (change : σ → σ) (action : Action σ α) (state : σ) :
    final (afterwards change action state) = change (final (action state)) := by
  unfold afterwards
  cases action state <;> rfl

/-- What is kept step by step is kept by a sequence. -/
theorem Action.Keeps.bind {σ α β : Type} {P : σ → Prop} {action : Action σ α} {rest : α → Action σ β}
    (haction : Keeps P action) (hrest : ∀ a, Keeps P (rest a)) : Keeps P (action >>= rest) := by
  intro state hstate
  have hkept := haction state hstate
  simp only [Bind.bind, EStateM.bind]
  cases hrun : action state with
  | error failure middle =>
    rw [hrun] at hkept
    exact hkept
  | ok a middle =>
    rw [hrun] at hkept
    exact hrest a middle hkept

/-- A reader that fails has delivered nothing. -/
theorem Reader.nextFrom_eq_error {position : Nat} {arrivals : List Arrival} {failure : Failure}
    {after : Reader} (h : nextFrom position arrivals = .error failure after) :
    after.octetsLeft = arrivals.filterMap Arrival.octet? ∧ after.position = position := by
  fun_induction nextFrom position arrivals with
  | case1 => cases h
  | case2 value rest => cases h
  | case3 rest ih => exact ih h
  | case4 reason rest =>
    cases h
    exact ⟨rfl, rfl⟩

/-- A region as it is opened for content. -/
def Region.Fresh (region : Region) : Prop := (region.watch false).Passing

namespace Source

variable {c e : Octets} {s t u : Source} {α β : Type}

/-! ## Passing octets on -/

/-- Octets have passed through all open regions, which count them. -/
structure Passes (octets : Octets) (before after : Source) : Prop where
  rest : before.rest = octets ++ after.rest
  position : after.position = before.position + octets.length
  regions : after.regions = before.regions.map (·.spend octets.length)
  room : ∀ region ∈ before.regions, region.HasRoom octets.length

/-- What is delivered passes. -/
theorem Delivers.passes (h : Delivers c s t) : Passes c s t := ⟨h.rest, h.position, h.regions, h.room⟩

namespace Passes

theorem nil (s : Source) : Passes [] s s := (delivers_nil.2 rfl).passes

/-- A source whose reader alone has changed, and has delivered nothing. -/
theorem of_reader (hregions : t.regions = s.regions) (hrest : t.rest = s.rest)
    (hposition : t.position = s.position) : Passes [] s t := by
  have hnil := nil s
  refine ⟨hrest.symm, hposition, ?_, hnil.room⟩
  rw [hregions]
  exact hnil.regions

theorem append (hc : Passes c s t) (he : Passes e t u) : Passes (c ++ e) s u := by
  refine ⟨?_, ?_, ?_, ?_⟩
  · rw [hc.rest, he.rest, List.append_assoc]
  · rw [he.position, hc.position, List.length_append, Nat.add_assoc]
  · rw [he.regions, hc.regions, List.map_map, List.length_append]
    exact List.map_congr_left fun region _ => (Region.spend_add _ _ region).symm
  · intro region hmem
    rw [List.length_append]
    refine Region.hasRoom_add.2 ⟨hc.room region hmem, he.room _ ?_⟩
    rw [hc.regions]
    exact List.mem_map_of_mem hmem

theorem passing (h : Passes c s t) (hs : s.Passing) : t.Passing := by
  intro region hmem
  rw [h.regions] at hmem
  obtain ⟨origin, horigin, rfl⟩ := List.mem_map.1 hmem
  exact (hs origin horigin).spend _

/-- What passes below a region with room passes through it. -/
theorem enter {region : Region} (h : Passes c s t) (hroom : region.HasRoom c.length) :
    Passes c (s.enter region) (t.enter (region.spend c.length)) := by
  refine ⟨h.rest, h.position, ?_, ?_⟩
  · simp [Source.enter, h.regions]
  · intro r hr
    rcases List.mem_cons.1 hr with rfl | hr
    · exact hroom
    · exact h.room r hr

/-- What passes does not make a source look for its marker. -/
theorem watch_eq (h : Passes c s t) (hs : s.watch false = s) : t.watch false = t := by
  have hregions : s.regions.modifyHead (·.watch false) = s.regions := congrArg Source.regions hs
  have hafter : t.regions.modifyHead (·.watch false) = t.regions := by
    rw [h.regions]
    cases hcases : s.regions with
    | nil => rfl
    | cons region below =>
      rw [hcases] at hregions
      have hhead : region.watch false = region := (List.cons.inj hregions).1
      have hspend : (region.spend c.length).watch false = (region.watch false).spend c.length := by
        cases region <;> rfl
      show (region.spend c.length).watch false :: _ = region.spend c.length :: _
      rw [hspend, hhead]
  show (⟨t.regions.modifyHead (·.watch false), t.reader⟩ : Source) = t
  rw [hafter]

/-- What passes advances the source. -/
theorem advances (h : Passes c (s.watch false) t) (hs : s.Ready) : Advances c s t := by
  refine ⟨.inl (h.passing hs).ready, h.position, h.rest, ?_, ?_⟩
  · rw [h.regions]
    obtain ⟨_ | ⟨region, below⟩, reader⟩ := s <;> simp [Source.watch]
  · intro region hmem
    have hroom := h.room
    rcases s with ⟨regions, reader⟩
    cases regions with
    | nil => exact absurd hmem List.not_mem_nil
    | cons head below =>
      rcases List.mem_cons.1 hmem with rfl | hmem
      · exact Region.hasRoom_watch.1 (hroom (region.watch false) List.mem_cons_self)
      · exact hroom region (List.mem_cons_of_mem _ hmem)

end Passes

/-! ## Taking an octet -/

/-- A source that lets octets pass stays where it is at its end. -/
theorem octet?_none_passes (hs : s.Passing) (h : octet? s = .ok none t) : Passes [] s t := by
  rcases (octet?_eq_none_iff hs).1 h with ⟨hregions, hafter, hnext⟩ | ⟨-, rfl⟩
  · obtain ⟨hleft, hreader⟩ := Reader.nextFrom_eq_none hnext
    refine .of_reader (hafter.trans hregions.symm) ?_ ?_
    · rw [rest, hreader]
      exact hleft.symm
    · rw [position, hreader]
      rfl
  · exact .nil _

/-- A source that fails to hand out an octet stays where it is. -/
theorem octet?_error_passes {failure : Failure} (hs : s.Passing)
    (h : octet? s = .error failure t) : Passes [] s t := by
  rcases s with ⟨regions, reader⟩
  induction regions generalizing t with
  | nil =>
    rw [octet?_nil] at h
    cases hrun : reader.next with
    | ok found after =>
      rw [hrun] at h
      cases h
    | error failure after =>
      rw [hrun] at h
      cases h
      obtain ⟨hrest, hposition⟩ := Reader.nextFrom_eq_error hrun
      exact .of_reader rfl hrest hposition
  | cons region below ih =>
    have hbelow : Passing ⟨below, reader⟩ := fun r hr => hs r (List.mem_cons_of_mem _ hr)
    have hpassing : region.Passing := hs region List.mem_cons_self
    rw [show (⟨region :: below, reader⟩ : Source) = enter region ⟨below, reader⟩ from rfl] at h ⊢
    by_cases hroom : region.HasRoom 1
    · -- the region asks those below it, which fail or are at their end
      have hzero : region.HasRoom ([] : Octets).length := by
        cases region <;> simp [Region.HasRoom]
      have hsame : ∀ {u : Source}, Passes [] ⟨below, reader⟩ u →
          Passes [] (enter region ⟨below, reader⟩) (u.enter region) := by
        intro u hu
        have hentered := hu.enter hzero
        rwa [List.length_nil, Region.spend_zero] at hentered
      rw [octet?_enter, Region.take_of_passing hpassing hroom, Supply.require] at h
      cases hrun : octet? ⟨below, reader⟩ with
      | error failure' u =>
        simp only [hrun] at h
        cases h
        exact hsame (ih hbelow hrun)
      | ok found u =>
        simp only [hrun] at h
        cases found with
        | some b => cases h
        | none =>
          cases h
          exact hsame (octet?_none_passes hbelow hrun)
    · cases region with
      | marked state => exact absurd trivial hroom
      | definite remaining =>
        have hzero : remaining = 0 := Nat.lt_one_iff.1 (Nat.lt_of_not_le hroom)
        subst hzero
        rw [octet?_enter_definite_zero] at h
        cases h

/-- Taking an octet of a source that lets octets pass does nothing else. -/
theorem octet?_passes (hs : s.Passing) : ∃ c, Passes c s (Action.final (octet? s)) := by
  cases hrun : octet? s with
  | error failure t => exact ⟨[], octet?_error_passes hs hrun⟩
  | ok found t =>
    cases found with
    | none => exact ⟨[], octet?_none_passes hs hrun⟩
    | some b => exact ⟨[b], ((octet?_eq_some_iff hs).1 hrun).passes⟩

/-- Wherever octets have passed from, taking an octet lets octets pass from there. -/
theorem octet?_keeps_passes (s : Source) :
    Action.Keeps (fun t => t.Passing ∧ ∃ c, Passes c s t) octet? := by
  rintro t ⟨ht, c, hc⟩
  obtain ⟨e, he⟩ := octet?_passes ht
  exact ⟨he.passing ht, c ++ e, hc.append he⟩

/-- Taking an octet in an opened region keeps below it what taking an octet keeps there. -/
theorem octet?_keeps_below {P : Source → Prop} (hkeep : Action.Keeps P octet?) :
    Action.Keeps (fun t => ∃ region u, t = enter region u ∧ P u) octet? := by
  rintro _ ⟨region, u, rfl, hu⟩
  have hkept := @Region.take_keeps _ _ ⟨octet?, position⟩ hkeep (region, u) hu
  rw [octet?_enter]
  cases hrun : Region.take ⟨octet?, position⟩ (region, u) with
  | ok found after =>
    rw [hrun] at hkept
    exact ⟨after.1, after.2, rfl, hkept⟩
  | error failure after =>
    rw [hrun] at hkept
    exact ⟨after.1, after.2, rfl, hkept⟩

/-- Taking the first octet of a value leaves the marker unwatched. -/
theorem final_firstOctet? (s : Source) :
    Action.final (firstOctet? s) = (Action.final (octet? (s.watch true))).watch false :=
  Action.final_afterwards ..

/-- What taking an octet keeps, whether the marker is looked for or not, taking the first octet of a
value keeps. -/
theorem firstOctet?_keeps {P : Source → Prop} (hkeep : Action.Keeps P octet?)
    (hwatch : ∀ s enabled, P s → P (s.watch enabled)) : Action.Keeps P firstOctet? := by
  intro s hs
  have hfirst := hkeep (s.watch true) (hwatch s true hs)
  rw [final_firstOctet?]
  exact hwatch _ false hfirst

/-! ## Actions that take octets -/

/-- An action that changes a source by nothing but taking octets: whatever taking an octet keeps, it
keeps, whether it fails or not. -/
def Octetwise (action : Taking α) : Prop :=
  ∀ P : Source → Prop, Action.Keeps P octet? → Action.Keeps P action

namespace Octetwise

theorem pure (a : α) : Octetwise (pure a : Taking α) := fun _ _ _ hs => hs

theorem fail (cause : Cause) : Octetwise (fail cause : Taking α) := fun _ _ _ hs => hs

theorem bind {action : Taking α} {rest : α → Taking β} (haction : Octetwise action)
    (hrest : ∀ a, Octetwise (rest a)) : Octetwise (action >>= rest) :=
  fun P hkeep => (haction P hkeep).bind fun a => hrest a P hkeep

/-- Where octets pass, such an action lets octets pass, and does nothing else. -/
theorem passes {action : Taking α} (haction : Octetwise action) (hs : s.Passing) :
    ∃ c, Passes c s (Action.final (action s)) :=
  (haction _ (octet?_keeps_passes s) s ⟨hs, [], .nil s⟩).2

end Octetwise

theorem octet_octetwise : Octetwise octet := by
  have hoctet? : Octetwise octet? := fun _ hkeep => hkeep
  refine hoctet?.bind fun found => ?_
  cases found with
  | none => exact .fail _
  | some b => exact .pure _

theorem exhaust_octetwise : Octetwise exhaust := by
  intro P hkeep s hs
  generalize hleft : s.left = left
  induction left using Nat.strongRecOn generalizing s with
  | ind left ih =>
    subst hleft
    have hkept := hkeep s hs
    rw [exhaust]
    split
    · rename_i octet after hrun
      rw [hrun] at hkept
      have hless := left_of_octet?_eq_ok hrun
      exact ih _ (by omega) after hkept rfl
    · rename_i after hrun
      rw [hrun] at hkept
      exact hkept
    · rename_i failure after hrun
      rw [hrun] at hkept
      exact hkept

/-- Skipping takes octets through the regions around it. -/
theorem within_skipToEnd_octetwise : Octetwise (within (.marked {}) skipToEnd) := by
  intro P hkeep s hs
  obtain ⟨region, u, hfinal, hu⟩ :=
    exhaust_octetwise _ (octet?_keeps_below hkeep) (s.enter (.marked {})) ⟨.marked {}, s, rfl, hs⟩
  have hwithin : Action.final (within (.marked {}) skipToEnd s) =
      (Action.final (exhaust (s.enter (.marked {})))).leave := Action.final_afterwards ..
  rw [hwithin, hfinal]
  exact hu

/-- What is put together from taking octets does nothing else. -/
theorem Octetwise.of_scans {action : Taking α} (h : Scans action) : Octetwise action := by
  induction h with
  | pure a => exact .pure a
  | fail cause => exact .fail cause
  | octet => exact octet_octetwise
  | skip => exact within_skipToEnd_octetwise
  | bind _ _ haction hrest => exact haction.bind hrest

end Source

/-! ## Content that is entered -/

/-- Only the content of containers is entered, and in a region without a past. -/
theorem Content.fresh_of {identifier : Identifier} {length : Length} {form : Form}
    {region : Region} (h : Content.of identifier length = .entered form region) :
    region.Fresh := by
  have hallowed := Content.allowed_of identifier length
  rw [h] at hallowed
  cases region with
  | definite count => trivial
  | marked state =>
    obtain ⟨-, rfl, -⟩ := hallowed
    rfl

end Ber
