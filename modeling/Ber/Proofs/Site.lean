import Ber.Proofs.Grammar
import Ber.Proofs.Stopping

/-!
# Ber.Proofs.Site — the places that draining gets to

A `Site` is a place where a value begins, told by the way there: past values, and into containers. It is
`Site.Reached` by draining if everything on the way is as it should be, under a limit and with a
greatest depth.

1. A site determines the source there, up to the octets that are still to come (`Site.source`).
2. No site that is reached is beyond the end of a definite container (`Site.Reached.le_ends`), and where
   the octets are exhausted, the nearest of these ends is (`Site.Reached.min_of_exhausted`).
3. A source is at a site (`Site.At`) initially, and it stays so: a value that is read leads to the site
   behind it (`Site.At.behind`), a container to the site inside (`Site.At.inside`).
-/

namespace Ber

/-! ## Sites -/

/-- A place in the data where a value begins. -/
inductive Site where
  /-- At the start of the data. -/
  | start
  /-- Behind a value. -/
  | behind (site : Site) (value : Encoding)
  /-- At the start of the content of a container, of which so many octets are announced. -/
  | inside (site : Site) (form : Form) (identifier : Identifier) (extent : Extent) (count : Nat)

namespace Site

/-- The octets in front of a site. -/
def octets : Site → Octets
  | start => []
  | behind site value => site.octets ++ value.octets
  | inside site _ identifier extent _ => site.octets ++ (identifier.octets ++ extent.opening)

/-- The number of octets in front of a site. -/
def position (site : Site) : Nat := site.octets.length

/-- The number of containers around a site. -/
def depth : Site → Nat
  | start => 0
  | behind site _ => site.depth
  | inside site .. => site.depth + 1

/-- The form of the innermost container around a site. -/
def form? : Site → Option Form
  | start => none
  | behind site _ => site.form?
  | inside _ form .. => some form

/-- Whether the innermost container around a site ends with a marker. -/
def isMarked : Site → Bool
  | start => false
  | behind site _ => site.isMarked
  | inside _ _ _ extent _ => extent.isMarked

/-- The positions where the definite containers around a site end, the innermost first. -/
def ends : Site → List Nat
  | start => []
  | behind site _ => site.ends
  | inside site form identifier extent count =>
    if extent.isMarked then site.ends
    else ((site.inside form identifier extent count).position + count) :: site.ends

/-- How many octets the innermost definite container around a site has left. -/
def available (site : Site) : Option Nat := site.ends.head?.map (· - site.position)

/-- The innermost container around a site ends there: with its marker, or behind its last octet. Outside of
containers the data ends. -/
def Ends (rest : Octets) (site : Site) : Prop :=
  if site.isMarked then [0, 0] <+: rest ∧ ∀ e ∈ site.ends, site.position + 2 ≤ e
  else site.available.elim (rest = []) (· = 0)

/-- What applies to a value at a site: its length has to be below what is left of the innermost definite
container, or below the limit if there is none. -/
def scope (limit maxDepth : Nat) (site : Site) : Scope where
  limit := site.available.getD limit
  depth := site.depth
  maxDepth := maxDepth

/-- Draining gets to a site: the values on the way are valid and fit, the containers may be entered, and
nothing reaches beyond the end of a definite container. In octet strings there are only octet strings. -/
inductive Reached (limit maxDepth : Nat) : Site → Prop where
  | start : Reached limit maxDepth .start
  | behind {site : Site} {value : Encoding} (hsite : Reached limit maxDepth site)
    (hvalid : value.Valid) (hfits : Encoding.FitIn [value] (site.scope limit maxDepth))
    (hmarker : site.isMarked → value.header ≠ [0, 0])
    (hsegment : site.form? = some .octetString → value.element.segment?.isSome)
    (hends : ∀ e ∈ site.ends, (site.behind value).position ≤ e) :
    Reached limit maxDepth (site.behind value)
  | inside {site : Site} {form : Form} {identifier : Identifier} {extent : Extent} {count : Nat}
    (hsite : Reached limit maxDepth site) (hidentifier : identifier.Written)
    (hlength : Length.Written extent.opening (extent.length count))
    (hnamed : form.NamedBy identifier extent.isMarked)
    (hconstructed : ∀ named, form = .tagged named → named.isConstructed)
    (hbelow : (extent.length count).Below (site.scope limit maxDepth).limit)
    (hdepth : site.depth < maxDepth)
    (hsegment : site.form? = some .octetString → form = .octetString)
    (hends : ∀ e ∈ site.ends, (site.inside form identifier extent count).position ≤ e) :
    Reached limit maxDepth (site.inside form identifier extent count)

/-! ## The source at a site -/

/-- The regions of the containers around a site, at a position in the innermost one. -/
def regions (position : Nat) : Site → List Region
  | start => []
  | behind site _ => site.regions position
  | inside site form identifier extent count =>
    (extent.region ((site.inside form identifier extent count).position + count - position)).watch
      false :: site.regions position

/-- The source at a site, with the octets that are still to come. -/
def source (site : Site) (rest : Octets) : Source :=
  ⟨site.regions site.position, ⟨rest.map .octet, site.position⟩⟩

variable {limit maxDepth position count : Nat} {site : Site} {c rest : Octets} {m : Source}

theorem regions_passing (position : Nat) (site : Site) :
    ∀ region ∈ site.regions position, region.Passing := by
  induction site with
  | start => exact fun _ h => nomatch h
  | behind site value ih => exact ih
  | inside site form identifier extent count ih =>
    refine List.forall_mem_cons.2 ⟨?_, ih⟩
    cases extent with
    | definite lengthOctets => trivial
    | marked => rfl

theorem source_passing (site : Site) (rest : Octets) : (site.source rest).Passing :=
  site.regions_passing site.position

theorem source_watch (site : Site) (rest : Octets) :
    (site.source rest).watch false = site.source rest := by
  have hpassing := site.source_passing rest
  generalize site.source rest = s at *
  rcases s with ⟨_ | ⟨_ | state, below⟩, reader⟩
  · rfl
  · rfl
  · have hstate : state = { watching := false } := hpassing (.marked state) List.mem_cons_self
    rw [hstate]
    rfl

@[simp] theorem source_position (site : Site) (rest : Octets) :
    (site.source rest).position = site.position := rfl

theorem source_rest (site : Site) (rest : Octets) : (site.source rest).rest = rest := by
  show (rest.map Arrival.octet).filterMap Arrival.octet? = rest
  rw [List.filterMap_map]
  exact List.filterMap_some

theorem source_calm (site : Site) (rest : Octets) : (site.source rest).Calm := by
  show rest.map Arrival.octet = (site.source rest).rest.map .octet
  rw [source_rest]

/-- Further into the innermost container, all regions are shorter by as much. -/
theorem regions_spend (position count : Nat) (site : Site) :
    (site.regions position).map (·.spend count) = site.regions (position + count) := by
  induction site with
  | start => rfl
  | behind site value ih => exact ih
  | inside site form identifier extent announced ih =>
    simp only [regions, List.map_cons, ih, List.cons.injEq, and_true]
    cases extent with
    | definite lengthOctets => exact congrArg Region.definite (Nat.sub_sub ..)
    | marked => rfl

/-- Definite regions have room up to the ends of their containers. -/
theorem hasRoom_regions_iff : (∀ region ∈ site.regions position, region.HasRoom count) ↔
    ∀ e ∈ site.ends, count ≤ e - position := by
  induction site with
  | start => simp [regions, ends]
  | behind site value ih => exact ih
  | inside site form identifier extent announced ih =>
    cases extent with
    | definite lengthOctets =>
      simp only [regions, ends, Extent.isMarked, Bool.false_eq_true, if_false, List.forall_mem_cons,
        ih]
      rfl
    | marked =>
      simp only [regions, ends, Extent.isMarked, if_true, List.forall_mem_cons, ih]
      exact and_iff_right trivial

/-- A definite region has no octets left exactly at the end of its container. -/
theorem definite_zero_mem_regions_iff :
    .definite 0 ∈ site.regions position ↔ ∃ e ∈ site.ends, e ≤ position := by
  induction site with
  | start => simp [regions, ends]
  | behind site value ih => exact ih
  | inside site form identifier extent announced ih =>
    cases extent with
    | definite lengthOctets =>
      simp only [regions, ends, Extent.isMarked, Bool.false_eq_true, if_false, List.mem_cons, ih,
        or_and_right, exists_or, exists_eq_left]
      refine or_congr ?_ Iff.rfl
      rw [← Nat.sub_eq_zero_iff_le]
      constructor
      · intro h
        exact (Region.definite.inj h).symm
      · intro h
        exact congrArg Region.definite h.symm
    | marked =>
      simp only [regions, ends, Extent.isMarked, if_true, List.mem_cons, ih]
      refine or_iff_right ?_
      intro h
      cases h

theorem available_source (site : Site) (rest : Octets) :
    (site.source rest).available = site.available := by
  show (site.regions site.position).foldr Region.available none = site.available
  unfold available
  generalize site.position = position
  induction site with
  | start => rfl
  | behind site value ih => exact ih
  | inside site form identifier extent announced ih =>
    cases extent with
    | definite lengthOctets => rfl
    | marked =>
      simp only [regions, ends, Extent.isMarked, if_true, List.foldr_cons, ih]
      cases site.ends.head? <;> rfl

theorem isMarked_source (site : Site) (rest : Octets) : (site.source rest).isMarked = site.isMarked := by
  show (site.regions site.position).head?.any Region.isMarked = site.isMarked
  generalize site.position = position
  induction site with
  | start => rfl
  | behind site value ih => exact ih
  | inside site form identifier extent announced ih => cases extent <;> rfl

/-- Octets are delivered from a site if they are the next ones and stay within every definite container
around it. -/
theorem delivers_source_iff : Source.Delivers c (site.source rest) m ↔
    ∃ rest', rest = c ++ rest' ∧ (∀ e ∈ site.ends, c.length ≤ e - site.position) ∧
      m = ⟨site.regions (site.position + c.length),
        ⟨rest'.map .octet, site.position + c.length⟩⟩ := by
  constructor
  · intro h
    have hrest : rest = c ++ m.rest := by
      rw [← site.source_rest rest]
      exact h.rest
    have hreader : m.reader = ⟨m.rest.map .octet, site.position + c.length⟩ := by
      have hdelivered := h.reader
      rw [show (site.source rest).reader = ⟨(c ++ m.rest).map .octet, site.position⟩ by
        rw [← hrest]; rfl] at hdelivered
      exact hdelivered.unique (Reader.delivers_ofData c m.rest site.position)
    have hregions : m.regions = site.regions (site.position + c.length) := by
      rw [← regions_spend]
      exact h.regions
    refine ⟨m.rest, hrest, hasRoom_regions_iff.1 h.room, ?_⟩
    rw [← hreader, ← hregions]
  · rintro ⟨rest', rfl, hroom, rfl⟩
    exact ⟨Reader.delivers_ofData c rest' site.position, (regions_spend ..).symm,
      hasRoom_regions_iff.2 hroom⟩

/-- A site outside of marked containers is outside of all containers, or the innermost region is the
definite one that has so many octets left. -/
theorem regions_of_not_isMarked (h : site.isMarked = false) :
    site.regions site.position = [] ∧ site.available = none ∧ site.ends = [] ∨
      ∃ left, site.available = some left ∧
        (site.regions site.position).head? = some (.definite left) := by
  unfold available
  generalize site.position = position
  induction site with
  | start => exact .inl ⟨rfl, rfl, rfl⟩
  | behind site value ih => exact ih h
  | inside site form identifier extent announced ih =>
    cases extent with
    | definite lengthOctets => exact .inr ⟨_, rfl, rfl⟩
    | marked => cases h

/-- Where the innermost container ends, no value is found. -/
theorem Ends.firstOctet? (h : site.Ends rest) :
    ∃ t, Source.firstOctet? (site.source rest) = .ok none t := by
  have hpassing := site.source_passing rest
  simp only [Source.firstOctet?_eq_none_iff hpassing.ready, isMarked_source]
  unfold Ends at h
  by_cases hmarked : site.isMarked
  · rw [if_pos hmarked] at h
    obtain ⟨⟨rest', rfl⟩, hends⟩ := h
    have hroom : ∀ e ∈ site.ends, [(0 : UInt8), 0].length ≤ e - site.position := by
      intro e hmem
      have hend := hends e hmem
      exact Nat.le_sub_of_add_le' hend
    have hdelivers := delivers_source_iff.2 ⟨rest', rfl, hroom, rfl⟩
    rw [← source_watch] at hdelivers
    exact ⟨_, .inr ⟨hmarked, _, hdelivers, rfl⟩⟩
  · rw [if_neg hmarked] at h
    have hmarked := Bool.eq_false_iff.2 hmarked
    rcases regions_of_not_isMarked hmarked with ⟨hregions, hnone, -⟩ | ⟨left, hleft, hhead⟩
    · rw [hnone] at h
      obtain rfl : rest = [] := h
      refine ⟨site.source [], .inl ⟨hmarked, (Source.octet?_eq_none_iff hpassing).2 (.inl ?_)⟩⟩
      exact ⟨hregions, hregions, rfl⟩
    · rw [hleft] at h
      obtain rfl : left = 0 := h
      exact ⟨_, .inl ⟨hmarked, (Source.octet?_eq_none_iff hpassing).2 (.inr ⟨hhead, rfl⟩)⟩⟩

/-! ## Sites that are reached -/

theorem Reached.le_ends (h : Reached limit maxDepth site) : ∀ e ∈ site.ends, site.position ≤ e := by
  cases h with
  | start => exact fun _ hmem => nomatch hmem
  | behind hsite hvalid hfits hmarker hsegment hends => exact hends
  | @inside site form identifier extent count _ _ _ _ _ _ _ _ hends =>
    intro e hmem
    unfold ends at hmem
    split at hmem
    · exact hends e hmem
    · rcases List.mem_cons.1 hmem with rfl | hmem
      · exact Nat.le_add_right ..
      · exact hends e hmem

theorem Reached.depth_le (h : Reached limit maxDepth site) : site.depth ≤ maxDepth := by
  induction h with
  | start => exact Nat.zero_le maxDepth
  | behind _ _ _ _ _ _ ih => exact ih
  | inside _ _ _ _ _ _ hdepth => exact hdepth

/-- How far octets delivered from a site that is reached lead: not beyond the end of any definite
container. -/
theorem Reached.delivered_le_ends (h : Reached limit maxDepth site)
    (hc : ∀ e ∈ site.ends, c.length ≤ e - site.position) :
    ∀ e ∈ site.ends, site.position + c.length ≤ e := by
  intro e hmem
  have hstart := h.le_ends e hmem
  have hlength := hc e hmem
  omega

/-- Where octets from a site are cut off, the data or a definite container ends: this is the least of
their ends, and of any others that are not nearer. -/
theorem Reached.min_of_exhausted {others : List Nat} (h : Reached limit maxDepth site)
    (hc : Source.Delivers c (site.source rest) m) (hexhausted : m.Exhausted)
    (hothers : ∀ n ∈ others, site.position + c.length ≤ n) :
    ((site.octets ++ rest).length :: (site.ends ++ others)).min? =
      some (site.position + c.length) := by
  obtain ⟨rest', rfl, hroom, rfl⟩ := delivers_source_iff.1 hc
  have hends := h.delivered_le_ends hroom
  have hdata : (site.octets ++ (c ++ rest')).length = site.position + c.length + rest'.length := by
    simp only [List.length_append, position]
    omega
  rw [List.min?_eq_some_iff]
  constructor
  · -- the data has ended, or the definite region without any octets left ends here
    rw [hdata]
    rcases hexhausted with hrest | hmem
    · have hnil : rest' = [] := by
        have hleft : (rest'.map Arrival.octet).filterMap Arrival.octet? = [] := hrest
        rw [List.filterMap_map] at hleft
        exact List.filterMap_some.symm.trans hleft
      rw [hnil]
      exact List.mem_cons_self
    · obtain ⟨e, hmem, hle⟩ := definite_zero_mem_regions_iff.1 hmem
      have heq : e = site.position + c.length := Nat.le_antisymm hle (hends e hmem)
      rw [← heq]
      exact List.mem_cons_of_mem _ (List.mem_append_left _ hmem)
  · intro e hmem
    rcases List.mem_cons.1 hmem with rfl | hmem
    · omega
    · exact (List.mem_append.1 hmem).elim (hends e) (hothers e)

end Site

/-! ## The sites that draining gets to -/

namespace Site

variable {limit maxDepth : Nat} {scope : Scope} {site next : Site} {rest : Octets} {s t u : Source}

/-- A source is at a site that is reached, and the values there are read in this scope. -/
structure At (limit maxDepth : Nat) (scope : Scope) (site : Site) (rest : Octets) (s : Source) :
    Prop where
  reached : site.Reached limit maxDepth
  source : s.watch false = site.source rest
  scope : scope.lower site.available = site.scope limit maxDepth

namespace At

theorem ready (h : At limit maxDepth scope site rest s) : s.Ready := by
  rw [Source.Ready, h.source]
  exact site.source_passing rest

theorem calm (h : At limit maxDepth scope site rest s) : s.Calm := by
  have hcalm : (s.watch false).Calm := by
    rw [h.source]
    exact site.source_calm rest
  exact hcalm

theorem available (h : At limit maxDepth scope site rest s) : s.available = site.available := by
  rw [← Source.available_watch false, h.source, available_source]

theorem isMarked (h : At limit maxDepth scope site rest s) : s.isMarked = site.isMarked := by
  rw [← Source.isMarked_watch false, h.source, isMarked_source]

theorem position (h : At limit maxDepth scope site rest s) : s.position = site.position :=
  congrArg Source.position h.source

theorem depth_le (h : At limit maxDepth scope site rest s) : scope.depth ≤ scope.maxDepth := by
  have hdepth := congrArg Scope.depth h.scope
  have hmaxDepth := congrArg Scope.maxDepth h.scope
  rw [Scope.lower_depth] at hdepth
  rw [Scope.lower_maxDepth] at hmaxDepth
  rw [hdepth, hmaxDepth]
  exact h.reached.depth_le

/-- The values of the same container are read in the same scope. -/
theorem scope_further (h : At limit maxDepth scope site rest s) (hends : next.ends = site.ends)
    (hdepth : next.depth = site.depth) (hle : site.position ≤ next.position) :
    scope.lower next.available = next.scope limit maxDepth := by
  have hscope := h.scope
  unfold Site.scope Site.available at *
  rw [hends, hdepth]
  -- the limit is what the definite container has left, and this is less further on
  cases hfirst : site.ends.head? with
  | none =>
    rw [hfirst] at hscope
    exact hscope
  | some e =>
    rw [hfirst] at hscope
    simp only [Option.map_some, Option.getD_some, Scope.lower, Scope.mk.injEq] at hscope ⊢
    refine ⟨?_, hscope.2⟩
    have hlimit := hscope.1
    omega

/-- Behind a value that is written there, a source is at the site behind it. -/
theorem behind {value : Encoding} (h : At limit maxDepth scope site rest s)
    (hvalue : Source.Written scope value s t)
    (hsegment : site.form? = some .octetString → value.element.segment?.isSome) :
    ∃ rest', rest = value.octets ++ rest' ∧
      At limit maxDepth scope (site.behind value) rest' t := by
  have hdelivers := hvalue.delivers
  rw [h.source] at hdelivers
  obtain ⟨rest', hrest, hroom, ht⟩ := delivers_source_iff.1 hdelivers
  have hposition : (site.behind value).position = site.position + value.octets.length :=
    List.length_append
  have hfits := hvalue.fitIn_lower h.ready
  rw [h.available, h.scope] at hfits
  refine ⟨rest', hrest, ⟨?_, ?_, h.scope_further rfl rfl ?_⟩⟩
  · refine .behind h.reached hvalue.valid hfits ?_ hsegment ?_
    · rw [← h.isMarked]
      exact hvalue.unmarked
    · rw [hposition]
      exact h.reached.delivered_le_ends hroom
  · have hfixed : t.watch false = t :=
      hvalue.delivers.watch_eq (Source.watch_watch ..)
    rw [hfixed, ht, ← hposition]
    rfl
  · rw [hposition]
    exact Nat.le_add_right ..

/-- In a container that is entered behind its header, a source is at the site inside it. -/
theorem inside {form : Form} {identifier : Identifier} {extent : Extent} {count : Nat}
    (h : At limit maxDepth scope site rest s)
    (hheaded : Source.Headed (site.scope limit maxDepth).limit identifier extent.opening
      (extent.length count) s u)
    (hnamed : form.NamedBy identifier extent.isMarked)
    (hconstructed : ∀ named, form = .tagged named → named.isConstructed)
    (hdepth : site.depth < maxDepth)
    (hsegment : site.form? = some .octetString → form = .octetString) :
    ∃ rest', rest = identifier.octets ++ extent.opening ++ rest' ∧
      At limit maxDepth ((site.scope limit maxDepth).inside (extent.region count))
        (site.inside form identifier extent count) rest' (u.enter (extent.region count)) := by
  have hdelivers := hheaded.delivers
  rw [h.source] at hdelivers
  obtain ⟨rest', hrest, hroom, hu⟩ := delivers_source_iff.1 hdelivers
  have hposition : (site.inside form identifier extent count).position =
      site.position + (identifier.octets ++ extent.opening).length := List.length_append
  refine ⟨rest', hrest, ⟨?_, ?_, ?_⟩⟩
  · refine .inside h.reached hheaded.identifierWritten hheaded.lengthWritten hnamed hconstructed
      hheaded.below hdepth hsegment ?_
    rw [hposition]
    exact h.reached.delivered_le_ends hroom
  · -- nothing of the content has been taken
    have hcount : (site.inside form identifier extent count).position + count -
        (site.inside form identifier extent count).position = count := Nat.add_sub_cancel_left ..
    rw [hu, ← hposition]
    simp only [Site.source, Site.regions, hcount]
    rfl
  · -- a definite container sets the limit by its length, a marked one leaves it to those around it
    cases extent with
    | definite lengthOctets =>
      simp only [Site.scope, Site.available, ends, Extent.isMarked, Bool.false_eq_true, if_false,
        List.head?_cons, Option.map_some, Option.getD_some, Nat.add_sub_cancel_left,
        Extent.region, Scope.inside, Scope.lower, Nat.min_self]
      rfl
    | marked =>
      have hle : site.position ≤ (site.inside form identifier .marked count).position := by
        rw [hposition]
        exact Nat.le_add_right ..
      simp only [Site.scope, Site.available, ends, Extent.isMarked, if_true, Extent.region,
        Scope.inside]
      cases site.ends.head? with
      | none => rfl
      | some e =>
        simp only [Option.map_some, Option.getD_some, Scope.lower, Scope.mk.injEq]
        exact ⟨by omega, rfl, trivial⟩

end At
end Site

end Ber
