import Ber.Proofs.Draining

/-!
# Ber.Proofs.Grammar — draining reads what is written

Draining a region succeeds exactly if its octets are valid encodings that fit in the scope, and the
elements are those encoded:

* `elementsFrom_sound`: whatever is drained was written so, from the first octet to the last;
* `elementsFrom_complete`: whatever is written so is drained.

Both follow the nesting of values. A region is left where `EndsAfter` says that it ends: a definite
one behind its last octet, a marked one behind its marker.
-/

namespace Ber

/-! ## Where regions end -/

namespace Extent

/-- The region that is opened for so much content. -/
def region (count : Nat) : Extent → Region
  | definite _ => .definite count
  | marked => .marked {}

/-- A container that is entered has one of the two extents. -/
theorem of_allowed {form : Form} {identifier : Identifier} {length : Length}
    {region : Region} {lengthOctets : Octets}
    (h : (Content.entered form region).Allowed identifier length)
    (hlength : Length.Written lengthOctets length) :
    ∃ (extent : Extent) (count : Nat), region = extent.region count ∧
      lengthOctets = extent.opening ∧ length = extent.length count ∧
      form.NamedBy identifier extent.isMarked := by
  cases region with
  | definite count =>
    rcases h with ⟨rfl, hnamed⟩
    exact ⟨definite lengthOctets, count, rfl, rfl, rfl, hnamed⟩
  | marked state =>
    rcases h with ⟨rfl, rfl, hnamed⟩
    cases hlength
    exact ⟨marked, 0, rfl, rfl, rfl, hnamed⟩

/-- A container may be entered behind an identifier of its form. -/
theorem allowed {form : Form} {identifier : Identifier} {extent : Extent} {count : Nat}
    (h : form.NamedBy identifier extent.isMarked) :
    (Content.entered form (extent.region count)).Allowed identifier (extent.length count) := by
  cases extent with
  | definite lengthOctets => exact ⟨rfl, h⟩
  | marked => exact ⟨rfl, rfl, h⟩

/-- The content that a region opened by an extent may have is told by its length, if at all. -/
theorem region_length_congr {extent : Extent} {count other : Nat}
    (h : extent.isMarked = false → other = count) :
    extent.region count = extent.region other ∧ extent.length count = extent.length other := by
  cases extent with
  | definite lengthOctets => rw [h rfl]; exact ⟨rfl, rfl⟩
  | marked => exact ⟨rfl, rfl⟩

@[simp] theorem isMarked_region (extent : Extent) (count : Nat) :
    (extent.region count).isMarked = extent.isMarked := by
  cases extent <;> rfl

end Extent

namespace Source

variable {c e : Octets} {s t m : Source}

/-- The innermost region hands out octets and then ends. -/
def EndsAfter (c : Octets) (s t : Source) : Prop :=
  ∃ u, Delivers c (s.watch false) u ∧ firstOctet? u = .ok none t

theorem firstOctet?_watch (enabled : Bool) (s : Source) :
    firstOctet? (s.watch enabled) = firstOctet? s := by
  simp only [firstOctet?, Action.afterwards, watch_watch]

theorem endsAfter_nil : EndsAfter [] s t ↔ firstOctet? s = .ok none t := by
  simp only [EndsAfter, delivers_nil, exists_eq_left', firstOctet?_watch]

/-- What has been delivered stands in front of what is still to come. -/
theorem endsAfter_append (h : Delivers c (s.watch false) m) :
    EndsAfter (c ++ e) s t ↔ EndsAfter e m t := by
  have hm : m.watch false = m := h.watch_eq (watch_watch ..)
  simp only [EndsAfter, hm, delivers_append]
  constructor
  · intro h
    rcases h with ⟨u, ⟨m', hc, he⟩, hend⟩
    cases h.unique hc
    exact ⟨u, he, hend⟩
  · intro h
    rcases h with ⟨u, he, hend⟩
    exact ⟨u, ⟨m, h, he⟩, hend⟩

/-- A definite region ends behind so many octets. -/
theorem endsAfter_enter_definite {count : Nat} (hm : m.Passing) :
    EndsAfter c (m.enter (.definite count)) t ↔
      c.length = count ∧ ∃ u, Delivers c m u ∧ t = u.enter (.definite 0) := by
  have hwatch : (m.enter (.definite count)).watch false = m.enter (.definite count) := rfl
  simp only [EndsAfter, hwatch, delivers_enter]
  constructor
  · intro h
    rcases h with ⟨v, ⟨hroom, u, hu, rfl⟩, hend⟩
    have hpassing : (u.enter (.definite (count - c.length))).Passing :=
      (hu.passing hm).enter trivial
    rcases (firstOctet?_eq_none_iff hpassing.ready).1 hend with ⟨-, hnone⟩ | ⟨hmarked, -⟩
    · rcases (octet?_eq_none_iff hpassing).1 hnone with ⟨hregions, -⟩ | ⟨hhead, rfl⟩
      · cases hregions
      · have hzero : count - c.length = 0 := by simpa [enter] using hhead
        have hle : c.length ≤ count := hroom
        exact ⟨by omega, u, hu, by simp only [hzero]⟩
    · cases hmarked
  · intro h
    rcases h with ⟨rfl, u, hu, rfl⟩
    refine ⟨_, ⟨Nat.le_refl _, u, hu, rfl⟩, ?_⟩
    simp only [Region.spend, Nat.sub_self]
    exact firstOctet?_eq_ok.2 ⟨_, octet?_enter_definite_zero u, rfl⟩

/-- A marked region ends behind its marker. -/
theorem endsAfter_enter_marked (hm : m.Passing) :
    EndsAfter c (m.enter (.marked {})) t ↔
      ∃ u, Delivers (c ++ [0, 0]) m u ∧
        t = u.enter (.marked { watching := false, closed := true }) := by
  have hwatch : (m.enter (.marked {})).watch false = m.enter (.marked { watching := false }) := rfl
  simp only [EndsAfter, hwatch, delivers_enter, delivers_append]
  constructor
  · intro h
    rcases h with ⟨v, ⟨-, u, hu, rfl⟩, hend⟩
    have hready : (u.enter (.marked { watching := false })).Ready :=
      (hu.passing hm).ready_enter rfl
    rcases (firstOctet?_eq_none_iff hready).1 hend with ⟨hmarked, -⟩ | ⟨-, w, hw, rfl⟩
    · cases hmarked
    · obtain ⟨-, v, hv, rfl⟩ := delivers_enter.1 (show Delivers [0, 0]
        (u.enter (.marked { watching := false })) w from hw)
      exact ⟨v, ⟨u, hu, hv⟩, rfl⟩
  · intro h
    rcases h with ⟨w, ⟨u, hu, hw⟩, rfl⟩
    refine ⟨u.enter (.marked { watching := false }), ⟨trivial, u, hu, rfl⟩, ?_⟩
    have hready : (u.enter (.marked { watching := false })).Ready :=
      (hu.passing hm).ready_enter rfl
    exact (firstOctet?_eq_none_iff hready).2
      (.inr ⟨rfl, w.enter (.marked { watching := false }),
        delivers_enter.2 ⟨trivial, w, hw, rfl⟩, rfl⟩)

/-- What is left behind a region that has ended: the octets behind its content, or its marker. -/
theorem endsAfter_extent {extent : Extent} {count : Nat} (hm : m.Passing) :
    (∃ u, EndsAfter c (m.enter (extent.region count)) u ∧ u.leave = t) ↔
      (extent.isMarked = false → c.length = count) ∧ Delivers (c ++ extent.closing) m t := by
  cases extent with
  | definite lengthOctets =>
    simp only [Extent.region, endsAfter_enter_definite hm, Extent.isMarked, Extent.closing,
      true_implies, List.append_nil]
    constructor
    · intro h
      rcases h with ⟨u, ⟨hlength, w, hw, rfl⟩, rfl⟩
      exact ⟨hlength, hw⟩
    · intro h
      rcases h with ⟨hlength, ht⟩
      exact ⟨_, ⟨hlength, t, ht, rfl⟩, rfl⟩
  | marked =>
    simp only [Extent.region, endsAfter_enter_marked hm, Extent.isMarked, Extent.closing,
      Bool.true_eq_false, false_implies, true_and]
    constructor
    · intro h
      rcases h with ⟨u, ⟨w, hw, rfl⟩, rfl⟩
      exact hw
    · intro ht
      exact ⟨_, ⟨t, ht, rfl⟩, rfl⟩

end Source

/-! ## Values that fit in a scope -/

namespace Scope

variable {scope : Scope}

@[simp] theorem lower_depth (available : Option Nat) :
    (scope.lower available).depth = scope.depth := by
  cases available <;> rfl

@[simp] theorem lower_maxDepth (available : Option Nat) :
    (scope.lower available).maxDepth = scope.maxDepth := by
  cases available <;> rfl

@[simp] theorem inside_depth (region : Region) :
    (scope.inside region).depth = scope.depth + 1 := by
  cases region <;> rfl

@[simp] theorem inside_maxDepth (region : Region) :
    (scope.inside region).maxDepth = scope.maxDepth := by
  cases region <;> rfl

/-- Lowering the limit never raises it. -/
theorem lower_limit_le (scope : Scope) (available : Option Nat) :
    (scope.lower available).limit ≤ scope.limit := by
  cases available with
  | none => exact Nat.le_refl _
  | some available => exact Nat.min_le_left ..

/-- A number is below the lowered limit if it is below the limit and what is available. -/
theorem lt_lower_limit_iff {count : Nat} {available : Option Nat} :
    count < (scope.lower available).limit ↔
      count < scope.limit ∧ ∀ a, available = some a → count < a := by
  cases available with
  | none => simp [lower]
  | some left =>
    constructor
    · intro h
      obtain ⟨hlimit, hleft⟩ := Nat.lt_min.1 h
      refine ⟨hlimit, ?_⟩
      rintro a ⟨⟩
      exact hleft
    · intro h
      exact Nat.lt_min.2 ⟨h.1, h.2 left rfl⟩

end Scope

namespace Encoding

/-- Values fit in a scope: its limit is above the lengths that it applies to, and the values are not
nested too deep. -/
structure FitIn (values : List Encoding) (scope : Scope) : Prop where
  lengths : ∀ length ∈ lengthsAll values, length < scope.limit
  nesting : scope.depth + nestingAll values ≤ scope.maxDepth

mutual

/-- The lengths that a limit applies to are below the number of octets of the value. -/
theorem lt_of_mem_lengths : (value : Encoding) → {count : Nat} → count ∈ lengths value →
    count < (octets value).length
  | uninterpreted .., count, h => by
    rcases List.mem_singleton.1 h with rfl
    simp [octets, Identifier.octets]
    omega
  | primitive .., count, h => by
    rcases List.mem_singleton.1 h with rfl
    simp [octets, Identifier.octets]
    omega
  | skippedNull .., count, h => absurd h List.not_mem_nil
  | taggedContent .., count, h => by
    rcases List.mem_singleton.1 h with rfl
    simp [octets, Identifier.octets]
    omega
  | container _ _ (.definite _) values, count, h => by
    rcases List.mem_singleton.1 h with rfl
    simp [octets, Identifier.octets]
    omega
  | container _ _ .marked values, count, h => by
    have hlt := lt_of_mem_lengthsAll values h
    simp [octets, Identifier.octets]
    omega

/-- The same for values in a row. -/
theorem lt_of_mem_lengthsAll : (values : List Encoding) → {count : Nat} →
    count ∈ lengthsAll values → count < (octetsAll values).length
  | [], count, h => absurd h List.not_mem_nil
  | value :: values, count, h => by
    simp only [octetsAll, List.length_append]
    rcases List.mem_append.1 h with h | h
    · have hlt := lt_of_mem_lengths value h
      omega
    · have hlt := lt_of_mem_lengthsAll values h
      omega

end

/-- What fits below a lowered limit fits below the limit. -/
theorem FitIn.of_lower {values : List Encoding} {scope : Scope} {available : Option Nat}
    (h : FitIn values (scope.lower available)) : FitIn values scope :=
  ⟨fun n hn => Nat.lt_of_lt_of_le (h.lengths n hn) (Scope.lower_limit_le scope available),
    by simpa using h.nesting⟩

/-- Values in a row fit if each of them does. -/
theorem fitIn_cons {value : Encoding} {values : List Encoding} {scope : Scope} :
    FitIn (value :: values) scope ↔ FitIn [value] scope ∧ FitIn values scope := by
  constructor
  · intro h
    rcases h with ⟨hlengths, hnesting⟩
    simp only [lengthsAll, nestingAll] at hlengths hnesting
    refine ⟨⟨fun n hn => hlengths n ?_, ?_⟩, fun n hn => hlengths n ?_, ?_⟩
    · simpa [lengthsAll] using Or.inl hn
    · simp only [nestingAll]
      omega
    · exact List.mem_append_right _ hn
    · omega
  · intro h
    rcases h with ⟨⟨hlengths, hnesting⟩, ⟨hlengthsAll, hnestingAll⟩⟩
    simp only [lengthsAll, nestingAll, List.append_nil] at hlengths hnesting
    refine ⟨fun n hn => ?_, ?_⟩
    · exact (List.mem_append.1 hn).elim (hlengths n) (hlengthsAll n)
    · simp only [nestingAll]
      omega

/-- A container fits if it may be entered and its values fit inside. Inside a definite region its
own length is the limit, and no value in it can reach that. -/
theorem fitIn_container {form : Form} {identifier : Identifier} {extent : Extent}
    {values : List Encoding} {scope : Scope} :
    FitIn [container form identifier extent values] scope ↔
      scope.depth < scope.maxDepth ∧
      (extent.length (octetsAll values).length).Below scope.limit ∧
      FitIn values (scope.inside (extent.region (octetsAll values).length)) := by
  have hdeeper : scope.depth + nestingAll [container form identifier extent values] =
      (scope.depth + 1) + nestingAll values := by
    simp only [nestingAll, nesting]
    omega
  cases extent with
  | definite lengthOctets =>
    constructor
    · intro h
      rcases h with ⟨hlengths, hnesting⟩
      refine ⟨by omega, hlengths _ (by simp [lengthsAll, lengths]), ?_, ?_⟩
      · exact fun n hn => lt_of_mem_lengthsAll values hn
      · simp only [Scope.inside_depth, Scope.inside_maxDepth]
        omega
    · intro h
      rcases h with ⟨-, hbelow, -, hnesting⟩
      simp only [Scope.inside_depth, Scope.inside_maxDepth] at hnesting
      have hlt : (octetsAll values).length < scope.limit := hbelow
      exact ⟨by simpa [lengthsAll, lengths] using hlt, by omega⟩
  | marked =>
    constructor
    · intro h
      rcases h with ⟨hlengths, hnesting⟩
      refine ⟨by omega, trivial, ?_, ?_⟩
      · simpa [lengthsAll, lengths, Scope.inside, Extent.region] using hlengths
      · simp only [Scope.inside_depth, Scope.inside_maxDepth]
        omega
    · intro h
      rcases h with ⟨-, -, hlengths, hnesting⟩
      simp only [Scope.inside_depth, Scope.inside_maxDepth] at hnesting
      refine ⟨?_, by omega⟩
      simpa [lengthsAll, lengths, Scope.inside, Extent.region] using hlengths

end Encoding

/-! ## Reading what is written -/

namespace Source

open Encoding

variable {s t : Source} {scope : Scope}

/-- A value is written in front of a source, and fits there. -/
structure Written (scope : Scope) (value : Encoding) (s t : Source) : Prop where
  valid : value.Valid
  unmarked : s.isMarked → value.header ≠ [0, 0]
  fits : FitIn [value] scope
  delivers : Delivers value.octets (s.watch false) t

/-- Values are written in front of a source up to the end of its innermost region. -/
structure WrittenAll (scope : Scope) (values : List Encoding) (s t : Source) : Prop where
  valid : ValidAll values
  unmarked : s.isMarked → Unmarked values
  fits : FitIn values scope
  ends : EndsAfter (octetsAll values) s t

/-- The region of a value or of values in a row is as good as the octets left there. -/
theorem Written.fitIn_lower {value : Encoding} (h : Written scope value s t) (hs : s.Ready) :
    FitIn [value] (scope.lower s.available) := by
  rcases h with ⟨-, -, ⟨hlengths, hnesting⟩, hdelivers⟩
  refine ⟨fun n hn => Scope.lt_lower_limit_iff.2 ⟨hlengths n hn, fun a ha => ?_⟩,
    by simpa using hnesting⟩
  have hlt := lt_of_mem_lengthsAll [value] hn
  rw [← available_watch false] at ha
  have hle := hdelivers.le_available hs ha
  simp only [octetsAll, List.append_nil] at hlt
  omega

/-- Values in a row are written one after the other. -/
theorem writtenAll_cons {value : Encoding} {values : List Encoding} :
    WrittenAll scope (value :: values) s t ↔
      ∃ m, Written scope value s m ∧ WrittenAll scope values m t := by
  constructor
  · intro h
    rcases h with ⟨⟨hvalid, hvalidAll⟩, hunmarked, hfits, u, hu, hend⟩
    rcases delivers_append.1 hu with ⟨m, hm, hrest⟩
    rcases fitIn_cons.1 hfits with ⟨hfit, hfitAll⟩
    have hmarked : m.isMarked = s.isMarked := by rw [hm.isMarked, isMarked_watch]
    refine ⟨m, ⟨hvalid, fun h => (List.forall_mem_cons.1 (hunmarked h)).1, hfit, hm⟩, hvalidAll,
      fun h => (List.forall_mem_cons.1 (hunmarked (hmarked ▸ h))).2, hfitAll, u, ?_, hend⟩
    rwa [hm.watch_eq (watch_watch ..)]
  · intro h
    rcases h with ⟨m, ⟨hvalid, hheader, hfit, hm⟩, hvalidAll, hunmarked, hfitAll, hends⟩
    have hmarked : m.isMarked = s.isMarked := by rw [hm.isMarked, isMarked_watch]
    exact ⟨⟨hvalid, hvalidAll⟩, fun h => List.forall_mem_cons.2
      ⟨hheader h, hunmarked (hmarked ▸ h)⟩, fitIn_cons.2 ⟨hfit, hfitAll⟩,
      (endsAfter_append hm).2 hends⟩

/-- Behind a value that is written there, the source is ready for the next one. -/
theorem Written.passing {value : Encoding} (h : Written scope value s t) (hs : s.Ready) :
    t.Passing := h.delivers.passing hs

/-- What a container is read as was written so, if this holds for the values in it. -/
theorem contents_sound {form : Form} {identifier : Identifier} {extent : Extent} {count : Nat}
    {element : Element} {u : Source} (hu : u.Passing) (hidentifier : identifier.Written)
    (hlength : Length.Written extent.opening (extent.length count))
    (hnamed : form.NamedBy identifier extent.isMarked) (hdepth : scope.depth < scope.maxDepth)
    (hbelow : (extent.length count).Below scope.limit)
    (ih : ∀ {elements : List Element} {t : Source},
      elementsFrom (scope.inside (extent.region count)) [] (u.enter (extent.region count)) =
        .ok elements t →
      ∃ values, WrittenAll (scope.inside (extent.region count)) values
        (u.enter (extent.region count)) t ∧ Encoding.elements values = elements)
    {isIndefinite : Bool}
    (h : contents ⟨form, scope.inside (extent.region count), isIndefinite⟩
      (u.enter (extent.region count)) = .ok element t) :
    ∃ (value : Encoding) (body : Octets), value.Valid ∧
      value.header = identifier.octets ++ extent.opening ∧
      value.octets = identifier.octets ++ extent.opening ++ body ∧ FitIn [value] scope ∧
      value.element = element ∧ Delivers body u t.leave := by
  rcases contents_eq_ok_iff.1 h with ⟨named, c, rfl, hconstructed, hc, rfl⟩ |
    ⟨hconstructed, elements, helements, hholds, rfl⟩
  · -- a tagged value that is not constructed
    rcases hnamed with ⟨rfl, hclass⟩
    cases extent with
    | definite lengthOctets =>
      have hpassing : (u.enter (.definite count)).Passing := hu.enter trivial
      rcases (octets_eq_ok_iff hpassing).1 hc with ⟨rfl, hc⟩
      rcases delivers_enter.1 hc with ⟨-, v, hv, rfl⟩
      refine ⟨.taggedContent named lengthOctets c, c, ⟨hidentifier, hlength, ?_, hconstructed⟩,
        rfl, rfl, ⟨?_, hdepth⟩, rfl, hv⟩
      · rcases hclass with hclass | ⟨hfalse, -⟩
        · exact hclass
        · cases hfalse
      · have hlt : c.length < scope.limit := hbelow
        simpa [lengthsAll, lengths] using hlt
    | marked => cases hc
  · rcases ih helements with ⟨values, ⟨hvalid, hunmarked, hfits, hends⟩, rfl⟩
    rcases (endsAfter_extent hu).1 ⟨t, hends, rfl⟩ with ⟨hcount, hdelivers⟩
    rcases Extent.region_length_congr hcount with ⟨hregion, hwritten⟩
    rw [hregion] at hfits hunmarked
    rw [hwritten] at hlength hbelow
    refine ⟨.container form identifier extent values, octetsAll values ++ extent.closing,
      ⟨hidentifier, hlength, hnamed, hconstructed, hholds, hvalid, fun hmarked => hunmarked ?_⟩,
      rfl, rfl, fitIn_container.2 ⟨hdepth, hbelow, hfits⟩, rfl, hdelivers⟩
    simpa [isMarked, enter] using hmarked

/-- Whatever is read as a value was written so, if this holds for the values inside it. -/
theorem element_sound {item : Item} {element : Element} {m : Source} (hs : s.Ready)
    (hdepth : scope.depth ≤ scope.maxDepth)
    (ih : ∀ {scope : Scope} {elements : List Element} {t : Source}, m.Ready →
      scope.depth ≤ scope.maxDepth → elementsFrom scope [] m = .ok elements t →
      ∃ values, WrittenAll scope values m t ∧ Encoding.elements values = elements)
    (hnext : next scope s = .ok (some item) m) (h : Source.element item m = .ok element t) :
    ∃ value, Written scope value s t ∧ value.element = element := by
  rcases (next_eq_some_iff hs).1 hnext with ⟨identifier, lengthOctets, length, u, hheaded, hitem⟩
  rcases hheaded with ⟨hidentifier, hlength, hbelow, hmarker, hheader⟩
  have hu : u.Passing := hheader.passing hs
  have hlimit := Scope.lower_limit_le scope s.available
  have hallowed := Content.allowed_of identifier length
  generalize Content.of identifier length = content at hallowed hitem
  match content with
  | .kept count =>
    rcases hallowed with ⟨rfl, hclass⟩
    rcases (item_kept_eq_ok_iff hu).1 hitem with ⟨c, rfl, hc, rfl⟩
    rcases Action.pure_eq_ok.1 h with ⟨rfl, rfl⟩
    refine ⟨.uninterpreted identifier lengthOctets c, ⟨⟨hidentifier, hlength, hclass⟩, hmarker,
      ⟨?_, hdepth⟩, hheader.append hc⟩, rfl⟩
    simpa [lengthsAll, lengths] using Nat.lt_of_lt_of_le hbelow hlimit
  | .decoded count =>
    rcases hallowed with ⟨rfl, hclass, hsequence, hset, hsegmented⟩
    rcases (item_decoded_eq_ok_iff hu).1 hitem with ⟨c, value, rfl, hc, hvalue, rfl⟩
    rcases Action.pure_eq_ok.1 h with ⟨rfl, rfl⟩
    obtain ⟨hnamed, rfl⟩ :=
      Primitive.namedBy_of_ofContent hclass hsequence hset hsegmented hvalue
    refine ⟨.primitive identifier lengthOctets value, ⟨⟨hidentifier, hlength, hnamed⟩, hmarker,
      ⟨?_, hdepth⟩, hheader.append hc⟩, rfl⟩
    simpa [lengthsAll, lengths] using Nat.lt_of_lt_of_le hbelow hlimit
  | .skipped =>
    rcases hallowed with ⟨rfl, htag⟩
    cases hlength
    rcases (item_skipped_eq_ok_iff hu).1 hitem with ⟨c, hends, hc, rfl⟩
    rcases Action.pure_eq_ok.1 h with ⟨rfl, rfl⟩
    exact ⟨.skippedNull identifier c, ⟨⟨hidentifier, htag, hends⟩, hmarker,
      ⟨fun n hn => absurd hn List.not_mem_nil, hdepth⟩, hheader.append hc⟩, rfl⟩
  | .entered form region =>
    rcases Extent.of_allowed hallowed hlength with ⟨extent, count, rfl, rfl, rfl, hnamed⟩
    rcases item_entered_eq_ok_iff.1 hitem with ⟨hdeeper, rfl, rfl⟩
    rcases Action.afterwards_eq_ok.1 h with ⟨v, hcontents, rfl⟩
    -- the content is read in the region, one level deeper
    have hready : (u.enter (extent.region count)).Ready := by
      refine hu.ready_enter ?_
      cases extent <;> trivial
    have hinside : scope.depth + 1 ≤ scope.maxDepth :=
      Nat.succ_le_of_lt (by simpa using hdeeper)
    obtain ⟨value, body, hvalid, hsame, hoctets, hfits, rfl, hbody⟩ :=
      contents_sound hu hidentifier hlength hnamed hdeeper hbelow
        (ih hready (by simpa using hinside)) hcontents
    refine ⟨value, ⟨hvalid, fun hmarked => hsame ▸ hmarker hmarked, hfits.of_lower, ?_⟩, rfl⟩
    rw [hoctets]
    exact hheader.append hbody
  | .refused => cases hitem

/-- Whatever is drained from a region was written so, up to the end of the region. -/
theorem elementsFrom_sound {elements : List Element} (hs : s.Ready)
    (hdepth : scope.depth ≤ scope.maxDepth) (h : elementsFrom scope [] s = .ok elements t) :
    ∃ values, WrittenAll scope values s t ∧ Encoding.elements values = elements := by
  generalize hleft : s.left = left
  induction left using Nat.strongRecOn generalizing scope s t elements with
  | ind left ih =>
    subst hleft
    -- on the octets left: there are fewer inside the first value and fewer behind it
    rcases elementsFrom_eq_ok_iff.1 h with ⟨rfl, hnext⟩ |
      ⟨item, m, first, m', rest, rfl, hnext, hfirst, hrest⟩
    · exact ⟨[], ⟨trivial, fun _ => by simp [Unmarked], ⟨by simp [lengthsAll], hdepth⟩,
        endsAfter_nil.2 (next_eq_none_iff.1 hnext)⟩, rfl⟩
    · obtain ⟨value, hvalue, rfl⟩ := element_sound hs hdepth (fun hready hdepth hdrained =>
        ih _ (left_of_next_eq_ok hnext) hready hdepth hdrained rfl) hnext hfirst
      obtain ⟨values, hvalues, rfl⟩ := ih _ (left_of_element_eq_ok hnext hfirst)
        (hvalue.passing hs).ready hdepth hrest rfl
      exact ⟨value :: values, writtenAll_cons.2 ⟨m', hvalue, hvalues⟩, rfl⟩

/-- A header that is written in front of a source leads to its content. -/
theorem next_of_header {identifier : Identifier} {lengthOctets : Octets} {length : Length}
    (content : Content) {item : Item} {m : Source} (hs : s.Ready)
    (hheaded : Headed (scope.lower s.available).limit identifier lengthOctets length s m)
    (hallowed : content.Allowed identifier length) (hrefused : content ≠ .refused)
    (hitem : Source.item (scope.lower s.available) identifier content m = .ok item t) :
    next scope s = .ok (some item) t := by
  refine (next_eq_some_iff hs).2 ⟨identifier, lengthOctets, length, m, hheaded, ?_⟩
  rwa [Content.of_eq_of_allowed hallowed hrefused]

mutual

/-- A value that is written in front of a source is read as a whole. -/
theorem element_complete : (value : Encoding) → {scope : Scope} → {s t : Source} → s.Ready →
    Written scope value s t →
    ∃ item m, next scope s = .ok (some item) m ∧ Source.element item m = .ok value.element t
  | .uninterpreted identifier lengthOctets content, scope, s, t, hs, h => by
    have hbelow := (h.fitIn_lower hs).lengths content.length (by simp [lengthsAll, lengths])
    rcases h with ⟨⟨hidentifier, hlength, hclass⟩, hmarker, -, hdelivers⟩
    rcases delivers_append.1 hdelivers with ⟨m, hm, hcontent⟩
    refine ⟨.uninterpreted identifier content, t, next_of_header (.kept content.length)
      hs ⟨hidentifier, hlength, hbelow, hmarker, hm⟩ ⟨rfl, hclass⟩ (by simp) ?_, rfl⟩
    exact (item_kept_eq_ok_iff (hm.passing hs)).2 ⟨content, rfl, hcontent, rfl⟩
  | .primitive identifier lengthOctets value, scope, s, t, hs, h => by
    have hbelow := (h.fitIn_lower hs).lengths value.content.length (by simp [lengthsAll, lengths])
    rcases h with ⟨⟨hidentifier, hlength, hnamed⟩, hmarker, -, hdelivers⟩
    rcases delivers_append.1 hdelivers with ⟨m, hm, hcontent⟩
    refine ⟨.primitive value, t, next_of_header (.decoded value.content.length) hs
      ⟨hidentifier, hlength, hbelow, hmarker, hm⟩ (Content.allowed_decoded hnamed _) (by simp) ?_,
      rfl⟩
    exact (item_decoded_eq_ok_iff (hm.passing hs)).2
      ⟨value.content, value, rfl, hcontent, Primitive.ofContent_content hnamed, rfl⟩
  | .skippedNull identifier skipped, scope, s, t, hs, h => by
    rcases h with ⟨⟨hidentifier, htag, hends⟩, hmarker, -, hdelivers⟩
    rcases delivers_append.1 hdelivers with ⟨m, hm, hcontent⟩
    refine ⟨.primitive .null, t, next_of_header .skipped hs
      ⟨hidentifier, .indefinite, trivial, hmarker, hm⟩ ⟨rfl, htag⟩ (by simp) ?_, rfl⟩
    exact (item_skipped_eq_ok_iff (hm.passing hs)).2 ⟨skipped, hends, hcontent, rfl⟩
  | .taggedContent identifier lengthOctets content, scope, s, t, hs, h => by
    rcases h.fitIn_lower hs with ⟨hlengths, hnesting⟩
    have hbelow := hlengths content.length (by simp [lengthsAll, lengths])
    rcases h with ⟨⟨hidentifier, hlength, hclass, hconstructed⟩, hmarker, -, hdelivers⟩
    rcases delivers_append.1 hdelivers with ⟨m, hm, hcontent⟩
    have hpassing : (m.enter (.definite content.length)).Passing := (hm.passing hs).enter trivial
    have htaken : remainder (m.enter (.definite content.length)) =
        .ok content (t.enter (.definite (content.length - content.length))) :=
      (octets_eq_ok_iff hpassing).2
        ⟨rfl, delivers_enter.2 ⟨Nat.le_refl _, t, hcontent, rfl⟩⟩
    refine ⟨_, _, next_of_header
      (.entered (.tagged identifier) (.definite content.length)) hs
      ⟨hidentifier, hlength, hbelow, hmarker, hm⟩ ⟨rfl, rfl, .inl hclass⟩ (by simp)
      (item_entered_eq_ok_iff.2 ⟨hnesting, rfl, rfl⟩), ?_⟩
    exact Action.afterwards_eq_ok.2 ⟨_, contents_eq_ok_iff.2
      (.inl ⟨identifier, content, rfl, hconstructed, htaken, rfl⟩), rfl⟩
  | .container form identifier extent values, scope, s, t, hs, h => by
    rcases fitIn_container.1 (h.fitIn_lower hs) with ⟨hdeeper, hbelow, hfits⟩
    obtain ⟨⟨hidentifier, hlength, hnamed, hconstructed, hholds, hvalid, hunmarked⟩, hmarker, -,
      hdelivers⟩ := h
    rcases delivers_append.1 hdelivers with ⟨m, hm, hcontent⟩
    rcases (endsAfter_extent (hm.passing hs)).2 ⟨fun _ => rfl, hcontent⟩ with ⟨u, hends, rfl⟩
    refine ⟨_, _, next_of_header
      (.entered form (extent.region (octetsAll values).length)) hs
      ⟨hidentifier, hlength, hbelow, hmarker, hm⟩ (Extent.allowed hnamed) (by simp)
      (item_entered_eq_ok_iff.2 ⟨hdeeper, rfl, rfl⟩), ?_⟩
    have hready : (m.enter (extent.region (octetsAll values).length)).Ready := by
      refine (hm.passing hs).ready_enter ?_
      cases extent <;> trivial
    refine Action.afterwards_eq_ok.2 ⟨u, contents_eq_ok_iff.2
      (.inr ⟨hconstructed, Encoding.elements values, ?_, hholds, rfl⟩), rfl⟩
    refine elementsFrom_complete values hready ⟨hvalid, fun h => hunmarked ?_, hfits, hends⟩
    simpa [isMarked, enter] using h

/-- Values that are written up to the end of a region are drained. -/
theorem elementsFrom_complete : (values : List Encoding) → {scope : Scope} → {s t : Source} →
    s.Ready → WrittenAll scope values s t →
    elementsFrom scope [] s = .ok (Encoding.elements values) t
  | [], scope, s, t, hs, h =>
    elementsFrom_eq_ok_iff.2 (.inl ⟨rfl, next_eq_none_iff.2 (endsAfter_nil.1 h.ends)⟩)
  | value :: values, scope, s, t, hs, h => by
    rcases writtenAll_cons.1 h with ⟨m', hvalue, hvalues⟩
    rcases element_complete value hs hvalue with ⟨item, m, hnext, hfirst⟩
    have hrest := elementsFrom_complete values (hvalue.passing hs).ready hvalues
    exact elementsFrom_eq_ok_iff.2
      (.inr ⟨item, m, value.element, m', _, rfl, hnext, hfirst, hrest⟩)

end

end Source
end Ber
