import Ber.Proofs.Advance

/-!
# Ber.Proofs.Cost — what values cost

A value that is taken costs the octets of its header and its content, and these are more than it
retains. Asking for a value where there is none costs the marker of an indefinite container once, and
nothing else.

1. `Item.retained` counts the identifier and content octets that a value holds when it is handed out,
   and `Element.retained` those of a value that was read as a whole.
2. `Source.next_costs` and `Source.next_none_costs` say what taking a value costs.
3. `Source.Draws` are calls in any order: taking values in any scope, taking content, and giving up
   regions. Each of them is paid for (`Source.Draws.paid`). Draining, joining, and reading a container as
   a whole are made up of such calls (`Source.elementsFrom_draws`, `Source.contents_draws`).
-/

namespace Ber

/-! ## What is retained -/

/-- The octets that a value without parts retains: its content, and its identifier if the tag is
unknown. -/
def Primitive.retained : Primitive → Nat
  | unknown identifier content => identifier.octets.length + content.length
  | value => value.content.length

/-- The identifier octets that a container retains: those of a tagged value. -/
def Form.retained : Form → Nat
  | .tagged identifier => identifier.octets.length
  | _ => 0

/-- The identifier and content octets that a value retains. The content of a container is still to be
read. -/
def Item.retained : Item → Nat
  | .uninterpreted identifier content => identifier.octets.length + content.length
  | .primitive value => value.retained
  | .container found => found.form.retained

namespace Element

/-- The identifier octets that an element retains. -/
def ownOctets : Element → Nat
  | uninterpreted identifier _ | taggedContent identifier _ | tagged identifier _
  | primitive (.unknown identifier _) => identifier.octets.length
  | _ => 0

mutual

/-- The identifier and content octets that are retained inside an element. -/
def innerOctets : Element → Nat
  | uninterpreted _ content | taggedContent _ content => content.length
  | primitive value => value.content.length
  | sequence elements | set elements | tagged _ elements => retainedAll elements

/-- The identifier and content octets that elements in a row retain. -/
def retainedAll : List Element → Nat
  | [] => 0
  | element :: elements => element.ownOctets + innerOctets element + retainedAll elements

end

/-- The identifier and content octets that an element retains. -/
def retained (element : Element) : Nat := element.ownOctets + element.innerOctets

mutual

/-- How many values an element holds inside. Joined segments cannot be told any more. -/
def parts : Element → Nat
  | sequence elements | set elements | tagged _ elements => count elements
  | _ => 0

/-- How many values elements in a row are made up of. -/
def count : List Element → Nat
  | [] => 0
  | element :: elements => parts element + 1 + count elements

end

/-- The octets of a segment are among those that it retains. -/
theorem segment?_le_retained {element : Element} {octets : Octets}
    (h : element.segment? = some octets) : octets.length ≤ element.retained := by
  cases element with
  | primitive value =>
    cases value with
    | octetString content =>
      cases h
      exact Nat.le_add_left ..
    | _ => cases h
  | _ => cases h

/-- Joined segments are no longer than what they retain. -/
theorem joined_le_retainedAll (elements : List Element) :
    (elements.filterMap Element.segment?).flatten.length ≤ retainedAll elements := by
  induction elements with
  | nil => exact Nat.le_refl 0
  | cons element elements ih =>
    simp only [retainedAll, List.filterMap_cons]
    cases hsegment : element.segment? with
    | none =>
      dsimp only
      omega
    | some octets =>
      have hle := segment?_le_retained hsegment
      simp only [List.flatten_cons, List.length_append]
      unfold retained at hle
      omega

/-- What a container becomes retains its identifier at most, and what the values in it retain. -/
theorem ownOctets_of_form (form : Form) (elements : List Element) :
    (form.element elements).ownOctets = form.retained := by
  cases form <;> rfl

theorem innerOctets_of_form (form : Form) (elements : List Element) :
    (form.element elements).innerOctets ≤ retainedAll elements := by
  cases form with
  | octetString => exact joined_le_retainedAll elements
  | _ => exact Nat.le_refl _

theorem parts_of_form (form : Form) (elements : List Element) :
    (form.element elements).parts ≤ count elements := by
  cases form with
  | octetString => exact Nat.zero_le _
  | _ => exact Nat.le_refl _

end Element

/-- A value without parts retains as an element what it retained before. -/
theorem Primitive.retained_eq (value : Primitive) :
    (Element.primitive value).retained = value.retained := by
  cases value <;> simp [Element.retained, Element.ownOctets, Element.innerOctets, retained, content]

namespace Source

variable {c d : Octets} {s t m : Source} {scope : Scope} {item : Item}

/-! ## Octets that are read -/

/-- Octets were read on the way from one source to another that is settled, whatever regions were
opened and given up. -/
structure Reads (octets : Octets) (before after : Source) : Prop where
  settled : after.Settled
  position : after.position = before.position + octets.length
  rest : before.rest = octets ++ after.rest

theorem Settled.reads_nil (hs : s.Settled) : Reads [] s s := ⟨hs, rfl, rfl⟩

theorem Advances.reads (h : Advances c s t) : Reads c s t := ⟨h.settled, h.position, h.rest⟩

theorem Reads.trans (h : Reads c s m) (h' : Reads d m t) : Reads (c ++ d) s t := by
  refine ⟨h'.settled, ?_, ?_⟩
  · rw [h'.position, h.position, List.length_append, Nat.add_assoc]
  · rw [h.rest, h'.rest, List.append_assoc]

/-! ## Taking a value -/

/-- A value without parts retains its identifier and its content at most. -/
theorem retained_of_ofContent {identifier : Identifier} {value : Primitive}
    (hallowed : (Content.decoded c.length).Allowed identifier (.definite c.length))
    (h : Primitive.ofContent identifier c = .ok value) :
    value.retained ≤ identifier.octets.length + c.length := by
  obtain ⟨-, hclass, hsequence, hset, hsegmented⟩ := hallowed
  obtain ⟨hnamed, hcontent⟩ :=
    Primitive.namedBy_of_ofContent hclass hsequence hset hsegmented h
  cases value with
  | unknown named content =>
    obtain ⟨rfl, -⟩ := hnamed
    obtain rfl : content = c := hcontent
    exact Nat.le_refl _
  | _ =>
    rw [← hcontent]
    exact Nat.le_add_left ..

/-- Taking a value costs at least two octets, and more than it retains: its header alone has an octet of
the identifier and one of the length. -/
theorem next_costs (hs : s.Settled) (h : next scope s = .ok (some item) t) :
    ∃ c, Reads c s t ∧ 2 ≤ c.length ∧ item.retained + 1 ≤ c.length := by
  have hready := hs.ready_of_next h
  obtain ⟨identifier, lengthOctets, length, u, hheaded, hitem⟩ := (next_eq_some_iff hready).1 h
  have hu : u.Passing := hheaded.delivers.passing hready
  have hheader : Advances (identifier.octets ++ lengthOctets) s u :=
    hheaded.delivers.advances hready
  have hfirst : 1 ≤ identifier.octets.length := Nat.succ_pos _
  have hsecond : 1 ≤ lengthOctets.length := List.length_pos_iff.2 hheaded.lengthWritten.ne_nil
  -- where the content is read as well, it comes behind the header
  have hcontent : ∀ {c : Octets}, Delivers c u t →
      item.retained ≤ identifier.octets.length + c.length →
      ∃ c, Reads c s t ∧ 2 ≤ c.length ∧ item.retained + 1 ≤ c.length := by
    intro c hc hretained
    refine ⟨identifier.octets ++ lengthOctets ++ c, ?_, ?_, ?_⟩
    · have hdelivers := hheaded.delivers.append hc
      exact (hdelivers.advances hready).reads
    · simp only [List.length_append]
      omega
    · simp only [List.length_append]
      omega
  have hallowed := Content.allowed_of identifier length
  generalize Content.of identifier length = content at hallowed hitem
  match content with
  | .kept count =>
    obtain ⟨c, -, hc, rfl⟩ := (item_kept_eq_ok_iff hu).1 hitem
    exact hcontent hc (Nat.le_refl _)
  | .decoded count =>
    obtain ⟨c, value, rfl, hc, hvalue, rfl⟩ := (item_decoded_eq_ok_iff hu).1 hitem
    obtain ⟨rfl, hnamed⟩ := hallowed
    exact hcontent hc (retained_of_ofContent ⟨rfl, hnamed⟩ hvalue)
  | .skipped =>
    obtain ⟨c, -, hc, rfl⟩ := (item_skipped_eq_ok_iff hu).1 hitem
    exact hcontent hc (Nat.zero_le _)
  | .entered form region =>
    obtain ⟨extent, count, rfl, rfl, rfl, hnamed⟩ :=
      Extent.of_allowed hallowed hheaded.lengthWritten
    obtain ⟨-, rfl, rfl⟩ := item_entered_eq_ok_iff.1 hitem
    have hinside : (u.enter (extent.region count)).Ready := by
      refine hu.ready_enter ?_
      cases extent <;> trivial
    have hretained : form.retained ≤ identifier.octets.length := by
      cases form with
      | tagged named =>
        obtain ⟨rfl, -⟩ := hnamed
        exact Nat.le_refl _
      | _ => exact Nat.zero_le _
    refine ⟨_, ⟨.inl hinside, hheader.position, hheader.rest⟩, ?_, ?_⟩
    · simp only [List.length_append]
      omega
    · simp only [Item.retained, List.length_append]
      omega
  | .refused => cases hitem

/-- Where there is no value, the marker of an indefinite region is read, unless it has been read before.
Nothing is read in a definite region. -/
theorem next_none_costs (hs : s.Settled) (h : next scope s = .ok none t) :
    t.AtEnd ∧ ∃ c, Advances c s t ∧ (s.isMarked → ¬ s.AtEnd → c = [0, 0]) ∧
      (s.isMarked = false ∨ s.AtEnd → c = []) := by
  rw [next_eq_none_iff] at h
  rcases hs with hready | ⟨below, hbelow, rfl⟩
  · obtain ⟨hdefinite, hmarked, hatEnd⟩ := (endsAfter_nil.2 h).advances hready
    refine ⟨hatEnd, ?_⟩
    by_cases hkind : s.isMarked
    · refine ⟨_, hmarked hkind, fun _ _ => rfl, ?_⟩
      rintro (hfalse | hended)
      · rw [hkind] at hfalse
        cases hfalse
      · exact absurd hended (hready.not_atEnd hkind)
    · exact ⟨_, hdefinite (Bool.eq_false_iff.2 hkind), fun h => absurd h hkind, fun _ => rfl⟩
  · cases (firstOctet?_closed below).symm.trans h
    have hclosed := finishes_closed hbelow
    exact ⟨hclosed.atEnd, [], Settled.advances_nil (.inr ⟨below, hbelow, rfl⟩),
      fun _ hopen => absurd hclosed.atEnd hopen, fun _ => rfl⟩

end Source

/-! ## Calls in any order -/

/-- What a call hands out: a value, or content octets. -/
inductive Gain where
  | object (item : Item)
  | content (octets : Octets)
deriving DecidableEq, Repr

namespace Gain

/-- The octets retained by what was handed out. -/
def retained : Gain → Nat
  | object item => item.retained
  | content octets => octets.length

/-- Whether a value was handed out. -/
def isObject : Gain → Bool
  | object _ => true
  | content _ => false

/-- The octets retained by everything that was handed out. -/
def total : List Gain → Nat
  | [] => 0
  | gain :: gains => gain.retained + total gains

/-- How many values were handed out. -/
def objects (gains : List Gain) : Nat := gains.countP isObject

@[simp] theorem total_cons (gain : Gain) (gains : List Gain) :
    total (gain :: gains) = gain.retained + total gains := rfl

@[simp] theorem objects_object (item : Item) (gains : List Gain) :
    objects (.object item :: gains) = objects gains + 1 :=
  List.countP_cons_of_pos rfl

@[simp] theorem objects_content (octets : Octets) (gains : List Gain) :
    objects (.content octets :: gains) = objects gains :=
  List.countP_cons_of_neg Bool.false_ne_true

@[simp] theorem total_append (gains others : List Gain) :
    total (gains ++ others) = total gains + total others := by
  induction gains with
  | nil => exact (Nat.zero_add _).symm
  | cons gain gains ih => rw [List.cons_append, total_cons, ih, total_cons, Nat.add_assoc]

@[simp] theorem objects_append (gains others : List Gain) :
    objects (gains ++ others) = objects gains + objects others :=
  List.countP_append

end Gain

namespace Source

open Element

variable {c : Octets} {s t m : Source} {scope : Scope} {item : Item} {gains others : List Gain}

/-- What calls hand out, in order, on the way from one source to another. Regions may be given up
anywhere. -/
inductive Draws : List Gain → Source → Source → Prop where
  | nothing {s : Source} : Draws [] s s
  /-- The next value is taken. -/
  | value {scope : Scope} {item : Item} {gains : List Gain} {s m t : Source}
    (h : next scope s = .ok (some item) m) (hrest : Draws gains m t) :
    Draws (.object item :: gains) s t
  /-- There is no next value. -/
  | none {scope : Scope} {gains : List Gain} {s m t : Source} (h : next scope s = .ok none m)
    (hrest : Draws gains m t) : Draws gains s t
  /-- The content of the innermost region is taken as it is. -/
  | content {octets : Octets} {gains : List Gain} {s m t : Source}
    (h : remainder s = .ok octets m) (hrest : Draws gains m t) :
    Draws (.content octets :: gains) s t
  /-- The innermost region is given up. -/
  | leave {gains : List Gain} {s t : Source} (hrest : Draws gains s.leave t) : Draws gains s t

theorem Draws.append (h : Draws gains s m) (h' : Draws others m t) :
    Draws (gains ++ others) s t := by
  induction h with
  | nothing => exact h'
  | value hnext _ ih => exact .value hnext (ih h')
  | none hnext _ ih => exact .none hnext (ih h')
  | content hcontent _ ih => exact .content hcontent (ih h')
  | leave _ ih => exact .leave (ih h')

/-- Taking the content of a region reads what it hands out. -/
theorem remainder_reads (hs : s.Settled) (h : remainder s = .ok c t) : Reads c s t := by
  rcases s with ⟨regions, reader⟩
  match regions with
  | [] => cases h
  | .marked state :: below => cases h
  | .definite remaining :: below =>
    have hready : (⟨.definite remaining :: below, reader⟩ : Source).Ready := by
      rcases hs with hready | ⟨below', -, hsame⟩
      · exact hready
      · cases hsame
    obtain ⟨-, hc⟩ := (octets_eq_ok_iff
      (show (⟨.definite remaining :: below, reader⟩ : Source).Passing from hready)).1 h
    exact (Delivers.advances hready hc).reads

/-- Whatever is handed out has been paid for: with two octets for every value, and with one octet for
every value on top of the octets that are retained. -/
theorem Draws.paid (hs : s.Settled) (h : Draws gains s t) :
    ∃ c, Reads c s t ∧ 2 * Gain.objects gains ≤ c.length ∧
      Gain.total gains + Gain.objects gains ≤ c.length := by
  induction h with
  | nothing => exact ⟨[], hs.reads_nil, Nat.le_refl 0, Nat.le_refl 0⟩
  | @value scope item gains s m t hnext _ ih =>
    obtain ⟨c, hc, htwo, hretained⟩ := next_costs hs hnext
    obtain ⟨d, hd, hobjects, htotal⟩ := ih hc.settled
    refine ⟨c ++ d, hc.trans hd, ?_, ?_⟩
    · rw [Gain.objects_object, List.length_append]
      omega
    · rw [Gain.objects_object, Gain.total_cons, List.length_append, Gain.retained]
      omega
  | none hnext _ ih =>
    obtain ⟨-, c, hc, -⟩ := next_none_costs hs hnext
    obtain ⟨d, hd, hobjects, htotal⟩ := ih hc.settled
    refine ⟨c ++ d, hc.reads.trans hd, ?_, ?_⟩
    · rw [List.length_append]
      omega
    · rw [List.length_append]
      omega
  | @content octets gains s m t hcontent _ ih =>
    have hc := remainder_reads hs hcontent
    obtain ⟨d, hd, hobjects, htotal⟩ := ih hc.settled
    refine ⟨octets ++ d, hc.trans hd, ?_, ?_⟩
    · rw [Gain.objects_content, List.length_append]
      omega
    · rw [Gain.objects_content, Gain.total_cons, List.length_append, Gain.retained]
      omega
  | leave _ ih =>
    obtain ⟨d, ⟨hsettled, hposition, hrest⟩, hcosts⟩ := ih (.inl hs.leave.ready)
    exact ⟨d, ⟨hsettled, hposition, hrest⟩, hcosts⟩

/-! ## Reading as a whole -/

/-- Calls from one source to another hand out every value in elements. -/
def Drawn (elements : List Element) (before after : Source) : Prop :=
  ∃ gains, Draws gains before after ∧ count elements ≤ Gain.objects gains ∧
    retainedAll elements ≤ Gain.total gains

/-- A container is read as a whole by calls that hand out what is in it, if this holds for draining. -/
theorem contents_draws {container : Container} {element : Element}
    (hdrained : ∀ {scope : Scope} {elements : List Element} {t : Source},
      elementsFrom scope [] s = .ok elements t → Drawn elements s t)
    (h : contents container s = .ok element t) :
    ∃ gains, Draws gains s t ∧ element.parts ≤ Gain.objects gains ∧
      element.innerOctets ≤ Gain.total gains ∧ element.ownOctets = container.form.retained := by
  rcases contents_eq_ok_iff.1 h with ⟨identifier, c, hform, -, hc, rfl⟩ |
    ⟨-, elements, helements, -, rfl⟩
  · refine ⟨[.content c], .content hc .nothing, Nat.zero_le _, Nat.le_refl _, ?_⟩
    rw [hform]
    rfl
  · obtain ⟨gains, hgains, hcount, hretained⟩ := hdrained helements
    exact ⟨gains, hgains, Nat.le_trans (parts_of_form ..) hcount,
      Nat.le_trans (innerOctets_of_form ..) hretained, ownOctets_of_form ..⟩

/-- A value is read as a whole by calls that hand out what is in it, if this holds for draining. -/
theorem element_draws {element : Element}
    (hdrained : ∀ {scope : Scope} {elements : List Element} {t : Source},
      elementsFrom scope [] s = .ok elements t → Drawn elements s t)
    (h : Source.element item s = .ok element t) :
    ∃ gains, Draws gains s t ∧ element.parts ≤ Gain.objects gains ∧
      element.retained ≤ item.retained + Gain.total gains := by
  match item with
  | .uninterpreted identifier content =>
    obtain ⟨rfl, rfl⟩ := Action.pure_eq_ok.1 h
    exact ⟨[], .nothing, Nat.le_refl 0, Nat.le_refl _⟩
  | .primitive value =>
    obtain ⟨rfl, rfl⟩ := Action.pure_eq_ok.1 h
    exact ⟨[], .nothing, Nat.le_refl 0, Nat.le_of_eq value.retained_eq⟩
  | .container container =>
    obtain ⟨m, hcontents, rfl⟩ := Action.afterwards_eq_ok.1 h
    obtain ⟨gains, hgains, hparts, hinner, hown⟩ := contents_draws hdrained hcontents
    refine ⟨gains, ?_, hparts, ?_⟩
    · have hleave := hgains.append (.leave .nothing)
      rwa [List.append_nil] at hleave
    · unfold Element.retained
      rw [hown]
      exact Nat.add_le_add_left hinner _

/-- Draining is made up of calls that hand out every value in the elements. -/
theorem elementsFrom_draws {elements : List Element} (h : elementsFrom scope [] s = .ok elements t) :
    Drawn elements s t := by
  generalize hleft : s.left = left
  induction left using Nat.strongRecOn generalizing scope s t elements with
  | ind left ih =>
    subst hleft
    -- on the octets left: there are fewer inside the first value and fewer behind it
    rcases elementsFrom_eq_ok_iff.1 h with ⟨rfl, hnext⟩ |
      ⟨item, m, first, m', rest, rfl, hnext, hfirst, hrest⟩
    · exact ⟨[], .none hnext .nothing, Nat.le_refl 0, Nat.le_refl 0⟩
    · obtain ⟨inner, hinner, hparts, hretained⟩ := element_draws
        (fun hdrained => ih _ (left_of_next_eq_ok hnext) hdrained rfl) hfirst
      obtain ⟨outer, houter, hcount, htotal⟩ :=
        ih _ (left_of_element_eq_ok hnext hfirst) hrest rfl
      refine ⟨.object item :: (inner ++ outer), .value hnext (hinner.append houter), ?_, ?_⟩
      · simp only [count, Gain.objects_object, Gain.objects_append]
        omega
      · unfold Element.retained at hretained
        simp only [retainedAll, Gain.total_cons, Gain.total_append, Gain.retained]
        omega

/-- Joining is made up of calls that hand out every segment. -/
theorem joinedFrom_draws {octets : Octets} (h : joinedFrom scope [] s = .ok octets t) :
    ∃ gains, Draws gains s t ∧ octets.length ≤ Gain.total gains := by
  obtain ⟨elements, helements, -, rfl⟩ := joinedFrom_eq_ok_iff_elements.1 h
  obtain ⟨gains, hgains, -, hretained⟩ := elementsFrom_draws helements
  exact ⟨gains, hgains, Nat.le_trans (joined_le_retainedAll elements) hretained⟩

end Source
end Ber
