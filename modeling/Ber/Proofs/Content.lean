import Ber.Proofs.Header
import Ber.Proofs.Kinds

/-!
# Ber.Proofs.Content — what identifiers say about content

The identifier and the form of the length decide what becomes of the content of a value. Here each
of these decisions is turned around:

* `Primitive.NamedBy` and `Form.NamedBy` say which identifiers a value without parts and a container
  may have, and `Content.allowed_of` and `Content.of_eq_of_allowed` that these and no others lead
  there;
* `Primitive.namedBy_of_ofContent` and `Primitive.ofContent_content` say that such a value is read
  from its content and loses nothing of it;
* `Source.item_kept_eq_ok_iff` and its siblings say which octets each of the ways to read content
  takes.
-/

namespace Ber

/-! ## Values without parts -/

namespace Primitive

/-- The identifiers that a value may have: those of its tag, and for an octet string only one that
is not constructed. A value of a tag that is not listed keeps its identifier. -/
def NamedBy (identifier : Identifier) : Primitive → Prop
  | octetString _ => identifier.tag = .universal .octetString ∧ ¬ identifier.isConstructed
  | unknown named _ => named = identifier ∧ identifier.tagClass = .universal ∧
      (identifier.tag.universalType? = none ∨ identifier.tag = .universal .endOfContents)
  | value => identifier.tag = value.tag

/-- A value that is decoded has one of its identifiers and its content. -/
theorem namedBy_of_ofContent {identifier : Identifier} {c : Octets} {value : Primitive}
    (hclass : identifier.tagClass = .universal)
    (hsequence : identifier.tag ≠ .universal .sequence) (hset : identifier.tag ≠ .universal .set)
    (hsegmented : identifier.tag = .universal .octetString → ¬ identifier.isConstructed)
    (h : ofContent identifier c = .ok value) : value.NamedBy identifier ∧ value.content = c := by
  have hsuits := ofContent_eq_ok_iff.1 h
  refine ⟨?_, hsuits.told.2⟩
  cases value with
  | octetString octets =>
    have htag := hsuits.1.symm
    exact ⟨htag, hsegmented htag⟩
  | unknown named kept =>
    obtain ⟨rfl, -, hlisted⟩ := hsuits
    refine ⟨rfl, hclass, ?_⟩
    rcases Tag.not_isListed_iff.1 hlisted with hnone | hend | htag | htag
    · exact .inl hnone
    · exact .inr hend
    · exact absurd htag hsequence
    · exact absurd htag hset
  | _ => exact hsuits.1.symm

/-- A value is decoded from its content behind each of its identifiers. -/
theorem ofContent_content {identifier : Identifier} {value : Primitive}
    (hnamed : value.NamedBy identifier) : ofContent identifier value.content = .ok value := by
  rw [ofContent_eq_ok_iff]
  cases value with
  | octetString octets => exact ⟨hnamed.1.symm, rfl⟩
  | unknown named kept =>
    obtain ⟨rfl, -, htype⟩ := hnamed
    refine ⟨rfl, rfl, Tag.not_isListed_iff.2 ?_⟩
    rcases htype with hnone | hend
    · exact .inl hnone
    · exact .inr (.inl hend)
  | _ => exact ⟨hnamed.symm, rfl⟩

end Primitive

/-! ## Containers -/

/-- The identifiers that a container of a form may have, with a marked region or a definite one. An
octet string in one definite piece is told from one in segments by the constructed bit. -/
def Form.NamedBy (identifier : Identifier) (isMarked : Bool) : Form → Prop
  | .sequence => identifier.tag = .universal .sequence
  | .set => identifier.tag = .universal .set
  | .octetString =>
    identifier.tag = .universal .octetString ∧ (isMarked ∨ identifier.isConstructed)
  | .tagged named => named = identifier ∧
      (identifier.tagClass = .context ∨ isMarked ∧ identifier.tagClass = .privateUse)

namespace Content

variable {identifier : Identifier} {length : Length}

/-- When content is treated in one of the ways. Nothing is said of a value that is refused. -/
def Allowed (identifier : Identifier) (length : Length) : Content → Prop
  | kept octets => length = .definite octets ∧
      (identifier.tagClass = .application ∨ identifier.tagClass = .privateUse)
  | decoded octets => length = .definite octets ∧ identifier.tagClass = .universal ∧
      identifier.tag ≠ .universal .sequence ∧ identifier.tag ≠ .universal .set ∧
      (identifier.tag = .universal .octetString → ¬ identifier.isConstructed)
  | skipped => length = .indefinite ∧ identifier.tag = .universal .null
  | entered form (.definite octets) => length = .definite octets ∧ form.NamedBy identifier false
  | entered form (.marked state) =>
      length = .indefinite ∧ state = {} ∧ form.NamedBy identifier true
  | refused => True

/-- Content is only treated as it is allowed to be. -/
theorem allowed_of (identifier : Identifier) (length : Length) :
    (of identifier length).Allowed identifier length := by
  have htag : ∀ {type : UniversalType}, identifier.tag.universalType? = some type →
      identifier.tag = .universal type := Tag.universalType?_eq_some_iff.1
  cases length with
  | definite octets =>
    simp only [of, ofDefinite]
    cases hclass : identifier.tagClass with
    | application => exact ⟨rfl, .inl hclass⟩
    | privateUse => exact ⟨rfl, .inr hclass⟩
    | context => exact ⟨rfl, rfl, .inl hclass⟩
    | universal =>
      dsimp only
      split
      · rename_i htype
        exact ⟨rfl, htag htype⟩
      · rename_i htype
        exact ⟨rfl, htag htype⟩
      · rename_i htype
        by_cases hconstructed : identifier.isConstructed
        · rw [if_pos hconstructed]
          exact ⟨rfl, htag htype, .inr hconstructed⟩
        · rw [if_neg hconstructed]
          refine ⟨rfl, hclass, ?_, ?_, fun _ => hconstructed⟩ <;> rw [htag htype] <;> decide
      · rename_i hsequence hset hsegmented
        simp only [Tag.universalType?_eq_some_iff] at hsequence hset hsegmented
        exact ⟨rfl, hclass, hsequence, hset, fun h => absurd h hsegmented⟩
  | indefinite =>
    simp only [of, ofIndefinite]
    cases hclass : identifier.tagClass with
    | application => trivial
    | privateUse => exact ⟨rfl, rfl, rfl, .inr ⟨rfl, hclass⟩⟩
    | context => exact ⟨rfl, rfl, rfl, .inl hclass⟩
    | universal =>
      dsimp only
      split
      · rename_i htype
        exact ⟨rfl, htag htype⟩
      · rename_i htype
        exact ⟨rfl, rfl, htag htype, .inl rfl⟩
      · rename_i htype
        exact ⟨rfl, rfl, htag htype⟩
      · rename_i htype
        exact ⟨rfl, rfl, htag htype⟩
      · trivial

/-- Content is treated as it is allowed to be, and not refused then. -/
theorem of_eq_of_allowed {content : Content} (h : content.Allowed identifier length)
    (hrefused : content ≠ .refused) : of identifier length = content := by
  have htype : ∀ {type : UniversalType}, identifier.tag = .universal type →
      identifier.tagClass = .universal ∧ identifier.tag.universalType? = some type :=
    fun h => ⟨congrArg Tag.tagClass h, Tag.universalType?_eq_some_iff.2 h⟩
  match content with
  | kept octets =>
    obtain ⟨rfl, hclass | hclass⟩ := h <;> simp [of, ofDefinite, hclass]
  | decoded octets =>
    rcases h with ⟨rfl, hclass, hsequence, hset, hsegmented⟩
    simp only [ne_eq, ← Tag.universalType?_eq_some_iff] at hsequence hset hsegmented
    simp only [of, ofDefinite, hclass]
    split
    · contradiction
    · contradiction
    · rename_i hoctetString
      exact if_neg (hsegmented hoctetString)
    · rfl
  | skipped =>
    rcases h with ⟨rfl, htag⟩
    simp [of, ofIndefinite, htype htag]
  | entered form (.definite octets) =>
    rcases h with ⟨rfl, hform⟩
    cases form with
    | sequence => simp [of, ofDefinite, htype hform]
    | set => simp [of, ofDefinite, htype hform]
    | octetString =>
      rcases hform with ⟨htag, hfalse | hconstructed⟩
      · cases hfalse
      · simp [of, ofDefinite, htype htag, hconstructed]
    | tagged named =>
      rcases hform with ⟨rfl, hclass | ⟨hfalse, -⟩⟩
      · simp [of, ofDefinite, hclass]
      · cases hfalse
  | entered form (.marked state) =>
    rcases h with ⟨rfl, rfl, hform⟩
    cases form with
    | sequence => simp [of, ofIndefinite, htype hform]
    | set => simp [of, ofIndefinite, htype hform]
    | octetString => simp [of, ofIndefinite, htype hform.1]
    | tagged named =>
      obtain ⟨rfl, hclass | ⟨-, hclass⟩⟩ := hform <;> simp [of, ofIndefinite, hclass]
  | refused => exact absurd rfl hrefused

/-- Behind an identifier of a value, content is decoded. -/
theorem allowed_decoded {value : Primitive} (h : value.NamedBy identifier) (octets : Nat) :
    (decoded octets).Allowed identifier (.definite octets) := by
  -- a value of any type but these three is decoded, whatever its identifier is like
  have hother : ∀ {type : UniversalType}, identifier.tag = .universal type → type ≠ .sequence →
      type ≠ .set → type ≠ .octetString →
      (decoded octets).Allowed identifier (.definite octets) := by
    intro type htag hsequence hset hsegmented
    refine ⟨rfl, congrArg Tag.tagClass htag, ?_, ?_, fun h => ?_⟩
    · rwa [htag, ne_eq, Tag.universal_inj]
    · rwa [htag, ne_eq, Tag.universal_inj]
    · rw [htag, Tag.universal_inj] at h
      exact absurd h hsegmented
  cases value with
  | octetString content =>
    rcases h with ⟨htag, hconstructed⟩
    refine ⟨rfl, congrArg Tag.tagClass htag, ?_, ?_, fun _ => hconstructed⟩ <;>
      rw [htag] <;> decide
  | characterString string =>
    have htype : string.characters.type ≠ .sequence ∧ string.characters.type ≠ .set ∧
        string.characters.type ≠ .octetString := by
      cases string.characters <;> decide
    exact hother h htype.1 htype.2.1 htype.2.2
  | time time =>
    have htype : time.form.type ≠ .sequence ∧ time.form.type ≠ .set ∧
        time.form.type ≠ .octetString := by
      cases time.form <;> decide
    exact hother h htype.1 htype.2.1 htype.2.2
  | unknown named content =>
    rcases h with ⟨-, hclass, hnone | hend⟩
    -- a type without a name is none of the three
    · have hunlisted : ∀ type, identifier.tag ≠ .universal type := by
        intro type htag
        rw [Tag.universalType?_eq_some_iff.2 htag] at hnone
        cases hnone
      exact ⟨rfl, hclass, hunlisted _, hunlisted _, fun htag => absurd htag (hunlisted _)⟩
    · exact hother hend (by decide) (by decide) (by decide)
  | _ => exact hother h (by decide) (by decide) (by decide)

end Content

/-! ## What reading content takes -/

namespace Source

variable {s t : Source} {scope : Scope} {identifier : Identifier} {item : Item}

theorem item_kept_eq_ok_iff {count : Nat} (hs : s.Passing) :
    Source.item scope identifier (.kept count) s = .ok item t ↔
      ∃ c, c.length = count ∧ Delivers c s t ∧ item = .uninterpreted identifier c := by
  simp only [Source.item, Action.bind_eq_ok, octets_eq_ok_iff hs, Action.pure_eq_ok]
  constructor
  · intro h
    rcases h with ⟨c, m, ⟨hlength, hc⟩, rfl, rfl⟩
    exact ⟨c, hlength, hc, rfl⟩
  · intro h
    rcases h with ⟨c, hlength, hc, rfl⟩
    exact ⟨c, t, ⟨hlength, hc⟩, rfl, rfl⟩

theorem decode_eq_ok_iff {c : Octets} {value : Primitive} :
    decode identifier c s = .ok value t ↔
      Primitive.ofContent identifier c = .ok value ∧ s = t := by
  unfold decode
  cases Primitive.ofContent identifier c with
  | error reason => simp [fail]
  | ok found => simp

theorem item_decoded_eq_ok_iff {count : Nat} (hs : s.Passing) :
    Source.item scope identifier (.decoded count) s = .ok item t ↔
      ∃ c value, c.length = count ∧ Delivers c s t ∧
        Primitive.ofContent identifier c = .ok value ∧ item = .primitive value := by
  simp only [Source.item, Action.bind_eq_ok, octets_eq_ok_iff hs, decode_eq_ok_iff,
    Action.pure_eq_ok]
  constructor
  · intro h
    rcases h with ⟨c, m, ⟨hlength, hc⟩, value, m', ⟨hvalue, rfl⟩, rfl, rfl⟩
    exact ⟨c, value, hlength, hc, hvalue, rfl⟩
  · intro h
    rcases h with ⟨c, value, hlength, hc, hvalue, rfl⟩
    exact ⟨c, t, ⟨hlength, hc⟩, value, t, ⟨hvalue, rfl⟩, rfl, rfl⟩

theorem item_skipped_eq_ok_iff (hs : s.Passing) :
    Source.item scope identifier .skipped s = .ok item t ↔
      ∃ c, EndsAtMarker c ∧ Delivers c s t ∧ item = .primitive .null := by
  simp only [Source.item, Action.bind_eq_ok, within_skipToEnd_eq_ok_iff hs, Action.pure_eq_ok]
  constructor
  · intro h
    rcases h with ⟨-, m, ⟨c, hends, hc⟩, rfl, rfl⟩
    exact ⟨c, hends, hc, rfl⟩
  · intro h
    rcases h with ⟨c, hends, hc, rfl⟩
    exact ⟨(), t, ⟨c, hends, hc⟩, rfl, rfl⟩

theorem item_entered_eq_ok_iff {form : Form} {region : Region} :
    Source.item scope identifier (.entered form region) s = .ok item t ↔
      scope.depth < scope.maxDepth ∧ t = s.enter region ∧
        item = .container ⟨form, scope.inside region, region.isMarked⟩ := by
  simp only [Source.item, Action.bind_eq_ok, Action.pure_eq_ok, open?]
  constructor
  · intro h
    rcases h with ⟨container, m, h, rfl, rfl⟩
    split at h
    · cases h
    · rename_i hdepth
      cases h
      exact ⟨Nat.lt_of_not_le hdepth, rfl, rfl⟩
  · intro h
    rcases h with ⟨hdepth, rfl, rfl⟩
    exact ⟨_, _, if_neg (Nat.not_le_of_lt hdepth), rfl, rfl⟩

end Source
end Ber
