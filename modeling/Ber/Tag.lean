/-!
# Ber.Tag — classes, tags and their names

A tag tells the type of a value: a class, and a number within the class. Some numbers of the
universal class have a fixed meaning; these are the `UniversalType`s, each with its number
(`UniversalType.number`) and its name. `Tag.universalType?` looks a tag up among them.
-/

namespace Ber

/-- The class of a tag. -/
inductive TagClass where
  | universal
  | application
  | context
  | privateUse
deriving DecidableEq, Repr

/-- The class written in the top two bits of the first identifier octet. -/
def TagClass.ofFirst (first : UInt8) : TagClass :=
  match first.toNat / 64 with
  | 0 => .universal
  | 1 => .application
  | 2 => .context
  | _ => .privateUse

/-- The types of the universal class that have a name here. -/
inductive UniversalType where
  | endOfContents
  | boolean
  | integer
  | bitString
  | octetString
  | null
  | objectIdentifier
  | enumerated
  | utf8String
  | sequence
  | set
  | numericString
  | printableString
  | teletexString
  | ia5String
  | utcTime
  | generalizedTime
  | visibleString
  | generalString
  | universalString
  | bmpString
deriving DecidableEq, Repr

namespace UniversalType

/-- The tag number of a universal type. -/
def number : UniversalType → UInt32
  | endOfContents => 0
  | boolean => 1
  | integer => 2
  | bitString => 3
  | octetString => 4
  | null => 5
  | objectIdentifier => 6
  | enumerated => 10
  | utf8String => 12
  | sequence => 16
  | set => 17
  | numericString => 18
  | printableString => 19
  | teletexString => 20
  | ia5String => 22
  | utcTime => 23
  | generalizedTime => 24
  | visibleString => 26
  | generalString => 27
  | universalString => 28
  | bmpString => 30

/-- The name of a universal type. -/
def name : UniversalType → String
  | endOfContents => "end-of-contents"
  | boolean => "BOOLEAN"
  | integer => "INTEGER"
  | bitString => "BIT STRING"
  | octetString => "OCTET STRING"
  | null => "NULL"
  | objectIdentifier => "OBJECT IDENTIFIER"
  | enumerated => "ENUMERATED"
  | utf8String => "UTF8String"
  | sequence => "SEQUENCE"
  | set => "SET"
  | numericString => "NumericString"
  | printableString => "PrintableString"
  | teletexString => "TeletexString"
  | ia5String => "IA5String"
  | utcTime => "UTCTime"
  | generalizedTime => "GeneralizedTime"
  | visibleString => "VisibleString"
  | generalString => "GeneralString"
  | universalString => "UniversalString"
  | bmpString => "BMPString"

/-- Every universal type, in the order of the tag numbers. -/
def all : List UniversalType :=
  [endOfContents, boolean, integer, bitString, octetString, null, objectIdentifier, enumerated,
    utf8String, sequence, set, numericString, printableString, teletexString, ia5String, utcTime,
    generalizedTime, visibleString, generalString, universalString, bmpString]

/-- The universal type with the given tag number. -/
def ofNumber? (number : UInt32) : Option UniversalType :=
  all.find? (·.number == number)

/-- The number of a universal type leads back to it. -/
theorem ofNumber?_number (type : UniversalType) : ofNumber? type.number = some type := by
  cases type <;> decide

/-- Looking a number up yields the one type that has this number. -/
theorem ofNumber?_eq_some_iff {number : UInt32} {type : UniversalType} :
    ofNumber? number = some type ↔ type.number = number := by
  constructor
  · intro found
    simpa using List.find?_some found
  · rintro rfl
    exact ofNumber?_number type

end UniversalType

/-- A tag: a number of 32 bits within a class. -/
structure Tag where
  tagClass : TagClass
  number : UInt32
deriving DecidableEq, Repr

namespace Tag

/-- The tag of a universal type. -/
def universal (type : UniversalType) : Tag := ⟨.universal, type.number⟩

/-- The tag of the context specific class with the given number. -/
def context (number : UInt32) : Tag := ⟨.context, number⟩

/-- The universal type that a tag stands for. Only tags of the universal class have one. -/
def universalType? (tag : Tag) : Option UniversalType :=
  match tag.tagClass with
  | .universal => UniversalType.ofNumber? tag.number
  | _ => none

/-- Only the tag of a universal type stands for it. -/
theorem universalType?_eq_some_iff {tag : Tag} {type : UniversalType} :
    tag.universalType? = some type ↔ tag = universal type := by
  obtain ⟨tagClass, number⟩ := tag
  cases tagClass <;>
    simp [universalType?, universal, UniversalType.ofNumber?_eq_some_iff, eq_comm (a := number)]

/-- Different universal types have different tags. -/
theorem universal_inj {type other : UniversalType} :
    universal type = universal other ↔ type = other := by
  rw [← universalType?_eq_some_iff,
    show (universal type).universalType? = some type from universalType?_eq_some_iff.2 rfl,
    Option.some.injEq]

/-- The text of a tag: the name of its universal type, or else its class and number in brackets.
Brackets without a class mean the context specific class. -/
def text (tag : Tag) : String :=
  match tag.universalType? with
  | some type => type.name
  | none =>
    let number := toString tag.number.toNat
    match tag.tagClass with
    | .universal => "[UNIVERSAL " ++ number ++ "]"
    | .application => "[APPLICATION " ++ number ++ "]"
    | .context => "[" ++ number ++ "]"
    | .privateUse => "[PRIVATE " ++ number ++ "]"

/-- The text of a tag when it is shown as a term. -/
def termText (tag : Tag) : String := "Tag(" ++ tag.text ++ ")"

end Tag
end Ber
