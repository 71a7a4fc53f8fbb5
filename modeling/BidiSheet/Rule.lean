import BidiSheet.Value.Action

/-!
# Rules

A rule says which properties it covers and what it does with their declarations. Rules stand in a
table, and the first rule of the table that covers a property is the one that is applied.
-/

namespace BidiSheet

/-- What a rule does with a declaration. -/
inductive Action where
  /-- Renames the property. -/
  | rename (vocabulary : Vocabulary)
  /-- Exchanges keywords of the value. -/
  | swap (vocabulary : Vocabulary)
  /-- Exchanges the sides of a box. -/
  | box
  /-- Exchanges the corners of a box. -/
  | corners
  /-- Sees positions from the other side. -/
  | position
  /-- Negates horizontal offsets. -/
  | offset
  deriving DecidableEq, Repr

namespace Action

/-- A value after an action. Renaming leaves it alone. -/
def onValue : Action → Value → Value
  | .rename _, v => v
  | .swap vocabulary, v => v.swapWords vocabulary
  | .box, v => v.swapSides
  | .corners, v => v.swapCorners
  | .position, v => v.reflectPositions
  | .offset, v => v.negateOffsets

/-- Whether an action is made for a value of this form. -/
def admits : Action → Value → Bool
  | .rename _, _ => false
  | .box, v => v.isBox
  | .corners, v => v.isCorners
  | _, _ => true

end Action

/-- The families of rules. -/
inductive Category where
  | propertyName
  | keywordValue
  | positionalShorthand
  | backgroundPosition
  | shadowOffset
  deriving DecidableEq, Repr

/-- A rule: its name and family, the properties it covers, in small letters, and its action. -/
structure Rule where
  name : String
  category : Category
  properties : List Text
  action : Action
  deriving DecidableEq, Repr

/-- Whether a rule covers a property. A renaming rule covers what its vocabulary has. -/
def Rule.covers (rule : Rule) (property : Text) : Bool :=
  match rule.action with
  | .rename vocabulary => (vocabulary.partner property).isSome
  | _ => rule.properties.contains property

/-- A table of rules, in the order in which they are tried. -/
abbrev Table := List Rule

namespace Table

/-- The first rule that covers a property. -/
def ruleFor (table : Table) (property : Text) : Option Rule := table.find? (·.covers property)

/-- The rules of horizontal reflection. -/
def standard : Table :=
  [{ name := "physical-property", category := .propertyName, properties := [],
     action := .rename .property },
   { name := "side-keyword", category := .keywordValue,
     properties := ["float".toList, "clear".toList, "text-align".toList, "text-align-last".toList],
     action := .swap .side },
   { name := "direction", category := .keywordValue, properties := ["direction".toList],
     action := .swap .direction },
   { name := "resize-cursor", category := .keywordValue, properties := ["cursor".toList],
     action := .swap .cursor },
   { name := "box-four-value", category := .positionalShorthand,
     properties :=
      ["margin".toList, "padding".toList, "border-width".toList, "border-color".toList,
       "border-style".toList, "inset".toList, "scroll-margin".toList, "scroll-padding".toList],
     action := .box },
   { name := "corner-radius", category := .positionalShorthand,
     properties := ["border-radius".toList], action := .corners },
   { name := "background-position", category := .backgroundPosition,
     properties :=
      ["background".toList, "background-position".toList, "background-position-x".toList],
     action := .position },
   { name := "shadow-offset", category := .shadowOffset,
     properties := ["box-shadow".toList, "text-shadow".toList], action := .offset }]

end Table

end BidiSheet
