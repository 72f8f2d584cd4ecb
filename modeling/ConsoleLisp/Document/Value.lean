import ConsoleLisp.KeyOrder
import ConsoleLisp.Number.Decimal

/-!
# Document values

The values that configuration files denote: scalars, lists and mappings with texts as keys. The
entries of a mapping are in the order of `Keyed.inOrder`. `Value.shown` is how a message shows a
value, `Value.keyText` the key that it makes.
-/

namespace ConsoleLisp

/-- A value of a configuration document. -/
inductive Value
  | null
  | boolean (value : Bool)
  | number (value : Number)
  | text (value : Text)
  | list (items : List Value)
  | mapping (entries : List (Text × Value))
  deriving Inhabited

namespace Value

mutual

/-- The text of a value as messages show it, when null shows as the given text: a scalar's text,
the items of a list between commas, and one text for all mappings. -/
def shownWith (ofNull : Text) : Value → Text
  | null => ofNull
  | boolean true => ConsoleLisp.text "true"
  | boolean false => ConsoleLisp.text "false"
  | number value => Number.toText value
  | text value => value
  | list items => Text.join [unit ','] (shownItems items)
  | mapping _ => ConsoleLisp.text "[object Object]"

/-- The texts of the items of a list, in which null shows as nothing. -/
def shownItems : List Value → List Text
  | [] => []
  | item :: rest => item.shownWith [] :: shownItems rest

end

/-- The text of a value as messages show it. -/
def shown (v : Value) : Text := v.shownWith (ConsoleLisp.text "null")

/-- The key that a value makes: its text, and nothing for null. -/
def keyText (v : Value) : Text := v.shownWith []

end Value

end ConsoleLisp
