import ConsoleLisp.Document.Quoted

/-!
# Documents in a subset of YAML

* `Value.ofYaml` reads a document of block mappings and sequences, flow collections, comments, and
  plain or quoted scalars on one line. An empty document is null.
* Structure comes from columns: the entries of a block collection start in one column, nested nodes
  further to the right; a sequence may start in the column of the key it belongs to.
* Two equal keys in one mapping are an error. Keys are compared as scalars and stored as texts.
* The recursion is bounded by the length of the text, since every step uses some of it.
-/

namespace ConsoleLisp

namespace Yaml

/-- Readers of a document. -/
abbrev Parser (α : Type) := StateT Cursor (Except YamlError) α

/-! ## Units and layout -/

def isInlineBlank (u : CodeUnit) : Bool := u == unit ' ' || u == unit '\t'

def isBlank (u : CodeUnit) : Bool := isInlineBlank u || isLineEnd u

def isFlowIndicator (u : CodeUnit) : Bool :=
  u == unit ',' || u == unit '[' || u == unit ']' || u == unit '\x7b' || u == unit '\x7d'

/-- Blank space or the end of the text comes first. -/
def startsBlank (t : Text) : Bool := t.head?.all isBlank

/-- Past blanks, line ends and comments. A comment starts at a `#` at the start of a line or behind
a blank. -/
def skipLayout (afterBlank inComment : Bool) : Text → Location → Cursor
  | [], place => ⟨[], place⟩
  | u :: rest, place =>
    if inComment then skipLayout true (!isLineEnd u) rest (place.advance u)
    else if isBlank u then skipLayout true false rest (place.advance u)
    else if afterBlank && u == unit '#' then skipLayout true true rest (place.advance u)
    else ⟨u :: rest, place⟩

/-- Go to the next unit that is no layout. -/
def layout (afterBlank : Bool) : Parser Unit :=
  modify fun c => skipLayout afterBlank false c.rest c.place

/-- Go past blanks within the line. -/
def inlineBlanks : Parser Unit := modify (Cursor.skipWhile isInlineBlank)

def rest : Parser Text := return (← get).rest

def column : Parser Nat := return (← get).place.column

/-- Go on behind a leading part of the text, `rest` being what follows it. -/
def moveTo (rest : Text) : Parser Unit :=
  modify fun c => ⟨rest, c.place.after (c.rest.take (c.rest.length - rest.length))⟩

def unexpected {α : Type} : Parser α := do throw (.unexpected (← get).place)

/-- Go past one unit. -/
def advance : Parser Unit := do moveTo ((← rest).drop 1)

/-- Nothing but a comment is left on the line. -/
def atLineEnd (t : Text) : Bool :=
  match t.dropWhile isInlineBlank with
  | [] => true
  | u :: _ => isLineEnd u || (u == unit '#' && t.head?.any isInlineBlank)

/-- An item of a block sequence starts here. -/
def startsItem : Text → Bool
  | u :: rest => u == unit '-' && startsBlank rest
  | [] => false

/-- What follows the mark that starts a document, when the text starts with it. -/
def documentMark? (t : Text) : Option Text := (Text.after? (text "---") t).filter startsBlank

/-! ## Scalars -/

/-- The text after a colon makes the colon end a key. -/
def endsKey (inFlow : Bool) (after : Text) : Bool :=
  startsBlank after || (inFlow && after.head?.any isFlowIndicator)

/-- The text of a plain scalar, blanks at its end included. -/
def plainPart (inFlow : Bool) : Bool → Text → Text
  | _, [] => []
  | afterBlank, u :: rest =>
    if isLineEnd u || (afterBlank && u == unit '#') || (u == unit ':' && endsKey inFlow rest)
        || (inFlow && isFlowIndicator u) then []
    else u :: plainPart inFlow (isInlineBlank u) rest

/-- A text that starts like this is no plain scalar. -/
def startsIndicator : Text → Bool
  | [] => true
  | u :: rest =>
    isFlowIndicator u || (text "&*!|>%@\x60#\"'").contains u
      || ((u == unit '-' || u == unit '?' || u == unit ':') && startsBlank rest)

/-- A scalar and whether it was quoted. -/
def scalar (inFlow : Bool) : Parser (Value × Bool) := do
  let t ← rest
  match t with
  | [] => unexpected
  | u :: behind =>
    if u = unit '"' then
      let (value, behind) ← doubleQuoted .outside behind
      moveTo behind
      return (.text value, true)
    else if u = unit '\x27' then
      let (value, behind) ← singleQuoted behind
      moveTo behind
      return (.text value, true)
    else if startsIndicator t ∨ ((← column) = 1 ∧ (documentMark? t).isSome) then unexpected
    else
      let part := ((plainPart inFlow false t).reverse.dropWhile isInlineBlank).reverse
      moveTo (t.drop part.length)
      return (.ofPlain part, false)

/-! ## Mappings -/

/-- Two keys are the same scalar. -/
def sameKey : Value → Value → Bool
  | .null, .null => true
  | .boolean a, .boolean b => a == b
  | .number a, .number b => a == b
  | .text a, .text b => a == b
  | _, _ => false

/-- The key is a scalar. -/
def isScalarKey : Value → Bool
  | .list _ | .mapping _ => false
  | _ => true

/-- Refuse a key that is a collection or that a mapping has already. -/
def checkNewKey (key : Value) (entries : List (Value × Value)) : Parser Unit :=
  if !isScalarKey key then unexpected
  else if entries.any fun entry => sameKey entry.1 key then throw (.duplicateKey key.keyText)
  else pure ()

/-- The mapping of some entries, the newest first. -/
def mappingOf (entries : List (Value × Value)) : Value :=
  .mapping (Keyed.ofList (entries.reverse.map fun entry => (entry.1.keyText, entry.2)))

/-! ## Flow collections -/

/-- Where the lines of a flow collection may start: to the right of `margin`, the column of the
block entry around it, except that the bracket closing the outermost collection may stand in that
column. -/
structure FlowLines where
  margin : Nat
  isOutermost : Bool

/-- The lines of a collection inside another one. -/
def FlowLines.inner (lines : FlowLines) : FlowLines := { lines with isOutermost := false }

/-- The next unit inside a flow collection. -/
def flowUnit (lines : FlowLines) : Parser CodeUnit := do
  let before := (← get).place.line
  layout false
  match ← rest with
  | [] => throw .unclosedFlow
  | u :: _ =>
    let column ← column
    let closesOutermost :=
      lines.isOutermost ∧ column = lines.margin ∧ (u = unit ']' ∨ u = unit '\x7d')
    if before < (← get).place.line ∧ column ≤ lines.margin ∧ ¬closesOutermost then unexpected
    else return u

/-- Go past the comma behind an entry, unless the collection ends with it. -/
def flowComma (lines : FlowLines) (close : CodeUnit) : Parser Unit := do
  let u ← flowUnit lines
  if u = unit ',' then advance
  else if u = close then pure ()
  else unexpected

mutual

/-- A node inside a flow collection, or a flow collection itself, and whether it is a scalar without
quotes. -/
def flowNode : Nat → FlowLines → Parser (Value × Bool)
  | 0, _ => unexpected
  | fuel + 1, lines => do
    let u ← flowUnit lines
    if u = unit '[' then
      advance
      return (← flowItems fuel lines [], false)
    else if u = unit '\x7b' then
      advance
      return (← flowEntries fuel lines [], false)
    else
      let (value, quoted) ← scalar true
      return (value, !quoted)

/-- The value behind a key, if a colon follows the key. A colon behind a plain key is one only
before a blank or an indicator. -/
def flowValue : Nat → FlowLines → Bool → Parser (Option Value)
  | 0, _, _ => unexpected
  | fuel + 1, lines, isPlain => do
    let u ← flowUnit lines
    let after := (← rest).drop 1
    if u = unit ':' ∧ (isPlain → endsKey true after) then
      advance
      let u ← flowUnit lines
      if u = unit ',' ∨ u = unit ']' ∨ u = unit '\x7d' then return some .null
      else return some (← flowNode fuel lines.inner).1
    else return none

/-- The items of a flow sequence up to its end; those already read are the newest first. An item
with a colon behind it is a mapping of one entry. -/
def flowItems : Nat → FlowLines → List Value → Parser Value
  | 0, _, _ => unexpected
  | fuel + 1, lines, items => do
    if (← flowUnit lines) = unit ']' then
      advance
      return .list items.reverse
    else
      let (node, isPlain) ← flowNode fuel lines.inner
      let item ← match ← flowValue fuel lines isPlain with
        | some value => do
          checkNewKey node []
          pure (mappingOf [(node, value)])
        | none => pure node
      flowComma lines (unit ']')
      flowItems fuel lines (item :: items)

/-- The entries of a flow mapping up to its end; those already read are the newest first. -/
def flowEntries : Nat → FlowLines → List (Value × Value) → Parser Value
  | 0, _, _ => unexpected
  | fuel + 1, lines, entries => do
    if (← flowUnit lines) = unit '\x7d' then
      advance
      return mappingOf entries
    else
      let (key, isPlain) ← flowNode fuel lines.inner
      checkNewKey key entries
      let value := (← flowValue fuel lines isPlain).getD .null
      flowComma lines (unit '\x7d')
      flowEntries fuel lines ((key, value) :: entries)

end

/-- A flow collection that ends its line, in a block entry that starts in the given column. -/
def flowOnLine (fuel margin : Nat) : Parser Value := do
  let (value, _) ← flowNode fuel ⟨margin, true⟩
  if atLineEnd (← rest) then return value else unexpected

/-! ## Block collections -/

/-- The colon behind a key of a block mapping comes next. -/
def atColon : Parser Bool := do
  match (← rest).dropWhile isInlineBlank with
  | u :: after => return u == unit ':' && endsKey false after
  | [] => return false

/-- A value on the line of its key, or of the mark that starts the document; the key starts in the
column `margin`. -/
def inlineValue (fuel margin : Nat) : Parser Value := do
  match (← rest).head? with
  | some u =>
    if u = unit '[' ∨ u = unit '\x7b' then flowOnLine fuel margin
    else
      let (value, _) ← scalar false
      if atLineEnd (← rest) then return value else unexpected
  | none => unexpected

mutual

/-- The node that starts at the cursor, inside a collection that starts in the column `margin`. -/
def blockNode : Nat → Nat → Parser Value
  | 0, _ => unexpected
  | fuel + 1, margin => do
    let t ← rest
    let column ← column
    if startsItem t then blockItems fuel column []
    else if t.head?.any fun u => u == unit '[' || u == unit '\x7b' then flowOnLine fuel margin
    else
      let (value, _) ← scalar false
      if ← atColon then blockEntries fuel column value []
      else if atLineEnd (← rest) then return value
      else unexpected

/-- The items of a block sequence from the one at the cursor on. -/
def blockItems : Nat → Nat → List Value → Parser Value
  | 0, _, _ => unexpected
  | fuel + 1, start, items => do
    advance
    layout true
    let item ←
      if (← rest) ≠ [] ∧ start < (← column) then blockNode fuel start else pure .null
    layout true
    let items := item :: items
    let column ← column
    if (← rest) = [] ∨ column < start then return .list items.reverse
    else if column = start then
      if startsItem (← rest) then blockItems fuel start items else return .list items.reverse
    else unexpected

/-- The entries of a block mapping from the colon behind the key on. -/
def blockEntries : Nat → Nat → Value → List (Value × Value) → Parser Value
  | 0, _, _, _ => unexpected
  | fuel + 1, start, key, entries => do
    checkNewKey key entries
    inlineBlanks
    advance
    let value ←
      if atLineEnd (← rest) then do
        layout true
        let column ← column
        if (← rest) = [] then pure .null
        else if start < column then blockNode fuel start
        else if column = start ∧ startsItem (← rest) then blockItems fuel start []
        else pure .null
      else do
        inlineBlanks
        inlineValue fuel start
    layout true
    let entries := (key, value) :: entries
    let column ← column
    if (← rest) = [] ∨ column < start then return mappingOf entries
    else if column = start then
      let (key, _) ← scalar false
      if ← atColon then blockEntries fuel start key entries else unexpected
    else unexpected

end

/-- A whole document. Behind the mark that may start it, on the same line, no block collection can
stand. -/
def document (fuel : Nat) : Parser Value := do
  layout true
  let behindMark := documentMark? (← rest)
  if let some behind := behindMark then moveTo behind
  let marked := (← get).place.line
  layout true
  if (← rest) = [] then return .null
  let value ←
    if behindMark.isSome ∧ (← get).place.line = marked then inlineValue fuel 0 else blockNode fuel 0
  layout true
  if (← rest) = [] then return value else unexpected

end Yaml

/-- The value of a document; a byte order mark in front of it does not count. -/
def Value.ofYaml (t : Text) : Except YamlError Value :=
  let t := (Text.after? [0xFEFF] t).getD t
  ((Yaml.document (4 * t.length + 4)).run (.ofText t)).map Prod.fst

end ConsoleLisp
