import WireLayout.Registry

/-!
# The standard registry

Three patterns and the names that every format can use: the kinds of numbers with their aliases, and texts with a count in front.
`aliasPattern` follows registered names, `layoutPattern` takes a raw layout for an object, and `shorthandPattern` reads
`item[4]`, `item[.]`, `item[..]` and `item[....]` as arrays.
-/

namespace WireLayout

/-- Where following aliases from a name ends. -/
inductive AliasEnd where
  | schema (schema : Schema)
  /-- At a name without an entry. -/
  | missing (name : String)
  /-- Nowhere: a name came around again. -/
  | cyclic

namespace Registry

/-- Follows aliases; `visited` holds the names so far. A chain without repetition has at most as many links as there are entries. -/
def followAliases (table : Table) : (links : Nat) → (visited : List String) → (name : String) → AliasEnd
  | links, visited, name =>
    match table.lookup name with
    | none => .missing name
    | some (.schema schema) => .schema schema
    | some (.aliasOf target) =>
      if target ∈ visited then .cyclic
      else
        match links with
        | 0 => .cyclic
        | links + 1 => followAliases table links (target :: visited) target

/-- Where following aliases from a name ends. -/
def aliasEnd (table : Table) (name : String) : AliasEnd := followAliases table table.length [name] name

/-- A name becomes the schema that its aliases lead to, or the name without an entry at which they end. -/
def aliasPattern : Pattern := fun table c =>
  match c with
  | .name start =>
    match aliasEnd table start with
    | .schema schema => some (.schema schema)
    | .missing name => if name = start then none else some (.name name)
    | .cyclic => none
  | _ => none

/-- A raw layout becomes an object. -/
def layoutPattern : Pattern := fun _ c =>
  match c with
  | .fields layout => some (.object layout)
  | _ => none

/-- The text before the first opening bracket and the text between it and the closing bracket at the end. -/
def shorthandParts? (name : List Char) : Option (List Char × List Char) :=
  match name.reverse with
  | ']' :: body =>
    let body := body.reverse
    match body.dropWhile (· != '[') with
    | _ :: inner => some (body.takeWhile (· != '['), inner)
    | [] => none
  | _ => none

/-- Letters, digits and the underscore, all of ASCII. -/
def isNameChar (c : Char) : Bool := c.isAlphanum || c == '_'

/-- The count between the brackets: digits are fixed, dots say the width of a number in front. -/
def shorthandCount? (inner : List Char) : Option Count :=
  match inner with
  | ['.'] => some (.prefixed (.number .uint8))
  | ['.', '.'] => some (.prefixed (.number .uint16))
  | ['.', '.', '.', '.'] => some (.prefixed (.number .uint32))
  | digits => (Position.ofDigits? digits).map .fixed

/-- A name with brackets at the end becomes an array. -/
def shorthandPattern : Pattern := fun _ c =>
  match c with
  | .name name => do
    let (item, inner) ← shorthandParts? name.toList
    if item ≠ [] ∧ item.all isNameChar then
      let count ← shorthandCount? inner
      some (.array (.name (String.ofList item)) count)
    else none
  | _ => none

/-- The patterns of a standard registry. -/
def standardPatterns : List Pattern := [aliasPattern, layoutPattern, shorthandPattern]

/-- Registers a kind of number under its name, and its aliases. -/
def registerNumber (r : Registry) (kind : Number) : Registry :=
  kind.aliases.foldl (fun r name => r.addAlias name kind.name) (r.register kind.name (.number kind))

/-- The texts that have names of their own. -/
def textEntries : List (String × Candidate) :=
  [("shortString", .string (.prefixed (.number .uint8))),
   ("smallString", .string (.prefixed (.number .uint16))),
   ("longString", .string (.prefixed (.number .uint32))),
   ("pchar", .cstring .auto)]

/-- The registry that knows numbers, texts and the standard patterns. -/
def standard : Registry :=
  let patterns := { empty with patterns := standardPatterns }
  (Number.all.foldl registerNumber patterns).install textEntries

end Registry

end WireLayout
