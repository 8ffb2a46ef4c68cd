import WireLayout.Schema

/-!
# Schema texts

The canonical text of a schema: how it would be written as a call of its builder. Names stand in single quotes, field keys stand
bare, an automatic count is `null`, functions are `$fn`. Resolution takes two candidates for the same when their texts are equal.
-/

namespace WireLayout

/-- Parts with commas between them. -/
def commaSeparated (parts : List String) : String := ",".intercalate parts

/-- Parts in brackets. -/
def bracketed (parts : List String) : String := "[" ++ commaSeparated parts ++ "]"

/-- Parts in braces. -/
def braced (parts : List String) : String := "\x7b" ++ commaSeparated parts ++ "\x7d"

/-- A name in single quotes. -/
def quoted (name : String) : String := "'" ++ name ++ "'"

/-- A call with its arguments. -/
def called (name : String) (arguments : List String) : String := name ++ "(" ++ commaSeparated arguments ++ ")"

/-- The text of an operator. -/
def Operator.text : Operator → String
  | .operand v => v.literal
  | .function _ => "$fn"

/-- The text of a transcoder. -/
def Transcoder.text (t : Transcoder) : String := quoted t.name

mutual

/-- The canonical text of a candidate. -/
def Candidate.text : Candidate → String
  | .name n => quoted n
  | .fields layout => layout.text
  | .schema schema => schema.text

/-- The canonical text of a layout. -/
def Layout.text : Layout → String
  | .named fields => braced (fieldTexts fields)
  | .positional items => bracketed (itemTexts items)

/-- The texts of named fields. -/
def fieldTexts : List (String × Candidate) → List String
  | [] => []
  | (key, candidate) :: rest => (key ++ ":" ++ candidate.text) :: fieldTexts rest

/-- The texts of candidates. -/
def itemTexts : List Candidate → List String
  | [] => []
  | candidate :: rest => candidate.text :: itemTexts rest

/-- The canonical text of a count. -/
def Count.text : Count → String
  | .fixed n => toString n
  | .prefixed number => number.text
  | .auto => "null"

/-- The canonical text of a schema. -/
def Schema.text : Schema → String
  | .number kind => kind.text
  | .array item count => called "array" [item.text, count.text]
  | .string size => called "string" [size.text]
  | .cstring size => called "cstring" [size.text]
  | .object layout => called "object" [layout.text]
  | .union layout size => called "union" [layout.text, toString size]
  | .enums names base =>
    called "enums" [braced (names.map fun entry => entry.1 ++ ":" ++ toString entry.2.toInt), base.text]
  | .depend field selector => called "depend" [quoted field, selector.text]
  | .link field item => called "link" [quoted field, item.text]
  | .computed operator value => called "virtual" [operator.text, value.literal]
  | .exit => called "exit" []
  | .parse encode decode inner size => called "parse" [encode.text, decode.text, inner.text, size.text]
  | .custom extension => extension.name

/-- The canonical text of a selector; a builder without arguments is written like a name. -/
def Selector.text : Selector → String
  | .application builder [] => quoted builder.name
  | .application builder (argument :: rest) => called builder.name (argument.text :: argumentTexts rest)
  | .function _ => "$fn"

/-- The texts of arguments. -/
def argumentTexts : List Argument → List String
  | [] => []
  | argument :: rest => argument.text :: argumentTexts rest

/-- The canonical text of an argument. -/
def Argument.text : Argument → String
  | .value v => v.literal
  | .schema candidate => candidate.text
  | .cases pairs => bracketed (caseTexts pairs)
  | .selector selector => selector.text
  | .operator operator => operator.text
  | .transcoder transcoder => transcoder.text

/-- The texts of pairs of a value and a schema. -/
def caseTexts : List (Value × Candidate) → List String
  | [] => []
  | (value, candidate) :: rest => bracketed [value.literal, candidate.text] :: caseTexts rest

end

/-- What a fault shows for a candidate that does not resolve: a name bare, anything else by its text. -/
def Candidate.identifier : Candidate → String
  | .name n => n
  | candidate => candidate.text

end WireLayout
