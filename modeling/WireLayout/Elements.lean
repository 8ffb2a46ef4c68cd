import WireLayout.Region

/-!
# Elements

Runs of elements of one schema. Numbers are moved by themselves, as one block where the byte order allows it; elements of any other
schema are run one by one through the function `run` that the caller gives. When the count is implied, elements are read until the
input ends or an element takes no byte, and that element is dropped.
-/

namespace WireLayout

namespace Elements

/-- Runs a step `count` times; `done` holds the values so far, last first. -/
def times (step : Unpacking Value) : (count : Nat) → (done : List Value) → Unpacking (List Value)
  | 0, done => pure done.reverse
  | count + 1, done => fun s =>
    match step s with
    | .ok (v, s) => times step count (v :: done) s
    | .error stop => .error stop

/-- Runs a step until the input ends or the step takes no byte; `rounds` bounds how often. -/
def untilEnd (step : Unpacking Value) : (rounds : Nat) → (done : List Value) → Unpacking (List Value)
  | 0, _ => Walk.giveUp
  | rounds + 1, done => fun s =>
    if s.medium.isEmpty then .ok (done.reverse, s)
    else
      match step s with
      | .ok (v, s') =>
        if s'.medium.position = s.medium.position then .ok (done.reverse, s')
        else untilEnd step rounds (v :: done) s'
      | .error stop => .error stop

/-- Enough rounds for any run that ends. Steps only move forward, except for extensions; but a step that is run at the same position
again, with the body left or not left as before, would run for ever. -/
def roundsFor (data : Bytes) : Nat := 2 * (data.size + 1)

/-- Reads a run of numbers. -/
def unpackNumbers (Γ : Context) (kind : Number) (count : Option Nat) : Unpacking (List Value) :=
  Walk.onMedium fun c =>
    let count := count.getD (c.remaining / kind.size)
    if kind.movesBlocks Γ.options.byteOrder then kind.unpackBlock Γ.options.byteOrder count c
    else kind.unpackEach Γ.options.byteOrder count [] c

/-- Reads a run of elements. -/
def unpack (Γ : Context) (run : Schema → Unpacking Value) (item : Candidate) (count : Option Nat) : Unpacking Value := do
  match ← Walk.resolve Γ item with
  | .number kind => return .list (← unpackNumbers Γ kind count)
  | schema =>
    match count with
    | some n => return .list (← times (run schema) n [])
    | none => return .list (← untilEnd (run schema) (roundsFor (← Walk.medium).data) [])

/-- The elements of a value; null has none. -/
def ofValue (v : Value) : Packing (List Value) :=
  match v with
  | .list items => pure items
  | .null => pure []
  | _ => Walk.fail (.typeMismatch "array" v.typeName)

/-- Runs a step on exactly `count` values: missing ones are null, further ones are dropped. -/
def packEach (step : Value → Packing Unit) : (count : Nat) → List Value → Packing Unit
  | 0, _ => pure ()
  | count + 1, items => fun s =>
    match step (items.head?.getD .null) s with
    | .ok ((), s) => packEach step count items.tail s
    | .error stop => .error stop

/-- Writes exactly `count` numbers. -/
def packNumbers (Γ : Context) (kind : Number) (items : List Value) (count : Nat) : Packing Unit :=
  if kind.movesBlocks Γ.options.byteOrder then
    Packing.onOutput fun out => kind.packBlock Γ.options.byteOrder items count out
  else packEach (Packing.number Γ kind) count items

/-- Writes exactly `count` elements. -/
def pack (Γ : Context) (run : Schema → Value → Packing Unit) (item : Candidate) (items : List Value) (count : Nat) :
    Packing Unit := do
  match ← Walk.resolve Γ item with
  | .number kind => packNumbers Γ kind items count
  | schema => packEach (run schema) count items

/-- Reads an array: its count, then its elements. -/
def unpackArray (Γ : Context) (run : Schema → Unpacking Value) (item : Candidate) (count : Count) : Unpacking Value := do
  let n ← count.unpack Γ
  unpack Γ run item n

/-- Writes an array. A fixed count decides how many elements are written, else the value does. -/
def packArray (Γ : Context) (run : Schema → Value → Packing Unit) (item : Candidate) (count : Count) (v : Value) :
    Packing Unit := do
  let items ← ofValue v
  count.pack Γ items.length
  let n := match count with
    | .fixed n => n
    | _ => items.length
  pack Γ run item items n

end Elements

end WireLayout
