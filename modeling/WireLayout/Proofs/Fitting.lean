import WireLayout.Proofs.Contents
import WireLayout.Proofs.Integers

/-!
# Values that fit

A value fits a schema when the schema can store all of it: integers lie in the range of their kind, counts say exactly how many
elements or bytes there are, and texts have no zero bytes where the format adds some and takes them away again. `Codec.FitsStep` has
one rule for each way in which a value fits, given what fits inside, and `Codec.Fits` iterates it as runs are iterated.

Whether a value fits may depend on the earlier fields of the body around, and writing it may leave that body. So the body is part of
the judgement, as far as it is read (`around`), and so is whether it is left (`fires`).
-/

namespace WireLayout

/-- The count says exactly so many: it is fixed to that number, or stands in front as an integer that can be so large. -/
def Count.Says (r : Registry) (n : Nat) : Count → Prop
  | fixed m => n = m
  | prefixed c => ∃ kind, r.resolve c = .ok (.number kind) ∧ kind.isFloat = false ∧ n ≤ kind.maxCount
  | auto => False

/-- A text whose region holds all of it. Zeros at the end of a fixed region are not part of the text. -/
def Text.Fits (Γ : Context) (text : String) (size : Count) : Prop :=
  ∃ bytes, Γ.options.encoding.encode? text = some bytes ∧
    match size with
    | .fixed n => bytes.size ≤ n ∧ text.toList.getLast? ≠ some '\x00'
    | size => size.Says Γ.registry bytes.size

/-- A text without NUL that leaves room for its terminator. A fixed region has no terminator when the text fills it. -/
def Text.FitsTerminated (Γ : Context) (text : String) (size : Count) : Prop :=
  '\x00' ∉ text.toList ∧ ∃ bytes, Γ.options.encoding.encode? text = some bytes ∧
    match size with
    | .fixed n => bytes.size ≤ n
    | .prefixed c => (Count.prefixed c).Says Γ.registry (bytes.size + 1)
    | .auto => True

/-- What stands for a number in an enumeration: the first of its names, when it has one, and else the number itself. -/
inductive Enumeration.StandsFor (names : List (String × Int64)) : Value → Int64 → Prop where
  | name {before after : List (String × Int64)} {name : String} {n : Int64} (split : names = before ++ (name, n) :: after)
      (first : ∀ entry ∈ before, entry.1 ≠ name ∧ entry.2 ≠ n) : StandsFor names (.text name) n
  | number {n : Int64} (nameless : ∀ entry ∈ names, entry.2 ≠ n) : StandsFor names (.int n) n

/-- Decoding undoes encoding, and every run of bytes can be encoded. -/
def Transcoder.Undoes (decode encode : Transcoder) : Prop :=
  ∀ bytes, ∃ encoded, encode.apply bytes = .ok encoded ∧ decode.apply encoded = .ok bytes

namespace Codec

/-- Elements that fit, one after another. -/
inductive FitsItems (fits : Value → Bool → Prop) : List Value → Bool → Prop where
  | nil : FitsItems fits [] false
  | cons {v : Value} {items : List Value} {fires fires' : Bool} (first : fits v fires) (rest : FitsItems fits items fires') :
      FitsItems fits (v :: items) (fires || fires')

/-- Contents of fields that fit, one after another: each field sees the contents of those before it, and behind an exit every
content is null. -/
inductive FitsFields (Γ : Context) (fits : Option Scope → Schema → Value → Bool → Prop) :
    Scope → Keyed Candidate → List Value → Prop where
  | nil {scope : Scope} : FitsFields Γ fits scope [] []
  | next {scope : Scope} {key : String} {c : Candidate} {schema : Schema} {v : Value} {rest : Keyed Candidate} {values : List Value}
      (resolved : Γ.registry.resolve c = .ok schema) (first : fits (some scope) schema v false)
      (behind : FitsFields Γ fits (scope.push key v) rest values) : FitsFields Γ fits scope ((key, c) :: rest) (v :: values)
  | exit {scope : Scope} {key : String} {c : Candidate} {schema : Schema} {v : Value} {rest : Keyed Candidate}
      (resolved : Γ.registry.resolve c = .ok schema) (first : fits (some scope) schema v true) :
      FitsFields Γ fits scope ((key, c) :: rest) (v :: rest.map fun _ => .null)

/-- A value fits a schema, where `fits` says what fits inside and `write` writes it. -/
inductive FitsStep (Γ : Context) (fits : Option Scope → Schema → Value → Bool → Prop) (write : Schema → Value → Packing Unit)
    (around : Option Scope) : Schema → Value → Bool → Prop where
  | number {kind : Number} {n : Int64} (stores : kind.Stores n) : FitsStep Γ fits write around (.number kind) (.int n) false
  | array {item : Candidate} {count : Count} {schema : Schema} {items : List Value} {fires : Bool}
      (resolved : Γ.registry.resolve item = .ok schema) (counted : count.Says Γ.registry items.length)
      (elements : FitsItems (fits around schema) items fires) : FitsStep Γ fits write around (.array item count) (.list items) fires
  | string {size : Count} {text : String} (stores : Text.Fits Γ text size) :
      FitsStep Γ fits write around (.string size) (.text text) false
  | cstring {size : Count} {text : String} (stores : Text.FitsTerminated Γ text size) :
      FitsStep Γ fits write around (.cstring size) (.text text) false
  | object {layout : Layout} {values : List Value} (wellFormed : layout.WellFormed)
      (fields : FitsFields Γ fits (.reading layout) layout.entries values) :
      FitsStep Γ fits write around (.object layout) (layout.valueOf values) false
  | enums {names : List (String × Int64)} {base : Candidate} {kind : Number} {v : Value} {n : Int64}
      (resolved : Γ.registry.resolve base = .ok (.number kind)) (named : Enumeration.StandsFor names v n) (stores : kind.Stores n) :
      FitsStep Γ fits write around (.enums names base) v false
  | depend {field : String} {selector : Selector} {scope : Scope} {dependent : Value} {c : Candidate} {schema : Schema} {v : Value}
      {fires : Bool} (inside : around = some scope) (found : scope.field? field = some dependent)
      (selects : selector.select dependent = .ok c) (resolved : Γ.registry.resolve c = .ok schema)
      (selected : fits around schema v fires) : FitsStep Γ fits write around (.depend field selector) v fires
  | computed {operator : Operator} {v : Value} : FitsStep Γ fits write around (.computed operator v) (operator.apply v) false
  | exit {scope : Scope} (inside : around = some scope) : FitsStep Γ fits write around .exit .null true
  /-- The region holds exactly what the bytes of the inner schema are encoded to. -/
  | parse {encode decode : Transcoder} {inner : Candidate} {size : Count} {schema : Schema} {v : Value} {fires : Bool}
      (resolved : Γ.registry.resolve inner = .ok schema) (undoes : decode.Undoes encode) (fit : fits around schema v fires)
      (sized : ∀ plain encoded s, write schema v ⟨#[], around⟩ = .ok ((), ⟨plain, s⟩) → encode.apply plain = .ok encoded →
        size.Says Γ.registry encoded.size) : FitsStep Γ fits write around (.parse encode decode inner size) v fires

/-- A value fits a schema, with at most `depth` schemas inside one another. -/
def Fits (Γ : Context) : (depth : Nat) → Option Scope → Schema → Value → Bool → Prop
  | 0, _, _, _, _ => False
  | depth + 1, around, schema, v, fires => FitsStep Γ (Fits Γ depth) (pack Γ depth) around schema v fires

end Codec

/-! ## A sample message -/

namespace Message

/-- Flips every bit; doing so twice changes nothing. -/
def flip : Transcoder := { name := "flip", apply := fun bytes => .ok (bytes.toList.map (· ^^^ 255)).toArray }

/-- A text has a body; a signal ends the message. -/
def body : Selector := .function fun v => .ok (if v.text? = some "text" then .cstring .auto else .exit)

/-- A name, a kind, a hidden key, and what the kind calls for. -/
def layout : Layout :=
  .named [("name", .cstring .auto), ("kind", .enums [("signal", 1), ("text", 2)] (.number .uint8)),
    ("key", .parse flip flip (.array (.number .uint8) (.prefixed (.number .uint8))) (.fixed 3)), ("body", .depend "kind" body),
    ("urgent", .number .int8)]

def schema : Schema := .object layout

def context : Context := ⟨Registry.standard, .littleEndian⟩

/-- A signal has neither a body nor anything behind it. -/
def signal : Value :=
  .record [("name", .text "a"), ("kind", .text "signal"), ("key", .list [.int 7, .int 9]), ("body", .null), ("urgent", .null)]

theorem flip_undoes : flip.Undoes flip := by
  intro bytes
  have htwice : (fun b : UInt8 => b ^^^ 255) ∘ (· ^^^ 255) = id := by
    funext b
    show b ^^^ 255 ^^^ 255 = b
    rw [UInt8.xor_assoc, UInt8.xor_self, UInt8.xor_zero]
  refine ⟨_, rfl, congrArg Except.ok ?_⟩
  rw [List.toList_toArray, List.map_map, htwice, List.map_id, Array.toArray_toList]

theorem fits_signal : Codec.Fits context 4 none schema signal false := by
  have hname : Text.FitsTerminated context "a" .auto := ⟨by decide, #[97], by decide, trivial⟩
  have hkind : Enumeration.StandsFor [("signal", 1), ("text", 2)] (.text "signal") 1 :=
    @Enumeration.StandsFor.name _ [] [("text", 2)] "signal" 1 rfl nofun
  have hbytes : ∀ around, Codec.Fits context 2 around (.array (.number .uint8) (.prefixed (.number .uint8)))
      (.list [.int 7, .int 9]) false := by
    intro around
    have hbyte : ∀ n, Number.uint8.Stores n → Codec.Fits context 1 around (.number .uint8) (.int n) false := fun n h => .number h
    refine .array rfl ⟨.uint8, rfl, rfl, by decide⟩ ?_
    exact .cons (hbyte 7 ⟨rfl, by decide, by decide⟩) (.cons (hbyte 9 ⟨rfl, by decide, by decide⟩) .nil)
  have hvalue : signal =
      layout.valueOf [.text "a", .text "signal", .list [.int 7, .int 9], .null, .null] := rfl
  rw [hvalue]
  refine .object (List.nodup_iff_pairwise_ne.mpr (by decide)) ?_
  refine .next rfl (.cstring hname) (.next rfl (.enums rfl hkind ⟨rfl, by decide, by decide⟩) (.next rfl ?_ (.exit rfl ?_)))
  · refine .parse rfl flip_undoes (hbytes _) ?_
    intro plain encoded s hpack hencode
    cases hpack
    cases hencode
    rfl
  · exact .depend rfl rfl rfl rfl (.exit rfl)

end Message

end WireLayout
