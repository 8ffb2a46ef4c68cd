import WireLayout.Bytes

/-!
# Text encodings

Text becomes bytes in UTF-8 or in ASCII, which is UTF-8 restricted to bytes below 128. Encoding and decoding undo each other
wherever the first of them succeeds (`Encoding.decode?_encode?`).
-/

namespace WireLayout

/-- How text is written as bytes. -/
inductive Encoding where
  | utf8
  | ascii
  deriving DecidableEq, Repr

namespace Encoding

/-- The canonical name. -/
def name : Encoding → String
  | utf8 => "utf-8"
  | ascii => "ascii"

/-- The name as it is compared: ASCII letters in lower case. -/
def normalName (text : String) : String := text.map Char.toLower

/-- Names are matched without regard to the case of ASCII letters. -/
def ofName? (text : String) : Option Encoding :=
  match normalName text with
  | "utf-8" | "utf8" => some utf8
  | "ascii" | "us-ascii" => some ascii
  | _ => none

/-- Whether every byte is admitted before it is read as UTF-8. -/
def admits : Encoding → Bytes → Bool
  | utf8, _ => true
  | ascii, bytes => bytes.all (· < 128)

/-- The bytes of a text, when this encoding can express it. -/
def encode? (encoding : Encoding) (text : String) : Option Bytes :=
  if encoding.admits text.toUTF8.data then some text.toUTF8.data else none

/-- The text that the bytes are an encoding of. -/
def decode? (encoding : Encoding) (bytes : Bytes) : Option String :=
  if encoding.admits bytes then String.fromUTF8? ⟨bytes⟩ else none

theorem fromUTF8?_toUTF8 (text : String) : String.fromUTF8? text.toUTF8 = some text := by
  simp [String.fromUTF8?, String.fromUTF8, String.toUTF8, text.isValidUTF8]

/-- What was encoded is decoded to the same text. -/
theorem decode?_encode? {encoding : Encoding} {text : String} {bytes : Bytes} (h : encoding.encode? text = some bytes) :
    encoding.decode? bytes = some text := by
  unfold encode? at h
  split at h
  · next hadmits =>
    obtain rfl := Option.some.inj h
    rw [decode?, if_pos hadmits]
    exact fromUTF8?_toUTF8 text
  · simp at h

/-- What was decoded is encoded to the same bytes. -/
theorem encode?_decode? {encoding : Encoding} {text : String} {bytes : Bytes} (h : encoding.decode? bytes = some text) :
    encoding.encode? text = some bytes := by
  unfold decode? at h
  split at h
  · next hadmits =>
    unfold String.fromUTF8? at h
    split at h
    · obtain rfl := Option.some.inj h
      exact if_pos hadmits
    · simp at h
  · simp at h

end Encoding

end WireLayout
