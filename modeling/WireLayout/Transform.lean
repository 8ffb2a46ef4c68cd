import WireLayout.Region

/-!
# Transformed regions

A region whose bytes are those of another schema behind a transform. The inner schema runs on bytes of its own, but in the scope of
the body around; what it leaves unread is ignored.
-/

namespace WireLayout

namespace Transform

/-- Reads a region, decodes it, and reads the inner schema from the result. -/
def unpack (Γ : Context) (run : Schema → Unpacking Value) (decode : Transcoder) (inner : Candidate) (size : Count) :
    Unpacking Value := do
  let raw ← Region.unpack Γ size
  let decoded ← Walk.ofExcept (decode.apply raw)
  let (v, _) ← Walk.aside (Cursor.ofBytes decoded) (Unpacking.candidate Γ run inner)
  return v

/-- Writes the inner schema, encodes the result, and writes it as a region. -/
def pack (Γ : Context) (run : Schema → Value → Packing Unit) (encode : Transcoder) (inner : Candidate) (size : Count)
    (v : Value) : Packing Unit := do
  let plain ← Packing.collect (Packing.candidate Γ run inner v)
  let encoded ← Walk.ofExcept (encode.apply plain)
  Region.pack Γ size encoded

end Transform

end WireLayout
