import EchoAi.Json.Text
import EchoAi.Bytes

/-!
# JSON on a wire

* `WireJson`: a JSON library as a C program uses it on the bytes of an answer; `byteJson`: one that
  reads the bytes as characters.
* `JsonValue.exactMember`, `JsonValue.isObject`, `JsonValue.isNull`: further readings of a value.
-/

namespace JsonValue

/-- The first member with exactly this name. -/
def exactMember (j : JsonValue) (name : String) : Option JsonValue :=
  match j with
  | .object ms => (ms.find? fun m => m.1 == name).map Prod.snd
  | _ => none

/-- Whether the value is an object. -/
def isObject : JsonValue → Bool
  | .object _ => true
  | _ => false

/-- Whether the value is null. -/
def isNull : JsonValue → Bool
  | .null => true
  | _ => false

end JsonValue

namespace EchoAi

/-- A JSON library: a parser of the bytes of a C string and a printer.  The texts of a value are as
C reads them, up to the first NUL, and its numbers are the doubles that they are rounded to.  -/
structure WireJson where
  parse : List UInt8 → Option JsonValue
  print : JsonValue → Option String

/-- The library on bytes that stand for one character each. -/
def byteJson : WireJson where
  parse bs := textCodec.parse (String.ofList (bs.map fun b => Char.ofNat b.toNat))
  print v := some (textCodec.print v)

theorem byteJson_parse (bs : List UInt8) : byteJson.parse bs =
    textCodec.parse (String.ofList (bs.map fun b => Char.ofNat b.toNat)) := rfl

/-- The library with its characters in a list. -/
theorem byteJson_eq : byteJson = {
    parse := fun bs => (JsonText.parseValue (bs.map fun b => Char.ofNat b.toNat).length
      (bs.map fun b => Char.ofNat b.toNat)).map Prod.fst
    print := byteJson.print } := by
  rw [WireJson.mk.injEq]
  refine ⟨funext fun bs => ?_, rfl⟩
  show (JsonText.parseText (String.ofList (bs.map _))).map Prod.fst = _
  rw [JsonText.parseText, String.toList_ofList]

/-- The bytes of a printed value are read as the value. -/
theorem byteJson_parse_of_print {bs : List UInt8} {v : JsonValue}
    (h : String.ofList (bs.map fun b => Char.ofNat b.toNat) = textCodec.print v) :
    byteJson.parse bs = some v := by
  rw [byteJson_parse, h, textCodec.parse_print]

end EchoAi
