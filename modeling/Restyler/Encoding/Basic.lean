import Restyler.Encoding.Names
import Restyler.Encoding.Utf16
import Restyler.Failure
import Restyler.Text.Blank
import Restyler.Text.Fold

/-!
# Character encodings

An encoding is a codec under the name by which it was asked for. Decoding turns file contents into
UTF-8 text, encoding turns text back. Under UTF-8 both keep every byte: the contents are checked and
never normalized, so byte-order marks and line ends survive.
-/

namespace Restyler

namespace Codec

/-- Fails only on contents that UTF-8 does not allow. -/
def decode? : Codec → Bytes → Option Bytes
  | .utf8, s => if Utf8.valid s then some s else none
  | .utf16, s => some (Utf8.encode (Utf16.decodeMarked s))
  | .utf16be, s => some (Utf8.encode (Utf16.decode .big s))
  | .utf16le, s => some (Utf8.encode (Utf16.decode .little s))
  | .page p, s => some (Utf8.encode (p.decode s))
  | .multibyte set, s => some (Utf8.encode (set.decode s))

/-- Fails only on text that holds a character outside a single-byte or multi-byte set. -/
def encode? : Codec → Bytes → Option Bytes
  | .utf8, t => some t
  | .utf16, t => some (Utf16.encodeMarked (Utf8.chars t))
  | .utf16be, t => some (Utf16.encode .big (Utf8.chars t))
  | .utf16le, t => some (Utf16.encode .little (Utf8.chars t))
  | .page p, t => p.encode? (Utf8.symbols t)
  | .multibyte set, t => set.encode? t

instance (codec : Codec) : Decidable (codec = .utf8) :=
  match codec with
  | .utf8 => isTrue rfl
  | .utf16 | .utf16be | .utf16le | .page _ | .multibyte _ => isFalse nofun

end Codec

structure Encoding where
  given : Bytes
  codec : Codec

namespace Encoding

def utf8 : Encoding := ⟨bytes "utf-8", .utf8⟩

/-- The encoding that nobody named. It is UTF-8 too. -/
def unnamed : Encoding := ⟨[], .utf8⟩

def name (e : Encoding) : Bytes := if e.given = [] then utf8.given else e.given

instance (e : Encoding) : Decidable (e = utf8) :=
  decidable_of_iff (e.given = utf8.given ∧ e.codec = .utf8) (by
    obtain ⟨given, codec⟩ := e
    simp [utf8])

/-- Resolves a registered name, without regard to case and surrounding white space. No name means
UTF-8. Which names resolve does not depend on the library. -/
def ofName (name : Bytes) (library : Bytes → Multibyte := fun _ => .ascii) :
    Except Failure Encoding :=
  let name := Text.trim name
  if name = [] || Text.sameFold name (bytes "utf-8") || Text.sameFold name (bytes "utf8") then
    .ok utf8
  else match Codec.ofName? library (Text.lower name) with
    | some .utf8 => .ok utf8
    | some codec => .ok ⟨name, codec⟩
    | none =>
      if Codec.isAmong (Text.lower name) Codec.unsupported then .error (.unsupportedEncoding name)
      else .error (.unknownEncoding name)

def decode (e : Encoding) (s : Bytes) : Except Failure Bytes :=
  match e.codec.decode? s with
  | some t => .ok t
  | none => .error .invalidUtf8

def encode (e : Encoding) (t : Bytes) : Except Failure Bytes :=
  match e.codec.encode? t with
  | some s => .ok s
  | none => .error (.within (bytes "encode " ++ e.name) .unencodable)

end Encoding

end Restyler
