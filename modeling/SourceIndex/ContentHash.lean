/-
  Fingerprints of file contents.

  The fingerprint of a content is the first quarter of its SHA-256 digest: eight
  bytes, read as one number, most significant first.  It keys the parse cache and
  decides whether a file has changed.
-/
import SourceIndex.Digest.Sha256

namespace SourceIndex

/-- The fingerprint of a content. -/
structure ContentHash where
  value : UInt64
  deriving DecidableEq

namespace ContentHash

instance : Inhabited ContentHash := ⟨⟨0⟩⟩

/-- The fingerprint of some bytes. -/
def ofBytes (bytes : List UInt8) : ContentHash :=
  match Sha256.digest bytes with
  | high :: low :: _ => ⟨(high.toUInt64 <<< 32) ||| low.toUInt64⟩
  | _ => ⟨0⟩

/-- The fingerprint of a text, taken of its UTF-8 bytes. -/
def ofText (text : String) : ContentHash :=
  ofBytes text.toUTF8.toList

/-- The number in base 16 with `n` lower-case digits. -/
def hexDigits : Nat → Nat → List Char
  | 0, _ => []
  | n + 1, value => hexDigits n (value / 16) ++ [Nat.digitChar (value % 16)]

/-- The fingerprint as sixteen hexadecimal digits. -/
def text (hash : ContentHash) : String :=
  String.ofList (hexDigits 16 hash.value.toNat)

end ContentHash

end SourceIndex
