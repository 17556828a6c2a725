import ContentSpaces.Digest.Sha256
import ContentSpaces.Json.Writer

/-!
# Digests of documents

A document is identified by the SHA-256 of its canonical text, so neither the order of its keys nor
its layout matters. Several digests are combined by hashing their concatenation.
-/

namespace ContentSpaces.Digest

def ofText (text : String) : String := Sha256.hex text.toUTF8

def ofDocument (document : Json) : String := ofText document.canonical

/-- What is hashed for several digests: their texts one after the other. -/
def joined (digests : List String) : String := String.join digests

def aggregate (digests : List String) : String := ofText (joined digests)

end ContentSpaces.Digest
