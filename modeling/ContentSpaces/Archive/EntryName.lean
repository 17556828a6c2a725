import ContentSpaces.Text.Utf8

/-!
# Names in archives

An entry name is stored as bytes. It is marked as UTF-8, where every malformed part reads as one
replacement character, or it is in code page 437.
-/

namespace ContentSpaces.Archive.EntryName

/-- The characters of code page 437 from 128 on. -/
def upperHalf : List Char :=
  ("ÇüéâäàåçêëèïîìÄÅÉæÆôöòûùÿÖÜ¢£¥₧ƒáíóúñÑªº¿⌐¬½¼¡«»" ++
    "░▒▓│┤╡╢╖╕╣║╗╝╜╛┐└┴┬├─┼╞╟╚╔╩╦╠═╬╧╨╤╥╙╘╒╓╫╪┘┌█▄▌▐▀" ++
    "αßΓπΣσµτΦΘΩδ∞φε∩≡±≥≤⌠⌡÷≈°∙·√ⁿ²■\u00a0").toList

def ofCodePage (bytes : List UInt8) : String :=
  String.ofList (bytes.map fun b =>
    if b < 128 then Char.ofNat b.toNat else upperHalf.getD (b.toNat - 128) '?')

def replacement : Char := Char.ofNat 0xfffd

def ofUtf8 (bytes : List UInt8) : String :=
  String.ofList ((Text.Utf8.decode bytes).map fun c => c.getD replacement)

end ContentSpaces.Archive.EntryName
