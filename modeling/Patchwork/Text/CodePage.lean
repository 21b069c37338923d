import Patchwork.Text.Basic

/-!
# Code page 437

One character a byte: ASCII below 128, and accented letters, box drawing and Greek above.
-/
namespace Patchwork.Text.CodePage

/-- The characters of the bytes from 128 on. -/
def upperHalf : Text :=
  ("ÇüéâäàåçêëèïîìÄÅÉæÆôöòûùÿÖÜ¢£¥₧ƒ" ++
   "áíóúñÑªº¿⌐¬½¼¡«»░▒▓│┤╡╢╖╕╣║╗╝╜╛┐" ++
   "└┴┬├─┼╞╟╚╔╩╦╠═╬╧╨╤╥╙╘╒╓╫╪┘┌█▄▌▐▀" ++
   "αßΓπΣσµτΦΘΩδ∞φε∩≡±≥≤⌠⌡÷≈°∙·√ⁿ²■\u00a0").toList

def char (b : UInt8) : Char :=
  if b < 128 then Char.ofNat b.toNat else upperHalf.getD (b.toNat - 128) ' '

def decode (bs : Bytes) : Text := bs.map char

end Patchwork.Text.CodePage
