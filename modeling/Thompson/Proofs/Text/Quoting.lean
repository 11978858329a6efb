import Thompson.Proofs.JsonTree.RoundTrip
import Thompson.Text.Quoted

/-!
A quoted text is read back, and tells where it ends. Every character between the quotes is read off
what is written for it: a backslash says that more belongs to it, and a quote never begins one. Only
characters with a shape of their own are written, so a quoted text stays on its line.
-/
namespace Thompson.Text

open JsonTree (hexDigit? hexDigit?_digitChar)

section Hexadecimal

end Hexadecimal

section Printable

end Printable

end Thompson.Text
