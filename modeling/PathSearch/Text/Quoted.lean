import PathSearch.Text.Hex
import PathSearch.Text.Hidden

/-! # Quoted text

Text between double quotes. Quotes, backslashes and characters that do not show are written as
escapes, and everything else stands for itself.
-/

namespace PathSearch.Text

/-- A character as it stands between quotes. -/
def escape (c : Char) : String :=
  match c with
  | '"' => "\\\""
  | '\\' => "\\\\"
  | '\n' => "\\n"
  | '\r' => "\\r"
  | '\t' => "\\t"
  | c =>
      if c.toNat = 0 then "\\0"
      else if isHidden c then "\\u\x7b" ++ hexDigits 1 c.toNat ++ "\x7d"
      else String.singleton c

/-- Text between quotes. -/
def quoted (s : String) : String := "\"" ++ String.join (s.toList.map escape) ++ "\""

end PathSearch.Text
