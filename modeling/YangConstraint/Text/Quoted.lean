import YangConstraint.Text.Hidden

/-! Texts in double quotes, where characters that cannot be seen are written
by their code points. -/
namespace YangConstraint.Text

def escape (c : Char) : List Char :=
  match c with
  | '\x00' => ['\\', '0']
  | '\t' => ['\\', 't']
  | '\n' => ['\\', 'n']
  | '\r' => ['\\', 'r']
  | '"' => ['\\', '"']
  | '\\' => ['\\', '\\']
  | c => if isHidden c then ['\\', 'u', '\x7b'] ++ Nat.toDigits 16 c.toNat ++ ['\x7d'] else [c]

def quote (text : String) : String := String.ofList ('"' :: (text.toList.flatMap escape ++ ['"']))

end YangConstraint.Text
