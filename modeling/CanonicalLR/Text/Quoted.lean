import CanonicalLR.Text.Unprintable

/-!
# Quoted text

A text between double quotes. Quote, backslash, tab, line feed, carriage return
and the null character have short escapes; an unprintable character is written
by its code point in hexadecimal; every other character stands for itself.
-/

namespace CanonicalLR.Text

def escapeCodePoint (c : Char) : List Char :=
  "\\u\x7b".toList ++ Nat.toDigits 16 c.toNat ++ ['}']

def escape (c : Char) : List Char :=
  if c = '"' then ['\\', '"']
  else if c = '\\' then ['\\', '\\']
  else if c = '\t' then ['\\', 't']
  else if c = '\n' then ['\\', 'n']
  else if c = '\r' then ['\\', 'r']
  else if c.toNat = 0 then ['\\', '0']
  else if isUnprintable c then escapeCodePoint c
  else [c]

def quoted (text : String) : String :=
  String.ofList ('"' :: text.toList.flatMap escape ++ ['"'])

theorem escape_plain {c : Char} (quote : c ≠ '"') (backslash : c ≠ '\\') (tab : c ≠ '\t')
    (line : c ≠ '\n') (carriage : c ≠ '\r') (null : c.toNat ≠ 0)
    (printable : isUnprintable c = false) : escape c = [c] := by
  simp [escape, quote, backslash, tab, line, carriage, null, printable]

end CanonicalLR.Text
