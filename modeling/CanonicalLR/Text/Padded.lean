/-!
# Padded and joined text

Numbers in columns, lines, and parts joined by blanks or commas.
-/

namespace CanonicalLR.Text

/-- Fill a text from the left up to a width; a longer text is kept whole. -/
def padLeft (fill : Char) (width : Nat) (text : String) : String :=
  String.ofList (List.replicate (width - text.length) fill) ++ text

def zeroPadded (width value : Nat) : String :=
  padLeft '0' width (toString value)

def padded (width value : Nat) : String :=
  padLeft ' ' width (toString value)

theorem length_padLeft (fill : Char) (width : Nat) (text : String) :
    (padLeft fill width text).length = max width text.length := by
  simp only [padLeft, String.length_append, String.length_ofList, List.length_replicate]
  omega

def line (text : String) : String :=
  text ++ "\n"

def spaced (parts : List String) : String :=
  " ".intercalate parts

def listed (parts : List String) : String :=
  ", ".intercalate parts

end CanonicalLR.Text
