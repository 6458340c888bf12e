namespace Columnar.Text

/-!
Filling a text up to a given width.  Widths count characters; a text that is too wide stays as it
is.
-/

/-- Fills up with blanks on the right. -/
def padRight (width : Nat) (text : String) : String :=
  String.ofList (text.toList ++ List.replicate (width - text.length) ' ')

/-- Fills up with blanks on the left. -/
def padLeft (width : Nat) (text : String) : String :=
  String.ofList (List.replicate (width - text.length) ' ' ++ text.toList)

end Columnar.Text
