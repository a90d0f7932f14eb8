/-!
# Comparing names without regard to ASCII case

Only the letters `A` to `Z` have a lower form here; every other character is compared as it is.
-/

namespace ExportDesk.Text

/-- The text with `A` to `Z` turned into `a` to `z`. -/
def foldCase (s : String) : String := String.ofList (s.toList.map Char.toLower)

/-- Are the texts equal up to the case of ASCII letters? -/
def sameFolded (a b : String) : Bool := foldCase a == foldCase b

end ExportDesk.Text
