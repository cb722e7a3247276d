/-!
Looking for a place in a text.
-/

namespace OrmCodemod.Text

/-- Whether a test holds of some tail of a text, the text itself and the empty one included. -/
def someTail (test : List Char → Bool) : List Char → Bool
  | [] => test []
  | c :: cs => test (c :: cs) || someTail test cs

def holds (part whole : List Char) : Bool := someTail part.isPrefixOf whole

end OrmCodemod.Text
