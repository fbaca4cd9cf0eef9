/-! Texts inside of texts. -/

namespace VbOutline.Text

/-- Whether a text has another one in it. -/
def occursIn (pattern : List Char) : List Char → Bool
  | [] => pattern.isEmpty
  | c :: rest => pattern.isPrefixOf (c :: rest) || occursIn pattern rest

end VbOutline.Text
