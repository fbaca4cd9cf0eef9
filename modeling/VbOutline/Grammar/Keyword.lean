/-! The keywords that statements are recognised by. -/

namespace VbOutline.Grammar

/-- A keyword of the language. -/
inductive Keyword where
  | publicKw | privateKw | defaultKw
  | functionKw | subKw
  | propertyKw | letKw | setKw | getKw
  | classKw | endKw
  | dimKw | constKw
  | remKw
deriving DecidableEq

/-- The caseless letters a keyword is written with. -/
def Keyword.letters : Keyword → List Char
  | .publicKw => ['p', 'u', 'b', 'l', 'i', 'c']
  | .privateKw => ['p', 'r', 'i', 'v', 'a', 't', 'e']
  | .defaultKw => ['d', 'e', 'f', 'a', 'u', 'l', 't']
  | .functionKw => ['f', 'u', 'n', 'c', 't', 'i', 'o', 'n']
  | .subKw => ['s', 'u', 'b']
  | .propertyKw => ['p', 'r', 'o', 'p', 'e', 'r', 't', 'y']
  | .letKw => ['l', 'e', 't']
  | .setKw => ['s', 'e', 't']
  | .getKw => ['g', 'e', 't']
  | .classKw => ['c', 'l', 'a', 's', 's']
  | .endKw => ['e', 'n', 'd']
  | .dimKw => ['d', 'i', 'm']
  | .constKw => ['c', 'o', 'n', 's', 't']
  | .remKw => ['r', 'e', 'm']

end VbOutline.Grammar
