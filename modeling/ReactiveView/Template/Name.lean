import ReactiveView.Text.Pieces

namespace ReactiveView

inductive NameClass where
  | kebab
  | lowerCamel
  | upperCamel
  deriving DecidableEq, Repr

def isLowerOrDigit (c : Char) : Bool := c.isLower || c.isDigit

def startsWith (p : Char → Bool) : List Char → Bool
  | c :: _ => p c
  | [] => false

def isRunOf (p : Char → Bool) (cs : List Char) : Bool := !cs.isEmpty && cs.all p

namespace NameClass

def label : NameClass → String
  | kebab => "kebab-case"
  | lowerCamel => "lowerCamelCase"
  | upperCamel => "UpperCamelCase"

def accepts : NameClass → Char → Bool
  | kebab, c => isLowerOrDigit c || c == '-'
  | _, c => c.isAlphanum

/-- The words of this class. Kebab-case: runs of letters and digits with single hyphens between
them, the first run starting with a letter. Camel case: two characters at least, the first of them
a letter of the right case. -/
def admits : NameClass → List Char → Bool
  | kebab, w => startsWith Char.isLower w && (pieces '-' w).all (isRunOf isLowerOrDigit)
  | lowerCamel, w => 2 ≤ w.length && startsWith Char.isLower w && w.all Char.isAlphanum
  | upperCamel, w => 2 ≤ w.length && startsWith Char.isUpper w && w.all Char.isAlphanum

end NameClass

/-- A reference: words of letters and digits with dots between them, the first word starting with
a letter. -/
def isReference (w : List Char) : Bool :=
  startsWith Char.isAlpha w && (pieces '.' w).all (isRunOf Char.isAlphanum)

end ReactiveView
