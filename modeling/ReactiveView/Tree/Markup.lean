import ReactiveView.Tree.Surface

namespace ReactiveView.Markup

def escapeChar (c : Char) : String :=
  if c = '&' then "&amp;"
  else if c = '<' then "&lt;"
  else if c = '>' then "&gt;"
  else c.toString

def escapeText (s : String) : String := String.join (s.toList.map escapeChar)

def escapeValue (s : String) : String :=
  String.join (s.toList.map fun c => if c = '"' then "&quot;" else escapeChar c)

def assignment (a : String × String) : String :=
  if a.2.isEmpty then " " ++ a.1 else " " ++ a.1 ++ "=\"" ++ escapeValue a.2 ++ "\""

def element (tag : String) (attrs : Dict String) (content : String) : String :=
  "<" ++ tag ++ String.join (attrs.entries.map assignment) ++ ">" ++ content ++ "</" ++ tag ++ ">"

def subtree (s : Surface) : Nat → NodeId → String
  | 0, _ => ""
  | levels + 1, id =>
    match s.node? id with
    | none => ""
    | some n =>
      match n.kind with
      | .text text => escapeText text
      | .element tag attrs => element tag attrs (String.join (n.children.map (subtree s levels)))

end ReactiveView.Markup

namespace ReactiveView.Surface

def html (s : Surface) : String :=
  String.join ((s.children root).map (Markup.subtree s s.nodes.size))

end ReactiveView.Surface
