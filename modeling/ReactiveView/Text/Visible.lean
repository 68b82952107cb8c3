import ReactiveView.Text.DefaultIgnorable
import ReactiveView.Text.ExtendingMark
import ReactiveView.Text.Nonprinting

namespace ReactiveView

def isVisible (c : Char) : Bool :=
  !(isNonprinting c || isExtendingMark c || isIgnorable c)

end ReactiveView
