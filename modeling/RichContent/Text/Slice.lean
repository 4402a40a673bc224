/-
Stretches of a source text. A slice keeps the characters themselves and the
byte at which they start, so that its byte range is read off it and never
needs the source again.
-/
import RichContent.Text.Basic

namespace RichContent

/-- A range of bytes, `stop` excluded. -/
structure Span where
  start : Nat
  stop : Nat
deriving DecidableEq, Repr

structure Slice where
  start : Nat
  text : Text
deriving DecidableEq, Repr

namespace Slice

def stop (s : Slice) : Nat := s.start + s.text.utf8Size

def span (s : Slice) : Span := ⟨s.start, s.stop⟩

@[simp] theorem stop_mk (n : Nat) (t : Text) : (Slice.mk n t).stop = n + t.utf8Size := rfl

theorem start_le_stop (s : Slice) : s.start ≤ s.stop := Nat.le_add_right _ _

end Slice

end RichContent
