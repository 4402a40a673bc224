/-
Texts in which ranges of bytes are replaced.

`splice` puts the new text of each edit in the place of its bytes and keeps
whatever is before, between and after the edits. It goes through the text once,
so the edits have to come in order and must not overlap (`Apart`).
-/
import RichContent.Proofs.Text.Tile

namespace RichContent

/-- A range of bytes of a source, and what is put in its place. -/
structure Edit where
  span : Span
  text : Text
deriving DecidableEq, Repr

/-- The edits come in order and do not overlap. -/
def Edit.Apart (edits : List Edit) : Prop :=
  edits.Pairwise fun e f => e.span.stop ≤ f.span.start

namespace Text

/-- The characters that begin in the first `n` bytes. -/
def takeBytes : Nat → Text → Text
  | _, [] => []
  | n, c :: t => if n = 0 then [] else c :: takeBytes (n - c.utf8Size) t

/-- The text without the characters that begin in its first `n` bytes. -/
def dropBytes : Nat → Text → Text
  | _, [] => []
  | n, c :: t => if n = 0 then c :: t else dropBytes (n - c.utf8Size) t

/-- A text whose first byte is number `n` of a source, with edits made in it. -/
def splice (n : Nat) (t : Text) : List Edit → Text
  | [] => t
  | e :: rest =>
    takeBytes (e.span.start - n) t ++ e.text
      ++ splice e.span.stop (dropBytes (e.span.stop - n) t) rest

@[simp] theorem takeBytes_zero (t : Text) : takeBytes 0 t = [] := by cases t <;> rfl

@[simp] theorem dropBytes_zero (t : Text) : dropBytes 0 t = t := by cases t <;> rfl

theorem takeBytes_append (s t : Text) (n : Nat) :
    takeBytes (s.utf8Size + n) (s ++ t) = s ++ takeBytes n t := by
  induction s with
  | nil => simp
  | cons c s ih =>
    have hc := c.utf8Size_pos
    have hsub : c.utf8Size + utf8Size s + n - c.utf8Size = utf8Size s + n := by omega
    rw [List.cons_append, utf8Size_cons, takeBytes, if_neg (by omega), hsub, ih, List.cons_append]

theorem dropBytes_append (s t : Text) (n : Nat) :
    dropBytes (s.utf8Size + n) (s ++ t) = dropBytes n t := by
  induction s with
  | nil => simp
  | cons c s ih =>
    have hc := c.utf8Size_pos
    have hsub : c.utf8Size + utf8Size s + n - c.utf8Size = utf8Size s + n := by omega
    rw [List.cons_append, utf8Size_cons, dropBytes, if_neg (by omega), hsub, ih]

/-- What is before the first edit stays. -/
theorem splice_keep {n : Nat} {s : Text} (t : Text) {edits : List Edit}
    (h : ∀ e ∈ edits, n + s.utf8Size ≤ e.span.start ∧ e.span.start ≤ e.span.stop) :
    splice n (s ++ t) edits = s ++ splice (n + s.utf8Size) t edits := by
  cases edits with
  | nil => rfl
  | cons e rest =>
    obtain ⟨hstart, hstop⟩ := h e List.mem_cons_self
    have h1 : e.span.start - n = s.utf8Size + (e.span.start - (n + s.utf8Size)) := by omega
    have h2 : e.span.stop - n = s.utf8Size + (e.span.stop - (n + s.utf8Size)) := by omega
    simp only [splice, h1, h2, takeBytes_append, dropBytes_append, List.append_assoc]

/-- The bytes of an edit give way to its text. -/
theorem splice_edit (n : Nat) (s t r : Text) (edits : List Edit) :
    splice n (s ++ t) (⟨⟨n, n + s.utf8Size⟩, r⟩ :: edits)
      = r ++ splice (n + s.utf8Size) t edits := by
  have h := dropBytes_append s t 0
  simp only [Nat.add_zero, dropBytes_zero] at h
  simp [splice, h]

end Text

end RichContent
