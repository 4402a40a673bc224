/-
Readers of tokens that try one thing and then another, and remember how far
they came.

A reader reads something or fails. Either way it says which of the tries in it
that came to nothing got furthest (`Setback`): one that has read something may
have tried for more. Of a library of such readers four rules are assumed.
A token that is not the wanted one is a setback at its place, where the wanted
one was expected (`Reader.take`). Of two setbacks the further one counts, and
at one place what was expected is joined (`Setback.merge`). What is refused
after it has been read is a setback where it begins, with a message of its own,
and the setbacks inside it are forgotten (`Reader.check`); at one place such a
message outranks what was expected. What may be left out, or repeated, gives
back the tokens of the try that fails (`Reader.optional`, `Reader.many`).
-/
import RichContent.Selector.Error
import RichContent.Proofs.Text.Tile

namespace RichContent

open Text

/-- The tokens of a text follow each other from its first byte to its last. -/
theorem Token.tile_all (start : Nat) (t : Text) :
    Slice.Tile start ((all start t).map (·.slice)) (start + t.utf8Size) := by
  induction start, t using all.induct with
  | case1 start => rw [all, utf8Size_nil]; rfl
  | case2 start c rest ih =>
    rw [all]
    refine ⟨rfl, next_text_ne_nil c rest, ?_⟩
    rw [← next_append c rest, utf8Size_append, ← Nat.add_assoc]
    exact ih

namespace Selector

/-! ## Places among the tokens -/

/-- A place among the tokens of a text of so many bytes: the tokens that are left, and the byte
behind the last one that has been read. -/
structure Cursor where
  size : Nat
  rest : List Token.Placed
  behind : Option Nat

namespace Cursor

def after (s : Cursor) (x : Token.Placed) (rest : List Token.Placed) : Cursor :=
  ⟨s.size, rest, some x.slice.stop⟩

/-- The span of the next token, or of the end. -/
def span (s : Cursor) : Span :=
  match s.rest with
  | [] => ⟨s.size, s.size⟩
  | x :: _ => x.slice.span

def obstacle (s : Cursor) : Obstacle :=
  match s.rest with
  | [] => .unexpectedEnd
  | x :: _ => .unexpected x.token

/-- From the next token to the last one that has been read at another place, or to the end of the
text if none has been read there. -/
def spanTo (s s' : Cursor) : Span := ⟨s.span.start, s'.behind.getD s'.size⟩

/-- Each token that is left begins where the one before it ends, and the last ends at the end. -/
def Tight (s : Cursor) : Prop :=
  Slice.Tile (s.behind.getD 0) (s.rest.map (·.slice)) s.size

/-- One token or more are between two places. -/
inductive Before : Cursor → Cursor → Prop
  | one {s : Cursor} {x : Token.Placed} {rest : List Token.Placed} : s.rest = x :: rest →
    Before s (s.after x rest)
  | step {s s' : Cursor} {x : Token.Placed} {rest : List Token.Placed} : s.rest = x :: rest →
    Before (s.after x rest) s' → Before s s'

variable {s s' s'' : Cursor} {x : Token.Placed} {rest : List Token.Placed}

theorem Before.trans (h : s.Before s') (h' : s'.Before s'') : s.Before s'' := by
  induction h with
  | one hrest => exact .step hrest h'
  | step hrest _ ih => exact .step hrest (ih h')

theorem length_after (h : s.rest = x :: rest) : (s.after x rest).rest.length < s.rest.length := by
  rw [h]
  exact Nat.lt_succ_self _

theorem Before.length_lt (h : s.Before s') : s'.rest.length < s.rest.length := by
  induction h with
  | one hrest => exact length_after hrest
  | step hrest _ ih => exact Nat.lt_trans ih (length_after hrest)

theorem Before.size_eq (h : s.Before s') : s'.size = s.size := by
  induction h with
  | one => rfl
  | step _ _ ih => exact ih

theorem Tight.after (h : s.Tight) (hrest : s.rest = x :: rest) : (s.after x rest).Tight := by
  rw [Tight, hrest] at h
  exact h.2.2

theorem Tight.before (h : s.Tight) (hb : s.Before s') : s'.Tight := by
  induction hb with
  | one hrest => exact h.after hrest
  | step hrest _ ih => exact ih (h.after hrest)

theorem Tight.start_span (h : s.Tight) : s.span.start = s.behind.getD 0 := by
  rw [Tight] at h
  rw [span]
  cases hrest : s.rest with
  | nil =>
    rw [hrest] at h
    exact h.symm
  | cons x rest =>
    rw [hrest] at h
    exact h.1

theorem obstacle_ne (s : Cursor) : s.obstacle ≠ .noCompound := by
  rw [obstacle]
  split <;> rintro ⟨⟩

end Cursor

/-! ## Setbacks -/

/-- Two errors at one place: a message of its own outranks what was expected, and what was expected
is joined. -/
def Error.join (e e' : Error) : Error :=
  if e.obstacle = .noCompound then e
  else if e'.obstacle = .noCompound then e'
  else { e with expected := e.expected ++ e'.expected.filter (· ∉ e.expected) }

theorem Error.join_assoc (a b c : Error) : (a.join b).join c = a.join (b.join c) := by
  obtain ⟨spanA, obstacleA, l⟩ := a
  obtain ⟨spanB, obstacleB, m⟩ := b
  obtain ⟨spanC, obstacleC, k⟩ := c
  have hjoined : m.filter (· ∉ l) ++ k.filter (· ∉ l ++ m.filter (· ∉ l)) =
      (m ++ k.filter (· ∉ m)).filter (· ∉ l) := by
    rw [List.filter_append, List.filter_filter]
    congr 1
    apply List.filter_congr
    intro e _
    simp only [List.mem_append, List.mem_filter]
    grind
  by_cases ha : obstacleA = .noCompound
  · simp [join, ha]
  · by_cases hb : obstacleB = .noCompound
    · simp [join, ha, hb]
    · by_cases hc : obstacleC = .noCompound
      · simp [join, ha, hb, hc]
      · simp only [join, ha, hb, hc, if_false, List.append_assoc, hjoined]

theorem Error.join_of_nodup {e e' : Error} (he : e.obstacle ≠ .noCompound)
    (he' : e'.obstacle ≠ .noCompound) (h : (e.expected ++ e'.expected).Nodup) :
    e.join e' = { e with expected := e.expected ++ e'.expected } := by
  have hfilter : e'.expected.filter (· ∉ e.expected) = e'.expected := by
    rw [List.filter_eq_self]
    intro x hx
    rw [decide_eq_true_iff]
    exact fun hx' => (List.nodup_append.1 h).2.2 x hx' x hx rfl
  rw [join, if_neg he, if_neg he', hfilter]

/-- An error, by the number of tokens that are left where it has come up. -/
structure Setback where
  left : Nat
  error : Error

namespace Setback

/-- Of two setbacks the further one counts. -/
def merge (a b : Setback) : Setback :=
  if a.left < b.left then a
  else if b.left < a.left then b
  else ⟨a.left, a.error.join b.error⟩

variable {a b : Setback}

theorem merge_of_left_lt (h : a.left < b.left) : a.merge b = a := if_pos h

theorem merge_of_lt_left (h : b.left < a.left) : a.merge b = b := by
  rw [merge, if_neg (by omega), if_pos h]

theorem merge_of_left_eq (h : a.left = b.left) : a.merge b = ⟨a.left, a.error.join b.error⟩ := by
  rw [merge, if_neg (by omega), if_neg (by omega)]

theorem left_merge (a b : Setback) : (a.merge b).left = min a.left b.left := by
  rcases Nat.lt_trichotomy a.left b.left with h | h | h
  · rw [merge_of_left_lt h, Nat.min_eq_left (Nat.le_of_lt h)]
  · rw [merge_of_left_eq h, h, Nat.min_self]
  · rw [merge_of_lt_left h, Nat.min_eq_right (Nat.le_of_lt h)]

theorem merge_assoc (a b c : Setback) : (a.merge b).merge c = a.merge (b.merge c) := by
  simp only [merge]
  grind [Error.join_assoc]

end Setback

namespace Cursor

/-- What the next token is not. -/
def setback (s : Cursor) (expected : List Expectation) : Setback :=
  ⟨s.rest.length, ⟨s.span, s.obstacle, expected⟩⟩

theorem merge_setback (s : Cursor) {l m : List Expectation} (h : (l ++ m).Nodup) :
    (s.setback l).merge (s.setback m) = s.setback (l ++ m) := by
  have hleft : (s.setback l).left = (s.setback m).left := rfl
  rw [Setback.merge_of_left_eq hleft, setback, setback,
    Error.join_of_nodup s.obstacle_ne s.obstacle_ne h]
  rfl

end Cursor

/-! ## Readers -/

/-- What has been read and up to where, if something has, and the setback that got furthest. -/
structure Attempt (α : Type) where
  result : Option (α × Cursor)
  setback : Option Setback

def Reader (α : Type) := Cursor → Attempt α

namespace Reader

variable {α β γ : Type}

/-- A token of some kind. -/
def take (f : Token → Option α) (expected : List Expectation) : Reader α := fun s =>
  match s.rest with
  | [] => ⟨none, some (s.setback expected)⟩
  | x :: rest =>
    match f x.token with
    | some a => ⟨some (a, s.after x rest), none⟩
    | none => ⟨none, some (s.setback expected)⟩

/-- A token of one spelling. -/
def just (token : Token) : Reader Unit :=
  take (fun t => if t = token then some () else none) [.token token]

/-- The end of the text. -/
def ending : Reader Unit := fun s =>
  match s.rest with
  | [] => ⟨some ((), s), none⟩
  | _ :: _ => ⟨none, some (s.setback [.ending])⟩

instance : Monad Reader where
  pure a := fun s => ⟨some (a, s), none⟩
  bind r f := fun s =>
    match (r s).result with
    | none => ⟨none, (r s).setback⟩
    | some (a, s') => ⟨(f a s').result, (r s).setback.merge Setback.merge (f a s').setback⟩

instance : OrElse (Reader α) where
  orElse r r' := fun s =>
    match (r s).result with
    | some _ => r s
    | none => ⟨(r' () s).result, (r s).setback.merge Setback.merge (r' () s).setback⟩

def optional (r : Reader α) : Reader (Option α) := (do return some (← r)) <|> pure none

/-- Again and again, until it fails. -/
def many (r : Reader α) (s : Cursor) : Attempt (List α) :=
  match (r s).result with
  | none => ⟨some ([], s), (r s).setback⟩
  | some (a, s') =>
    if s'.rest.length < s.rest.length then
      ⟨(many r s').result.map fun x => (a :: x.1, x.2),
        (r s).setback.merge Setback.merge (many r s').setback⟩
    else ⟨some ([], s), (r s).setback⟩
termination_by s.rest.length

/-- Once or more, with something between. -/
def separated (separator : Reader Unit) (r : Reader α) : Reader (List α) := do
  let first ← r
  let more ← many (do separator; r)
  return first :: more

/-- What fails a test is refused after it has been read. -/
def check (r : Reader α) (keeps : α → Bool) : Reader α := fun s =>
  match (r s).result with
  | none => r s
  | some (a, s') =>
    if keeps a then r s
    else ⟨none, some ⟨s.rest.length, ⟨s.spanTo s', .noCompound, []⟩⟩⟩

/-! ### What readers do -/

variable {r : Reader α} {f : α → Reader β} {s s' : Cursor} {a : α} {b : Option Setback}

@[simp] theorem pure_apply (a : α) (s : Cursor) : (pure a : Reader α) s = ⟨some (a, s), none⟩ := rfl

theorem bind_of_none (h : r s = ⟨none, b⟩) : (r >>= f) s = ⟨none, b⟩ := by
  simp only [bind, h]

theorem bind_of_some (h : r s = ⟨some (a, s'), b⟩) :
    (r >>= f) s = ⟨(f a s').result, b.merge Setback.merge (f a s').setback⟩ := by
  simp only [bind, h]

/-- What is read without a setback leaves no trace. -/
theorem bind_of_smooth (h : r s = ⟨some (a, s'), none⟩) : (r >>= f) s = f a s' := by
  rw [bind_of_some h, Option.merge_none_left]

@[simp] theorem pure_bind (a : α) (f : α → Reader β) : pure a >>= f = f a := by
  funext s
  exact bind_of_smooth rfl

theorem bind_assoc (r : Reader α) (f : α → Reader β) (g : β → Reader γ) :
    r >>= f >>= g = r >>= fun a => f a >>= g := by
  have merge_assoc (a b c : Option Setback) : (a.merge Setback.merge b).merge Setback.merge c =
      a.merge Setback.merge (b.merge Setback.merge c) := by
    cases a <;> cases b <;> cases c <;> simp [Option.merge, Setback.merge_assoc]
  funext s
  rcases hr : r s with ⟨none | ⟨a, s'⟩, b⟩
  · rw [bind_of_none hr, bind_of_none (bind_of_none hr)]
  · have hrf := bind_of_some (f := f) hr
    rw [bind_of_some hr]
    rcases hf : f a s' with ⟨none | ⟨a', s''⟩, b'⟩
    · rw [hf] at hrf
      rw [bind_of_none hrf, bind_of_none hf]
    · rw [hf] at hrf
      rw [bind_of_some hrf, bind_of_some hf, merge_assoc]

theorem take_cases (f : Token → Option α) (l : List Expectation) (s : Cursor) :
    (∃ x rest a, s.rest = x :: rest ∧ f x.token = some a ∧
      take f l s = ⟨some (a, s.after x rest), none⟩) ∨
    (∀ x ∈ s.rest.head?, f x.token = none) ∧ take f l s = ⟨none, some (s.setback l)⟩ := by
  cases hrest : s.rest with
  | nil => exact .inr ⟨fun _ h => absurd h (Option.not_mem_none _), by simp only [take, hrest]⟩
  | cons x rest =>
    cases hx : f x.token with
    | none => exact .inr ⟨fun y hy => Option.some.inj hy ▸ hx, by simp only [take, hrest, hx]⟩
    | some a => exact .inl ⟨x, rest, a, rfl, hx, by simp only [take, hrest, hx]⟩

theorem just_cases (token : Token) (s : Cursor) :
    (∃ x rest, s.rest = x :: rest ∧ x.token = token ∧
      just token s = ⟨some ((), s.after x rest), none⟩) ∨
    (∀ x ∈ s.rest.head?, x.token ≠ token) ∧
      just token s = ⟨none, some (s.setback [.token token])⟩ := by
  rcases take_cases (fun t => if t = token then some () else none) [.token token] s with
    ⟨x, rest, _, hrest, hx, hjust⟩ | ⟨hnone, hjust⟩
  · exact .inl ⟨x, rest, hrest, (Option.ite_none_right_eq_some.1 hx).1, hjust⟩
  · exact .inr ⟨fun x hx heq => absurd (hnone x hx) (by simp [heq]), hjust⟩

theorem orElse_of_some {r r' : Reader α} (h : r s = ⟨some (a, s'), b⟩) :
    (r <|> r') s = ⟨some (a, s'), b⟩ := by
  simp only [HOrElse.hOrElse, OrElse.orElse, h]

theorem orElse_of_none {r r' : Reader α} (h : r s = ⟨none, b⟩) :
    (r <|> r') s = ⟨(r' s).result, b.merge Setback.merge (r' s).setback⟩ := by
  simp only [HOrElse.hOrElse, OrElse.orElse, h]

theorem optional_of_some (h : r s = ⟨some (a, s'), b⟩) :
    optional r s = ⟨some (some a, s'), b⟩ := by
  apply orElse_of_some
  rw [bind_of_some h, pure_apply, Option.merge_none_right]

theorem optional_of_none (h : r s = ⟨none, b⟩) : optional r s = ⟨some (none, s), b⟩ := by
  have hread : (r >>= fun a => pure (some a)) s = ⟨none, b⟩ := bind_of_none h
  rw [optional, orElse_of_none hread, pure_apply, Option.merge_none_right]

theorem many_of_none (h : r s = ⟨none, b⟩) : many r s = ⟨some ([], s), b⟩ := by
  rw [many, h]

theorem many_of_some (h : r s = ⟨some (a, s'), b⟩) (hlt : s'.rest.length < s.rest.length) :
    many r s = ⟨(many r s').result.map fun x => (a :: x.1, x.2),
      b.merge Setback.merge (many r s').setback⟩ := by
  rw [many, h]
  exact if_pos hlt

theorem check_of_keeps {keeps : α → Bool} (h : r s = ⟨some (a, s'), b⟩) (ha : keeps a = true) :
    check r keeps s = ⟨some (a, s'), b⟩ := by
  simp only [check, h, ha, if_true]

theorem check_of_not_keeps {keeps : α → Bool} (h : r s = ⟨some (a, s'), b⟩)
    (ha : keeps a = false) :
    check r keeps s = ⟨none, some ⟨s.rest.length, ⟨s.spanTo s', .noCompound, []⟩⟩⟩ := by
  simp only [check, h, ha, Bool.false_eq_true, if_false]

end Reader

end Selector

end RichContent
