/-
The grammar of selectors, written with readers that can be combined, and how
its qualifiers are read by the reader of one token after the other.

`Reader.selector` is the grammar as one writes it down: a selector is chains
with commas between them, a chain is compound selectors with blanks between
them, and so on, each tried and given back if it comes to nothing. The reader
of one token after the other never gives anything back. Inside of a qualifier
it is at a place where the other has the rest of a qualifier to read, and there
both come to the same (`Ends`). At the beginning of one the other tries three
things, of which only one can begin with the next token (`Tries`).
-/
import RichContent.Proofs.Selector.Obstacles
import RichContent.Proofs.Selector.Reader

namespace RichContent

open Text

def Token.name? : Token → Option Text
  | ident n => some n
  | _ => none

def Token.value? : Token → Option Text
  | ident v | quoted v => some v
  | _ => none

namespace Selector

/-! ## The grammar -/

namespace Reader

def name : Reader Text := take Token.name? []

def value : Reader Text := take Token.value? []

def classQualifier : Reader Qualifier := do
  just .dot
  return .cls (← name)

def idQualifier : Reader Qualifier := do
  just .hash
  return .id (← name)

/-- A value, with blanks on either side. -/
def spacedValue : Reader Text := do
  let _ ← optional (just .space)
  let v ← value
  let _ ← optional (just .space)
  return v

/-- The bracket at the end of a qualifier. -/
def closed (q : Qualifier) : Reader Qualifier := do
  just .closing
  return q

/-- `[name]` or `[name="value"]`, with blanks inside of the brackets. -/
def attributeQualifier : Reader Qualifier := do
  just .opening
  let _ ← optional (just .space)
  let n ← name
  let _ ← optional (just .space)
  let v ← optional (do just .equals; spacedValue)
  closed (.attr (lower n) v)

def qualifier : Reader Qualifier := classQualifier <|> idQualifier <|> attributeQualifier

def typeSelector : Reader TypeSelector :=
  (do just .star; return .universal) <|> (do return .named (lower (← name)))

/-- A compound selector, or nothing. -/
def parts : Reader Compound := do
  return ⟨← optional typeSelector, ← many qualifier⟩

def compound : Reader Compound := check parts (· != ⟨none, []⟩)

def chain : Reader Chain := separated (just .space) compound

def selector : Reader Selector := do
  let chains ← separated (just .comma) chain
  ending
  return chains

end Reader

/-! ## Where the other reader is -/

/-- Nothing that is left can be read at a place. -/
def Place.Stuck (p : Place) (s : Cursor) : Prop :=
  (s.rest = [] → p ≠ .item) ∧ ∀ x ∈ s.rest.head?, p.next? x.token = none

namespace Draft

/-- What becomes of a draft with the tokens that are left. -/
def readFrom (d : Draft) (s : Cursor) : Except Error Selector := d.read s.size s.rest

/-- A part of a compound selector may begin. -/
def Open (d : Draft) : Prop := d.place = .start ∨ d.place = .item

/-- What becomes of a draft with one token or more. -/
inductive Goes : Draft → Cursor → Draft → Cursor → Prop
  | one {d d' : Draft} {s : Cursor} {x : Token.Placed} {rest : List Token.Placed} :
    s.rest = x :: rest → d.step? x.slice.stop x.token = some d' → Goes d s d' (s.after x rest)
  | step {d d' d'' : Draft} {s s' : Cursor} {x : Token.Placed} {rest : List Token.Placed} :
    s.rest = x :: rest → d.step? x.slice.stop x.token = some d' →
    Goes d' (s.after x rest) d'' s' → Goes d s d'' s'

variable {d d' d'' : Draft} {s s' s'' : Cursor} {x : Token.Placed} {rest : List Token.Placed}

theorem Goes.trans (h : d.Goes s d' s') (h' : d'.Goes s' d'' s'') : d.Goes s d'' s'' := by
  induction h with
  | one hrest hstep => exact .step hrest hstep h'
  | step hrest hstep _ ih => exact .step hrest hstep (ih h')

theorem Goes.before (h : d.Goes s d' s') : s.Before s' := by
  induction h with
  | one hrest => exact .one hrest
  | step hrest _ _ ih => exact .step hrest ih

theorem readFrom_of_step (hrest : s.rest = x :: rest)
    (h : d.step? x.slice.stop x.token = some d') :
    d.readFrom s = d'.readFrom (s.after x rest) := by
  rw [readFrom, hrest, read, h]
  rfl

theorem Goes.readFrom_eq (h : d.Goes s d' s') : d.readFrom s = d'.readFrom s' := by
  induction h with
  | one hrest hstep => exact readFrom_of_step hrest hstep
  | step hrest hstep _ ih => exact (readFrom_of_step hrest hstep).trans ih

/-- The first step may be made from another place. -/
theorem Goes.of_step_eq (h : d.Goes s d'' s')
    (hstep : ∀ x ∈ s.rest.head?, d'.step? x.slice.stop x.token = d.step? x.slice.stop x.token) :
    d'.Goes s d'' s' := by
  cases h with
  | one hrest h => exact .one hrest ((hstep _ (by rw [hrest]; rfl)).trans h)
  | step hrest h hgoes => exact .step hrest ((hstep _ (by rw [hrest]; rfl)).trans h) hgoes

theorem readFrom_of_stuck (h : d.place.Stuck s) :
    d.readFrom s = .error (d.error s.size s.obstacle s.span) := by
  rw [readFrom, Cursor.obstacle, Cursor.span]
  cases hrest : s.rest with
  | nil =>
    have hplace := h.1 hrest
    have hfinish : d.finish? = none := by
      rw [finish?]
      split
      · exact absurd ‹d.place = .item› hplace
      · rfl
    rw [read, hfinish]
  | cons x rest =>
    have hnext : d.place.next? x.token = none := h.2 x (by rw [hrest]; rfl)
    rw [← map_place_step? d x.slice.stop, Option.map_eq_none_iff] at hnext
    rw [read, hnext]

end Draft

/-- Two errors with the same words, up to the order of what is expected. -/
structure Error.Alike (e e' : Error) : Prop where
  span : e.span = e'.span
  obstacle : e.obstacle = e'.obstacle
  expected : e.expected.Perm e'.expected

/-! ## Inside of a qualifier -/

/-- A setback that came up before a place. -/
def Cursor.Passed (s : Cursor) (b : Option Setback) : Prop := ∀ f ∈ b, s.rest.length < f.left

section

variable {s s' : Cursor} {b b' : Option Setback} {f : Setback}

theorem Cursor.passed_none : s.Passed none := fun _ h => absurd h (Option.not_mem_none _)

theorem Cursor.Before.passed_setback (h : s.Before s') (l : List Expectation) :
    s'.Passed (some (s.setback l)) := by
  intro f hf
  cases hf
  exact h.length_lt

theorem Cursor.Passed.merge_some (h : s.Passed b) (hf : f.left ≤ s.rest.length) :
    b.merge Setback.merge (some f) = some f := by
  cases b with
  | none => rfl
  | some g =>
    have hlt := Nat.lt_of_le_of_lt hf (h g rfl)
    exact congrArg some (Setback.merge_of_lt_left hlt)

theorem Cursor.Passed.merge (h : s.Passed b) (h' : s.Passed b') :
    s.Passed (b.merge Setback.merge b') := by
  cases b with
  | none => rwa [Option.merge_none_left]
  | some f =>
    cases b' with
    | none => exact h
    | some f' =>
      intro g hg
      cases hg
      rw [Setback.left_merge]
      exact Nat.lt_min.2 ⟨h f rfl, h' f' rfl⟩

end

/-- What becomes of a reader of the rest of a qualifier, where the other reader is at a place. -/
inductive Ends (p : Place) (s : Cursor) : Attempt Qualifier → Prop
  | refused {l : List Expectation} : p.Stuck s → l.Perm p.expected →
    Ends p s ⟨none, some (s.setback l)⟩
  | broken {p' : Place} {s' : Cursor} {l : List Expectation} :
    (∀ d : Draft, (d.moveTo p).Goes s (d.moveTo p') s') → p'.Stuck s' → l.Perm p'.expected →
    Ends p s ⟨none, some (s'.setback l)⟩
  | read {q : Qualifier} {s' : Cursor} {b : Option Setback} :
    (∀ d : Draft, (d.moveTo p).Goes s (d.withQualifier q) s') → s'.Passed b →
    Ends p s ⟨some (q, s'), b⟩

section

variable {p p' : Place} {s s' : Cursor} {x : Token.Placed} {rest : List Token.Placed}
  {a : Attempt Qualifier}

/-- The token in front may lead to the place. -/
theorem Ends.behind (h : Ends p' (s.after x rest) a) (hrest : s.rest = x :: rest)
    (hstep : ∀ (d : Draft) (stop : Nat), (d.moveTo p).step? stop x.token = some (d.moveTo p')) :
    Ends p s a := by
  cases h with
  | refused hstuck hl => exact .broken (fun d => .one hrest (hstep d _)) hstuck hl
  | broken hgoes hstuck hl => exact .broken (fun d => .step hrest (hstep d _) (hgoes d)) hstuck hl
  | read hgoes hpassed => exact .read (fun d => .step hrest (hstep d _) (hgoes d)) hpassed

/-- Two places inside of brackets, one behind a blank that may come at the other. -/
structure Place.Spaced (p p' : Place) : Prop where
  ne_item : p ≠ .item
  step_space : ∀ (d : Draft) (stop : Nat), (d.moveTo p).step? stop .space = some (d.moveTo p')
  step_other : ∀ (d : Draft) (stop : Nat) (token : Token), token ≠ .space →
    (d.moveTo p).step? stop token = (d.moveTo p').step? stop token
  expected_eq : p.expected = p'.expected ++ [.token .space]

theorem Place.Spaced.of_next? (hp : p ≠ .item) (h : p.next? .space = some p') : p.Spaced p' := by
  cases p with
  | item => exact absurd rfl hp
  | bracket | name | equals | value =>
    obtain rfl := Option.some.inj h
    refine ⟨hp, fun _ _ => rfl, fun d stop token htoken => ?_, rfl⟩
    cases token <;> first | rfl | exact absurd rfl htoken
  | _ => cases h

theorem Place.Spaced.next? (h : p.Spaced p') {token : Token} (ht : token ≠ .space) :
    p.next? token = p'.next? token :=
  congrArg (·.map (·.place)) (h.step_other .empty 0 token ht)

/-- A blank that may be left out. -/
theorem ends_optional_space (hp : p.Spaced p') {k : Reader Qualifier} (hk : ∀ s, Ends p' s (k s))
    (s : Cursor) : Ends p s ((Reader.optional (.just .space) >>= fun _ => k) s) := by
  rcases Reader.just_cases .space s with ⟨x, rest, hrest, hx, hblank⟩ | ⟨hne, hblank⟩
  · rw [Reader.bind_of_smooth (Reader.optional_of_some hblank)]
    apply (hk _).behind hrest
    rw [hx]
    exact hp.step_space
  · rw [Reader.bind_of_some (Reader.optional_of_none hblank)]
    have hstep (d : Draft) : ∀ x ∈ s.rest.head?, (d.moveTo p).step? x.slice.stop x.token =
        (d.moveTo p').step? x.slice.stop x.token :=
      fun x hx => hp.step_other d _ _ (hne x hx)
    generalize hka : k s = a
    have h := hka ▸ hk s
    cases h with
    | @refused l hstuck hl =>
      -- both setbacks are at the next token, so a blank is expected too
      have hperm : ([Expectation.token .space] ++ l).Perm p.expected := by
        rw [hp.expected_eq]
        exact (hl.append_left _).trans List.perm_append_comm
      have hmerge := s.merge_setback (hperm.nodup_iff.2 p.nodup_expected)
      rw [Option.merge, hmerge]
      refine .refused ⟨fun _ => hp.ne_item, fun x hx => ?_⟩ hperm
      exact (hp.next? (hne x hx)).trans (hstuck.2 x hx)
    | @broken p'' s' l hgoes hstuck hl =>
      have hbefore := (hgoes .empty).before
      rw [(hbefore.passed_setback _).merge_some (Nat.le_refl _)]
      exact .broken (fun d => (hgoes d).of_step_eq (hstep d)) hstuck hl
    | read hgoes hpassed =>
      have hbefore := (hgoes .empty).before
      exact .read (fun d => (hgoes d).of_step_eq (hstep d))
        ((hbefore.passed_setback _).merge hpassed)

/-- A token of a kind that has to come. -/
theorem ends_of_take {α : Type} {f : Token → Option α} {k : α → Reader Qualifier}
    {l : List Expectation} (hk : ∀ x rest y, s.rest = x :: rest → f x.token = some y →
      Ends p s (k y (s.after x rest)))
    (hnone : ∀ token, f token = none → p.next? token = none) (hp : p ≠ .item)
    (hl : l.Perm p.expected) : Ends p s ((Reader.take f l >>= k) s) := by
  rcases Reader.take_cases f l s with ⟨x, rest, y, hrest, hy, htake⟩ | ⟨hrefused, htake⟩
  · rw [Reader.bind_of_smooth htake]
    exact hk x rest y hrest hy
  · rw [Reader.bind_of_none htake]
    exact .refused ⟨fun _ => hp, fun x hx => hnone _ (hrefused x hx)⟩ hl

/-- A token that leads on to another place. -/
theorem ends_take {α : Type} {f : Token → Option α} (place : α → Place) {k : α → Reader Qualifier}
    {l : List Expectation} (hk : ∀ y s, Ends (place y) s (k y s))
    (hstep : ∀ (d : Draft) (stop : Nat) (token : Token) (y : α), f token = some y →
      (d.moveTo p).step? stop token = some (d.moveTo (place y)))
    (hnone : ∀ token, f token = none → p.next? token = none) (hp : p ≠ .item)
    (hl : l.Perm p.expected) (s : Cursor) : Ends p s ((Reader.take f l >>= k) s) :=
  ends_of_take (fun x _ y hrest hy => (hk y _).behind hrest fun d stop => hstep d stop x.token y hy)
    hnone hp hl

/-- The last token of a qualifier. -/
theorem ends_last {α : Type} {f : Token → Option α} {q : α → Qualifier} {l : List Expectation}
    (hstep : ∀ (d : Draft) (stop : Nat) (token : Token) (y : α), f token = some y →
      (d.moveTo p).step? stop token = some (d.withQualifier (q y)))
    (hnone : ∀ token, f token = none → p.next? token = none) (hp : p ≠ .item)
    (hl : l.Perm p.expected) (s : Cursor) :
    Ends p s ((Reader.take f l >>= fun y => pure (q y)) s) :=
  ends_of_take (fun _ _ y hrest hy => .read (fun d => .one hrest (hstep d _ _ y hy))
    Cursor.passed_none) hnone hp hl

/-! ### Attributes -/

variable {n v : Text}

theorem ends_valueSpace (s : Cursor) :
    Ends (.valueSpace n v) s (Reader.closed (.attr (lower n) (some v)) s) := by
  refine ends_last (q := fun _ => .attr (lower n) (some v)) ?_ ?_ (by rintro ⟨⟩) (.refl _) s
  · intro d stop token y hy
    obtain ⟨rfl, -⟩ := Option.ite_none_right_eq_some.1 hy
    rfl
  · intro token htoken
    cases token <;> first | rfl | simp at htoken

theorem ends_value (s : Cursor) : Ends (.value n v) s
    ((Reader.optional (.just .space) >>= fun _ => Reader.closed (.attr (lower n) (some v))) s) :=
  ends_optional_space (.of_next? (by rintro ⟨⟩) rfl) ends_valueSpace s

theorem ends_equals (s : Cursor) : Ends (.equals n) s
    ((Reader.spacedValue >>= fun v => Reader.closed (.attr (lower n) (some v))) s) := by
  simp only [Reader.spacedValue, Reader.bind_assoc, Reader.pure_bind]
  refine ends_optional_space (.of_next? (by rintro ⟨⟩) rfl) ?_ s
  refine ends_take (.value n) (fun v s => ends_value s) ?_ ?_ (by rintro ⟨⟩) (.refl _)
  · intro d stop token v hv
    cases token with
    | ident | quoted => cases hv; rfl
    | _ => cases hv
  · intro token hv
    cases token with
    | ident | quoted => cases hv
    | _ => rfl

/-- What follows the name in an attribute, if no blank does. -/
theorem ends_nameSpace (s : Cursor) : Ends (.nameSpace n) s
    ((Reader.optional (do Reader.just .equals; Reader.spacedValue) >>= fun v =>
      Reader.closed (.attr (lower n) v)) s) := by
  rcases Reader.just_cases .equals s with ⟨x, rest, hrest, hx, hequals⟩ | ⟨hne, hequals⟩
  · have hread : (Reader.just .equals >>= fun _ => Reader.spacedValue) s =
        Reader.spacedValue (s.after x rest) := Reader.bind_of_smooth hequals
    have hends := ends_equals (n := n) (s.after x rest)
    have hbehind (a : Attempt Qualifier) (h : Ends (.equals n) (s.after x rest) a) :
        Ends (.nameSpace n) s a := h.behind hrest fun d stop => by rw [hx]; rfl
    rcases hvalue : Reader.spacedValue (s.after x rest) with ⟨none | ⟨v, s'⟩, b⟩
    · -- the sign is given back, and the bracket is not there
      rw [hvalue] at hread
      rw [Reader.bind_of_none hvalue] at hends
      have hclosing : Reader.just .closing s = ⟨none, some (s.setback [.token .closing])⟩ := by
        rcases Reader.just_cases .closing s with ⟨y, _, hrest', hy, -⟩ | ⟨-, h⟩
        · rw [hrest] at hrest'
          obtain ⟨rfl, -⟩ := List.cons.inj hrest'
          rw [hx] at hy
          cases hy
        · exact h
      have hclosed : Reader.closed (.attr (lower n) none) s =
          ⟨none, some (s.setback [.token .closing])⟩ := Reader.bind_of_none hclosing
      obtain ⟨f, rfl, hf⟩ : ∃ f, b = some f ∧ f.left < s.rest.length := by
        have hafter := Cursor.length_after hrest
        cases hends with
        | refused => exact ⟨_, rfl, hafter⟩
        | broken hgoes => exact ⟨_, rfl, Nat.lt_trans (hgoes .empty).before.length_lt hafter⟩
      rw [Reader.bind_of_some (Reader.optional_of_none hread), hclosed, Option.merge,
        Setback.merge_of_left_lt hf]
      exact hbehind _ hends
    · rw [hvalue] at hread
      rw [Reader.bind_of_some (Reader.optional_of_some hread)]
      rw [Reader.bind_of_some hvalue] at hends
      exact hbehind _ hends
  · rw [Reader.bind_of_some (Reader.optional_of_none (Reader.bind_of_none hequals))]
    rcases Reader.just_cases .closing s with ⟨x, rest, hrest, hx, hclosing⟩ | ⟨hne', hclosing⟩
    · rw [Reader.closed, Reader.bind_of_smooth hclosing]
      refine .read (fun d => .one hrest ?_) ((Cursor.Before.one hrest).passed_setback _)
      rw [hx]
      rfl
    · rw [Reader.closed, Reader.bind_of_none hclosing, Option.merge, s.merge_setback (by decide)]
      refine .refused ⟨fun _ => by rintro ⟨⟩, fun x hx => ?_⟩ (.refl _)
      have h := hne x hx
      have h' := hne' x hx
      cases htoken : x.token <;> first | rfl | exact absurd htoken h | exact absurd htoken h'

/-- What is behind the bracket of an attribute. -/
theorem ends_bracket (s : Cursor) : Ends .bracket s ((do
    let _ ← Reader.optional (Reader.just .space)
    let n ← Reader.name
    let _ ← Reader.optional (Reader.just .space)
    let v ← Reader.optional (do Reader.just .equals; Reader.spacedValue)
    Reader.closed (.attr (lower n) v) : Reader Qualifier) s) := by
  refine ends_optional_space (.of_next? (by rintro ⟨⟩) rfl) ?_ s
  refine ends_take .name (fun n s => ?_) ?_ ?_ (by rintro ⟨⟩) (.refl _)
  · exact ends_optional_space (.of_next? (by rintro ⟨⟩) rfl) ends_nameSpace s
  · intro d stop token n hn
    cases token with
    | ident => cases hn; rfl
    | _ => cases hn
  · intro token hn
    cases token with
    | ident => cases hn
    | _ => rfl

/-- The name behind the mark of a class or an id. -/
theorem ends_mark {q : Text → Qualifier} (h : p = .dot ∧ q = .cls ∨ p = .hash ∧ q = .id)
    (s : Cursor) : Ends p s ((Reader.name >>= fun n => pure (q n)) s) := by
  rcases h with ⟨rfl, rfl⟩ | ⟨rfl, rfl⟩
  all_goals
    refine ends_last ?_ ?_ (by rintro ⟨⟩) (.refl _) s
    · intro d stop token n hn
      cases token with
      | ident => cases hn; rfl
      | _ => cases hn
    · intro token hn
      cases token with
      | ident => cases hn
      | _ => rfl

end

/-! ## Qualifiers -/

/-- What becomes of a try for a qualifier that begins with one of some tokens. -/
inductive Tries (l : List Expectation) (s : Cursor) : Attempt Qualifier → Prop
  | absent : (∀ x ∈ s.rest.head?, .token x.token ∉ l) → Tries l s ⟨none, some (s.setback l)⟩
  | broken {p : Place} {s' : Cursor} {m : List Expectation} :
    (∃ x ∈ s.rest.head?, .token x.token ∈ l) →
    (∀ d : Draft, d.Open → d.Goes s (d.moveTo p) s') → p.Stuck s' → m.Perm p.expected →
    Tries l s ⟨none, some (s'.setback m)⟩
  | read {q : Qualifier} {s' : Cursor} {b : Option Setback} :
    (∃ x ∈ s.rest.head?, .token x.token ∈ l) →
    (∀ d : Draft, d.Open → d.Goes s (d.withQualifier q) s') → s'.Passed b →
    Tries l s ⟨some (q, s'), b⟩

section

variable {l m : List Expectation} {s : Cursor}

theorem Draft.open_empty : Draft.empty.Open := .inl rfl

theorem Draft.Open.step?_eq {d d' : Draft} {t : Token} (h : d.Open)
    (hbegin : d.beginQualifier? t = some d') (stop : Nat) : d.step? stop t = some d' := by
  rcases h with h | h <;> cases t <;>
    simp_all only [Draft.step?, Draft.beginQualifier?, reduceCtorEq]

theorem tries_mark {t : Token} {p : Place} {k : Reader Qualifier} (hk : ∀ s, Ends p s (k s))
    (hstep : ∀ d : Draft, d.Open → ∀ stop, d.step? stop t = some (d.moveTo p)) (s : Cursor) :
    Tries [.token t] s ((Reader.just t >>= fun _ => k) s) := by
  rcases Reader.just_cases t s with ⟨x, rest, hrest, rfl, hjust⟩ | ⟨hne, hjust⟩
  · have hmark : ∃ y ∈ s.rest.head?, Expectation.token y.token ∈ [.token x.token] :=
      ⟨x, by rw [hrest]; rfl, List.mem_singleton_self _⟩
    rw [Reader.bind_of_smooth hjust]
    generalize hka : k (s.after x rest) = a
    have h := hka ▸ hk (s.after x rest)
    cases h with
    | refused hstuck hl => exact .broken hmark (fun d hd => .one hrest (hstep d hd _)) hstuck hl
    | broken hgoes hstuck hl =>
      exact .broken hmark (fun d hd => .step hrest (hstep d hd _) (hgoes d)) hstuck hl
    | read hgoes hpassed =>
      exact .read hmark (fun d hd => .step hrest (hstep d hd _) (hgoes d)) hpassed
  · rw [Reader.bind_of_none hjust]
    exact .absent fun x hx => by simpa using hne x hx

/-- Of two tries at one place only that one comes to something that begins with the next token. -/
theorem tries_orElse {r r' : Reader Qualifier} (h : Tries l s (r s)) (h' : Tries m s (r' s))
    (hlm : (l ++ m).Nodup) : Tries (l ++ m) s ((r <|> r') s) := by
  have hdisjoint {x : Token.Placed} (hl : Expectation.token x.token ∈ l)
      (hm : Expectation.token x.token ∈ m) : False :=
    (List.nodup_append.1 hlm).2.2 _ hl _ hm rfl
  generalize hr : r s = a at h
  generalize hr' : r' s = a' at h'
  cases h with
  | absent hl =>
    rw [Reader.orElse_of_none hr, hr']
    cases h' with
    | absent hm =>
      rw [Option.merge, s.merge_setback hlm]
      refine .absent fun x hx hmem => ?_
      exact (List.mem_append.1 hmem).elim (hl x hx) (hm x hx)
    | broken hmark hgoes hstuck hperm =>
      have hbefore := (hgoes .empty Draft.open_empty).before
      rw [(hbefore.passed_setback l).merge_some (Nat.le_refl _)]
      obtain ⟨x, hx, hmem⟩ := hmark
      exact .broken ⟨x, hx, List.mem_append_right _ hmem⟩ hgoes hstuck hperm
    | read hmark hgoes hpassed =>
      have hbefore := (hgoes .empty Draft.open_empty).before
      obtain ⟨x, hx, hmem⟩ := hmark
      exact .read ⟨x, hx, List.mem_append_right _ hmem⟩ hgoes
        ((hbefore.passed_setback l).merge hpassed)
  | broken hmark hgoes hstuck hperm =>
    obtain ⟨x, hx, hmem⟩ := hmark
    rw [Reader.orElse_of_none hr, hr']
    cases h' with
    | absent =>
      have hlt := (hgoes .empty Draft.open_empty).before.length_lt
      rw [Option.merge, Setback.merge_of_left_lt hlt]
      exact .broken ⟨x, hx, List.mem_append_left _ hmem⟩ hgoes hstuck hperm
    | broken hmark' | read hmark' =>
      -- the next token would begin both
      obtain ⟨y, hy, hmem'⟩ := hmark'
      obtain rfl := Option.mem_unique hx hy
      exact (hdisjoint hmem hmem').elim
  | read hmark hgoes hpassed =>
    rw [Reader.orElse_of_some hr]
    obtain ⟨x, hx, hmem⟩ := hmark
    exact .read ⟨x, hx, List.mem_append_left _ hmem⟩ hgoes hpassed

/-- The tokens that a qualifier begins with. -/
def marks : List Expectation := [.token .dot, .token .hash, .token .opening]

theorem tries_qualifier (s : Cursor) : Tries marks s (Reader.qualifier s) := by
  have hclass : Tries [.token .dot] s (Reader.classQualifier s) :=
    tries_mark (ends_mark (.inl ⟨rfl, rfl⟩)) (fun d hd => hd.step?_eq rfl) s
  have hid : Tries [.token .hash] s (Reader.idQualifier s) :=
    tries_mark (ends_mark (.inr ⟨rfl, rfl⟩)) (fun d hd => hd.step?_eq rfl) s
  have hattribute : Tries [.token .opening] s (Reader.attributeQualifier s) :=
    tries_mark ends_bracket (fun d hd => hd.step?_eq rfl) s
  exact tries_orElse hclass (tries_orElse hid hattribute (by decide)) (by decide)

theorem Tries.left_le {f : Setback} (h : Tries l s ⟨none, some f⟩) : f.left ≤ s.rest.length := by
  cases h with
  | absent => exact Nat.le_refl _
  | broken _ hgoes => exact Nat.le_of_lt (hgoes .empty Draft.open_empty).before.length_lt

end

end Selector

end RichContent
