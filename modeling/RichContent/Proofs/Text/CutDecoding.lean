/-
Decoding by places in the text.

The text is cut before the next `&`, between it and the next `;`, and behind the
reference or the `&`. All of these places are boundaries, in order and within the
text, so the cuts succeed, and they get on by a character at least; what comes of
it is the decoded text (`decode?_eq`).
-/
import RichContent.Proofs.Text.Boundary
import RichContent.Proofs.Text.Decoding

namespace RichContent.Text

/-- The character of the reference that the text begins with, if it begins with one, and the place
of its `;`. -/
def referenceAt? (t : Text) : Option (Option (Char × Nat)) :=
  match placeOf? (· == ';') t with
  | none => some none
  | some semi => (cut? 1 semi t).map fun name => (referent? name).map fun c => (c, semi)

/-- The character at an `&`, of the reference or the `&` itself, and what is behind it. -/
def decodeAt? (t : Text) : Option (Char × Text) :=
  (referenceAt? t).bind fun found =>
    match found with
    | some (c, semi) => (behind? (semi + 1) t).map fun after => (c, after)
    | none => (behind? 1 t).map fun after => ('&', after)

/-- What is decoded up to and with the next `&`, and what is behind that; nothing is behind if there
is no `&`. -/
def decodeNext? (t : Text) : Option (Text × Option Text) :=
  match placeOf? (· == '&') t with
  | none => some (t, none)
  | some amp =>
    (split? amp t).bind fun cut =>
      (decodeAt? cut.2).map fun next => (cut.1 ++ [next.1], some next.2)

variable {t back copied after : Text}

theorem length_lt_of_behind? {n : Nat} (h : behind? (n + 1) t = some back) :
    back.length < t.length := by
  obtain ⟨front, rfl, hsize⟩ := behind?_eq_some.1 h
  cases front with
  | nil => cases hsize
  | cons c front =>
    rw [List.cons_append, List.length_cons, List.length_append]
    omega

theorem length_lt_of_decodeAt? {c : Char} (h : decodeAt? t = some (c, after)) :
    after.length < t.length := by
  obtain ⟨found, -, h⟩ := Option.bind_eq_some_iff.1 h
  cases found with
  | none =>
    obtain ⟨_, hbehind, heq⟩ := Option.map_eq_some_iff.1 h
    cases heq
    exact length_lt_of_behind? hbehind
  | some found =>
    obtain ⟨_, hbehind, heq⟩ := Option.map_eq_some_iff.1 h
    cases heq
    exact length_lt_of_behind? hbehind

theorem length_lt_of_decodeNext? (h : decodeNext? t = some (copied, some after)) :
    after.length < t.length := by
  rw [decodeNext?] at h
  split at h
  · cases h
  · obtain ⟨⟨front, rest⟩, hcut, hrest⟩ := Option.bind_eq_some_iff.1 h
    obtain ⟨⟨c, _⟩, hnext, heq⟩ := Option.map_eq_some_iff.1 hrest
    cases heq
    have hlt := length_lt_of_decodeAt? hnext
    rw [(split?_eq_some.1 hcut).1, List.length_append]
    exact Nat.lt_add_left _ hlt

/-- The decoded text, if all of the cuts succeed. -/
def decode? (t : Text) : Option Text :=
  match _h : decodeNext? t with
  | none => none
  | some (copied, none) => some copied
  | some (copied, some after) => (decode? after).map (copied ++ ·)
termination_by t.length
decreasing_by exact length_lt_of_decodeNext? _h

theorem reference?_of_no_semicolon (h : ∀ d ∈ t, (d == ';') = false) : reference? t = none := by
  rw [Option.eq_none_iff_forall_ne_some]
  rintro ⟨c, rest⟩ href
  obtain ⟨name, -, rfl⟩ := reference?_eq_some.1 href
  have hsemi := h ';' (by simp)
  cases hsemi

/-- What is up to the first `;` is a reference or not. -/
theorem reference?_append_semicolon {name : Text} (h : ∀ d ∈ name, (d == ';') = false)
    (after : Text) :
    reference? (name ++ ';' :: after) = (referent? name).map fun c => (c, after) := by
  rcases forall_or_exists_first (fun d => !isReferenceChar d) name with
    hall | ⟨front, d, back, rfl, -, hd⟩
  · exact reference?_append (fun d hd => by simpa using hall d hd) after
  · have hno : referent? (front ++ d :: back) = none := by
      rw [Option.eq_none_iff_forall_ne_some]
      intro c hc
      rw [(referent?_eq_some.1 hc).isReferenceChar d (by simp)] at hd
      cases hd
    obtain ⟨hfront, hback⟩ := List.forall_mem_append.1 h
    have hne : d ≠ ';' := beq_eq_false_iff_ne.1 (hback d List.mem_cons_self)
    rw [hno, List.append_assoc, List.cons_append,
      reference?_append_of_stop (by simpa using hd) hne, reference?_of_no_semicolon hfront]
    rfl

/-- What is found at an `&` is decoded there. -/
theorem decodeAt?_eq (back : Text) : decodeAt? ('&' :: back) =
    some ((reference? back).getD ('&', back)) := by
  rcases forall_or_exists_first (· == ';') back with hno | ⟨name, d, after, rfl, hname, hd⟩
  · -- without a `;` there is no reference
    have hbehind : behind? 1 ('&' :: back) = some back := behind?_eq_some.2 ⟨['&'], rfl, rfl⟩
    rw [decodeAt?, referenceAt?, placeOf?_eq_none (List.forall_mem_cons.2 ⟨rfl, hno⟩),
      reference?_of_no_semicolon hno]
    simp only [Option.bind_some, hbehind, Option.map_some, Option.getD_none]
  · obtain rfl := beq_iff_eq.1 hd
    have hfront : ∀ d ∈ '&' :: name, (d == ';') = false := List.forall_mem_cons.2 ⟨rfl, hname⟩
    have hplace : placeOf? (· == ';') ('&' :: (name ++ ';' :: after)) =
        some (utf8Size ('&' :: name)) := placeOf?_append hfront hd after
    have hcut : cut? 1 (utf8Size ('&' :: name)) ('&' :: (name ++ ';' :: after)) = some name :=
      cut?_eq_some.2 ⟨['&'], ';' :: after, rfl, rfl⟩
    rw [decodeAt?, referenceAt?, hplace, reference?_append_semicolon hname]
    dsimp only
    rw [hcut]
    cases href : referent? name with
    | some c =>
      have hbehind : behind? (utf8Size ('&' :: name) + 1) ('&' :: (name ++ ';' :: after)) =
          some after := behind?_eq_some.2 ⟨'&' :: name ++ [';'], by simp, utf8Size_append _ _⟩
      simp only [Option.map_some, Option.bind_some, href, hbehind, Option.getD_some]
    | none =>
      have hbehind : behind? 1 ('&' :: (name ++ ';' :: after)) = some (name ++ ';' :: after) :=
        behind?_eq_some.2 ⟨['&'], rfl, rfl⟩
      simp only [Option.map_some, Option.bind_some, href, hbehind, Option.map_none,
        Option.getD_none]

/-- Up to and with the next `&` the text is decoded. -/
theorem decodeNext?_eq (t : Text) : (decodeNext? t = some (t, none) ∧ decode t = t) ∨
    ∃ copied after, decodeNext? t = some (copied, some after) ∧
      decode t = copied ++ decode after := by
  rcases forall_or_exists_first (· == '&') t with hno | ⟨front, d, back, rfl, hfront, hd⟩
  · refine .inl ⟨?_, decode_eq_self fun c hc => beq_eq_false_iff_ne.1 (hno c hc)⟩
    rw [decodeNext?, placeOf?_eq_none hno]
  · obtain rfl := beq_iff_eq.1 hd
    have hplain : ∀ c ∈ front, c ≠ '&' := fun c hc => beq_eq_false_iff_ne.1 (hfront c hc)
    right
    rw [decodeNext?, placeOf?_append hfront hd, decode_append_of_ne hplain]
    simp only [split?_append, Option.bind_some, decodeAt?_eq, Option.map_some]
    refine ⟨_, _, rfl, ?_⟩
    cases href : reference? back with
    | some found =>
      obtain ⟨c, after⟩ := found
      simp [decode_reference href]
    | none => simp [decode_of_no_reference href]

/-- **Every cut that decoding makes succeeds**, and what they give is the decoded text. -/
theorem decode?_eq (t : Text) : decode? t = some (decode t) := by
  induction hn : t.length using Nat.strongRecOn generalizing t with
  | ind n ih =>
    rcases decodeNext?_eq t with ⟨hnext, hself⟩ | ⟨copied, after, hnext, happ⟩
    · rw [decode?]
      split <;> rename_i h <;> rw [hnext] at h <;> cases h
      rw [hself]
    · have hlt : after.length < n := hn ▸ length_lt_of_decodeNext? hnext
      rw [decode?]
      split <;> rename_i h <;> rw [hnext] at h <;> cases h
      rw [ih after.length hlt after rfl, happ]
      rfl

end RichContent.Text
