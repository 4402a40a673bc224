/-
The lexemes of a source.

One lexeme after the other is taken off the front of the source, and what
holds of the next one holds of all (`all_induction`, `next_of_mem_all`). So
they tile the source, whatever is broken or never finished in it, each has the
shape that its kind promises (`Kind.Shape`), and text is one lexeme up to the
next `<`.
-/
import RichContent.Proofs.Markup.Patch

namespace RichContent

open Text

/-! ## The end of a text -/

namespace Text

/-- The piece is the end of the text, and is nowhere else in it. -/
def EndsWithOnly (piece t : Text) : Prop :=
  (∃ w, t = w ++ piece) ∧ ∀ before after, t = before ++ piece ++ after → after = []

/-- Nothing is found behind the first place of a piece. -/
theorem length_le_of_cutAt {piece u v before after : Text}
    (h : cutAt piece (u ++ piece ++ v) = some (before, after)) : before.length ≤ u.length := by
  induction u generalizing before with
  | nil =>
    rw [List.nil_append, cutAt.eq_def, after?_eq_some.2 rfl] at h
    cases h
    exact Nat.le_refl 0
  | cons c u ih =>
    rw [List.cons_append, List.cons_append, cutAt] at h
    split at h
    · cases h
      exact Nat.zero_le _
    · obtain ⟨⟨b, a⟩, hba, heq⟩ := Option.map_eq_some_iff.1 h
      cases heq
      have := ih hba
      simp only [List.length_cons]
      omega

/-- What is cut off with the first place of a piece has it at its end only. -/
theorem endsWithOnly_of_cutAt {piece t before after : Text}
    (h : cutAt piece t = some (before, after)) : EndsWithOnly piece (before ++ piece) := by
  refine ⟨⟨before, rfl⟩, ?_⟩
  intro u v heq
  have hfirst := cutAt_behind h []
  rw [List.append_nil, heq] at hfirst
  have hle := length_le_of_cutAt hfirst
  have hlen := congrArg List.length heq
  simp only [List.length_append] at hlen
  exact List.eq_nil_of_length_eq_zero (by omega)

theorem endsWithOnly_singleton {c : Char} {w : Text} (h : c ∉ w) :
    EndsWithOnly [c] (w ++ [c]) := by
  refine ⟨⟨w, rfl⟩, ?_⟩
  intro before after heq
  rcases List.eq_nil_or_concat after with hnil | ⟨init, d, rfl⟩
  · exact hnil
  · rw [List.concat_eq_append, ← List.append_assoc] at heq
    obtain ⟨rfl, -⟩ := List.append_inj' heq rfl
    exact absurd (by simp) h

end Text

/-! ## What lexemes look like -/

namespace Lexeme

/-- What the text of a lexeme is like. -/
def Kind.Shape (t : Text) : Kind → Prop
  | comment => ∃ body, t = "<!--".toList ++ body ∧ EndsWithOnly "-->".toList body
  | declaration =>
    (∃ d body, (isLetter d || d == '[') = true ∧ t = '<' :: '!' :: d :: body) ∧ EndsWithOnly ['>'] t
  | instruction => (∃ body, t = '<' :: '?' :: body) ∧ EndsWithOnly ['>'] t
  | startTag tag =>
    ∃ letter body, isLetter letter = true ∧ t = '<' :: letter :: body ++ ['>'] ∧
      tag = StartTag.parse t
  | endTag name =>
    (∃ letter body, isLetter letter = true ∧ t = '<' :: '/' :: letter :: body ++ ['>'] ∧
      name = endTagName (letter :: body)) ∧ EndsWithOnly ['>'] t
  | text => '<' ∉ t
  | loneLess => t = ['<']
  | unfinished => ∃ body, t = '<' :: body

section

variable {c : Char} {rest opening : Text} {kind : Text → Kind}

theorem shape_toGreater (hopening : '>' ∉ opening) (hless : ∃ body, opening = '<' :: body)
    (h : ∀ w, EndsWithOnly ['>'] (opening ++ w ++ ['>']) →
      (kind w).Shape (opening ++ w ++ ['>'])) (rest : Text) :
    (toGreater opening rest kind).kind.Shape (toGreater opening rest kind).text := by
  rw [toGreater]
  cases hcut : cutAfterGreater rest with
  | none =>
    obtain ⟨body, rfl⟩ := hless
    exact ⟨body ++ rest, rfl⟩
  | some cut =>
    obtain ⟨before, after⟩ := cut
    obtain ⟨w, rfl, hw⟩ := cutAfterGreater_eq_some hcut
    have hplain : '>' ∉ opening ++ w := by
      rw [List.mem_append, not_or]
      exact ⟨hopening, fun hmem => hw _ hmem rfl⟩
    simp only [List.dropLast_concat, ← List.append_assoc]
    exact h w (endsWithOnly_singleton hplain)

theorem shape_comment (body : Text) : (comment body).kind.Shape (comment body).text := by
  rw [comment]
  cases hcut : cutAt "-->".toList body with
  | none => exact ⟨_, rfl⟩
  | some cut =>
    obtain ⟨before, after⟩ := cut
    exact ⟨before ++ "-->".toList, List.append_assoc .., endsWithOnly_of_cutAt hcut⟩

/-- The scan for the end of a tag stops at a `>`. -/
theorem exists_concat_of_scanTag {t rest after : Text} {quote : Option Char} {b : Bool}
    (h : scanTag quote b t = .closed rest after) : ∃ w, rest = w ++ ['>'] := by
  induction t generalizing quote b rest with
  | nil => cases h
  | cons c t ih =>
    rw [scanTag_cons] at h
    split at h
    · obtain ⟨r, rfl, hr⟩ := TagEnd.cons_eq_closed.1 h
      obtain ⟨w, rfl⟩ := ih hr
      exact ⟨c :: w, rfl⟩
    · split at h
      · cases h
        exact ⟨[], rfl⟩
      · cases h

/-- Cutting at the first `>` of a text leaves no other one in front. -/
theorem cutPlainTag_eq_some {t rest after : Text} (h : cutPlainTag t = some (rest, after)) :
    ∃ w, rest = w ++ ['>'] ∧ ∀ c ∈ w, c ≠ '<' ∧ c ≠ '>' := by
  induction t generalizing rest with
  | nil => cases h
  | cons c t ih =>
    rw [cutPlainTag] at h
    split at h
    · cases h
      exact ⟨[], rfl, by simp⟩
    · rename_i hgreater
      split at h
      · cases h
      · rename_i hless
        obtain ⟨⟨r, a⟩, hra, heq⟩ := Option.map_eq_some_iff.1 h
        cases heq
        obtain ⟨w, rfl, hw⟩ := ih hra
        exact ⟨c :: w, rfl, List.forall_mem_cons.2 ⟨⟨hless, hgreater⟩, hw⟩⟩

theorem exists_concat_of_cutTag {t rest after : Text} (h : cutTag t = some (rest, after)) :
    ∃ w, rest = w ++ ['>'] := by
  rw [cutTag] at h
  split at h
  · rename_i hscan
    cases h
    exact exists_concat_of_scanTag hscan
  · cases h
  · obtain ⟨w, hw, -⟩ := cutPlainTag_eq_some h
    exact ⟨w, hw⟩

theorem shape_startTag {letter : Char} (hl : isLetter letter = true) (body : Text) :
    (startTag letter body).kind.Shape (startTag letter body).text := by
  rw [startTag]
  cases hcut : cutTag body with
  | none => exact ⟨_, rfl⟩
  | some cut =>
    obtain ⟨rest, after⟩ := cut
    obtain ⟨w, rfl⟩ := exists_concat_of_cutTag hcut
    exact ⟨letter, w, hl, rfl, rfl⟩

theorem shape_markup (rest : Text) : (markup rest).kind.Shape (markup rest).text := by
  rw [markup.eq_def]
  split
  · exact shape_comment _
  · split
    · rename_i d body _ hd
      have hgreater : '>' ∉ ['<', '!', d] := by
        have hne : '>' ≠ d := by
          rintro rfl
          exact absurd hd (by decide)
        simp [hne]
      refine shape_toGreater hgreater ⟨_, rfl⟩ ?_ body
      intro w hw
      exact ⟨⟨d, w ++ ['>'], hd, by simp⟩, hw⟩
    · rfl
  · rename_i body
    refine shape_toGreater (by decide) ⟨_, rfl⟩ ?_ body
    intro w hw
    exact ⟨⟨w ++ ['>'], by simp⟩, hw⟩
  · split
    · rename_i d body hd
      have hgreater : '>' ∉ ['<', '/', d] := by
        simp [(ne_of_isLetter hd (by decide : isLetter '>' = false)).symm]
      refine shape_toGreater hgreater ⟨_, rfl⟩ ?_ body
      intro w hw
      exact ⟨⟨d, w, hd, by simp, rfl⟩, hw⟩
    · rfl
  · split
    · rename_i hd
      exact shape_startTag hd _
    · rfl
  · rfl

/-- A lexeme has the shape of its kind. -/
theorem shape_next (c : Char) (rest : Text) : (next c rest).kind.Shape (next c rest).text := by
  rw [next]
  split
  · exact shape_markup rest
  · rename_i hc
    have hplain : '<' ∉ rest.takeWhile (· != '<') := fun hmem => by
      simpa using List.mem_takeWhile_imp hmem
    exact List.not_mem_cons_of_ne_of_not_mem (Ne.symm hc) hplain

/-- The text of a start tag is what has been cut for it. -/
theorem exists_cutTag_of_startTag {tag : StartTag} (h : (next c rest).kind = .startTag tag) :
    ∃ letter body after, isLetter letter = true ∧
      cutTag (body ++ ['>'] ++ after) = some (body ++ ['>'], after) ∧
      (next c rest).text = '<' :: letter :: body ++ ['>'] ∧
      tag = StartTag.parse ('<' :: letter :: body ++ ['>']) := by
  have hshape := shape_next c rest
  rw [h] at hshape
  obtain ⟨letter, body, hl, htext, htag⟩ := hshape
  have happ := next_append c rest
  rw [htext, List.cons_append, List.cons_append, List.cons_append, List.cons_append] at happ
  generalize hbehind : (next c rest).after = behind at happ
  obtain ⟨rfl, rfl⟩ := List.cons.inj happ
  have hnext : next '<' (letter :: (body ++ ['>'] ++ behind)) =
      startTag letter (body ++ ['>'] ++ behind) := by
    rw [next, if_pos rfl, markup_of_isLetter hl]
  refine ⟨letter, body, behind, hl, ?_, htext, htext ▸ htag⟩
  rw [hnext, startTag] at h htext hbehind
  cases hcut : cutTag (body ++ ['>'] ++ behind) with
  | none =>
    rw [hcut] at h
    cases h
  | some cut =>
    obtain ⟨r, after⟩ := cut
    rw [hcut] at htext hbehind
    obtain rfl : after = behind := hbehind
    obtain rfl : r = body ++ ['>'] := (List.cons.inj (List.cons.inj htext).2).2
    rfl

/-- Text does not begin with a `<`. -/
theorem ne_less_of_text (h : (next c rest).kind = .text) : c ≠ '<' := by
  rintro rfl
  have hshape := shape_next '<' rest
  rw [h] at hshape
  obtain ⟨d, w, hdw⟩ := List.exists_cons_of_ne_nil (next_text_ne_nil '<' rest)
  have happ := next_append '<' rest
  rw [hdw] at happ hshape
  obtain rfl := (List.cons.inj happ).1
  exact hshape List.mem_cons_self

/-- What is behind text does. -/
theorem head?_after_of_text (h : (next c rest).kind = .text) :
    ∀ d ∈ (next c rest).after.head?, d = '<' := by
  rw [next, if_neg (ne_less_of_text h)]
  intro d hd
  have hstop := List.head?_dropWhile_not (· != '<') rest
  rw [hd] at hstop
  simpa using hstop

end

/-! ## All lexemes -/

theorem all_induction {P : Text → Prop} (nil : P [])
    (cons : ∀ c rest, P (next c rest).after → P (c :: rest)) (t : Text) : P t := by
  induction hn : t.length using Nat.strongRecOn generalizing t with
  | ind n ih =>
    cases t with
    | nil => exact nil
    | cons c rest =>
      refine cons c rest (ih _ ?_ _ rfl)
      rw [← hn, List.length_cons]
      exact Nat.lt_succ_of_le (length_next_after c rest)

theorem texts_all (start : Nat) (t : Text) : (all start t).flatMap (·.slice.text) = t := by
  induction t using all_induction generalizing start with
  | nil => rw [all, List.flatMap_nil]
  | cons c rest ih => rw [all, List.flatMap_cons, ih, next_append]

/-- Each lexeme of a source was once the next one. -/
theorem next_of_mem_all {start : Nat} {t : Text} {x : Lexeme} (h : x ∈ all start t) :
    ∃ c rest, x.slice.text = (next c rest).text ∧ x.kind = (next c rest).kind := by
  induction t using all_induction generalizing start with
  | nil =>
    rw [all] at h
    exact absurd h List.not_mem_nil
  | cons c rest ih =>
    rw [all] at h
    rcases List.mem_cons.1 h with rfl | h
    · exact ⟨c, rest, rfl, rfl⟩
    · exact ih h

theorem tile_all (start : Nat) (t : Text) :
    Slice.Tile start ((all start t).map (·.slice)) (start + t.utf8Size) := by
  induction t using all_induction generalizing start with
  | nil => rw [all]; rfl
  | cons c rest ih =>
    rw [all, List.map_cons]
    refine ⟨rfl, next_text_ne_nil c rest, ?_⟩
    rw [← next_append c rest, utf8Size_append, ← Nat.add_assoc]
    exact ih _

/-- Behind text there is something else. -/
theorem isChain_all (start : Nat) (t : Text) :
    (all start t).IsChain fun x y => ¬ (x.kind = .text ∧ y.kind = .text) := by
  induction t using all_induction generalizing start with
  | nil => rw [all]; exact List.isChain_nil
  | cons c rest ih =>
    rw [all]
    refine List.isChain_cons.2 ⟨?_, ih _⟩
    rintro y hy ⟨hx, hytext⟩
    have hless := head?_after_of_text hx
    generalize (next c rest).after = behind at hy hless
    cases behind with
    | nil =>
      rw [all] at hy
      cases hy
    | cons d behind =>
      rw [all] at hy
      cases hy
      exact ne_less_of_text hytext (hless d rfl)

/-- **The lexemes of a source tile it**, those that are never finished too; each has the shape of
its kind, and no text stands next to text. -/
theorem all_tiles (source : Text) :
    Slice.Tile 0 ((all 0 source).map (·.slice)) source.utf8Size ∧
    Slice.join ((all 0 source).map (·.slice)) = source ∧
    (∀ x ∈ all 0 source, x.slice.In source ∧ x.kind.Shape x.slice.text) ∧
    (all 0 source).IsChain fun x y => ¬ (x.kind = .text ∧ y.kind = .text) := by
  have htile := tile_all 0 source
  rw [Nat.zero_add] at htile
  have hjoin : Slice.join ((all 0 source).map (·.slice)) = source := by
    rw [Slice.join, List.flatMap_map]
    exact texts_all 0 source
  refine ⟨htile, hjoin, fun x hx => ⟨?_, ?_⟩, isChain_all 0 source⟩
  · obtain ⟨l, r, hlr⟩ := List.append_of_mem (List.mem_map_of_mem (f := (·.slice)) hx)
    have happ : (all 0 source).map (·.slice) = l ++ [x.slice] ++ r := by simpa using hlr
    rw [happ] at htile hjoin
    obtain ⟨a, c, ⟨rfl, -, -⟩, hin⟩ := htile.run_in
    rw [hjoin, Slice.join_cons, Slice.join_nil, List.append_nil] at hin
    exact hin
  · obtain ⟨c, rest, htext, hkind⟩ := next_of_mem_all hx
    rw [htext, hkind]
    exact shape_next c rest

end Lexeme

end RichContent
