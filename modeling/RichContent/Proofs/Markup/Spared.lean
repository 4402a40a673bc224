/-
The start tags of a text, and which line breaks in it can be marked with no
change of them.

What the marks do depends on the lexeme that they come in: text and comments
take them, a start tag takes none, and other markup ends at the first of them
(`Lexeme.spares`). Where nothing ends, nothing is made to end: only a mark has
a `>` there, and no other tag can reach it.
-/
import RichContent.Proofs.Markup.Breaks
import RichContent.Proofs.Markup.Lexing

namespace RichContent

open Text

namespace Lexeme

/-! ## The start tags of a text -/

/-- The start tag that it is, unless it breaks a line. -/
def Kind.otherTag? : Kind → Option StartTag
  | startTag tag => if tag.name = "br".toList then none else some tag
  | _ => none

/-- The start tags of a text, without those that break lines. -/
def otherTags (t : Text) : List StartTag := (all 0 t).filterMap (·.kind.otherTag?)

section

variable {c : Char} {rest t w w' : Text}

/-- It does not matter where a text begins. -/
theorem otherTags_all (start : Nat) (t : Text) :
    (all start t).filterMap (·.kind.otherTag?) = otherTags t := by
  induction t using all_induction generalizing start with
  | nil => rw [otherTags, all, all]
  | cons c rest ih =>
    rw [otherTags, all, all, List.filterMap_cons, List.filterMap_cons, ih, ih]

@[simp] theorem otherTags_nil : otherTags [] = [] := by
  rw [otherTags, all, List.filterMap_nil]

theorem otherTags_cons (c : Char) (rest : Text) : otherTags (c :: rest) =
    (next c rest).kind.otherTag?.toList ++ otherTags (next c rest).after := by
  rw [otherTags, all, List.filterMap_cons, otherTags_all]
  split <;> simp [*]

/-! ### Text and marks -/

/-- Tags begin with a `<`. -/
theorem otherTags_dropWhile (t : Text) : otherTags (t.dropWhile (· != '<')) = otherTags t := by
  cases t with
  | nil => rfl
  | cons c rest =>
    by_cases hc : c = '<'
    · simp [hc]
    · rw [otherTags_cons, next, if_neg hc, List.dropWhile_cons_of_pos (by simpa using hc)]
      rfl

theorem otherTags_append (hw : ∀ c ∈ w, c ≠ '<') (t : Text) :
    otherTags (w ++ t) = otherTags t := by
  rw [← otherTags_dropWhile, List.dropWhile_append_of_pos (by simpa using hw),
    otherTags_dropWhile]

theorem otherTags_mark (t : Text) : otherTags (breakMark ++ t) = otherTags t := by
  have hwritable : StartTag.Writable 'b' ['r'] [] :=
    ⟨by decide, List.forall_mem_singleton.2 (by decide), by simp, List.nodup_nil⟩
  have hnext := next_written hwritable true t
  have happ : breakMark ++ t = '<' :: ('b' :: (['r'] ++ (Attribute.writtenAll [] ++
      if true then " /".toList else [])) ++ '>' :: t) := rfl
  rw [happ, otherTags_cons, hnext]
  rfl

/-- In text the marks are the only tags. -/
theorem otherTags_breaking_append (h : Breaking w w') (hw : ∀ c ∈ w, c ≠ '<') (t : Text) :
    otherTags (w' ++ t) = otherTags t := by
  induction h with
  | nil => rfl
  | @keep c w w' _ ih =>
    obtain ⟨hc, hw⟩ := List.forall_mem_cons.1 hw
    rw [List.cons_append, ← List.singleton_append,
      otherTags_append (List.forall_mem_singleton.2 hc), ih hw]
  | @mark c w w' _ _ ih =>
    obtain ⟨hc, hw⟩ := List.forall_mem_cons.1 hw
    rw [List.append_assoc, otherTags_mark, List.cons_append, ← List.singleton_append,
      otherTags_append (List.forall_mem_singleton.2 hc), ih hw]

end

/-! ## Where marks do no harm -/

/-- Can line breaks be marked in a lexeme, with this behind it? In a start tag there may be none,
and none outside of values as far as the quotes hide its end; behind one in an end tag, a
declaration or an instruction there may be no `<`. -/
def spares (x : Lexeme) (behind : Text) : Bool :=
  match x.kind with
  | .startTag _ =>
    let body := x.slice.text.drop 2 ++ behind
    x.slice.text.all (!isLineBreak ·) &&
      (scanTag none false body != .ranOut || breaksInValues none false body)
  | .endTag _ | .declaration | .instruction =>
    !(x.slice.text.dropWhile (!isLineBreak ·)).contains '<'
  | _ => true

/-- Can line breaks be marked in each of the lexemes? -/
def sparesTags : List Lexeme → Bool
  | [] => true
  | x :: behind => x.spares (behind.flatMap (·.slice.text)) && sparesTags behind

section

variable {c : Char} {rest rest' t t' body body' opening : Text} {kind : Text → Kind}

theorem cutAfterGreater_eq_none : cutAfterGreater t = none ↔ ∀ c ∈ t, c ≠ '>' := by
  induction t with
  | nil => simp [cutAfterGreater]
  | cons c t ih =>
    rw [cutAfterGreater, List.forall_mem_cons, ← ih]
    split
    · rename_i hc
      simp [hc]
    · rename_i hc
      simp [hc]

/-- Markup that a mark comes in ends with it. -/
theorem cutAfterGreater_mark {u : Text} (hu : ∀ c ∈ u, c ≠ '>') (t : Text) :
    cutAfterGreater (u ++ (breakMark ++ t)) = some (u ++ breakMark, t) := by
  have happ (x : Text) : u ++ (breakMark ++ x) = u ++ "<br /".toList ++ '>' :: x := by
    simp [breakMark]
  have hplain : ∀ c ∈ u ++ "<br /".toList, c ≠ '>' := by
    intro c hc
    rcases List.mem_append.1 hc with hc | hc
    · exact hu c hc
    · rintro rfl
      exact absurd hc (by decide)
  rw [happ, cutAfterGreater_append hplain]
  simp [breakMark]

/-! ### How markup begins -/

/-- What is behind a `<` begins markup. -/
inductive Opens : Text → Prop
  | comment (body : Text) : Opens ('!' :: '-' :: '-' :: body)
  | declaration {d : Char} (body : Text) : (isLetter d || d == '[') = true → Opens ('!' :: d :: body)
  | instruction (body : Text) : Opens ('?' :: body)
  | endTag {d : Char} (body : Text) : isLetter d = true → Opens ('/' :: d :: body)
  | startTag {letter : Char} (body : Text) : isLetter letter = true → Opens (letter :: body)

theorem opens_of_opensMarkup (h : opensMarkup rest = true) : Opens rest := by
  rw [opensMarkup.eq_def] at h
  split at h
  · exact .comment _
  · exact .declaration _ h
  · exact .instruction _
  · exact .endTag _ h
  · exact .startTag _ h
  · cases h

/-- Behind a `<` that begins nothing marks do not make markup begin. -/
theorem opens_of_breaking (h : Breaking rest rest') (hopens : Opens rest') : Opens rest := by
  cases hopens with
  | comment body =>
    obtain ⟨t₁, rfl, h₁⟩ := h.of_cons_right (by decide)
    obtain ⟨t₂, rfl, h₂⟩ := h₁.of_cons_right (by decide)
    obtain ⟨t₃, rfl, -⟩ := h₂.of_cons_right (by decide)
    exact .comment t₃
  | declaration body hd =>
    obtain ⟨t₁, rfl, h₁⟩ := h.of_cons_right (by decide)
    obtain ⟨t₂, rfl, -⟩ := h₁.of_cons_right (by rintro rfl; exact absurd hd (by decide))
    exact .declaration t₂ hd
  | instruction body =>
    obtain ⟨t₁, rfl, -⟩ := h.of_cons_right (by decide)
    exact .instruction t₁
  | endTag body hd =>
    obtain ⟨t₁, rfl, h₁⟩ := h.of_cons_right (by decide)
    obtain ⟨t₂, rfl, -⟩ := h₁.of_cons_right (ne_of_isLetter hd (by decide))
    exact .endTag t₂ hd
  | startTag body hl =>
    obtain ⟨t₁, rfl, -⟩ := h.of_cons_right (ne_of_isLetter hl (by decide))
    exact .startTag t₁ hl

theorem markup_of_not_opens (h : ¬ Opens rest) : markup rest = ⟨['<'], .loneLess, rest⟩ :=
  markup_of_not_opensMarkup (Bool.eq_false_iff.2 fun hopen => h (opens_of_opensMarkup hopen))

/-! ### Markup without an end -/

theorem greater_mem_of_cutTag {r after : Text} (h : cutTag t = some (r, after)) : '>' ∈ r := by
  obtain ⟨w, rfl⟩ := exists_concat_of_cutTag h
  exact List.mem_append_right w (List.mem_singleton_self _)

/-- The kinds of lexemes that have no end of their own. -/
def Kind.isOpen : Kind → Bool
  | text | loneLess | unfinished => true
  | _ => false

theorem toGreater_isOpen (h : ∀ c ∈ rest, c ≠ '>') (opening : Text) (kind : Text → Kind) :
    (toGreater opening rest kind).kind.isOpen = true := by
  rw [toGreater, cutAfterGreater_eq_none.2 h]
  rfl

/-- Without a `>` nothing ends. -/
theorem next_isOpen (c : Char) (h : ∀ d ∈ rest, d ≠ '>') :
    (next c rest).kind.isOpen = true := by
  rw [next]
  split
  · by_cases hopens : Opens rest
    · cases hopens with
      | comment body =>
        have hmarkup : markup ('!' :: '-' :: '-' :: body) = comment body := rfl
        have hcut : cutAt "-->".toList body = none := by
          rw [Option.eq_none_iff_forall_ne_some]
          rintro ⟨before, after⟩ hcut
          have happ := append_of_cutAt hcut
          exact h '>' (by simp [← happ]) rfl
        rw [hmarkup, comment, hcut]
        rfl
      | declaration body hd =>
        rw [markup_bang hd]
        exact toGreater_isOpen (fun d hd => h d (by simp [hd])) _ _
      | instruction body => exact toGreater_isOpen (fun d hd => h d (by simp [hd])) _ _
      | endTag body hd =>
        rw [markup_slash hd]
        exact toGreater_isOpen (fun d hd => h d (by simp [hd])) _ _
      | startTag body hl =>
        have hcut : cutTag body = none := by
          rw [Option.eq_none_iff_forall_ne_some]
          rintro ⟨r, after⟩ hcut
          have happ := append_of_cutTag hcut
          exact h '>' (by simp [← happ, greater_mem_of_cutTag hcut]) rfl
        rw [markup_of_isLetter hl, startTag, hcut]
        rfl
    · rw [markup_of_not_opens hopens]
      rfl
  · rfl

theorem Kind.otherTag?_of_isOpen {k : Kind} (h : k.isOpen = true) : k.otherTag? = none := by
  cases k with
  | startTag => cases h
  | _ => rfl

theorem spares_of_isOpen {x : Lexeme} (h : x.kind.isOpen = true) (behind : Text) :
    x.spares behind = true := by
  rw [spares]
  cases hk : x.kind <;> rw [hk] at h <;> first | rfl | cases h

/-- Without a `>` there are no tags, and line breaks can be marked everywhere. -/
theorem tags_of_no_greater (h : ∀ c ∈ t, c ≠ '>') (start : Nat) :
    otherTags t = [] ∧ sparesTags (all start t) = true := by
  induction t using all_induction generalizing start with
  | nil =>
    rw [otherTags, all, all]
    exact ⟨rfl, rfl⟩
  | cons c rest ih =>
    have hopen := next_isOpen c fun d hd => h d (List.mem_cons_of_mem _ hd)
    have hafter : ∀ d ∈ (next c rest).after, d ≠ '>' := by
      intro d hd
      refine h d ?_
      rw [← next_append c rest]
      exact List.mem_append_right _ hd
    rw [otherTags_cons, all, sparesTags, Kind.otherTag?_of_isOpen hopen, (ih hafter 0).1,
      (ih hafter _).2, spares_of_isOpen hopen]
    exact ⟨rfl, rfl⟩

end

/-! ## Marks that do no harm -/

section

variable {rest rest' body body' opening : Text} {kind : Text → Kind}

/-- What is shorter than this keeps its start tags. -/
def KeepsTags (n : Nat) : Prop :=
  ∀ t t' start, t.length ≤ n → Breaking t t' → sparesTags (all start t) = true →
    otherTags t' = otherTags t

theorem otherTags_comment (h : Breaking body body') (hkeeps : KeepsTags body.length) {start : Nat}
    (hs : sparesTags (all start (comment body).after) = true) :
    (comment body').kind = (comment body).kind ∧
      otherTags (comment body').after = otherTags (comment body).after := by
  have halike := h.cutAt
  generalize hcut : cutAt "-->".toList body = x at halike
  generalize hcut' : cutAt "-->".toList body' = x' at halike
  rw [comment, hcut] at hs
  rw [comment, comment, hcut, hcut']
  cases halike with
  | none => exact ⟨rfl, hkeeps _ _ _ le_rfl h hs⟩
  | @some x x' hafter =>
    have happ := append_of_cutAt hcut
    exact ⟨rfl, hkeeps _ _ _ (by simp [← happ]; omega) hafter hs⟩

theorem KeepsTags.mono {m n : Nat} (h : KeepsTags n) (hmn : m ≤ n) : KeepsTags m :=
  fun t t' start hlen => h t t' start (hlen.trans hmn)

/-- The kinds of markup that runs to the next `>`. -/
def Kind.runsToGreater : Kind → Bool
  | endTag _ | declaration | instruction => true
  | _ => false

theorem not_less_of_spares {s : Slice} {k : Kind} (hk : k.runsToGreater = true) {behind : Text}
    (h : spares ⟨s, k⟩ behind = true) : '<' ∉ s.text.dropWhile (!isLineBreak ·) := by
  cases k with
  | endTag | declaration | instruction => simpa [spares] using h
  | _ => cases hk

theorem mem_dropWhile {p : Char → Bool} {u v : Text} {c d : Char} (hc : p c = false)
    (hd : d ∈ c :: v) : d ∈ (u ++ c :: v).dropWhile p := by
  induction u with
  | nil => simpa [hc] using hd
  | cons e u ih =>
    rw [List.cons_append, List.dropWhile_cons]
    split
    · exact ih
    · simp [hd]

theorem Kind.otherTag?_of_runsToGreater {k : Kind} (hk : k.runsToGreater = true) :
    k.otherTag? = none := by
  cases k with
  | startTag => cases hk
  | _ => rfl

theorem otherTag?_toGreater (hkind : ∀ s, (kind s).runsToGreater = true) (opening body : Text) :
    (toGreater opening body kind).kind.otherTag? = none := by
  rw [toGreater]
  split
  · exact Kind.otherTag?_of_runsToGreater (hkind _)
  · rfl

theorem after_toGreater {before after : Text} (h : cutAfterGreater body = some (before, after)) :
    (toGreater opening body kind).after = after := by
  rw [toGreater, h]

theorem after_toGreater_mark {u : Text} (hu : ∀ c ∈ u, c ≠ '>') (t : Text) :
    (toGreater opening (u ++ (breakMark ++ t)) kind).after = t :=
  after_toGreater (cutAfterGreater_mark hu t)

/-- Behind a mark that ends markup without an end there are no tags. -/
theorem otherTags_toGreater_open (h : Breaking body body') (hkeeps : KeepsTags body.length)
    (hcut : cutAfterGreater body = none) : otherTags (toGreater opening body' kind).after = [] := by
  rcases h.eq_or_marked with rfl | ⟨u, c, v, v', rfl, -, rfl, hv⟩
  · rw [toGreater, hcut, otherTags_nil]
  · obtain ⟨hu, hcv⟩ := List.forall_mem_append.1 (cutAfterGreater_eq_none.1 hcut)
    obtain ⟨hnone, hspares⟩ := tags_of_no_greater hcv 0
    rw [after_toGreater_mark hu, hkeeps (c :: v) (c :: v') 0 (by simp) (.keep hv) hspares, hnone]

/-- What a mark cuts off is text up to where the markup had its end. -/
theorem otherTags_toGreater_cut {w after : Text} (h : Breaking (w ++ ['>'] ++ after) body')
    (hw : ∀ c ∈ w, c ≠ '>') (hless : '<' ∉ (opening ++ (w ++ ['>'])).dropWhile (!isLineBreak ·))
    (hkeeps : ∀ after', Breaking after after' → otherTags after' = otherTags after) :
    otherTags (toGreater opening body' kind).after = otherTags after := by
  obtain ⟨before', after', rfl, hbefore, hafter⟩ := h.of_append
  rcases hbefore.eq_or_marked with rfl | ⟨u, c, v, v', hsplit, hc, rfl, hv⟩
  · have hcut : cutAfterGreater (w ++ ['>'] ++ after') = some (w ++ ['>'], after') := by
      rw [List.append_assoc]
      exact cutAfterGreater_append hw after'
    rw [after_toGreater hcut, hkeeps after' hafter]
  · have hu : ∀ d ∈ u, d ≠ '>' := by
      rcases List.append_eq_append_iff.1 hsplit with ⟨x, -, hx⟩ | ⟨x, rfl, -⟩
      · -- the `>` would be the line break
        cases x with
        | nil =>
          obtain rfl := (List.cons.inj hx).1
          cases hc
        | cons e x => cases x <;> cases (List.cons.inj hx).2
      · exact fun d hd => hw d (List.mem_append_left _ hd)
    have hplain : ∀ d ∈ c :: v, d ≠ '<' := by
      rintro d hd rfl
      refine hless ?_
      rw [hsplit, ← List.append_assoc]
      exact mem_dropWhile (by simp [hc]) hd
    rw [List.append_assoc, List.append_assoc, after_toGreater_mark hu,
      otherTags_breaking_append (.keep hv) hplain, hkeeps after' hafter]

theorem otherTags_toGreater (h : Breaking body body') (hkeeps : KeepsTags body.length)
    (hkind : ∀ s, (kind s).runsToGreater = true) {start n : Nat}
    (hspares : spares ⟨⟨start, (toGreater opening body kind).text⟩,
      (toGreater opening body kind).kind⟩ (toGreater opening body kind).after = true)
    (hs : sparesTags (all n (toGreater opening body kind).after) = true) :
    (toGreater opening body' kind).kind.otherTag?.toList ++
        otherTags (toGreater opening body' kind).after =
      (toGreater opening body kind).kind.otherTag?.toList ++
        otherTags (toGreater opening body kind).after := by
  rw [otherTag?_toGreater hkind, otherTag?_toGreater hkind]
  congr 1
  cases hcut : cutAfterGreater body with
  | none => rw [otherTags_toGreater_open h hkeeps hcut, toGreater, hcut, otherTags_nil]
  | some cut =>
    obtain ⟨before, after⟩ := cut
    have happ := append_of_cutAfterGreater hcut
    have hlen : after.length ≤ body.length := by simp [← happ]
    have hless : '<' ∉ (opening ++ before).dropWhile (!isLineBreak ·) := by
      rw [toGreater, hcut] at hspares
      exact not_less_of_spares (hkind _) hspares
    rw [after_toGreater hcut] at hs ⊢
    obtain ⟨w, rfl, hw⟩ := cutAfterGreater_eq_some hcut
    subst happ
    exact otherTags_toGreater_cut h hw hless fun after' hafter => hkeeps _ _ _ hlen hafter hs

theorem otherTags_startTag (h : Breaking body body') (hkeeps : KeepsTags body.length)
    {letter : Char} {start : Nat}
    (hspares : spares ⟨⟨start, (startTag letter body).text⟩, (startTag letter body).kind⟩
      (startTag letter body).after = true) {n : Nat}
    (hs : sparesTags (all n (startTag letter body).after) = true) :
    (startTag letter body').kind = (startTag letter body).kind ∧
      otherTags (startTag letter body').after = otherTags (startTag letter body).after := by
  cases hcut : cutTag body with
  | none =>
    rw [startTag, hcut] at hs
    rw [startTag, startTag, hcut, cutTag_eq_none h hcut]
    exact ⟨rfl, hkeeps _ _ _ le_rfl h hs⟩
  | some cut =>
    obtain ⟨r, after⟩ := cut
    have happ := append_of_cutTag hcut
    have hstep : startTag letter body =
        ⟨'<' :: letter :: r, .startTag (StartTag.parse ('<' :: letter :: r)), after⟩ := by
      rw [startTag, hcut]
    rw [hstep] at hspares hs ⊢
    simp only [spares, List.drop_succ_cons, List.drop_zero, happ, Bool.and_eq_true,
      List.all_eq_true, Bool.or_eq_true, bne_iff_ne, Bool.not_eq_true'] at hspares
    obtain ⟨hplain, hvalues⟩ := hspares
    obtain ⟨after', rfl, hcut', hafter⟩ := cutTag_breaking h hcut
      (fun c hc => hplain c (by simp [hc])) fun hout => hvalues.resolve_left (not_not.2 hout)
    rw [startTag, hcut']
    exact ⟨rfl, hkeeps _ _ _ (by simp [← happ]) hafter hs⟩

theorem isLineBreak_of_isLetter {c : Char} (h : isLetter c = true) : isLineBreak c = false := by
  rw [Bool.eq_false_iff]
  intro hbreak
  rw [isLineBreak, Bool.or_eq_true, beq_iff_eq, beq_iff_eq] at hbreak
  rcases hbreak with rfl | rfl <;> exact absurd h (by decide)

theorem otherTags_less (rest : Text) : otherTags ('<' :: rest) =
    (markup rest).kind.otherTag?.toList ++ otherTags (markup rest).after := by
  rw [otherTags_cons, next, if_pos rfl]

theorem otherTags_markup (h : Breaking rest rest') (hkeeps : KeepsTags rest.length) {start n : Nat}
    (hspares : spares ⟨⟨start, (markup rest).text⟩, (markup rest).kind⟩ (markup rest).after = true)
    (hs : sparesTags (all n (markup rest).after) = true) :
    otherTags ('<' :: rest') = otherTags ('<' :: rest) := by
  by_cases hopens : Opens rest
  · rw [otherTags_less, otherTags_less]
    cases hopens with
    | comment body =>
      obtain ⟨t₁, rfl, h₁⟩ := h.of_cons (by decide)
      obtain ⟨t₂, rfl, h₂⟩ := h₁.of_cons (by decide)
      obtain ⟨body', rfl, hbody⟩ := h₂.of_cons (by decide)
      obtain ⟨hkind, htags⟩ := otherTags_comment hbody (hkeeps.mono (by simp; omega)) hs
      exact congrArg₂ _ (congrArg _ (congrArg _ hkind)) htags
    | @declaration d body hd =>
      have hbreak : isLineBreak d = false := by
        rw [Bool.or_eq_true, beq_iff_eq] at hd
        rcases hd with hd | rfl
        · exact isLineBreak_of_isLetter hd
        · decide
      obtain ⟨t₁, rfl, h₁⟩ := h.of_cons (by decide)
      obtain ⟨body', rfl, hbody⟩ := h₁.of_cons hbreak
      rw [markup_bang hd] at hspares hs ⊢
      rw [markup_bang hd]
      exact otherTags_toGreater hbody (hkeeps.mono (by simp; omega)) (fun _ => rfl) hspares hs
    | instruction body =>
      obtain ⟨body', rfl, hbody⟩ := h.of_cons (by decide)
      exact otherTags_toGreater hbody (hkeeps.mono (by simp)) (fun _ => rfl) hspares hs
    | @endTag d body hd =>
      obtain ⟨t₁, rfl, h₁⟩ := h.of_cons (by decide)
      obtain ⟨body', rfl, hbody⟩ := h₁.of_cons (isLineBreak_of_isLetter hd)
      rw [markup_slash hd] at hspares hs ⊢
      rw [markup_slash hd]
      exact otherTags_toGreater hbody (hkeeps.mono (by simp; omega)) (fun _ => rfl) hspares hs
    | @startTag letter body hl =>
      obtain ⟨body', rfl, hbody⟩ := h.of_cons (isLineBreak_of_isLetter hl)
      rw [markup_of_isLetter hl] at hspares hs ⊢
      rw [markup_of_isLetter hl]
      obtain ⟨hkind, htags⟩ := otherTags_startTag hbody (hkeeps.mono (by simp)) hspares hs
      exact congrArg₂ _ (congrArg _ (congrArg _ hkind)) htags
  · have hopens' : ¬ Opens rest' := fun hopens' => hopens (opens_of_breaking h hopens')
    rw [otherTags_less, otherTags_less, markup_of_not_opens hopens', markup_of_not_opens hopens]
    rw [markup_of_not_opens hopens] at hs
    exact congrArg _ (hkeeps _ _ _ le_rfl h hs)

end

/-- **Marking line breaks changes no start tag**, where the lexemes spare their line breaks. -/
theorem otherTags_breaking {t t' : Text} (h : Breaking t t') {start : Nat}
    (hs : sparesTags (all start t) = true) : otherTags t' = otherTags t := by
  induction hn : t.length using Nat.strongRecOn generalizing t t' start with
  | ind n ih =>
    cases t with
    | nil => rw [h.of_nil]
    | cons c rest =>
      rw [List.length_cons] at hn
      rw [all, sparesTags, texts_all, Bool.and_eq_true] at hs
      obtain ⟨hspares, hs⟩ := hs
      have hkeeps : KeepsTags rest.length :=
        fun u u' start hlen hu hsu => ih u.length (by omega) hu hsu rfl
      by_cases hless : c = '<'
      · subst hless
        obtain ⟨rest', rfl, hrest⟩ := h.of_cons (by decide)
        rw [next, if_pos rfl] at hspares hs
        exact otherTags_markup hrest hkeeps hspares hs
      · rw [next, if_neg hless] at hs
        have hsplit := List.takeWhile_append_dropWhile (p := (· != '<')) (l := rest)
        rw [← hsplit, ← List.cons_append] at h
        obtain ⟨w', after', rfl, hw, hafter⟩ := h.of_append
        have hplain : ∀ d ∈ c :: rest.takeWhile (· != '<'), d ≠ '<' := by
          refine List.forall_mem_cons.2 ⟨hless, fun d hd => ?_⟩
          simpa using List.mem_takeWhile_imp hd
        have hlen := (List.dropWhile_suffix (· != '<') (l := rest)).length_le
        rw [otherTags_breaking_append hw hplain, hkeeps _ _ _ hlen hafter hs,
          ← otherTags_append hplain, List.cons_append, hsplit]

end Lexeme

end RichContent
