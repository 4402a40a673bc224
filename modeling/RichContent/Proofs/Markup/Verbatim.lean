/-
Where content taken as it stands ends.

It ends with the first end tag of its name (`Piece.cutVerbatim_first`): a place
that looks like one and where no `>` follows ends nothing, and then no later
place does. The search for the end tag in the lowered text, by bytes, passes
over what it has found in vain (`Piece.extentFrom?`), and what it passes over
has no end tag in it either, because no name has a `<` in it.
-/
import RichContent.Proofs.Markup.EndTags
import RichContent.Proofs.Markup.Spared
import RichContent.Proofs.Text.Boundary

namespace RichContent

open Text

namespace Piece

/-! ## The first end tag -/

/-- An end tag of the content stands between these places of the text. -/
def ClosesAt (name t : Text) (start stop : Nat) : Prop :=
  ∃ tag, (Span.mk start stop).Cuts t tag ∧ IsClosing name tag

section

variable {name t tag : Text}

theorem IsClosing.greater_mem (h : IsClosing name tag) : '>' ∈ tag := by
  obtain ⟨front, inner, rfl, -⟩ := h
  simp

/-- Where an end tag begins the content ends. -/
theorem IsClosing.endsVerbatim (h : IsClosing name tag) (after : Text) :
    endsVerbatim name (tag ++ after) = true := by
  obtain ⟨front, inner, rfl, rfl, -, hhead⟩ := h
  have hlength : (lower front).length = front.length := List.length_map _
  have htake : ('<' :: '/' :: (front ++ inner) ++ ['>'] ++ after).take (front.length + 2) =
      '<' :: '/' :: front := by simp
  have hdrop : ('<' :: '/' :: (front ++ inner) ++ ['>'] ++ after).drop (front.length + 2) =
      inner ++ '>' :: after := by simp
  have hlower : lower ('<' :: '/' :: front) = '<' :: '/' :: lower front := rfl
  rw [Piece.endsVerbatim, hlength, htake, hdrop, hlower, beq_self_eq_true, Bool.true_and]
  cases inner with
  | nil => rfl
  | cons c inner =>
    rcases hhead c rfl with hc | rfl
    · simp [hc]
    · simp

/-- **Content taken as it stands ends with the first end tag of its name**, and nowhere if there is
none. -/
theorem cutVerbatim_first (hname : name ∈ verbatimElements) (t : Text) :
    (∀ tag ∈ (cutVerbatim name t).closing, IsClosing name tag) ∧
      ∀ before tag after, t = before ++ tag ++ after → IsClosing name tag →
        (cutVerbatim name t).closing.isSome = true ∧ (cutVerbatim name t).content <+: before := by
  induction t with
  | nil =>
    refine ⟨by rintro _ ⟨⟩, fun before tag after heq htag => ?_⟩
    have hmem := htag.greater_mem
    rw [(List.append_eq_nil_iff.1 (List.append_eq_nil_iff.1 heq.symm).1).2] at hmem
    cases hmem
  | cons c t ih =>
    rw [cutVerbatim]
    split
    · rename_i hends
      split
      · rename_i hcut
        refine ⟨?_, fun before _ _ _ _ => ⟨rfl, List.nil_prefix⟩⟩
        rintro _ ⟨⟩
        exact isClosing_of_endsVerbatim hname hends hcut
      · -- without a `>` from here on there is no end tag from here on
        rename_i hcut
        refine ⟨by rintro _ ⟨⟩, fun before tag after heq htag => ?_⟩
        refine absurd rfl (Lexeme.cutAfterGreater_eq_none.1 hcut '>' ?_)
        rw [heq]
        exact List.mem_append_left _ (List.mem_append_right _ htag.greater_mem)
    · rename_i hends
      refine ⟨ih.1, fun before tag after heq htag => ?_⟩
      cases before with
      | nil =>
        rw [List.nil_append] at heq
        exact absurd (heq ▸ htag.endsVerbatim after) hends
      | cons d before =>
        obtain ⟨rfl, rfl⟩ := List.cons.inj heq
        obtain ⟨hsome, hprefix⟩ := ih.2 before tag after rfl htag
        exact ⟨hsome, List.cons_prefix_cons.2 ⟨rfl, hprefix⟩⟩

/-! ## The search by bytes -/

/-- Does a name end where this text begins? -/
def endsName (t : Text) : Bool := t.head?.all fun c => isBlank c || c == '>' || c == '/'

/-- The place and the size of the end tag, found in the lowered text from byte `start` on. If there
is none, the end of the text and nothing. -/
def extentFrom? (name lowered : Text) (start : Nat) : Option (Nat × Nat) :=
  match _hrest : behind? start lowered with
  | none => none
  | some rest =>
    match _hfound : cutAt ('<' :: '/' :: name) rest with
    | none => some (lowered.utf8Size, 0)
    | some (before, _) =>
      let found := start + before.utf8Size
      let stop := found + utf8Size ('<' :: '/' :: name)
      match behind? stop lowered with
      | none => none
      | some t =>
        if endsName t then
          match placeOf? (· == '>') t with
          | none => some (lowered.utf8Size, 0)
          | some greater => some (found, stop + greater + 1 - found)
        else extentFrom? name lowered stop
termination_by lowered.utf8Size - start
decreasing_by
  obtain ⟨front, rfl, rfl⟩ := behind?_eq_some.1 _hrest
  rw [← append_of_cutAt _hfound]
  have hless : '<'.utf8Size = 1 := rfl
  simp only [utf8Size_append, utf8Size_cons]
  omega

/-- The place and the size of the end tag of the content. -/
def extent? (name t : Text) : Option (Nat × Nat) := extentFrom? name (lower t) 0

/-- What is cut with more content in front. -/
def Verbatim.onto (front : Text) (v : Verbatim) : Verbatim := { v with content := front ++ v.content }

theorem prefix_of_endsVerbatim (h : Piece.endsVerbatim name t = true) :
    '<' :: '/' :: name <+: lower t := by
  obtain ⟨front, behind, rfl, rfl, -⟩ := exists_front_of_endsVerbatim h
  have hlower : lower ('<' :: '/' :: (front ++ behind)) =
      '<' :: '/' :: (lower front ++ lower behind) := by
    rw [lower, List.map_cons, List.map_cons, List.map_append]
    rfl
  exact ⟨lower behind, hlower.symm⟩

theorem cutVerbatim_cons {c : Char} (h : ¬ '<' :: '/' :: name <+: lower (c :: t)) :
    cutVerbatim name (c :: t) = (cutVerbatim name t).onto [c] := by
  rw [cutVerbatim, if_neg fun hends => h (prefix_of_endsVerbatim hends)]
  rfl

/-- What has no `<` in it is passed over. -/
theorem cutVerbatim_append_of_ne {u : Text} (h : ∀ c ∈ u, c ≠ '<') (t : Text) :
    cutVerbatim name (u ++ t) = (cutVerbatim name t).onto u := by
  induction u with
  | nil => rfl
  | cons c u ih =>
    obtain ⟨hc, hu⟩ := List.forall_mem_cons.1 h
    have hno : ¬ '<' :: '/' :: name <+: lower (c :: (u ++ t)) := by
      rintro ⟨_, heq⟩
      exact hc (eq_of_toLower (by decide) (List.cons.inj heq).1.symm)
    rw [List.cons_append, cutVerbatim_cons hno, ih hu]
    rfl

/-- Where the lowered text has nothing like an end tag all of the text is content. -/
theorem cutVerbatim_of_cutAt_none (h : cutAt ('<' :: '/' :: name) (lower t) = none) :
    cutVerbatim name t = ⟨t, none, []⟩ := by
  induction t with
  | nil => rfl
  | cons c t ih =>
    obtain ⟨hno, hrest⟩ := cutAt_cons.1 h
    rw [cutVerbatim_cons hno, ih hrest]
    rfl

/-- The content does not end before the first that looks like an end tag in the lowered text. -/
theorem cutVerbatim_of_cutAt {before after : Text}
    (h : cutAt ('<' :: '/' :: name) (lower t) = some (before, after)) :
    ∃ u piece v, t = u ++ (piece ++ v) ∧ lower u = before ∧ lower piece = '<' :: '/' :: name ∧
      lower v = after ∧ cutVerbatim name t = (cutVerbatim name (piece ++ v)).onto u := by
  induction t generalizing before with
  | nil =>
    rw [lower, List.map_nil, cutAt] at h
    cases h
  | cons c t ih =>
    by_cases hstart : '<' :: '/' :: name <+: lower (c :: t)
    · obtain ⟨rest, heq⟩ := hstart
      have hcut := h
      rw [← heq, cutAt.eq_def, after?_eq_some.2 rfl] at hcut
      cases hcut
      obtain ⟨piece, v, hpv, hpiece, hv⟩ := List.map_eq_append_iff.1 heq.symm
      exact ⟨[], piece, v, hpv, rfl, hpiece, hv, by rw [hpv]; rfl⟩
    · have hcut : (cutAt ('<' :: '/' :: name) (lower t)).map (fun x => (c.toLower :: x.1, x.2)) =
          some (before, after) := (cutAt_cons_of_not hstart).symm.trans h
      obtain ⟨⟨b, a⟩, hba, heq⟩ := Option.map_eq_some_iff.1 hcut
      cases heq
      obtain ⟨u, piece, v, rfl, rfl, hpiece, rfl, hrest⟩ := ih hba
      refine ⟨c :: u, piece, v, rfl, rfl, hpiece, rfl, ?_⟩
      rw [cutVerbatim_cons hstart, hrest]
      rfl

theorem toLower_beq {d : Char} (hd : d.isAlpha = false) (hlow : d.toLower = d) (c : Char) :
    (c.toLower == d) = (c == d) := by
  rw [Bool.eq_iff_iff, beq_iff_eq, beq_iff_eq]
  exact ⟨eq_of_toLower hd, fun h => h ▸ hlow⟩

theorem endsName_lower (t : Text) : endsName (lower t) = endsName t := by
  cases t with
  | nil => rfl
  | cons c t =>
    simp only [endsName, lower, List.map_cons, List.head?_cons, Option.all_some, isBlank,
      toLower_beq (d := ' ') rfl rfl, toLower_beq (d := '\t') rfl rfl,
      toLower_beq (d := '\n') rfl rfl, toLower_beq (d := '\x0c') rfl rfl,
      toLower_beq (d := '\r') rfl rfl, toLower_beq (d := '>') rfl rfl,
      toLower_beq (d := '/') rfl rfl]

/-- Behind the name it is up to what follows whether the content ends. -/
theorem endsVerbatim_piece {piece : Text} (h : lower piece = '<' :: '/' :: name) (v : Text) :
    Piece.endsVerbatim name (piece ++ v) = endsName v := by
  have hlength : name.length + 2 = piece.length := by
    have hlower : (lower piece).length = piece.length := List.length_map _
    rw [← hlower, h]
    rfl
  rw [Piece.endsVerbatim, hlength, List.take_left, List.drop_left, h, beq_self_eq_true,
    Bool.true_and]
  cases v <;> rfl

theorem utf8Size_toLower (c : Char) : c.toLower.utf8Size = c.utf8Size := by
  unfold Char.toLower
  split
  · rename_i hc
    obtain ⟨h1, h2⟩ := hc
    have hZ : 'Z'.val.toNat = 90 := rfl
    have hdiff : ('a'.val - 'A'.val).toNat = 32 := rfl
    have h127 : (127 : UInt32).toNat = 127 := rfl
    simp only [ge_iff_le, UInt32.le_iff_toNat_le] at h1 h2
    rw [Char.utf8Size_eq_one_iff.2, Char.utf8Size_eq_one_iff.2]
    · rw [UInt32.le_iff_toNat_le]
      omega
    · simp only [UInt32.le_iff_toNat_le, UInt32.toNat_add]
      omega
  · rfl

/-- A lowered text takes as many bytes. -/
theorem utf8Size_lower (t : Text) : (lower t).utf8Size = t.utf8Size := by
  induction t with
  | nil => rfl
  | cons c t ih =>
    rw [lower, List.map_cons, utf8Size_cons, utf8Size_cons, utf8Size_toLower, ← ih]
    rfl

theorem lower_append (s t : Text) : lower (s ++ t) = lower s ++ lower t := List.map_append

/-- Behind a boundary of the lowered text is the lowered text behind it. -/
theorem behind?_lower (front t : Text) :
    behind? front.utf8Size (lower (front ++ t)) = some (lower t) :=
  behind?_eq_some.2 ⟨lower front, lower_append front t, utf8Size_lower front⟩

/-- The search for the `>` is the same in the lowered text. -/
theorem placeOf?_lower (t : Text) : placeOf? (· == '>') (lower t) = placeOf? (· == '>') t := by
  induction t with
  | nil => rfl
  | cons c t ih =>
    rw [lower, List.map_cons, placeOf?, placeOf?, toLower_beq rfl rfl, utf8Size_toLower, ← ih]
    rfl

/-- Where the content ends it is the first `>` that ends the tag. -/
theorem cutVerbatim_piece (hname : name ∈ verbatimElements) {piece v : Text}
    (hpiece : lower piece = '<' :: '/' :: name) (hends : endsName v = true) :
    ((cutVerbatim name (piece ++ v)).content.utf8Size,
        ((cutVerbatim name (piece ++ v)).closing.getD []).utf8Size) =
      match placeOf? (· == '>') v with
      | none => ((piece ++ v).utf8Size, 0)
      | some greater => (0, piece.utf8Size + greater + 1) := by
  have hplain : ∀ c ∈ piece, c ≠ '>' := by
    rintro c hc rfl
    have hmem : '>' ∈ '<' :: '/' :: name := hpiece ▸ List.mem_map.2 ⟨'>', hc, rfl⟩
    simp only [List.mem_cons, Char.reduceEq, false_or] at hmem
    exact Lexeme.ne_of_isLetter ((isLetter_of_verbatimElements hname).2 _ hmem) (by decide) rfl
  obtain ⟨c, piece, rfl⟩ : ∃ c piece', piece = c :: piece' := by
    cases piece with
    | nil => cases hpiece
    | cons c piece => exact ⟨c, piece, rfl⟩
  have hends' : Piece.endsVerbatim name (c :: (piece ++ v)) = true :=
    (endsVerbatim_piece hpiece v).trans hends
  rw [List.cons_append, cutVerbatim, if_pos hends']
  rcases forall_or_exists_first (· == '>') v with hv | ⟨inner, d, after, rfl, hinner, hd⟩
  · have hcut : cutAfterGreater (c :: (piece ++ v)) = none :=
      Lexeme.cutAfterGreater_eq_none.2
        (List.forall_mem_append.2 ⟨hplain, fun d hd => beq_eq_false_iff_ne.1 (hv d hd)⟩)
    rw [hcut, placeOf?_eq_none hv]
    rfl
  · obtain rfl := beq_iff_eq.1 hd
    have hcut : cutAfterGreater (c :: (piece ++ (inner ++ '>' :: after))) =
        some (c :: (piece ++ inner) ++ ['>'], after) := by
      rw [← cutAfterGreater_append (s := c :: (piece ++ inner))]
      · simp
      · exact List.forall_mem_append.2 ⟨hplain, fun d hd => beq_eq_false_iff_ne.1 (hinner d hd)⟩
    have hgreater : '>'.utf8Size = 1 := rfl
    rw [hcut, placeOf?_append hinner hd]
    simp [hgreater, Nat.add_assoc]

/-- What is found where no name ends is passed over, and in it no end tag begins. -/
theorem cutVerbatim_passed (hname : name ∈ verbatimElements) {piece v : Text}
    (hpiece : lower piece = '<' :: '/' :: name) (hends : endsName v = false) :
    cutVerbatim name (piece ++ v) = (cutVerbatim name v).onto piece := by
  obtain ⟨c, rest, rfl, -, hrest⟩ := List.map_eq_cons_iff.1 hpiece
  have hplain : ∀ d ∈ rest, d ≠ '<' := by
    rintro d hd rfl
    have hmem : '<' ∈ '/' :: name := hrest ▸ List.mem_map.2 ⟨'<', hd, rfl⟩
    simp only [List.mem_cons, Char.reduceEq, false_or] at hmem
    exact Lexeme.ne_of_isLetter ((isLetter_of_verbatimElements hname).2 _ hmem) (by decide) rfl
  have hno : ¬ Piece.endsVerbatim name (c :: (rest ++ v)) = true := by
    rw [← List.cons_append, endsVerbatim_piece hpiece, hends]
    exact Bool.false_ne_true
  rw [List.cons_append, cutVerbatim, if_neg hno, cutVerbatim_append_of_ne hplain]
  rfl

/-- **The search finds the end of the content.** -/
theorem extentFrom?_eq (hname : name ∈ verbatimElements) (front t : Text) :
    extentFrom? name (lower (front ++ t)) front.utf8Size =
      some (front.utf8Size + (cutVerbatim name t).content.utf8Size,
        ((cutVerbatim name t).closing.getD []).utf8Size) := by
  induction hn : t.length using Nat.strong_induction_on generalizing front t with
  | h n ih =>
    have hall : (lower (front ++ t)).utf8Size = front.utf8Size + t.utf8Size := by
      rw [utf8Size_lower, utf8Size_append]
    rw [extentFrom?]
    split
    · rename_i hrest
      rw [behind?_lower] at hrest
      cases hrest
    · rename_i rest hrest
      obtain rfl : lower t = rest := Option.some.inj ((behind?_lower front t).symm.trans hrest)
      split
      · rename_i hfound
        rw [cutVerbatim_of_cutAt_none hfound, hall]
        rfl
      · rename_i before after hfound
        obtain ⟨u, piece, v, rfl, rfl, hpiece, rfl, hcut⟩ := cutVerbatim_of_cutAt hfound
        have hstop : front.utf8Size + (lower u).utf8Size + utf8Size ('<' :: '/' :: name) =
            (front ++ u ++ piece).utf8Size := by
          rw [← hpiece, utf8Size_lower, utf8Size_lower, utf8Size_append, utf8Size_append]
        have hassoc : front ++ (u ++ (piece ++ v)) = front ++ u ++ piece ++ v := by simp
        dsimp only
        rw [hall, hstop, hassoc, behind?_lower, hcut]
        dsimp only
        split
        · rename_i hends
          rw [endsName_lower] at hends
          have hend := cutVerbatim_piece hname hpiece hends
          rw [placeOf?_lower]
          cases hplace : placeOf? (· == '>') v with
          | none =>
            rw [hplace] at hend
            obtain ⟨hcontent, hclosing⟩ := Prod.mk.inj hend
            simp only [Verbatim.onto, utf8Size_append, hcontent, hclosing]
          | some greater =>
            rw [hplace] at hend
            obtain ⟨hcontent, hclosing⟩ := Prod.mk.inj hend
            simp only [Verbatim.onto, utf8Size_append, hcontent, hclosing, utf8Size_lower,
              Option.some.injEq, Prod.mk.injEq]
            omega
        · -- the search goes on behind what it has found
          rename_i hends
          rw [endsName_lower, Bool.not_eq_true] at hends
          have hlt : v.length < n := by
            have hne : 0 < piece.length := List.length_pos_of_ne_nil (by rintro rfl; cases hpiece)
            rw [← hn, List.length_append, List.length_append]
            omega
          rw [ih v.length hlt (front ++ u ++ piece) v rfl, cutVerbatim_passed hname hpiece hends]
          simp only [Verbatim.onto, utf8Size_append, Nat.add_assoc]

/-- From the beginning of the text the search finds where its content ends. -/
theorem extent?_eq (hname : name ∈ verbatimElements) (t : Text) :
    extent? name t = some ((cutVerbatim name t).content.utf8Size,
      ((cutVerbatim name t).closing.getD []).utf8Size) := by
  have heq := extentFrom?_eq hname [] t
  rwa [utf8Size_nil, Nat.zero_add, List.nil_append] at heq

/-! ## The end of the content -/

/-- **Content taken as it stands ends with the first end tag of its name.** The search gives its
place and its size, and the end of the text and nothing if there is none, also where it has passed
over the end of a longer name or has run out of text behind a name. Both places are boundaries of
the text as it has been before it was lowered. -/
theorem extent?_first (hname : name ∈ verbatimElements) (t : Text) :
    let v := cutVerbatim name t
    let p := v.content.utf8Size
    let n := (v.closing.getD []).utf8Size
    extent? name t = some (p, n) ∧
      (Span.mk 0 p).Cuts t v.content ∧ (Span.mk p (p + n)).Cuts t (v.closing.getD []) ∧
      ((ClosesAt name t p (p + n) ∧ ∀ start stop, ClosesAt name t start stop → p ≤ start) ∨
        (∀ start stop, ¬ ClosesAt name t start stop) ∧ p = t.utf8Size ∧ n = 0) := by
  intro v p n
  have happ : v.content ++ v.closing.getD [] ++ v.after = t := cutVerbatim_append name t
  have hcontent : (Span.mk 0 p).Cuts t v.content :=
    ⟨[], v.closing.getD [] ++ v.after, by simp [← happ], by simp [Slice.span, Slice.stop, p]⟩
  have hclosing : (Span.mk p (p + n)).Cuts t (v.closing.getD []) :=
    ⟨v.content, v.after, happ.symm, rfl⟩
  obtain ⟨htag, hfirst⟩ := cutVerbatim_first hname t
  refine ⟨extent?_eq hname t, hcontent, hclosing, ?_⟩
  cases hv : v.closing with
  | some tag =>
    refine .inl ⟨⟨tag, by rwa [hv] at hclosing, htag tag hv⟩, ?_⟩
    rintro start stop ⟨tag', ⟨before, after, heq, hspan⟩, htag'⟩
    obtain ⟨rfl, -⟩ := Span.mk.inj hspan
    obtain ⟨-, rest, rfl⟩ := hfirst before tag' after heq htag'
    rw [utf8Size_append]
    exact Nat.le_add_right _ _
  | none =>
    refine .inr ⟨?_, ?_, ?_⟩
    · rintro start stop ⟨tag', ⟨before, after, heq, -⟩, htag'⟩
      obtain ⟨hsome, -⟩ := hfirst before tag' after heq htag'
      rw [hv] at hsome
      cases hsome
    · simp only [p, v, cutVerbatim_of_none hv]
    · simp only [n, hv]
      rfl

/-- The end of a longer name, and then an end tag in capital letters that is not written tightly. -/
theorem extent?_first_longer :
    let t := "é</scripts>é</SCRIPT\n/>é</script>".toList
    "script".toList ∈ verbatimElements ∧ extent? "script".toList t = some (14, 11) ∧
      ClosesAt "script".toList t 14 25 ∧
      ∀ start stop, ClosesAt "script".toList t start stop → 14 ≤ start := by
  intro t
  have hname : "script".toList ∈ verbatimElements := by decide
  have hcut : cutVerbatim "script".toList t =
      ⟨"é</scripts>é".toList, some "</SCRIPT\n/>".toList, "é</script>".toList⟩ := by decide
  have hfirst := extent?_first hname t
  rw [hcut] at hfirst
  obtain ⟨hextent, -, -, ⟨hcloses, hleast⟩ | ⟨-, -, hnone⟩⟩ := hfirst
  · exact ⟨hname, hextent, hcloses, hleast⟩
  · exact absurd hnone (by decide)

end

end Piece

end RichContent
