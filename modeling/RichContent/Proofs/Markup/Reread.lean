/-
The pieces of a source in which nodes have given way to other markup.

A piece that is kept is cut off again with the tag it had (`all_patched`). It
is a lexeme, or an element whose content is taken as it stands, and this ends
with its own end tag or runs to the end of the source. What is behind a piece
is cut into the pieces behind it (`all_split`).
-/
import RichContent.Proofs.Markup.Patch
import RichContent.Proofs.Markup.Tiling

namespace RichContent

open Text

/-- Where a text begins that is a `<` and a letter. -/
def Slice.brokenTag? (s : Slice) : Option Nat :=
  match s.text with
  | ['<', letter] => if Lexeme.isLetter letter then some s.start else none
  | _ => none

namespace Piece

/-- The start tag that a piece is or begins with. -/
def tag? : Piece → Option StartTag
  | leaf tag _ => some tag
  | verbatim tag _ _ _ => some tag
  | opening tag _ => some tag
  | _ => none

/-- Where a piece begins that is a start tag, or was broken off as one. -/
def attempt? : Piece → Option Nat
  | text s => s.brokenTag?
  | leaf _ s => some s.start
  | verbatim _ s _ _ => some s.start
  | opening _ s => some s.start
  | _ => none

theorem endsVerbatim_append {name u : Text} (h : name.length + 3 ≤ u.length) (x y : Text) :
    endsVerbatim name (u ++ x) = endsVerbatim name (u ++ y) := by
  have htake (z : Text) : (u ++ z).take (name.length + 2) = u.take (name.length + 2) :=
    List.take_append_of_le_length (by omega)
  have hdrop (z : Text) : (u ++ z).drop (name.length + 2) = u.drop (name.length + 2) ++ z :=
    List.drop_append_of_le_length (by omega)
  have hne : u.drop (name.length + 2) ≠ [] := by
    rw [Ne, List.drop_eq_nil_iff]
    omega
  obtain ⟨c, v, hv⟩ := List.exists_cons_of_ne_nil hne
  simp only [endsVerbatim, htake, hdrop, hv, List.cons_append]

/-- The end tag that ends content taken as it stands has the name in it, and more. -/
theorem length_lt_of_endsVerbatim {name t tag after : Text} (hname : ∀ c ∈ name, c ≠ '>')
    (hends : endsVerbatim name t = true) (hcut : cutAfterGreater t = some (tag, after)) :
    name.length + 3 ≤ tag.length := by
  simp only [endsVerbatim, Bool.and_eq_true, beq_iff_eq] at hends
  by_contra hshort
  have happ := append_of_cutAfterGreater hcut
  -- otherwise the `>` would be among the characters of the name
  have hmem : '>' ∈ t.take (name.length + 2) := by
    obtain ⟨w, rfl, -⟩ := cutAfterGreater_eq_some hcut
    rw [← happ, List.take_append, List.take_of_length_le (by omega)]
    simp
  have hlow : '>' ∈ lower (t.take (name.length + 2)) := List.mem_map.2 ⟨'>', hmem, by decide⟩
  rw [hends.1] at hlow
  simp only [List.mem_cons, Char.reduceEq, false_or] at hlow
  exact hname _ hlow rfl

section

variable {name t content tag after : Text}

theorem length_lt_of_cutVerbatim (hname : ∀ c ∈ name, c ≠ '>')
    (h : cutVerbatim name t = ⟨content, some tag, after⟩) : name.length + 3 ≤ tag.length := by
  induction t generalizing content with
  | nil => cases h
  | cons c t ih =>
    rw [cutVerbatim] at h
    split at h
    · rename_i hends
      split at h
      · rename_i hcut
        cases h
        exact length_lt_of_endsVerbatim hname hends hcut
      · cases h
    · simp only [Verbatim.mk.injEq] at h
      obtain ⟨-, hclosing, hafter⟩ := h
      have hrest : cutVerbatim name t = ⟨(cutVerbatim name t).content, some tag, after⟩ := by
        rw [← hclosing, ← hafter]
      exact ih hrest

/-- The cut does not look behind the end tag. -/
theorem cutVerbatim_behind (hname : ∀ c ∈ name, c ≠ '>')
    (h : cutVerbatim name t = ⟨content, some tag, after⟩) (x : Text) :
    cutVerbatim name (content ++ (tag ++ x)) = ⟨content, some tag, x⟩ := by
  have hlong := length_lt_of_cutVerbatim hname h
  induction t generalizing content with
  | nil => cases h
  | cons c t ih =>
    have happ := cutVerbatim_append name (c :: t)
    rw [h] at happ
    simp only [Option.getD_some] at happ
    rw [cutVerbatim] at h
    split at h
    · rename_i hends
      split at h
      · rename_i tag' after' hcut
        cases h
        rw [← happ, List.nil_append, endsVerbatim_append hlong after x] at hends
        have hbehind := cutAfterGreater_behind hcut x
        rw [List.nil_append]
        obtain ⟨d, tag, rfl⟩ := List.exists_cons_of_ne_nil (ne_nil_of_cutAfterGreater hcut)
        rw [List.cons_append] at hends hbehind ⊢
        rw [cutVerbatim, if_pos hends, hbehind]
      · cases h
    · rename_i hends
      simp only [Verbatim.mk.injEq] at h
      obtain ⟨rfl, hclosing, hafter⟩ := h
      have hrest : cutVerbatim name t = ⟨(cutVerbatim name t).content, some tag, after⟩ := by
        rw [← hclosing, ← hafter]
      have hsame : endsVerbatim name (c :: (cutVerbatim name t).content ++ tag ++ after) =
          endsVerbatim name (c :: (cutVerbatim name t).content ++ tag ++ x) :=
        endsVerbatim_append (by simp; omega) after x
      rw [happ, Bool.eq_false_iff.2 hends] at hsame
      simp only [List.cons_append, List.append_assoc] at hsame ⊢
      rw [cutVerbatim, ← hsame, if_neg Bool.false_ne_true, ih hrest]

end

/-- Without an end tag the content is all that is left. -/
theorem cutVerbatim_of_none {name t : Text} (h : (cutVerbatim name t).closing = none) :
    cutVerbatim name t = ⟨t, none, []⟩ := by
  induction t with
  | nil => rfl
  | cons c t ih =>
    rw [cutVerbatim] at h ⊢
    split
    · split
      · simp_all
      · rfl
    · rename_i hends
      rw [if_neg hends] at h
      rw [ih h]

theorem cutVerbatim_patched {cut : Nat → Prop} {n : Nat} {name t after : Text}
    (hname : ∀ c ∈ name, c ≠ '>') (hp : Patched cut n (cutVerbatim name t).after after) :
    cutVerbatim name
        ((cutVerbatim name t).content ++ (cutVerbatim name t).closing.getD [] ++ after) =
      ⟨(cutVerbatim name t).content, (cutVerbatim name t).closing, after⟩ := by
  cases hclosing : (cutVerbatim name t).closing with
  | none =>
    have hall := cutVerbatim_of_none hclosing
    rw [hall] at hp
    obtain rfl := hp.of_nil
    rw [hall]
    simpa using hall
  | some tag =>
    rw [Option.getD_some, List.append_assoc]
    have hcut : cutVerbatim name t =
        ⟨(cutVerbatim name t).content, some tag, (cutVerbatim name t).after⟩ := by
      rw [← hclosing]
    exact cutVerbatim_behind hname hcut after

/-! ### Reading it again -/

/-- Is it the tag of an element that cannot have content, or does it close itself? -/
def isLeaf (tag : StartTag) : Bool := voidElements.contains tag.name || tag.selfClosing

theorem isLeaf_iff {tag : StartTag} :
    isLeaf tag = true ↔ tag.name ∈ voidElements ∨ tag.selfClosing = true := by
  rw [isLeaf, Bool.or_eq_true, List.contains_iff_mem]

/-- The piece that a lexeme is, unless it begins content that is taken as it stands. -/
def ofStep (start : Nat) (s : Lexeme.Step) : Piece :=
  match s.kind with
  | .text | .loneLess | .unfinished => text ⟨start, s.text⟩
  | .comment | .declaration | .instruction => raw ⟨start, s.text⟩
  | .endTag name => closing name ⟨start, s.text⟩
  | .startTag tag => if isLeaf tag then leaf tag ⟨start, s.text⟩ else opening tag ⟨start, s.text⟩

/-- The start tag of an element whose content is taken as it stands. -/
def verbatimTag? (s : Lexeme.Step) : Option StartTag :=
  match s.kind with
  | .startTag tag => if !isLeaf tag && verbatimElements.contains tag.name then some tag else none
  | _ => none

theorem verbatimTag?_eq_some {s : Lexeme.Step} {tag : StartTag} :
    verbatimTag? s = some tag ↔ s.kind = .startTag tag ∧
      ¬ (tag.name ∈ voidElements ∨ tag.selfClosing = true) ∧ tag.name ∈ verbatimElements := by
  rw [verbatimTag?]
  split
  · rename_i tag' hkind
    rw [← isLeaf_iff, ← List.contains_iff_mem, Bool.not_eq_true, ← Bool.not_eq_true',
      ← Bool.and_eq_true]
    grind
  · grind

theorem ofStep_slices (start : Nat) (s : Lexeme.Step) :
    (ofStep start s).slices = [⟨start, s.text⟩] := by
  rw [ofStep]
  split <;> try rfl
  split <;> rfl

theorem ofStep_tag? (start start' : Nat) (s : Lexeme.Step) (after : Text) :
    (ofStep start' (s.before after)).tag? = (ofStep start s).tag? := by
  simp only [ofStep, Lexeme.Step.before]
  split <;> try rfl
  split <;> rfl

section

variable {cut : Nat → Prop} {start : Nat} {c : Char} {rest : Text}

theorem all_ofStep (h : verbatimTag? (Lexeme.next c rest) = none) :
    all start (c :: rest) = ofStep start (Lexeme.next c rest) ::
      all (start + (Lexeme.next c rest).text.utf8Size) (Lexeme.next c rest).after := by
  rw [all, ofStep]
  cases hkind : (Lexeme.next c rest).kind with
  | startTag tag =>
    simp only
    by_cases hleaf : tag.name ∈ voidElements ∨ tag.selfClosing = true
    · rw [if_pos hleaf, if_pos (isLeaf_iff.2 hleaf)]
      rfl
    · have hverbatim : tag.name ∉ verbatimElements := by
        intro hmem
        rw [verbatimTag?_eq_some.2 ⟨hkind, hleaf, hmem⟩] at h
        cases h
      rw [if_neg hleaf, if_neg hverbatim, if_neg (mt isLeaf_iff.1 hleaf)]
      rfl
  | _ => rfl

theorem all_ofVerbatim {tag : StartTag} (h : verbatimTag? (Lexeme.next c rest) = some tag) :
    all start (c :: rest) =
      ofVerbatim tag ⟨start, (Lexeme.next c rest).text⟩
          (cutVerbatim tag.name (Lexeme.next c rest).after) ::
        all (start + (Lexeme.next c rest).text.utf8Size
            + (cutVerbatim tag.name (Lexeme.next c rest).after).content.utf8Size
            + ((cutVerbatim tag.name (Lexeme.next c rest).after).closing.getD []).utf8Size)
          (cutVerbatim tag.name (Lexeme.next c rest).after).after := by
  obtain ⟨hkind, hleaf, hverbatim⟩ := verbatimTag?_eq_some.1 h
  rw [all]
  simp only [hkind]
  exact (if_neg hleaf).trans (if_pos hverbatim)

/-- **The next piece of a source is read again with the same tag, whatever has been put in behind
it.** -/
theorem all_patched
    (hu : ∀ letter body, c = '<' → rest = letter :: body → Lexeme.isLetter letter = true →
      Lexeme.Unhidden cut (start + 2) none false body) :
    ∃ p stop after, all start (c :: rest) = p :: all stop after ∧
      Slice.Tile start p.slices stop ∧ Slice.join p.slices ++ after = c :: rest ∧
      ∀ start' after', Patched cut stop after after' → ∃ p' stop', p'.tag? = p.tag? ∧
        all start' (Slice.join p.slices ++ after') = p' :: all stop' after' := by
  have happ := Lexeme.next_append c rest
  have hne := Lexeme.next_text_ne_nil c rest
  cases hverbatim : verbatimTag? (Lexeme.next c rest) with
  | none =>
    refine ⟨_, _, _, all_ofStep hverbatim, ?_, ?_, ?_⟩
    · rw [ofStep_slices]
      exact Slice.tile_singleton hne
    · rw [ofStep_slices]
      simpa using happ
    · intro start' after' hp
      obtain ⟨rest', htext, hnext⟩ := Lexeme.next_patched hu hp
      have hsource : Slice.join (ofStep start (Lexeme.next c rest)).slices ++ after' =
          c :: rest' := by
        rw [ofStep_slices]
        simpa using htext
      rw [hsource, all_ofStep (by rw [hnext]; exact hverbatim), hnext]
      exact ⟨_, _, ofStep_tag? _ _ _ _, rfl⟩
  | some tag =>
    obtain ⟨htile, hjoin⟩ := tile_ofVerbatim tag
      (show (Slice.mk start (Lexeme.next c rest).text).text ≠ [] from hne) tag.name
      (Lexeme.next c rest).after
    refine ⟨_, _, _, all_ofVerbatim hverbatim, htile, hjoin.trans happ, ?_⟩
    intro start' after' hp
    have hnames : ∀ name ∈ verbatimElements, name.all (fun d => d ≠ '>') = true := by decide
    have hname := List.all_iff_forall_prop.1 (hnames _ (verbatimTag?_eq_some.1 hverbatim).2.2)
    have hcut := cutVerbatim_patched hname hp
    have hafter := cutVerbatim_append tag.name (Lexeme.next c rest).after
    generalize cutVerbatim tag.name (Lexeme.next c rest).after = v at htile hjoin hp hcut hafter
    have hp' : Patched cut (start + (Lexeme.next c rest).text.utf8Size) (Lexeme.next c rest).after
        (v.content ++ v.closing.getD [] ++ after') := by
      rw [← hafter]
      apply Patched.keep_append
      rw [utf8Size_append, ← Nat.add_assoc]
      exact hp
    obtain ⟨rest', htext, hnext⟩ := Lexeme.next_patched hu hp'
    have hsource : Slice.join (ofVerbatim tag ⟨start, (Lexeme.next c rest).text⟩ v).slices ++
        after' = c :: rest' := by
      rw [← hafter, ← List.append_assoc] at hjoin
      rw [List.append_cancel_right hjoin, ← htext]
      simp
    have hagain : verbatimTag? (Lexeme.next c rest') = some tag := by
      rw [hnext]
      exact hverbatim
    rw [hsource, all_ofVerbatim hagain, hnext]
    simp only [Lexeme.Step.before, hcut]
    refine ⟨_, _, ?_, rfl⟩
    rfl

theorem head?_of_tag? {t : Text} {p : Piece} {ps : List Piece} (h : all start t = p :: ps)
    (htag : p.tag?.isSome = true) : t.head? = some '<' := by
  cases t with
  | nil => rw [all_nil] at h; cases h
  | cons c rest =>
    by_cases hless : c = '<'
    · rw [hless]
      rfl
    · have hnext : Lexeme.next c rest =
          ⟨c :: rest.takeWhile (· != '<'), .text, rest.dropWhile (· != '<')⟩ := if_neg hless
      rw [all_ofStep (by rw [hnext]; rfl), hnext] at h
      cases h
      cases htag

/-- A `<` and a letter begin a start tag, or are broken off. -/
theorem attempt?_of_isLetter {letter : Char} {body : Text} {p : Piece} {ps : List Piece}
    (hl : Lexeme.isLetter letter = true) (h : all start ('<' :: letter :: body) = p :: ps) :
    p.attempt? = some start := by
  have hnext : Lexeme.next '<' (letter :: body) = Lexeme.startTag letter body :=
    Lexeme.markup_of_isLetter hl body
  cases hverbatim : verbatimTag? (Lexeme.next '<' (letter :: body)) with
  | some tag =>
    rw [all_ofVerbatim hverbatim] at h
    cases h
    rfl
  | none =>
    rw [all_ofStep hverbatim, hnext, Lexeme.startTag] at h
    split at h
    · simp only [ofStep] at h
      split at h <;> cases h <;> rfl
    · cases h
      simp [ofStep, attempt?, Slice.brokenTag?, hl]

/-- What is behind some pieces of a source is cut into the pieces behind them. -/
theorem all_split {t : Text} {ps qs : List Piece} (h : all start t = ps ++ qs) :
    ∃ after stop, t = Slice.join (ps.flatMap slices) ++ after ∧
      Slice.Tile start (ps.flatMap slices) stop ∧ all stop after = qs := by
  induction ps generalizing start t with
  | nil => exact ⟨t, start, rfl, rfl, h⟩
  | cons p ps ih =>
    cases t with
    | nil => rw [all_nil] at h; cases h
    | cons c rest =>
      obtain ⟨p', after, mid, hall, -, htile, happ⟩ := all_cons start c rest
      rw [hall, List.cons_append] at h
      obtain ⟨rfl, htail⟩ := List.cons.inj h
      obtain ⟨after', stop, rfl, htile', hrest⟩ := ih htail
      refine ⟨after', stop, ?_, ?_, hrest⟩
      · rw [← happ, List.flatMap_cons, Slice.join_append, List.append_assoc]
      · rw [List.flatMap_cons]
        exact Slice.tile_append.2 ⟨mid, htile, htile'⟩

end

end Piece

end RichContent
