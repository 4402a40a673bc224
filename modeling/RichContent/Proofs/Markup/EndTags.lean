/-
Which elements the end tags of a source close.

An end tag closes the innermost open element of its name, so of the elements
that it closes with it, for want of an end tag of their own, none has that name
(`Forest.openNames`); and an end tag that closes nothing has nothing around it
of its name. Growing a forest sees to both (`Forest.closes_grow`), whatever is
closed too early, twice or not at all.

An element whose content is taken as it stands ends with its own end tag or
with the source, and no other element without content has an end tag
(`Piece.Sound`).
-/
import RichContent.Proofs.Markup.Descendants
import RichContent.Proofs.Markup.Grown

namespace RichContent

open Text

/-! ## End tags -/

/-- The slice is an end tag with this name: `</`, a letter, and all up to the next `>`. The name
ends at a blank or a `/`, and the case of its letters does not matter. -/
def Slice.IsEndTag (s : Slice) (name : Text) : Prop :=
  ∃ letter inner, Lexeme.isLetter letter = true ∧ (∀ c ∈ inner, c ≠ '>') ∧
    s.text = '<' :: '/' :: letter :: inner ++ ['>'] ∧ Lexeme.endTagName (letter :: inner) = name

theorem Slice.IsEndTag.name_eq {s : Slice} {name name' : Text} (h : s.IsEndTag name)
    (h' : s.IsEndTag name') : name = name' := by
  obtain ⟨letter, inner, -, -, htext, rfl⟩ := h
  obtain ⟨letter', inner', -, -, htext', rfl⟩ := h'
  rw [htext] at htext'
  simp only [List.cons_append, List.cons.injEq, true_and] at htext'
  obtain ⟨rfl, hinner⟩ := htext'
  rw [List.append_cancel_right hinner]

namespace Lexeme

/-- What the text of a lexeme is like that is an end tag, or other markup that is no tag. -/
def Kind.SpelledBy (t : Text) : Kind → Prop
  | endTag name => ∀ start, (Slice.mk start t).IsEndTag name
  | comment | declaration | instruction => ∃ d u, t = '<' :: d :: u ∧ d ≠ '/'
  | _ => True

theorem spelledBy_toGreater {opening rest : Text} {kind : Text → Kind}
    (h : ∀ w, (∀ c ∈ w, c ≠ '>') → (kind w).SpelledBy (opening ++ (w ++ ['>']))) :
    (toGreater opening rest kind).kind.SpelledBy (toGreater opening rest kind).text := by
  rw [toGreater]
  cases hcut : cutAfterGreater rest with
  | none => exact trivial
  | some cut =>
    obtain ⟨before, after⟩ := cut
    obtain ⟨w, rfl, hw⟩ := cutAfterGreater_eq_some hcut
    simp only [List.dropLast_concat]
    exact h w hw

theorem spelledBy_next (c : Char) (rest : Text) :
    (next c rest).kind.SpelledBy (next c rest).text := by
  rw [next]
  split
  · rw [markup.eq_def]
    split
    · rw [comment]
      split
      · exact ⟨'!', _, rfl, by decide⟩
      · exact trivial
    · split
      · exact spelledBy_toGreater fun w _ => ⟨'!', _, rfl, by decide⟩
      · exact trivial
    · exact spelledBy_toGreater fun w _ => ⟨'?', _, rfl, by decide⟩
    · split
      · rename_i hd
        exact spelledBy_toGreater fun w hw _ => ⟨_, w, hd, hw, by simp, rfl⟩
      · exact trivial
    · split
      · rw [startTag]
        split <;> exact trivial
      · exact trivial
    · exact trivial
  · exact trivial

end Lexeme

/-! ## Sound pieces -/

theorem Text.isAlpha_of_toLower {c : Char} (h : c.toLower.isAlpha = true) : c.isAlpha = true := by
  unfold Char.toLower at h
  split at h
  · rename_i hc
    show (decide (c.val ≥ 'A'.val ∧ c.val ≤ 'Z'.val) || c.isLower) = true
    rw [decide_eq_true hc, Bool.true_or]
  · exact h

namespace Piece

section

variable {name : Text}

theorem isLetter_of_verbatimElements (h : name ∈ verbatimElements) :
    name ≠ [] ∧ ∀ c ∈ name, Lexeme.isLetter c = true := by
  have hnames : ∀ name ∈ verbatimElements, name ≠ [] ∧ name.all Lexeme.isLetter = true := by decide
  obtain ⟨hne, hall⟩ := hnames name h
  exact ⟨hne, List.all_eq_true.1 hall⟩

/-- What ends content taken as it stands begins with `</` and the name, in letters of any case. -/
theorem exists_front_of_endsVerbatim {t : Text} (h : endsVerbatim name t = true) :
    ∃ front behind, t = '<' :: '/' :: (front ++ behind) ∧ lower front = name ∧
      ∀ x ∈ behind.head?, isBlank x = true ∨ x = '>' ∨ x = '/' := by
  simp only [endsVerbatim, Bool.and_eq_true, beq_iff_eq] at h
  obtain ⟨hlower, hbehind⟩ := h
  obtain ⟨c, u, htake, hc, hu⟩ := List.map_eq_cons_iff.1 hlower
  obtain ⟨d, front, rfl, hd, hfront⟩ := List.map_eq_cons_iff.1 hu
  obtain rfl := eq_of_toLower (by decide) hc
  obtain rfl := eq_of_toLower (by decide) hd
  refine ⟨front, t.drop (name.length + 2), ?_, hfront, fun x hx => ?_⟩
  · rw [← List.cons_append, ← List.cons_append, ← htake, List.take_append_drop]
  · cases hdrop : t.drop (name.length + 2) with
    | nil =>
      rw [hdrop] at hx
      cases hx
    | cons y behind =>
      rw [hdrop] at hx hbehind
      cases hx
      simpa [or_assoc] using hbehind

/-- The text is an end tag of content taken as it stands: `</` and the name, in letters of any case,
behind it a blank, a `/` or the `>`, and nothing behind the first `>`. -/
def IsClosing (name tag : Text) : Prop :=
  ∃ front inner, tag = '<' :: '/' :: (front ++ inner) ++ ['>'] ∧ lower front = name ∧
    (∀ c ∈ inner, c ≠ '>') ∧ ∀ c ∈ inner.head?, isBlank c = true ∨ c = '/'

theorem isLetter_of_lower (hname : name ∈ verbatimElements) {front : Text}
    (h : lower front = name) : ∀ x ∈ front, Lexeme.isLetter x = true := by
  subst h
  exact fun x hx => isAlpha_of_toLower ((isLetter_of_verbatimElements hname).2 _
    (List.mem_map_of_mem hx))

/-- What ends content taken as it stands is an end tag of it, if there is a `>`. -/
theorem isClosing_of_endsVerbatim (hname : name ∈ verbatimElements) {t tag after : Text}
    (hends : endsVerbatim name t = true) (hcut : cutAfterGreater t = some (tag, after)) :
    IsClosing name tag := by
  obtain ⟨front, behind, rfl, hlower, hbehind⟩ := exists_front_of_endsVerbatim hends
  have happ := append_of_cutAfterGreater hcut
  obtain ⟨w, rfl, hw⟩ := cutAfterGreater_eq_some hcut
  -- the first `>` is behind the name
  obtain ⟨inner, rfl, rfl⟩ : ∃ inner, w = '<' :: '/' :: (front ++ inner) ∧
      behind = inner ++ '>' :: after := by
    rw [List.append_assoc, ← List.cons_append, ← List.cons_append] at happ
    rcases List.append_eq_append_iff.1 happ with ⟨u, hu, hbehind⟩ | ⟨inner, hw, hbehind⟩
    · cases u with
      | nil => exact ⟨[], by simpa using hu.symm, hbehind.symm⟩
      | cons x u =>
        obtain ⟨rfl, -⟩ := List.cons.inj hbehind
        have hmem : '>' ∈ '<' :: '/' :: front := hu ▸ List.mem_append_right w List.mem_cons_self
        simp only [List.mem_cons, Char.reduceEq, false_or] at hmem
        exact absurd rfl (Lexeme.ne_of_isLetter (isLetter_of_lower hname hlower _ hmem) (by decide))
    · exact ⟨inner, hw, hbehind⟩
  refine ⟨front, inner, rfl, hlower, fun c hc => hw c (by simp [hc]), ?_⟩
  cases inner with
  | nil => simp
  | cons x inner =>
    intro y hy
    obtain rfl := Option.some.inj hy
    have hx : x ≠ '>' := hw x (by simp)
    rcases hbehind x rfl with hblank | rfl | rfl
    · exact .inl hblank
    · exact absurd rfl hx
    · exact .inr rfl

theorem IsClosing.isEndTag (hname : name ∈ verbatimElements) {tag : Text}
    (h : IsClosing name tag) (start : Nat) : (Slice.mk start tag).IsEndTag name := by
  obtain ⟨front, inner, rfl, hlower, hinner, hhead⟩ := h
  have hfront := isLetter_of_lower hname hlower
  have hstop : inner.takeWhile (fun x => !isBlank x && x != '/') = [] := by
    cases inner with
    | nil => rfl
    | cons x inner =>
      rw [List.takeWhile_cons_of_neg]
      rcases hhead x rfl with hblank | rfl
      · simp [hblank]
      · simp
  have hgo : ∀ x ∈ front, (!isBlank x && x != '/') = true := by
    intro x hx
    have hslash : x ≠ '/' := Lexeme.ne_of_isLetter (hfront x hx) (by decide)
    simp [Lexeme.isBlank_of_isLetter (hfront x hx), hslash]
  have hend : Lexeme.endTagName (front ++ inner) = name := by
    rw [Lexeme.endTagName, List.takeWhile_append_of_pos hgo, hstop, List.append_nil, hlower]
  cases front with
  | nil => exact absurd hlower.symm (isLetter_of_verbatimElements hname).1
  | cons letter front =>
    refine ⟨letter, front ++ inner, hfront letter List.mem_cons_self, fun x hx => ?_, rfl, hend⟩
    rcases List.mem_append.1 hx with hx | hx
    · exact Lexeme.ne_of_isLetter (hfront x (List.mem_cons_of_mem _ hx)) (by decide)
    · exact hinner x hx

theorem isEndTag_of_cutVerbatim (hname : name ∈ verbatimElements) {t tag : Text}
    (h : (cutVerbatim name t).closing = some tag) (start : Nat) :
    (Slice.mk start tag).IsEndTag name := by
  induction t with
  | nil => cases h
  | cons c t ih =>
    rw [cutVerbatim] at h
    split at h
    · rename_i hends
      split at h
      · rename_i hcut
        cases h
        exact (isClosing_of_endsVerbatim hname hends hcut).isEndTag hname start
      · cases h
    · exact ih h

end

end Piece

/-- The tag opens an element with content that is lexed. -/
def StartTag.Nests (tag : StartTag) : Prop :=
  ¬ (tag.name ∈ Piece.voidElements ∨ tag.selfClosing = true) ∧ tag.name ∉ Piece.verbatimElements

instance (tag : StartTag) : Decidable tag.Nests := inferInstanceAs (Decidable (_ ∧ _))

namespace Piece

/-- What is known of a piece of a source that ends at byte `stop`: what kind its tag is of, which
end tag ends it, and that only an end tag looks like one. -/
def Sound (stop : Nat) : Piece → Prop
  | text _ => True
  | raw s => ∀ name, ¬ s.IsEndTag name
  | leaf tag _ => tag.name ∈ voidElements ∨ tag.selfClosing = true
  | verbatim tag s content close =>
    ¬ (tag.name ∈ voidElements ∨ tag.selfClosing = true) ∧ tag.name ∈ verbatimElements ∧
      (∀ c ∈ close, c.IsEndTag tag.name) ∧
      (close = none → (Node.element tag s (.verbatim content) close).slice.stop = stop)
  | opening tag _ => tag.Nests
  | closing name s => s.IsEndTag name

theorem sound_raw {t : Text} (h : ∃ d u, t = '<' :: d :: u ∧ d ≠ '/') (start stop : Nat) :
    (raw ⟨start, t⟩).Sound stop := by
  rintro name ⟨letter, inner, -, -, htext, -⟩
  obtain ⟨d, u, rfl, hd⟩ := h
  exact hd (List.cons.inj (List.cons.inj htext).2).1

theorem sound_ofStep {start stop : Nat} {c : Char} {rest : Text}
    (h : verbatimTag? (Lexeme.next c rest) = none) :
    (ofStep start (Lexeme.next c rest)).Sound stop := by
  have hspelled := Lexeme.spelledBy_next c rest
  rw [ofStep]
  cases hkind : (Lexeme.next c rest).kind with
  | text | loneLess | unfinished => exact trivial
  | comment | declaration | instruction =>
    rw [hkind] at hspelled
    exact sound_raw hspelled start stop
  | endTag name =>
    rw [hkind] at hspelled
    exact hspelled start
  | startTag tag =>
    by_cases hleaf : isLeaf tag = true
    · simp only [hleaf, if_true]
      exact isLeaf_iff.1 hleaf
    · simp only [hleaf]
      refine ⟨mt isLeaf_iff.2 hleaf, fun hverbatim => ?_⟩
      rw [verbatimTag?_eq_some.2 ⟨hkind, mt isLeaf_iff.2 hleaf, hverbatim⟩] at h
      cases h

theorem sound_ofVerbatim {start : Nat} {c : Char} {rest : Text} {tag : StartTag}
    (h : verbatimTag? (Lexeme.next c rest) = some tag) :
    (ofVerbatim tag ⟨start, (Lexeme.next c rest).text⟩
      (cutVerbatim tag.name (Lexeme.next c rest).after)).Sound
        (start + Text.utf8Size (c :: rest)) := by
  obtain ⟨-, hleaf, hverbatim⟩ := verbatimTag?_eq_some.1 h
  refine ⟨hleaf, hverbatim, fun s hs => ?_, fun hnone => ?_⟩
  · obtain ⟨t, ht, rfl⟩ := Option.map_eq_some_iff.1 hs
    exact isEndTag_of_cutVerbatim hverbatim ht _
  · -- without an end tag the content is all that is left
    have hne : (Slice.mk start (Lexeme.next c rest).text).text ≠ [] :=
      Lexeme.next_text_ne_nil c rest
    have htile := (tile_ofVerbatim tag hne tag.name (Lexeme.next c rest).after).1
    have hstop := (Node.slice_of_tile (Whole.verbatim.slices_eq ▸ htile)).2
    refine hstop.trans ?_
    rw [cutVerbatim_of_none (Option.map_eq_none_iff.1 hnone), ← Lexeme.next_append c rest]
    simp [Nat.add_assoc]

theorem sound_of_all (start : Nat) (t : Text) :
    ∀ p ∈ all start t, p.Sound (start + t.utf8Size) := by
  refine forall_mem_all (fun _ _ _ h => sound_ofStep h) (fun _ _ _ _ h hstop => ?_) start t rfl
  rw [← hstop]
  exact sound_ofVerbatim h

end Piece

/-! ## Elements that are left open -/

/-- The end tag of a node. -/
def Node.closing? : Node → Option Slice
  | element _ _ _ closing => closing
  | _ => none

namespace Forest

/-- The names of the elements that are open when a forest comes to its end: they have no end tag,
and nothing that they are in has one. -/
def openNames : Forest → List Text
  | nil => []
  | text _ rest | raw _ rest => rest.openNames
  | element tag _ children closing rest =>
    (if closing.isNone then (if tag.Nests then [tag.name] else []) ++ children.openNames else [])
      ++ rest.openNames

theorem openNames_verbatim (content : Slice) : (verbatim content).openNames = [] := by
  rw [verbatim]
  split <;> rfl

/-- In a forest that is in open elements of these names, of a source that ends at byte `stop`, every
end tag closes the innermost open element of its name, and closes nothing if there is none. -/
inductive Closes (stop : Nat) : (opened : List Text) → Forest → Prop
  | nil {opened : List Text} : Closes stop opened .nil
  | text {opened : List Text} {s : Slice} {rest : Forest} :
    Closes stop opened rest → Closes stop opened (.text s rest)
  | raw {opened : List Text} {s : Slice} {rest : Forest} :
    (∀ name ∈ opened, ¬ s.IsEndTag name) →
    Closes stop opened rest → Closes stop opened (.raw s rest)
  | leaf {opened : List Text} {tag : StartTag} {s : Slice} {rest : Forest} :
    tag.name ∈ Piece.voidElements ∨ tag.selfClosing = true →
    Closes stop opened rest → Closes stop opened (.element tag s .nil none rest)
  | verbatim {opened : List Text} {tag : StartTag} {s content : Slice} {closing : Option Slice}
    {rest : Forest} : (Piece.verbatim tag s content closing).Sound stop →
    Closes stop opened rest →
    Closes stop opened (.element tag s (verbatim content) closing rest)
  | closed {opened : List Text} {tag : StartTag} {s close : Slice} {children rest : Forest} :
    tag.Nests → close.IsEndTag tag.name → tag.name ∉ children.openNames →
    Closes stop (tag.name :: opened) children → Closes stop opened rest →
    Closes stop opened (.element tag s children (some close) rest)
  /-- What is left open takes in all that is behind it. -/
  | leftOpen {opened : List Text} {tag : StartTag} {s : Slice} {children : Forest} :
    tag.Nests → Closes stop (tag.name :: opened) children →
    Closes stop opened (.element tag s children none .nil)

/-- Growing a forest has every end tag close the right element. If the forest ends with an end tag,
no element of its name has been left open in it. -/
theorem closes_grow {stop : Nat} (opened : List Text) (pieces : List Piece)
    (h : ∀ p ∈ pieces, p.Sound stop) :
    (grow opened pieces).forest.Closes stop opened ∧
      ∀ name s rest, (grow opened pieces).ending = .endTag name s rest →
        name ∉ (grow opened pieces).forest.openNames ∧ s.IsEndTag name ∧
          ∀ p ∈ rest, p.Sound stop := by
  fun_induction grow opened pieces with
  | case1 => exact ⟨.nil, by rintro _ _ _ ⟨⟩⟩
  | case2 opened s rest ih =>
    obtain ⟨hcloses, hending⟩ := ih (List.forall_mem_cons.1 h).2
    exact ⟨.text hcloses, hending⟩
  | case3 opened s rest ih =>
    obtain ⟨hsound, hrest⟩ := List.forall_mem_cons.1 h
    obtain ⟨hcloses, hending⟩ := ih hrest
    exact ⟨.raw (fun name _ => hsound name) hcloses, hending⟩
  | case4 opened tag s rest ih =>
    obtain ⟨hleaf, hrest⟩ := List.forall_mem_cons.1 h
    obtain ⟨hcloses, hending⟩ := ih hrest
    refine ⟨.leaf hleaf hcloses, ?_⟩
    have hnests : ¬ tag.Nests := fun hnests => hnests.1 hleaf
    simpa [Growth.map, openNames, hnests] using hending
  | case5 opened tag s content close rest ih =>
    obtain ⟨hverbatim, hrest⟩ := List.forall_mem_cons.1 h
    obtain ⟨hcloses, hending⟩ := ih hrest
    refine ⟨.verbatim hverbatim hcloses, ?_⟩
    have hnests : ¬ tag.Nests := fun hnests => hnests.2 hverbatim.2.1
    simpa [Growth.map, openNames, openNames_verbatim, hnests] using hending
  | case6 opened name s rest _ =>
    obtain ⟨hend, hrest⟩ := List.forall_mem_cons.1 h
    refine ⟨.nil, ?_⟩
    rintro _ _ _ ⟨⟩
    exact ⟨List.not_mem_nil, hend, hrest⟩
  | case7 opened name s rest hstray ih =>
    obtain ⟨hend, hrest⟩ := List.forall_mem_cons.1 h
    obtain ⟨hcloses, hending⟩ := ih hrest
    refine ⟨.raw (fun outer houter heq => ?_) hcloses, hending⟩
    exact hstray (heq.name_eq hend ▸ houter)
  | case8 opened tag s rest children bound hc ih =>
    obtain ⟨hnests, hrest⟩ := List.forall_mem_cons.1 h
    obtain ⟨hcloses, -⟩ := ih hrest
    rw [hc] at hcloses
    exact ⟨.leftOpen hnests hcloses, by rintro _ _ _ ⟨⟩⟩
  | case9 opened tag s rest children close after g bound hc ihc ihr =>
    obtain ⟨hnests, hrest⟩ := List.forall_mem_cons.1 h
    obtain ⟨hcloses, hending⟩ := ihc hrest
    rw [hc] at hcloses hending
    obtain ⟨hopen, hend, hafter⟩ := hending _ _ _ rfl
    obtain ⟨hrest', hending'⟩ := ihr hafter
    refine ⟨.closed hnests hend hopen hcloses hrest', ?_⟩
    simpa [openNames] using hending'
  | case10 opened tag s rest children name close after bound hc hne ih =>
    obtain ⟨hnests, hrest⟩ := List.forall_mem_cons.1 h
    obtain ⟨hcloses, hending⟩ := ih hrest
    rw [hc] at hcloses hending
    obtain ⟨hopen, hend, hafter⟩ := hending _ _ _ rfl
    refine ⟨.leftOpen hnests hcloses, ?_⟩
    rintro _ _ _ ⟨⟩
    exact ⟨by simp [openNames, hne, hopen], hend, hafter⟩

theorem closes_parse (source : Text) : (parse source).Closes source.utf8Size [] := by
  have h := Piece.sound_of_all 0 source
  rw [Nat.zero_add] at h
  exact (closes_grow [] _ h).1

/-! ## The nodes of such a forest -/

section

variable {stop : Nat} {f : Forest} {n : NodeId} {ancestors : List (NodeId × StartTag)}
  {q : Position}

/-- Every node of such a forest is one by itself, in what is around it. -/
theorem Closes.of_mem (h : f.Closes stop (ancestors.map (·.2.name)))
    (hq : q ∈ f.positions n ancestors) :
    (q.node.onto .nil).Closes stop (q.ancestors.map (·.2.name)) := by
  generalize hopened : ancestors.map (·.2.name) = opened at h
  induction h generalizing n ancestors with
  | nil => exact absurd hq List.not_mem_nil
  | text _ ih =>
    rcases List.mem_cons.1 hq with rfl | hq
    · exact .text .nil
    · exact ih hq hopened
  | raw hs _ ih =>
    subst hopened
    rcases List.mem_cons.1 hq with rfl | hq
    · exact .raw hs .nil
    · exact ih hq rfl
  | leaf htag _ ih =>
    rcases List.mem_cons.1 hq with rfl | hq
    · exact .leaf htag .nil
    · exact ih hq hopened
  | @verbatim _ _ _ content _ _ hsound _ ih =>
    rw [positions_element] at hq
    rcases List.mem_cons.1 hq with rfl | hq
    · exact .verbatim hsound .nil
    rcases List.mem_append.1 hq with hq | hq
    · rw [Forest.verbatim] at hq
      split at hq
      · exact absurd hq List.not_mem_nil
      · rw [positions_text, positions_nil, List.mem_singleton] at hq
        subst hq
        exact .text .nil
    · exact ih hq hopened
  | closed htag hend hopen hchildren _ ihc ihr =>
    subst hopened
    rw [positions_element] at hq
    rcases List.mem_cons.1 hq with rfl | hq
    · exact .closed htag hend hopen hchildren .nil
    rcases List.mem_append.1 hq with hq | hq
    · exact ihc hq rfl
    · exact ihr hq rfl
  | leftOpen htag hchildren ih =>
    subst hopened
    rw [positions_element] at hq
    rcases List.mem_cons.1 hq with rfl | hq
    · exact .leftOpen htag hchildren
    rcases List.mem_append.1 hq with hq | hq
    · exact ih hq rfl
    · exact absurd hq List.not_mem_nil

/-- An element without an end tag is left open, unless it is in one that has an end tag. -/
theorem openNames_of_mem (hq : q ∈ f.positions n ancestors) {tag : StartTag} {opening : Slice}
    {children : Forest} (hnode : q.node = .element tag opening children none) (htag : tag.Nests) :
    tag.name ∈ f.openNames ∨ ∃ r ∈ f.positions n ancestors,
      r.id ∈ q.ancestors.map (·.1) ∧ r.node.closing?.isSome = true := by
  induction f generalizing n ancestors with
  | nil => exact absurd hq List.not_mem_nil
  | text s rest ih | raw s rest ih =>
    rcases List.mem_cons.1 hq with rfl | hq
    · cases hnode
    · rcases ih hq with hopen | ⟨r, hr, hclosed⟩
      · exact .inl hopen
      · exact .inr ⟨r, List.mem_cons_of_mem _ hr, hclosed⟩
  | element tag' opening' children' closing rest ihc ihr =>
    rw [positions_element] at hq ⊢
    rcases List.mem_cons.1 hq with rfl | hq
    · cases hnode
      exact .inl (by simp [openNames, htag])
    rcases List.mem_append.1 hq with hbelow | hrest
    · cases closing with
      | some close =>
        refine .inr ⟨_, List.mem_cons_self, ?_, rfl⟩
        exact List.mem_map_of_mem (mem_ancestors hbelow)
      | none =>
        rcases ihc hbelow with hopen | ⟨r, hr, hclosed⟩
        · exact .inl (by simp [openNames, hopen])
        · exact .inr ⟨r, List.mem_cons_of_mem _ (List.mem_append_left _ hr), hclosed⟩
    · rcases ihr hrest with hopen | ⟨r, hr, hclosed⟩
      · exact .inl (by simp [openNames, hopen])
      · exact .inr ⟨r, List.mem_cons_of_mem _ (List.mem_append_right _ hr), hclosed⟩

end

end Forest

namespace Document

variable {source : Text} {p q : Position}

/-- Every node of a source is a forest in which end tags close the right elements. -/
theorem closes_of_mem (hp : p ∈ (parse source).nodes) :
    (p.node.onto .nil).Closes source.utf8Size (p.ancestors.map (·.2.name)) :=
  (Forest.closes_parse source).of_mem (n := 0) hp

theorem isEndTag_of_node {tag : StartTag} {opening close : Slice} {children : Forest}
    (hp : p ∈ (parse source).nodes)
    (hnode : p.node = .element tag opening children (some close)) : close.IsEndTag tag.name := by
  have h := closes_of_mem hp
  rw [hnode, Node.onto] at h
  cases h with
  | verbatim hsound _ => exact hsound.2.2.1 close rfl
  | closed _ hend _ _ _ => exact hend

theorem name_ne_of_stray {s : Slice} {name : Text} {tag : StartTag}
    (hp : p ∈ (parse source).nodes) (hnode : p.node = .raw s) (hend : s.IsEndTag name)
    (hq : q ∈ (parse source).nodes) (hencloses : (parse source).Encloses q.id p)
    (htag : q.node.tag? = some tag) : tag.name ≠ name := by
  have h := closes_of_mem hp
  rw [hnode, Node.onto] at h
  cases h with
  | raw hs _ =>
    rintro rfl
    obtain ⟨_, _, _, hq'⟩ := Node.tag?_eq_some.1 htag
    have hbelow := (mem_positions_children hq hq').2 ⟨hp, hencloses⟩
    exact hs tag.name (List.mem_map_of_mem (Forest.mem_ancestors hbelow)) hend

/-- An end tag closes no element that is around an open element of its name. -/
theorem closed_of_same_name {tag inner : StartTag} {opening close : Slice} {children : Forest}
    (hp : p ∈ (parse source).nodes)
    (hnode : p.node = .element tag opening children (some close))
    (hverbatim : tag.name ∉ Piece.verbatimElements) (hq : q ∈ (parse source).nodes)
    (hencloses : (parse source).Encloses p.id q) (htag : q.node.tag? = some inner)
    (hname : inner.name = tag.name) (hinner : inner.Nests) :
    q.node.closing?.isSome = true ∨ ∃ r ∈ (parse source).nodes,
      (parse source).Encloses p.id r ∧ (parse source).Encloses r.id q ∧
        r.node.closing?.isSome = true := by
  have h := closes_of_mem hp
  rw [hnode, Node.onto] at h
  have hopen : tag.name ∉ children.openNames := by
    cases h with
    | verbatim hsound _ => exact absurd hsound.2.1 hverbatim
    | closed _ _ hopen _ _ => exact hopen
  have hbelow := (mem_positions_children hp hnode).2 ⟨hq, hencloses⟩
  obtain ⟨_, _, closing, hq'⟩ := Node.tag?_eq_some.1 htag
  cases closing with
  | some close' => exact .inl (by rw [hq']; rfl)
  | none =>
    rcases Forest.openNames_of_mem hbelow hq' hinner with hmem | ⟨r, hr, hmem, hclosed⟩
    · exact absurd (hname ▸ hmem) hopen
    · obtain ⟨hr, hpr⟩ := (mem_positions_children hp hnode).1 hr
      exact .inr ⟨r, hr, hpr, (encloses_iff hq).2 hmem, hclosed⟩

/-- What has no content that is lexed has no element in it, and no end tag but its own. -/
theorem content_of_node {tag : StartTag} {opening : Slice} {children : Forest}
    {closing : Option Slice} (hp : p ∈ (parse source).nodes)
    (hnode : p.node = .element tag opening children closing) :
    (tag.name ∈ Piece.voidElements ∨ tag.selfClosing = true → children = .nil ∧ closing = none) ∧
    (tag.name ∈ Piece.verbatimElements →
      (children = .nil ∨ ∃ s, children = .text s .nil) ∧
      (closing = none → tag.selfClosing = true ∨ p.node.slice.stop = source.utf8Size)) := by
  have h := closes_of_mem hp
  rw [hnode, Node.onto] at h
  rw [hnode]
  cases h with
  | leaf hleaf _ =>
    refine ⟨fun _ => ⟨rfl, rfl⟩, fun hverbatim => ⟨.inl rfl, fun _ => .inl ?_⟩⟩
    have hnames : ∀ name ∈ Piece.verbatimElements, name ∉ Piece.voidElements := by decide
    exact hleaf.resolve_left (hnames _ hverbatim)
  | @verbatim _ _ _ content _ _ hsound _ =>
    obtain ⟨hleaf, -, -, hstop⟩ := hsound
    refine ⟨fun hleaf' => absurd hleaf' hleaf, fun _ => ⟨?_, fun hnone => .inr (hstop hnone)⟩⟩
    rw [Forest.verbatim]
    split
    · exact .inl rfl
    · exact .inr ⟨content, rfl⟩
  | closed htag _ _ _ _ | leftOpen htag _ =>
    exact ⟨fun hleaf => absurd hleaf htag.1, fun hverbatim => absurd hverbatim htag.2⟩

/-- **Every end tag closes the innermost open element of its name, and closes nothing if there is
none.** An end tag has the name of the element that it closes; one that closes nothing is in no
element of its name. In an element that is closed by an end tag every element of the same name is
closed too, or is in one in it that is. Elements that cannot have content have none and no end tag;
one whose content is taken as it stands has at most text in it, and lacks an end tag only if it
closes itself or the source ends first. -/
theorem parse_endTags (source : Text) :
    let d := parse source
    (∀ p ∈ d.nodes, ∀ tag opening children close,
      p.node = .element tag opening children (some close) → close.IsEndTag tag.name) ∧
    (∀ p ∈ d.nodes, ∀ s name, p.node = .raw s → s.IsEndTag name →
      ∀ q ∈ d.nodes, d.Encloses q.id p → ∀ tag, q.node.tag? = some tag → tag.name ≠ name) ∧
    (∀ p ∈ d.nodes, ∀ tag opening children close,
      p.node = .element tag opening children (some close) → tag.name ∉ Piece.verbatimElements →
      ∀ q ∈ d.nodes, d.Encloses p.id q → ∀ inner, q.node.tag? = some inner →
        inner.name = tag.name → inner.Nests → q.node.closing?.isSome = true ∨
          ∃ r ∈ d.nodes, d.Encloses p.id r ∧ d.Encloses r.id q ∧ r.node.closing?.isSome = true) ∧
    ∀ p ∈ d.nodes, ∀ tag opening children closing,
      p.node = .element tag opening children closing →
      (tag.name ∈ Piece.voidElements ∨ tag.selfClosing = true → children = .nil ∧ closing = none) ∧
      (tag.name ∈ Piece.verbatimElements →
        (children = .nil ∨ ∃ s, children = .text s .nil) ∧
        (closing = none → tag.selfClosing = true ∨ p.node.slice.stop = source.utf8Size)) :=
  ⟨fun _ hp _ _ _ _ hnode => isEndTag_of_node hp hnode,
    fun _ hp _ _ hnode hend _ hq hencloses _ htag =>
      name_ne_of_stray hp hnode hend hq hencloses htag,
    fun _ hp _ _ _ _ hnode hverbatim _ hq hencloses _ htag hname hinner =>
      closed_of_same_name hp hnode hverbatim hq hencloses htag hname hinner,
    fun _ hp _ _ _ _ hnode => content_of_node hp hnode⟩

/-- An element closed by the end tag of one around it, two end tags that close nothing, and content
taken as it stands that the source ends in. -/
theorem parse_endTags_crossed :
    let source := "<b><i><b></i></u></B ><br></b><style>c".toList
    let d := parse source
    let b : StartTag := ⟨['b'], [], false⟩
    let inner : Position :=
      ⟨2, [(1, ⟨['i'], [], false⟩), (0, b)], .element b ⟨6, "<b>".toList⟩ .nil none⟩
    let stray : Position := ⟨3, [(0, b)], .raw ⟨13, "</u>".toList⟩⟩
    let outer : Position := ⟨0, [], .element b ⟨0, "<b>".toList⟩
      (.element ⟨['i'], [], false⟩ ⟨3, "<i>".toList⟩ (.element b ⟨6, "<b>".toList⟩ .nil none .nil)
        (some ⟨9, "</i>".toList⟩) (.raw ⟨13, "</u>".toList⟩ .nil)) (some ⟨17, "</B >".toList⟩)⟩
    let style : Position := ⟨6, [], .element ⟨"style".toList, [], false⟩ ⟨30, "<style>".toList⟩
      (.text ⟨37, ['c']⟩ .nil) none⟩
    outer ∈ d.nodes ∧ inner ∈ d.nodes ∧ stray ∈ d.nodes ∧ style ∈ d.nodes ∧
      (Slice.mk 17 "</B >".toList).IsEndTag ['b'] ∧
      (Slice.mk 13 "</u>".toList).IsEndTag ['u'] ∧ d.Encloses 0 stray ∧ b.name ≠ ['u'] ∧
      d.Encloses 0 inner ∧ (∃ r ∈ d.nodes, d.Encloses 0 r ∧ d.Encloses r.id inner ∧
        r.node.closing?.isSome = true) ∧
      style.node.slice.stop = Text.utf8Size source := by
  intro source d b inner stray outer style
  obtain ⟨hend, hstray, hsame, hcontent⟩ := parse_endTags source
  have houter : outer ∈ d.nodes := by decide +kernel
  have hinner : inner ∈ d.nodes := by decide +kernel
  have hstray' : stray ∈ d.nodes := by decide +kernel
  have hstyle : style ∈ d.nodes := by decide +kernel
  have hu : (Slice.mk 13 "</u>".toList).IsEndTag ['u'] :=
    ⟨'u', [], by decide, List.forall_mem_nil _, rfl, by decide⟩
  have hinside : d.Encloses 0 inner := (encloses_iff hinner).2 (by decide)
  have hinside' : d.Encloses 0 stray := (encloses_iff hstray').2 (by decide)
  refine ⟨houter, hinner, hstray', hstyle, hend outer houter _ _ _ _ rfl, hu, hinside',
    hstray stray hstray' _ _ rfl hu outer houter hinside' b rfl, hinside, ?_, ?_⟩
  · exact (hsame outer houter _ _ _ _ rfl (by decide) inner hinner hinside b rfl rfl
      (by decide)).resolve_left (by decide)
  · exact (((hcontent style hstyle _ _ _ _ rfl).2 (by decide)).2 rfl).resolve_left (by decide)

end Document

end RichContent
