/-
A document with replacements, written and cut into pieces again.

Where elements have been replaced, the pieces of a source fall into stretches:
a piece that is kept, or the pieces of an element with the fragment in its
place (`Forest.Cut`). When what was written is cut into pieces again, each
piece that was kept comes out with the tag it had, and each fragment as its own
pieces (`relexed_all`).
-/
import RichContent.Proofs.Markup.Grown

namespace RichContent

open Text

/-! ## Stretches -/

/-- A stretch of a source in which elements have been replaced. -/
inductive Stretch where
  | kept (p : Piece)
  /-- The pieces of a node, and what has taken its place. -/
  | swapped (p : Position) (run : List Piece) (f : Fragment)

namespace Stretch

/-- The pieces of the source. -/
def pieces : Stretch → List Piece
  | kept p => [p]
  | swapped _ run _ => run

/-- What is written. -/
def html : Stretch → Text
  | kept p => Slice.join p.slices
  | swapped _ _ f => f.html

/-- The node that has been replaced, and by what. -/
def replaced? : Stretch → Option (Position × Fragment)
  | kept _ => none
  | swapped p _ f => some (p, f)

end Stretch

namespace Forest

variable {replaced : Replacements} {n : NodeId} {ancestors : List (NodeId × StartTag)}
  {f rest : Forest} {ps : List Piece} {l : List Stretch}

/-- The nodes that are reached from the top. -/
def reached (replaced : Replacements) (n : NodeId) (ancestors : List (NodeId × StartTag))
    (f : Forest) : List Position :=
  f.walk (fun id => (replaced id).isSome) n ancestors

/-- The pieces of a forest cut into stretches, as nodes have been replaced in it. -/
structure Cut (replaced : Replacements) (n : NodeId) (ancestors : List (NodeId × StartTag))
    (f : Forest) (ps : List Piece) (l : List Stretch) : Prop where
  pieces : l.flatMap Stretch.pieces = ps
  html : l.flatMap Stretch.html = f.write .html replaced n
  nodes : l.filterMap Stretch.replaced? =
    (f.reached replaced n ancestors).filterMap fun p => (replaced p.id).map (p, ·)
  /-- A replaced node is an element, and the pieces are its own. -/
  swapped : ∀ p run fragment, .swapped p run fragment ∈ l →
    run.flatMap Piece.slices = p.node.slices ∧ ∃ q run', run = q :: run' ∧ q.tag?.isSome = true
  /-- A piece that is kept is or begins a node that is kept, unless it is an end tag. -/
  kept : ∀ q, .kept q ∈ l → (q.tag? = none ∧ q.attempt? = none) ∨
    ∃ p ∈ f.reached replaced n ancestors, replaced p.id = none ∧
      q.tag? = p.node.tag? ∧ q.attempt? = p.node.attempt?

theorem cut_nil : Cut replaced n ancestors .nil [] [] :=
  ⟨rfl, rfl, rfl, by simp, by simp⟩

theorem cut_swapped {m : Node} {run : List Piece} {fragment : Fragment}
    (hn : replaced n = some fragment) (hrun : run.flatMap Piece.slices = m.slices)
    (hfirst : ∃ q run', run = q :: run' ∧ q.tag?.isSome = true)
    (h : Cut replaced (n + m.size) ancestors rest ps l) :
    Cut replaced n ancestors (m.onto rest) (run ++ ps)
      (.swapped ⟨n, ancestors, m⟩ run fragment :: l) := by
  have hwalk : (m.onto rest).reached replaced n ancestors =
      ⟨n, ancestors, m⟩ :: rest.reached replaced (n + m.size) ancestors := by
    rw [reached, Node.walk_onto, hn]
    rfl
  have hwrite : m.write .html replaced n = fragment.html := by
    cases m <;> simp [Node.write, hn]
  refine ⟨?_, ?_, ?_, ?_, ?_⟩
  · rw [List.flatMap_cons, h.pieces]
    rfl
  · rw [List.flatMap_cons, h.html, Node.write_onto, hwrite]
    rfl
  · rw [hwalk, List.filterMap_cons, List.filterMap_cons, hn, ← h.nodes]
    rfl
  · intro p run' fragment' hmem
    rcases List.mem_cons.1 hmem with heq | hmem
    · cases heq
      exact ⟨hrun, hfirst⟩
    · exact h.swapped _ _ _ hmem
  · intro q hmem
    rcases List.mem_cons.1 hmem with heq | hmem
    · cases heq
    · rcases h.kept q hmem with hnone | ⟨p, hp, hkept⟩
      · exact .inl hnone
      · exact .inr ⟨p, hwalk ▸ List.mem_cons_of_mem _ hp, hkept⟩

/-- Only elements have been replaced. -/
def ElementsOnly (replaced : Replacements) (l : List Position) : Prop :=
  ∀ p ∈ l, (replaced p.id).isSome = true → p.node.tag?.isSome = true

/-- Where nodes have given way to what they are written as, nothing is changed. -/
theorem write_of_same (h : ∀ p ∈ f.reached replaced n ancestors, ∀ fragment,
    replaced p.id = some fragment → fragment.html = Slice.join p.node.slices) :
    f.write .html replaced n = Slice.join f.slices := by
  induction f generalizing n ancestors with
  | nil => rfl
  | text s rest ih | raw s rest ih =>
    obtain ⟨hn, hrest⟩ := List.forall_mem_cons.1 h
    rw [write, slices, ih hrest]
    cases hr : replaced n with
    | none => simp
    | some fragment => simp [hn fragment hr, Node.slices]
  | element tag opening children closing rest ihc ihr =>
    obtain ⟨hn, hbelow⟩ := List.forall_mem_cons.1 h
    have hrest := ihr fun p hp => hbelow p (List.mem_append_right _ hp)
    rw [write, slices, hrest]
    cases hr : replaced n with
    | none =>
      simp only [hr, Option.isSome_none, Bool.false_eq_true, if_false] at hbelow
      have hchildren := ihc fun p hp => hbelow p (List.mem_append_left _ hp)
      cases closing <;> simp [hchildren]
    | some fragment => simp [hn fragment hr, Node.slices]

theorem cut_whole {p : Piece} {m : Node} (hp : p.Whole m) (hn : replaced n = none)
    (honly : ElementsOnly replaced ((m.onto rest).reached replaced n ancestors))
    (h : Cut replaced (n + m.size) ancestors rest ps l) :
    Cut replaced n ancestors (m.onto rest) (p :: ps) (.kept p :: l) := by
  have hwalk : (m.onto rest).reached replaced n ancestors = ⟨n, ancestors, m⟩ ::
      (m.below (fun id => (replaced id).isSome) n ancestors ++
        rest.reached replaced (n + m.size) ancestors) := by
    rw [reached, Node.walk_onto, hn]
    rfl
  have hbelow : ∀ q ∈ m.below (fun id => (replaced id).isSome) n ancestors,
      replaced q.id = none := by
    intro q hq
    have hmem : q ∈ (m.onto rest).reached replaced n ancestors := by
      rw [hwalk]
      exact List.mem_cons_of_mem _ (List.mem_append_left _ hq)
    rw [← Option.not_isSome_iff_eq_none]
    intro hsome
    have htag := honly q hmem hsome
    rw [hp.tag?_of_below hq] at htag
    cases htag
  have hwrite : m.write .html replaced n = Slice.join p.slices := by
    rw [hp.slices_eq]
    cases m with
    | text s | raw s => simp [Node.write, Node.slices, hn]
    | element tag opening children closing =>
      have hchildren := @write_of_same replaced (n + 1) ((n, tag) :: ancestors) children
        fun q hq fragment hsome => by rw [hbelow q hq] at hsome; cases hsome
      rw [Node.write_element, hn, hchildren]
      cases closing <;> simp [Node.slices]
  refine ⟨?_, ?_, ?_, ?_, ?_⟩
  · rw [List.flatMap_cons, h.pieces]
    rfl
  · rw [List.flatMap_cons, h.html, Node.write_onto, hwrite]
    rfl
  · have hnil : (m.below (fun id => (replaced id).isSome) n ancestors).filterMap
        (fun q => (replaced q.id).map (q, ·)) = [] :=
      List.filterMap_eq_nil_iff.2 fun q hq => by rw [hbelow q hq]; rfl
    rw [List.filterMap_cons_none rfl, hwalk, List.filterMap_cons_none (by rw [hn]; rfl),
      List.filterMap_append, hnil, List.nil_append, h.nodes]
  · intro q run fragment hmem
    rcases List.mem_cons.1 hmem with heq | hmem
    · cases heq
    · exact h.swapped _ _ _ hmem
  · intro q hmem
    rw [hwalk]
    rcases List.mem_cons.1 hmem with heq | hmem
    · cases heq
      exact .inr ⟨_, List.mem_cons_self, hn, hp.tag?_eq, hp.attempt?_eq⟩
    · rcases h.kept q hmem with hnone | ⟨r, hr, hkept⟩
      · exact .inl hnone
      · exact .inr ⟨r, List.mem_cons_of_mem _ (List.mem_append_right _ hr), hkept⟩

theorem cut_around {tag : StartTag} {s : Slice} {children : Forest} {closing : Option Slice}
    {cs : List Piece} {lc : List Stretch} (hn : replaced n = none)
    (hc : Cut replaced (n + 1) ((n, tag) :: ancestors) children cs lc)
    (h : Cut replaced (n + 1 + children.size) ancestors rest ps l) :
    Cut replaced n ancestors (.element tag s children closing rest)
      (.opening tag s :: cs ++ Piece.closers tag closing ++ ps)
      (.kept (.opening tag s) :: lc ++ (Piece.closers tag closing).map .kept ++ l) := by
  have hwalk : (element tag s children closing rest).reached replaced n ancestors =
      ⟨n, ancestors, .element tag s children closing⟩ ::
        (children.reached replaced (n + 1) ((n, tag) :: ancestors) ++
          rest.reached replaced (n + 1 + children.size) ancestors) := by
    rw [reached, walk, hn]
    rfl
  refine ⟨?_, ?_, ?_, ?_, ?_⟩
  · rw [← hc.pieces, ← h.pieces]
    simp [Stretch.pieces, List.flatMap_map]
  · rw [write, hn, ← hc.html, ← h.html]
    cases closing <;> simp [Stretch.html, Piece.closers, Piece.slices]
  · rw [hwalk, List.filterMap_cons_none (by rw [hn]; rfl)]
    simp only [List.filterMap_append]
    rw [← hc.nodes, ← h.nodes, List.filterMap_cons_none rfl]
    simp [Stretch.replaced?, Piece.closers, List.filterMap_map]
  · intro q run fragment hmem
    simp only [List.cons_append, List.mem_cons, List.mem_append, List.mem_map, reduceCtorEq,
      and_false, exists_false, or_false, false_or] at hmem
    rcases hmem with hmem | hmem
    · exact hc.swapped _ _ _ hmem
    · exact h.swapped _ _ _ hmem
  · intro q hmem
    rw [hwalk]
    simp only [List.cons_append, List.mem_cons, List.mem_append, List.mem_map, Stretch.kept.injEq,
      exists_eq_right] at hmem
    rcases hmem with rfl | (hmem | hmem) | hmem
    · exact .inr ⟨_, List.mem_cons_self, hn, rfl, rfl⟩
    · rcases hc.kept q hmem with hnone | ⟨r, hr, hkept⟩
      · exact .inl hnone
      · exact .inr ⟨r, List.mem_cons_of_mem _ (List.mem_append_left _ hr), hkept⟩
    · obtain ⟨s', -, rfl⟩ := List.mem_map.1 hmem
      exact .inl ⟨rfl, rfl⟩
    · rcases h.kept q hmem with hnone | ⟨r, hr, hkept⟩
      · exact .inl hnone
      · exact .inr ⟨r, List.mem_cons_of_mem _ (List.mem_append_right _ hr), hkept⟩

/-- The pieces of a forest can be cut into stretches. -/
theorem Grown.exists_cut (h : f.Grown ps) (n : NodeId) (ancestors : List (NodeId × StartTag))
    (honly : ElementsOnly replaced (f.reached replaced n ancestors)) :
    ∃ l, Cut replaced n ancestors f ps l := by
  induction h generalizing n ancestors with
  | nil => exact ⟨[], cut_nil⟩
  | @whole p m rest ps hp _ ih =>
    have hwalk := m.walk_onto rest (fun id => (replaced id).isSome) n ancestors
    obtain ⟨l, hl⟩ := ih (n + m.size) ancestors fun q hq => honly q (by
      rw [reached, hwalk]
      exact List.mem_cons_of_mem _ (List.mem_append_right _ hq))
    cases hn : replaced n with
    | none => exact ⟨_, cut_whole hp hn honly hl⟩
    | some fragment =>
      have htag := honly ⟨n, ancestors, m⟩ (by
        rw [reached, hwalk]
        exact List.mem_cons_self) (by rw [hn]; rfl)
      rw [← hp.tag?_eq] at htag
      have hrun : [p].flatMap Piece.slices = m.slices := by simpa using hp.slices_eq
      exact ⟨_, cut_swapped hn hrun ⟨p, [], rfl, htag⟩ hl⟩
  | @element tag s children rest closing cs ps hc _ ihc ihr =>
    obtain ⟨l, hl⟩ := ihr (n + (1 + children.size)) ancestors fun q hq => honly q (by
      rw [reached, walk, Nat.add_assoc]
      exact List.mem_cons_of_mem _ (List.mem_append_right _ hq))
    cases hn : replaced n with
    | none =>
      obtain ⟨lc, hlc⟩ := ihc (n + 1) ((n, tag) :: ancestors) fun q hq => honly q (by
        rw [reached, walk, hn]
        exact List.mem_cons_of_mem _ (List.mem_append_left _ hq))
      rw [← Nat.add_assoc] at hl
      exact ⟨_, cut_around hn hlc hl⟩
    | some fragment =>
      have hrun : (.opening tag s :: cs ++ Piece.closers tag closing).flatMap Piece.slices =
          (Node.element tag s children closing).slices := by
        rw [Node.slices, ← hc.slices_eq]
        cases closing <;> simp [Piece.closers, Piece.slices]
      exact ⟨_, cut_swapped (m := .element tag s children closing) hn hrun ⟨_, _, rfl, rfl⟩ hl⟩

end Forest

/-! ## Cutting what is written into pieces again -/

/-- The markup of a fragment is cut into the same pieces whatever stands behind it. -/
def Fragment.Closed (f : Fragment) : Prop :=
  ∀ start r, Piece.all start (f.html ++ r) =
    Piece.all start f.html ++ Piece.all (start + f.html.utf8Size) r

theorem Fragment.closed_of_all {f : Fragment} {ps : Nat → List Piece}
    (h : ∀ start r, Piece.all start (f.html ++ r) =
      ps start ++ Piece.all (start + f.html.utf8Size) r) :
    f.Closed ∧ ∀ start, Piece.all start f.html = ps start := by
  have halone (start : Nat) : Piece.all start f.html = ps start := by
    have hall := h start []
    rw [List.append_nil, Piece.all_nil, List.append_nil] at hall
    exact hall
  refine ⟨fun start r => ?_, halone⟩
  rw [h, halone]

/-- Nothing is put in where a tag that begins at byte `b` of a source, and has no end, would
hide it. -/
def Clear (source : Text) (cut : Nat → Prop) (b : Nat) : Prop :=
  ∀ u body, source = u ++ body → u.utf8Size = b + 2 →
    Lexeme.Unhidden cut (b + 2) none false body

/-- Stretches of a source that can be written and cut into pieces again. -/
structure Stretch.Steady (source : Text) (cut : Nat → Prop) (l : List Stretch) : Prop where
  swapped : ∀ p run f, .swapped p run f ∈ l → run.flatMap Piece.slices = p.node.slices ∧
    (∃ q run', run = q :: run' ∧ q.tag?.isSome = true) ∧ cut p.node.start ∧ Fits f.html ∧ f.Closed
  kept : ∀ p, .kept p ∈ l → ∀ b, p.attempt? = some b → Clear source cut b

/-- The pieces of what is written for some stretches. -/
inductive Relexed : List Stretch → List Piece → Prop
  | nil : Relexed [] []
  | kept {p p' : Piece} {l : List Stretch} {ps : List Piece} : p'.tag? = p.tag? → Relexed l ps →
    Relexed (.kept p :: l) (p' :: ps)
  | swapped {p : Position} {run : List Piece} {f : Fragment} {l : List Stretch} {ps : List Piece}
    (start : Nat) : Relexed l ps →
    Relexed (.swapped p run f :: l) (Piece.all start f.html ++ ps)

namespace Stretch

variable {source : Text} {cut : Nat → Prop} {x : Stretch} {l : List Stretch} {n : Nat} {t : Text}

theorem Steady.of_cons (h : Steady source cut (x :: l)) : Steady source cut l :=
  ⟨fun p run f hmem => h.swapped p run f (List.mem_cons_of_mem _ hmem),
    fun p hmem => h.kept p (List.mem_cons_of_mem _ hmem)⟩

theorem eq_nil_of_all (h : Piece.all n t = []) : t = [] := by
  cases t with
  | nil => rfl
  | cons c rest =>
    obtain ⟨p, after, stop, hall, -⟩ := Piece.all_cons n c rest
    rw [h] at hall
    cases hall

/-- What is written is the source with the fragments put in. -/
theorem patched_html (h : Steady source cut l) (hl : l.flatMap pieces = Piece.all n t) :
    Patched cut n t (l.flatMap html) := by
  induction l generalizing n t with
  | nil =>
    obtain rfl := eq_nil_of_all hl.symm
    exact .nil
  | cons x l ih =>
    obtain ⟨after, stop, rfl, htile, hrest⟩ := Piece.all_split hl.symm
    have hafter := ih h.of_cons hrest.symm
    rw [htile.stop_eq] at hafter
    cases x with
    | kept p =>
      simp only [pieces, List.flatMap_cons, List.flatMap_nil, List.append_nil] at hafter ⊢
      exact hafter.keep_append
    | swapped p run f =>
      obtain ⟨hrun, ⟨q, run', hq, htag⟩, hcut, hfits, -⟩ := h.swapped p run f List.mem_cons_self
      simp only [pieces] at htile hafter hl ⊢
      rw [List.flatMap_cons, html]
      have hhead : (Slice.join (run.flatMap Piece.slices)).head? = some '<' := by
        have hall : Piece.all n (Slice.join (run.flatMap Piece.slices) ++ after) =
            q :: (run' ++ l.flatMap pieces) := by
          rw [← hl, List.flatMap_cons, pieces, hq]
          rfl
        have hfirst := Piece.head?_of_tag? hall htag
        rw [List.head?_append_of_ne_nil] at hfirst
        · exact hfirst
        · rw [hrun] at htile ⊢
          exact Node.join_slices_ne_nil htile
      have hstart : p.node.start = n := by
        rw [hrun] at htile
        exact (Node.slice_of_tile htile).1
      exact .swap (hstart ▸ hcut) hhead hfits hafter

/-- Nothing is put in where the tag that a kept piece begins with would hide it. -/
theorem Steady.unhidden {p : Piece} {ps : List Piece} (h : Steady source cut (.kept p :: l))
    {u body : Text} {letter : Char} (hsource : source = u ++ '<' :: letter :: body)
    (hn : u.utf8Size = n) (hletter : Lexeme.isLetter letter = true)
    (hl : Piece.all n ('<' :: letter :: body) = p :: ps) :
    Lexeme.Unhidden cut (n + 2) none false body := by
  have hattempt := Piece.attempt?_of_isLetter hletter hl
  have hsize : utf8Size ['<', letter] = 2 := by
    rw [utf8Size_cons, utf8Size_cons, Lexeme.utf8Size_of_isLetter hletter]
    rfl
  refine h.kept p List.mem_cons_self n hattempt (u ++ ['<', letter]) body ?_ ?_
  · rw [hsource]
    simp
  · rw [utf8Size_append, hn, hsize]

/-- **What is written for the stretches of a source is cut into pieces as the source was, up to
the fragments that have been put in.** -/
theorem relexed_all (h : Steady source cut l) {u : Text} (hsource : source = u ++ t)
    (hn : u.utf8Size = n) (hl : l.flatMap pieces = Piece.all n t) (start : Nat) :
    Relexed l (Piece.all start (l.flatMap html)) := by
  induction l generalizing u n t start with
  | nil =>
    rw [List.flatMap_nil, Piece.all_nil]
    exact .nil
  | cons x l ih =>
    cases x with
    | swapped p run f =>
      obtain ⟨after, stop, rfl, htile, hrest⟩ := Piece.all_split hl.symm
      obtain ⟨-, -, -, -, hclosed⟩ := h.swapped p run f List.mem_cons_self
      rw [List.flatMap_cons, html, hclosed]
      apply Relexed.swapped start
      apply ih h.of_cons _ _ hrest.symm
      · exact u ++ Slice.join (run.flatMap Piece.slices)
      · rw [List.append_assoc]
        exact hsource
      · rw [utf8Size_append, hn, htile.stop_eq]
        rfl
    | kept p =>
      rw [List.flatMap_cons, pieces, List.singleton_append] at hl
      cases t with
      | nil => rw [Piece.all_nil] at hl; cases hl
      | cons c rest =>
        have hclear : ∀ letter body, c = '<' → rest = letter :: body →
            Lexeme.isLetter letter = true → Lexeme.Unhidden cut (n + 2) none false body := by
          rintro letter body rfl rfl hletter
          exact h.unhidden hsource hn hletter hl.symm
        obtain ⟨p', stop, after, hall, htile, happ, hreread⟩ :=
          @Piece.all_patched cut n c rest hclear
        rw [hall] at hl
        obtain ⟨rfl, hrest⟩ := List.cons.inj hl
        obtain ⟨p', stop', htag, hread⟩ :=
          hreread start _ (patched_html h.of_cons hrest)
        rw [List.flatMap_cons, html, hread]
        apply Relexed.kept htag
        apply ih h.of_cons _ _ hrest
        · exact u ++ Slice.join p.slices
        · rw [List.append_assoc, happ]
          exact hsource
        · rw [utf8Size_append, hn, htile.stop_eq]

end Stretch

end RichContent
