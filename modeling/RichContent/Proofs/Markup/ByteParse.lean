/-
Parsing, writing and extracting, with every cut that is made by bytes.

A source is cut into lexemes and into content that is taken as it stands, and a
forest has only the places of its slices: to write a node, each of them is cut
out of the source again. A slice of a parsed forest is what stands in the source
at its place, whatever has been replaced (`Forest.in_of_mem_slices`), so all of
this succeeds, and gives what is parsed and written without a cut
(`Document.cuts_succeed`).
-/
import RichContent.Proofs.Markup.ByteLexing
import RichContent.Proofs.Markup.Grown
import RichContent.Proofs.Markup.Lossless
import RichContent.Proofs.Markup.Verbatim
import RichContent.Proofs.Editor.Stages

namespace RichContent

open Text

theorem mapM_of_eq_some {α β : Type} {f : α → Option β} {g : α → β} {l : List α}
    (h : ∀ x ∈ l, f x = some (g x)) : l.mapM f = some (l.map g) := by
  induction l with
  | nil => rfl
  | cons x l ih =>
    obtain ⟨hx, hl⟩ := List.forall_mem_cons.1 h
    rw [List.mapM_cons, hx, ih hl]
    rfl

/-! ## Pieces -/

namespace Piece

/-- Cuts off content that is taken as it stands, and its end tag. -/
def verbatim? (name t : Text) : Option Verbatim :=
  (extent? name t).bind fun extent =>
    (split? extent.1 t).bind fun content =>
      (split? extent.2 content.2).map fun closing =>
        ⟨content.1, if extent.2 = 0 then none else some closing.1, closing.2⟩

theorem length_after_of_verbatim? {name t : Text} {v : Verbatim} (h : verbatim? name t = some v) :
    v.after.length ≤ t.length := by
  obtain ⟨extent, -, h⟩ := Option.bind_eq_some_iff.1 h
  obtain ⟨⟨content, rest⟩, hcontent, h⟩ := Option.bind_eq_some_iff.1 h
  obtain ⟨⟨closing, after⟩, hclosing, rfl⟩ := Option.map_eq_some_iff.1 h
  obtain ⟨rfl, -⟩ := split?_eq_some.1 hcontent
  obtain ⟨rfl, -⟩ := split?_eq_some.1 hclosing
  simp only [List.length_append]
  omega

theorem verbatim?_eq {name : Text} (hname : name ∈ verbatimElements) (t : Text) :
    verbatim? name t = some (cutVerbatim name t) := by
  have happ := cutVerbatim_append name t
  have hne := @closing_ne_nil name t
  rw [verbatim?, extent?_eq hname t, Option.bind_some]
  generalize cutVerbatim name t = v at happ hne
  obtain ⟨content, closing, after⟩ := v
  subst happ
  simp only [List.append_assoc, split?_append, Option.bind_some, Option.map_some]
  cases closing with
  | none => rfl
  | some tag =>
    have hpos := utf8Size_pos (hne rfl)
    rw [Option.getD_some, if_neg (Nat.ne_of_gt hpos)]

/-- The pieces of a source whose first byte is number `start`. -/
def all? (start : Nat) : Text → Option (List Piece)
  | [] => some []
  | c :: rest =>
    match _hstep : Lexeme.next? c rest with
    | none => none
    | some step =>
      match verbatimTag? step with
      | none =>
        (all? (start + step.text.utf8Size) step.after).map fun pieces => ofStep start step :: pieces
      | some tag =>
        match _hcut : verbatim? tag.name step.after with
        | none => none
        | some v =>
          (all? (start + step.text.utf8Size + v.content.utf8Size
            + (v.closing.getD []).utf8Size) v.after).map fun pieces =>
              ofVerbatim tag ⟨start, step.text⟩ v :: pieces
termination_by t => t.length
decreasing_by
  all_goals
    rw [Lexeme.next?_eq] at _hstep
    have hstep := Lexeme.length_next_after c rest
    rw [Option.some.inj _hstep] at hstep
    rw [List.length_cons]
  · omega
  · have hcut := length_after_of_verbatim? _hcut
    omega

/-- **A source is cut into its pieces without a cut that fails.** -/
theorem all?_eq (start : Nat) (t : Text) : all? start t = some (all start t) := by
  fun_induction all? start t with
  | case1 start => rw [all_nil]
  | case2 start c rest hnext =>
    rw [Lexeme.next?_eq] at hnext
    cases hnext
  | case3 start c rest step hnext htag ih =>
    rw [Lexeme.next?_eq] at hnext
    cases hnext
    rw [ih, all_ofStep htag]
    rfl
  | case4 start c rest step hnext tag htag hcut =>
    rw [verbatim?_eq (verbatimTag?_eq_some.1 htag).2.2] at hcut
    cases hcut
  | case5 start c rest step hnext tag htag v hcut ih =>
    rw [Lexeme.next?_eq] at hnext
    cases hnext
    rw [verbatim?_eq (verbatimTag?_eq_some.1 htag).2.2] at hcut
    cases hcut
    rw [ih, all_ofVerbatim htag]
    rfl

end Piece

/-! ## Writing -/

/-- What is written for the parts of a forest by their places in the source. -/
structure Cutter where
  text : Slice → Option Text
  raw : Slice → Option Text
  tag : Slice → Option Text
  fragment : Fragment → Text

namespace Cutter

/-- What stands in the source at the place of a slice. -/
def at? (source : Text) (s : Slice) : Option Text := cut? s.start s.stop source

/-- The markup itself. -/
def html (source : Text) : Cutter := ⟨at? source, at? source, at? source, Fragment.html⟩

/-- The text that a reader sees; tags are not looked at for it. -/
def plain (source : Text) : Cutter :=
  ⟨fun s => (at? source s).bind decode?, fun _ => some [], fun _ => some [], Fragment.text⟩

/-- What is written for a tag that may be absent. -/
def tag? (c : Cutter) : Option Slice → Option Text
  | some s => c.tag s
  | none => some []

/-- What is cut out of the source is written as the view shows it. -/
structure Shows (c : Cutter) (v : View) (source : Text) : Prop where
  text : ∀ s : Slice, s.In source → c.text s = some (v.text s.text)
  raw : ∀ s : Slice, s.In source → c.raw s = some (v.raw s.text)
  tag : ∀ s : Slice, s.In source → c.tag s = some (v.tag s.text)
  fragment : c.fragment = v.fragment

theorem at?_eq {source : Text} {s : Slice} (h : s.In source) : at? source s = some s.text := by
  obtain ⟨front, back, rfl, hstart⟩ := h
  exact cut?_eq_some.2 ⟨front, back, rfl, by rw [← hstart]; rfl⟩

theorem shows_html (source : Text) : (html source).Shows .html source :=
  ⟨fun _ => at?_eq, fun _ => at?_eq, fun _ => at?_eq, rfl⟩

theorem shows_plain (source : Text) : (plain source).Shows .plain source where
  text s h := by
    have hcut := at?_eq h
    simp only [plain, hcut, Option.bind_some, decode?_eq]
    rfl
  raw _ _ := rfl
  tag _ _ := rfl
  fragment := rfl

end Cutter

/-- One text and then another. -/
def Text.append? (s t : Option Text) : Option Text := s.bind fun front => t.map (front ++ ·)

@[simp] theorem Text.append?_some (s t : Text) : append? (some s) (some t) = some (s ++ t) := rfl

namespace Forest

/-- Writes a forest whose first node has number `n`, from its source. -/
def write? (c : Cutter) (replaced : Replacements) (n : NodeId) : Forest → Option Text
  | nil => some []
  | text s rest =>
    append? ((replaced n).elim (c.text s) fun f => some (c.fragment f))
      (rest.write? c replaced (n + 1))
  | raw s rest =>
    append? ((replaced n).elim (c.raw s) fun f => some (c.fragment f))
      (rest.write? c replaced (n + 1))
  | element _ opening children closing rest =>
    append?
      (match replaced n with
        | some f => some (c.fragment f)
        | none => append? (append? (c.tag opening) (children.write? c replaced (n + 1)))
            (c.tag? closing))
      (rest.write? c replaced (n + 1 + children.size))

/-- A forest of slices of the source is written without a cut that fails. -/
theorem write?_eq {c : Cutter} {v : View} {source : Text} (hc : c.Shows v source)
    (replaced : Replacements) (n : NodeId) {f : Forest} (hf : ∀ s ∈ f.slices, s.In source) :
    f.write? c replaced n = some (f.write v replaced n) := by
  have hfragment := hc.fragment
  induction f generalizing n with
  | nil => rfl
  | text s rest ih =>
    obtain ⟨hs, hrest⟩ := List.forall_mem_cons.1 hf
    rw [write?, write, ih _ hrest, hc.text s hs]
    cases replaced n <;> simp [hfragment]
  | raw s rest ih =>
    obtain ⟨hs, hrest⟩ := List.forall_mem_cons.1 hf
    rw [write?, write, ih _ hrest, hc.raw s hs]
    cases replaced n <;> simp [hfragment]
  | element tag opening children closing rest ihc ihr =>
    obtain ⟨hnode, hrest⟩ := List.forall_mem_append.1 hf
    obtain ⟨htags, hclosing⟩ := List.forall_mem_append.1 hnode
    obtain ⟨hopening, hchildren⟩ := List.forall_mem_cons.1 htags
    have hend : c.tag? closing = some (v.tag? closing) := by
      cases closing with
      | none => rfl
      | some s => exact hc.tag s (hclosing s (by simp))
    rw [write?, write, ihr _ hrest]
    cases replaced n with
    | some g => simp [hfragment]
    | none =>
      dsimp only
      rw [hc.tag opening hopening, ihc _ hchildren, hend]
      rfl

/-- **Every slice of a parsed forest is what stands in the source at its place.** -/
theorem in_of_mem_slices {source : Text} {s : Slice} (h : s ∈ (parse source).slices) :
    s.In source := by
  obtain ⟨htile, hjoin⟩ := parse_tile source
  obtain ⟨l, r, hslices⟩ := List.append_of_mem h
  have hrun : (parse source).slices = l ++ [s] ++ r := by simp [hslices]
  rw [hrun] at htile hjoin
  obtain ⟨a, c, ⟨rfl, -, -⟩, hin⟩ := htile.run_in
  rw [hjoin] at hin
  simpa using hin

end Forest

/-! ## Documents -/

namespace Node

theorem slices_onto (m : Node) (rest : Forest) : (m.onto rest).slices = m.slices ++ rest.slices := by
  cases m <;> rfl

theorem slices_children (m : Node) : m.children.slices ⊆ m.slices := by
  cases m with
  | text | raw => exact List.nil_subset _
  | element tag opening children closing =>
    exact fun s hs => List.mem_append_left _ (List.mem_cons_of_mem _ hs)

end Node

namespace Document

/-- Parses a source. -/
def parse? (source : Text) : Option Document :=
  (Piece.all? 0 source).map fun pieces => ⟨source, (Forest.grow [] pieces).forest, []⟩

theorem parse?_eq (source : Text) : parse? source = some (parse source) := by
  rw [parse?, Piece.all?_eq]
  rfl

variable (d : Document) (p : Position)

/-- The markup of the document, from its source. -/
def html? : Option Text := d.forest.write? (.html d.source) d.replacement? 0

/-- The markup of a node from the source of the document, its own tags included. -/
def outerHtml? : Option Text := (p.node.onto .nil).write? (.html d.source) d.replacement? p.id

/-- The markup of what is below a node, from the source of the document. -/
def innerHtml? : Option Text :=
  match d.replacement? p.id with
  | some _ => some []
  | none => p.node.children.write? (.html d.source) d.replacement? (p.id + 1)

/-- The text of a node, from the source of the document. -/
def textOf? : Option Text := (p.node.onto .nil).write? (.plain d.source) d.replacement? p.id

/-- Reads a node; only the attributes are read without the source. -/
def entity? (names : List Text) : Option Entity :=
  (d.outerHtml? p).bind fun raw =>
    (d.innerHtml? p).bind fun inner =>
      (d.textOf? p).map fun text => ⟨raw, inner, text, (d.entity names p).attributes⟩

/-- The slices of a document are what stands in its source. -/
def InSource : Prop := ∀ s ∈ d.forest.slices, s.In d.source

theorem inSource_replaceAll (source : Text) (rs : List (NodeId × Fragment)) :
    ((parse source).replaceAll rs).InSource := by
  rw [replaceAll_eq]
  exact fun s hs => Forest.in_of_mem_slices hs

section

variable {d p}

theorem InSource.html?_eq (h : d.InSource) : d.html? = some d.html := by
  rw [html?, Forest.write?_eq (Cutter.shows_html d.source) _ _ h, html, write_eq]

theorem InSource.node (h : d.InSource) (hp : p ∈ d.nodes) : ∀ s ∈ p.node.slices, s.In d.source :=
  fun s hs => h s ((Forest.slices_infix hp).subset hs)

/-- A node is written without a cut that fails. -/
theorem InSource.write?_onto (h : d.InSource) (hp : p ∈ d.nodes) {c : Cutter} {v : View}
    (hc : c.Shows v d.source) :
    (p.node.onto .nil).write? c d.replacement? p.id = some (p.node.write v d.replacement? p.id) := by
  have hslices : ∀ s ∈ (p.node.onto .nil).slices, s.In d.source := by
    rw [Node.slices_onto]
    simpa [Forest.slices] using h.node hp
  rw [Forest.write?_eq hc _ _ hslices, Node.write_onto]
  simp [Forest.write]

theorem InSource.outerHtml?_eq (h : d.InSource) (hp : p ∈ d.nodes) :
    d.outerHtml? p = some (d.outerHtml p) := h.write?_onto hp (Cutter.shows_html d.source)

theorem InSource.textOf?_eq (h : d.InSource) (hp : p ∈ d.nodes) :
    d.textOf? p = some (d.textOf p) := h.write?_onto hp (Cutter.shows_plain d.source)

theorem InSource.innerHtml?_eq (h : d.InSource) (hp : p ∈ d.nodes) :
    d.innerHtml? p = some (d.innerHtml p) := by
  have hchildren : ∀ s ∈ p.node.children.slices, s.In d.source := fun s hs =>
    h.node hp s (p.node.slices_children hs)
  rw [innerHtml?, innerHtml]
  cases d.replacement? p.id with
  | some f => rfl
  | none =>
    dsimp only
    rw [Forest.write?_eq (Cutter.shows_html d.source) _ _ hchildren, Forest.writeThen_eq,
      List.append_nil]

theorem InSource.entity?_eq (h : d.InSource) (hp : p ∈ d.nodes) (names : List Text) :
    d.entity? p names = some (d.entity names p) := by
  rw [entity?, h.outerHtml?_eq hp, h.innerHtml?_eq hp, h.textOf?_eq hp]
  rfl

end

/-! ## Extracting -/

/-- What the elements hold that a selector picks out, all of it from the source. A selector that
cannot be read is an error and no cut. -/
def extract? (content selector : Text) (names : List Text) :
    Option (Except EditorError (List Entity)) :=
  match Selector.read selector with
  | .error e => some (.error e)
  | .ok s =>
    (parse? content).bind fun d => ((d.select s).mapM (d.entity? · names)).map .ok

theorem extract?_eq (content selector : Text) (names : List Text) :
    extract? content selector names = some (extract content selector names) := by
  rw [extract?, extract]
  cases Selector.read selector with
  | error e => rfl
  | ok s =>
    have hin : (parse content).InSource := inSource_replaceAll content []
    have hsub : ((parse content).select s).Sublist (parse content).nodes := List.filter_sublist
    have hentities := mapM_of_eq_some (l := (parse content).select s) fun p hp =>
      hin.entity?_eq (hsub.subset hp) names
    simp only [parse?_eq, Option.bind_some, hentities, Option.map_some, Except.map, entities,
      List.map_map]
    rfl

/-- **No text makes a cut by bytes fail, and none makes the scan of attributes stay where it is.** A
cut fails nowhere but at places that are out of order, behind the end or inside a character. From a
boundary a round of the scan ends at one, farther on if there is a next round; and start tags, the
names of end tags, what is decoded, the parsed document, the markup and the text of its nodes after
any replacements, and what is extracted are what they are without cuts. -/
theorem cuts_succeed (t : Text) :
    (∀ n, (behind? n t).isSome = true ↔ Bounds t n) ∧
    (∀ start stop, (cut? start stop t).isSome = true ↔
      start ≤ stop ∧ Bounds t start ∧ Bounds t stop) ∧
    (∀ pos, Bounds t pos → pos ≤ t.utf8Size ∧ ∃ r, Attribute.round? t pos = some r ∧
      ∀ next, r.next? = some next → pos < next ∧ Bounds t next) ∧
    Attribute.attributes? t = some (Attribute.keepFirst [] (Attribute.scan t)) ∧
    StartTag.parse? t = some (StartTag.parse t) ∧
    decode? t = some (decode t) ∧
    (∀ x ∈ Lexeme.all 0 t, ∀ name, x.kind = .endTag name →
      Lexeme.endTagName? x.slice.text = some name) ∧
    parse? t = some (parse t) ∧
    (∀ rs, let d := (parse t).replaceAll rs
      d.html? = some d.html ∧ ∀ p ∈ d.nodes, d.outerHtml? p = some (d.outerHtml p) ∧
        d.innerHtml? p = some (d.innerHtml p) ∧ d.textOf? p = some (d.textOf p)) ∧
    ∀ selector names, extract? t selector names = some (extract t selector names) := by
  refine ⟨fun n => ?_, fun start stop => isSome_cut?, fun pos hpos => ⟨hpos.le, ?_⟩,
    Attribute.attributes?_eq t, StartTag.parse?_eq t, decode?_eq t,
    fun x hx name hname => Lexeme.endTagName?_of_mem_all hx hname, parse?_eq t,
    fun rs => ?_, extract?_eq t⟩
  · rw [Option.isSome_iff_exists, bounds_iff_behind?]
  · obtain ⟨rest, hrest⟩ := bounds_iff_behind?.1 hpos
    obtain ⟨r, hr, hreads⟩ := Attribute.exists_round hrest
    exact ⟨r, hr, fun next hnext => ⟨(Attribute.lt_of_round? hr hnext).1,
      bounds_iff_behind?.2 (hreads.exists_behind hnext)⟩⟩
  · have hin := inSource_replaceAll t rs
    exact ⟨hin.html?_eq, fun p hp => ⟨hin.outerHtml?_eq hp, hin.innerHtml?_eq hp, hin.textOf?_eq hp⟩⟩

/-- A stray `=`, a value whose quote is never closed, and characters of more than one byte. -/
theorem cuts_succeed_unclosed :
    let attributes := " é=ü = x='&é;".toList
    let t := '<' :: 'p' :: attributes ++ ">é&amp;</p é>".toList
    Bounds attributes 6 ∧
      (∃ r, Attribute.round? attributes 6 = some r ∧
        ∀ next, r.next? = some next → 6 < next ∧ Bounds attributes next) ∧
      Attribute.attributes? attributes =
        some [⟨['é'], some ['ü']⟩, ⟨['x'], some "&é;".toList⟩] ∧
      extract? t ['p'] [['x']] =
        some (.ok [⟨t, "é&amp;".toList, "é&".toList, [(['x'], some "&é;".toList)]⟩]) := by
  intro attributes t
  obtain ⟨-, -, hrounds, hattributes, -⟩ := cuts_succeed attributes
  obtain ⟨-, -, -, -, -, -, -, -, -, hextract⟩ := cuts_succeed t
  have hbounds : Bounds attributes 6 := ⟨" é=ü".toList, " = x='&é;".toList, by decide, by decide⟩
  refine ⟨hbounds, (hrounds 6 hbounds).2, hattributes.trans (by decide +kernel), ?_⟩
  exact (hextract ['p'] [['x']]).trans (by decide +kernel)

end Document

end RichContent
