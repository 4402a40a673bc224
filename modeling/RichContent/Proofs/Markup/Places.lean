/-
Where the nodes of a forest are in what is written for it.

While nothing is replaced each node writes one stretch of the whole, its place
(`places`), whatever is written: the markup, or the text for a reader. Once
nodes are replaced the whole is written with one edit for each of them that is
reached, at its place (`splice_editsAt`), and these edits come in order and do
not overlap (`editsAt_apart`).
-/
import RichContent.Proofs.Markup.Positions
import RichContent.Proofs.Text.Splice

namespace RichContent

open Text

/-! ## What is written while nothing is replaced -/

/-- What is written for a forest in which nothing is replaced. -/
def Forest.fresh (v : View) : Forest → Text
  | nil => []
  | text s rest => v.text s.text ++ rest.fresh v
  | raw s rest => v.raw s.text ++ rest.fresh v
  | element _ opening children closing rest =>
    v.tag opening.text ++ children.fresh v ++ v.tag? closing ++ rest.fresh v

/-- What is written for a node in which nothing is replaced. -/
def Node.fresh (v : View) : Node → Text
  | text s => v.text s.text
  | raw s => v.raw s.text
  | element _ opening children closing => v.tag opening.text ++ children.fresh v ++ v.tag? closing

theorem Forest.write_none (v : View) (f : Forest) (n : NodeId) :
    f.write v (fun _ => none) n = f.fresh v := by
  induction f generalizing n with
  | nil => rfl
  | text s rest ih | raw s rest ih => simp [write, fresh, ih]
  | element tag opening children closing rest ihc ihr => simp [write, fresh, ihc, ihr]

theorem Node.write_none (v : View) (node : Node) (n : NodeId) :
    node.write v (fun _ => none) n = node.fresh v := by
  cases node with
  | text s | raw s => rfl
  | element tag opening children closing => rw [write_element, Forest.write_none, fresh]

/-- The edit that puts a fragment in a place. -/
def View.edit (v : View) (place : Slice) (f : Fragment) : Edit := ⟨place.span, v.fragment f⟩

/-- What was written in a place stays, or gives way to a fragment. -/
theorem View.splice_edit (v : View) (place : Slice) (replacement : Option Fragment) (t : Text)
    {later : List Edit}
    (hl : ∀ e ∈ later, place.stop ≤ e.span.start ∧ e.span.start ≤ e.span.stop) :
    splice place.start (place.text ++ t) ((replacement.map (v.edit place)).toList ++ later)
      = replacement.elim place.text v.fragment ++ splice place.stop t later := by
  cases replacement with
  | none => exact splice_keep t hl
  | some f => exact Text.splice_edit place.start place.text t (v.fragment f) later

/-- What is in front of some edits and what is between them and later ones stays. -/
theorem Text.splice_between {a : Nat} {front inner inner' back t : Text} {edits more : List Edit}
    (hfront : ∀ e ∈ edits ++ more, a + front.utf8Size ≤ e.span.start ∧ e.span.start ≤ e.span.stop)
    (hinner : splice (a + front.utf8Size) (inner ++ (back ++ t)) (edits ++ more) =
      inner' ++ splice (a + front.utf8Size + inner.utf8Size) (back ++ t) more)
    (hmore : ∀ e ∈ more, a + front.utf8Size + inner.utf8Size + back.utf8Size ≤ e.span.start ∧
      e.span.start ≤ e.span.stop) :
    splice a (front ++ inner ++ back ++ t) (edits ++ more) =
      front ++ inner' ++ back ++ splice (a + (front ++ inner ++ back).utf8Size) t more := by
  calc splice a (front ++ inner ++ back ++ t) (edits ++ more)
    _ = splice a (front ++ (inner ++ (back ++ t))) (edits ++ more) := by
      simp only [List.append_assoc]
    _ = front ++ splice (a + front.utf8Size) (inner ++ (back ++ t)) (edits ++ more) :=
      splice_keep _ hfront
    _ = front ++ (inner' ++ (back ++
          splice (a + front.utf8Size + inner.utf8Size + back.utf8Size) t more)) := by
      rw [hinner, splice_keep _ hmore]
    _ = _ := by simp [Nat.add_assoc]

namespace Forest

/-! ## Places -/

/-- The nodes of a forest that is written from byte `a` on, each with its place. -/
def places (v : View) (a : Nat) (n : NodeId) (ancestors : List (NodeId × StartTag)) :
    Forest → List (Position × Slice)
  | nil => []
  | text s rest =>
    let place : Slice := ⟨a, v.text s.text⟩
    (⟨n, ancestors, .text s⟩, place) :: rest.places v place.stop (n + 1) ancestors
  | raw s rest =>
    let place : Slice := ⟨a, v.raw s.text⟩
    (⟨n, ancestors, .raw s⟩, place) :: rest.places v place.stop (n + 1) ancestors
  | element tag opening children closing rest =>
    let node : Node := .element tag opening children closing
    let place : Slice := ⟨a, node.fresh v⟩
    (⟨n, ancestors, node⟩, place) ::
      (children.places v (a + (v.tag opening.text).utf8Size) (n + 1) ((n, tag) :: ancestors)
        ++ rest.places v place.stop (n + 1 + children.size) ancestors)

variable {v : View} {a : Nat} {n : NodeId} {ancestors : List (NodeId × StartTag)} {f : Forest}

/-- Every node has one place. -/
theorem map_fst_places (v : View) (a : Nat) (n : NodeId) (ancestors : List (NodeId × StartTag))
    (f : Forest) : (f.places v a n ancestors).map (·.1) = f.positions n ancestors := by
  induction f generalizing a n ancestors with
  | nil => rfl
  | text s rest ih | raw s rest ih => simp [places, ih]
  | element tag opening children closing rest ihc ihr => simp [places, ihc, ihr]

/-- The place of a node is a stretch of what is written for the forest. -/
theorem places_in {x : Position × Slice} (h : x ∈ f.places v a n ancestors) :
    ∃ before after, f.fresh v = before ++ x.2.text ++ after ∧ x.2.start = a + before.utf8Size := by
  induction f generalizing a n ancestors with
  | nil => exact absurd h List.not_mem_nil
  | text s rest ih =>
    rcases List.mem_cons.1 h with rfl | h
    · exact ⟨[], rest.fresh v, rfl, rfl⟩
    · obtain ⟨before, after, hsplit, hstart⟩ := ih h
      exact ⟨v.text s.text ++ before, after,
        by rw [fresh, hsplit]; simp, by simp [hstart, Nat.add_assoc]⟩
  | raw s rest ih =>
    rcases List.mem_cons.1 h with rfl | h
    · exact ⟨[], rest.fresh v, rfl, rfl⟩
    · obtain ⟨before, after, hsplit, hstart⟩ := ih h
      exact ⟨v.raw s.text ++ before, after,
        by rw [fresh, hsplit]; simp, by simp [hstart, Nat.add_assoc]⟩
  | element tag opening children closing rest ihc ihr =>
    rcases List.mem_cons.1 h with rfl | h
    · exact ⟨[], rest.fresh v, rfl, rfl⟩
    rcases List.mem_append.1 h with h | h
    · obtain ⟨before, after, hsplit, hstart⟩ := ihc h
      exact ⟨v.tag opening.text ++ before, after ++ v.tag? closing ++ rest.fresh v,
        by rw [fresh, hsplit]; simp, by simp [hstart, Nat.add_assoc]⟩
    · obtain ⟨before, after, hsplit, hstart⟩ := ihr h
      exact ⟨(Node.element tag opening children closing).fresh v ++ before, after,
        by rw [fresh, hsplit]; simp [Node.fresh], by simp [hstart, Nat.add_assoc]⟩

/-- The places of the nodes are where the forest is written. -/
theorem places_within {x : Position × Slice} (h : x ∈ f.places v a n ancestors) :
    a ≤ x.2.start ∧ x.2.stop ≤ a + (f.fresh v).utf8Size := by
  obtain ⟨before, after, hsplit, hstart⟩ := places_in h
  rw [hsplit, utf8Size_append, utf8Size_append, Slice.stop, hstart]
  omega

/-! ## Edits -/

/-- The edits that replacements make in what is written for a forest, one for each replaced node
that is reached. -/
def editsAt (v : View) (place : Position → Slice) (replaced : Replacements) (n : NodeId)
    (ancestors : List (NodeId × StartTag)) (f : Forest) : List Edit :=
  (f.walk (fun id => (replaced id).isSome) n ancestors).filterMap
    fun p => (replaced p.id).map (v.edit (place p))

theorem walk_sublist (closed : NodeId → Bool) (f : Forest) (n : NodeId)
    (ancestors : List (NodeId × StartTag)) :
    (f.walk closed n ancestors).Sublist (f.positions n ancestors) := by
  induction f generalizing n ancestors with
  | nil => exact List.Sublist.slnil
  | text s rest ih => exact (ih _ _).cons_cons _
  | raw s rest ih => exact (ih _ _).cons_cons _
  | element tag opening children closing rest ihc ihr =>
    rw [walk, positions_element]
    refine (List.Sublist.append ?_ (ihr _ _)).cons_cons _
    split
    · exact List.nil_sublist _
    · exact ihc _ _

/-- `place` gives each node of a forest that is written from byte `a` on its place. -/
def Placed (v : View) (place : Position → Slice) (a : Nat) (n : NodeId)
    (ancestors : List (NodeId × StartTag)) (f : Forest) : Prop :=
  ∀ x ∈ f.places v a n ancestors, place x.1 = x.2

variable {place : Position → Slice} {replaced : Replacements}

theorem placed_text {s : Slice} {rest : Forest} : (text s rest).Placed v place a n ancestors ↔
    place ⟨n, ancestors, .text s⟩ = ⟨a, v.text s.text⟩ ∧
      rest.Placed v place (Slice.mk a (v.text s.text)).stop (n + 1) ancestors :=
  List.forall_mem_cons

theorem placed_raw {s : Slice} {rest : Forest} : (raw s rest).Placed v place a n ancestors ↔
    place ⟨n, ancestors, .raw s⟩ = ⟨a, v.raw s.text⟩ ∧
      rest.Placed v place (Slice.mk a (v.raw s.text)).stop (n + 1) ancestors :=
  List.forall_mem_cons

theorem placed_element {tag : StartTag} {opening : Slice} {children : Forest}
    {closing : Option Slice} {rest : Forest} :
    (element tag opening children closing rest).Placed v place a n ancestors ↔
      place ⟨n, ancestors, .element tag opening children closing⟩ =
          ⟨a, (Node.element tag opening children closing).fresh v⟩ ∧
        children.Placed v place (a + (v.tag opening.text).utf8Size) (n + 1)
          ((n, tag) :: ancestors) ∧
        rest.Placed v place
          (Slice.mk a ((Node.element tag opening children closing).fresh v)).stop
          (n + 1 + children.size) ancestors := by
  rw [Placed, places, List.forall_mem_cons, List.forall_mem_append]
  rfl

theorem editsAt_text (s : Slice) (rest : Forest) :
    (text s rest).editsAt v place replaced n ancestors =
      ((replaced n).map (v.edit (place ⟨n, ancestors, .text s⟩))).toList
        ++ rest.editsAt v place replaced (n + 1) ancestors := by
  cases h : replaced n <;> simp [editsAt, walk, h]

theorem editsAt_raw (s : Slice) (rest : Forest) :
    (raw s rest).editsAt v place replaced n ancestors =
      ((replaced n).map (v.edit (place ⟨n, ancestors, .raw s⟩))).toList
        ++ rest.editsAt v place replaced (n + 1) ancestors := by
  cases h : replaced n <;> simp [editsAt, walk, h]

theorem editsAt_element (tag : StartTag) (opening : Slice) (children : Forest)
    (closing : Option Slice) (rest : Forest) :
    (element tag opening children closing rest).editsAt v place replaced n ancestors =
      (match replaced n with
        | some f => [v.edit (place ⟨n, ancestors, .element tag opening children closing⟩) f]
        | none => children.editsAt v place replaced (n + 1) ((n, tag) :: ancestors))
        ++ rest.editsAt v place replaced (n + 1 + children.size) ancestors := by
  cases h : replaced n <;> simp [editsAt, walk, h]

/-- The edits are made in what is written for the forest. -/
theorem editsAt_within (h : f.Placed v place a n ancestors) {e : Edit}
    (he : e ∈ f.editsAt v place replaced n ancestors) :
    a ≤ e.span.start ∧ e.span.start ≤ e.span.stop ∧ e.span.stop ≤ a + (f.fresh v).utf8Size := by
  obtain ⟨p, hp, hr⟩ := List.mem_filterMap.1 he
  obtain ⟨fragment, -, rfl⟩ := Option.map_eq_some_iff.1 hr
  have hmem := (walk_sublist _ _ _ _).subset hp
  rw [← map_fst_places v a] at hmem
  obtain ⟨x, hx, rfl⟩ := List.mem_map.1 hmem
  obtain ⟨hstart, hstop⟩ := places_within hx
  rw [View.edit, h x hx]
  exact ⟨hstart, x.2.start_le_stop, hstop⟩

/-- The edits made in what is written for a forest, and all later ones, are behind what is written
before it. -/
theorem editsAt_behind (replaced : Replacements)
    (h : f.Placed v place a n ancestors) {later : List Edit}
    (hl : ∀ e ∈ later, a + (f.fresh v).utf8Size ≤ e.span.start ∧ e.span.start ≤ e.span.stop) :
    ∀ e ∈ f.editsAt v place replaced n ancestors ++ later,
      a ≤ e.span.start ∧ e.span.start ≤ e.span.stop := by
  intro e he
  rcases List.mem_append.1 he with he | he
  · exact ⟨(editsAt_within h he).1, (editsAt_within h he).2.1⟩
  · exact ⟨Nat.le_trans (Nat.le_add_right _ _) (hl e he).1, (hl e he).2⟩

/-- What is written in the place of a node, and behind it. -/
theorem splice_place (replaced : Replacements) {p : Position} {own after written : Text}
    {later : List Edit} (hp : place p = ⟨a, own⟩)
    (h : f.Placed v place (Slice.mk a own).stop n ancestors)
    (hl : ∀ e ∈ later, (Slice.mk a own).stop + (f.fresh v).utf8Size ≤ e.span.start ∧
      e.span.start ≤ e.span.stop)
    (hwritten : splice (Slice.mk a own).stop (f.fresh v ++ after)
      (f.editsAt v place replaced n ancestors ++ later) = written) :
    splice a (own ++ (f.fresh v ++ after)) (((replaced p.id).map (v.edit (place p))).toList ++
        (f.editsAt v place replaced n ancestors ++ later)) =
      (replaced p.id).elim own v.fragment ++ written := by
  rw [hp, ← hwritten]
  exact v.splice_edit ⟨a, own⟩ (replaced p.id) _ (editsAt_behind replaced h hl)

/-- What is written for a forest in which nodes are replaced is what is written otherwise with the
edits made in it, whatever edits are made in what is written after it. -/
theorem splice_editsAt (replaced : Replacements) (h : f.Placed v place a n ancestors)
    (after : Text) {later : List Edit}
    (hl : ∀ e ∈ later, a + (f.fresh v).utf8Size ≤ e.span.start ∧ e.span.start ≤ e.span.stop) :
    splice a (f.fresh v ++ after) (f.editsAt v place replaced n ancestors ++ later)
      = f.write v replaced n ++ splice (a + (f.fresh v).utf8Size) after later := by
  induction f generalizing n ancestors a after later with
  | nil => rfl
  | text s rest ih =>
    obtain ⟨hp, hrest⟩ := placed_text.1 h
    rw [fresh, utf8Size_append, ← Nat.add_assoc] at hl
    have hstep := splice_place replaced (p := ⟨n, ancestors, .text s⟩) hp hrest hl
      (ih hrest after hl)
    simpa [editsAt_text, fresh, write, Nat.add_assoc] using hstep
  | raw s rest ih =>
    obtain ⟨hp, hrest⟩ := placed_raw.1 h
    rw [fresh, utf8Size_append, ← Nat.add_assoc] at hl
    have hstep := splice_place replaced (p := ⟨n, ancestors, .raw s⟩) hp hrest hl
      (ih hrest after hl)
    simpa [editsAt_raw, fresh, write, Nat.add_assoc] using hstep
  | element tag opening children closing rest ihc ihr =>
    obtain ⟨hp, hc, hr⟩ := placed_element.1 h
    rw [fresh, utf8Size_append, ← Nat.add_assoc] at hl
    have hrest := ihr hr after hl
    rw [editsAt_element]
    cases hn : replaced n with
    | some fragment =>
      have hstep := splice_place replaced
        (p := ⟨n, ancestors, .element tag opening children closing⟩) hp hr hl hrest
      simpa [fresh, Node.fresh, write, hn, Nat.add_assoc] using hstep
    | none =>
      -- the children's edits come before all others, between the two tags
      have hmore := editsAt_behind replaced hr hl
      simp only [Slice.stop_mk, Node.fresh, utf8Size_append, ← Nat.add_assoc] at hmore
      have hbehind := fun e he =>
        And.intro (Nat.le_trans (Nat.le_add_right _ _) (hmore e he).1) (hmore e he).2
      have hstep := splice_between (editsAt_behind replaced hc hbehind)
        (ihc hc (v.tag? closing ++ (rest.fresh v ++ after)) hbehind) hmore
      rw [Slice.stop_mk, Node.fresh] at hrest
      rw [hrest] at hstep
      simpa [fresh, write, hn, Nat.add_assoc] using hstep

/-- The edit of a node comes before those of what is behind the node. -/
theorem apart_behind (replaced : Replacements) {p : Position} {own : Text} (hp : place p = ⟨a, own⟩)
    (h : f.Placed v place (Slice.mk a own).stop n ancestors)
    (hf : Edit.Apart (f.editsAt v place replaced n ancestors)) :
    Edit.Apart (((replaced p.id).map (v.edit (place p))).toList
      ++ f.editsAt v place replaced n ancestors) := by
  cases replaced p.id with
  | none => exact hf
  | some fragment =>
    refine List.pairwise_cons.2 ⟨fun e he => ?_, hf⟩
    rw [hp]
    exact (editsAt_within h he).1

/-- The edits come in order and do not overlap. -/
theorem editsAt_apart (h : f.Placed v place a n ancestors) :
    Edit.Apart (f.editsAt v place replaced n ancestors) := by
  induction f generalizing n ancestors a with
  | nil => exact List.Pairwise.nil
  | text s rest ih =>
    obtain ⟨hp, hrest⟩ := placed_text.1 h
    rw [editsAt_text]
    exact apart_behind replaced (p := ⟨n, ancestors, .text s⟩) hp hrest (ih hrest)
  | raw s rest ih =>
    obtain ⟨hp, hrest⟩ := placed_raw.1 h
    rw [editsAt_raw]
    exact apart_behind replaced (p := ⟨n, ancestors, .raw s⟩) hp hrest (ih hrest)
  | element tag opening children closing rest ihc ihr =>
    obtain ⟨hp, hc, hr⟩ := placed_element.1 h
    have happart := apart_behind replaced
      (p := ⟨n, ancestors, .element tag opening children closing⟩) hp hr (ihr hr)
    rw [editsAt_element]
    cases hn : replaced n with
    | some fragment =>
      rw [hn] at happart
      exact happart
    | none =>
      refine List.pairwise_append.2 ⟨ihc hc, ihr hr, fun e he e' he' => ?_⟩
      have h1 := (editsAt_within hc he).2.2
      have h2 := (editsAt_within hr he').1
      simp only [Slice.stop, Node.fresh, utf8Size_append] at h2
      omega

end Forest

end RichContent
