/-
What is selected after any replacements: what was selected before them, less
the nodes that a replaced node is, or is around (`select_afterReplacing`).

A selector looks at what is around a node, going from parent to parent, and
the nodes are reached from the top, going from children to children. The first
goes on through a replaced node, the second stops there. They agree on the
nodes with nothing replaced around them: on these nothing has changed, neither
whether they are reached nor whether they match. On the others a replacement
can only take a match away (`isMatch_original`).
-/
import Mathlib.Data.List.Forall2
import RichContent.Proofs.Editor.Stages
import RichContent.Proofs.Markup.Lossless

namespace RichContent

open Text

/-! ## Parents and children -/

namespace Forest

variable {f : Forest} {n : NodeId} {ancestors : List (NodeId × StartTag)} {p : Position}

theorem ancestors_of_top (h : p ∈ f.topPositions n ancestors) : p.ancestors = ancestors := by
  induction f generalizing n with
  | nil => exact absurd h List.not_mem_nil
  | text s rest ih | raw s rest ih =>
    rcases List.mem_cons.1 h with rfl | h
    · rfl
    · exact ih h
  | element tag opening children closing rest _ ih =>
    rcases List.mem_cons.1 h with rfl | h
    · rfl
    · exact ih h

/-- A node of a forest is at the top, or right below an element of the forest. -/
theorem top_or_child (h : p ∈ f.positions n ancestors) :
    p ∈ f.topPositions n ancestors ∨ ∃ q ∈ f.positions n ancestors,
      ∃ tag opening children closing, q.node = .element tag opening children closing ∧
        p ∈ children.topPositions (q.id + 1) ((q.id, tag) :: q.ancestors) := by
  induction f generalizing n ancestors with
  | nil => exact absurd h List.not_mem_nil
  | text s rest ih | raw s rest ih =>
    rcases List.mem_cons.1 h with rfl | h
    · exact .inl List.mem_cons_self
    · rcases ih h with htop | ⟨q, hq, hbelow⟩
      · exact .inl (List.mem_cons_of_mem _ htop)
      · exact .inr ⟨q, List.mem_cons_of_mem _ hq, hbelow⟩
  | element tag opening children closing rest ihc ihr =>
    rw [positions_element] at h ⊢
    rcases List.mem_cons.1 h with rfl | h
    · exact .inl List.mem_cons_self
    rcases List.mem_append.1 h with h | h
    · rcases ihc h with htop | ⟨q, hq, hbelow⟩
      · exact .inr ⟨_, List.mem_cons_self, tag, opening, children, closing, rfl, htop⟩
      · exact .inr ⟨q, List.mem_cons_of_mem _ (List.mem_append_left _ hq), hbelow⟩
    · rcases ihr h with htop | ⟨q, hq, hbelow⟩
      · exact .inl (List.mem_cons_of_mem _ htop)
      · exact .inr ⟨q, List.mem_cons_of_mem _ (List.mem_append_right _ hq), hbelow⟩

end Forest

namespace Document

/-- `a` is the node `b`, or the parent of `b`, or the parent of that, and so on. -/
inductive Above (d : Document) : (a b : NodeId) → Prop
  | self {a : NodeId} : Above d a a
  | parent {a b c : NodeId} {p : Position} :
    d.node? b = some p → p.parent? = some c → Above d a c → Above d a b

variable {d : Document} {p q : Position} {a : NodeId}

/-- What is innermost around a node is an element with the node among its children, and what is
around that element is the rest. -/
theorem exists_parent {tag : StartTag} {rest : List (NodeId × StartTag)} (hp : p ∈ d.nodes)
    (h : p.ancestors = (a, tag) :: rest) : ∃ q ∈ d.nodes, q.id = a ∧ q.ancestors = rest ∧
      ∃ opening children closing, q.node = .element tag opening children closing ∧
        p.id ∈ children.siblings (q.id + 1) := by
  rcases Forest.top_or_child hp with htop | ⟨q, hq, tag', opening, children, closing, hnode, hchild⟩
  · rw [Forest.ancestors_of_top htop] at h
    cases h
  · have hanc := Forest.ancestors_of_top hchild
    rw [h] at hanc
    cases hanc
    refine ⟨q, hq, rfl, rfl, opening, children, closing, hnode, ?_⟩
    rw [← Forest.topPositions_id children (q.id + 1) ((q.id, tag) :: q.ancestors)]
    exact List.mem_map_of_mem hchild

/-- Going from parent to parent leads through what is around the node. -/
theorem above_iff (hp : p ∈ d.nodes) :
    d.Above a p.id ↔ a = p.id ∨ a ∈ p.ancestors.map (·.1) := by
  constructor
  · intro h
    generalize hb : p.id = b at h
    induction h generalizing p with
    | self => exact .inl rfl
    | parent hnode hparent _ ih =>
      subst hb
      rw [node?_of_mem hp] at hnode
      cases hnode
      obtain ⟨⟨c, tag⟩, hhead, rfl⟩ := Option.map_eq_some_iff.1 hparent
      obtain ⟨rest, hrest⟩ := List.head?_eq_some_iff.1 hhead
      obtain ⟨q, hq, hid, hanc, -⟩ := exists_parent hp hrest
      right
      rw [hrest, List.map_cons]
      rcases ih hq hid with rfl | hmem
      · exact List.mem_cons_self
      · exact List.mem_cons_of_mem _ (hanc ▸ hmem)
  · intro h
    rcases h with rfl | h
    · exact .self
    · generalize hanc : p.ancestors = ancestors at h
      induction ancestors generalizing p with
      | nil => exact absurd h List.not_mem_nil
      | cons outer rest ih =>
        obtain ⟨c, tag⟩ := outer
        obtain ⟨q, hq, rfl, hrest, -⟩ := exists_parent hp hanc
        have hparent : p.parent? = some q.id := by rw [Position.parent?, hanc]; rfl
        refine .parent (node?_of_mem hp) hparent ?_
        rcases List.mem_cons.1 h with rfl | h
        · exact .self
        · exact ih hq hrest h

/-- A node is within some nodes if its parents lead to one of them. -/
theorem isWithin_iff (hp : p ∈ d.nodes) (ids : List NodeId) :
    p.isWithin ids = true ↔ ∃ a ∈ ids, d.Above a p.id := by
  simp only [above_iff hp, Position.isWithin, Position.isBelow, Bool.or_eq_true,
    decide_eq_true_eq, List.any_eq_true]
  constructor
  · rintro (h | ⟨outer, houter, h⟩)
    · exact ⟨p.id, h, .inl rfl⟩
    · exact ⟨outer.1, h, .inr (List.mem_map_of_mem houter)⟩
  · rintro ⟨a, ha, rfl | hmem⟩
    · exact .inl ha
    · obtain ⟨outer, houter, rfl⟩ := List.mem_map.1 hmem
      exact .inr ⟨outer, houter, ha⟩

end Document

/-! ## Matching with less around -/

namespace Chain

/-- One condition less is met where all were met, and so it is with one element more inside.
The two depend on each other: the new element may meet the first condition. -/
theorem heldAround_drop_and_cons (l : List Surrounding) :
    (∀ c cs, heldAround (c :: cs) l = true → heldAround cs l = true) ∧
      ∀ cs a, heldAround cs l = true → heldAround cs (a :: l) = true := by
  induction l with
  | nil =>
    refine ⟨fun c cs h => by simp [heldAround] at h, fun cs a h => ?_⟩
    cases cs with
    | nil => rfl
    | cons c cs => simp [heldAround] at h
  | cons b l ih =>
    obtain ⟨hdrop, hcons⟩ := ih
    have hdrop' : ∀ c cs, heldAround (c :: cs) (b :: l) = true → heldAround cs (b :: l) = true := by
      intro c cs h
      rw [heldAround] at h
      split at h
      · exact hcons cs b h
      · exact hcons cs b (hdrop c cs h)
    refine ⟨hdrop', fun cs a h => ?_⟩
    cases cs with
    | nil => rfl
    | cons c cs =>
      rw [heldAround]
      split
      · exact hdrop' c cs h
      · exact h

/-- Conditions that are met still are when what was no element is one. -/
theorem heldAround_mono {l m : List Surrounding}
    (h : List.Forall₂ (fun a b => a = none ∨ a = b) l m) {cs : List Compound}
    (hl : heldAround cs l = true) : heldAround cs m = true := by
  induction h generalizing cs with
  | nil => exact hl
  | @cons a b l m hab _ ih =>
    cases cs with
    | nil => rfl
    | cons c cs =>
      rw [heldAround] at hl
      rcases hab with rfl | rfl
      · exact (heldAround_drop_and_cons m).2 _ b (ih hl)
      · rw [heldAround]
        split
        · rename_i hc
          rw [if_pos hc] at hl
          exact ih hl
        · rename_i hc
          rw [if_neg hc] at hl
          exact ih hl

theorem holds_mono {chain : Chain} {subject : Surrounding} {l m : List Surrounding}
    (h : List.Forall₂ (fun a b => a = none ∨ a = b) l m)
    (hl : holds chain subject l = true) : holds chain subject m = true := by
  rw [holds] at hl ⊢
  split at hl
  · cases hl
  · simp only [Bool.and_eq_true] at hl ⊢
    exact ⟨hl.1, heldAround_mono h hl.2⟩

end Chain

namespace Document

/-- A replacement makes no node match, wherever the node is. -/
theorem isMatch_original {d : Document} {s : Selector} {p : Position}
    (h : d.isMatch s p = true) : d.original.isMatch s p = true := by
  have haround : List.Forall₂ (fun a b => a = none ∨ a = b) (d.around p) (d.original.around p) := by
    rw [around, around, List.forall₂_map_left_iff, List.forall₂_map_right_iff]
    apply List.forall₂_same.2
    rintro ⟨id, tag⟩ -
    have hnone : d.original.replacement? id = none := rfl
    cases hr : d.replacement? id with
    | none => exact .inr (by simp [hr, hnone])
    | some f => exact .inl (by simp [hr])
  rw [isMatch, Selector.holds, List.any_eq_true] at h ⊢
  obtain ⟨chain, hchain, hholds⟩ := h
  rw [tag?_original] at hholds
  split at hholds
  · have hnone := Selector.holds_none [chain] (d.around p)
    rw [Selector.holds, List.any_cons, List.any_nil, Bool.or_false, hholds] at hnone
    cases hnone
  · exact ⟨chain, hchain, Chain.holds_mono haround hholds⟩

/-- With nothing replaced within it or around it, a node is reached and matches as before. -/
theorem isMatch_of_not_isWithin {d : Document} {s : Selector} {p : Position} (hp : p ∈ d.nodes)
    (h : p.isWithin d.replacedIds = false) :
    p ∈ d.reachable ∧ d.isMatch s p = d.original.isMatch s p := by
  obtain ⟨hid, hbelow⟩ := Bool.or_eq_false_iff.1 h
  refine ⟨?_, ?_⟩
  · rw [reachable_eq_filter]
    exact List.mem_filter.2 ⟨hp, by rw [hbelow]; rfl⟩
  · rw [isMatch, tag?_original, around_original hbelow, if_neg (by simpa using hid)]
    rfl

theorem original_parse (content : Text) : (parse content).original = parse content := rfl

/-- **After any replacements a selector picks out what it picked out before them, in the same
order, less the nodes whose parents lead to a replaced one.** A node that is left matches as
before, no node comes to match, and what is picked out has not been replaced, nor has anything
around it. -/
theorem select_afterReplacing (content : Text) (s : Selector) (rs : List (NodeId × Fragment)) :
    ((parse content).replaceAll rs).select s =
      ((parse content).select s).filter (fun p => !p.isWithin (rs.map (·.1))) ∧
    (∀ p ∈ (parse content).nodes,
      (p.isWithin (rs.map (·.1)) = true ↔ ∃ r ∈ rs, (parse content).Above r.1 p.id) ∧
      (p.isWithin (rs.map (·.1)) = false → p ∈ ((parse content).replaceAll rs).reachable ∧
        ((parse content).replaceAll rs).isMatch s p = (parse content).isMatch s p) ∧
      (((parse content).replaceAll rs).isMatch s p = true → (parse content).isMatch s p = true)) ∧
    ∀ p ∈ ((parse content).replaceAll rs).select s, ∀ a, (parse content).Above a p.id →
      ((parse content).replaceAll rs).replacement? a = none := by
  have hids (id : NodeId) :
      id ∈ ((parse content).replaceAll rs).replacedIds ↔ id ∈ rs.map (·.1) := by
    rw [mem_replacedIds_replaceAll]
    simp [replacedIds, parse]
  have hselect := select_replaceAll (parse content) rs s
  refine ⟨hselect, fun p hp => ⟨?_, fun h => ?_, fun h => ?_⟩, fun p hp a ha => ?_⟩
  · rw [isWithin_iff hp]
    simp only [List.mem_map, exists_exists_and_eq_and]
  · rw [← Position.isWithin_congr p hids] at h
    have hmem : p ∈ ((parse content).replaceAll rs).nodes := by rw [nodes_replaceAll]; exact hp
    have hmatch := isMatch_of_not_isWithin (s := s) hmem h
    rw [original_replaceAll, original_parse] at hmatch
    exact hmatch
  · have horiginal := isMatch_original h
    rw [original_replaceAll, original_parse] at horiginal
    exact horiginal
  · rw [hselect] at hp
    obtain ⟨hp, hout⟩ := List.mem_filter.1 hp
    rw [replacement?_eq_none, hids]
    intro hmem
    have hwithin := (isWithin_iff (mem_nodes_of_select hp) _).2 ⟨a, hmem, ha⟩
    rw [hwithin] at hout
    cases hout

/-- A node replaced inside another, which is then replaced too, each of them twice. The fragments
would match if they were looked at. -/
theorem select_afterReplacing_nested :
    let content := "<p class=x><b class=x>1</b></p><i class=x>2</i>".toList
    let s : Selector := [[⟨none, [.cls ['x']]⟩]]
    let f : Fragment := ⟨"<u class=x>3</u>".toList, ['3']⟩
    let d := (parse content).replaceAll [(1, f), (0, f), (1, f), (0, f)]
    let p : Position :=
      ⟨3, [], .element ⟨['i'], [⟨"class".toList, some ['x']⟩], false⟩ ⟨31, "<i class=x>".toList⟩
        (.text ⟨42, ['2']⟩ .nil) (some ⟨43, "</i>".toList⟩)⟩
    ((parse content).select s).map (·.id) = [0, 1, 3] ∧ d.select s = [p] ∧
      p ∈ (parse content).nodes ∧ p.isWithin [1, 0, 1, 0] = false ∧ p ∈ d.reachable ∧
      d.isMatch s p = (parse content).isMatch s p ∧ d.isMatch s p = true ∧
      (parse content).isMatch s p = true ∧ (parse content).Above 3 p.id ∧
      d.replacement? 3 = none := by
  intro content s f d p
  obtain ⟨hselect, hnodes, hleft⟩ :=
    select_afterReplacing content s [(1, f), (0, f), (1, f), (0, f)]
  have hfresh : ((parse content).select s).map (·.id) = [0, 1, 3] := by decide +kernel
  have hp : p ∈ (parse content).nodes := by decide +kernel
  have hout : p.isWithin [1, 0, 1, 0] = false := by decide +kernel
  have hd : d.select s = [p] := hselect.trans (by decide +kernel)
  have hmem : p ∈ d.select s := hd ▸ List.mem_singleton_self p
  have hmatch : d.isMatch s p = true := (List.mem_filter.1 hmem).2
  obtain ⟨-, hkept, hbefore⟩ := hnodes p hp
  obtain ⟨hreached, heq⟩ := hkept hout
  exact ⟨hfresh, hd, hp, hout, hreached, heq, hmatch, hbefore hmatch, .self, hleft p hmem 3 .self⟩

end Document

end RichContent
