/-
What is around a node, and what a chain of conditions finds there.

The parents of a node lead out of the elements that it is in, the innermost
first (`Document.outer`, `mem_outer`). A chain of conditions takes the first
of them that meets its innermost condition, goes on behind it with the next
condition and never comes back. It misses nothing by that
(`Chain.heldAround_iff`): whatever other element could have been taken is
farther out, and the first one leaves more for the conditions to come.
-/
import RichContent.Proofs.Markup.Selection

namespace RichContent

open Text

/-! ## What is around a node -/

namespace Document

/-- `a` is the parent of the node, or the parent of that, and so on. -/
def Encloses (d : Document) (a : NodeId) (p : Position) : Prop :=
  ∃ b, p.parent? = some b ∧ d.Above a b

variable {d : Document} {p q : Position} {a : NodeId}

theorem encloses_iff (hp : p ∈ d.nodes) : d.Encloses a p ↔ a ∈ p.ancestors.map (·.1) := by
  constructor
  · rintro ⟨b, hparent, habove⟩
    obtain ⟨⟨_, tag⟩, hhead, rfl⟩ := Option.map_eq_some_iff.1 hparent
    obtain ⟨rest, hrest⟩ := List.head?_eq_some_iff.1 hhead
    obtain ⟨q, hq, rfl, rfl, -⟩ := exists_parent hp hrest
    rw [hrest, List.map_cons, List.mem_cons]
    exact (above_iff hq).1 habove
  · intro h
    cases hrest : p.ancestors with
    | nil =>
      rw [hrest] at h
      exact absurd h List.not_mem_nil
    | cons outer rest =>
      obtain ⟨b, tag⟩ := outer
      obtain ⟨q, hq, rfl, rfl, -⟩ := exists_parent hp hrest
      rw [hrest, List.map_cons, List.mem_cons] at h
      exact ⟨q.id, by rw [Position.parent?, hrest]; rfl, (above_iff hq).2 h⟩

/-- A node is below some nodes if its parents lead to one of them. -/
theorem isBelow_iff (hp : p ∈ d.nodes) (ids : List NodeId) :
    p.isBelow ids = true ↔ ∃ a ∈ ids, d.Encloses a p := by
  simp only [encloses_iff hp, Position.isBelow, List.any_eq_true, decide_eq_true_eq]
  constructor
  · rintro ⟨outer, houter, h⟩
    exact ⟨outer.1, h, List.mem_map_of_mem houter⟩
  · rintro ⟨a, ha, h⟩
    obtain ⟨outer, houter, rfl⟩ := List.mem_map.1 h
    exact ⟨outer, houter, ha⟩

/-- The elements around a node, the innermost first. -/
def outer (d : Document) (p : Position) : List Position :=
  p.ancestors.filterMap fun x => d.node? x.1

/-- What is innermost around a node is an element, and what is around that is the rest. -/
theorem outer_cons {tag : StartTag} {rest : List (NodeId × StartTag)} (hp : p ∈ d.nodes)
    (h : p.ancestors = (a, tag) :: rest) : ∃ q ∈ d.nodes, q.id = a ∧ q.ancestors = rest ∧
      d.outer p = q :: d.outer q ∧
      ∃ opening children closing, q.node = .element tag opening children closing := by
  obtain ⟨q, hq, rfl, rfl, opening, children, closing, hnode, -⟩ := exists_parent hp h
  refine ⟨q, hq, rfl, rfl, ?_, opening, children, closing, hnode⟩
  rw [outer, h]
  exact List.filterMap_cons_some (node?_of_mem hq)

/-- What holds of a node with nothing around it, and of a node if it holds of the element that is
innermost around it, holds of every node. -/
theorem outer_induction {P : Position → Prop} (top : ∀ p ∈ d.nodes, p.ancestors = [] → P p)
    (inner : ∀ p ∈ d.nodes, ∀ q ∈ d.nodes, ∀ tag opening children closing,
      p.ancestors = (q.id, tag) :: q.ancestors → q.node = .element tag opening children closing →
      d.outer p = q :: d.outer q → P q → P p) (hp : p ∈ d.nodes) : P p := by
  generalize hanc : p.ancestors = ancestors
  induction ancestors generalizing p with
  | nil => exact top p hp hanc
  | cons x rest ih =>
    obtain ⟨a, tag⟩ := x
    obtain ⟨q, hq, rfl, rfl, houter, opening, children, closing, hnode⟩ := outer_cons hp hanc
    exact inner p hp q hq tag opening children closing hanc hnode houter (ih hq rfl)

theorem map_id_outer (hp : p ∈ d.nodes) : (d.outer p).map (·.id) = p.ancestors.map (·.1) := by
  refine outer_induction (P := fun p => (d.outer p).map (·.id) = p.ancestors.map (·.1))
    (fun p _ hanc => ?_) (fun p _ q _ tag _ _ _ hanc _ houter ih => ?_) hp
  · rw [outer, hanc]
    rfl
  · rw [houter, hanc, List.map_cons, List.map_cons, ih]

/-- What a selector sees around a node are the elements around it, less those that have been
replaced. -/
theorem around_eq (hp : p ∈ d.nodes) : d.around p = (d.outer p).map d.tag? := by
  refine outer_induction (P := fun p => d.around p = (d.outer p).map d.tag?)
    (fun p _ hanc => ?_)
    (fun p _ q _ tag opening children closing hanc hnode houter ih => ?_) hp
  · rw [around, outer, hanc]
    rfl
  · rw [around] at ih
    rw [around, houter, hanc, List.map_cons, List.map_cons, ih]
    congr 1
    simp only [tag?, hnode]
    cases d.replacement? q.id <;> rfl

/-- Behind an element that is around a node come the elements around that element. -/
theorem outer_suffix (hp : p ∈ d.nodes) (h : q ∈ d.outer p) :
    q ∈ d.nodes ∧ q :: d.outer q <:+ d.outer p := by
  revert h
  refine outer_induction
    (P := fun p => q ∈ d.outer p → q ∈ d.nodes ∧ q :: d.outer q <:+ d.outer p)
    (fun p _ hanc h => ?_) (fun p _ r hr tag _ _ _ _ _ houter ih h => ?_) hp
  · rw [outer, hanc] at h
    exact absurd h List.not_mem_nil
  · rw [houter] at h ⊢
    rcases List.mem_cons.1 h with rfl | h
    · exact ⟨hr, List.suffix_refl _⟩
    · exact ⟨(ih h).1, (ih h).2.trans (List.suffix_cons r _)⟩

/-- The elements around a node are the nodes that its parents lead to. -/
theorem mem_outer (hp : p ∈ d.nodes) : q ∈ d.outer p ↔ q ∈ d.nodes ∧ d.Encloses q.id p := by
  rw [encloses_iff hp, ← map_id_outer hp]
  constructor
  · exact fun h => ⟨(outer_suffix hp h).1, List.mem_map_of_mem h⟩
  · rintro ⟨hq, h⟩
    obtain ⟨r, hr, hid⟩ := List.mem_map.1 h
    exact eq_of_id (outer_suffix hp hr).1 hq hid ▸ hr

theorem Encloses.trans (hp : p ∈ d.nodes) (hq : q ∈ d.nodes) (hap : d.Encloses a p)
    (hpq : d.Encloses p.id q) : d.Encloses a q := by
  have hsub := (outer_suffix hq ((mem_outer hq).2 ⟨hp, hpq⟩)).2.subset
  rw [encloses_iff hp, ← map_id_outer hp] at hap
  rw [encloses_iff hq, ← map_id_outer hq]
  obtain ⟨r, hr, rfl⟩ := List.mem_map.1 hap
  exact List.mem_map_of_mem (hsub (List.mem_cons_of_mem p hr))

/-- The nodes that are in an element are those of the forest below it. -/
theorem mem_positions_children {tag : StartTag} {opening : Slice} {children : Forest}
    {closing : Option Slice} (hq : q ∈ d.nodes)
    (hnode : q.node = .element tag opening children closing) :
    p ∈ children.positions (q.id + 1) ((q.id, tag) :: q.ancestors) ↔
      p ∈ d.nodes ∧ d.Encloses q.id p := by
  constructor
  · intro h
    have hp : p ∈ d.nodes := Forest.mem_positions_of_child hq hnode h
    exact ⟨hp, (encloses_iff hp).2 (List.mem_map_of_mem (Forest.mem_ancestors h))⟩
  · rintro ⟨hp, h⟩
    rw [encloses_iff hp] at h
    generalize hanc : p.ancestors = ancestors at h
    induction ancestors generalizing p with
    | nil => exact absurd h List.not_mem_nil
    | cons x rest ih =>
      rcases Forest.top_or_child hp with htop | ⟨r, hr, tag', _, children', _, hnode', hchild⟩
      · rw [Forest.ancestors_of_top htop] at hanc
        cases hanc
      · rw [Forest.ancestors_of_top hchild] at hanc
        obtain ⟨rfl, rfl⟩ := List.cons.inj hanc
        rcases List.mem_cons.1 h with hid | h
        · obtain rfl := eq_of_id hq hr hid
          rw [hnode] at hnode'
          cases hnode'
          exact Forest.mem_positions_of_top hchild
        · exact Forest.mem_positions_of_child (ih hr rfl h) hnode'
            (Forest.mem_positions_of_top hchild)

/-- Each of the elements around a node is around the ones before it. -/
theorem outer_nested (hp : p ∈ d.nodes) :
    (p :: d.outer p).Pairwise fun r q => d.Encloses q.id r := by
  refine outer_induction
    (P := fun p => (p :: d.outer p).Pairwise fun r q => d.Encloses q.id r)
    (fun p _ hanc => ?_) (fun p hp q _ _ _ _ _ _ _ houter ih => ?_) hp
  · rw [outer, hanc]
    exact List.pairwise_singleton _ _
  · refine List.pairwise_cons.2 ⟨fun r hr => ((mem_outer hp).1 hr).2, ?_⟩
    rw [houter]
    exact ih

/-- Nodes of which each is around the ones before it are among the elements around the first. -/
theorem sublist_outer {qs : List Position} (hp : p ∈ d.nodes) (hqs : ∀ q ∈ qs, q ∈ d.nodes)
    (h : (p :: qs).Pairwise fun r q => d.Encloses q.id r) : qs.Sublist (d.outer p) := by
  induction qs generalizing p with
  | nil => exact List.nil_sublist _
  | cons q qs ih =>
    obtain ⟨hq, hqs⟩ := List.forall_mem_cons.1 hqs
    obtain ⟨hpq, hnested⟩ := List.pairwise_cons.1 h
    have hmem : q ∈ d.outer p := (mem_outer hp).2 ⟨hq, hpq q List.mem_cons_self⟩
    exact ((ih hq hqs hnested).cons_cons q).trans (outer_suffix hp hmem).2.sublist

end Document

/-! ## Taking the first is enough -/

/-- The condition is met by an element, not by what has been replaced. -/
def Compound.Meets (c : Compound) (x : Surrounding) : Prop :=
  ∃ tag, x = some tag ∧ c.holds tag = true

theorem Compound.meets_iff {c : Compound} {x : Surrounding} :
    c.Meets x ↔ x.any c.holds = true := by
  cases x <;> simp [Meets]

/-- Conditions are met by the elements that are taken if they are met by any elements in order. -/
theorem Chain.heldAround_iff {cs : List Compound} {l : List Surrounding} :
    heldAround cs l = true ↔ List.SublistForall₂ Compound.Meets cs l := by
  constructor
  · intro h
    induction l generalizing cs with
    | nil =>
      cases cs with
      | nil => exact .nil
      | cons c cs => cases h
    | cons x l ih =>
      cases cs with
      | nil => exact .nil
      | cons c cs =>
        rw [heldAround] at h
        split at h
        · rename_i hx
          exact .cons (Compound.meets_iff.2 hx) (ih h)
        · exact .cons_right (ih h)
  · intro h
    induction h with
    | nil => rw [heldAround]
    | cons hx _ ih =>
      rw [heldAround, if_pos (Compound.meets_iff.1 hx)]
      exact ih
    | @cons_right x cs l _ ih => exact (heldAround_drop_and_cons l).2 cs x ih

theorem Chain.holds_concat (outer : List Compound) (last : Compound) (subject : Surrounding)
    (around : List Surrounding) : holds (outer ++ [last]) subject around = true ↔
      last.Meets subject ∧ List.SublistForall₂ Compound.Meets outer.reverse around := by
  rw [holds, List.reverse_append, List.reverse_singleton, List.singleton_append, Bool.and_eq_true,
    heldAround_iff, Compound.meets_iff]

namespace Document

/-- The node meets the last condition of a chain, and the others are met, in order, by elements of
which each is around the next and the last is around the node. -/
def Descends (d : Document) (chain : Chain) (p : Position) : Prop :=
  ∃ outer last qs, chain = outer ++ [last] ∧ last.Meets (d.tag? p) ∧
    (∀ q ∈ qs, q ∈ d.nodes) ∧ (qs ++ [p]).Pairwise (fun q r => d.Encloses q.id r) ∧
    List.Forall₂ (fun c q => c.Meets (d.tag? q)) outer qs

theorem holds_iff_descends {d : Document} {p : Position} (hp : p ∈ d.nodes) (chain : Chain) :
    chain.holds (d.tag? p) (d.around p) = true ↔ d.Descends chain p := by
  rcases List.eq_nil_or_concat' chain with rfl | ⟨outer, last, rfl⟩
  · constructor
    · rintro ⟨⟩
    · rintro ⟨outer, last, qs, hchain, -⟩
      simp at hchain
  rw [Chain.holds_concat, around_eq hp, List.sublistForall₂_map_right_iff,
    List.sublistForall₂_iff]
  constructor
  · rintro ⟨hlast, qs, hmeets, hsub⟩
    refine ⟨outer, last, qs.reverse, rfl, hlast, fun q hq => ?_, ?_, ?_⟩
    · exact (outer_suffix hp (hsub.subset (List.mem_reverse.1 hq))).1
    · rw [← List.reverse_cons, List.pairwise_reverse]
      exact (outer_nested hp).sublist (hsub.cons_cons p)
    · rw [← List.forall₂_reverse_iff, List.reverse_reverse]
      exact hmeets
  · rintro ⟨outer', last', qs, hchain, hlast, hqs, hnested, hmeets⟩
    obtain ⟨rfl, hlast'⟩ := List.append_inj' hchain rfl
    obtain rfl := List.singleton_inj.1 hlast'
    refine ⟨hlast, qs.reverse, List.forall₂_reverse_iff.2 hmeets, sublist_outer hp ?_ ?_⟩
    · exact fun q hq => hqs q (List.mem_reverse.1 hq)
    · rwa [← List.pairwise_reverse, List.reverse_cons, List.reverse_reverse]

theorem mem_replacedIds_afterReplacing {content : Text} {rs : List (NodeId × Fragment)}
    {id : NodeId} : id ∈ ((parse content).replaceAll rs).replacedIds ↔ id ∈ rs.map (·.1) := by
  rw [mem_replacedIds_replaceAll]
  exact or_iff_left List.not_mem_nil

/-- A replacement leaves every node inside the nodes that it was in. -/
theorem encloses_replaceAll {d : Document} {p : Position} (hp : p ∈ d.nodes)
    (rs : List (NodeId × Fragment)) (a : NodeId) :
    (d.replaceAll rs).Encloses a p ↔ d.Encloses a p := by
  rw [encloses_iff hp, encloses_iff (by rw [nodes_replaceAll]; exact hp)]

/-- An element is a node with a tag that has not been replaced. -/
theorem tag?_eq_some_iff {d : Document} {p : Position} {tag : StartTag} :
    d.tag? p = some tag ↔ p.id ∉ d.replacedIds ∧
      ∃ opening children closing, p.node = .element tag opening children closing := by
  rw [← replacement?_eq_none]
  unfold tag?
  cases d.replacement? p.id <;> cases p.node <;> simp

/-- **After any replacements a chain of conditions picks out just the elements that meet the last
condition and are in elements that meet the others, each in the one before it, whichever elements
these are.** What has been replaced is an element no more and meets no condition, but what was
inside it is still inside whatever it is in. -/
theorem isMatch_afterReplacing (content : Text) (rs : List (NodeId × Fragment)) :
    let d := (parse content).replaceAll rs
    d.nodes = (parse content).nodes ∧ ∀ p ∈ d.nodes,
      (∀ chain : Chain, chain.holds (d.tag? p) (d.around p) = true ↔ d.Descends chain p) ∧
      (∀ s, d.isMatch s p = true ↔ ∃ chain ∈ s, d.Descends chain p) ∧
      (∀ tag, d.tag? p = some tag ↔ p.id ∉ rs.map (·.1) ∧
        ∃ opening children closing, p.node = .element tag opening children closing) ∧
      ∀ a, d.Encloses a p ↔ (parse content).Encloses a p := by
  intro d
  have hnodes : d.nodes = (parse content).nodes := nodes_replaceAll _ rs
  refine ⟨hnodes, fun p hp => ⟨holds_iff_descends hp, fun s => ?_, fun tag => ?_, fun a => ?_⟩⟩
  · simp only [isMatch, Selector.holds, List.any_eq_true, holds_iff_descends hp]
  · rw [tag?_eq_some_iff, mem_replacedIds_afterReplacing]
  · exact encloses_replaceAll (hnodes ▸ hp) rs a

/-- An element in four others, of which the third from outside has been replaced. Each of the two
first conditions is met by the two outermost and by the innermost of them. -/
theorem isMatch_afterReplacing_nested :
    let content := "<p id=a><p id=b><u><p id=c><i>1</i></p></u></p></p>".toList
    let d := (parse content).replaceAll [(2, ⟨"<p>2</p>".toList, ['2']⟩)]
    let p : Position :=
      ⟨4, [(3, ⟨['p'], [⟨['i', 'd'], some ['c']⟩], false⟩), (2, ⟨['u'], [], false⟩),
          (1, ⟨['p'], [⟨['i', 'd'], some ['b']⟩], false⟩),
          (0, ⟨['p'], [⟨['i', 'd'], some ['a']⟩], false⟩)],
        .element ⟨['i'], [], false⟩ ⟨27, "<i>".toList⟩ (.text ⟨30, ['1']⟩ .nil)
          (some ⟨31, "</i>".toList⟩)⟩
    let any : Compound := ⟨some (.named ['p']), []⟩
    let b : Compound := ⟨none, [.id ['b']]⟩
    let u : Compound := ⟨some (.named ['u']), []⟩
    let i : Compound := ⟨some (.named ['i']), []⟩
    p ∈ d.nodes ∧ d.Encloses 2 p ∧ (∃ tag, d.tag? p = some tag) ∧
      d.Descends [any, b, any, i] p ∧ ¬ d.Descends [b, any, any, i] p ∧ ¬ d.Descends [u, i] p ∧
      d.isMatch [[u, i], [any, any, any, i]] p = true := by
  intro content d p any b u i
  obtain ⟨hnodes, hall⟩ :=
    isMatch_afterReplacing content [(2, ⟨"<p>2</p>".toList, ['2']⟩)]
  have hp : p ∈ d.nodes := by decide +kernel
  obtain ⟨hholds, hmatch, htag, hencloses⟩ := hall p hp
  refine ⟨hp, ?_, ⟨_, (htag _).2 ⟨by decide, _, _, _, rfl⟩⟩, ?_, ?_, ?_, ?_⟩
  · exact (hencloses 2).2 ((encloses_iff (hnodes ▸ hp)).2 (by decide))
  · exact (hholds _).1 (by decide +kernel)
  · rw [← hholds]
    decide +kernel
  · rw [← hholds]
    decide +kernel
  · exact (hmatch _).2 ⟨[any, any, any, i], by simp, (hholds _).1 (by decide +kernel)⟩

end Document

end RichContent
