/-
Going through a table of nodes with a stack.

What is inside a node has the numbers from its own up to that of the first node
behind it (`WellFormed.not_inside_of_le`). On the stack are nodes of which none
is inside another (`Apart`), so what is below the uppermost one is visited
before the next one, and has smaller numbers. Every node is visited that a path
leads to, and there is only one path.
-/
import Mathlib.Data.List.Sort
import RichContent.Proofs.Markup.Arena

namespace RichContent

namespace Arena

variable {a : Arena} {c p q id : NodeId}

/-! ## Paths -/

theorem path_iff_reach : (∃ l, a.Path id l) ↔ ∃ r ∈ a.roots, a.Reach r id := by
  constructor
  · rintro ⟨l, h⟩
    induction h with
    | root h => exact ⟨_, h, .refl⟩
    | child _ hchild ih =>
      obtain ⟨r, hr, hreach⟩ := ih
      exact ⟨r, hr, hreach.tail hchild⟩
  · rintro ⟨r, hr, h⟩
    induction h with
    | refl => exact ⟨_, .root hr⟩
    | tail _ hchild ih =>
      obtain ⟨l, hl⟩ := ih
      exact ⟨_, .child hl hchild⟩

namespace WellFormed

/-- A node is reached along at most one path. -/
theorem path_unique (ha : a.WellFormed) {l l' : List NodeId} (h : a.Path id l)
    (h' : a.Path id l') : l = l' := by
  induction h generalizing l' with
  | root hroot =>
    cases h' with
    | root => rfl
    | child _ hchild =>
      exact absurd (ha.parent_of_child _ _ hchild) ((ha.mem_roots _).1 hroot).not_parent
  | child _ hchild ih =>
    cases h' with
    | root hroot =>
      exact absurd (ha.parent_of_child _ _ hchild) ((ha.mem_roots _).1 hroot).not_parent
    | child hpath hchild' =>
      obtain rfl := (ha.parent_of_child _ _ hchild).unique (ha.parent_of_child _ _ hchild')
      rw [ih hpath]

/-- The parents of a node have smaller and smaller numbers, and there is an end to them. -/
theorem exists_parentsEnd (ha : a.WellFormed) (h : c < a.next) :
    ∃ l, a.ParentsEnd c (c :: l) ∧ (c :: l).Pairwise (· > ·) := by
  induction c using Nat.strongRecOn with
  | ind c ih =>
    rcases isTop_or_parent h with htop | ⟨p, hp⟩
    · exact ⟨[], .top htop, List.pairwise_singleton _ _⟩
    · have hlt := ha.parent_lt c p hp
      obtain ⟨l, hend, hfall⟩ := ih p hlt (Nat.lt_trans hlt h)
      refine ⟨p :: l, .inner hp hend, List.pairwise_cons.2 ⟨?_, hfall⟩⟩
      refine List.forall_mem_cons.2 ⟨hlt, fun q hq => ?_⟩
      exact Nat.lt_trans ((List.pairwise_cons.1 hfall).1 q hq) hlt

/-- Where nothing has been replaced a path leads to every node. -/
theorem exists_path (ha : a.WellFormed) (hnone : ∀ id, ¬a.IsFragment id) (h : c < a.next) :
    ∃ l, a.Path c l := by
  induction c using Nat.strongRecOn with
  | ind c ih =>
    rcases isTop_or_parent h with htop | ⟨p, hp⟩
    · exact ⟨[c], .root ((ha.mem_roots c).2 htop)⟩
    · have hlt := ha.parent_lt c p hp
      obtain ⟨l, hl⟩ := ih p hlt (Nat.lt_trans hlt h)
      exact ⟨c :: l, .child hl ((ha.listed c p hp).resolve_right (hnone p))⟩

/-! ## What is inside a node -/

theorem le_of_inside (ha : a.WellFormed) (h : a.Inside c p) : p ≤ c := by
  induction h with
  | refl => exact Nat.le_refl c
  | tail _ hp ih => exact Nat.le_trans (Nat.le_of_lt (ha.parent_lt _ _ hp)) ih

theorem inside_of_reach (ha : a.WellFormed) (h : a.Reach p c) : a.Inside c p := by
  induction h with
  | refl => exact .refl
  | tail _ hchild ih => exact .head (ha.parent_of_child _ _ hchild) ih

/-- From the first node on that is not inside a node, none is inside it. -/
theorem not_inside_of_le (ha : a.WellFormed) (hlt : p < c) (h : ¬a.Inside c p) {k : NodeId}
    (hk : c ≤ k) : ¬a.Inside k p := by
  induction k, hk using Nat.le_induction with
  | base => exact h
  | succ k hk ih =>
    intro hin
    rcases hin.cases_head with heq | ⟨q, hq, hqp⟩
    · exact absurd heq (Nat.ne_of_gt (Nat.lt_succ_of_le (Nat.le_trans (Nat.le_of_lt hlt) hk)))
    -- the parent of the node is around the node before it, too
    · exact ih ((ha.nested k q hq).trans hqp)

end WellFormed

/-! ## The stack -/

/-- `c` comes behind `p` and is not inside it. -/
def Apart (a : Arena) (p c : NodeId) : Prop := p < c ∧ ¬a.Inside c p

theorem visit_nil (rounds : Nat) : a.visit rounds [] = some [] := by
  cases rounds <;> rfl

theorem visit_cons {x : Cell} (h : a.cell? id = some x) (rounds : Nat) (rest : List NodeId) :
    a.visit (rounds + 1) (id :: rest) = (a.visit rounds (x.children ++ rest)).map (id :: ·) := by
  rw [visit, h]
  show (a.visit rounds (x.children ++ rest)).bind (fun later => some (id :: later)) = _
  cases a.visit rounds (x.children ++ rest) <;> rfl

/-- With more rounds the same is visited. -/
theorem visit_of_le {rounds rounds' : Nat} {stack out : List NodeId}
    (h : a.visit rounds stack = some out) (hle : rounds ≤ rounds') :
    a.visit rounds' stack = some out := by
  induction rounds generalizing stack out rounds' with
  | zero =>
    cases stack with
    | nil => rw [visit_nil] at h ⊢; exact h
    | cons id rest => cases h
  | succ rounds ih =>
    cases stack with
    | nil => rw [visit_nil] at h ⊢; exact h
    | cons id rest =>
      obtain ⟨rounds', rfl⟩ := Nat.exists_eq_add_of_le' (Nat.one_le_of_lt hle)
      cases hx : a.cell? id with
      | none =>
        rw [visit, hx] at h
        cases h
      | some x =>
        rw [visit_cons hx] at h ⊢
        obtain ⟨later, hlater, rfl⟩ := Option.map_eq_some_iff.1 h
        rw [ih hlater (Nat.le_of_succ_le_succ hle)]
        rfl

theorem visit_unique {rounds rounds' : Nat} {stack out out' : List NodeId}
    (h : a.visit rounds stack = some out) (h' : a.visit rounds' stack = some out') : out = out' := by
  rcases Nat.le_total rounds rounds' with hle | hle
  · exact Option.some.inj ((visit_of_le h hle).symm.trans h')
  · exact Option.some.inj (h.symm.trans (visit_of_le h' hle))

namespace WellFormed

theorem apart_roots (ha : a.WellFormed) : a.roots.Pairwise a.Apart := by
  refine ha.roots_increase.imp_of_mem fun {r c} _ hc hlt => ⟨hlt, fun hin => ?_⟩
  rcases hin.cases_head with rfl | ⟨p, hp, -⟩
  · exact Nat.lt_irrefl _ hlt
  · exact ((ha.mem_roots c).1 hc).not_parent hp

theorem apart_children (ha : a.WellFormed) {x : Cell} (hx : a.cell? id = some x) :
    x.children.Pairwise a.Apart := by
  refine (ha.children_increase id x hx).imp_of_mem fun {d c} hd hc hlt => ⟨hlt, fun hin => ?_⟩
  have hparent : ∀ b ∈ x.children, a.Parent b id := fun b hb => ha.parent_of_child id b ⟨x, hx, hb⟩
  rcases hin.cases_head with rfl | ⟨p, hp, hpd⟩
  · exact Nat.lt_irrefl _ hlt
  · obtain rfl := (hparent c hc).unique hp
    exact Nat.lt_irrefl _ (Nat.lt_of_le_of_lt (ha.le_of_inside hpd) (ha.parent_lt d _ (hparent d hd)))

/-- What is visited next is put on the stack apart from what is on it. -/
theorem apart_append (ha : a.WellFormed) {x : Cell} (hx : a.cell? id = some x) {rest : List NodeId}
    (h : (id :: rest).Pairwise a.Apart) : (x.children ++ rest).Pairwise a.Apart := by
  obtain ⟨hid, hrest⟩ := List.pairwise_cons.1 h
  refine List.pairwise_append.2 ⟨ha.apart_children hx, hrest, fun c hc y hy => ?_⟩
  obtain ⟨hlt, hout⟩ := hid y hy
  have hin : a.Inside c id := .single (ha.parent_of_child id c ⟨x, hx, hc⟩)
  refine ⟨?_, fun hyc => hout (hyc.trans hin)⟩
  by_contra hle
  exact ha.not_inside_of_le hlt hout (Nat.le_of_not_lt hle) hin

/-- **Nodes on the stack of which none is inside another are visited with all that is below them**,
in the order of the numbers. The number of the uppermost one grows with every round. -/
theorem exists_visit (ha : a.WellFormed) {rounds : Nat} {stack : List NodeId}
    (hlt : ∀ id ∈ stack, id < a.next) (hrounds : ∀ id ∈ stack, a.next ≤ id + rounds)
    (h : stack.Pairwise a.Apart) :
    ∃ out, a.visit rounds stack = some out ∧ out.Pairwise (· < ·) ∧
      ∀ id, id ∈ out ↔ ∃ r ∈ stack, a.Reach r id := by
  induction rounds generalizing stack with
  | zero =>
    cases stack with
    | nil => exact ⟨[], visit_nil 0, .nil, by simp⟩
    | cons id rest =>
      exact absurd (hlt id List.mem_cons_self) (Nat.not_lt.2 (hrounds id List.mem_cons_self))
  | succ rounds ih =>
    cases stack with
    | nil => exact ⟨[], visit_nil _, .nil, by simp⟩
    | cons id rest =>
      obtain ⟨x, hx⟩ := exists_cell? (hlt id List.mem_cons_self)
      have habove : ∀ y ∈ x.children ++ rest, id < y := by
        intro y hy
        rcases List.mem_append.1 hy with hy | hy
        · exact ha.parent_lt y id (ha.parent_of_child id y ⟨x, hx, hy⟩)
        · exact ((List.pairwise_cons.1 h).1 y hy).1
      have hbelow : ∀ y ∈ x.children ++ rest, y < a.next := by
        intro y hy
        rcases List.mem_append.1 hy with hy | hy
        · exact ha.child_lt_next ⟨x, hx, hy⟩
        · exact hlt y (List.mem_cons_of_mem _ hy)
      -- each of them has a greater number, so one round less is enough
      have hfewer : ∀ y ∈ x.children ++ rest, a.next ≤ y + rounds := by
        intro y hy
        have hid : a.next ≤ id + 1 + rounds := by
          rw [Nat.add_right_comm]
          exact hrounds id List.mem_cons_self
        exact Nat.le_trans hid (Nat.add_le_add_right (habove y hy) rounds)
      obtain ⟨out, hout, hsorted, hmem⟩ := ih hbelow hfewer (ha.apart_append hx h)
      refine ⟨id :: out, by rw [visit_cons hx, hout]; rfl, List.pairwise_cons.2 ⟨?_, hsorted⟩, ?_⟩
      · intro k hk
        obtain ⟨y, hy, hreach⟩ := (hmem k).1 hk
        exact Nat.lt_of_lt_of_le (habove y hy) (ha.le_of_inside (ha.inside_of_reach hreach))
      · intro k
        have hchild : ∀ y, y ∈ x.children ↔ a.Child id y := by simp [Child, hx]
        have hreach : a.Reach id k ↔ k = id ∨ ∃ y, a.Child id y ∧ a.Reach y k := by
          rw [Reach, Relation.ReflTransGen.cases_head_iff, eq_comm]
        simp only [List.mem_cons, hmem, List.mem_append, or_and_right, exists_or, exists_eq_left,
          hchild, hreach, or_assoc]

/-- **The nodes that are visited are those that a path leads to**, each once, in the order of their
numbers. -/
theorem exists_descendants (ha : a.WellFormed) :
    ∃ out, a.descendants = some out ∧ out.Pairwise (· < ·) ∧ ∀ id, id ∈ out ↔ ∃ l, a.Path id l := by
  simp only [path_iff_reach]
  exact ha.exists_visit (fun r hr => ((ha.mem_roots r).1 hr).lt_next)
    (fun r _ => Nat.le_add_left _ r) ha.apart_roots

/-- Where nothing has been replaced all nodes are visited. -/
theorem descendants_eq_range (ha : a.WellFormed) (hnone : ∀ id, ¬a.IsFragment id) :
    a.descendants = some (List.range a.next) := by
  obtain ⟨out, hout, hsorted, hmem⟩ := ha.exists_descendants
  rw [hout, hsorted.eq_of_mem_iff List.pairwise_lt_range]
  intro id
  rw [hmem, List.mem_range]
  refine ⟨fun hpath => ?_, ha.exists_path hnone⟩
  obtain ⟨l, hl⟩ := hpath
  cases hl with
  | root h => exact ((ha.mem_roots id).1 h).lt_next
  | child _ h => exact ha.child_lt_next h

end WellFormed

end Arena

end RichContent
