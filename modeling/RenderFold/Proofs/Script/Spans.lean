import RenderFold.Script.Arena
import Mathlib.Data.List.Nodup

/-!
# Spans

What is below some indices of an arena, written out as a list. An arena may
hold shared parts and cycles, and neither can be seen from a single node. A
span can: it lists the indices below once for every path, so there is one
only if no path is endless, and it names an index twice exactly if a part is
shared. Indices whose span names nothing twice are the roots of trees that
have no part in common.

A span only depends on the nodes in it. So rewriting a node outside a span
leaves the span as it is, and adding nodes leaves every span as it is.

## Main definitions

* `Arena.Spans`: The indices below some indices, once for every path.
* `Arena.Extends`: An arena that keeps the nodes of another.
* `Arena.Grown`: Trees among the nodes from an index on.

## Theorems

* `Spans.transport`: A span only depends on the nodes in it.
* `Spans.append`, `Spans.of_append`: Spans of neighbours.
* `Spans.closed`: The parts of a node in a span are in the span.
* `Spans.unique`: There is at most one span.
* `Grown.push`: A new node over trees is a tree.
-/

namespace RenderFold

namespace Script

namespace Arena

/-- The indices below some indices and themselves, once for every path, each
    node before its parts. All of them lead to a node. -/
inductive Spans (arena : Arena) : List Id → List Id → Prop where
  | nil : Spans arena [] []
  | cons {id : Id} {ids below rest : List Id} (hlt : id < arena.size)
      (hbelow : Spans arena (arena.get id).children below) (hrest : Spans arena ids rest) :
      Spans arena (id :: ids) (id :: below ++ rest)

namespace Spans

variable {arena other : Arena} {id : Id} {ids ids' span span' : List Id}

theorem subset (h : Spans arena ids span) : ids ⊆ span := by
  induction h with
  | nil => exact List.Subset.refl []
  | cons hlt hbelow hrest ihbelow ihrest =>
      intro x hx
      rcases List.mem_cons.mp hx with rfl | hx
      · exact List.mem_cons_self
      · exact List.mem_append_right _ (ihrest hx)

theorem lt_size (h : Spans arena ids span) : ∀ x ∈ span, x < arena.size := by
  induction h with
  | nil => exact fun x hx => absurd hx List.not_mem_nil
  | cons hlt hbelow hrest ihbelow ihrest =>
      intro x hx
      simp only [List.cons_append, List.mem_cons, List.mem_append] at hx
      rcases hx with rfl | hx | hx
      · exact hlt
      · exact ihbelow x hx
      · exact ihrest x hx

theorem transport (h : Spans arena ids span) (hsize : arena.size ≤ other.size)
    (hsame : ∀ x ∈ span, other.get x = arena.get x) : Spans other ids span := by
  induction h with
  | nil => exact .nil
  | @cons id ids below rest hlt hbelow hrest ihbelow ihrest =>
      have hid : other.get id = arena.get id := hsame id List.mem_cons_self
      refine .cons (Nat.lt_of_lt_of_le hlt hsize) ?_ (ihrest fun x hx => ?_)
      · rw [hid]
        exact ihbelow fun x hx => hsame x (List.mem_cons_of_mem _ (List.mem_append_left _ hx))
      · exact hsame x (List.mem_append_right _ hx)

theorem append (h : Spans arena ids span) (h' : Spans arena ids' span') :
    Spans arena (ids ++ ids') (span ++ span') := by
  induction h with
  | nil => exact h'
  | cons hlt hbelow hrest _ ihrest =>
      rw [List.append_assoc]
      exact .cons hlt hbelow ihrest

theorem of_append (h : Spans arena (ids ++ ids') span) :
    ∃ front back, Spans arena ids front ∧ Spans arena ids' back ∧ span = front ++ back := by
  induction ids generalizing span with
  | nil => exact ⟨[], span, .nil, h, rfl⟩
  | cons id ids ih =>
      cases h with
      | cons hlt hbelow hrest =>
          obtain ⟨front, back, hfront, hback, rfl⟩ := ih hrest
          exact ⟨_, back, .cons hlt hbelow hfront, hback, (List.append_assoc ..).symm⟩

theorem of_cons (h : Spans arena (id :: ids) span) :
    ∃ front back, Spans arena [id] front ∧ Spans arena ids back ∧ span = front ++ back :=
  @of_append arena [id] ids span h

/-- The span of a node is the node and the span of its parts. -/
theorem single_iff : Spans arena [id] span ↔
    ∃ below, id < arena.size ∧ Spans arena (arena.get id).children below ∧ span = id :: below := by
  constructor
  · intro h
    cases h with
    | cons hlt hbelow hrest =>
        cases hrest
        exact ⟨_, hlt, hbelow, List.append_nil _⟩
  · rintro ⟨below, hlt, hbelow, rfl⟩
    have := Spans.cons hlt hbelow .nil
    rwa [List.append_nil] at this

theorem unique (h : Spans arena ids span) (h' : Spans arena ids span') : span = span' := by
  induction h generalizing span' with
  | nil => cases h'; rfl
  | cons hlt hbelow hrest ihbelow ihrest =>
      cases h' with
      | cons _ hbelow' hrest' => rw [ihbelow hbelow', ihrest hrest']

/-- Every index in a span has a span of its own, which is part of it. -/
theorem of_mem (h : Spans arena ids span) {x : Id} (hx : x ∈ span) :
    ∃ inner, Spans arena [x] inner ∧ inner.Sublist span := by
  -- By induction on the span: the index is the node itself, below it, or below one
  -- of its neighbours.
  induction h with
  | nil => exact absurd hx List.not_mem_nil
  | @cons id ids below rest hlt hbelow hrest ihbelow ihrest =>
      simp only [List.cons_append, List.mem_cons, List.mem_append] at hx
      rcases hx with rfl | hx | hx
      · refine ⟨x :: below, single_iff.mpr ⟨below, hlt, hbelow, rfl⟩, ?_⟩
        exact List.sublist_append_left ..
      · obtain ⟨inner, hinner, hsub⟩ := ihbelow hx
        exact ⟨inner, hinner, (hsub.trans (List.sublist_cons_self ..)).trans
          (List.sublist_append_left ..)⟩
      · obtain ⟨inner, hinner, hsub⟩ := ihrest hx
        exact ⟨inner, hinner, hsub.trans (List.sublist_append_right ..)⟩

/-- The parts of a node in a span are in the span. -/
theorem closed (h : Spans arena ids span) {x part : Id} (hx : x ∈ span)
    (hpart : part ∈ (arena.get x).children) : part ∈ span := by
  obtain ⟨inner, hinner, hsub⟩ := h.of_mem hx
  obtain ⟨below, _, hbelow, rfl⟩ := single_iff.mp hinner
  exact hsub.subset (List.mem_cons_of_mem _ (hbelow.subset hpart))

/-- The span of a part of a node that is in a span. -/
theorem of_part (h : Spans arena [id] span) {part : Id} (hpart : part ∈ (arena.get id).children) :
    ∃ inner, Spans arena [part] inner ∧ inner.Sublist span.tail := by
  obtain ⟨below, _, hbelow, rfl⟩ := single_iff.mp h
  exact hbelow.of_mem (hbelow.subset hpart)

end Spans

/-- An arena that keeps the nodes of another. -/
def Extends (arena other : Arena) : Prop :=
  arena.size ≤ other.size ∧ ∀ id, id < arena.size → other.get id = arena.get id

namespace Extends

variable {a b c : Arena} {ids span : List Id}

theorem refl (a : Arena) : Extends a a := ⟨Nat.le_refl _, fun _ _ => rfl⟩

theorem trans (hab : Extends a b) (hbc : Extends b c) : Extends a c :=
  ⟨Nat.le_trans hab.1 hbc.1, fun id hid =>
    (hbc.2 id (Nat.lt_of_lt_of_le hid hab.1)).trans (hab.2 id hid)⟩

theorem push (a : Arena) (node : Node Id) : Extends a (a.push node).2 :=
  ⟨by rw [size_push]; exact Nat.le_succ _, fun _ hid => get_push_of_ne a node (Nat.ne_of_lt hid)⟩

theorem spans (h : Extends a b) (hspans : Spans a ids span) : Spans b ids span :=
  hspans.transport h.1 fun id hid => h.2 id (hspans.lt_size id hid)

end Extends

/-- Some indices are the roots of trees that have no part in common and are
    made of nodes from index `start` on. -/
def Grown (start : Nat) (arena : Arena) (ids : List Id) : Prop :=
  ∃ span, Spans arena ids span ∧ span.Nodup ∧ ∀ id ∈ span, start ≤ id

namespace Grown

variable {start : Nat} {arena other : Arena} {ids ids' : List Id}

theorem nil (start : Nat) (arena : Arena) : Grown start arena [] :=
  ⟨[], .nil, List.nodup_nil, fun _ h => absurd h List.not_mem_nil⟩

/-- Trees that were there before have nothing in common with trees made of
    nodes that were added since. -/
theorem append (h : Grown start arena ids) (hext : Extends arena other)
    (hstart : start ≤ arena.size) (h' : Grown arena.size other ids') :
    Grown start other (ids ++ ids') := by
  obtain ⟨span, hspans, hnodup, hle⟩ := h
  obtain ⟨span', hspans', hnodup', hle'⟩ := h'
  refine ⟨span ++ span', (hext.spans hspans).append hspans', ?_, fun id hid => ?_⟩
  -- The first trees were complete before the others were begun.
  · refine List.Nodup.append hnodup hnodup' fun id hid hid' => ?_
    exact absurd (hspans.lt_size id hid) (Nat.not_lt_of_le (hle' id hid'))
  · rcases List.mem_append.mp hid with hid | hid
    · exact hle id hid
    · exact Nat.le_trans hstart (hle' id hid)

theorem push {node : Node Id} (h : Grown start arena node.children) (hstart : start ≤ arena.size) :
    Grown start (arena.push node).2 [(arena.push node).1] := by
  obtain ⟨span, hspans, hnodup, hle⟩ := h
  have hnew : (arena.push node).1 = arena.size := rfl
  refine ⟨arena.size :: span, Spans.single_iff.mpr ⟨span, ?_, ?_, rfl⟩, ?_, fun id hid => ?_⟩
  · rw [hnew, size_push]
    exact Nat.lt_succ_self _
  · rw [get_push_self]
    exact (Extends.push arena node).spans hspans
  · exact List.nodup_cons.mpr
      ⟨fun hmem => Nat.lt_irrefl _ (hspans.lt_size _ hmem), hnodup⟩
  · rcases List.mem_cons.mp hid with rfl | hid
    · exact hstart
    · exact hle id hid

end Grown

end Arena

end Script

end RenderFold
