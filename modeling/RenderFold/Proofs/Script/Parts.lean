import RenderFold.Script.Shape
import RenderFold.Proofs.Script.Spans
import Mathlib.Data.List.Find

/-!
# Parts of Expressions

Where the expressions stand that folding looks up: the elements of the list
of children of a call are below the call, and what a function returns is
below the function. So they are roots of trees that have no part in common if
what they are below is the root of a tree.

## Theorems

* `Arena.elements_spans`: The children of a call.
* `Arena.singleReturn?_spans`: What a function returns.
-/

namespace RenderFold

namespace Script

namespace Arena

variable {arena other : Arena} {id array found : Id} {elements span : List Id}

theorem lt_size_of_get {node : Node Id} (h : arena.get id = node) (hne : node ≠ .hole) :
    id < arena.size := by
  by_cases hlt : id < arena.size
  · exact hlt
  · rw [get_of_size_le (Nat.le_of_not_lt hlt)] at h
    exact absurd h.symm hne

theorem get_of_elements? (h : arena.elements? id = some elements) :
    arena.get id = .array elements := by
  unfold elements? at h
  split at h
  · next hget =>
      cases h
      exact hget
  · cases h

theorem arguments_subset (arena : Arena) (id : Id) :
    arena.arguments id ⊆ (arena.get id).children := by
  intro x hx
  unfold arguments at hx
  split at hx
  · next callee arguments hget =>
      rw [hget]
      exact List.mem_cons_of_mem _ hx
  · exact absurd hx List.not_mem_nil

/-- A call that is recognised is a call of that name. -/
theorem helper?_eq_some_iff {helper : Helper} : arena.helper? id = some helper ↔
    ∃ callee arguments name, arena.get id = .call callee arguments ∧
      arena.get callee = .ident name ∧ Helper.ofName? name = some helper := by
  constructor
  · intro h
    unfold helper? at h
    split at h
    · next callee arguments hcall =>
        split at h
        · next name hname => exact ⟨callee, arguments, name, hcall, hname, h⟩
        · cases h
    · cases h
  · rintro ⟨callee, arguments, name, hcall, hname, hhelper⟩
    simp only [helper?, hcall, hname, hhelper]

/-- A call is recognised by the names among its parts. -/
theorem helper?_congr (hid : other.get id = arena.get id)
    (hnames : ∀ x ∈ (arena.get id).children, ∀ name,
      other.get x = .ident name ↔ arena.get x = .ident name) :
    other.helper? id = arena.helper? id := by
  refine Option.ext fun helper => ?_
  rw [helper?_eq_some_iff, helper?_eq_some_iff, hid]
  refine exists_congr fun callee => exists_congr fun arguments => exists_congr fun name =>
    and_congr_right fun hcall => and_congr_left fun _ => hnames callee ?_ name
  rw [hcall]
  exact List.mem_cons_self

/-- The list of children is found by looking at the call, and at which of its
    parts are names and lists. -/
theorem childArray?_congr (hid : other.get id = arena.get id)
    (hnames : ∀ x ∈ (arena.get id).children, ∀ name,
      other.get x = .ident name ↔ arena.get x = .ident name)
    (hlists : ∀ x ∈ (arena.get id).children,
      (other.elements? x).isSome = (arena.elements? x).isSome) :
    other.childArray? id = arena.childArray? id := by
  have harguments : other.arguments id = arena.arguments id := by
    rw [arguments, hid, arguments]
  unfold childArray?
  rw [helper?_congr hid hnames, harguments]
  cases arena.helper? id with
  | none => rfl
  | some helper =>
      simp only [Option.bind_eq_bind, Option.bind_some]
      refine List.find?_congr fun x hx => ?_
      obtain ⟨place, -, hplace⟩ := List.mem_filterMap.mp hx
      exact hlists x (arguments_subset arena id (List.mem_of_getElem? hplace))

/-- The elements of a list among the parts of an expression are below the
    expression. -/
theorem elements_spans (h : Spans arena [id] span) (harray : array ∈ (arena.get id).children)
    (helements : arena.elements? array = some elements) :
    ∃ inner, Spans arena elements inner ∧ inner.Sublist span.tail := by
  obtain ⟨inner, hinner, hsub⟩ := h.of_part harray
  obtain ⟨below, -, hbelow, rfl⟩ := Spans.single_iff.mp hinner
  rw [get_of_elements? helements] at hbelow
  exact ⟨below, hbelow, (List.sublist_cons_self ..).trans hsub⟩

theorem onlyReturn?_mem {statements : List Id} :
    ∀ {before}, arena.onlyReturn? before statements = some found →
      before = some found ∨
        ∃ statement ∈ statements, found ∈ (arena.get statement).children := by
  -- By induction on the statements. The return is found at most once, and it is
  -- either among those that are left or was found before.
  induction statements with
  | nil => exact fun h => Or.inl h
  | cons statement rest ih =>
      intro before h
      unfold onlyReturn? at h
      split at h
      · next argument hget =>
          split at h
          · cases h
          · rcases ih h with hfound | ⟨other, hother, hmem⟩
            · cases hfound
              refine Or.inr ⟨statement, List.mem_cons_self, ?_⟩
              rw [hget]
              exact List.mem_cons_self
            · exact Or.inr ⟨other, List.mem_cons_of_mem _ hother, hmem⟩
      · cases h
      · cases h
      · rcases ih h with hfound | ⟨other, hother, hmem⟩
        · exact Or.inl hfound
        · exact Or.inr ⟨other, List.mem_cons_of_mem _ hother, hmem⟩

/-- What a function returns is below the function. -/
theorem singleReturn?_spans (h : Spans arena [id] span)
    (hfound : arena.singleReturn? id = some found) :
    ∃ inner, Spans arena [found] inner ∧ inner.Sublist span := by
  unfold singleReturn? at hfound
  split at hfound
  · next name parameters body hget =>
      obtain ⟨hreturn, -⟩ := Option.filter_eq_some_iff.mp hfound
      rcases onlyReturn?_mem hreturn with hnone | ⟨statement, hstatement, hmem⟩
      · cases hnone
      · obtain ⟨middle, hmiddle, hsub⟩ := h.of_part (by rw [hget]; exact hstatement)
        obtain ⟨inner, hinner, hsub'⟩ := hmiddle.of_part hmem
        exact ⟨inner, hinner, (hsub'.trans (List.tail_sublist _)).trans
          (hsub.trans (List.tail_sublist _))⟩
  · cases hfound

end Arena

end Script

end RenderFold
