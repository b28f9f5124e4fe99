import RenderFold.Proofs.Script.Shared

/-!
# Markup Around a Text

A text that is taken into the markup around it is joined to the markup before
it and to the markup after it. What comes of this depends on the ends of the
text, if it is a chain of sums. Where a literal stands at an end, the markup is
taken into that literal, which changes it for everyone that shares it, and for
whoever joins the same markup to the same text again. Anywhere else a node is
added and the text stays what it was.

So joining the same markup twice amounts to joining it once, unless a literal
has taken something in. If one has, it is longer after the second time.

## Main definitions

* `Tree.endText?`: The text at an end of a chain of sums.
* `Tree.Absorbs`: Where markup is taken into a literal.
* `Tree.wrapped`: Markup around a text that takes nothing in.
* `Arena.wrap`: Joining markup to a text.
* `Arena.EndsAt`: The literal at an end.
* `Arena.Lengthens`: What stays, if literals may become longer.

## Theorems

* `Grounded.wrap_tree`: Markup around a text that takes nothing in.
* `EndsAt.wrap`: What the literal at an end takes in.
* `Clear.rewrap_iff`: Joining the same markup twice.
-/

namespace RenderFold

namespace Script

/-- A sum with a literal as its first part, or as its second. -/
def Node.sumBeside {α : Type} (first : Bool) (literal chain : α) : Node α :=
  if first then .binary .add literal chain else .binary .add chain literal

theorem Node.sumBeside_map {α β : Type} (f : α → β) (first : Bool) (literal chain : α) :
    (sumBeside first literal chain).map f = sumBeside first (f literal) (f chain) := by
  cases first <;> rfl

namespace Tree

/-- The text at one end of a chain of sums: `first` picks the left one. -/
def endText? (first : Bool) : Tree → Option String
  | .mk (.str text) => some text
  | .mk (.binary .add left right) => if first then endText? first left else endText? first right
  | _ => none

/-- A chain of sums takes in markup that is not empty wherever it ends in a
    literal. -/
def Absorbs (opening closing : String) : Tree → Prop
  | .mk (.binary .add left right) =>
    (endText? true left).isSome = true ∧ opening ≠ "" ∨
      (endText? false right).isSome = true ∧ closing ≠ ""
  | _ => False

/-- A text beside an expression that does not take it in. -/
def attached (first : Bool) (text : String) (chain : Tree) : Tree :=
  if (chain.endText? first).isSome then chain
  else .mk (Node.sumBeside first (.mk (.str text)) chain)

/-- Markup around an expression that takes in none of it, or is a literal. -/
def wrapped (opening closing : String) : Tree → Tree
  | .mk (.str text) => .mk (.str (opening ++ text ++ closing))
  | chain => (chain.attached true opening).attached false closing

/-- What is put at one end does not show at the other. -/
theorem endText?_attached (first : Bool) (text : String) (chain : Tree) :
    (chain.attached first text).endText? (!first) = chain.endText? (!first) := by
  unfold attached
  split
  · rfl
  · cases first <;> rfl

theorem absorbs_iff {opening closing : String} {t : Tree} (ht : ∀ text, t ≠ .mk (.str text)) :
    t.Absorbs opening closing ↔ (t.endText? true).isSome = true ∧ opening ≠ "" ∨
      (t.endText? false).isSome = true ∧ closing ≠ "" := by
  obtain ⟨node⟩ := t
  cases node with
  | binary op left right =>
      cases op with
      | add => exact Iff.rfl
      | _ => exact iff_of_false (fun h => h) (by rintro (⟨h, -⟩ | ⟨h, -⟩) <;> cases h)
  | str text => exact absurd rfl (ht text)
  | _ => exact iff_of_false (fun h => h) (by rintro (⟨h, -⟩ | ⟨h, -⟩) <;> cases h)

theorem wrapped_of_ne {t : Tree} (ht : ∀ text, t ≠ .mk (.str text)) (opening closing : String) :
    t.wrapped opening closing = (t.attached true opening).attached false closing := by
  unfold wrapped
  split
  · next text => exact absurd rfl (ht text)
  · rfl

end Tree

namespace Arena

variable {arena a b : Arena} {root id left right chain literal argument target x : Id}
  {first side : Bool} {text opening closing : String}

/-- Join markup to a text, before and after it. -/
def wrap (arena : Arena) (opening : String) (argument : Id) (closing : String) : Id × Arena :=
  let (left, arena) := arena.push (.str opening)
  let (right, arena) := arena.push (.str closing)
  let (start, arena) := arena.join left argument
  arena.join start right

/-- Join a literal to one end of an expression that is not a literal. -/
def attach (arena : Arena) (first : Bool) (text : String) (literal chain : Id) : Id × Arena :=
  match arena.endLiteral? first arena.size chain with
  | some target =>
    (chain, arena.mapLiteral target fun old => if first then text ++ old else old ++ text)
  | none => arena.push (Node.sumBeside first literal chain)

theorem join_before (hleft : arena.literal? left = some text)
    (hright : arena.literal? right = none) :
    arena.join left right = arena.attach true text left right := by
  unfold join attach
  rw [hleft, hright]
  rfl

theorem join_after (hleft : arena.literal? left = none)
    (hright : arena.literal? right = some text) :
    arena.join left right = arena.attach false text right left := by
  unfold join attach
  rw [hleft, hright]
  rfl

theorem literal?_eq_some_iff : arena.literal? id = some text ↔ arena.get id = .str text := by
  refine ⟨get_of_literal?, fun h => ?_⟩
  rw [literal?, h]

/-- The text at an end, down to any depth. -/
theorem endText?_treeTo (arena : Arena) (first : Bool) : ∀ (depth : Nat) (id : Id),
    (arena.treeTo depth id).endText? first =
      (arena.endLiteral? first depth id).bind arena.literal?
  | 0, _ => rfl
  | depth + 1, id => by
      unfold treeTo endLiteral?
      cases hget : arena.get id with
      | binary op left right =>
          cases op with
          | add =>
              cases first
              · exact endText?_treeTo arena false depth right
              · exact endText?_treeTo arena true depth left
          | _ => rfl
      | str text => exact (literal?_eq_some_iff.mpr hget).symm
      | _ => rfl

theorem Grounded.endText?_tree (h : arena.Grounded id) {depth : Nat} (hdepth : arena.size ≤ depth) :
    (arena.tree id).endText? first = (arena.endLiteral? first depth id).bind arena.literal? := by
  rw [← h.treeTo_eq hdepth, endText?_treeTo]

theorem end_mem (first : Bool) (h : arena.get id = .binary .add left right) :
    (if first then left else right) ∈ (arena.get id).children := by
  rw [h]
  cases first
  · exact List.mem_cons_of_mem _ List.mem_cons_self
  · exact List.mem_cons_self

/-- The literal at an end of a chain of sums, however long the chain is. -/
inductive EndsAt (arena : Arena) (first : Bool) : Id → Id → Prop where
  | here {id : Id} {text : String} (h : arena.get id = .str text) : EndsAt arena first id id
  | down {id left right target : Id} (h : arena.get id = .binary .add left right)
      (hrest : EndsAt arena first (if first then left else right) target) :
      EndsAt arena first id target

namespace EndsAt

theorem get_target (h : arena.EndsAt first id target) : ∃ text, arena.get target = .str text := by
  induction h with
  | here h => exact ⟨_, h⟩
  | down _ _ ih => exact ih

theorem of_endLiteral? : ∀ {depth : Nat} {id : Id}, arena.endLiteral? first depth id = some target →
    arena.EndsAt first id target
  | 0, _, h => by cases h
  | depth + 1, id, h => by
      unfold endLiteral? at h
      split at h
      · next hget => exact .down hget (of_endLiteral? h)
      · next hget =>
          cases h
          exact .here hget
      · cases h

/-- The search for the literal is not cut off. -/
theorem endLiteral?_eq (h : arena.EndsAt first id target) : ∀ {bound depth : Nat},
    arena.EndsWithin bound id → bound ≤ depth → arena.endLiteral? first depth id = some target := by
  induction h with
  | here h =>
      intro bound depth hends hle
      obtain ⟨depth, rfl⟩ := Nat.exists_eq_add_one_of_ne_zero (hends.ne_zero_of_le hle)
      rw [endLiteral?, h]
  | down h _ ih =>
      intro bound depth hends hle
      obtain ⟨depth, rfl⟩ := Nat.exists_eq_add_one_of_ne_zero (hends.ne_zero_of_le hle)
      cases bound with
      | zero => exact hends.elim
      | succ bound =>
          rw [endLiteral?, h]
          exact ih (hends.2 _ (end_mem first h)) (Nat.le_of_succ_le_succ hle)

theorem iff_endLiteral? (hid : arena.Grounded id) :
    arena.EndsAt first id target ↔ arena.endLiteral? first arena.size id = some target :=
  ⟨fun h => h.endLiteral?_eq hid.endsWithin (Nat.le_refl _), of_endLiteral?⟩

/-- The text at the end is that of the literal. -/
theorem endText?_tree (h : arena.EndsAt first id target) (hid : arena.Grounded id)
    (htext : arena.get target = .str text) : (arena.tree id).endText? first = some text := by
  rw [hid.endText?_tree (Nat.le_refl _), (iff_endLiteral? hid).mp h, Option.bind_some]
  exact literal?_eq_some_iff.mpr htext

end EndsAt

/-- Everything but one node is what it was, except that literals may have
    become longer. -/
structure Lengthens (root : Id) (a b : Arena) : Prop where
  size_le : a.size ≤ b.size
  kept : ∀ x < a.size, x ≠ root → b.get x = a.get x ∨
    ∃ text more, a.get x = .str text ∧ b.get x = .str more ∧ text.length ≤ more.length

namespace Lengthens

variable {c : Arena}

theorem of_extends (h : Extends a b) : Lengthens root a b :=
  ⟨h.1, fun x hx _ => Or.inl (h.2 x hx)⟩

theorem get_str (h : Lengthens root a b) (hne : x ≠ root) (hx : a.get x = .str text) :
    ∃ more, b.get x = .str more ∧ text.length ≤ more.length := by
  have hlt : x < a.size := lt_size_of_get hx fun h => by cases h
  rcases h.kept x hlt hne with hsame | ⟨_, more, hold, hnew, hle⟩
  · exact ⟨text, hsame.trans hx, Nat.le_refl _⟩
  · rw [hx] at hold
    cases hold
    exact ⟨more, hnew, hle⟩

/-- What is no literal is what it was. -/
theorem get_eq (h : Lengthens root a b) (hlt : x < a.size) (hne : x ≠ root)
    (hx : a.literal? x = none) : b.get x = a.get x := by
  rcases h.kept x hlt hne with hsame | ⟨text, _, hold, -⟩
  · exact hsame
  · rw [literal?_eq_some_iff.mpr hold] at hx
    cases hx

theorem trans (hab : Lengthens root a b) (hbc : Lengthens root b c) : Lengthens root a c := by
  refine ⟨Nat.le_trans hab.size_le hbc.size_le, fun x hx hne => ?_⟩
  rcases hab.kept x hx hne with hsame | ⟨text, more, hold, hnew, hle⟩
  · rw [← hsame]
    exact hbc.kept x (Nat.lt_of_lt_of_le hx hab.size_le) hne
  · obtain ⟨most, hget, hle'⟩ := hbc.get_str hne hnew
    exact Or.inr ⟨text, most, hold, hget, Nat.le_trans hle hle'⟩

theorem replace (a : Arena) (root : Id) (node : Node Id) : Lengthens root a (a.replace root node) :=
  ⟨Nat.le_of_eq (size_replace a root node).symm, fun _ _ hne =>
    Or.inl (get_replace_of_ne a node hne)⟩

theorem mapLiteral (root : Id) (a : Arena) (target : Id) {f : String → String}
    (hf : ∀ text, text.length ≤ (f text).length) : Lengthens root a (a.mapLiteral target f) := by
  refine ⟨(mapLiteral_sameParts a target f).1, fun x hx _ => ?_⟩
  by_cases hne : x = target
  · subst hne
    unfold Arena.mapLiteral
    split
    · next text hget => exact Or.inr ⟨text, f text, hget, get_replace_self hx _, hf text⟩
    · exact Or.inl rfl
  · exact Or.inl (get_mapLiteral_of_ne a f hne)

theorem join (root : Id) (a : Arena) (left right : Id) :
    Lengthens root a (a.join left right).2 := by
  have hpush (node : Node Id) : Lengthens root a (a.push node).2 := of_extends (.push a node)
  have hbefore (text old : String) : old.length ≤ (text ++ old).length := by
    rw [String.length_append]
    exact Nat.le_add_left _ _
  have hafter (text old : String) : old.length ≤ (old ++ text).length := by
    rw [String.length_append]
    exact Nat.le_add_right _ _
  unfold Arena.join
  split
  · exact hpush _
  · split
    · exact mapLiteral root a _ (hbefore _)
    · exact hpush _
  · split
    · exact mapLiteral root a _ (hafter _)
    · exact hpush _
  · exact hpush _

/-- Joining markup to a text. -/
theorem wrap (root : Id) (a : Arena) (opening : String) (argument : Id) (closing : String) :
    Lengthens root a (a.wrap opening argument closing).2 :=
  (((of_extends (.push a _)).trans (of_extends (.push _ _))).trans (join root _ _ _)).trans
    (join root _ _ _)

end Lengthens

/-- What is clear stays clear where literals become longer. -/
theorem Clear.lengthen (h : a.Clear root x) (hle : Lengthens root a b) : b.Clear root x := by
  refine h.congr hle.size_le fun y hy hne => ?_
  rcases hle.kept y hy hne with hsame | ⟨text, more, hold, hnew, -⟩
  · rw [hsame]
  · rw [hold, hnew]
    rfl

/-- A text is still one, of the same argument. -/
theorem Lengthens.textArgument?_eq (h : Lengthens root a b) (hx : a.Clear root x) :
    b.textArgument? x = a.textArgument? x := by
  rcases h.kept x hx.lt_size hx.ne with hsame | ⟨text, more, hold, hnew, -⟩
  · have hhelper : b.helper? x = a.helper? x := by
      refine helper?_congr hsame fun y hy name => ?_
      rcases h.kept y (hx.part hy).lt_size (hx.part hy).ne with hsame | ⟨_, _, hold, hnew, -⟩
      · rw [hsame]
      · rw [hold, hnew]
        exact iff_of_false (fun h => by cases h) fun h => by cases h
    have harguments : b.arguments x = a.arguments x := by rw [arguments, hsame, arguments]
    rw [textArgument?, isTextCall, hhelper, harguments, textArgument?, isTextCall]
  · simp only [textArgument?, isTextCall, arguments, helper?, hold, hnew]

/-- A chain of sums still ends in the same literal. -/
theorem EndsAt.lengthen (h : a.EndsAt first id target) :
    a.Clear root id → Lengthens root a b → b.EndsAt first id target := by
  induction h with
  | here h =>
      intro hclear hle
      obtain ⟨more, hmore, -⟩ := hle.get_str hclear.ne h
      exact .here hmore
  | @down id left right target h _ ih =>
      intro hclear hle
      have hsame : b.get id = a.get id := by
        refine hle.get_eq hclear.lt_size hclear.ne ?_
        rw [literal?, h]
      exact .down (hsame.trans h) (ih (hclear.part (end_mem first h)) hle)

/-- The literal at an end is clear of what the chain is clear of. -/
theorem EndsAt.clear (h : a.EndsAt first id target) : a.Clear root id → a.Clear root target := by
  induction h with
  | here _ => exact fun hclear => hclear
  | down h _ ih => exact fun hclear => ih (hclear.part (end_mem first h))

/-- What joining gives is clear of what both sides are clear of. -/
theorem Clear.join (hroot : root < arena.size) (hleft : arena.Clear root left)
    (hright : arena.Clear root right) :
    (arena.join left right).2.Clear root (arena.join left right).1 := by
  have hsum : (arena.push (.binary .add left right)).2.Clear root _ :=
    .push _ hroot (List.forall_mem_cons.mpr ⟨hleft, List.forall_mem_singleton.mpr hright⟩)
  have hkeep {x : Id} (hx : arena.Clear root x) (target : Id) (f : String → String) :
      (arena.mapLiteral target f).Clear root x :=
    have hsame := mapLiteral_sameParts arena target f
    hx.congr hsame.1 fun y hy _ => hsame.2 y hy
  unfold Arena.join
  split
  · exact .push _ hroot fun _ hx => absurd hx List.not_mem_nil
  · split
    · exact hkeep hright _ _
    · exact hsum
  · split
    · exact hkeep hleft _ _
    · exact hsum
  · exact hsum

theorem Clear.wrap (hroot : root < arena.size) (h : arena.Clear root argument)
    (opening closing : String) :
    (arena.wrap opening argument closing).2.Clear root (arena.wrap opening argument closing).1 := by
  have hleaf {before : Arena} (text : String) (hroot : root < before.size) :
      (before.push (.str text)).2.Clear root (before.push (.str text)).1 :=
    .push _ hroot fun _ hx => absurd hx List.not_mem_nil
  have h₁ := Extends.push arena (.str opening)
  have h₂ := Extends.push (arena.push (.str opening)).2 (.str closing)
  have hroot₂ := hroot.trans_le (h₁.1.trans h₂.1)
  have hstart := Clear.join hroot₂ ((hleaf opening hroot).extend h₂).1 (h.extend (h₁.trans h₂)).1
  have hjoin := Lengthens.join root ((arena.push (.str opening)).2.push (.str closing)).2
    (arena.push (.str opening)).1 argument
  exact Clear.join (hroot₂.trans_le hjoin.size_le) hstart
    ((hleaf closing (hroot.trans_le h₁.1)).lengthen hjoin)

theorem Lengthens.attach (root : Id) (a : Arena) (first : Bool) (text : String)
    (literal chain : Id) :
    Lengthens root a (a.attach first text literal chain).2 := by
  unfold Arena.attach
  split
  · refine .mapLiteral root a _ fun old => ?_
    cases first
    · exact (String.length_append ..) ▸ Nat.le_add_right _ _
    · exact (String.length_append ..) ▸ Nat.le_add_left _ _
  · exact .of_extends (.push a _)

/-- What joining gives ends in the literal that the chain ends in. -/
theorem EndsAt.attach (h : arena.EndsAt side chain target) (hchain : arena.Clear root chain)
    (first : Bool) (text : String) (literal : Id) :
    (arena.attach first text literal chain).2.EndsAt side
      (arena.attach first text literal chain).1 target := by
  have hkeep := h.lengthen hchain (.attach root arena first text literal chain)
  unfold Arena.attach at hkeep ⊢
  split at hkeep
  · exact hkeep
  · next hnone =>
      have hnew := get_push_self arena (Node.sumBeside first literal chain)
      have hside : side = !first := by
        refine Bool.eq_not_of_ne fun heq => ?_
        rw [heq] at h
        cases hnone.symm.trans ((iff_endLiteral? hchain.grounded).mp h)
      subst hside
      cases first
      · exact .down hnew hkeep
      · exact .down hnew hkeep

/-- The literal at the end where something is joined takes it in. -/
theorem EndsAt.get_attach (h : arena.EndsAt first chain target) (hchain : arena.Grounded chain)
    {old : String} (hold : arena.get target = .str old) (text : String) (literal : Id) :
    (arena.attach first text literal chain).2.get target =
      .str (if first then text ++ old else old ++ text) := by
  unfold Arena.attach
  rw [(iff_endLiteral? hchain).mp h]
  dsimp only
  rw [Arena.mapLiteral, hold]
  exact get_replace_self (lt_size_of_get hold fun h => by cases h) _

/-- No other literal changes. -/
theorem Clear.get_attach (h : arena.Clear x chain) (hx : x < arena.size) (first : Bool)
    (text : String) (literal : Id) :
    (arena.attach first text literal chain).2.get x = arena.get x := by
  unfold Arena.attach
  split
  · next target hfound =>
      exact get_mapLiteral_of_ne arena _ (EndsAt.clear (.of_endLiteral? hfound) h).ne.symm
  · exact get_push_of_ne arena _ (Nat.ne_of_lt hx)

theorem literal?_attach (h : arena.literal? chain = none) (hlt : chain < arena.size) (first : Bool)
    (text : String) (literal : Id) :
    (arena.attach first text literal chain).2.literal?
      (arena.attach first text literal chain).1 = none := by
  have hkeep := (Lengthens.attach arena.size arena first text literal chain).get_eq hlt
    (Nat.ne_of_lt hlt) h
  unfold Arena.attach at hkeep ⊢
  split at hkeep
  · rw [literal?, hkeep]
    exact h
  · rw [literal?, get_push_self]
    cases first <;> rfl

theorem Clear.attach (hroot : root < arena.size) (hliteral : arena.Clear root literal)
    (hchain : arena.Clear root chain) (first : Bool) (text : String) :
    (arena.attach first text literal chain).2.Clear root
      (arena.attach first text literal chain).1 := by
  have hkeep := hchain.lengthen (.attach root arena first text literal chain)
  unfold Arena.attach at hkeep ⊢
  split at hkeep
  · exact hkeep
  · refine .push _ hroot fun x hx => ?_
    cases first <;>
    · rcases List.mem_cons.mp hx with rfl | hx
      · assumption
      · exact (List.mem_singleton.mp hx) ▸ ‹_›

/-- Joining something to an expression that takes in none of it. -/
theorem Grounded.attach_tree (hchain : arena.Grounded chain)
    (hliteral : arena.get literal = .str text)
    (hnone : ((arena.tree chain).endText? first).isSome = true → text = "") :
    Extends arena (arena.attach first text literal chain).2 ∧
      (arena.attach first text literal chain).2.Grounded
        (arena.attach first text literal chain).1 ∧
      (arena.attach first text literal chain).2.tree (arena.attach first text literal chain).1 =
        (arena.tree chain).attached first text := by
  rw [Tree.attached]
  cases hfound : arena.endLiteral? first arena.size chain with
  | some target =>
      have hends : arena.EndsAt first chain target := .of_endLiteral? hfound
      obtain ⟨old, hold⟩ := hends.get_target
      have hend : (arena.tree chain).endText? first = some old := hends.endText?_tree hchain hold
      rw [hend] at hnone ⊢
      obtain rfl := hnone rfl
      have hext : Extends arena (arena.attach first "" literal chain).2 := by
        refine ⟨(Lengthens.attach chain arena first "" literal chain).size_le,
          fun x hx => ?_⟩
        by_cases hne : x = target
        · subst hne
          rw [hends.get_attach hchain hold, hold, String.empty_append, String.append_empty,
            ite_self]
        · unfold Arena.attach
          rw [hfound]
          exact get_mapLiteral_of_ne arena _ hne
      have hwhole : (arena.attach first "" literal chain).1 = chain := by
        unfold Arena.attach
        rw [hfound]
      rw [hwhole]
      exact ⟨hext, hchain.extend hext⟩
  | none =>
      have hend : (arena.tree chain).endText? first = none := by
        rw [hchain.endText?_tree (Nat.le_refl _), hfound]
        rfl
      have hleaf : arena.Grounded literal := by
        refine .of_parts (lt_size_of_get hliteral fun h => by cases h) fun part hpart => ?_
        rw [hliteral] at hpart
        exact absurd hpart List.not_mem_nil
      have htext : arena.tree literal = .mk (.str text) := by
        rw [hleaf.tree_eq, hliteral]
        rfl
      have hattach : arena.attach first text literal chain =
          arena.push (Node.sumBeside first literal chain) := by
        rw [Arena.attach, hfound]
      have hparts : ∀ x ∈ (Node.sumBeside first literal chain).children, arena.Grounded x := by
        intro x hx
        cases first <;>
        · rcases List.mem_cons.mp hx with rfl | hx
          · assumption
          · exact (List.mem_singleton.mp hx) ▸ ‹_›
      rw [hend, hattach]
      refine ⟨.push arena _, (Grounded.tree_push _ hparts).1, ?_⟩
      rw [(Grounded.tree_push _ hparts).2, Node.sumBeside_map, htext]
      rfl

/-- Joining markup to an expression that is not a literal is joining it to one
    end and then to the other. -/
theorem wrap_eq (hargument : arena.Grounded argument) (hnot : arena.literal? argument = none)
    (opening closing : String) : ∃ inner left right, Extends arena inner ∧
      arena.size ≤ left ∧ arena.size ≤ right ∧
      inner.get left = .str opening ∧ inner.get right = .str closing ∧
      arena.wrap opening argument closing =
        (inner.attach true opening left argument).2.attach false closing right
          (inner.attach true opening left argument).1 := by
  have h₁ := Extends.push arena (.str opening)
  have h₂ := Extends.push (arena.push (.str opening)).2 (.str closing)
  have hlt : argument < arena.size := hargument.lt_size [] argument .here
  have hleft := get_push_self arena (.str opening)
  have hright := get_push_self (arena.push (.str opening)).2 (.str closing)
  have hbefore : arena.size ≤ (arena.push (.str opening)).1 := Nat.le_refl _
  have hafter : arena.size ≤ ((arena.push (.str opening)).2.push (.str closing)).1 := h₁.1
  rw [← h₂.2 _ (lt_size_of_get hleft fun h => by cases h)] at hleft
  have hext := h₁.trans h₂
  unfold wrap
  dsimp only
  generalize ((arena.push (.str opening)).2.push (.str closing)).1 = right at hright hafter ⊢
  generalize ((arena.push (.str opening)).2.push (.str closing)).2 = inner at hright hleft hext ⊢
  generalize (arena.push (.str opening)).1 = left at hleft hbefore ⊢
  refine ⟨inner, left, right, hext, hbefore, hafter, hleft, hright, ?_⟩
  have hclear : inner.Clear right argument := ((Clear.of_size_le hargument hafter).extend hext).1
  have hnot' : inner.literal? argument = none := by
    rw [literal?, hext.2 argument hlt]
    exact hnot
  have hright' := (hclear.get_attach (lt_size_of_get hright fun h => by cases h) true opening
    left).trans hright
  rw [join_before (literal?_eq_some_iff.mpr hleft) hnot',
    join_after (literal?_attach hnot' hclear.lt_size true opening left)
      (literal?_eq_some_iff.mpr hright')]

/-- A leaf is clear of every other node. -/
theorem clear_of_str (h : arena.get x = .str text) (hne : x ≠ root) : arena.Clear root x := by
  refine .of_parts (lt_size_of_get h fun h => by cases h) hne fun part hpart => ?_
  rw [h] at hpart
  exact absurd hpart List.not_mem_nil

/-- The literal at an end is where it was, and has taken in what is joined at
    that end. -/
theorem EndsAt.wrap (h : arena.EndsAt side argument target) (hroot : root < arena.size)
    (hargument : arena.Clear root argument) (hnot : arena.literal? argument = none)
    (htext : arena.get target = .str text) (opening closing : String) :
    (arena.wrap opening argument closing).2.EndsAt side (arena.wrap opening argument closing).1
        target ∧
      ∃ more, (arena.wrap opening argument closing).2.get target = .str more ∧
        text.length + (if side then opening else closing).length ≤ more.length := by
  obtain ⟨inner, left, right, hext, hleft, -, hopening, -, heq⟩ :=
    wrap_eq hargument.grounded hnot opening closing
  rw [heq]
  have hinner : Lengthens root arena inner := .of_extends hext
  have hclear : inner.Clear root argument := hargument.lengthen hinner
  have hends : inner.EndsAt side argument target := h.lengthen hargument hinner
  have htext' : inner.get target = .str text :=
    (hext.2 target (lt_size_of_get htext fun h => by cases h)).trans htext
  have hclear' : (inner.attach true opening left argument).2.Clear root _ :=
    .attach (hroot.trans_le hext.1) (clear_of_str hopening (Nat.ne_of_gt (hroot.trans_le hleft)))
      hclear true opening
  have hends' := hends.attach hclear true opening left
  have hne : target ≠ root := (hends'.clear hclear').ne
  refine ⟨hends'.attach hclear' false closing right, ?_⟩
  -- One of the two changes the literal, and the other does not shorten it.
  cases side with
  | true =>
      have hfirst := hends.get_attach hclear.grounded htext' opening left
      obtain ⟨more, hmore, hle⟩ := (Lengthens.attach _ _ false closing right _).get_str hne hfirst
      refine ⟨more, hmore, ?_⟩
      rw [if_pos rfl, String.length_append] at hle
      rw [if_pos rfl]
      omega
  | false =>
      obtain ⟨more, hmore, hle⟩ :=
        (Lengthens.attach root inner true opening left argument).get_str hne htext'
      refine ⟨_, hends'.get_attach hclear'.grounded hmore closing right, ?_⟩
      rw [if_neg Bool.false_ne_true, if_neg Bool.false_ne_true, String.length_append]
      omega

theorem Grounded.tree_ne_str (h : arena.Grounded id) (hnot : arena.literal? id = none) :
    ∀ text, arena.tree id ≠ .mk (.str text) := by
  intro text htext
  rw [h.tree_eq] at htext
  have hnode := Tree.mk.inj htext
  cases hget : arena.get id with
  | str old =>
      rw [literal?, hget] at hnot
      cases hnot
  | _ =>
      rw [hget] at hnode
      cases hnode

/-- Joining markup to a literal. -/
theorem wrap_literal (h : arena.get argument = .str text) (opening closing : String) :
    Extends arena (arena.wrap opening argument closing).2 ∧
      (arena.wrap opening argument closing).2.tree (arena.wrap opening argument closing).1 =
        .mk (.str (opening ++ text ++ closing)) := by
  have h₁ := Extends.push arena (.str opening)
  have h₂ := Extends.push (arena.push (.str opening)).2 (.str closing)
  have hleft := get_push_self arena (.str opening)
  have hright := get_push_self (arena.push (.str opening)).2 (.str closing)
  rw [← h₂.2 _ (lt_size_of_get hleft fun h => by cases h)] at hleft
  have hext := h₁.trans h₂
  rw [← hext.2 _ (lt_size_of_get h fun h => by cases h)] at h
  unfold wrap
  dsimp only
  generalize ((arena.push (.str opening)).2.push (.str closing)).1 = right at hright ⊢
  generalize ((arena.push (.str opening)).2.push (.str closing)).2 = inner at h hright hleft hext ⊢
  generalize (arena.push (.str opening)).1 = left at hleft ⊢
  have h₃ := Extends.push inner (.str (opening ++ text))
  have hstart : inner.join left argument = inner.push (.str (opening ++ text)) := by
    simp only [join, literal?_eq_some_iff.mpr hleft, literal?_eq_some_iff.mpr h]
  have hright' := (h₃.2 right (lt_size_of_get hright fun h => by cases h)).trans hright
  have hwhole : (inner.push (.str (opening ++ text))).2.join (inner.push (.str (opening ++ text))).1
      right = (inner.push (.str (opening ++ text))).2.push (.str (opening ++ text ++ closing)) := by
    simp only [join, literal?_eq_some_iff.mpr (get_push_self inner (.str (opening ++ text))),
      literal?_eq_some_iff.mpr hright']
  rw [hstart, hwhole]
  exact ⟨(hext.trans h₃).trans (.push _ _),
    (Grounded.tree_push _ fun _ hx => absurd hx List.not_mem_nil).2⟩

/-- Joining markup to an expression that takes in none of it. -/
theorem Grounded.wrap_tree (h : arena.Grounded argument)
    (hnone : ¬ (arena.tree argument).Absorbs opening closing) :
    Extends arena (arena.wrap opening argument closing).2 ∧
      (arena.wrap opening argument closing).2.tree (arena.wrap opening argument closing).1 =
        (arena.tree argument).wrapped opening closing := by
  cases hliteral : arena.literal? argument with
  | some text =>
      have hget := literal?_eq_some_iff.mp hliteral
      have htree : arena.tree argument = .mk (.str text) := by
        rw [h.tree_eq, hget]
        rfl
      rw [htree]
      exact wrap_literal hget opening closing
  | none =>
      have hne := h.tree_ne_str hliteral
      rw [Tree.absorbs_iff hne, not_or, not_and_not_right, not_and_not_right] at hnone
      obtain ⟨inner, left, right, hext, -, hright, hopening, hclosing, heq⟩ :=
        wrap_eq h hliteral opening closing
      obtain ⟨hinner, htree⟩ := h.extend hext
      obtain ⟨hext', hstart, htree'⟩ := hinner.attach_tree hopening (htree.symm ▸ hnone.1)
      have hclosing' := (hext'.2 right (lt_size_of_get hclosing fun h => by cases h)).trans hclosing
      rw [htree] at htree'
      -- What was put before the text does not show at its other end.
      have hend := Tree.endText?_attached true opening (arena.tree argument)
      rw [← htree', Bool.not_true] at hend
      obtain ⟨hext'', -, htree''⟩ := hstart.attach_tree hclosing' (hend ▸ hnone.2)
      rw [htree', ← Tree.wrapped_of_ne hne] at htree''
      rw [heq]
      exact ⟨(hext.trans hext').trans hext'', htree''⟩

/-- Rewrite an expression into a text with markup around it. -/
def becomeWrapped (arena : Arena) (id : Id) (opening : String) (argument : Id) (closing : String) :
    Arena :=
  (arena.wrap opening argument closing).2.becomeText id (arena.wrap opening argument closing).1

theorem Lengthens.becomeWrapped (a : Arena) (root : Id) (opening : String) (argument : Id)
    (closing : String) : Lengthens root a (a.becomeWrapped root opening argument closing) :=
  (Lengthens.wrap root a opening argument closing).trans
    ((of_extends (.push _ (.ident Helper.markup.name))).trans (.replace _ root _))

theorem Clear.tree_becomeWrapped (hroot : root < arena.size) (h : arena.Clear root argument)
    (opening closing : String) :
    (arena.becomeWrapped root opening argument closing).tree root =
      .ofCall .markup [(arena.wrap opening argument closing).2.tree
        (arena.wrap opening argument closing).1] :=
  have hsize := (Lengthens.wrap root arena opening argument closing).size_le
  (Clear.tree_becomeCall (hroot.trans_le hsize)
    (List.forall_mem_singleton.mpr (h.wrap hroot opening closing)) .markup).2

/-- Where something is taken in, a literal stands at an end at which markup is
    joined. -/
theorem Grounded.endsAt_of_absorbs (h : arena.Grounded argument)
    (habsorbs : (arena.tree argument).Absorbs opening closing) :
    arena.literal? argument = none ∧ ∃ side target, arena.EndsAt side argument target ∧
      0 < (if side then opening else closing).length := by
  have hnot : arena.literal? argument = none := by
    cases hliteral : arena.literal? argument with
    | none => rfl
    | some text =>
        rw [h.tree_eq, literal?_eq_some_iff.mp hliteral] at habsorbs
        exact habsorbs.elim
  have htarget {side : Bool} (hend : ((arena.tree argument).endText? side).isSome = true) :
      ∃ target, arena.EndsAt side argument target := by
    rw [h.endText?_tree (Nat.le_refl _)] at hend
    obtain ⟨text, htext⟩ := Option.isSome_iff_exists.mp hend
    obtain ⟨target, hfound, -⟩ := Option.bind_eq_some_iff.mp htext
    exact ⟨target, .of_endLiteral? hfound⟩
  have hpos {text : String} (hne : text ≠ "") : 0 < text.length :=
    Nat.pos_of_ne_zero fun hzero => hne (String.length_eq_zero_iff.mp hzero)
  refine ⟨hnot, ?_⟩
  rcases (Tree.absorbs_iff (h.tree_ne_str hnot)).mp habsorbs with ⟨hend, hne⟩ | ⟨hend, hne⟩
  · obtain ⟨target, hends⟩ := htarget hend
    exact ⟨true, target, hends, hpos hne⟩
  · obtain ⟨target, hends⟩ := htarget hend
    exact ⟨false, target, hends, hpos hne⟩

/-- Taking the same text into the same markup a second time changes nothing,
    unless it takes some of the markup in. -/
theorem Clear.rewrap_iff (hroot : root < arena.size) (h : arena.Clear root argument)
    (opening closing : String) :
    ((arena.becomeWrapped root opening argument closing).becomeWrapped root opening argument
          closing).tree root =
        (arena.becomeWrapped root opening argument closing).tree root ↔
      ¬ (arena.tree argument).Absorbs opening closing := by
  have hkeep := Lengthens.becomeWrapped arena root opening argument closing
  have hclear := h.lengthen hkeep
  have hroot' := hroot.trans_le hkeep.size_le
  rw [hclear.tree_becomeWrapped hroot', h.tree_becomeWrapped hroot]
  refine ⟨fun hsame habsorbs => ?_, fun hnone => ?_⟩
  · obtain ⟨hnot, side, target, hends, hpos⟩ := h.grounded.endsAt_of_absorbs habsorbs
    obtain ⟨text, htext⟩ := hends.get_target
    have hne : target ≠ root := (hends.clear h).ne
    obtain ⟨hfirst, more, hmore, -⟩ := hends.wrap hroot h hnot htext opening closing
    -- After the first time the literal is where it was, with what it has taken in.
    have hagain : (arena.becomeWrapped root opening argument closing).get target = .str more := by
      have hext := Extends.push (arena.wrap opening argument closing).2 (.ident Helper.markup.name)
      refine (get_replace_of_ne _ _ hne).trans ((hext.2 target ?_).trans hmore)
      exact lt_size_of_get hmore fun h => by cases h
    have hnot' : (arena.becomeWrapped root opening argument closing).literal? argument = none := by
      rw [literal?, hkeep.get_eq h.lt_size h.ne hnot]
      exact hnot
    obtain ⟨hsecond, most, hmost, hle⟩ :=
      (hends.lengthen h hkeep).wrap hroot' hclear hnot' hagain opening closing
    have hend := hfirst.endText?_tree (h.wrap hroot opening closing).grounded hmore
    have hend' := hsecond.endText?_tree (hclear.wrap hroot' opening closing).grounded hmost
    have hwhole := (List.cons.inj (Node.call.inj (Tree.mk.inj hsame)).2).1
    rw [hwhole, hend] at hend'
    cases hend'
    omega
  · obtain ⟨hext, htree⟩ := h.grounded.wrap_tree hnone
    have hsame : (arena.becomeWrapped root opening argument closing).tree argument =
        arena.tree argument := (h.replace (hext.trans (.push _ _)) _).2
    rw [← hsame] at hnone
    rw [(hclear.grounded.wrap_tree hnone).2, htree, hsame]

end Arena

end Script

end RenderFold
