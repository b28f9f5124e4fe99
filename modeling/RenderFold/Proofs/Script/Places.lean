import Mathlib.Tactic.IntervalCases
import RenderFold.Proofs.Script.Beginnings
import RenderFold.Proofs.Script.Taken

/-!
# The Places of Expressions

The parser has a place for every tightness that the printer asks for: a whole
expression, the operands of each kind of operator, the argument of a negation
and the target of an access. Reading an expression in its place ends where the
next token does not continue it.

Places whose operands stand one after the other are read in rounds. There an
expression is not over when its last token is taken: it may be the left operand
of what follows. So next to being read to its end (`Held`) an expression can be
read up to the rounds that are left (`Begun`), and one leads to the other up
and down the places.

## Main definitions

* `Printer.binding`: How tightly a token continues what is before it.
* `Parser.reader`: The parser of a place.
* `Parser.Held`, `Parser.Begun`: An expression is read in its place.
* `Parser.Fits`: An expression is read in every place up to a tightness.

## Theorems

* `Parser.Begun.next`: A left part and one round more.
* `Parser.Fits.parens`: In parentheses an expression fits everywhere.
-/

namespace RenderFold

namespace Script

namespace Printer

/-- How tightly a token continues the expression before it. An arrow never
    does: it has parameters before it. -/
def binding : TokenKind → Nat
  | .punct .arrow => 9
  | .punct .dot | .punct .leftSquare | .punct .leftParen => postfixLevel
  | .punct .plus => BinaryOp.add.precedence
  | .punct .strictEq => BinaryOp.strictEq.precedence
  | .punct .strictNotEq => BinaryOp.strictNotEq.precedence
  | .punct .andAnd => BinaryOp.and.precedence
  | .punct .orOr => BinaryOp.or.precedence
  | .punct .question => conditionalLevel
  | _ => 0

/-- The next token does not continue an expression that stands in a place that
    asks for `tightness`. -/
def Stops (tightness : Nat) (after : List TokenKind) : Prop :=
  ∀ kind ∈ after.head?, binding kind < max tightness 1

theorem binding_punct (op : BinaryOp) : binding (.punct op.punct) = op.precedence := by
  cases op <;> rfl

theorem Stops.of_binding {kind : TokenKind} {rest : List TokenKind} (h : binding kind = 0)
    (tightness : Nat) : Stops tightness (kind :: rest) := by
  intro kind' hkind
  cases hkind
  rw [h]
  exact Nat.lt_of_lt_of_le Nat.one_pos (Nat.le_max_right _ _)

theorem Stops.mono {low high : Nat} {after : List TokenKind} (hle : low ≤ high)
    (h : Stops low after) : Stops high after :=
  fun kind hkind => Nat.lt_of_lt_of_le (h kind hkind) (max_le_max_right 1 hle)

end Printer

namespace Parser

open Arena (Extends Ordered Stands)
open Printer (binding Stops tokens bareTokens precedence paramTokens postfixLevel notLevel
  conditionalLevel arrowLevel)

variable {s : State} {after kinds rest : List TokenKind} {depth tightness : Nat} {t : Tree}

theorem State.Ready.binding_lt (h : s.Ready after) (hstops : Stops tightness after) :
    binding s.kind < max tightness 1 := by
  cases after with
  | nil =>
      rw [h.kind_nil]
      exact Nat.lt_of_lt_of_le Nat.one_pos (Nat.le_max_right _ _)
  | cons kind after =>
      rw [h.kind_cons]
      exact hstops kind rfl

/-- The operators of the chains that bind with a given tightness. -/
def opAt? : Nat → TokenKind → Option BinaryOp
  | 3 => disjunctionOp?
  | 4 => conjunctionOp?
  | 5 => equalityOp?
  | _ => sumOp?

/-- The parser of a place that asks for `tightness`, with parts that may still
    nest `depth` levels deep. -/
def reader (depth : Nat) : Nat → Parse Id
  | 0 | 1 | 2 => (levels (depth + 1)).expression
  | 3 => binary (levels depth).unary
  | 4 => chain conjunctionOp? (chain equalityOp? (chain sumOp? (levels depth).unary))
  | 5 => chain equalityOp? (chain sumOp? (levels depth).unary)
  | 6 => chain sumOp? (levels depth).unary
  | 7 => (levels depth).unary
  | _ => accessed (levels depth).expression

/-- The rounds that are left in a place whose parts follow one another. -/
def rounds (depth tightness : Nat) : Nat → Id → Parse Id :=
  if tightness = postfixLevel then suffixes (levels depth).expression
  else chainRest (opAt? tightness) (reader depth (tightness + 1))

/-- The places whose parts follow one another. -/
def Chained (tightness : Nat) : Prop :=
  3 ≤ tightness ∧ tightness ≤ 6 ∨ tightness = postfixLevel

theorem reader_whole (h : tightness < 3) :
    reader depth tightness = (levels (depth + 1)).expression := by
  interval_cases tightness <;> rfl

theorem reader_chain (hlow : 3 ≤ tightness) (hhigh : tightness ≤ 6) :
    reader depth tightness = chain (opAt? tightness) (reader depth (tightness + 1)) := by
  interval_cases tightness <;> rfl

theorem rounds_chain (hhigh : tightness ≤ 6) :
    rounds depth tightness = chainRest (opAt? tightness) (reader depth (tightness + 1)) :=
  if_neg fun h => absurd (h ▸ hhigh) (by decide)

theorem opAt?_punct (op : BinaryOp) : opAt? op.precedence (.punct op.punct) = some op := by
  cases op <;> rfl

theorem opAt?_none {kind : TokenKind} (hlow : 3 ≤ tightness) (hhigh : tightness ≤ 6)
    (h : binding kind < tightness) : opAt? tightness kind = none := by
  cases kind with
  | punct mark =>
      interval_cases tightness <;> cases mark <;> first | rfl | exact absurd h (by decide)
  | _ => interval_cases tightness <;> rfl

/-- A negation or what is negated, at any depth. -/
theorem unary_eq (depth : Nat) : ∃ argument,
    (levels depth).unary = unaryWith (levels depth).expression argument := by
  cases depth with
  | zero => exact ⟨_, rfl⟩
  | succ depth => exact ⟨_, rfl⟩

/-- The tokens are read as the tree and nothing after them is. -/
def Held (depth tightness : Nat) (kinds : List TokenKind) (t : Tree) : Prop :=
  ∀ ⦃s after⦄, Stops tightness after → s.Ready (kinds ++ after) →
    Takes (reader depth tightness) s after fun arena id => arena.Stands id t

/-- The tokens are read as the tree, and rounds are left for what comes after
    them. -/
def Begun (depth tightness : Nat) (kinds : List TokenKind) (t : Tree) : Prop :=
  ∀ ⦃s after⦄, Stops (tightness + 1) after → s.Ready (kinds ++ after) → ∃ fuel id s',
    reader depth tightness s = rounds depth tightness fuel id s' ∧ after.length < fuel ∧
      s'.Ready after ∧ Extends s.arena s'.arena ∧ s'.arena.Stands id t

/-- The tokens are read as the tree in every place up to a tightness. -/
structure Fits (depth tightness : Nat) (kinds : List TokenKind) (t : Tree) : Prop where
  held : ∀ ⦃place⦄, place ≤ tightness → Held depth place kinds t
  begun : ∀ ⦃place⦄, place ≤ tightness → Chained place → Begun depth place kinds t

/-- Rounds end where nothing continues. -/
theorem rounds_end (hchained : Chained tightness) {fuel : Nat} (hfuel : 0 < fuel) {id : Id}
    (h : binding s.kind < tightness) : rounds depth tightness fuel id s = .ok id s := by
  obtain ⟨fuel, rfl⟩ := Nat.exists_eq_succ_of_ne_zero (Nat.ne_of_gt hfuel)
  have hmark : ∀ {mark : Punct}, postfixLevel ≤ binding (.punct mark) →
      tightness = postfixLevel → s.kind ≠ .punct mark := by
    rintro mark hmark rfl heq
    exact Nat.not_lt_of_le hmark (heq ▸ h)
  rcases hchained with ⟨hlow, hhigh⟩ | htight
  · rw [rounds_chain hhigh, chainRest, bind_eq (peek_eq s), opAt?_none hlow hhigh h]
    rfl
  · unfold rounds
    rw [if_pos htight, suffixes, bind_eq (eat_no (hmark (by decide) htight)),
      if_neg Bool.false_ne_true, bind_eq (eat_no (hmark (by decide) htight)),
      if_neg Bool.false_ne_true, bind_eq (eat_no (hmark (by decide) htight)),
      if_neg Bool.false_ne_true]
    rfl

/-- What is read with rounds to go is read to its end. -/
theorem Begun.held (hchained : Chained tightness) (h : Begun depth tightness kinds t) :
    Held depth tightness kinds t := by
  intro s after hstops hs
  obtain ⟨fuel, id, s', hrun, hfuel, hready, hext, hstands⟩ :=
    h (hstops.mono (Nat.le_succ _)) hs
  have hbinding := hready.binding_lt hstops
  have htight : 1 ≤ tightness := by
    rcases hchained with ⟨hlow, -⟩ | rfl
    · omega
    · decide
  rw [Nat.max_eq_left htight] at hbinding
  exact ⟨id, s', hrun.trans (rounds_end hchained (Nat.zero_lt_of_lt hfuel) hbinding), hready, hext,
    hstands⟩

/-- An operand begins its chain. -/
theorem Held.begun (hlow : 3 ≤ tightness) (hhigh : tightness ≤ 6)
    (h : Held depth (tightness + 1) kinds t) : Begun depth tightness kinds t := by
  intro s after hstops hs
  obtain ⟨id, s', hrun, hready, hext, hstands⟩ := h hstops hs
  refine ⟨s'.rest.length, id, s', ?_, ?_, hready, hext, hstands⟩
  · rw [reader_chain hlow hhigh, rounds_chain hhigh, chain, bind_eq hrun,
      bind_eq (remaining_eq s')]
  · rw [hready.length]
    exact Nat.lt_succ_self _

/-- What is not a negation is read in the place of one. -/
theorem Held.unary (h : Held depth postfixLevel kinds t)
    (hbang : ∀ rest, kinds ≠ .punct .bang :: rest) (hkinds : kinds ≠ []) :
    Held depth notLevel kinds t := by
  intro s after hstops hs
  obtain ⟨argument, hunary⟩ := unary_eq depth
  obtain ⟨kind, rest, rfl⟩ := List.exists_cons_of_ne_nil hkinds
  have hkind : s.kind ≠ .punct .bang := by
    have hready : s.Ready (kind :: (rest ++ after)) := hs
    rw [hready.kind_cons]
    rintro rfl
    exact hbang rest rfl
  change Takes (levels depth).unary s after _
  rw [hunary, unaryWith]
  refine .step (eat_no hkind) rfl ?_
  rw [if_neg Bool.false_ne_true]
  exact h (hstops.mono (Nat.le_succ _)) hs

/-- Only what comes after the tokens can make them begin an arrow function. -/
def Arrowless (kinds : List TokenKind) : Prop :=
  ∀ ⦃rest⦄, startsArrow (unplaced (kinds ++ rest)) = true → rest.head? = some (.punct .arrow)

theorem Arrowless.startsArrow (h : Arrowless kinds) (hs : s.Ready (kinds ++ after))
    (hstops : Stops tightness after) (hplace : tightness ≤ postfixLevel) :
    startsArrow s.rest = false := by
  rw [startsArrow_kinds, hs.ahead, List.append_assoc, ← Bool.not_eq_true]
  intro hstarts
  have hhead := h hstarts
  cases after with
  | nil => cases hhead
  | cons kind after =>
      cases hhead
      have hbinding : 9 < max tightness 1 := hstops _ rfl
      have hpostfix : postfixLevel = 8 := rfl
      omega

theorem Stops.whole (h : Stops tightness after) (hplace : tightness < 3) : Stops 0 after := by
  intro kind hkind
  have hlt := h kind hkind
  have hgap : binding kind ≠ 1 := by
    cases kind with
    | punct mark => cases mark <;> decide
    | _ => exact Nat.zero_ne_one
  omega

/-- What is no arrow function is read as the test of a conditional that is
    none. -/
theorem Held.whole (h : Held depth 3 kinds t) (harrow : Arrowless kinds) (hplace : tightness < 3) :
    Held depth tightness kinds t := by
  intro s after hstops hs
  rw [reader_whole hplace]
  change Takes (get >>= fun s => if Parser.startsArrow s.rest then _ else _) s after _
  have hget : (get : Parse State) s = .ok s s := rfl
  refine .step hget rfl ?_
  have hpostfix : postfixLevel = 8 := rfl
  rw [harrow.startsArrow hs hstops (by omega), if_neg Bool.false_ne_true]
  refine .bind (h (hstops.mono (Nat.le_of_lt hplace)) hs) fun id s' hready hext hstands => ?_
  have hkind : s'.kind ≠ .punct .question := by
    intro heq
    have hbinding := hready.binding_lt hstops
    rw [heq] at hbinding
    change 2 < _ at hbinding
    omega
  refine .step (eat_no hkind) rfl ?_
  rw [if_neg Bool.false_ne_true]
  exact .pure hready hstands

/-- A chain is read in the places of looser chains. -/
theorem Begun.lower {low high : Nat} (hlow : 3 ≤ low) (hle : low ≤ high) (hhigh : high ≤ 6)
    (h : Begun depth high kinds t) : Begun depth low kinds t := by
  induction hle with
  | refl => exact h
  | @step high hle ih =>
      have hheld := h.held (Or.inl ⟨Nat.le_succ_of_le (Nat.le_trans hlow hle), hhigh⟩)
      exact ih (Nat.le_of_succ_le hhigh)
        (hheld.begun (Nat.le_trans hlow hle) (Nat.le_of_succ_le hhigh))

/-- What is read before its accesses and calls. -/
theorem Begun.of_primary (h : ∀ ⦃s after⦄, s.Ready (kinds ++ after) →
      Takes (primary (levels depth).expression) s after fun arena id => arena.Stands id t) :
    Begun depth postfixLevel kinds t := by
  intro s after _ hs
  obtain ⟨id, s', hrun, hready, hext, hstands⟩ := h hs
  refine ⟨s'.rest.length, id, s', ?_, ?_, hready, hext, hstands⟩
  · change accessed _ s = suffixes _ _ _ _
    rw [accessed, bind_eq hrun, bind_eq (remaining_eq s')]
  · rw [hready.length]
    exact Nat.lt_succ_self _

/-- A left part, and one round more for what comes after it. -/
theorem Begun.next {left : Tree} {later : List TokenKind} (h : Begun depth tightness kinds left)
    (hstops : ∀ after, Stops (tightness + 1) (later ++ after))
    (hround : ∀ ⦃s after id fuel⦄, Stops (tightness + 1) after → s.Ready (later ++ after) →
      s.arena.Stands id left → ∃ id' s', rounds depth tightness (fuel + 1) id s =
        rounds depth tightness fuel id' s' ∧ s'.Ready after ∧ Extends s.arena s'.arena ∧
          s'.arena.Stands id' t)
    (hlater : later ≠ []) : Begun depth tightness (kinds ++ later) t := by
  intro s after hafter hs
  rw [List.append_assoc] at hs
  obtain ⟨fuel, id, s₁, hrun, hfuel, hready, hext, hstands⟩ := h (hstops after) hs
  obtain ⟨fuel, rfl⟩ := Nat.exists_eq_succ_of_ne_zero (Nat.ne_of_gt (Nat.zero_lt_of_lt hfuel))
  obtain ⟨id', s₂, hrun', hready', hext', hstands'⟩ := hround hafter hready hstands
  refine ⟨fuel, id', s₂, hrun.trans hrun', ?_, hready', hext.trans hext', hstands'⟩
  rw [List.length_append] at hfuel
  have hpos := List.length_pos_iff.mpr hlater
  omega

namespace Fits

theorem mono {low high : Nat} (h : Fits depth high kinds t) (hle : low ≤ high) :
    Fits depth low kinds t :=
  ⟨fun _ hplace => h.held (Nat.le_trans hplace hle),
    fun _ hplace => h.begun (Nat.le_trans hplace hle)⟩

/-- What is read as a whole expression. -/
theorem of_whole (htight : tightness < 3) (h : ∀ ⦃place⦄, place < 3 → Held depth place kinds t) :
    Fits depth tightness kinds t := by
  refine ⟨fun place hplace => h (Nat.lt_of_le_of_lt hplace htight), fun place hplace hchained => ?_⟩
  have hpostfix : postfixLevel = 8 := rfl
  rcases hchained with ⟨hlow, -⟩ | rfl <;> omega

/-- What is read as a chain. -/
theorem of_chain (hlow : 3 ≤ tightness) (hhigh : tightness ≤ 6)
    (h : Begun depth tightness kinds t) (harrow : Arrowless kinds) :
    Fits depth tightness kinds t := by
  refine ⟨fun place hplace => ?_, fun place hplace hchained => ?_⟩
  · rcases Nat.lt_or_ge place 3 with hwhole | hchain
    · exact ((h.lower (Nat.le_refl _) hlow hhigh).held (Or.inl (by decide))).whole harrow hwhole
    · exact (h.lower hchain hplace hhigh).held (Or.inl ⟨hchain, Nat.le_trans hplace hhigh⟩)
  · have hpostfix : postfixLevel = 8 := rfl
    rcases hchained with ⟨hchain, -⟩ | rfl
    · exact h.lower hchain hplace hhigh
    · omega

/-- What is read in the place of a negation. -/
theorem of_unary (h : Held depth notLevel kinds t) (harrow : Arrowless kinds) :
    Fits depth notLevel kinds t := by
  have hchain := of_chain (by decide) (Nat.le_refl 6) (h.begun (by decide) (Nat.le_refl 6)) harrow
  have hnot : notLevel = 7 := rfl
  have hpostfix : postfixLevel = 8 := rfl
  refine ⟨fun place hplace => ?_, fun place hplace hchained => ?_⟩
  · rcases Nat.lt_or_ge 6 place with hlt | hle
    · cases (Nat.le_antisymm hplace hlt : place = notLevel)
      exact h
    · exact hchain.held hle
  · refine hchain.begun ?_ hchained
    rcases hchained with ⟨-, hhigh⟩ | rfl
    · exact hhigh
    · omega

/-- What is read as the target of an access. -/
theorem of_access (h : Begun depth postfixLevel kinds t) (harrow : Arrowless kinds)
    (hbang : ∀ rest, kinds ≠ .punct .bang :: rest) (hkinds : kinds ≠ []) :
    Fits depth postfixLevel kinds t := by
  have hheld := h.held (Or.inr rfl)
  have hunary := of_unary (hheld.unary hbang hkinds) harrow
  refine ⟨fun place hplace => ?_, fun place hplace hchained => ?_⟩
  · rcases Nat.lt_or_ge notLevel place with hlt | hle
    · cases (Nat.le_antisymm hplace hlt : place = postfixLevel)
      exact hheld
    · exact hunary.held hle
  · rcases hchained with ⟨hlow, hhigh⟩ | rfl
    · exact hunary.begun (Nat.le_succ_of_le hhigh) (Or.inl ⟨hlow, hhigh⟩)
    · exact h

/-- In parentheses an expression is read everywhere, with a level less for its
    parts. -/
theorem parens (h : Held depth 0 kinds t)
    (harrow : Arrowless (.punct .leftParen :: (kinds ++ [.punct .rightParen]))) :
    Fits (depth + 1) postfixLevel (.punct .leftParen :: (kinds ++ [.punct .rightParen])) t := by
  refine of_access (.of_primary fun s after hs => ?_) harrow (fun _ h => by cases h)
    (List.cons_ne_nil _ _)
  have hready : s.Ready (.punct .leftParen :: (kinds ++ .punct .rightParen :: after)) := by
    rwa [List.cons_append, List.append_assoc] at hs
  refine .step (peek_eq s) rfl ?_
  rw [hready.kind_cons]
  refine .bump hready fun s' hs' _ => ?_
  refine .bind (h (Stops.of_binding rfl 0) hs') fun id s'' hready' _ hstands => ?_
  exact .expect hready' fun s₃ hs₃ harena => .pure hs₃ (harena ▸ hstands)

end Fits

end Parser

end Script

end RenderFold
