import RenderFold.Proofs.Script.Ordered
import RenderFold.Proofs.Script.ReadTrees
import RenderFold.Proofs.Script.Spelling

/-!
# Running a Parser on Tokens

What a parser does that succeeds: it takes tokens off the front, adds nodes
to the arena and hands on a result. `Takes` says so for one state, and the
rules below chain it along a sequence of parsers. Trees that were read before
stay below their indices, so what is held can be looked up in every later
arena.

The parsers that are not about expressions or statements are taken here: marks,
identifiers, and items with commas between them.

## Main definitions

* `State.Ready`: The tokens ahead, in an arena that is in order.
* `Takes`: A parser that succeeds.
* `joined`: The tokens of items with commas between them.

## Theorems

* `Takes.bind`: Parsers in sequence.
* `takes_items`: Items up to a closing mark.
-/

namespace RenderFold

namespace Script

namespace Parser

open Arena (Extends Ordered Stands)

variable {α β : Type} {s s' : State} {kind : TokenKind} {mark : Punct}
  {kinds after middle : List TokenKind}

namespace State

theorem advance_arena (s : State) : s.advance.arena = s.arena := by
  unfold State.advance
  split <;> rfl

theorem kind_of_rest (h : s.rest.map (·.kind) = kind :: kinds) : s.kind = kind := by
  unfold State.kind
  cases hrest : s.rest with
  | nil =>
      rw [hrest] at h
      cases h
  | cons token rest =>
      rw [hrest] at h
      exact (List.cons.inj h).1

theorem rest_advance (h : s.rest.map (·.kind) = kind :: kinds) (hkinds : kinds ≠ []) :
    s.advance.rest.map (·.kind) = kinds := by
  unfold State.advance
  split
  · next token second rest hrest =>
      rw [hrest] at h
      exact (List.cons.inj h).2
  · next hshort =>
      cases hrest : s.rest with
      | nil =>
          rw [hrest] at h
          cases h
      | cons token rest =>
          cases rest with
          | nil =>
              rw [hrest] at h
              exact absurd (List.cons.inj h).2.symm hkinds
          | cons second rest => exact absurd hrest (hshort token second rest)

end State

/-- The tokens ahead are of the given kinds and an end mark, and the arena is
    in order. -/
structure State.Ready (s : State) (kinds : List TokenKind) : Prop where
  ordered : s.arena.Ordered
  ahead : s.rest.map (·.kind) = kinds ++ [.eof]

namespace State.Ready

theorem kind_cons (h : s.Ready (kind :: kinds)) : s.kind = kind := State.kind_of_rest h.ahead

theorem kind_nil (h : s.Ready []) : s.kind = .eof := State.kind_of_rest h.ahead

theorem length (h : s.Ready kinds) : s.rest.length = kinds.length + 1 := by
  have hlength := congrArg List.length h.ahead
  rwa [List.length_map, List.length_append, List.length_singleton] at hlength

theorem advance (h : s.Ready (kind :: kinds)) : s.advance.Ready kinds :=
  ⟨s.advance_arena.symm ▸ h.ordered,
    State.rest_advance h.ahead (List.append_ne_nil_of_right_ne_nil _ (List.cons_ne_nil _ _))⟩

end State.Ready

theorem bind_eq {x : Parse α} {f : α → Parse β} {a : α} (h : x s = .ok a s') :
    (x >>= f) s = f a s' := by
  change EStateM.bind x f s = _
  unfold EStateM.bind
  rw [h]

/-- The parser succeeds, takes everything but the tokens `after` and hands on
    something that `result` holds of. -/
def Takes (parser : Parse α) (s : State) (after : List TokenKind) (result : Arena → α → Prop) :
    Prop :=
  ∃ a s', parser s = .ok a s' ∧ s'.Ready after ∧ Extends s.arena s'.arena ∧ result s'.arena a

namespace Takes

variable {result : Arena → α → Prop} {result' : Arena → β → Prop} {f : α → Parse β}

theorem pure {a : α} (h : s.Ready after) (ha : result s.arena a) :
    Takes (Pure.pure a : Parse α) s after result :=
  ⟨a, s, rfl, h, Extends.refl _, ha⟩

/-- One parser after another. -/
theorem bind {x : Parse α} (hx : Takes x s middle result)
    (hf : ∀ a s', s'.Ready middle → Extends s.arena s'.arena → result s'.arena a →
      Takes (f a) s' after result') : Takes (x >>= f) s after result' := by
  obtain ⟨a, s', hrun, hready, hext, ha⟩ := hx
  obtain ⟨b, s'', hrun', hready', hext', hb⟩ := hf a s' hready hext ha
  exact ⟨b, s'', (bind_eq hrun).trans hrun', hready', hext.trans hext', hb⟩

/-- A step that adds nothing, before a parser. -/
theorem step {x : Parse α} {a : α} (hx : x s = .ok a s') (harena : s'.arena = s.arena)
    (hf : Takes (f a) s' after result') : Takes (x >>= f) s after result' := by
  obtain ⟨b, s'', hrun, hready, hext, hb⟩ := hf
  exact ⟨b, s'', (bind_eq hx).trans hrun, hready, harena ▸ hext, hb⟩

theorem mono {other : Arena → α → Prop} {x : Parse α} (hx : Takes x s after result)
    (himp : ∀ arena a, result arena a → other arena a) : Takes x s after other := by
  obtain ⟨a, s', hrun, hready, hext, ha⟩ := hx
  exact ⟨a, s', hrun, hready, hext, himp _ _ ha⟩

/-- A node over parts that stand for trees. -/
theorem push {node : Node Id} (h : s.Ready after)
    (hnode : ∀ part ∈ node.children, part < s.arena.size) :
    Takes (push node) s after fun arena id => arena.Stands id (.mk (node.map s.arena.tree)) :=
  ⟨_, _, rfl, ⟨h.ordered.push hnode, h.ahead⟩, Extends.push _ node, .push h.ordered hnode⟩

end Takes

theorem bump_eq (s : State) : bump s = .ok s.kind s.advance := rfl

theorem peek_eq (s : State) : peek s = .ok s.kind s := rfl

theorem at?_eq (mark : Punct) (s : State) : at? mark s = .ok (s.kind = .punct mark) s := rfl

theorem atKeyword?_eq (name : String) (s : State) :
    atKeyword? name s = .ok (s.kind = .ident name) s := rfl

theorem remaining_eq (s : State) : remaining s = .ok s.rest.length s := rfl

theorem eat_yes (h : s.kind = .punct mark) : eat mark s = .ok true s.advance := by
  unfold eat
  rw [bind_eq (at?_eq mark s), decide_eq_true h]
  rfl

theorem eat_no (h : s.kind ≠ .punct mark) : eat mark s = .ok false s := by
  unfold eat
  rw [bind_eq (at?_eq mark s), decide_eq_false h]
  rfl

theorem expect_eq (what : String) (h : s.kind = .punct mark) :
    expect mark what s = .ok () s.advance := by
  unfold expect
  rw [bind_eq (eat_yes h)]
  rfl

theorem identifier_eq {name : String} (h : s.kind = .ident name) (hname : isKeyword name = false) :
    identifier s = .ok name s.advance := by
  unfold identifier
  rw [bind_eq (peek_eq s), h]
  dsimp only
  rw [hname]
  rfl

namespace Takes

variable {result : Arena → α → Prop} {f : α → Parse β} {result' : Arena → β → Prop}

/-- The next token is taken. -/
theorem bump {f : TokenKind → Parse β} (h : s.Ready (kind :: kinds))
    (hf : ∀ s', s'.Ready kinds → s'.arena = s.arena → Takes (f kind) s' after result') :
    Takes (bump >>= f) s after result' :=
  .step (h.kind_cons ▸ bump_eq s) s.advance_arena (hf _ h.advance s.advance_arena)

/-- A mark that comes next is taken. -/
theorem eat {f : Bool → Parse β} (h : s.Ready (.punct mark :: kinds))
    (hf : ∀ s', s'.Ready kinds → s'.arena = s.arena → Takes (f true) s' after result') :
    Takes (eat mark >>= f) s after result' :=
  .step (eat_yes h.kind_cons) s.advance_arena (hf _ h.advance s.advance_arena)

/-- A mark that is required is taken. -/
theorem expect {f : Unit → Parse β} {what : String} (h : s.Ready (.punct mark :: kinds))
    (hf : ∀ s', s'.Ready kinds → s'.arena = s.arena → Takes (f ()) s' after result') :
    Takes (expect mark what >>= f) s after result' :=
  .step (expect_eq what h.kind_cons) s.advance_arena (hf _ h.advance s.advance_arena)

/-- A name is taken. -/
theorem identifier {name : String} (h : s.Ready (.ident name :: kinds)) (hname : Name name) :
    Takes identifier s kinds fun _ found => found = name :=
  ⟨name, s.advance, identifier_eq h.kind_cons hname.2, h.advance,
    s.advance_arena ▸ Extends.refl _, rfl⟩

end Takes

/-- The tokens of items with commas between them. -/
def joined (tokens : β → List TokenKind) : List β → List TokenKind
  | [] => []
  | item :: rest =>
    tokens item ++ ((if rest.isEmpty then [] else [.punct .comma]) ++ joined tokens rest)

section Items

variable {close : Punct} {item : Parse α} {tokens : β → List TokenKind}
  {result : β → Arena → α → Prop} {items : List β}

/-- An item is read where a comma or the closing mark comes after it. -/
def TakesItem (close : Punct) (item : Parse α) (tokens : β → List TokenKind)
    (result : β → Arena → α → Prop) (b : β) : Prop :=
  (∃ kind rest, tokens b = kind :: rest ∧ kind ≠ .punct close) ∧
    ∀ ⦃s after mark⦄, mark = .comma ∨ mark = close →
      s.Ready (tokens b ++ .punct mark :: after) →
        Takes item s (.punct mark :: after) (result b)

theorem takes_itemsTo (hclose : close ≠ .comma) (what : String)
    (hmono : ∀ b {x y : Arena} {a}, Extends x y → y.Ordered → result b x a → result b y a)
    (hitems : ∀ b ∈ items, TakesItem close item tokens result b) :
    ∀ {fuel s}, items.length < fuel → s.Ready (joined tokens items ++ .punct close :: after) →
      Takes (itemsTo close what item fuel) s after fun arena found =>
        List.Forall₂ (fun a b => result b arena a) found items := by
  induction items with
  | nil =>
      intro fuel s hfuel h
      obtain ⟨fuel, rfl⟩ := Nat.exists_eq_succ_of_ne_zero (Nat.ne_of_gt hfuel)
      exact .eat h fun s' h' _ => .pure h' .nil
  | cons b items ih =>
      intro fuel s hfuel h
      obtain ⟨fuel, rfl⟩ := Nat.exists_eq_succ_of_ne_zero (Nat.ne_of_gt (Nat.zero_lt_of_lt hfuel))
      obtain ⟨⟨kind, rest, htokens, hkind⟩, hitem⟩ := hitems b List.mem_cons_self
      have hopen : s.kind ≠ .punct close := by
        rw [joined, htokens] at h
        exact h.kind_cons ▸ hkind
      refine .step (eat_no hopen) rfl ?_
      rw [if_neg Bool.false_ne_true]
      cases items with
      | nil =>
          rw [joined, joined, List.append_nil, List.isEmpty_nil, if_pos rfl, List.append_nil] at h
          refine .bind (hitem (Or.inr rfl) h) fun first s₁ h₁ _ hfirst => ?_
          have hlast : s₁.kind ≠ .punct .comma := by
            rw [h₁.kind_cons]
            exact fun heq => hclose (TokenKind.punct.inj heq)
          refine .step (eat_no hlast) rfl ?_
          rw [if_neg Bool.false_ne_true]
          refine .expect h₁ fun s₂ h₂ harena => .pure h₂ (.cons ?_ .nil)
          exact harena ▸ hfirst
      | cons next items =>
          have hsplit : joined tokens (b :: next :: items) ++ .punct close :: after =
              tokens b ++ .punct .comma :: (joined tokens (next :: items) ++
                .punct close :: after) := by
            rw [joined, if_neg (by rw [List.isEmpty_cons]; exact Bool.false_ne_true),
              List.append_assoc, List.append_assoc]
            rfl
          rw [hsplit] at h
          refine .bind (hitem (Or.inl rfl) h) fun first s₁ h₁ _ hfirst => ?_
          refine .eat h₁ fun s₂ h₂ harena => ?_
          rw [if_pos rfl]
          refine .bind (ih (fun b hb => hitems b (List.mem_cons_of_mem _ hb))
            (Nat.lt_of_succ_lt_succ hfuel) h₂) fun found s₃ h₃ hext hfound => ?_
          exact .pure h₃ (.cons (hmono b hext h₃.ordered (harena ▸ hfirst)) hfound)

/-- Items up to a closing mark. -/
theorem takes_items (hclose : close ≠ .comma) (what : String)
    (hmono : ∀ b {x y : Arena} {a}, Extends x y → y.Ordered → result b x a → result b y a)
    (hitems : ∀ b ∈ items, TakesItem close item tokens result b)
    (h : s.Ready (joined tokens items ++ .punct close :: after)) :
    Takes (Parser.items close what item) s after fun arena found =>
      List.Forall₂ (fun a b => result b arena a) found items := by
  refine .step (remaining_eq s) rfl (takes_itemsTo hclose what hmono hitems ?_ h)
  -- Every item has a token of its own.
  have hlength : items.length ≤ (joined tokens items).length := by
    clear h
    induction items with
    | nil => exact Nat.zero_le _
    | cons b items ih =>
        obtain ⟨⟨kind, rest, htokens, -⟩, -⟩ := hitems b List.mem_cons_self
        have hrest := ih fun b hb => hitems b (List.mem_cons_of_mem _ hb)
        rw [joined, htokens]
        simp only [List.length_append, List.length_cons]
        omega
  rw [h.length, List.length_append, List.length_cons]
  omega

end Items

theorem paramTokens_eq (names : List String) :
    Printer.paramTokens names = joined (fun name => [.ident name]) names := by
  induction names with
  | nil => rfl
  | cons name names ih =>
      cases names with
      | nil => rfl
      | cons next names =>
          rw [Printer.paramTokens, ih]
          rfl

/-- Parameter names are read back. -/
theorem takes_params {names : List String} (hnames : ∀ name ∈ names, Name name)
    (h : s.Ready (Printer.paramTokens names ++ .punct .rightParen :: after)) :
    Takes params s after fun _ found => found = names := by
  rw [paramTokens_eq] at h
  have hitem : ∀ name ∈ names, TakesItem .rightParen Parser.identifier (fun name => [.ident name])
      (fun name _ found => found = name) name := fun name hname =>
    ⟨⟨.ident name, [], rfl, TokenKind.noConfusion⟩, fun s after mark _ h =>
      Takes.identifier h (hnames name hname)⟩
  have htakes : Takes params s after fun _ found =>
      List.Forall₂ (fun a name => a = name) found names :=
    takes_items (by decide) _ (fun _ _ _ _ _ _ h => h) hitem h
  refine htakes.mono fun arena found hfound => ?_
  rwa [List.forall₂_eq_eq_eq] at hfound

end Parser

end Script

end RenderFold
