import RenderFold.Proofs.Script.Beginnings
import RenderFold.Proofs.Script.Taken

/-!
# Reading the Same Tokens Twice

A parser that reads the same tokens again, somewhere else, does the same as
before. There may be other nodes in the arena already; the new ones come after
them and refer to one another as they did. There may be a closing brace where
the tokens ended. And there may be fewer levels to nest in; then it fails as
soon as it runs out of them, and otherwise does not notice.

`Follows` says so of two parsers and the tokens ahead. It is about what the
first one does when it succeeds, and it counts the tokens that are left, since a
loop has rounds enough as long as it has more of them than tokens. A parser that
takes a token whenever it succeeds cannot succeed at the end of the tokens. So
wherever the brace is noticed the first parser would have failed, but for a
`return` with nothing to return, to which a brace and the end are the same.

The parsers are taken one by one, in the order of the module that defines them.

## Main definitions

* `Setting`: How the second reading differs from the first.
* `Setting.Beside`: Two readings that have got equally far.
* `Setting.Follows`: A parser that does what another does.
* `Setting.Tracks`: And takes a token, whatever is ahead.

## Theorems

* `Follows.bind`: Parsers in sequence.
* `tracks_levels`: The parsers for expressions and statements.
-/

namespace RenderFold

namespace Script

namespace Lexer

variable {start offset : Nat} {quote c : Char} {out text rest : List Char} {read : Read TokenKind}

theorem readQuoted_ne_eof (h : readQuoted start quote out offset text = .ok read) :
    read.value ≠ .eof := by
  fun_induction readQuoted start quote out offset text <;> grind

theorem readTemplate_ne_eof (h : readTemplate start out offset text = .ok read) :
    read.value ≠ .eof := by
  fun_induction readTemplate start out offset text <;> grind

theorem readToken_ne_eof (h : readToken start c rest = .ok read) : read.value ≠ .eof := by
  unfold readToken at h
  split at h
  · exact readQuoted_ne_eof h
  split at h
  · exact readTemplate_ne_eof h
  split at h
  · unfold readNumber at h
    dsimp only at h
    split at h <;> cases h
    exact TokenKind.noConfusion
  split at h
  · cases h
    exact TokenKind.noConfusion
  · unfold readPunct at h
    split at h <;> cases h <;> exact TokenKind.noConfusion

/-- The end mark is the last token and no other. -/
theorem tokensFrom_ends {tokens : List Token} (h : tokensFrom offset text = .ok tokens) :
    ∃ kinds, tokens.map (·.kind) = kinds ++ [.eof] ∧ .eof ∉ kinds := by
  fun_induction tokensFrom offset text generalizing tokens with
  | case1 | case3 | case4 => cases h
  | case2 =>
      cases h
      exact ⟨[], rfl, List.not_mem_nil⟩
  | case5 _ _ _ _ _ _ _ read hread _ hrest ih =>
      cases h
      obtain ⟨kinds, hkinds, hends⟩ := ih hrest
      refine ⟨read.value :: kinds, congrArg (read.value :: ·) hkinds, ?_⟩
      exact List.not_mem_cons_of_ne_of_not_mem (readToken_ne_eof hread).symm hends

end Lexer

namespace Parser

variable {α β γ δ : Type}

/-- Past the semicolons that come next. -/
def State.pastSemis (s : State) : State :=
  { s with rest := s.rest.dropWhile (·.kind = .punct .semi) }

theorem skipSemis_past (s : State) : skipSemis s = .ok () s.pastSemis := rfl

/-- How two readings of the same tokens differ. The second adds its nodes after
    those that are `below`, may find a closing brace where the first finds the
    end, and may have a limit on its levels that the first does not have. It
    does not have both a brace and such a limit. -/
structure Setting where
  below : Arena
  braced : Bool
  limited : Prop
  unlimited : braced = true → ¬ limited

namespace Setting

variable (σ : Setting)

/-- What the second reading finds where the first finds the end. -/
def ending : TokenKind := if σ.braced then .punct .rightBrace else .eof

/-- What comes after the tokens in the second reading. -/
def closing : List TokenKind := if σ.braced then [.punct .rightBrace, .eof] else [.eof]

theorem closing_eq : ∃ rest, σ.closing = σ.ending :: rest := by
  unfold closing ending
  split <;> exact ⟨_, rfl⟩

theorem ending_eq : σ.ending = .eof ∨ σ.ending = .punct .rightBrace ∧ σ.braced = true := by
  unfold ending
  split
  · next hbraced => exact .inr ⟨rfl, hbraced⟩
  · exact .inl rfl

theorem ending_ne {kind : TokenKind} (heof : kind ≠ .eof) (hbrace : kind ≠ .punct .rightBrace) :
    σ.ending ≠ kind := by
  rcases σ.ending_eq with h | ⟨h, -⟩
  · exact h ▸ heof.symm
  · exact h ▸ hbrace.symm

/-- The index of the same node in the second reading. -/
def place (id : Id) : Id := σ.below.size + id

/-- The nodes that were below and the same nodes after them. -/
def copy (arena : Arena) : Arena := ⟨σ.below.nodes ++ arena.nodes.map (·.map σ.place)⟩

theorem copy_empty : σ.copy .empty = σ.below := by
  rw [copy, Arena.empty, Array.map_empty, Array.append_empty]

theorem push_copy_index (arena : Arena) (node : Node Id) :
    ((σ.copy arena).push node).1 = σ.place arena.size := by
  change (σ.below.nodes ++ arena.nodes.map _).size = _
  rw [Array.size_append, Array.size_map]
  rfl

theorem push_copy (arena : Arena) (node : Node Id) :
    ((σ.copy arena).push (node.map σ.place)).2 = σ.copy (arena.push node).2 := by
  change Arena.mk ((σ.below.nodes ++ arena.nodes.map _).push _) =
    ⟨_ ++ (arena.nodes.push node).map _⟩
  rw [Array.map_push, Array.append_push]

/-- The readings have got equally far. The end mark comes last only. -/
structure Beside (s s' : State) (kinds : List TokenKind) : Prop where
  inner : .eof ∉ kinds
  ahead : s.rest.map (·.kind) = kinds ++ [.eof]
  ahead' : s'.rest.map (·.kind) = kinds ++ σ.closing
  arena : s'.arena = σ.copy s.arena

/-- Where the first parser succeeds, so does the second, unless it runs out of
    levels. The results are linked, and fewer than `bound` tokens are left. -/
def Follows (link : α → β) (kinds : List TokenKind) (bound : Nat) (x : Parse α) (y : Parse β) :
    Prop :=
  ∀ ⦃s s' : State⦄, σ.Beside s s' kinds → ∀ ⦃a : α⦄ ⦃t : State⦄, x s = .ok a t →
    (∃ kinds' t', y s' = .ok (link a) t' ∧ kinds'.length < bound ∧ σ.Beside t t' kinds') ∨
      σ.limited ∧ ∃ e t', y s' = .error e t' ∧ e.fault = .tooDeep

/-- Where the first parser succeeds it takes a token, and the second does what
    it does. -/
def Tracks (link : α → β) (x : Parse α) (y : Parse β) : Prop :=
  ∀ kinds : List TokenKind, σ.Follows link kinds kinds.length x y

end Setting

namespace Setting

variable {σ : Setting} {s s' : State} {kind : TokenKind} {mark : Punct}
  {kinds rest : List TokenKind} {link : α → β} {link' : γ → δ} {bound middle : Nat}

namespace Beside

theorem head_eq (h : σ.Beside s s' kinds) :
    s.kind = kinds.head?.getD .eof ∧ s'.kind = kinds.head?.getD σ.ending := by
  cases kinds with
  | nil =>
      obtain ⟨rest, hclosing⟩ := σ.closing_eq
      exact ⟨State.kind_of_rest h.ahead,
        State.kind_of_rest (h.ahead'.trans ((List.nil_append _).trans hclosing))⟩
  | cons kind rest => exact ⟨State.kind_of_rest h.ahead, State.kind_of_rest h.ahead'⟩

theorem advance (h : σ.Beside s s' (kind :: kinds)) : σ.Beside s.advance s'.advance kinds := by
  obtain ⟨rest, hclosing⟩ := σ.closing_eq
  refine ⟨fun hmem => h.inner (List.mem_cons_of_mem _ hmem), ?_, ?_, ?_⟩
  · exact State.rest_advance h.ahead (List.append_ne_nil_of_right_ne_nil _ (List.cons_ne_nil _ _))
  · refine State.rest_advance h.ahead' (List.append_ne_nil_of_right_ne_nil _ ?_)
    rw [hclosing]
    exact List.cons_ne_nil _ _
  · rw [State.advance_arena, State.advance_arena, h.arena]

/-- Semicolons that come next are skipped in both. -/
theorem skipSemis (h : σ.Beside s s' kinds) :
    σ.Beside s.pastSemis s'.pastSemis (kinds.dropWhile (· = .punct .semi)) := by
  have hdrop {s : State} {last : TokenKind} {after : List TokenKind} (hlast : last ≠ .punct .semi)
      (hahead : s.rest.map (·.kind) = kinds ++ last :: after) :
      s.pastSemis.rest.map (·.kind) = kinds.dropWhile (· = .punct .semi) ++ last :: after := by
    have hmap : (s.rest.map (·.kind)).dropWhile (· = .punct .semi) =
        s.pastSemis.rest.map (·.kind) := List.dropWhile_map
    rw [hahead, List.dropWhile_append, List.dropWhile_cons_of_neg (by
      rwa [decide_eq_true_eq])] at hmap
    refine hmap.symm.trans ?_
    split
    · next hempty => rw [List.isEmpty_iff.mp hempty, List.nil_append]
    · rfl
  obtain ⟨rest, hclosing⟩ := σ.closing_eq
  have hahead' := h.ahead'
  rw [hclosing] at hahead'
  refine ⟨fun hmem => h.inner (List.dropWhile_subset _ hmem), hdrop TokenKind.noConfusion h.ahead,
    ?_, h.arena⟩
  rw [hclosing]
  exact hdrop (σ.ending_ne TokenKind.noConfusion (by decide)) hahead'

/-- There are always more tokens than those that are counted. -/
theorem length_lt (h : σ.Beside s s' kinds) :
    kinds.length < s.rest.length ∧ kinds.length < s'.rest.length := by
  obtain ⟨rest, hclosing⟩ := σ.closing_eq
  have hlength := congrArg List.length h.ahead
  have hlength' := congrArg List.length h.ahead'
  rw [List.length_map, List.length_append, List.length_singleton] at hlength
  rw [hclosing, List.length_map, List.length_append, List.length_cons] at hlength'
  omega

end Beside

namespace Follows

variable {x : Parse α} {y : Parse β} {f : α → Parse γ} {g : β → Parse δ}

theorem pure {a : α} {b : β} (hlink : b = link a) (h : kinds.length < bound) :
    σ.Follows link kinds bound (Pure.pure a) (Pure.pure b) := by
  intro s s' hbeside a' t hx
  cases hx
  exact .inl ⟨kinds, s', hlink ▸ rfl, h, hbeside⟩

theorem fail (fault : Fault) : σ.Follows link kinds bound (Parser.fail fault) y := by
  intro s s' _ a t hx
  cases hx

theorem unexpected (what : String) : σ.Follows link kinds bound (Parser.unexpected what) y := by
  intro s s' _ a t hx
  cases hx

theorem failThen (fault : Fault) (f : γ → Parse α) :
    σ.Follows link kinds bound (Parser.fail fault >>= f) y := by
  intro s s' _ a t hx
  cases hx

theorem unexpectedThen (what : String) (f : γ → Parse α) :
    σ.Follows link kinds bound (Parser.unexpected what >>= f) y := by
  intro s s' _ a t hx
  cases hx

/-- A parser that has run out of levels. -/
theorem tooDeep (h : σ.limited) : σ.Follows link kinds bound x (Parser.fail .tooDeep) :=
  fun _ _ _ _ _ _ => .inr ⟨h, _, _, rfl, rfl⟩

theorem mono (h : σ.Follows link kinds middle x y) (hle : middle ≤ bound) :
    σ.Follows link kinds bound x y := by
  intro s s' hbeside a t hx
  rcases h hbeside hx with ⟨kinds', t', hy, hlt, hbeside'⟩ | herror
  · exact .inl ⟨kinds', t', hy, Nat.lt_of_lt_of_le hlt hle, hbeside'⟩
  · exact .inr herror

/-- One parser after another. -/
theorem bind (h : σ.Follows link kinds middle x y)
    (hf : ∀ a kinds', kinds'.length < middle → σ.Follows link' kinds' bound (f a) (g (link a))) :
    σ.Follows link' kinds bound (x >>= f) (y >>= g) := by
  intro s s' hbeside c t hx
  obtain ⟨a, s₁, hxs, hfs⟩ := bind_eq_ok hx
  rcases h hbeside hxs with ⟨kinds', s₁', hys, hlt, hbeside'⟩ | ⟨hlimited, e, s₁', hys, he⟩
  · rw [bind_eq hys]
    exact hf a kinds' hlt hbeside' hfs
  · refine .inr ⟨hlimited, e, s₁', ?_, he⟩
    change EStateM.bind y g s' = _
    unfold EStateM.bind
    rw [hys]

theorem map {h : α → γ} {h' : β → δ} (hx : σ.Follows link kinds bound x y)
    (hlink : ∀ a, h' (link a) = link' (h a)) :
    σ.Follows link' kinds bound (h <$> x) (h' <$> y) := by
  intro s s' hbeside c t hxs
  change EStateM.map h x s = .ok c t at hxs
  change (∃ kinds' t', EStateM.map h' y s' = _ ∧ _) ∨ _ ∧ ∃ e t', EStateM.map h' y s' = _ ∧ _
  unfold EStateM.map at hxs ⊢
  split at hxs
  · next a t hax =>
      cases hxs
      rcases hx hbeside hax with ⟨kinds', t', hy, hlt, hbeside'⟩ | ⟨hlimited, e, t', hy, he⟩
      · rw [hy]
        exact .inl ⟨kinds', t', hlink a ▸ rfl, hlt, hbeside'⟩
      · rw [hy]
        exact .inr ⟨hlimited, e, t', rfl, he⟩
  · cases hxs

/-- A step in either reading, before a parser. -/
theorem step {z : Parse α} {z' : Parse β}
    (h : ∀ s s', σ.Beside s s' kinds → ∃ a b t t', z s = .ok a t ∧ z' s' = .ok b t' ∧
      σ.Beside t t' rest ∧ σ.Follows link' rest bound (f a) (g b)) :
    σ.Follows link' kinds bound (z >>= f) (z' >>= g) := by
  intro s s' hbeside c t hx
  obtain ⟨a, b, s₁, s₁', hz, hz', hbeside', hfollows⟩ := h s s' hbeside
  rw [bind_eq hz] at hx
  rw [bind_eq hz']
  exact hfollows hbeside' hx

/-- A look at the next token. -/
theorem look {z : Parse δ} (view : TokenKind → δ) (hz : ∀ s, z s = .ok (view s.kind) s)
    {f : δ → Parse α} {g : δ → Parse β}
    (h : σ.Follows link kinds bound (f (view (kinds.head?.getD .eof)))
      (g (view (kinds.head?.getD σ.ending)))) :
    σ.Follows link kinds bound (z >>= f) (z >>= g) :=
  .step fun s s' hbeside => ⟨_, _, s, s', hz s, hz s', hbeside, by
    rw [hbeside.head_eq.1, hbeside.head_eq.2]
    exact h⟩

theorem peek {f : TokenKind → Parse α} {g : TokenKind → Parse β}
    (h : σ.Follows link kinds bound (f (kinds.head?.getD .eof)) (g (kinds.head?.getD σ.ending))) :
    σ.Follows link kinds bound (Parser.peek >>= f) (Parser.peek >>= g) :=
  .look id peek_eq h

/-- A look whether a certain token comes next, other than the brace. -/
theorem test {z : Parse Bool} (hz : ∀ s, z s = .ok (decide (s.kind = kind)) s)
    {f : Bool → Parse α} {g : Bool → Parse β} (heof : kind ≠ .eof)
    (hbrace : kind ≠ .punct .rightBrace)
    (hyes : ∀ rest, kinds = kind :: rest → σ.Follows link kinds bound (f true) (g true))
    (hno : σ.Follows link kinds bound (f false) (g false)) :
    σ.Follows link kinds bound (z >>= f) (z >>= g) := by
  -- The second reading finds what the first finds, or else the brace.
  have hsame : kinds.head?.getD .eof = kind ↔ kinds.head?.getD σ.ending = kind := by
    cases kinds with
    | nil => exact iff_of_false heof.symm (σ.ending_ne heof hbrace)
    | cons first rest => exact Iff.rfl
  refine .look (fun found => decide (found = kind)) hz ?_
  by_cases hfound : kinds.head?.getD .eof = kind
  · rw [decide_eq_true hfound, decide_eq_true (hsame.mp hfound)]
    cases kinds with
    | nil => exact absurd hfound.symm heof
    | cons first rest => exact hyes rest (congrArg (· :: rest) hfound)
  · rw [decide_eq_false hfound, decide_eq_false (mt hsame.mpr hfound)]
    exact hno

theorem at? (hmark : mark ≠ .rightBrace) {f : Bool → Parse α} {g : Bool → Parse β}
    (h : ∀ found, σ.Follows link kinds bound (f found) (g found)) :
    σ.Follows link kinds bound (Parser.at? mark >>= f) (Parser.at? mark >>= g) :=
  .test (at?_eq mark) TokenKind.noConfusion (fun heq => hmark (TokenKind.punct.inj heq))
    (fun _ _ => h true) (h false)

theorem keyword {name : String} {f : Bool → Parse α} {g : Bool → Parse β}
    (hyes : ∀ rest, kinds = .ident name :: rest → σ.Follows link kinds bound (f true) (g true))
    (hno : σ.Follows link kinds bound (f false) (g false)) :
    σ.Follows link kinds bound (atKeyword? name >>= f) (atKeyword? name >>= g) :=
  .test (atKeyword?_eq name) TokenKind.noConfusion TokenKind.noConfusion hyes hno

/-- The next token is taken. -/
theorem bump {f : TokenKind → Parse α} {g : TokenKind → Parse β}
    (h : σ.Follows link rest bound (f kind) (g kind)) :
    σ.Follows link (kind :: rest) bound (Parser.bump >>= f) (Parser.bump >>= g) :=
  .step fun s s' hbeside => ⟨kind, kind, _, _, State.kind_of_rest hbeside.ahead ▸ bump_eq s,
    State.kind_of_rest hbeside.ahead' ▸ bump_eq s', hbeside.advance, h⟩

/-- At the end there is nothing to take. -/
theorem bump_nil {f : TokenKind → Parse α} {y : Parse β}
    (h : ∀ (s : State) (a : α) (t : State), f .eof s ≠ .ok a t) :
    σ.Follows link [] bound (Parser.bump >>= f) y := by
  intro s s' hbeside a t hx
  rw [bind_eq (bump_eq s), State.kind_of_rest hbeside.ahead] at hx
  exact absurd hx (h _ a t)

/-- A mark that may come next. At the end it comes in the second reading only if
    it is the brace, and then the first one must not get on without it. -/
theorem eat {f : Bool → Parse α} {g : Bool → Parse β}
    (hyes : ∀ rest, kinds = .punct mark :: rest → σ.Follows link rest bound (f true) (g true))
    (hno : σ.Follows link kinds bound (f false) (g false))
    (hbrace : kinds = [] → σ.braced = true → mark = .rightBrace →
      ∀ y, σ.Follows link [] bound (f false) y) :
    σ.Follows link kinds bound (Parser.eat mark >>= f) (Parser.eat mark >>= g) := by
  intro s s' hbeside a t hx
  obtain ⟨hs, hs'⟩ := hbeside.head_eq
  -- Neither finds the mark.
  have hneither (hne : kinds.head?.getD .eof ≠ .punct mark)
      (hne' : kinds.head?.getD σ.ending ≠ .punct mark) :
      (∃ kinds' t', (Parser.eat mark >>= g) s' = .ok (link a) t' ∧ kinds'.length < bound ∧
        σ.Beside t t' kinds') ∨
          σ.limited ∧ ∃ e t', (Parser.eat mark >>= g) s' = .error e t' ∧ e.fault = .tooDeep := by
    rw [bind_eq (eat_no (hs ▸ hne))] at hx
    rw [bind_eq (eat_no (hs' ▸ hne'))]
    exact hno hbeside hx
  cases kinds with
  | nil =>
      by_cases hending : σ.ending = .punct mark
      · rw [bind_eq (eat_no (hs ▸ TokenKind.noConfusion))] at hx
        rcases σ.ending_eq with heof | ⟨hclosed, hbraced⟩
        · cases heof.symm.trans hending
        · exact hbrace rfl hbraced (TokenKind.punct.inj (hending.symm.trans hclosed)) _ hbeside hx
      · exact hneither TokenKind.noConfusion hending
  | cons kind rest =>
      by_cases hkind : kind = .punct mark
      · subst hkind
        rw [bind_eq (eat_yes hs)] at hx
        rw [bind_eq (eat_yes hs')]
        exact hyes rest rfl hbeside.advance hx
      · exact hneither hkind hkind

/-- A mark that is required. -/
theorem expect (mark : Punct) (what : String) :
    σ.Tracks id (Parser.expect mark what) (Parser.expect mark what) := by
  intro kinds
  refine .eat (fun rest hrest => ?_) (.unexpected what) fun _ _ _ _ => .unexpected what
  exact .pure rfl (hrest ▸ Nat.lt_succ_self _)

theorem identifier : σ.Tracks id Parser.identifier Parser.identifier := by
  intro kinds
  refine .peek ?_
  cases kinds with
  | nil => exact .unexpected _
  | cons kind rest =>
      dsimp only [List.head?_cons, Option.getD_some]
      split
      · split
        · exact .unexpected _
        · exact .bump (.pure rfl (Nat.lt_succ_self _))
      · exact .unexpected _

/-- Rounds are counted by the tokens that are left, so there are enough. -/
theorem remaining {f : Nat → Parse α} {g : Nat → Parse β}
    (h : ∀ fuel fuel', kinds.length < fuel → kinds.length < fuel' →
      σ.Follows link kinds bound (f fuel) (g fuel')) :
    σ.Follows link kinds bound (Parser.remaining >>= f) (Parser.remaining >>= g) :=
  .step fun s s' hbeside => ⟨_, _, s, s', rfl, rfl, hbeside,
    h _ _ hbeside.length_lt.1 hbeside.length_lt.2⟩

theorem skipSemis {f : Unit → Parse α} {g : Unit → Parse β}
    (h : σ.Follows link (kinds.dropWhile (· = .punct .semi)) bound (f ()) (g ())) :
    σ.Follows link kinds bound (Parser.skipSemis >>= f) (Parser.skipSemis >>= g) :=
  .step fun s s' hbeside =>
    ⟨(), (), _, _, skipSemis_past s, skipSemis_past s', hbeside.skipSemis, h⟩

/-- A node is added over the same parts. -/
theorem push {node : Node Id} {node' : Node Id} (hnode : node' = node.map σ.place)
    (h : kinds.length < bound) :
    σ.Follows σ.place kinds bound (Parser.push node) (Parser.push node') := by
  intro s s' hbeside id t hx
  cases hx
  refine .inl ⟨kinds, { s' with arena := (s'.arena.push node').2 }, ?_, h, hbeside.inner,
    hbeside.ahead, hbeside.ahead', ?_⟩
  · exact congrArg (EStateM.Result.ok · _) ((congrArg (fun arena => (arena.push node').1)
      hbeside.arena).trans (σ.push_copy_index s.arena node'))
  · rw [hbeside.arena, hnode, σ.push_copy]
    rfl

end Follows

section Readers

variable {x item : Parse α} {y item' : Parse β}
  {expression expression' unary unary' statement statement' : Parse Id}

/-- Behind a brace nothing is read that is not there at the end. -/
theorem Tracks.stuck (h : σ.Tracks link x y) (hbraced : σ.braced = true) (f : α → Parse γ)
    (z : Parse δ) : σ.Follows link' [] bound (x >>= f) z := by
  intro s s' hbeside c t hx
  obtain ⟨a, s₁, hxs, -⟩ := bind_eq_ok hx
  -- A success would have taken a token, and there is none.
  rcases h [] hbeside hxs with ⟨kinds', t', -, hlt, -⟩ | ⟨hlimited, -⟩
  · cases hlt
  · exact absurd hlimited (σ.unlimited hbraced)

theorem tracks_itemsTo (hitem : σ.Tracks link item item') (close : Punct) (what : String) :
    ∀ {fuel fuel' kinds}, kinds.length < fuel → kinds.length < fuel' →
      σ.Follows (List.map link) kinds kinds.length (itemsTo close what item fuel)
        (itemsTo close what item' fuel')
  | fuel + 1, fuel' + 1, kinds, h, h' => by
      refine .eat (fun rest hrest => .pure rfl (hrest ▸ Nat.lt_succ_self _)) ?_
        fun _ hbraced _ y => hitem.stuck hbraced _ y
      refine .bind (hitem kinds) fun first kinds₁ h₁ => .eat (fun rest hrest => ?_) ?_
        fun _ _ hmark => absurd hmark (by decide)
      · have hlength : kinds₁.length = rest.length + 1 := congrArg List.length hrest
        exact .bind (tracks_itemsTo hitem close what (by omega) (by omega)) fun found kinds₂ h₂ =>
          .pure rfl (by omega)
      · exact .bind (.expect close what kinds₁) fun _ kinds₂ h₂ => .pure rfl (by omega)

theorem tracks_items (hitem : σ.Tracks link item item') (close : Punct) (what : String) :
    σ.Tracks (List.map link) (items close what item) (items close what item') :=
  fun _ => .remaining fun _ _ h h' =>
    tracks_itemsTo hitem close what (Nat.lt_succ_of_lt h) (Nat.lt_succ_of_lt h')

theorem tracks_params : σ.Tracks id params params := by
  have h := @tracks_items _ _ σ id _ _ .identifier .rightParen "`)`"
  rwa [List.map_id_fun] at h

variable (hexpression : σ.Tracks σ.place expression expression')
include hexpression

theorem tracks_property :
    σ.Tracks (fun found => (found.1, σ.place found.2)) (property expression)
      (property expression') := by
  intro kinds
  -- What follows the key is the same for a name and for a text.
  have hrest (key : String) (isName : Bool) {kind : TokenKind} {rest : List TokenKind} :
      σ.Follows (fun found => (found.1, σ.place found.2)) (kind :: rest) (rest.length + 1) (do
        let _ ← bump
        if ← eat .colon then return (key, ← expression)
        else if isName && !isKeyword key then return (key, ← push (.ident key))
        else unexpected "`:`") (do
        let _ ← bump
        if ← eat .colon then return (key, ← expression')
        else if isName && !isKeyword key then return (key, ← push (.ident key))
        else unexpected "`:`") := by
    refine .bump (.eat (fun later hlater => ?_) ?_ fun _ _ hmark => absurd hmark (by decide))
    · have hlength : rest.length = later.length + 1 := congrArg List.length hlater
      exact .bind (hexpression later) fun _ kinds₁ h₁ => .pure rfl (by omega)
    · rw [if_neg Bool.false_ne_true, if_neg Bool.false_ne_true]
      split
      · exact .bind (.push rfl (Nat.lt_succ_self _)) fun _ kinds₁ h₁ => .pure rfl h₁
      · exact .unexpected _
  refine .peek ?_
  cases kinds with
  | nil => exact .unexpectedThen _ _
  | cons kind rest =>
      cases kind with
      | ident name => exact hrest name true
      | str text => exact hrest text false
      | num | punct | eof => exact .unexpectedThen _ _

theorem tracks_primary : σ.Tracks σ.place (primary expression) (primary expression') := by
  intro kinds
  -- A literal or a name is a node without parts, whatever it stands for.
  have hleaf {kind : TokenKind} {rest : List TokenKind} (node : Node Id)
      (hnode : node = node.map σ.place) :
      σ.Follows σ.place (kind :: rest) (rest.length + 1) (do let _ ← bump; push node)
        (do let _ ← bump; push node) :=
    .bump (.push hnode (Nat.lt_succ_self _))
  refine .peek ?_
  cases kinds with
  | nil => exact .unexpected _
  | cons kind rest =>
      cases kind with
      | str text => exact hleaf (.str text) rfl
      | num value => exact hleaf (.num value.toBits) rfl
      | ident name =>
          dsimp only [List.head?_cons, Option.getD_some]
          split
          · exact hleaf (.bool true) rfl
          · exact hleaf (.bool false) rfl
          · exact hleaf .null rfl
          · split
            · exact .failThen _ _
            · exact hleaf (.ident name) rfl
      | punct mark =>
          cases mark with
          | leftParen =>
              exact .bump (.bind (hexpression rest) fun inner kinds₁ h₁ =>
                .bind (.expect _ _ kinds₁) fun _ kinds₂ h₂ =>
                  .pure rfl (Nat.lt_succ_of_lt (Nat.lt_trans h₂ h₁)))
          | leftSquare =>
              exact .bump (.bind (tracks_items hexpression _ _ rest) fun elements kinds₁ h₁ =>
                .push rfl (Nat.lt_succ_of_lt h₁))
          | leftBrace =>
              exact .bump (.bind (tracks_items (tracks_property hexpression) _ _ rest)
                fun properties kinds₁ h₁ => .push rfl (Nat.lt_succ_of_lt h₁))
          | _ => exact .unexpected _
      | eof => exact .unexpected _

theorem follows_suffixes : ∀ {fuel fuel' kinds} {target : Id}, kinds.length < fuel →
    kinds.length < fuel' → σ.Follows σ.place kinds (kinds.length + 1)
      (suffixes expression fuel target) (suffixes expression' fuel' (σ.place target))
  | fuel + 1, fuel' + 1, kinds, target, h, h' => by
      refine .eat (fun rest hrest => ?_) (.eat (fun rest hrest => ?_) (.eat (fun rest hrest => ?_)
        (.pure rfl (Nat.lt_succ_self _)) ?_) ?_) ?_
      · cases rest with
        | nil => exact .bump_nil fun s a t heq => by cases heq
        | cons kind rest =>
            cases kind with
            | ident name =>
                have hlength : kinds.length = rest.length + 2 := congrArg List.length hrest
                refine .bump (.bind (.push rfl (Nat.lt_succ_self _)) fun id kinds₁ h₁ => ?_)
                exact (follows_suffixes (by omega) (by omega)).mono (by omega)
            | _ => exact .bump (.unexpected _)
      · have hlength : kinds.length = rest.length + 1 := congrArg List.length hrest
        refine .bind (hexpression rest) fun position kinds₁ h₁ =>
          .bind (.expect _ _ kinds₁) fun _ kinds₂ h₂ =>
            .bind (.push rfl (Nat.lt_succ_self _)) fun id kinds₃ h₃ => ?_
        exact (follows_suffixes (by omega) (by omega)).mono (by omega)
      · have hlength : kinds.length = rest.length + 1 := congrArg List.length hrest
        refine .bind (tracks_items hexpression _ _ rest) fun arguments kinds₁ h₁ =>
          .bind (.push rfl (Nat.lt_succ_self _)) fun id kinds₂ h₂ => ?_
        exact (follows_suffixes (by omega) (by omega)).mono (by omega)
      all_goals exact fun _ _ hmark => absurd hmark (by decide)

theorem tracks_accessed : σ.Tracks σ.place (accessed expression) (accessed expression') :=
  fun kinds => .bind (tracks_primary hexpression kinds) fun _ _ h₁ =>
    .remaining fun _ _ h h' => (follows_suffixes hexpression h h').mono h₁

theorem tracks_unaryWith {argument argument' : Parse Id}
    (hargument : σ.Tracks σ.place argument argument') :
    σ.Tracks σ.place (unaryWith expression argument) (unaryWith expression' argument') := by
  intro kinds
  refine .eat (fun rest hrest => ?_) (tracks_accessed hexpression kinds) fun _ _ hmark =>
    absurd hmark (by decide)
  have hlength : kinds.length = rest.length + 1 := congrArg List.length hrest
  exact .bind (hargument rest) fun _ kinds₁ h₁ => .push rfl (by omega)

omit hexpression

theorem follows_chainRest {op? : TokenKind → Option BinaryOp} {operand operand' : Parse Id}
    (hop : op? .eof = none) (hop' : op? (.punct .rightBrace) = none)
    (hoperand : σ.Tracks σ.place operand operand') : ∀ {fuel fuel' kinds} {left : Id},
    kinds.length < fuel → kinds.length < fuel' → σ.Follows σ.place kinds (kinds.length + 1)
      (chainRest op? operand fuel left) (chainRest op? operand' fuel' (σ.place left))
  | fuel + 1, fuel' + 1, kinds, left, h, h' => by
      refine .peek ?_
      cases kinds with
      | nil =>
          have hending : op? σ.ending = none := by
            rcases σ.ending_eq with h | ⟨h, -⟩
            · exact h ▸ hop
            · exact h ▸ hop'
          dsimp only [List.head?_nil, Option.getD_none]
          rw [hop, hending]
          exact .pure rfl (Nat.lt_succ_self _)
      | cons kind rest =>
          dsimp only [List.head?_cons, Option.getD_some]
          rw [List.length_cons] at h h'
          split
          · exact .pure rfl (Nat.lt_succ_self _)
          · refine .bump (.bind (hoperand rest) fun right kinds₁ h₁ =>
              .bind (.push rfl (Nat.lt_succ_self _)) fun id kinds₂ h₂ => ?_)
            exact (follows_chainRest hop hop' hoperand (by omega) (by omega)).mono
              (by rw [List.length_cons]; omega)

theorem tracks_chain {op? : TokenKind → Option BinaryOp} {operand operand' : Parse Id}
    (hop : op? .eof = none) (hop' : op? (.punct .rightBrace) = none)
    (hoperand : σ.Tracks σ.place operand operand') :
    σ.Tracks σ.place (chain op? operand) (chain op? operand') :=
  fun kinds => .bind (hoperand kinds) fun _ _ h₁ => .remaining fun _ _ h h' =>
    (follows_chainRest hop hop' hoperand h h').mono h₁

theorem tracks_binary (hunary : σ.Tracks σ.place unary unary') :
    σ.Tracks σ.place (binary unary) (binary unary') :=
  tracks_chain rfl rfl (tracks_chain rfl rfl (tracks_chain rfl rfl (tracks_chain rfl rfl hunary)))

include hexpression

theorem tracks_arrow : σ.Tracks σ.place (arrow expression) (arrow expression') := by
  intro kinds
  have hrest (names : List String) {kinds' : List TokenKind} (hlt : kinds'.length < kinds.length) :
      σ.Follows σ.place kinds' kinds.length (do
        expect .arrow "`=>`"
        if ← at? .leftBrace then fail .arrowBlock
        push (.arrow names (← expression))) (do
        expect .arrow "`=>`"
        if ← at? .leftBrace then fail .arrowBlock
        push (.arrow names (← expression'))) := by
    refine .bind (.expect _ _ kinds') fun _ kinds₁ h₁ => .at? (by decide) fun found => ?_
    cases found with
    | true => exact .failThen _ _
    | false => exact .bind (hexpression kinds₁) fun _ kinds₂ h₂ => .push rfl (by omega)
  refine .eat (fun rest hrest' => ?_) ?_ fun _ _ hmark => absurd hmark (by decide)
  · have hlength : kinds.length = rest.length + 1 := congrArg List.length hrest'
    exact .bind (tracks_params rest) fun names kinds₁ h₁ => hrest names (by omega)
  · exact .bind (.identifier kinds) fun name kinds₁ h₁ => hrest [name] h₁

theorem tracks_conditional (hunary : σ.Tracks σ.place unary unary') :
    σ.Tracks σ.place (conditional expression unary) (conditional expression' unary') := by
  intro kinds
  refine .bind (tracks_binary hunary kinds) fun test kinds₁ h₁ => .eat (fun rest hrest => ?_)
    (.pure rfl h₁) fun _ _ hmark => absurd hmark (by decide)
  have hlength : kinds₁.length = rest.length + 1 := congrArg List.length hrest
  exact .bind (hexpression rest) fun consequent kinds₂ h₂ =>
    .bind (.expect _ _ kinds₂) fun _ kinds₃ h₃ =>
      .bind (hexpression kinds₃) fun alternate kinds₄ h₄ => .push rfl (by omega)

omit hexpression in
/-- A brace at the end makes no difference to what the parser sees ahead. -/
theorem Beside.startsArrow_eq (h : σ.Beside s s' kinds) :
    startsArrow s.rest = startsArrow s'.rest := by
  -- What follows the tokens is no arrow, and nothing to look beyond.
  obtain ⟨after, hclosing⟩ := σ.closing_eq
  have hlast : σ.ending = .eof ∨ σ.ending = .punct .rightBrace := σ.ending_eq.imp_right And.left
  generalize σ.ending = last at hclosing hlast
  have hcloses (kinds : List TokenKind) : closesArrow (unplaced (kinds ++ [.eof])) =
      closesArrow (unplaced (kinds ++ last :: after)) := by
    induction kinds with
    | nil => rcases hlast with rfl | rfl <;> rfl
    | cons kind rest ih =>
        cases kind with
        | ident name => exact ih
        | punct mark =>
            cases mark with
            | comma => exact ih
            | rightParen =>
                cases rest with
                | nil => rcases hlast with rfl | rfl <;> rfl
                | cons next rest =>
                    cases next with
                    | punct mark => cases mark <;> rfl
                    | _ => rfl
            | _ => rfl
        | _ => rfl
  rw [startsArrow_kinds s.rest, startsArrow_kinds s'.rest, h.ahead, h.ahead', hclosing]
  cases kinds with
  | nil => rcases hlast with rfl | rfl <;> rfl
  | cons kind rest =>
      cases kind with
      | ident name =>
          cases rest with
          | nil => rcases hlast with rfl | rfl <;> rfl
          | cons next rest =>
              cases next with
              | punct mark => cases mark <;> rfl
              | _ => rfl
      | punct mark =>
          cases mark with
          | leftParen => exact hcloses rest
          | _ => rfl
      | _ => rfl

theorem tracks_expressionWith (hunary : σ.Tracks σ.place unary unary') :
    σ.Tracks σ.place (expressionWith expression unary) (expressionWith expression' unary') := by
  intro kinds
  refine .step fun s s' hbeside => ⟨s, s', s, s', rfl, rfl, hbeside, ?_⟩
  rw [← hbeside.startsArrow_eq]
  split
  · exact tracks_arrow hexpression kinds
  · exact tracks_conditional hexpression hunary kinds

omit hexpression

theorem follows_blockRest (hstatement : σ.Tracks σ.place statement statement') :
    ∀ {fuel fuel' kinds}, kinds.length < fuel → kinds.length < fuel' →
      σ.Follows (List.map σ.place) kinds kinds.length (blockRest statement fuel)
        (blockRest statement' fuel')
  | fuel + 1, fuel' + 1, kinds, h, h' => by
      have hskip : (kinds.dropWhile (· = .punct .semi)).length ≤ kinds.length :=
        (List.dropWhile_suffix _).length_le
      refine .skipSemis (.eat (fun rest hrest => .pure rfl ?_) (.peek ?_) fun _ _ _ y => ?_)
      · rw [hrest, List.length_cons] at hskip
        exact hskip
      · generalize kinds.dropWhile (· = .punct .semi) = kinds₁ at hskip
        cases kinds₁ with
        | nil => exact .unexpectedThen _ _
        | cons kind rest =>
            by_cases hkind : kind = .eof
            · subst hkind
              exact .unexpectedThen _ _
            · rw [if_neg (show ¬ (kind :: rest).head?.getD .eof = .eof from hkind),
                if_neg (show ¬ (kind :: rest).head?.getD σ.ending = .eof from hkind)]
              refine .bind (hstatement _) fun first kinds₂ h₂ => ?_
              exact .bind (follows_blockRest hstatement (by omega) (by omega)) fun rest kinds₃ h₃ =>
                .pure rfl (by omega)
      · -- At the end the first reading is in want of the brace.
        intro s s' hbeside a t hx
        rw [if_neg Bool.false_ne_true, bind_eq (peek_eq s), State.kind_of_rest hbeside.ahead,
          if_pos rfl] at hx
        cases hx

theorem tracks_block (hstatement : σ.Tracks σ.place statement statement') :
    σ.Tracks (List.map σ.place) (block statement) (block statement') :=
  fun kinds => .bind (.expect _ _ kinds) fun _ _ h₁ => .remaining fun _ _ h h' =>
    (follows_blockRest hstatement (Nat.lt_succ_of_lt h) (Nat.lt_succ_of_lt h')).mono
      (Nat.le_of_lt h₁)

theorem tracks_body (hstatement : σ.Tracks σ.place statement statement') :
    σ.Tracks (List.map σ.place) (body statement) (body statement') := by
  intro kinds
  refine .at? (by decide) fun found => ?_
  cases found with
  | true => exact tracks_block hstatement kinds
  | false => exact .bind (hstatement kinds) fun _ _ h₁ => .pure rfl h₁

theorem follows_declaration (binding : Binding) {kind : TokenKind} {rest : List TokenKind}
    (hexpression : σ.Tracks σ.place expression expression') :
    σ.Follows σ.place (kind :: rest) (rest.length + 1) (declaration binding expression)
      (declaration binding expression') := by
  refine .bump (.bind (.identifier rest) fun name kinds₁ h₁ =>
    .bind (.expect _ _ kinds₁) fun _ kinds₂ h₂ =>
      .bind (hexpression kinds₂) fun init kinds₃ h₃ => ?_)
  refine .eat (fun rest' hrest => ?_) (.push rfl (by omega)) fun _ _ hmark =>
    absurd hmark (by decide)
  have hlength : kinds₃.length = rest'.length + 1 := congrArg List.length hrest
  exact .push rfl (by omega)

theorem tracks_statementWith (hstatement : σ.Tracks σ.place statement statement')
    (hexpression : σ.Tracks σ.place expression expression') :
    σ.Tracks σ.place (statementWith statement expression)
      (statementWith statement' expression') := by
  intro kinds
  -- A semicolon may come after a statement.
  have hsemi {node node' : Node Id} {kinds' : List TokenKind} (hnode : node' = node.map σ.place)
      (hlt : kinds'.length < kinds.length) :
      σ.Follows σ.place kinds' kinds.length (do let _ ← eat .semi; push node)
        (do let _ ← eat .semi; push node') := by
    refine .eat (fun rest hrest => .push hnode ?_) (.push hnode hlt) fun _ _ hmark =>
      absurd hmark (by decide)
    exact Nat.lt_trans (hrest ▸ Nat.lt_succ_self _) hlt
  refine .keyword ?_ (.keyword ?_ (.keyword ?_ (.keyword ?_ (.keyword ?_ ?_))))
  · rintro rest rfl
    have hargument {bare bare' : Bool} (hbare : bare = bare') :
        σ.Follows σ.place rest (rest.length + 1) (do
          let argument ← if bare then pure none else some <$> expression
          let _ ← eat .semi
          push (.ret argument)) (do
          let argument ← if bare' then pure none else some <$> expression'
          let _ ← eat .semi
          push (.ret argument)) := by
      subst hbare
      cases bare with
      | true => exact hsemi rfl (Nat.lt_succ_self _)
      | false =>
          have hsome : σ.Follows (Option.map σ.place) rest rest.length (some <$> expression)
              (some <$> expression') := .map (hexpression rest) fun _ => rfl
          exact .bind hsome fun argument kinds₁ h₁ => hsemi rfl (Nat.lt_succ_of_lt h₁)
    refine .bump (.look (fun kind => decide (kind = .punct .semi)) (at?_eq .semi)
      (.look (fun kind => decide (kind = .punct .rightBrace)) (at?_eq .rightBrace)
        (.peek (hargument ?_))))
    -- At a brace there is nothing to return either.
    cases rest with
    | nil =>
        rw [List.head?_nil, Option.getD_none, Option.getD_none]
        rcases σ.ending_eq with h | ⟨h, -⟩
        · rw [h]
        · rw [h]
          rfl
    | cons => rfl
  · rintro rest rfl
    exact follows_declaration .const hexpression
  · rintro rest rfl
    exact follows_declaration .let hexpression
  · rintro rest rfl
    refine .bump (.bind (.expect _ _ rest) fun _ kinds₁ h₁ => .bind (hexpression kinds₁)
      fun test kinds₂ h₂ => .bind (.expect _ _ kinds₂) fun _ kinds₃ h₃ =>
        .bind (tracks_body hstatement kinds₃) fun consequent kinds₄ h₄ =>
          .keyword (fun later hlater => ?_) (.push rfl ?_))
    · subst hlater
      rw [List.length_cons] at h₄
      exact .bump (.bind (tracks_body hstatement later) fun alternate kinds₅ h₅ =>
        .push rfl (by rw [List.length_cons]; omega))
    · rw [List.length_cons]
      omega
  · exact fun _ _ => .fail _
  · exact .bind (hexpression kinds) fun argument kinds₁ h₁ => hsemi rfl h₁

end Readers

/-- The parsers of two levels that do the same. -/
structure TracksLevel (σ : Setting) (level level' : Level) : Prop where
  expression : σ.Tracks σ.place level.expression level'.expression
  unary : σ.Tracks σ.place level.unary level'.unary
  statement : σ.Tracks σ.place level.statement level'.statement

/-- With fewer levels the parsers do the same, unless they run out of them. -/
theorem tracks_levels : ∀ {depth depth' : Nat}, depth' ≤ depth → (depth' < depth → σ.limited) →
    σ.TracksLevel (levels depth) (levels depth')
  | 0, 0, _, _ =>
      have hfail : σ.Tracks σ.place (fail .tooDeep : Parse Id) (fail .tooDeep) := fun _ => .fail _
      ⟨hfail, tracks_unaryWith hfail hfail, hfail⟩
  | _ + 1, 0, _, hlimited =>
      -- Only the second is out of levels.
      have hfail {x : Parse Id} : σ.Tracks σ.place x (fail .tooDeep) := fun _ =>
        .tooDeep (hlimited (Nat.succ_pos _))
      ⟨hfail, tracks_unaryWith hfail hfail, hfail⟩
  | _ + 1, _ + 1, hle, hlimited =>
      have inner := tracks_levels (Nat.le_of_succ_le_succ hle) fun hlt =>
        hlimited (Nat.succ_lt_succ hlt)
      have hexpression := tracks_expressionWith inner.expression inner.unary
      ⟨hexpression, tracks_unaryWith hexpression inner.unary,
        tracks_statementWith inner.statement inner.expression⟩

end Setting

end Parser

end Script

end RenderFold
