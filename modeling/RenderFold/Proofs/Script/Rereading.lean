import RenderFold.Proofs.Script.Places

/-!
# Reading Trees Back

The tokens of an expression, read in the place they were written for, give the
expression. The proof is an induction over the expression that follows the
printer: a node is read by the parser for its own tightness, so it fits in all
looser places, and where the place asks for more there are parentheses, in which
it is a whole expression again.

What is printed must not nest deeper than the parser allows.

## Main definitions

* `Parser.Reread`: An expression is read back from its tokens.

## Theorems

* `Parser.reread`: Expressions are read back.
-/

namespace RenderFold

namespace Script

namespace Parser

open Arena (Extends Ordered Stands)
open Printer (Stops tokens bareTokens keyToken paramTokens itemTokens entryTokens precedence nesting bareNesting
  partsNesting entriesNesting postfixLevel notLevel arrowLevel primaryLevel)

variable {s : State} {after kinds : List TokenKind} {depth place tightness : Nat} {t : Tree}
  {node : Node Tree}

/-- An expression is read back from its tokens in every place. -/
def Reread (t : Tree) : Prop := ∀ ⦃depth tightness⦄, tightness ≤ postfixLevel →
  nesting 1 tightness t ≤ depth → Fits depth tightness (tokens tightness t) t

theorem tokens_arrowLevel (t : Tree) : tokens arrowLevel t = tokens 0 t := by
  obtain ⟨node⟩ := t
  have hprec : arrowLevel ≤ precedence node := by
    cases node with
    | binary op => cases op <;> exact of_decide_eq_true rfl
    | _ => exact of_decide_eq_true rfl
  rw [tokens, tokens, if_neg (Nat.not_lt_of_le hprec), if_neg (Nat.not_lt_zero _)]

/-- Parts with a level of their own are read by the level below. -/
theorem Reread.whole (h : Reread t) (hdepth : nesting 1 0 t < depth) (hstops : Stops 0 after)
    (hs : s.Ready (tokens 0 t ++ after)) :
    Takes (levels depth).expression s after fun arena id => arena.Stands id t := by
  obtain ⟨depth, rfl⟩ := Nat.exists_eq_succ_of_ne_zero (Nat.ne_of_gt (Nat.zero_lt_of_lt hdepth))
  exact (h (Nat.zero_le _) (Nat.le_of_lt_succ hdepth)).held (Nat.le_refl 0) hstops hs

/-- A node that is read by the parser for its own tightness is read back. -/
theorem Reread.of_bare (hnode : Expression (.mk node))
    (h : ∀ ⦃depth⦄, bareNesting 1 node ≤ depth →
      Fits depth (min (precedence node) postfixLevel) (bareTokens node) (.mk node)) :
    Reread (.mk node) := by
  intro depth tightness htight hdepth
  rw [nesting] at hdepth
  rw [tokens]
  by_cases hparens : precedence node < tightness
  · rw [if_pos hparens, Nat.add_comm] at hdepth
    rw [if_pos hparens]
    obtain ⟨depth, rfl⟩ := Nat.exists_eq_succ_of_ne_zero
      (Nat.ne_of_gt (Nat.lt_of_lt_of_le (Nat.succ_pos _) hdepth))
    refine (Fits.parens ((h (Nat.le_of_succ_le_succ hdepth)).held (Nat.zero_le _)) ?_).mono htight
    intro rest hstarts
    rw [List.cons_append, List.append_assoc] at hstarts
    exact startsArrow_parens hnode hstarts
  · rw [if_neg hparens, Nat.zero_add] at hdepth
    rw [if_neg hparens]
    exact (h hdepth).mono (le_min (Nat.le_of_not_lt hparens) htight)

/-- What can be accessed and called without parentheses. -/
theorem Reread.of_begun (hnode : Expression (.mk node)) (hprec : postfixLevel ≤ precedence node)
    (h : ∀ ⦃depth⦄, bareNesting 1 node ≤ depth →
      Begun depth postfixLevel (bareTokens node) (.mk node)) : Reread (.mk node) := by
  refine .of_bare hnode fun depth hdepth => ?_
  have htokens : tokens postfixLevel (.mk node) = bareTokens node := by
    rw [tokens, if_neg (Nat.not_lt_of_le hprec)]
  have hfits : Fits depth postfixLevel (bareTokens node) (.mk node) := by
    refine .of_access (h hdepth) (fun rest => ?_) (fun rest => ?_) ?_
    · exact startsArrow_bareTokens hnode
        (Nat.ne_of_gt (Nat.lt_of_lt_of_le (by decide) hprec))
    · exact htokens ▸ Printer.tokens_ne_bang hnode
    · obtain ⟨kind, rest, hkinds, -⟩ := tokens_begin hnode postfixLevel
      rw [← htokens, hkinds]
      exact List.cons_ne_nil _ _
  exact hfits.mono (Nat.min_le_right _ _)

/-- A node is added over parts that were read before. -/
theorem Takes.over {shape : Node Id} (h : s.Ready after)
    (hparts : ∀ part ∈ shape.children, part < s.arena.size)
    (hnode : shape.map s.arena.tree = node) :
    Takes (Parser.push shape) s after fun arena id => arena.Stands id (.mk node) :=
  hnode ▸ Takes.push h hparts

/-- Indices that stand for trees one by one. -/
theorem Stands.list {arena : Arena} {ids : List Id} {ts : List Tree}
    (h : List.Forall₂ (fun id t => arena.Stands id t) ids ts) :
    ids.map arena.tree = ts ∧ ∀ id ∈ ids, id < arena.size := by
  induction h with
  | nil => exact ⟨rfl, fun _ h => absurd h List.not_mem_nil⟩
  | cons hstands h ih =>
      rw [List.map_cons, hstands.2, ih.1]
      exact ⟨rfl, List.forall_mem_cons.mpr ⟨hstands.1, ih.2⟩⟩

theorem itemTokens_eq (ts : List Tree) : itemTokens ts = joined (tokens 0) ts := by
  induction ts with
  | nil => rfl
  | cons t ts ih => rw [itemTokens, joined, ih, tokens_arrowLevel]

/-- Items are read back. -/
theorem takes_trees {close : Punct} {what : String} {ts : List Tree}
    (hclose : close = .rightParen ∨ close = .rightSquare)
    (hts : ∀ t ∈ ts, Expression t) (hreread : ∀ t ∈ ts, Reread t)
    (hdepth : partsNesting 1 ts ≤ depth)
    (hs : s.Ready (itemTokens ts ++ .punct close :: after)) :
    Takes (items close what (levels depth).expression) s after fun arena ids =>
      List.Forall₂ (fun id t => arena.Stands id t) ids ts := by
  rw [itemTokens_eq] at hs
  have hitems : ∀ t ∈ ts, TakesItem close (levels depth).expression (tokens 0)
      (fun t arena id => arena.Stands id t) t := by
    refine fun t ht => ⟨?_, fun s after mark hmark h => ?_⟩
    · obtain ⟨kind, rest, htokens, hbegins⟩ := tokens_begin (hts t ht) 0
      refine ⟨kind, rest, htokens, ?_⟩
      rintro rfl
      rcases hclose with rfl | rfl <;> cases hbegins
    · refine (hreread t ht).whole (Printer.partsNesting_le_iff.mp hdepth t ht) (.of_binding ?_ 0) h
      rcases hmark with rfl | rfl
      · rfl
      · rcases hclose with rfl | rfl <;> rfl
  refine takes_items ?_ what (fun t x y id hext hy h => h.mono hext hy) hitems hs
  rcases hclose with rfl | rfl <;> decide

section Leaves

variable {kind : TokenKind} {bits : UInt64} {name : String}

/-- A node without parts, after one token. -/
theorem Begun.of_leaf (shape : Node Id) (hshape : shape.children = [])
    (hnode : ∀ arena : Arena, shape.map arena.tree = node)
    (h : ∀ {s}, s.kind = kind → primary (levels depth).expression s =
      (bump >>= fun _ => Parser.push shape) s) : Begun depth postfixLevel [kind] (.mk node) := by
  refine .of_primary fun s after hs => ?_
  have htakes : Takes (bump >>= fun _ => Parser.push shape) s after
      fun arena id => arena.Stands id (.mk node) := by
    refine .bump hs fun s' hs' _ => .over hs' (fun part hpart => ?_) (hnode _)
    rw [hshape] at hpart
    exact absurd hpart List.not_mem_nil
  obtain ⟨id, s', hrun, hready⟩ := htakes
  exact ⟨id, s', (h hs.kind_cons).trans hrun, hready⟩

theorem reread_str (text : String) : Reread (.mk (.str text)) :=
  .of_begun (.str text) (Nat.le_succ _) fun _ _ => .of_leaf (.str text) rfl (fun _ => rfl) fun hs => by
    rw [primary, bind_eq (peek_eq _), hs]

theorem reread_num (hbits : Literal bits)
    (hfinite : (Decimal.Exact.ofFloat? (Float.ofBits bits)).isSome = true) :
    Reread (.mk (.num bits)) :=
  .of_begun (.num hbits) (Nat.le_succ _) fun _ _ => .of_leaf (.num bits) rfl (fun _ => rfl) fun hs => by
    rw [primary, bind_eq (peek_eq _), hs]
    dsimp only
    rw [toBits_ofBits hbits hfinite]

theorem reread_bool (value : Bool) : Reread (.mk (.bool value)) := by
  refine .of_begun (.bool value) (Nat.le_succ _) fun _ _ =>
    .of_leaf (.bool value) rfl (fun _ => rfl) fun hs => ?_
  rw [primary, bind_eq (peek_eq _), hs]
  cases value <;> rfl

theorem reread_null : Reread (.mk .null) :=
  .of_begun .null (Nat.le_succ _) fun _ _ => .of_leaf .null rfl (fun _ => rfl) fun hs => by
    rw [primary, bind_eq (peek_eq _), hs]
    rfl

theorem reread_ident (hname : Name name) : Reread (.mk (.ident name)) :=
  .of_begun (.ident hname) (Nat.le_succ _) fun _ _ => .of_leaf (.ident name) rfl (fun _ => rfl) fun hs => by
    rw [primary, bind_eq (peek_eq _), hs]
    dsimp only
    split
    · exact absurd hname.2 (by decide)
    · exact absurd hname.2 (by decide)
    · exact absurd hname.2 (by decide)
    · rw [hname.2]
      rfl

end Leaves

/-- The parser gets to what `next` reads after the tree. -/
def GoesOn (x : Parse Id) (s : State) (after : List TokenKind) (next : Id → Parse Id) (t : Tree) :
    Prop :=
  ∃ id s', x s = next id s' ∧ s'.Ready after ∧ Extends s.arena s'.arena ∧ s'.arena.Stands id t

namespace GoesOn

variable {α : Type} {x : Parse α} {f : α → Parse Id} {next : Id → Parse Id} {mark : Punct}
  {middle : List TokenKind} {result : Arena → α → Prop}

/-- After a parser. -/
theorem bind (hx : Takes x s middle result)
    (hf : ∀ a s', s'.Ready middle → Extends s.arena s'.arena → result s'.arena a →
      GoesOn (f a) s' after next t) : GoesOn (x >>= f) s after next t := by
  obtain ⟨a, s', hrun, hready, hext, ha⟩ := hx
  obtain ⟨id, s'', hrun', hready', hext', hstands⟩ := hf a s' hready hext ha
  exact ⟨id, s'', (bind_eq hrun).trans hrun', hready', hext.trans hext', hstands⟩

/-- After a step that adds nothing. -/
theorem step {a : α} {s' : State} (hx : x s = .ok a s') (harena : s'.arena = s.arena)
    (hf : GoesOn (f a) s' after next t) : GoesOn (x >>= f) s after next t := by
  obtain ⟨id, s'', hrun, hready, hext, hstands⟩ := hf
  exact ⟨id, s'', (bind_eq hx).trans hrun, hready, harena ▸ hext, hstands⟩

theorem bump {f : TokenKind → Parse Id} (h : s.Ready (kind :: kinds))
    (hf : ∀ s', s'.Ready kinds → Extends s.arena s'.arena → GoesOn (f kind) s' after next t) :
    GoesOn (bump >>= f) s after next t :=
  .step (h.kind_cons ▸ bump_eq s) s.advance_arena
    (hf _ h.advance (s.advance_arena ▸ Extends.refl _))

theorem eat {f : Bool → Parse Id} (h : s.Ready (.punct mark :: kinds))
    (hf : ∀ s', s'.Ready kinds → Extends s.arena s'.arena → GoesOn (f true) s' after next t) :
    GoesOn (eat mark >>= f) s after next t :=
  .step (eat_yes h.kind_cons) s.advance_arena
    (hf _ h.advance (s.advance_arena ▸ Extends.refl _))

theorem pass {f : Bool → Parse Id} (h : s.Ready (kind :: kinds)) (hkind : kind ≠ .punct mark)
    (hf : GoesOn (f false) s after next t) : GoesOn (Parser.eat mark >>= f) s after next t :=
  .step (eat_no (h.kind_cons ▸ hkind)) rfl hf

theorem expect {f : Unit → Parse Id} {what : String} (h : s.Ready (.punct mark :: kinds))
    (hf : ∀ s', s'.Ready kinds → Extends s.arena s'.arena → GoesOn (f ()) s' after next t) :
    GoesOn (expect mark what >>= f) s after next t :=
  .step (expect_eq what h.kind_cons) s.advance_arena
    (hf _ h.advance (s.advance_arena ▸ Extends.refl _))

/-- After a node over parts that were read before. -/
theorem push {shape : Node Id} (h : s.Ready after)
    (hparts : ∀ part ∈ shape.children, part < s.arena.size)
    (hnode : shape.map s.arena.tree = node) :
    GoesOn (push shape >>= next) s after next (.mk node) := by
  obtain ⟨id, s', hrun, hready, hext, hstands⟩ := Takes.over h hparts hnode
  exact ⟨id, s', bind_eq hrun, hready, hext, hstands⟩

end GoesOn

section Accesses

variable {target position callee : Tree} {property : String} {arguments : List Tree}

/-- What is accessed or called is read with rounds to go. -/
theorem Reread.begun (h : Reread t) (hdepth : nesting 1 postfixLevel t ≤ depth) :
    Begun depth postfixLevel (tokens postfixLevel t) t :=
  (h (Nat.le_refl _) hdepth).begun (Nat.le_refl _) (Or.inr rfl)

theorem reread_member (htarget : Expression target) (hproperty : Printer.isIdentifier property = true)
    (h : Reread target) : Reread (.mk (.member target property)) := by
  refine .of_begun (.member htarget hproperty) (Nat.le_refl _) fun depth hdepth => ?_
  refine (h.begun hdepth).next (fun after kind hkind => ?_) (fun s after id fuel _ hs hstands => ?_)
    (List.cons_ne_nil _ _)
  · cases hkind
    decide
  · change GoesOn (suffixes _ (fuel + 1) id) s after (suffixes _ fuel) _
    rw [suffixes]
    refine .eat hs fun s₁ hs₁ hext₁ => .bump hs₁ fun s₂ hs₂ hext₂ => ?_
    have hstands₂ := hstands.mono (hext₁.trans hext₂) hs₂.ordered
    refine .push hs₂ (List.forall_mem_singleton.mpr hstands₂.1) ?_
    rw [Node.map, hstands₂.2]

theorem reread_index (htarget : Expression target) (hposition : Expression position)
    (h : Reread target) (hreread : Reread position) : Reread (.mk (.index target position)) := by
  refine .of_begun (.index htarget hposition) (Nat.le_refl _) fun depth hdepth => ?_
  obtain ⟨hleft, hinner⟩ := Nat.max_le.mp hdepth
  refine (h.begun hleft).next (fun after kind hkind => ?_) (fun s after id fuel _ hs hstands => ?_)
    (List.cons_ne_nil _ _)
  · cases hkind
    decide
  · rw [List.cons_append, List.append_assoc] at hs
    change GoesOn (suffixes _ (fuel + 1) id) s after (suffixes _ fuel) _
    rw [suffixes]
    refine .pass hs (by decide) (.eat hs fun s₁ hs₁ hext₁ => ?_)
    refine .bind (hreread.whole (Nat.one_add_le_iff.mp hinner) (.of_binding rfl 0) hs₁)
      fun inner s₂ hs₂ hext₂ hinner₂ => .expect hs₂ fun s₃ hs₃ hext₃ => ?_
    have hstands₃ := hstands.mono ((hext₁.trans hext₂).trans hext₃) hs₃.ordered
    have hinner₃ := hinner₂.mono hext₃ hs₃.ordered
    refine .push hs₃ (List.forall_mem_cons.mpr
      ⟨hstands₃.1, List.forall_mem_singleton.mpr hinner₃.1⟩) ?_
    rw [Node.map, hstands₃.2, hinner₃.2]

theorem reread_call (hcallee : Expression callee) (harguments : ∀ t ∈ arguments, Expression t)
    (h : Reread callee) (hreread : ∀ t ∈ arguments, Reread t) :
    Reread (.mk (.call callee arguments)) := by
  refine .of_begun (.call hcallee harguments) (Nat.le_refl _) fun depth hdepth => ?_
  obtain ⟨hleft, hinner⟩ := Nat.max_le.mp hdepth
  refine (h.begun hleft).next (fun after kind hkind => ?_) (fun s after id fuel _ hs hstands => ?_)
    (List.cons_ne_nil _ _)
  · cases hkind
    decide
  · rw [List.cons_append, List.append_assoc] at hs
    change GoesOn (suffixes _ (fuel + 1) id) s after (suffixes _ fuel) _
    rw [suffixes]
    refine .pass hs (by decide) (.pass hs (by decide) (.eat hs fun s₁ hs₁ hext₁ => ?_))
    refine .bind (takes_trees (Or.inl rfl) harguments hreread hinner hs₁)
      fun inner s₂ hs₂ hext₂ hinner₂ => ?_
    have hstands₂ := hstands.mono (hext₁.trans hext₂) hs₂.ordered
    obtain ⟨htrees, hlt⟩ := Stands.list hinner₂
    refine .push hs₂ (List.forall_mem_cons.mpr ⟨hstands₂.1, hlt⟩) ?_
    rw [Node.map, hstands₂.2, htrees]

end Accesses

section Brackets

variable {elements : List Tree} {properties : List (String × Tree)} {name : String} {value : Tree}

theorem peek_cons (h : s.Ready (kind :: after)) : peek s = .ok kind s := h.kind_cons ▸ peek_eq s

theorem reread_array (helements : ∀ t ∈ elements, Expression t)
    (hreread : ∀ t ∈ elements, Reread t) : Reread (.mk (.array elements)) := by
  refine .of_begun (.array helements) (Nat.le_succ _) fun depth hdepth =>
    .of_primary fun s after hs => ?_
  rw [bareTokens, List.cons_append, List.append_assoc] at hs
  refine .step (peek_cons hs) rfl (.bump hs fun s₁ hs₁ _ => ?_)
  refine .bind (takes_trees (Or.inr rfl) helements hreread hdepth hs₁)
    fun inner s₂ hs₂ _ hinner => ?_
  obtain ⟨htrees, hlt⟩ := Stands.list hinner
  exact .over hs₂ hlt (congrArg Node.array htrees)

theorem keyToken_cases (name : String) : keyToken name = .ident name ∨ keyToken name = .str name :=
  ite_eq_or_eq _ _ _

/-- A property is read back. -/
theorem takes_property (h : Reread value) (hdepth : nesting 1 0 value < depth)
    (hstops : Stops 0 after)
    (hs : s.Ready (keyToken name :: .punct .colon :: (tokens 0 value ++ after))) :
    Takes (property (levels depth).expression) s after fun arena found =>
      found.1 = name ∧ arena.Stands found.2 value := by
  -- What follows the key is the same for a name and for a text.
  have hrest (isName : Bool) : Takes (do
      let _ ← bump
      if ← eat .colon then return (name, ← (levels depth).expression)
      else if isName && !isKeyword name then return (name, ← Parser.push (.ident name))
      else unexpected "`:`") s after fun arena found =>
        found.1 = name ∧ arena.Stands found.2 value := by
    refine .bump hs fun s₁ hs₁ _ => .eat hs₁ fun s₂ hs₂ _ => ?_
    exact .bind (h.whole hdepth hstops hs₂) fun id s₃ hs₃ _ hstands => .pure hs₃ ⟨rfl, hstands⟩
  refine .step (peek_cons hs) rfl ?_
  rcases keyToken_cases name with hkey | hkey <;> rw [hkey]
  · exact hrest true
  · exact hrest false

/-- The tokens of a property. -/
def propertyTokens (property : String × Tree) : List TokenKind :=
  keyToken property.1 :: .punct .colon :: tokens 0 property.2

theorem entryTokens_eq (properties : List (String × Tree)) :
    entryTokens properties = joined propertyTokens properties := by
  induction properties with
  | nil => rfl
  | cons property properties ih =>
      rw [entryTokens, joined, ih, tokens_arrowLevel]
      rfl

/-- Properties that stand for trees one by one. -/
theorem Stands.fields {arena : Arena} {fields : List (String × Id)}
    (h : List.Forall₂ (fun field property => field.1 = property.1 ∧
      arena.Stands field.2 property.2) fields properties) :
    (fields.map fun field => (field.1, arena.tree field.2)) = properties ∧
      ∀ id ∈ fields.map (·.2), id < arena.size := by
  induction h with
  | nil => exact ⟨rfl, fun _ h => absurd h List.not_mem_nil⟩
  | cons hfield h ih =>
      rw [List.map_cons, ih.1, hfield.1, hfield.2.2]
      exact ⟨rfl, List.forall_mem_cons.mpr ⟨hfield.2.1, ih.2⟩⟩

/-- Properties are read back. -/
theorem takes_properties (hreread : ∀ property ∈ properties, Reread property.2)
    (hdepth : entriesNesting 1 properties ≤ depth)
    (hs : s.Ready (entryTokens properties ++ .punct .rightBrace :: after)) :
    Takes (items .rightBrace "`\x7d`" (property (levels depth).expression)) s after
      fun arena found => List.Forall₂
        (fun field property => field.1 = property.1 ∧ arena.Stands field.2 property.2)
        found properties := by
  rw [entryTokens_eq] at hs
  refine takes_items (by decide) _ (fun _ x y a hext hy h => ⟨h.1, h.2.mono hext hy⟩)
    (fun property hproperty => ⟨⟨_, _, rfl, ?_⟩, fun s after mark hmark h => ?_⟩) hs
  · rcases keyToken_cases property.1 with hkey | hkey <;> rw [hkey] <;> exact TokenKind.noConfusion
  · refine takes_property (hreread property hproperty)
      (Printer.nesting_lt_of_entries hdepth property hproperty) (.of_binding ?_ 0) h
    rcases hmark with rfl | rfl <;> rfl

theorem reread_object (hproperties : ∀ property ∈ properties, Expression property.2)
    (hreread : ∀ property ∈ properties, Reread property.2) :
    Reread (.mk (.object properties)) := by
  refine .of_begun (.object hproperties) (Nat.le_succ _) fun depth hdepth =>
    .of_primary fun s after hs => ?_
  rw [bareTokens, List.cons_append, List.append_assoc] at hs
  refine .step (peek_cons hs) rfl (.bump hs fun s₁ hs₁ _ => ?_)
  refine .bind (takes_properties hreread hdepth hs₁) fun inner s₂ hs₂ _ hinner => ?_
  obtain ⟨htrees, hlt⟩ := Stands.fields hinner
  exact .over hs₂ hlt (congrArg Node.object htrees)

end Brackets

section Operators

open Printer (conditionalLevel)

variable {argument left right test consequent alternate : Tree} {op : BinaryOp}

/-- Only what comes after an expression can make it begin an arrow function. -/
theorem arrowless (hnode : Expression (.mk node)) (hprec : precedence node ≠ arrowLevel) :
    Arrowless (bareTokens node) := fun _ => startsArrow_bareTokens hnode hprec

theorem reread_not (hargument : Expression argument) (h : Reread argument) :
    Reread (.mk (.not argument)) := by
  refine .of_bare (.not hargument) fun depth hdepth => ?_
  refine .of_unary (fun s after hstops hs => ?_) (arrowless (.not hargument) (by decide : notLevel ≠ arrowLevel))
  have hpos : 0 < depth := Nat.lt_of_lt_of_le (Nat.lt_add_right _ Nat.one_pos) hdepth
  obtain ⟨depth, rfl⟩ := Nat.exists_eq_succ_of_ne_zero (Nat.ne_of_gt hpos)
  rw [bareNesting, Nat.add_comm] at hdepth
  rw [bareTokens, List.cons_append] at hs
  refine .eat hs fun s₁ hs₁ _ => ?_
  refine .bind ((h (Nat.le_succ _) (Nat.le_of_succ_le_succ hdepth)).held (Nat.le_refl _) hstops hs₁)
    fun id s₂ hs₂ _ hstands => .over hs₂ (List.forall_mem_singleton.mpr hstands.1) ?_
  rw [Node.map, hstands.2]

theorem reread_binary (hleft : Expression left) (hright : Expression right) (h : Reread left)
    (hreread : Reread right) : Reread (.mk (.binary op left right)) := by
  have hlow : 3 ≤ op.precedence := by cases op <;> decide
  have hhigh : op.precedence ≤ 6 := by cases op <;> decide
  refine .of_bare (.binary hleft hright) fun depth hdepth => ?_
  obtain ⟨hdepthleft, hdepthright⟩ := Nat.max_le.mp hdepth
  have harrow : op.precedence ≠ arrowLevel := Nat.ne_of_gt (Nat.lt_of_lt_of_le (by decide) hlow)
  change Fits depth (min op.precedence postfixLevel) _ _
  rw [Nat.min_eq_left (Nat.le_trans hhigh (by decide))]
  refine .of_chain hlow hhigh ?_ (arrowless (.binary hleft hright) harrow)
  refine ((h (Nat.le_trans hhigh (by decide)) hdepthleft).begun (Nat.le_refl _)
    (Or.inl ⟨hlow, hhigh⟩)).next (fun after kind hkind => ?_)
    (fun s after id fuel hstops hs hstands => ?_) (List.cons_ne_nil _ _)
  · cases hkind
    rw [Printer.binding_punct]
    omega
  · rw [List.cons_append] at hs
    change GoesOn (rounds depth op.precedence (fuel + 1) id) s after (rounds depth op.precedence fuel) _
    rw [rounds_chain hhigh, chainRest]
    refine .step (peek_cons hs) rfl ?_
    rw [opAt?_punct]
    refine .bump hs fun s₁ hs₁ hext₁ => ?_
    refine .bind ((hreread (Nat.succ_le_succ (Nat.le_trans hhigh (by decide))) hdepthright).held
      (Nat.le_refl _) hstops hs₁) fun inner s₂ hs₂ hext₂ hinner => ?_
    have hstands₂ := hstands.mono (hext₁.trans hext₂) hs₂.ordered
    refine .push hs₂ (List.forall_mem_cons.mpr
      ⟨hstands₂.1, List.forall_mem_singleton.mpr hinner.1⟩) ?_
    rw [Node.map, hstands₂.2, hinner.2]

theorem reread_conditional (htest : Expression test) (hconsequent : Expression consequent)
    (halternate : Expression alternate) (h : Reread test) (hreread : Reread consequent)
    (hreread' : Reread alternate) : Reread (.mk (.conditional test consequent alternate)) := by
  have hnode := Expression.conditional htest hconsequent halternate
  refine .of_bare hnode fun depth hdepth => .of_whole (by decide : conditionalLevel < 3)
    fun place hplace s after hstops hs => ?_
  obtain ⟨hfirst, hrest⟩ := Nat.max_le.mp hdepth
  obtain ⟨hsecond, hthird⟩ := Nat.max_le.mp hrest
  have hstarts := (arrowless hnode (by decide : conditionalLevel ≠ arrowLevel)).startsArrow hs hstops
    (Nat.le_trans (Nat.le_of_lt hplace) (by decide))
  rw [bareTokens, List.append_assoc, List.cons_append, List.append_assoc, List.cons_append,
    tokens_arrowLevel, tokens_arrowLevel] at hs
  rw [reader_whole hplace]
  change Takes (get >>= fun s => if startsArrow s.rest then _ else _) s after _
  refine .step (rfl : (get : Parse State) s = .ok s s) rfl ?_
  rw [hstarts, if_neg Bool.false_ne_true]
  have htakes := (h (by decide : 3 ≤ postfixLevel) hfirst).held (Nat.le_refl _) ?_ hs
  refine .bind htakes fun id s₁ hs₁ _ hstands => ?_
  refine .eat hs₁ fun s₂ hs₂ harena₂ => ?_
  rw [if_pos rfl]
  refine .bind (hreread.whole (Nat.one_add_le_iff.mp hsecond) (.of_binding rfl 0) hs₂)
    fun id' s₃ hs₃ hext₃ hstands' => .expect hs₃ fun s₄ hs₄ harena₄ => ?_
  refine .bind (hreread'.whole (Nat.one_add_le_iff.mp hthird) (Stops.whole hstops hplace) hs₄)
    fun id'' s₅ hs₅ hext₅ hstands'' => ?_
  have hext : Extends s₃.arena s₅.arena := harena₄ ▸ hext₅
  have hall := (harena₂ ▸ hstands).mono (hext₃.trans hext) hs₅.ordered
  have hall' := hstands'.mono hext hs₅.ordered
  refine .over hs₅ (List.forall_mem_cons.mpr ⟨hall.1, List.forall_mem_cons.mpr
    ⟨hall'.1, List.forall_mem_singleton.mpr hstands''.1⟩⟩) ?_
  rw [Node.map, hall.2, hall'.2, hstands''.2]
  · intro kind hkind
    cases hkind
    decide

end Operators

section Arrows

variable {names : List String} {body : Tree}

/-- In parentheses an expression is read back with a level more. -/
theorem Reread.parens (hexpression : Expression t) (h : Reread t) (hdepth : nesting 1 0 t ≤ depth) :
    Fits (depth + 1) postfixLevel (.punct .leftParen :: (tokens 0 t ++ [.punct .rightParen])) t := by
  refine .parens ((h (Nat.zero_le _) hdepth).held (Nat.le_refl _)) fun rest hstarts => ?_
  rw [List.cons_append, List.append_assoc] at hstarts
  exact closesArrow_rightParen (closesArrow_tokens hexpression hstarts)

/-- The tokens of the body of an arrow function. -/
def bodyTokens (body : Tree) : List TokenKind :=
  if Printer.isObject body then .punct .leftParen :: (tokens 0 body ++ [.punct .rightParen])
  else tokens arrowLevel body

/-- The body of an arrow function is not taken for a block. -/
theorem bodyTokens_begin (hbody : Expression body)
    (hplain : (Printer.isObject body || !Printer.opensBrace arrowLevel body) = true) :
    ∃ kind rest, bodyTokens body = kind :: rest ∧ kind ≠ .punct .leftBrace := by
  unfold bodyTokens
  split
  · exact ⟨_, _, rfl, by decide⟩
  · next hobject =>
      obtain ⟨kind, rest, htokens, -⟩ := tokens_begin hbody arrowLevel
      refine ⟨kind, rest, htokens, ?_⟩
      rintro rfl
      rw [Bool.eq_false_of_not_eq_true hobject, Printer.opensBrace_of_tokens hbody htokens] at hplain
      cases hplain

/-- The body of an arrow function is read back. -/
theorem takes_arrowBody (hbody : Expression body) (h : Reread body)
    (hdepth : (if Printer.isObject body then 2 else 1) + nesting 1 0 body ≤ depth)
    (hstops : Stops 0 after) (hs : s.Ready (bodyTokens body ++ after)) :
    Takes (levels depth).expression s after fun arena id => arena.Stands id body := by
  unfold bodyTokens at hs
  split at hs
  · next hobject =>
      rw [if_pos hobject] at hdepth
      obtain ⟨depth, rfl⟩ := Nat.exists_eq_add_of_le' (Nat.le_trans (Nat.le_add_right 2 _) hdepth)
      exact ((h.parens hbody (by omega)).held (Nat.zero_le _)) hstops hs
  · next hobject =>
      rw [if_neg hobject] at hdepth
      rw [tokens_arrowLevel] at hs
      exact h.whole (Nat.one_add_le_iff.mp hdepth) hstops hs

theorem reread_arrow (hparams : ∀ name ∈ names, Name name) (hbody : Expression body)
    (hplain : (Printer.isObject body || !Printer.opensBrace arrowLevel body) = true)
    (h : Reread body) : Reread (.mk (.arrow names body)) := by
  refine .of_bare (.arrow hparams hbody) fun depth hdepth => .of_whole (by decide : arrowLevel < 3)
    fun place hplace s after hstops hs => ?_
  have hsplit : bareTokens (.arrow names body) ++ after = .punct .leftParen ::
      (paramTokens names ++ .punct .rightParen :: .punct .arrow :: (bodyTokens body ++ after)) := by
    rw [bareTokens, List.cons_append, List.append_assoc]
    rfl
  rw [hsplit] at hs
  have hstarts : startsArrow s.rest = true := by
    rw [startsArrow_kinds, hs.ahead, List.cons_append, List.append_assoc]
    exact closesArrow_params names
  rw [reader_whole hplace]
  change Takes (get >>= fun s => if startsArrow s.rest then _ else _) s after _
  refine .step (rfl : (get : Parse State) s = .ok s s) rfl ?_
  rw [hstarts, if_pos rfl]
  refine .eat hs fun s₁ hs₁ _ => ?_
  rw [if_pos rfl]
  refine .bind (takes_params hparams hs₁) fun found s₂ hs₂ _ hfound => ?_
  refine .expect hs₂ fun s₃ hs₃ _ => ?_
  obtain ⟨kind, rest, htokens, hkind⟩ := bodyTokens_begin hbody hplain
  have hbrace : s₃.kind ≠ .punct .leftBrace := by
    rw [htokens] at hs₃
    exact hs₃.kind_cons ▸ hkind
  refine .step (at?_eq .leftBrace s₃) rfl ?_
  rw [decide_eq_false hbrace, if_neg Bool.false_ne_true]
  refine .bind (takes_arrowBody hbody h hdepth (Stops.whole hstops hplace) hs₃)
    fun id s₄ hs₄ _ hstands => .over hs₄ (List.forall_mem_singleton.mpr hstands.1) ?_
  rw [Node.map, hstands.2, hfound]

end Arrows

/-- Expressions are read back. -/
theorem reread (h : Expression t) (hplain : t.Plain) : Reread t := by
  induction h with
  | str text => exact reread_str text
  | num hbits => exact reread_num hbits hplain.here
  | bool value => exact reread_bool value
  | null => exact reread_null
  | ident hname => exact reread_ident hname
  | member htarget hproperty ih =>
      exact reread_member htarget hproperty (ih (hplain.part List.mem_cons_self))
  | index htarget hposition ihtarget ihposition =>
      exact reread_index htarget hposition (ihtarget (hplain.part List.mem_cons_self))
        (ihposition (hplain.part (List.mem_cons_of_mem _ List.mem_cons_self)))
  | call hcallee harguments ihcallee iharguments =>
      exact reread_call hcallee harguments (ihcallee (hplain.part List.mem_cons_self))
        fun t ht => iharguments t ht (hplain.part (List.mem_cons_of_mem _ ht))
  | array helements ih =>
      exact reread_array helements fun t ht => ih t ht (hplain.part ht)
  | object hproperties ih =>
      exact reread_object hproperties fun property hproperty =>
        ih property hproperty (hplain.part (List.mem_map_of_mem hproperty))
  | not hargument ih => exact reread_not hargument (ih (hplain.part List.mem_cons_self))
  | binary hleft hright ihleft ihright =>
      exact reread_binary hleft hright (ihleft (hplain.part List.mem_cons_self))
        (ihright (hplain.part (List.mem_cons_of_mem _ List.mem_cons_self)))
  | conditional htest hconsequent halternate ihtest ihconsequent ihalternate =>
      exact reread_conditional htest hconsequent halternate
        (ihtest (hplain.part List.mem_cons_self))
        (ihconsequent (hplain.part (List.mem_cons_of_mem _ List.mem_cons_self)))
        (ihalternate (hplain.part
          (List.mem_cons_of_mem _ (List.mem_cons_of_mem _ List.mem_cons_self))))
  | arrow hparams hbody ih =>
      exact reread_arrow hparams hbody hplain.here (ih (hplain.part List.mem_cons_self))

end Parser

end Script

end RenderFold
