import RenderFold.Folding.Program
import RenderFold.Proofs.Script.Zones

/-!
# Where Levels Are Folded

Folding the level of a node edits the arena in any zone that holds the
expression of the node and those of its children, and numbering calls edits
it in any zone that holds the calls.

## Theorems

* `Program.foldLevel_editedIn`: Folding a level.
* `Program.placeAll_editedIn`: Numbering calls.
-/

namespace RenderFold

namespace Program

open Script (Arena Id)
open Script.Arena (Closed EditedIn added)

variable {arena : Arena} {program : Program} {zone : Set Id} {slot : Id} {slots : List Id}

/-- The children among runs. -/
def runSlots (runs : List Run) : List Id :=
  runs.filterMap fun
    | .child slot => some slot
    | .literal _ => none

theorem runSlots_prependLiteral (text : String) (runs : List Run) :
    runSlots (Run.prependLiteral text runs) = runSlots runs := by
  cases runs with
  | nil => rfl
  | cons run rest => cases run <;> rfl

/-- The children among runs are those that are not static. -/
theorem runSlots_runs_eq (findings : Findings) (slots : List Id) :
    runSlots (findings.runs slots) =
      slots.filter fun slot => (findings.literal? slot).isNone := by
  induction slots with
  | nil => rfl
  | cons slot slots ih =>
      rw [List.filter_cons]
      cases htext : findings.literal? slot with
      | some text =>
          rw [Findings.runs_cons_of_some htext, runSlots_prependLiteral, ih]
          rfl
      | none =>
          rw [Findings.runs_cons_of_none htext, ← ih]
          rfl

/-- The runs of some children hold no other children. -/
theorem runSlots_runs (findings : Findings) (slots : List Id) :
    ∀ x ∈ runSlots (findings.runs slots), x ∈ slots := by
  rw [runSlots_runs_eq]
  exact fun x hx => List.mem_of_mem_filter hx

theorem pushLiteral_editedIn (hclosed : Closed arena zone) (text : String) :
    EditedIn zone arena (arena.pushLiteral text).2 ∧
      (arena.pushLiteral text).1 ∈ zone ∪ added arena (arena.pushLiteral text).2 := by
  set a₁ := (arena.push (.str text)).2 with ha₁
  set a₂ := (a₁.push (.ident Helper.markup.name)).2 with ha₂
  have h₁ : EditedIn zone arena a₁ := Script.Arena.pushLeaf_editedIn hclosed rfl
  have h₂ : EditedIn zone arena a₂ := h₁.trans (Script.Arena.pushLeaf_editedIn h₁.closed rfl)
  have hargument : (arena.push (.str text)).1 ∈ zone ∪ added arena a₂ :=
    EditedIn.mem_later (EditedIn.push_mem zone arena _) (Script.Arena.Extends.push _ _).1
  have hcallee : (a₁.push (.ident Helper.markup.name)).1 ∈ zone ∪ added arena a₂ :=
    EditedIn.mem_earlier (EditedIn.push_mem zone a₁ _) h₁.size_le
  refine ⟨h₂.trans (.push h₂.closed fun x hx => ?_), ?_⟩
  · simp only [Script.Node.children, List.mem_cons, List.not_mem_nil, or_false] at hx
    rcases hx with rfl | rfl
    · exact hcallee
    · exact hargument
  · exact EditedIn.mem_earlier (EditedIn.push_mem zone a₂ _) h₂.size_le

theorem pushRuns_editedIn {runs : List Run} :
    ∀ {arena : Arena} {zone : Set Id}, Closed arena zone → (∀ x ∈ runSlots runs, x ∈ zone) →
      EditedIn zone arena (pushRuns arena runs).2 ∧
        ∀ x ∈ (pushRuns arena runs).1, x ∈ zone ∪ added arena (pushRuns arena runs).2 := by
  induction runs with
  | nil =>
      intro arena zone hclosed _
      exact ⟨.refl hclosed, fun x hx => absurd hx List.not_mem_nil⟩
  | cons run rest ih =>
      intro arena zone hclosed hslots
      cases run with
      | child slot =>
          have hrest : ∀ x ∈ runSlots rest, x ∈ zone := fun x hx =>
            hslots x (List.mem_cons_of_mem _ hx)
          obtain ⟨hedit, hmem⟩ := ih hclosed hrest
          refine ⟨hedit, fun x hx => ?_⟩
          rcases List.mem_cons.mp hx with rfl | hx
          · exact Or.inl (hslots x List.mem_cons_self)
          · exact hmem x hx
      | literal text =>
          have hrest : ∀ x ∈ runSlots rest, x ∈ zone := hslots
          simp only [pushRuns]
          split
          · exact ih hclosed hrest
          · obtain ⟨hliteral, hnew⟩ := pushLiteral_editedIn hclosed text
            -- The literal comes first, and the others are added to a zone that holds it.
            obtain ⟨hedit, hmem⟩ := ih hliteral.closed fun x hx => Or.inl (hrest x hx)
            refine ⟨hliteral.trans hedit, fun x hx => ?_⟩
            rcases List.mem_cons.mp hx with rfl | hx
            · exact EditedIn.mem_later hnew hedit.size_le
            · have hx := hmem x hx
              rw [Set.union_assoc, EditedIn.added_trans hliteral.size_le hedit.size_le] at hx
              exact hx

theorem setChildren_editedIn (hclosed : Closed arena zone) (hslot : slot ∈ zone) {runs : List Run}
    (hruns : ∀ x ∈ runSlots runs, x ∈ zone) :
    EditedIn zone arena (setChildren arena slot runs) := by
  unfold setChildren
  split
  · exact .refl hclosed
  · next array harray =>
      have hmem : array ∈ zone := Script.Arena.arguments_mem hclosed hslot array
        (Script.Arena.childArray?_mem_arguments harray)
      obtain ⟨hedit, helements⟩ := pushRuns_editedIn hclosed hruns
      exact hedit.trans (Script.Arena.setElements_editedIn hedit.closed (Or.inl hmem) helements)

/-- Putting a text between two literals uses the text. -/
theorem wrap_editedIn (hclosed : Closed arena zone) {argument : Id} (hargument : argument ∈ zone)
    (opening closing : String) :
    let a₁ := arena.push (.str opening)
    let a₂ := a₁.2.push (.str closing)
    let start := a₂.2.join a₁.1 argument
    let whole := start.2.join start.1 a₂.1
    EditedIn zone arena whole.2 ∧ whole.1 ∈ zone ∪ added arena whole.2 := by
  intro a₁ a₂ start whole
  have h₁ : EditedIn zone arena a₁.2 := Script.Arena.pushLeaf_editedIn hclosed rfl
  have h₂ : EditedIn zone arena a₂.2 := h₁.trans (Script.Arena.pushLeaf_editedIn h₁.closed rfl)
  have hopening : a₁.1 ∈ zone ∪ added arena a₂.2 :=
    EditedIn.mem_later (EditedIn.push_mem zone arena _) (Script.Arena.Extends.push _ _).1
  have hclosing : a₂.1 ∈ zone ∪ added arena a₂.2 :=
    EditedIn.mem_earlier (EditedIn.push_mem zone a₁.2 _) h₁.size_le
  -- The text stands between the two literals, joined from the left.
  obtain ⟨hstart, hmem⟩ := Script.Arena.join_editedIn h₂.closed hopening (Or.inl hargument)
  have hjoined := h₂.trans hstart
  rw [Set.union_assoc, EditedIn.added_trans h₂.size_le hstart.size_le] at hmem
  obtain ⟨hwhole, hmem'⟩ := Script.Arena.join_editedIn hjoined.closed hmem
    (EditedIn.mem_later hclosing hstart.size_le)
  rw [Set.union_assoc, EditedIn.added_trans hjoined.size_le hwhole.size_le] at hmem'
  exact ⟨hjoined.trans hwhole, hmem'⟩

/-- Taking a text into the markup around it uses the expression and the
    text. -/
theorem enclose_text_editedIn (hclosed : Closed arena zone) (hslot : slot ∈ zone) {argument : Id}
    (hargument : argument ∈ zone) (opening closing : String) :
    EditedIn zone arena
      (let (opening, arena) := arena.push (.str opening)
       let (closing, arena) := arena.push (.str closing)
       let (start, arena) := arena.join opening argument
       let (whole, arena) := arena.join start closing
       arena.becomeText slot whole) := by
  obtain ⟨hwhole, hmem⟩ := wrap_editedIn hclosed hargument opening closing
  exact hwhole.trans (Script.Arena.becomeText_editedIn hwhole.closed (Or.inl hslot) hmem)

theorem enclose_editedIn (hclosed : Closed arena zone) (hslot : slot ∈ zone) {children : List Id}
    (hchildren : ∀ x ∈ children, x ∈ zone) (opening closing : String) :
    EditedIn zone arena (enclose arena slot opening closing children) := by
  have hfragment : EditedIn zone arena (arena.becomeFragment slot opening closing children) :=
    Script.Arena.becomeFragment_editedIn hclosed hslot hchildren opening closing
  unfold enclose
  rcases children with _ | ⟨only, _ | _⟩
  · exact hfragment
  · dsimp only
    cases htext : arena.textArgument? only with
    | none => exact hfragment
    | some argument =>
        have hargument : argument ∈ zone :=
          Script.Arena.arguments_mem hclosed (hchildren only List.mem_cons_self) argument
            (Script.Arena.textArgument?_mem_arguments htext)
        exact enclose_text_editedIn hclosed hslot hargument opening closing
  · exact hfragment

/-- Folding the level of a node edits the arena where the node and its
    children are. -/
theorem foldLevel_editedIn (hclosed : Closed program.arena zone) (hslot : slot ∈ zone)
    (hslots : ∀ x ∈ slots, x ∈ zone) (closing : String) :
    EditedIn zone program.arena (program.foldLevel slot closing slots).arena := by
  have hruns : ∀ x ∈ runSlots (program.findings.runs slots), x ∈ zone := fun x hx =>
    hslots x (runSlots_runs _ _ x hx)
  have hnone {text : String} : ∀ x ∈ runSlots [.literal text], x ∈ zone := by
    simp only [runSlots, List.filterMap_cons, List.filterMap_nil]
    exact fun x hx => absurd hx List.not_mem_nil
  unfold foldLevel
  split
  · exact .refl hclosed
  · dsimp only
    split
    · exact Script.Arena.becomeLiteral_editedIn hclosed hslot _
    · split
      · exact .refl hclosed
      · split
        -- Only the children change where no text opens the node. Otherwise the whole
        -- expression is rewritten, around what is left of the children.
        · dsimp only
          exact setChildren_editedIn hclosed hslot hnone
        · exact setChildren_editedIn hclosed hslot hruns
        · obtain ⟨hedit, hchildren⟩ := pushRuns_editedIn hclosed hruns
          exact hedit.trans (enclose_editedIn hedit.closed (Or.inl hslot) hchildren _ _)

/-- The calls that survive are where the function is. -/
theorem survivors_mem {function : Id} (calls : List Id) (hclosed : Closed arena zone)
    (hfunction : function ∈ zone) : ∀ x ∈ survivors arena function calls, x ∈ zone := by
  intro x hx
  obtain ⟨-, hx⟩ := List.mem_filter.mp hx
  have hreachable := List.contains_iff_mem.mp (Bool.and_eq_true_iff.mp hx).1
  exact Script.Arena.reachable_mem hclosed hfunction x hreachable

theorem place_editedIn {call : Id} (hclosed : Closed arena zone) (hcall : call ∈ zone)
    (index : Nat) : EditedIn zone arena (place arena call index) := by
  have hpush : EditedIn zone arena (arena.push (.num (Float.ofNat index).toBits)).2 :=
    Script.Arena.pushLeaf_editedIn hclosed rfl
  exact hpush.trans (Script.Arena.setProperty_editedIn hpush.closed (Or.inl hcall)
    (EditedIn.push_mem zone arena _) _)

/-- Numbering calls edits the arena where the calls are. -/
theorem placeAll_editedIn {survivors : List Id} (calls : List Id) (keepPlaces : Bool) :
    ∀ {arena : Arena} {zone : Set Id} (index : Nat), Closed arena zone →
      (∀ x ∈ survivors, x ∈ zone) →
      EditedIn zone arena (placeAll survivors keepPlaces arena index calls) := by
  induction calls with
  | nil => exact fun index hclosed _ => .refl hclosed
  | cons call rest ih =>
      intro arena zone index hclosed hsurvivors
      simp only [placeAll]
      split
      -- The number is a new node, which is with the zone for the calls after it.
      · next hcall =>
          have hplace := place_editedIn hclosed
            (hsurvivors call (List.contains_iff_mem.mp hcall)) index
          exact hplace.trans (ih _ hplace.closed fun x hx => Or.inl (hsurvivors x hx))
      · exact ih _ hclosed hsurvivors

end Program

end RenderFold
