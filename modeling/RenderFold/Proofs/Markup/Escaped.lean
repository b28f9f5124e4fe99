import RenderFold.Proofs.Markup.Entities
import RenderFold.Proofs.Script.Bytes
import RenderFold.View.Basic

/-!
# Escaped Text

Replacing characters one by one is not how markup gets written. Escaping goes
through the bytes of a text and copies what stands between two special
characters as a whole, in slices that begin and end where the offsets say, and
a text without special characters is not copied at all. Here it is written down
once more in this way, and there is no result if a slice would begin or end
inside a character. That never happens, since a special character is a single
byte and no other character has such a byte in it.

The loop has copied the text up to some offset, and what stands between there
and the byte that it has come to is free of special characters.

## Main definitions

* `Bytewise.slice?`, `Bytewise.escape?`: Escaping a text by its bytes.

## Theorems

* `Bytewise.foldlM_copy`: What the loop has copied.
* `Bytewise.escape?_eq`: Both ways to escape come to the same.
* `escape_lossless`: All that is true of escaped text.
-/

namespace RenderFold

namespace Markup

open Script.Lexer (bytes)

variable {c : Char} {text : List Char}

namespace Bytewise

open Script.Bytewise (asChar get?)
open Script.Lexer (bytes_append)

/-- The entity that is written for a byte. -/
def entity? (b : UInt8) : Option (List UInt8) :=
  (Markup.entity? (asChar b)).map fun entity => bytes entity.toList

/-- The bytes from one offset to another, if a text may be cut at both. -/
def slice? (text : List UInt8) (start stop : Nat) : Option (List UInt8) :=
  if start ≤ stop then get? (stop - start) (text.drop start) else none

/-- What comes of escaping a text: the text itself, or one that was put
    together from slices of it. -/
inductive Written where
  | kept (text : List UInt8)
  | copied (text : List UInt8)

/-- The markup in either case. -/
def Written.markup : Written → List UInt8
  | kept text => text
  | copied text => text

theorem Written.markup_copied (text : List UInt8) : (copied text).markup = text := rfl

/-- Look at one byte. If it is special, what stands between the last special
    byte and this one is copied, and the entity is put after it. The state is
    what was copied, and the offset up to which it was copied. -/
def copy (text : List UInt8) (state : List UInt8 × Nat) (entry : UInt8 × Nat) :
    Option (List UInt8 × Nat) :=
  match entity? entry.1 with
  | none => some state
  | some entity => do
    let piece ← slice? text state.2 entry.2
    return (state.1 ++ piece ++ entity, entry.2 + 1)

/-- Escape a text by its bytes. Copying begins at the first special byte, if
    there is one. -/
def escape? (text : String) : Option Written :=
  let text := text.toByteArray.data.toList
  match text.findIdx? fun b => (entity? b).isSome with
  | none => some (.kept text)
  | some first => do
    let start ← slice? text 0 first
    let (out, last) ← (text.zipIdx.drop first).foldlM (copy text) (start, first)
    let rest ← slice? text last text.length
    return .copied (out ++ rest)

/-- A slice between two characters. -/
theorem slice?_bytes (front piece rest : List Char) :
    slice? (bytes (front ++ (piece ++ rest))) (bytes front).length
      (bytes (front ++ piece)).length = some (bytes piece) := by
  have hlength : (bytes (front ++ piece)).length = (bytes front).length + (bytes piece).length := by
    rw [Script.Lexer.bytes_append, List.length_append]
  rw [slice?, hlength, if_pos (Nat.le_add_right _ _), Nat.add_sub_cancel_left,
    Script.Lexer.drop_bytes, Script.Lexer.get?_bytes]

theorem utf8Size_of_entity? {entity : String} (h : Markup.entity? c = some entity) :
    c.utf8Size = 1 := by
  unfold Markup.entity? at h
  split at h <;> first | rfl | cases h

/-- A special character is a byte that is special. -/
theorem entity?_of_some {entity : String} (h : Markup.entity? c = some entity) :
    entity? c.val.toUInt8 = some (bytes entity.toList) := by
  rw [entity?, Script.Lexer.asChar_single (utf8Size_of_entity? h), h]
  rfl

/-- No other character has a byte that is special. -/
theorem entity?_of_none (h : ∀ c ∈ text, Markup.entity? c = none) :
    ∀ b ∈ bytes text, entity? b = none := by
  intro b hb
  obtain ⟨c, hc, hb⟩ := List.mem_flatMap.mp hb
  have hsame := Script.Lexer.asChar_congr (p := fun c => (Markup.entity? c).isSome)
    (fun c hsome => utf8Size_of_entity? (Option.eq_some_of_isSome hsome)) hb
  rw [h c hc, Option.isSome_none] at hsame
  rw [entity?, Option.map_eq_none_iff]
  exact Option.not_isSome_iff_eq_none.mp (Bool.eq_false_iff.mp hsame)

/-- Nothing is copied at bytes that are not special. -/
theorem foldlM_copy_plain {plain : List UInt8} (h : ∀ b ∈ plain, entity? b = none)
    (text : List UInt8) (state : List UInt8 × Nat) (offset : Nat) :
    (plain.zipIdx offset).foldlM (copy text) state = some state := by
  induction plain generalizing offset with
  | nil => rfl
  | cons b plain ih =>
      obtain ⟨hb, hplain⟩ := List.forall_mem_cons.mp h
      have hstep : copy text state (b, offset) = some state := by
        rw [copy, hb]
      rw [List.zipIdx_cons, List.foldlM_cons, hstep]
      exact ih hplain (offset + 1)

theorem length_pending (front pending : List Char) (c : Char) :
    (bytes (front ++ (pending ++ [c]))).length =
      (bytes (front ++ pending)).length + (bytes [c]).length := by
  rw [← List.append_assoc, bytes_append _ [c], List.length_append]

theorem bytes_special {entity : String} (h : Markup.entity? c = some entity) :
    bytes [c] = [c.val.toUInt8] :=
  Script.Lexer.bytes_single (utf8Size_of_entity? h) []

/-- At a special byte, what is pending is copied, and the entity after it. -/
theorem copy_special {whole front pending rest : List Char} {entity : String}
    (hwhole : whole = front ++ (pending ++ c :: rest))
    (hpending : ∀ c ∈ pending, Markup.entity? c = none)
    (hentity : Markup.entity? c = some entity) :
    copy (bytes whole) (bytes (front.flatMap escapeChar), (bytes front).length)
        (c.val.toUInt8, (bytes (front ++ pending)).length) =
      some (bytes ((front ++ (pending ++ [c])).flatMap escapeChar),
        (bytes (front ++ (pending ++ [c]))).length) := by
  have hmarkup : bytes ((front ++ (pending ++ [c])).flatMap escapeChar) =
      bytes (front.flatMap escapeChar) ++ bytes pending ++ bytes entity.toList := by
    rw [List.flatMap_append, List.flatMap_append, flatMap_escapeChar_of_none hpending,
      List.flatMap_singleton, escapeChar_of_some hentity, bytes_append, bytes_append,
      List.append_assoc]
  rw [copy, entity?_of_some hentity, hwhole]
  dsimp only
  rw [slice?_bytes, hmarkup, length_pending, bytes_special hentity]
  rfl

/-- The text in `front` was copied, and there is nothing special in `pending`.
    In the end the text is cut up in the same way. -/
theorem foldlM_copy {whole : List Char} (front pending rest : List Char)
    (hwhole : whole = front ++ (pending ++ rest))
    (hpending : ∀ c ∈ pending, Markup.entity? c = none) :
    ∃ front' pending', whole = front' ++ pending' ∧
      (∀ c ∈ pending', Markup.entity? c = none) ∧
      ((bytes rest).zipIdx (bytes (front ++ pending)).length).foldlM (copy (bytes whole))
          (bytes (front.flatMap escapeChar), (bytes front).length) =
        some (bytes (front'.flatMap escapeChar), (bytes front').length) := by
  -- By induction on the text that is left; a special character ends what is pending.
  induction rest generalizing front pending with
  | nil => exact ⟨front, pending, by rw [hwhole, List.append_nil], hpending, rfl⟩
  | cons c rest ih =>
      have hbytes : bytes (c :: rest) = bytes [c] ++ bytes rest := bytes_append [c] rest
      cases hentity : Markup.entity? c with
      | none =>
          have hplain : ∀ d ∈ [c], Markup.entity? d = none :=
            List.forall_mem_singleton.mpr hentity
          obtain ⟨front', pending', hcut, hpending', hloop⟩ := ih front (pending ++ [c])
            (by rw [hwhole, List.append_assoc, List.singleton_append])
            (List.forall_mem_append.mpr ⟨hpending, hplain⟩)
          refine ⟨front', pending', hcut, hpending', ?_⟩
          rw [hbytes, List.zipIdx_append, List.foldlM_append,
            foldlM_copy_plain (entity?_of_none hplain), ← length_pending]
          exact hloop
      | some entity =>
          obtain ⟨front', pending', hcut, hpending', hloop⟩ := ih (front ++ (pending ++ [c])) []
            (by rw [hwhole, List.append_assoc, List.append_assoc, List.singleton_append,
              List.nil_append])
            (List.forall_mem_nil _)
          refine ⟨front', pending', hcut, hpending', ?_⟩
          rw [List.append_nil, length_pending, bytes_special hentity] at hloop
          rw [hbytes, bytes_special hentity, List.singleton_append, List.zipIdx_cons,
            List.foldlM_cons, copy_special hwhole hpending hentity, length_pending,
            bytes_special hentity]
          exact hloop

theorem escape?_of_none {text : String} (h : ∀ c ∈ text.toList, Markup.entity? c = none) :
    escape? text = some (.kept (bytes text.toList)) := by
  have hfirst : (bytes text.toList).findIdx? (fun b => (entity? b).isSome) = none := by
    refine List.findIdx?_eq_none_iff.mpr fun b hb => ?_
    rw [entity?_of_none h b hb]
    rfl
  unfold escape?
  dsimp only
  rw [Script.Lexer.bytes_toList, hfirst]

theorem escape?_of_some {text : String} {front rest : List Char} {entity : String}
    (htext : text.toList = front ++ c :: rest) (hfront : ∀ c ∈ front, Markup.entity? c = none)
    (hentity : Markup.entity? c = some entity) :
    escape? text = some (.copied (bytes (text.toList.flatMap escapeChar))) := by
  have hbytes : bytes (front ++ c :: rest) = bytes front ++ bytes (c :: rest) := bytes_append _ _
  have hfirst : (bytes text.toList).findIdx? (fun b => (entity? b).isSome) =
      some (bytes front).length := by
    have hnone : (bytes front).findIdx? (fun b => (entity? b).isSome) = none := by
      refine List.findIdx?_eq_none_iff.mpr fun b hb => ?_
      rw [entity?_of_none hfront b hb]
      rfl
    rw [htext, hbytes, List.findIdx?_append, hnone, Option.none_or,
      Script.Lexer.bytes_single (utf8Size_of_entity? hentity), List.findIdx?_cons,
      entity?_of_some hentity]
    exact congrArg some (Nat.zero_add _)
  have hdrop : (bytes text.toList).zipIdx.drop (bytes front).length =
      (bytes (c :: rest)).zipIdx (bytes front).length := by
    rw [htext, hbytes, List.zipIdx_append, List.drop_left' List.length_zipIdx, Nat.zero_add]
  have hstart : slice? (bytes text.toList) 0 (bytes front).length = some (bytes front) := by
    rw [htext]
    exact slice?_bytes [] front (c :: rest)
  -- The loop begins with a text that needs no escaping, and with nothing pending.
  obtain ⟨front', pending', hcut, hpending', hloop⟩ :=
    foldlM_copy front [] (c :: rest) htext (List.forall_mem_nil _)
  have hrest : slice? (bytes text.toList) (bytes front').length (bytes text.toList).length =
      some (bytes pending') := by
    have hslice := slice?_bytes front' pending' []
    rwa [List.append_nil, ← hcut] at hslice
  rw [List.append_nil, flatMap_escapeChar_of_none hfront] at hloop
  have hmarkup : bytes (text.toList.flatMap escapeChar) =
      bytes (front'.flatMap escapeChar) ++ bytes pending' := by
    rw [hcut, List.flatMap_append, flatMap_escapeChar_of_none hpending', bytes_append]
  unfold escape?
  dsimp only
  rw [Script.Lexer.bytes_toList, hfirst]
  dsimp only
  rw [hstart, hdrop, hmarkup]
  simp only [Option.bind_eq_bind, Option.bind_some, hloop, hrest]
  rfl

/-- Escaping a text by its bytes never fails, and it comes to what escaping it
    by its characters does. -/
theorem escape?_eq (text : String) : escape? text =
    some (if needsEscape text then .copied (bytes (escape text).toList)
      else .kept (bytes text.toList)) := by
  have hmarkup : (escape text).toList = text.toList.flatMap escapeChar := String.toList_ofList
  rw [hmarkup]
  cases hfind : text.toList.find? fun c => (Markup.entity? c).isSome with
  | none =>
      have hnone : ∀ c ∈ text.toList, Markup.entity? c = none := fun c hc =>
        Option.not_isSome_iff_eq_none.mp (List.find?_eq_none.mp hfind c hc)
      have hneeds : needsEscape text = false :=
        List.any_eq_false.mpr fun c hc => Option.not_isSome_iff_eq_none.mpr (hnone c hc)
      rw [escape?_of_none hnone, hneeds]
      rfl
  | some c =>
      obtain ⟨hsome, front, rest, htext, hfront⟩ := List.find?_eq_some_iff_append.mp hfind
      obtain ⟨entity, hentity⟩ := Option.isSome_iff_exists.mp hsome
      have hnone : ∀ c ∈ front, Markup.entity? c = none := fun c hc => by
        simpa only [Bool.not_eq_true', Option.isSome_eq_false_iff, Option.isNone_iff_eq_none]
          using hfront c hc
      have hneeds : needsEscape text = true := by
        refine List.any_eq_true.mpr ⟨c, ?_, hsome⟩
        rw [htext]
        exact List.mem_append_right _ List.mem_cons_self
      rw [escape?_of_some htext hnone hentity, hneeds]
      rfl

end Bytewise

/-- What comes of escaping a text by its bytes. -/
theorem Bytewise.exists_written (text : String) : ∃ written, escape? text = some written ∧
    written.markup = bytes (escape text).toList ∧
    (written = .kept (bytes text.toList) ↔ needsEscape text = false) := by
  rw [escape?_eq]
  cases hneeds : needsEscape text with
  | true =>
      refine ⟨.copied _, rfl, Written.markup_copied _, fun h => ?_, fun h => ?_⟩ <;> cases h
  | false =>
      rw [escape_of_needsEscape hneeds]
      exact ⟨.kept _, rfl, rfl, fun _ => rfl, fun _ => rfl⟩

theorem textMarkup?_eq_iff (text other : String) :
    (View.text text false).textMarkup? = (View.text other false).textMarkup? ↔ text = other := by
  refine ⟨fun h => ?_, fun h => congrArg (View.textMarkup? <| View.text · false) h⟩
  rw [← unescape_escape text, ← unescape_escape other]
  exact congrArg unescape (Option.some.inj h)

/-- Escaping goes through the bytes of a text without ever cutting a character
    in two, and keeps the text if there is nothing special in it, and only
    then. What is written is the text with an entity in place of each special
    character. There is no special character in it except for an `&`, and that
    begins an entity. Texts side by side are escaped one by one, and reading
    the entities back gives the text, so texts of one markup are one text. -/
theorem escape_lossless (text : String) :
    (∃ written, Bytewise.escape? text = some written ∧
      written.markup = (escape text).toByteArray.data.toList ∧
      (written = .kept text.toByteArray.data.toList ↔ needsEscape text = false)) ∧
    (needsEscape text = false ↔ ∀ c ∈ specials, c ∉ text.toList) ∧
    (escape text).toList = text.toList.flatMap escapeChar ∧
    (∀ c ∈ specials, c ≠ '&' → c ∉ (escape text).toList) ∧
    (∀ before after, (escape text).toList = before ++ '&' :: after →
      ∃ c entity, entity? c = some entity ∧ entity.toList <+: '&' :: after) ∧
    (∀ later, escape (text ++ later) = escape text ++ escape later) ∧
    unescape (escape text) = text ∧
    ∀ other, (View.text text false).textMarkup? = (View.text other false).textMarkup? ↔
      text = other := by
  have hmarkup : (escape text).toList = text.toList.flatMap escapeChar := String.toList_ofList
  refine ⟨?_, needsEscape_eq_false_iff, hmarkup, ?_, ?_, escape_append text, unescape_escape text,
    textMarkup?_eq_iff text⟩
  · rw [Script.Lexer.bytes_toList, Script.Lexer.bytes_toList]
    exact Bytewise.exists_written text
  · rw [hmarkup]
    exact fun c hspecial hc => not_mem_flatMap_escapeChar hspecial hc text.toList
  · rw [hmarkup]
    exact fun before after h => entity_of_flatMap h

end Markup

end RenderFold
