import RenderFold.Proofs.Script.Quoted

/-!
# The Bytes of a Text

A source text is a sequence of bytes. Those of a character beyond ASCII stand
for nothing by themselves, so a byte that ends a run or begins a mark is a
character, and a text may be cut before any byte that does not go on with a
character.

## Main definitions

* `Bytewise.boundary`, `Bytewise.get?`: Where bytes may be cut.
* `Bytewise.startsWith`, `Bytewise.find?`: A mark among bytes.
* `Lexer.bytes`: The bytes of characters.

## Theorems

* `leads`, `Leads.bytes_cons`: The first byte of a text.
* `startsWith_bytes`, `span_bytes`, `find?_bytes`: Bytes that are looked at one
  by one.
* `boundary_bytes`, `get?_bytes`, `drop_bytes`: Bytes that are cut.
-/

namespace RenderFold

namespace Script

namespace Bytewise

/-- The character that a byte stands for by itself. -/
def asChar (b : UInt8) : Char := Char.ofNat b.toNat

/-- Whether a text may be cut before these bytes: at its end, and where no
    character goes on. -/
def boundary : List UInt8 → Bool
  | [] => true
  | b :: _ => b < 0x80 || 0xC0 ≤ b

/-- The first `n` bytes, if they can be cut out. -/
def get? (n : Nat) (bytes : List UInt8) : Option (List UInt8) :=
  if boundary bytes && n ≤ bytes.length && boundary (bytes.drop n) then some (bytes.take n)
  else none

/-- The first character of a slice. -/
def first? (text : List UInt8) : Option Char := text.toByteArray.utf8DecodeChar? 0

/-- Whether the bytes begin with a mark. -/
def startsWith (mark : List Char) (bytes : List UInt8) : Bool := mark.isPrefixOf (bytes.map asChar)

/-- How many bytes stand before the first occurrence of a mark. -/
def find? (mark : List Char) : List UInt8 → Option Nat
  | [] => none
  | b :: rest => if startsWith mark (b :: rest) then some 0 else (find? mark rest).map (· + 1)

end Bytewise

namespace Lexer

open Bytewise (asChar boundary get? first? startsWith find?)

variable {a c : Char} {text : List Char} {mark : List Char} {b : UInt8} {p : Char → Bool}

/-- The bytes of characters. -/
def bytes (text : List Char) : List UInt8 := text.flatMap String.utf8EncodeChar

/-- Whether each character is a single byte. -/
def narrow (text : List Char) : Bool := text.all fun c => c.utf8Size == 1

theorem utf8Size_of_narrow (h : narrow text = true) (hc : c ∈ text) : c.utf8Size = 1 :=
  beq_iff_eq.mp (List.all_eq_true.mp h c hc)

theorem bytes_append (text rest : List Char) : bytes (text ++ rest) = bytes text ++ bytes rest :=
  List.flatMap_append

/-- The bytes of a text are those of its characters. -/
theorem bytes_toList (text : String) : text.toByteArray.data.toList = bytes text.toList := by
  rw [← String.utf8Encode_toList]
  exact List.toList_data_toByteArray

theorem length_bytes (text : List Char) : (bytes text).length = String.utf8Len text := by
  induction text with
  | nil => rfl
  | cons c text ih =>
      have hbytes : bytes (c :: text) = String.utf8EncodeChar c ++ bytes text := rfl
      rw [hbytes, List.length_append, String.length_utf8EncodeChar, ih, String.utf8Len_cons,
        Nat.add_comm]

theorem length_le_bytes (text : List Char) : text.length ≤ (bytes text).length := by
  induction text with
  | nil => exact Nat.le_refl 0
  | cons c text ih =>
      have hpos := c.utf8Size_pos
      rw [length_bytes] at ih ⊢
      rw [String.utf8Len_cons, List.length_cons]
      omega

/-- A character of one byte is what its byte stands for. -/
theorem asChar_single (hc : c.utf8Size = 1) : asChar c.val.toUInt8 = c := by
  rw [Char.utf8Size_eq_one_iff] at hc
  have hnat : c.val.toUInt8.toNat = c.toNat := by
    have hle : c.val.toNat ≤ 127 := hc
    rw [UInt32.toNat_toUInt8, Nat.mod_eq_of_lt (by omega)]
    rfl
  unfold asChar
  rw [hnat, Char.ofNat_toNat]

/-- The bytes of a longer character are beyond ASCII. -/
theorem le_of_mem_utf8EncodeChar (hc : c.utf8Size ≠ 1) (hb : b ∈ String.utf8EncodeChar c) :
    128 ≤ b.toNat := by
  rw [Ne, Char.utf8Size_eq_one_iff] at hc
  have hlt : ¬ c.val.toNat ≤ 127 := hc
  unfold String.utf8EncodeChar at hb
  dsimp only at hb
  rw [if_neg hlt] at hb
  split at hb
  · simp only [List.mem_cons, List.not_mem_nil, or_false] at hb
    rcases hb with rfl | rfl <;> rw [UInt8.toNat_ofNat'] <;> omega
  split at hb
  · simp only [List.mem_cons, List.not_mem_nil, or_false] at hb
    rcases hb with rfl | rfl | rfl <;> rw [UInt8.toNat_ofNat'] <;> omega
  · simp only [List.mem_cons, List.not_mem_nil, or_false] at hb
    rcases hb with rfl | rfl | rfl | rfl <;> rw [UInt8.toNat_ofNat'] <;> omega

/-- They stand for nothing of one byte. -/
theorem asChar_wide (hc : c.utf8Size ≠ 1) (hb : b ∈ String.utf8EncodeChar c) :
    (asChar b).utf8Size ≠ 1 := by
  have hle := le_of_mem_utf8EncodeChar hc hb
  have hlt := b.toNat_lt
  have hval : (asChar b).toNat = b.toNat := toNat_ofNat (Or.inl (by omega))
  intro h
  have hle' : (asChar b).toNat ≤ 127 := Char.utf8Size_eq_one_iff.mp h
  omega

/-- Whoever asks for characters of one byte may ask the bytes instead. -/
theorem asChar_congr (hp : ∀ c, p c = true → c.utf8Size = 1) (hb : b ∈ String.utf8EncodeChar c) :
    p (asChar b) = p c := by
  by_cases hc : c.utf8Size = 1
  · rw [String.utf8EncodeChar_eq_singleton hc, List.mem_singleton] at hb
    rw [hb, asChar_single hc]
  · have hbyte : p (asChar b) = false := Bool.eq_false_iff.mpr fun h => asChar_wide hc hb (hp _ h)
    have hchar : p c = false := Bool.eq_false_iff.mpr fun h => hc (hp _ h)
    rw [hbyte, hchar]

/-- The first byte of a character and the others. -/
structure Leads (c : Char) (b : UInt8) (more : List UInt8) : Prop where
  encode : String.utf8EncodeChar c = b :: more
  single : c.utf8Size = 1 → asChar b = c ∧ more = []
  same : ∀ {p : Char → Bool}, (∀ c, p c = true → c.utf8Size = 1) → p (asChar b) = p c
  eq_iff : ∀ {a : Char}, a.utf8Size = 1 → (asChar b = a ↔ c = a)
  wide : ∀ b ∈ more, (asChar b).utf8Size ≠ 1

theorem leads (c : Char) : ∃ b more, Leads c b more := by
  obtain ⟨b, more, hencode⟩ := List.exists_cons_of_ne_nil (String.utf8EncodeChar_ne_nil (c := c))
  have hb : b ∈ String.utf8EncodeChar c := hencode ▸ List.mem_cons_self
  have hsingle : c.utf8Size = 1 → asChar b = c ∧ more = [] := by
    intro hc
    rw [String.utf8EncodeChar_eq_singleton hc] at hencode
    cases hencode
    exact ⟨asChar_single hc, rfl⟩
  refine ⟨b, more, hencode, hsingle, fun hp => asChar_congr hp hb, fun {a} ha => ?_,
    fun b' hb' => ?_⟩
  · have hsame := asChar_congr (p := (· = a)) (fun c h => of_decide_eq_true h ▸ ha) hb
    simpa only [decide_eq_decide] using hsame
  · by_cases hc : c.utf8Size = 1
    · rw [(hsingle hc).2] at hb'
      exact absurd hb' List.not_mem_nil
    · exact asChar_wide hc (hencode ▸ List.mem_cons_of_mem _ hb')

theorem Leads.bytes_cons {more : List UInt8} (h : Leads c b more) (text : List Char) :
    bytes (c :: text) = b :: (more ++ bytes text) := by
  have hbytes : bytes (c :: text) = String.utf8EncodeChar c ++ bytes text := rfl
  rw [hbytes, h.encode, List.cons_append]

theorem Leads.contains {more : List UInt8} (h : Leads c b more)
    (hmark : narrow mark = true) : mark.contains (asChar b) = mark.contains c :=
  h.same (p := mark.contains) fun _ hc => utf8Size_of_narrow hmark (List.contains_iff_mem.mp hc)

theorem bytes_single (hc : c.utf8Size = 1) (text : List Char) :
    bytes (c :: text) = c.val.toUInt8 :: bytes text := by
  have hbytes : bytes (c :: text) = String.utf8EncodeChar c ++ bytes text := rfl
  rw [hbytes, String.utf8EncodeChar_eq_singleton hc, List.singleton_append]

/-- Bytes begin with a mark where the characters do. -/
theorem startsWith_bytes (hmark : narrow mark = true) (text : List Char) :
    startsWith mark (bytes text) = mark.isPrefixOf text := by
  unfold startsWith
  induction mark generalizing text with
  | nil => rw [List.isPrefixOf_nil_left, List.isPrefixOf_nil_left]
  | cons a mark ih =>
      have ha := utf8Size_of_narrow hmark List.mem_cons_self
      have hrest := ih (Bool.and_eq_true_iff.mp hmark).2
      cases text with
      | nil => rfl
      | cons c text =>
          obtain ⟨b, more, hb⟩ := leads c
          rw [hb.bytes_cons, List.map_cons, List.isPrefixOf_cons_cons, List.isPrefixOf_cons_cons]
          by_cases hc : c = a
          · obtain ⟨hsame, rfl⟩ := hb.single (hc ▸ ha)
            rw [hsame, List.nil_append, hrest]
          · have hne : asChar b ≠ a := fun h => hc ((hb.eq_iff ha).mp h)
            rw [beq_false_of_ne hne.symm, beq_false_of_ne (Ne.symm hc), Bool.false_and,
              Bool.false_and]

theorem isPrefixOf_pair {d : Char} :
    [a, d].isPrefixOf (c :: text) = true ↔ ∃ rest, c = a ∧ text = d :: rest := by
  rw [List.isPrefixOf_iff_prefix, List.cons_prefix_cons]
  constructor
  · rintro ⟨rfl, rest, rfl⟩
    exact ⟨rest, rfl, rfl⟩
  · rintro ⟨rest, rfl, rfl⟩
    exact ⟨rfl, rest, rfl⟩

/-- A run of bytes is a run of characters. -/
theorem span_bytes (hp : ∀ c, ∀ b ∈ String.utf8EncodeChar c, p (asChar b) = p c)
    (text : List Char) :
    (bytes text).takeWhile (fun b => p (asChar b)) = bytes (text.takeWhile p) ∧
      (bytes text).dropWhile (fun b => p (asChar b)) = bytes (text.dropWhile p) := by
  induction text with
  | nil => exact ⟨rfl, rfl⟩
  | cons c text ih =>
      have hbytes (text : List Char) : bytes (c :: text) = String.utf8EncodeChar c ++ bytes text := rfl
      by_cases hc : p c = true
      · have hall : ∀ b ∈ String.utf8EncodeChar c, p (asChar b) = true := fun b hb => (hp c b hb).trans hc
        rw [List.takeWhile_cons_of_pos hc, List.dropWhile_cons_of_pos hc, hbytes, hbytes,
          List.takeWhile_append_of_pos hall, List.dropWhile_append_of_pos hall, ih.1, ih.2]
        exact ⟨rfl, rfl⟩
      · obtain ⟨b, more, hb⟩ := leads c
        have hnot : ¬ p (asChar b) = true := by
          rw [hp c b (hb.encode ▸ List.mem_cons_self)]
          exact hc
        rw [List.takeWhile_cons_of_neg hc, List.dropWhile_cons_of_neg hc, hb.bytes_cons,
          List.takeWhile_cons_of_neg (p := fun b => p (asChar b)) hnot,
          List.dropWhile_cons_of_neg (p := fun b => p (asChar b)) hnot]
        exact ⟨rfl, rfl⟩

/-- No mark begins inside a character. -/
theorem find?_wide {more : List UInt8} (hmark : narrow mark = true) (hne : mark ≠ [])
    (hmore : ∀ b ∈ more, (asChar b).utf8Size ≠ 1) (rest : List UInt8) :
    find? mark (more ++ rest) = (find? mark rest).map (· + more.length) := by
  induction more with
  | nil => exact (Option.map_id' (x := find? mark rest)).symm
  | cons b more ih =>
      have hb : startsWith mark (b :: (more ++ rest)) = false := by
        obtain ⟨a, mark, rfl⟩ := List.exists_cons_of_ne_nil hne
        have hdiffer : a ≠ asChar b := fun h =>
          hmore b List.mem_cons_self (h ▸ utf8Size_of_narrow hmark List.mem_cons_self)
        unfold startsWith
        rw [List.map_cons, List.isPrefixOf_cons_cons, beq_false_of_ne hdiffer, Bool.false_and]
      rw [List.cons_append, find?, if_neg (Bool.eq_false_iff.mp hb),
        ih fun b h => hmore b (List.mem_cons_of_mem _ h), Option.map_map]
      rfl

/-- A mark is found where the characters have it. -/
theorem find?_bytes (hmark : narrow mark = true) (c : Char) (text : List Char) :
    find? mark (bytes (c :: text)) = if mark.isPrefixOf (c :: text) then some 0
      else (find? mark (bytes text)).map (· + c.utf8Size) := by
  obtain ⟨b, more, hb⟩ := leads c
  have hstarts := startsWith_bytes hmark (c :: text)
  rw [hb.bytes_cons] at hstarts ⊢
  rw [find?, hstarts]
  split
  · rfl
  · next hprefix =>
      have hne : mark ≠ [] := by
        rintro rfl
        exact hprefix rfl
      have hlen : c.utf8Size = more.length + 1 := by
        rw [← String.length_utf8EncodeChar, hb.encode, List.length_cons]
      rw [find?_wide hmark hne hb.wide, Option.map_map, hlen]
      rfl

theorem boundary_bytes (text : List Char) : boundary (bytes text) = true := by
  cases text with
  | nil => rfl
  | cons c text =>
      obtain ⟨b, more, hb⟩ := leads c
      have hhead : b.toNat < 128 ∨ 192 ≤ b.toNat := by
        have hencode := hb.encode
        unfold String.utf8EncodeChar at hencode
        dsimp only at hencode
        split at hencode
        · cases hencode
          rw [UInt8.toNat_ofNat']
          omega
        split at hencode
        · cases hencode
          rw [UInt8.toNat_ofNat']
          omega
        split at hencode
        all_goals
          cases hencode
          rw [UInt8.toNat_ofNat']
          omega
      rw [hb.bytes_cons, boundary, Bool.or_eq_true, decide_eq_true_eq, decide_eq_true_eq]
      exact hhead

theorem first?_bytes (c : Char) (text : List Char) : first? (bytes (c :: text)) = some c :=
  List.utf8DecodeChar?_utf8Encode_cons

theorem get?_bytes (front rest : List Char) :
    get? (bytes front).length (bytes (front ++ rest)) = some (bytes front) := by
  unfold get?
  rw [boundary_bytes, bytes_append, List.drop_left, boundary_bytes, List.take_left,
    List.length_append, decide_eq_true (Nat.le_add_right _ _)]
  rfl

theorem drop_bytes (front rest : List Char) :
    (bytes (front ++ rest)).drop (bytes front).length = bytes rest := by
  rw [bytes_append, List.drop_left]

theorem ne_newline_bytes (c : Char) (b : UInt8) (hb : b ∈ String.utf8EncodeChar c) :
    decide (asChar b ≠ '\n') = decide (c ≠ '\n') := by
  have hsame := asChar_congr (p := (· = '\n')) (fun c h => of_decide_eq_true h ▸ rfl) hb
  rw [decide_not, decide_not]
  exact congrArg (! ·) hsame

/-- A byte that stands for a character of one byte is that character. -/
theorem single_of_bytes {left : List UInt8} (hb : (asChar b).utf8Size = 1)
    (h : bytes text = b :: left) : ∃ rest, text = asChar b :: rest ∧ bytes rest = left := by
  cases text with
  | nil => cases h
  | cons c text =>
      obtain ⟨b', more, hlead⟩ := leads c
      rw [hlead.bytes_cons] at h
      obtain ⟨rfl, hleft⟩ := List.cons.inj h
      have hc : c = asChar b' := (hlead.eq_iff hb).mp rfl
      rw [(hlead.single (hc ▸ hb)).2] at hleft
      exact ⟨text, by rw [← hc], hleft⟩

theorem map_asChar_bytes (h : ∀ c ∈ text, c.utf8Size = 1) : (bytes text).map asChar = text := by
  induction text with
  | nil => rfl
  | cons c text ih =>
      rw [bytes_single (h c List.mem_cons_self), List.map_cons, asChar_single (h c List.mem_cons_self),
        ih fun d hd => h d (List.mem_cons_of_mem _ hd)]

end Lexer

end Script

end RenderFold
