import SystemFOmega.Surface.Parser

/-!
# The characters of a text, byte after byte

`String.toList` looks for every character from the start of the text, so that a closed statement
about a long text takes long to decide. `Text.chars` passes the bytes of the text once and gives the
same characters (`Text.chars_eq_toList`). A text can be read from them (`Parser.run_eq_ofChars`).
-/

namespace SystemFOmega

namespace Text

/-- The characters that `bs` encodes, at most as many as `room` is long. -/
def decode : List UInt8 → List UInt8 → List Char
  | [], _ => []
  | _ :: room, bs =>
    match (bs.take 4).toByteArray.utf8DecodeChar? 0 with
    | none => []
    | some c =>
      -- the split has the character evaluated here, and not wherever it is looked at
      match c.toNat with
      | 0 => c :: decode room (bs.drop c.utf8Size)
      | n + 1 => Char.ofNat (n + 1) :: decode room (bs.drop c.utf8Size)

/-- The characters of a text. -/
def chars (s : String) : List Char :=
  let bs := s.toByteArray.data.toList
  decode bs bs

/-- The characters of a text come out of its bytes, if there is room for as many as there are. -/
theorem decode_encode {cs : List Char} {room : List UInt8} (h : cs.length ≤ room.length) :
    decode room (cs.flatMap String.utf8EncodeChar) = cs := by
  induction cs generalizing room with
  | nil =>
    cases room with
    | nil => rfl
    | cons b room => rfl
  | cons c cs ih =>
    cases room with
    | nil => simp at h
    | cons b room =>
      have hlen := String.length_utf8EncodeChar c
      have hle := c.utf8Size_le_four
      rw [List.flatMap_cons, decode, List.take_append, List.take_of_length_le (by omega),
        List.toByteArray_append, ByteArray.utf8DecodeChar?_utf8EncodeChar_append]
      simp only [List.drop_left' hlen, ih (Nat.le_of_succ_le_succ h)]
      cases hc : c.toNat with
      | zero => rfl
      | succ n =>
        show Char.ofNat (n + 1) :: cs = c :: cs
        rw [← hc, Char.ofNat_toNat]

theorem length_le_encode (cs : List Char) :
    cs.length ≤ (cs.flatMap String.utf8EncodeChar).length := by
  induction cs with
  | nil => exact Nat.le_refl 0
  | cons c cs ih =>
    have hpos := c.utf8Size_pos
    rw [List.flatMap_cons, List.length_append, List.length_cons, String.length_utf8EncodeChar]
    omega

/-- The characters that are read from the bytes of a text are its characters. -/
theorem chars_eq_toList (s : String) : chars s = s.toList := by
  have hbytes : s.toByteArray.data.toList = s.toList.flatMap String.utf8EncodeChar := by
    conv => lhs; rw [← String.ofList_toList (s := s)]
    rw [String.toByteArray_ofList, List.utf8Encode, List.data_toByteArray]
  unfold chars
  rw [hbytes]
  exact decode_encode (length_le_encode _)

end Text

namespace Parser

/-- Reads the characters of a text by `p`. -/
def ofChars {α : Type} (p : Parse α) (file : Option String) (cs : List Char) :
    Except ReadFault α :=
  match Token.lexFrom file {} cs [] with
  | .error s => .error (.stray s)
  | .ok ts =>
    match p.run ts with
    | .ok a _ => .ok a
    | .error f _ => .error f

/-- A text may be read from its bytes, which the kernel can do. -/
theorem run_eq_ofChars {α : Type} (p : Parse α) (file : Option String) (text : String) :
    run p file text = ofChars p file (Text.chars text) := by
  rw [Text.chars_eq_toList]
  rfl

end Parser

end SystemFOmega
