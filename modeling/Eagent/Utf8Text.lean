import Mathlib.Data.List.Basic

/-!
# Texts and their bytes

A text is a list of characters, its bytes are their UTF-8 encodings one
after another. Cutting at a byte position and moving on to the start of a
character leaves the longest end of the text that fits (`charsFrom_align`,
`fit`).
-/

namespace Utf8Text

def encode (text : List Char) : List UInt8 := text.flatMap String.utf8EncodeChar

def byteLength (text : List Char) : Nat := (encode text).length

/-- `(b & 0xc0) === 0x80` -/
def isContinuation (b : UInt8) : Bool := b &&& 0xc0 = 0x80

/-- The first position from `start` on that is not inside a character. -/
def align (buffer : List UInt8) (start : Nat) : Nat :=
  start + ((buffer.drop start).takeWhile isContinuation).length

/-- The characters from a position on, where one starts. -/
def charsFrom : List Char → Nat → List Char
  | [], _ => []
  | c :: cs, start => if start = 0 then c :: cs else charsFrom cs (start - c.utf8Size)

/-- The longest end of a text that fits in `n` bytes. -/
def fit (n : Nat) : List Char → List Char
  | [] => []
  | c :: cs => if byteLength (c :: cs) ≤ n then c :: cs else fit n cs

/-! ## Lengths -/

@[simp] theorem encode_nil : encode [] = [] := rfl

@[simp] theorem encode_cons (c : Char) (cs : List Char) :
    encode (c :: cs) = String.utf8EncodeChar c ++ encode cs := rfl

@[simp] theorem byteLength_nil : byteLength [] = 0 := rfl

@[simp] theorem byteLength_cons (c : Char) (cs : List Char) :
    byteLength (c :: cs) = c.utf8Size + byteLength cs := by
  rw [byteLength, encode_cons, List.length_append, String.length_utf8EncodeChar, byteLength]

@[simp] theorem byteLength_append (a b : List Char) :
    byteLength (a ++ b) = byteLength a + byteLength b := by
  rw [byteLength, encode, List.flatMap_append, List.length_append]
  rfl

/-! ## Positions -/

theorem continuation_of_low (y : UInt8) : isContinuation (y &&& 0x3f ||| 0x80) = true := by
  have hbits : (y &&& 0x3f ||| 0x80) &&& 0xc0 = 0x80 := by
    apply UInt8.toBitVec_inj.mp
    simp only [UInt8.toBitVec_and, UInt8.toBitVec_or, UInt8.toBitVec_ofNat]
    generalize y.toBitVec = b
    revert b
    decide
  simpa [isContinuation] using hbits

theorem not_continuation_of_first {b : UInt8} (h : b.IsUTF8FirstByte) :
    isContinuation b = false := by
  have hbits : b &&& 0xc0 ≠ 0x80 := by
    revert h
    unfold UInt8.IsUTF8FirstByte
    rw [ne_eq, ← UInt8.toBitVec_inj, ← UInt8.toBitVec_inj, ← UInt8.toBitVec_inj,
      ← UInt8.toBitVec_inj, ← UInt8.toBitVec_inj]
    simp only [UInt8.toBitVec_and, UInt8.toBitVec_ofNat]
    generalize b.toBitVec = v
    revert v
    decide
  simpa [isContinuation] using hbits

/-- A character is a first byte and continuations. -/
theorem encodeChar_eq (c : Char) : ∃ b rest, String.utf8EncodeChar c = b :: rest ∧
    isContinuation b = false ∧ ∀ x ∈ rest, isContinuation x = true := by
  have hfirst : ∀ b rest, String.utf8EncodeChar c = b :: rest → isContinuation b = false := by
    intro b rest h
    have hb : ((String.utf8EncodeChar c)[0]?).all (fun b => decide b.IsUTF8FirstByte) = true := by
      have hlength : 0 < (String.utf8EncodeChar c).length := by
        rw [String.length_utf8EncodeChar]
        exact c.utf8Size_pos
      rw [List.getElem?_eq_getElem hlength]
      simp
    rw [h] at hb
    exact not_continuation_of_first (by simpa using hb)
  have hsizes : c.utf8Size = 1 ∨ c.utf8Size = 2 ∨ c.utf8Size = 3 ∨ c.utf8Size = 4 := by
    have hpos := c.utf8Size_pos
    have hfour := c.utf8Size_le_four
    omega
  rcases hsizes with h | h | h | h
  · have hbytes := String.utf8EncodeChar_eq_singleton h
    exact ⟨_, _, hbytes, hfirst _ _ hbytes, fun x hx => nomatch hx⟩
  · have hbytes := String.utf8EncodeChar_eq_cons_cons h
    refine ⟨_, _, hbytes, hfirst _ _ hbytes, ?_⟩
    simp [continuation_of_low]
  · have hbytes := String.utf8EncodeChar_eq_cons_cons_cons h
    refine ⟨_, _, hbytes, hfirst _ _ hbytes, ?_⟩
    simp [continuation_of_low]
  · have hbytes := String.utf8EncodeChar_eq_cons_cons_cons_cons h
    refine ⟨_, _, hbytes, hfirst _ _ hbytes, ?_⟩
    simp [continuation_of_low]

/-- A text starts with the start of a character. -/
theorem takeWhile_encode (text : List Char) :
    (encode text).takeWhile isContinuation = [] := by
  cases text with
  | nil => rfl
  | cons c cs =>
    obtain ⟨b, rest, hbytes, hb, -⟩ := encodeChar_eq c
    rw [encode_cons, hbytes, List.cons_append, List.takeWhile_cons, hb]
    rfl

theorem align_inside (c : Char) (cs : List Char) {start : Nat} (hpos : 0 < start)
    (hstart : start ≤ c.utf8Size) : align (encode (c :: cs)) start = c.utf8Size := by
  obtain ⟨b, rest, hbytes, -, hrest⟩ := encodeChar_eq c
  have hlength : rest.length + 1 = c.utf8Size := by
    rw [← String.length_utf8EncodeChar, hbytes, List.length_cons]
  obtain ⟨k, rfl⟩ : ∃ k, start = k + 1 := Nat.exists_eq_succ_of_ne_zero (by omega)
  have hcontinue : ∀ x ∈ rest.drop k, isContinuation x = true :=
    fun x hx => hrest x (List.mem_of_mem_drop hx)
  rw [align, encode_cons, hbytes, List.cons_append, List.drop_succ_cons,
    List.drop_append_of_le_length (by omega), List.takeWhile_append_of_pos hcontinue,
    takeWhile_encode, List.append_nil, List.length_drop]
  omega

/-- Past the first character it is as in the rest. -/
theorem align_past (c : Char) (cs : List Char) (start : Nat) :
    align (encode (c :: cs)) (c.utf8Size + start) = c.utf8Size + align (encode cs) start := by
  have hlength := String.length_utf8EncodeChar c
  rw [align, align, encode_cons, ← hlength, List.drop_length_add_append, Nat.add_assoc]

theorem charsFrom_zero (text : List Char) : charsFrom text 0 = text := by
  cases text <;> rfl

theorem charsFrom_past (c : Char) (cs : List Char) (start : Nat) :
    charsFrom (c :: cs) (c.utf8Size + start) = charsFrom cs start := by
  have hpos := c.utf8Size_pos
  rw [charsFrom, if_neg (by omega), Nat.add_sub_cancel_left]

/-! ## The end that fits -/

variable {text : List Char} {n : Nat}

theorem fit_of_le (h : byteLength text ≤ n) : fit n text = text := by
  cases text with
  | nil => rfl
  | cons c cs => rw [fit, if_pos h]

theorem byteLength_fit_le (n : Nat) (text : List Char) : byteLength (fit n text) ≤ n := by
  induction text with
  | nil => exact Nat.zero_le _
  | cons c cs ih =>
    rw [fit]
    split
    · assumption
    · exact ih

theorem charsFrom_append (a b : List Char) : charsFrom (a ++ b) (byteLength a) = b := by
  induction a with
  | nil => exact charsFrom_zero b
  | cons c a ih => rw [List.cons_append, byteLength_cons, charsFrom_past, ih]

section

variable (h : n < byteLength text)
include h

/-- Cut where `n` bytes are left, and move on to a character: the end that
fits begins there. -/
theorem align_eq :
    align (encode text) (byteLength text - n) = byteLength text - byteLength (fit n text) := by
  induction text with
  | nil => exact absurd h (Nat.not_lt_zero _)
  | cons c cs ih =>
    have hlength := byteLength_cons c cs
    rw [fit, if_neg (Nat.not_le.mpr h)]
    by_cases hfits : byteLength cs ≤ n
    · have hinside : align (encode (c :: cs)) (byteLength (c :: cs) - n) = c.utf8Size :=
        align_inside c cs (by omega) (by omega)
      rw [hinside, fit_of_le hfits]
      omega
    · have hstart : byteLength (c :: cs) - n = c.utf8Size + (byteLength cs - n) := by omega
      have hfit := byteLength_fit_le n cs
      rw [hstart, align_past, ih (by omega)]
      omega

/-- What is cut off would not fit, not even its last character. -/
theorem fit_split :
    ∃ before c, text = before ++ c :: fit n text ∧ n < c.utf8Size + byteLength (fit n text) := by
  induction text with
  | nil => exact absurd h (Nat.not_lt_zero _)
  | cons c cs ih =>
    rw [fit, if_neg (Nat.not_le.mpr h)]
    by_cases hfits : byteLength cs ≤ n
    · rw [fit_of_le hfits]
      exact ⟨[], c, rfl, by rwa [byteLength_cons] at h⟩
    · obtain ⟨before, d, hcs, hd⟩ := ih (Nat.not_le.mp hfits)
      exact ⟨c :: before, d, congrArg (c :: ·) hcs, hd⟩

theorem charsFrom_align :
    charsFrom text (align (encode text) (byteLength text - n)) = fit n text := by
  obtain ⟨before, c, htext, -⟩ := fit_split h
  have hlength := congrArg byteLength htext
  rw [← List.singleton_append, ← List.append_assoc, byteLength_append] at hlength
  have hstart : byteLength text - byteLength (fit n text) = byteLength (before ++ [c]) := by omega
  have hafter := charsFrom_append (before ++ [c]) (fit n text)
  rw [List.append_assoc, List.singleton_append, ← htext] at hafter
  rw [align_eq h, hstart, hafter]

theorem drop_align :
    (encode text).drop (align (encode text) (byteLength text - n)) = encode (fit n text) := by
  obtain ⟨before, c, htext, -⟩ := fit_split h
  have hlength := congrArg byteLength htext
  rw [← List.singleton_append, ← List.append_assoc, byteLength_append] at hlength
  have hstart : byteLength text - byteLength (fit n text) = (encode (before ++ [c])).length := by
    rw [← byteLength]
    omega
  have hbytes : encode text = encode (before ++ [c]) ++ encode (fit n text) := by
    rw [encode, encode, encode, ← List.flatMap_append, List.append_assoc, List.singleton_append,
      ← htext]
  rw [align_eq h, hstart, hbytes, List.drop_left]

end

/-- The text of bytes that are well formed. -/
def decode (bytes : List UInt8) : Option (List Char) :=
  bytes.toByteArray.utf8Decode?.map Array.toList

theorem decode_encode (text : List Char) : decode (encode text) = some text := by
  have hdecode : (encode text).toByteArray.utf8Decode? = some text.toArray :=
    List.utf8Decode?_utf8Encode
  rw [decode, hdecode]
  rfl

/-- The last byte of a character is a line feed only for a line end. -/
theorem getLast_encodeChar (c : Char) :
    (String.utf8EncodeChar c).getLast? = some 0x0a ↔ c = '\n' := by
  constructor
  · intro hlast
    obtain ⟨b, rest, hbytes, -, hrest⟩ := encodeChar_eq c
    have hlength := String.length_utf8EncodeChar c
    rw [hbytes, List.length_cons] at hlength
    rw [hbytes] at hlast
    cases hcases : rest with
    | nil =>
      rw [hcases] at hlast hlength
      have hone : c.utf8Size = 1 := hlength.symm
      have hbyte := (String.utf8EncodeChar_eq_singleton hone).symm.trans hbytes
      rw [hcases] at hbyte
      obtain rfl := (List.cons.inj hbyte).1
      have hvalue : c.val.toUInt8 = 0x0a := Option.some.inj hlast
      have hsmall : c.val ≤ 127 := Char.utf8Size_eq_one_iff.mp hone
      have hnat := congrArg UInt8.toNat hvalue
      rw [UInt32.toNat_toUInt8] at hnat
      have hbound : c.val.toNat ≤ 127 := UInt32.le_iff_toNat_le.mp hsmall
      refine Char.ext (UInt32.toNat_inj.mp ?_)
      have hten : (10 : UInt8).toNat = 10 := rfl
      have hnewline : ('\n').val.toNat = 10 := rfl
      omega
    | cons x xs =>
      rw [hcases] at hlast hrest
      have hmem : (0x0a : UInt8) ∈ x :: xs := by
        rw [List.getLast?_cons_cons] at hlast
        exact List.mem_of_getLast? hlast
      exact absurd (hrest _ hmem) (by decide)
  · rintro rfl
    decide

theorem getElem?_before_fit {text before : List Char} {c : Char}
    (htext : text = before ++ c :: fit n text) :
    (encode text)[byteLength text - byteLength (fit n text) - 1]? =
      (String.utf8EncodeChar c).getLast? := by
  have hlength := congrArg byteLength htext
  rw [byteLength_append, byteLength_cons] at hlength
  have hpos := c.utf8Size_pos
  have hsize := String.length_utf8EncodeChar c
  have hencode : encode text =
      encode before ++ (String.utf8EncodeChar c ++ encode (fit n text)) := by
    rw [htext, encode, List.flatMap_append, List.flatMap_cons]
    rw [← htext]
    rfl
  have hbefore : byteLength before = (encode before).length := rfl
  rw [hencode, List.getElem?_append_right (by omega), List.getElem?_append_left (by omega),
    List.getLast?_eq_getElem?, hsize]
  congr 1
  omega

/-- Only the end matters when it is too long. -/
theorem fit_append (a : List Char) {b : List Char} (h : n ≤ byteLength b) :
    fit n (a ++ b) = fit n b := by
  induction a with
  | nil => rfl
  | cons c a ih =>
    have hpos := c.utf8Size_pos
    rw [List.cons_append, fit, if_neg, ih]
    rw [byteLength_cons, byteLength_append]
    omega

/-! ## Bytes that need not be well formed -/

/-- The byte after the first is in range for it. -/
def isSecond (first second : UInt8) : Bool :=
  if first = 0xe0 then 0xa0 ≤ second && second ≤ 0xbf
  else if first = 0xed then 0x80 ≤ second && second ≤ 0x9f
  else if first = 0xf0 then 0x90 ≤ second && second ≤ 0xbf
  else if first = 0xf4 then 0x80 ≤ second && second ≤ 0x8f
  else isContinuation second

/-- How many bytes one replacement character stands for: the longest beginning
of a character, where no whole one is. -/
def malformedLength : List UInt8 → Nat
  | first :: second :: rest =>
      if 0xe0 ≤ first ∧ first ≤ 0xf4 ∧ isSecond first second then
        if 0xf0 ≤ first ∧ rest.head?.any isContinuation then 3 else 2
      else 1
  | _ => 1

theorem malformedLength_pos (bytes : List UInt8) : 0 < malformedLength bytes := by
  unfold malformedLength
  split
  · split
    · split <;> decide
    · decide
  · decide

/-- `buffer.toString()` -/
def decodeLossy : List UInt8 → List Char
  | [] => []
  | b :: bytes =>
      match (b :: bytes).toByteArray.utf8DecodeChar? 0 with
      | some c => c :: decodeLossy ((b :: bytes).drop c.utf8Size)
      | none => '\uFFFD' :: decodeLossy ((b :: bytes).drop (malformedLength (b :: bytes)))
termination_by bytes => bytes.length
decreasing_by
  · have hpos := c.utf8Size_pos
    rw [List.length_drop, List.length_cons]
    omega
  · have hpos := malformedLength_pos (b :: bytes)
    rw [List.length_drop, List.length_cons]
    omega

theorem decodeLossy_encode (text : List Char) : decodeLossy (encode text) = text := by
  induction text with
  | nil => rw [encode, List.flatMap_nil, decodeLossy]
  | cons c cs ih =>
    have hbytes : encode (c :: cs) = String.utf8EncodeChar c ++ encode cs := List.flatMap_cons
    obtain ⟨b, rest, hc, -⟩ := encodeChar_eq c
    have hchar : (b :: (rest ++ encode cs)).toByteArray.utf8DecodeChar? 0 = some c := by
      rw [← List.cons_append, ← hc, List.toByteArray_append]
      exact ByteArray.utf8DecodeChar?_utf8EncodeChar_append
    have hdrop : (b :: (rest ++ encode cs)).drop c.utf8Size = encode cs := by
      rw [← List.cons_append, ← hc, ← String.length_utf8EncodeChar, List.drop_left]
    rw [hbytes, hc, List.cons_append, decodeLossy, hchar]
    dsimp only
    rw [hdrop, ih]

end Utf8Text
