import Eagent.Utf16Text

/-!
# Truncation without a `Buffer`

The harness counts and cuts UTF-8 bytes on UTF-16 units, by the surrogates
it meets: `utf8ByteLength` forwards, `truncateStringToBytesFromEnd`
backwards. Both agree with the encoded bytes, which the tools of the coding
agent work on.

Strings are lists of UTF-16 units; an unpaired surrogate is encoded as
U+FFFD.
-/

namespace Eagent

open Utf8Text Utf16Text

def utf8Bytes (str : List UInt16) : List UInt8 := encode (scalars str)

namespace Harness

/-! ## Counting -/

/-- `/[^\x00-\x7f]/` -/
def isNonAscii (code : UInt16) : Bool := 0x7f < code

/-- The loop from the first unit that is not ASCII on. -/
def byteLoop (bytes : Nat) : List UInt16 → Nat
  | [] => bytes
  | code :: rest =>
      if code ≤ 0x7f then byteLoop (bytes + 1) rest
      else if code ≤ 0x7ff then byteLoop (bytes + 2) rest
      else if isHigh code then
        match rest with
        | next :: rest' =>
            if isLow next then byteLoop (bytes + 4) rest' else byteLoop (bytes + 3) (next :: rest')
        | [] => bytes + 3
      else byteLoop (bytes + 3) rest

/-- `utf8ByteLength` where the runtime has no `Buffer`. -/
def utf8ByteLength (content : List UInt16) : Nat :=
  match content.findIdx? isNonAscii with
  | none => content.length
  | some firstNonAscii => byteLoop firstNonAscii (content.drop firstNonAscii)

/-! ## Cutting -/

def replaceUnpairedSurrogates : List UInt16 → List UInt16
  | [] => []
  | code :: rest =>
      if isHigh code then
        match rest with
        | next :: rest' =>
            if isLow next then code :: next :: replaceUnpairedSurrogates rest'
            else 0xfffd :: replaceUnpairedSurrogates (next :: rest')
        | [] => [0xfffd]
      else if isLow code then 0xfffd :: replaceUnpairedSurrogates rest
      else code :: replaceUnpairedSurrogates rest

/-- The character that ends before `i`. `before` are the units before
`characterStart`, the last one first. -/
structure EndingCharacter where
  units : List UInt16
  characterBytes : Nat
  unpairedSurrogate : Bool
  before : List UInt16

/-- The body of the loop up to the test of the limit. -/
def endingCharacter (code : UInt16) (before : List UInt16) : EndingCharacter :=
  if isLow code then
    match before with
    | previous :: earlier =>
        if isHigh previous then ⟨[previous, code], 4, false, earlier⟩
        else ⟨[code], 3, true, before⟩
    | [] => ⟨[code], 3, true, before⟩
  else if isHigh code then ⟨[code], 3, true, before⟩
  else ⟨[code], if code ≤ 0x7f then 1 else if code ≤ 0x7ff then 2 else 3, false, before⟩

theorem endingCharacter_before (code : UInt16) (before : List UInt16) :
    (endingCharacter code before).before.length ≤ before.length := by
  rw [endingCharacter.eq_def]
  repeat' split
  all_goals simp

/-- The loop over the units before `i`, the last one first. `output` is what
`str.slice(start)` gives. -/
def truncationLoop (maxBytes : Int) (before : List UInt16) (outputBytes : Nat)
    (output : List UInt16) (needsReplacement : Bool) : List UInt16 × Bool :=
  match before with
  | [] => (output, needsReplacement)
  | code :: before =>
      let character := endingCharacter code before
      if (outputBytes + character.characterBytes : Int) > maxBytes then (output, needsReplacement)
      else
        truncationLoop maxBytes character.before (outputBytes + character.characterBytes)
          (character.units ++ output) (needsReplacement || character.unpairedSurrogate)
termination_by before.length
decreasing_by exact Nat.lt_succ_of_le (endingCharacter_before code before)

def truncateStringToBytesFromEnd (str : List UInt16) (maxBytes : Int) : List UInt16 :=
  if maxBytes ≤ 0 then []
  else
    let (output, needsReplacement) := truncationLoop maxBytes str.reverse 0 [] false
    if needsReplacement then replaceUnpairedSurrogates output else output

end Harness

/-- The tools' version, on the bytes; `none` if they are not well formed where
they are decoded. -/
def CodingAgent.truncateStringToBytesFromEnd (str : List UInt16) (maxBytes : Int) :
    Option (List UInt16) :=
  let buf := utf8Bytes str
  if (buf.length : Int) ≤ maxBytes then some str
  else
    let start := align buf (buf.length - maxBytes).toNat
    (decode (buf.drop start)).map units

namespace Harness

/-! ## Counting is encoding -/

def unitBytes (code : UInt16) : Nat := if code ≤ 0x7f then 1 else if code ≤ 0x7ff then 2 else 3

variable {code : UInt16}

theorem unitBytes_of_lt (h : 0x7ff < code) : unitBytes code = 3 := by
  have hlow : ¬ code ≤ 0x7f := UInt16.not_le.mpr (UInt16.lt_trans (by decide) h)
  rw [unitBytes, if_neg hlow, if_neg (UInt16.not_le.mpr h)]

theorem lt_of_isHigh (h : isHigh code = true) : 0x7ff < code :=
  UInt16.lt_iff_toNat_lt.mpr (Nat.lt_of_lt_of_le (by decide) (isHigh_iff.mp h).1)

theorem lt_of_isLow (h : isLow code = true) : 0x7ff < code :=
  UInt16.lt_iff_toNat_lt.mpr (Nat.lt_of_lt_of_le (by decide) (isLow_iff.mp h).1)

theorem byteLength_replacement (rest : List Char) :
    byteLength ('\uFFFD' :: rest) = 3 + byteLength rest := by
  rw [byteLength_cons, utf8Size_replacement]

theorem byteLength_pair {hi lo : UInt16} (hhi : isHigh hi = true) (hlo : isLow lo = true)
    (rest : List UInt16) :
    byteLength (scalars (hi :: lo :: rest)) = 4 + byteLength (scalars rest) := by
  rw [scalars_pair hhi hlo, byteLength_cons, utf8Size_pair hhi hlo]

theorem byteLength_unit (h : isHigh code = false) (rest : List UInt16) :
    byteLength (scalars (code :: rest)) = unitBytes code + byteLength (scalars rest) := by
  cases hlo : isLow code with
  | true =>
    rw [scalars_low hlo, byteLength_replacement, unitBytes_of_lt (lt_of_isLow hlo)]
  | false =>
    rw [scalars_plain h hlo, byteLength_cons, utf8Size_plain h hlo, unitBytes]

theorem byteLength_high {hi : UInt16} (hhi : isHigh hi = true) {rest : List UInt16}
    (hrest : ∀ v, rest.head? = some v → isLow v = false) :
    byteLength (scalars (hi :: rest)) = 3 + byteLength (scalars rest) := by
  rw [scalars_high hhi hrest, byteLength_replacement]

theorem byteLoop_eq (bytes : Nat) (content : List UInt16) :
    byteLoop bytes content = bytes + byteLength (scalars content) := by
  have hplain : ∀ {code : UInt16}, code ≤ 0x7ff → isHigh code = false := fun h =>
    Bool.eq_false_iff.mpr fun hhi => UInt16.not_le.mpr (lt_of_isHigh hhi) h
  fun_induction byteLoop bytes content with
  | case1 bytes => rfl
  | case2 bytes code rest hone ih =>
    have hhi := hplain (UInt16.le_trans hone (by decide))
    rw [ih, byteLength_unit hhi, unitBytes, if_pos hone, Nat.add_assoc]
  | case3 bytes code rest hone htwo ih =>
    rw [ih, byteLength_unit (hplain htwo), unitBytes, if_neg hone, if_pos htwo, Nat.add_assoc]
  | case4 bytes code hone htwo hhi next rest hlo ih =>
    rw [ih, byteLength_pair hhi hlo, Nat.add_assoc]
  | case5 bytes code hone htwo hhi next rest hlo ih =>
    have hhead : ∀ v, (next :: rest).head? = some v → isLow v = false := by
      rintro v ⟨⟩
      exact Bool.eq_false_iff.mpr hlo
    rw [ih, byteLength_high hhi hhead, Nat.add_assoc]
  | case6 bytes code hone htwo hhi =>
    have hhead : ∀ v, ([] : List UInt16).head? = some v → isLow v = false :=
      fun v hv => nomatch hv
    rw [byteLength_high hhi hhead]
    rfl
  | case7 bytes code rest hone htwo hhi ih =>
    rw [ih, byteLength_unit (Bool.eq_false_iff.mpr hhi),
      unitBytes_of_lt (UInt16.not_le.mp htwo), Nat.add_assoc]

theorem byteLength_ascii {ascii : List UInt16} (h : ∀ code ∈ ascii, code ≤ 0x7f)
    (rest : List UInt16) :
    byteLength (scalars (ascii ++ rest)) = ascii.length + byteLength (scalars rest) := by
  induction ascii with
  | nil => exact (Nat.zero_add _).symm
  | cons code ascii ih =>
    have hcode := h code List.mem_cons_self
    have hhi : isHigh code = false := Bool.eq_false_iff.mpr fun hhi =>
      UInt16.not_le.mpr (lt_of_isHigh hhi) (UInt16.le_trans hcode (by decide))
    rw [List.cons_append, byteLength_unit hhi, unitBytes, if_pos hcode,
      ih fun other hother => h other (List.mem_cons_of_mem code hother), List.length_cons]
    omega

theorem utf8ByteLength_eq (content : List UInt16) :
    utf8ByteLength content = (utf8Bytes content).length := by
  rw [utf8Bytes, ← byteLength, utf8ByteLength]
  have hle : ∀ {code : UInt16}, ¬ isNonAscii code = true → code ≤ 0x7f := fun h =>
    UInt16.not_lt.mp fun hlt => h (decide_eq_true hlt)
  split
  · rename_i hnone
    have hlength := byteLength_ascii
      (fun code hcode => hle (Bool.eq_false_iff.mp (List.findIdx?_eq_none_iff.mp hnone code hcode)))
      []
    rw [List.append_nil] at hlength
    rw [hlength]
    rfl
  · rename_i i hi
    obtain ⟨hlt, -, hbefore⟩ := List.findIdx?_eq_some_iff_getElem.mp hi
    have hascii : ∀ code ∈ content.take i, code ≤ 0x7f := by
      intro code hcode
      obtain ⟨j, hj, rfl⟩ := List.mem_take_iff_getElem.mp hcode
      exact hle (hbefore j (by omega))
    have hlength := byteLength_ascii hascii (content.drop i)
    rw [List.take_append_drop, List.length_take, Nat.min_eq_left (Nat.le_of_lt hlt)] at hlength
    rw [byteLoop_eq, hlength]

/-! ## Replacing -/

theorem replaceUnpairedSurrogates_eq (content : List UInt16) :
    replaceUnpairedSurrogates content = units (scalars content) := by
  fun_induction replaceUnpairedSurrogates content with
  | case1 => rfl
  | case2 code hhi next rest hlo ih =>
    rw [ih, scalars_pair hhi hlo, units_cons, unitsOf_pair hhi hlo]
    rfl
  | case3 code hhi next rest hlo ih =>
    have hhead : ∀ v, (next :: rest).head? = some v → isLow v = false := by
      rintro v ⟨⟩
      exact Bool.eq_false_iff.mpr hlo
    rw [ih, scalars_high hhi hhead, units_cons, unitsOf_replacement]
    rfl
  | case4 code hhi =>
    have hhead : ∀ v, ([] : List UInt16).head? = some v → isLow v = false :=
      fun v hv => nomatch hv
    rw [scalars_high hhi hhead, units_cons, unitsOf_replacement]
    rfl
  | case5 code rest hhi hlo ih =>
    rw [ih, scalars_low hlo, units_cons, unitsOf_replacement]
    rfl
  | case6 code rest hhi hlo ih =>
    have hhi' := Bool.eq_false_iff.mpr hhi
    have hlo' := Bool.eq_false_iff.mpr hlo
    rw [ih, scalars_plain hhi' hlo', units_cons, unitsOf_plain hhi' hlo']
    rfl

/-! ## The last character -/

/-- What the body of the loop finds before `i`, where the units from `i` on
are `after`. -/
structure EndingCharacter.Ends (character : EndingCharacter) (before after : List UInt16) :
    Prop where
  split : before.reverse = character.before.reverse ++ character.units
  cut : Cut character.before.reverse (character.units ++ after)
  scalar : ∃ c, scalars (character.units ++ after) = c :: scalars after ∧
    c.utf8Size = character.characterBytes ∧
    (character.unpairedSurrogate = false → unitsOf c = character.units)

theorem endingCharacter_ends {before after : List UInt16} (h : Cut (code :: before).reverse after) :
    (endingCharacter code before).Ends (code :: before) after := by
  rw [List.reverse_cons] at h
  cases hlo : isLow code with
  | true =>
    have hscalar : scalars ([code] ++ after) = '\uFFFD' :: scalars after := scalars_low hlo after
    cases before with
    | nil =>
      have hself : endingCharacter code [] = ⟨[code], 3, true, []⟩ := if_pos hlo
      rw [hself]
      exact ⟨rfl, Cut.nil_left _, _, hscalar, utf8Size_replacement, nofun⟩
    | cons previous earlier =>
      cases hprevious : isHigh previous with
      | true =>
        have hself : endingCharacter code (previous :: earlier) =
            ⟨[previous, code], 4, false, earlier⟩ := (if_pos hlo).trans (if_pos hprevious)
        rw [hself]
        refine ⟨?_, ?_, _, scalars_pair hprevious hlo after, utf8Size_pair hprevious hlo,
          fun _ => unitsOf_pair hprevious hlo⟩
        · rw [List.reverse_cons, List.reverse_cons, List.append_assoc]
          rfl
        · rintro u v - ⟨⟩ -
          exact isLow_of_isHigh hprevious
      | false =>
        have hself : endingCharacter code (previous :: earlier) =
            ⟨[code], 3, true, previous :: earlier⟩ :=
          (if_pos hlo).trans (if_neg (Bool.eq_false_iff.mp hprevious))
        rw [hself]
        refine ⟨List.reverse_cons, ?_, _, hscalar, utf8Size_replacement, nofun⟩
        intro u v hu _ hhi
        rw [List.getLast?_reverse] at hu
        obtain rfl := Option.some.inj hu
        rw [hprevious] at hhi
        cases hhi
  | false =>
    have hcut : Cut before.reverse ([code] ++ after) := by
      rintro u v - ⟨⟩ -
      exact hlo
    cases hhi : isHigh code with
    | true =>
      have hself : endingCharacter code before = ⟨[code], 3, true, before⟩ := by
        rw [endingCharacter.eq_def, hlo, hhi]
        rfl
      rw [hself]
      refine ⟨List.reverse_cons, hcut, '\uFFFD', ?_, utf8Size_replacement, nofun⟩
      exact scalars_high hhi fun v hv => h code v List.getLast?_concat hv hhi
    | false =>
      have hself : endingCharacter code before = ⟨[code], unitBytes code, false, before⟩ := by
        rw [endingCharacter.eq_def, hlo, hhi]
        rfl
      rw [hself]
      exact ⟨List.reverse_cons, hcut, _, scalars_plain hhi hlo after, utf8Size_plain hhi hlo,
        fun _ => unitsOf_plain hhi hlo⟩

/-! ## Cutting is cutting the bytes -/

/-- The loop has passed `output`, which fits. -/
structure Passed (maxBytes : Nat) (before : List UInt16) (outputBytes : Nat)
    (output : List UInt16) (needsReplacement : Bool) : Prop where
  cut : Cut before.reverse output
  bytes : byteLength (scalars output) = outputBytes
  fits : outputBytes ≤ maxBytes
  paired : needsReplacement = false → units (scalars output) = output

variable {needsReplacement : Bool} {outputBytes : Nat}

theorem Passed.next {maxBytes : Nat} {before output : List UInt16}
    (h : Passed maxBytes (code :: before) outputBytes output needsReplacement)
    (hfits : outputBytes + (endingCharacter code before).characterBytes ≤ maxBytes) :
    Passed maxBytes (endingCharacter code before).before
      (outputBytes + (endingCharacter code before).characterBytes)
      ((endingCharacter code before).units ++ output)
      (needsReplacement || (endingCharacter code before).unpairedSurrogate) := by
  have hends := endingCharacter_ends h.cut
  obtain ⟨c, hscalars, hsize, hunits⟩ := hends.scalar
  refine ⟨hends.cut, ?_, hfits, fun hneeds => ?_⟩
  · rw [hscalars, byteLength_cons, h.bytes, hsize, Nat.add_comm]
  · obtain ⟨hbefore, hpaired⟩ := Bool.or_eq_false_iff.mp hneeds
    rw [hscalars, units_cons, hunits hpaired, h.paired hbefore]

theorem truncationLoop_stop {maxBytes : Int} {before output : List UInt16}
    (h : (outputBytes + (endingCharacter code before).characterBytes : Int) > maxBytes) :
    truncationLoop maxBytes (code :: before) outputBytes output needsReplacement =
      (output, needsReplacement) := by
  rw [truncationLoop]
  exact if_pos h

theorem truncationLoop_next {maxBytes : Int} {before output : List UInt16}
    (h : ¬ (outputBytes + (endingCharacter code before).characterBytes : Int) > maxBytes) :
    truncationLoop maxBytes (code :: before) outputBytes output needsReplacement =
      truncationLoop maxBytes (endingCharacter code before).before
        (outputBytes + (endingCharacter code before).characterBytes)
        ((endingCharacter code before).units ++ output)
        (needsReplacement || (endingCharacter code before).unpairedSurrogate) := by
  rw [truncationLoop]
  exact if_neg h

/-- The loop ends at the longest end that fits. -/
theorem truncationLoop_eq {maxBytes : Nat} {before output : List UInt16}
    (h : Passed maxBytes before outputBytes output needsReplacement)
    (hlong : maxBytes < byteLength (scalars (before.reverse ++ output))) :
    let (output', needs) := truncationLoop maxBytes before outputBytes output needsReplacement
    scalars output' = fit maxBytes (scalars (before.reverse ++ output)) ∧
      (needs = false → units (scalars output') = output') := by
  induction hn : before.length using Nat.strongRecOn generalizing before output outputBytes
    needsReplacement with
  | _ n ih =>
    subst hn
    cases before with
    | nil =>
      have hbytes := h.bytes
      have hfits := h.fits
      rw [List.reverse_nil, List.nil_append] at hlong
      omega
    | cons code before =>
      have hends := endingCharacter_ends h.cut
      rw [hends.split, List.append_assoc] at hlong ⊢
      by_cases hover : outputBytes + (endingCharacter code before).characterBytes ≤ maxBytes
      · rw [truncationLoop_next (by omega)]
        exact ih _ (Nat.lt_succ_of_le (endingCharacter_before code before))
          (h.next hover) hlong rfl
      · -- the character does not fit
        obtain ⟨c, hscalars, hsize, -⟩ := hends.scalar
        have hbytes : byteLength (c :: scalars output) = outputBytes +
            (endingCharacter code before).characterBytes := by
          rw [byteLength_cons, h.bytes, hsize, Nat.add_comm]
        rw [truncationLoop_stop (by omega), scalars_append hends.cut, hscalars,
          fit_append _ (by omega), fit, if_neg (by omega), fit_of_le (h.bytes ▸ h.fits)]
        exact ⟨rfl, h.paired⟩

theorem truncateStringToBytesFromEnd_fit {str : List UInt16} {maxBytes : Nat} (hpos : 0 < maxBytes)
    (h : maxBytes < byteLength (scalars str)) :
    truncateStringToBytesFromEnd str maxBytes = units (fit maxBytes (scalars str)) := by
  have hstart : Passed maxBytes str.reverse 0 [] false :=
    ⟨Cut.nil_right _, rfl, Nat.zero_le _, fun _ => rfl⟩
  have hstr : str.reverse.reverse ++ [] = str := by rw [List.reverse_reverse, List.append_nil]
  have hloop := truncationLoop_eq hstart (by rwa [hstr])
  rw [hstr] at hloop
  rw [truncateStringToBytesFromEnd, if_neg (by omega)]
  rcases hrun : truncationLoop maxBytes str.reverse 0 [] false with ⟨output, needsReplacement⟩
  rw [hrun] at hloop
  obtain ⟨hfit, hpaired⟩ := hloop
  cases needsReplacement with
  | true => exact (replaceUnpairedSurrogates_eq output).trans (congrArg units hfit)
  | false => exact (hpaired rfl).symm.trans (congrArg units hfit)

end Harness

theorem CodingAgent.truncateStringToBytesFromEnd_fit {str : List UInt16} {maxBytes : Nat}
    (h : maxBytes < byteLength (scalars str)) :
    truncateStringToBytesFromEnd str maxBytes = some (units (fit maxBytes (scalars str))) := by
  have hstart : ((utf8Bytes str).length - maxBytes : Int).toNat =
      byteLength (scalars str) - maxBytes := by
    rw [utf8Bytes, ← byteLength]
    omega
  have hlong : ¬ ((utf8Bytes str).length : Int) ≤ maxBytes := by
    rw [utf8Bytes, ← byteLength]
    omega
  have hdrop := drop_align h
  rw [truncateStringToBytesFromEnd, if_neg hlong, hstart, utf8Bytes]
  dsimp only
  rw [hdrop, decode_encode]
  rfl

theorem CodingAgent.truncateStringToBytesFromEnd_nonpos {str : List UInt16} {maxBytes : Int}
    (hpos : maxBytes ≤ 0) (h : maxBytes < (utf8Bytes str).length) :
    truncateStringToBytesFromEnd str maxBytes = some [] := by
  have hdrop : (utf8Bytes str).drop (align (utf8Bytes str)
      ((utf8Bytes str).length - maxBytes).toNat) = [] := by
    rw [List.drop_eq_nil_iff, align]
    omega
  rw [truncateStringToBytesFromEnd, if_neg (Int.not_le.mpr h)]
  dsimp only
  rw [hdrop]
  exact congrArg (Option.map units) (decode_encode [])

namespace Harness

/-- Counting gives the encoded length, and below it the end is the one that
is cut from the bytes. -/
theorem utf8_arithmetic (str : List UInt16) :
    utf8ByteLength str = (utf8Bytes str).length ∧
      ∀ maxBytes : Int, maxBytes < (utf8Bytes str).length →
        CodingAgent.truncateStringToBytesFromEnd str maxBytes =
          some (truncateStringToBytesFromEnd str maxBytes) := by
  refine ⟨utf8ByteLength_eq str, fun maxBytes h => ?_⟩
  by_cases hpos : maxBytes ≤ 0
  · rw [CodingAgent.truncateStringToBytesFromEnd_nonpos hpos h, truncateStringToBytesFromEnd,
      if_pos hpos]
  · obtain ⟨n, rfl⟩ := Int.eq_ofNat_of_zero_le (Int.le_of_lt (Int.not_le.mp hpos))
    have hlong : n < byteLength (scalars str) := Int.ofNat_lt.mp h
    rw [CodingAgent.truncateStringToBytesFromEnd_fit hlong,
      truncateStringToBytesFromEnd_fit (by omega) hlong]

/-- A pair and a lone surrogate; only the lone one fits. -/
theorem utf8_arithmetic_pair :
    (5 : Int) < (utf8Bytes [0x61, 0xd83d, 0xde00, 0xdc00]).length ∧
      CodingAgent.truncateStringToBytesFromEnd [0x61, 0xd83d, 0xde00, 0xdc00] 5 =
        some (truncateStringToBytesFromEnd [0x61, 0xd83d, 0xde00, 0xdc00] 5) :=
  ⟨by decide, (utf8_arithmetic _).2 5 (by decide)⟩

end Harness

end Eagent
