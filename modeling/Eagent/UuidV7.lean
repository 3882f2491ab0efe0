import Mathlib.Algebra.GroupWithZero.Nat
import Mathlib.Data.List.Basic

/-!
# Version 7 UUIDs

`uuidv7` takes its timestamp from the clock when the clock has gone on, and
counts a 32-bit sequence otherwise; the sequence carries into the timestamp.
Together they are one number, which every call increases.
-/

namespace Eagent

namespace Uuid

/-- `lastTimestamp` and `sequence`; `none` is `-Infinity`. -/
structure State where
  lastTimestamp : Option Nat := none
  sequence : Nat := 0
deriving DecidableEq

/-- What a call reads: `Date.now()` and sixteen random bytes. -/
structure Call where
  now : Nat
  random : Fin 16 → UInt8

def Call.byte (c : Call) (i : Fin 16) : Nat := (c.random i).toNat

/-- The first half of `uuidv7`. -/
def State.next (s : State) (c : Call) : State :=
  match s.lastTimestamp with
  | none => seeded
  | some lastTimestamp =>
      if c.now > lastTimestamp then seeded
      else
        let sequence := (s.sequence + 1) % 2 ^ 32
        ⟨some (if sequence = 0 then lastTimestamp + 1 else lastTimestamp), sequence⟩
where
  seeded : State :=
    ⟨some c.now, c.byte 6 * 0x1000000 + c.byte 7 * 0x10000 + c.byte 8 * 0x100 + c.byte 9⟩

def uuidBytes (lastTimestamp sequence : Nat) (c : Call) : List Nat := [
  (lastTimestamp / 0x10000000000) &&& 0xff,
  (lastTimestamp / 0x100000000) &&& 0xff,
  (lastTimestamp / 0x1000000) &&& 0xff,
  (lastTimestamp / 0x10000) &&& 0xff,
  (lastTimestamp / 0x100) &&& 0xff,
  lastTimestamp &&& 0xff,
  0x70 ||| ((sequence >>> 28) &&& 0x0f),
  (sequence >>> 20) &&& 0xff,
  0x80 ||| ((sequence >>> 14) &&& 0x3f),
  (sequence >>> 6) &&& 0xff,
  ((sequence &&& 0x3f) <<< 2) ||| (c.byte 10 &&& 0x03),
  c.byte 11,
  c.byte 12,
  c.byte 13,
  c.byte 14,
  c.byte 15]

/-- `byte.toString(16).padStart(2, "0")` -/
def hexByte (byte : Nat) : List Char :=
  let digits := Nat.toDigits 16 byte
  List.replicate (2 - digits.length) '0' ++ digits

def formatUuid (bytes : List Nat) : String :=
  let hex := bytes.map hexByte
  let slice (i j : Nat) : List Char := ((hex.take j).drop i).flatten
  String.ofList (slice 0 4 ++ '-' :: slice 4 6 ++ '-' :: slice 6 8 ++ '-' :: slice 8 10 ++
    '-' :: slice 10 16)

def uuidv7 (s : State) (c : Call) : State × String :=
  let s := s.next c
  (s, formatUuid (uuidBytes (s.lastTimestamp.getD 0) s.sequence c))

def run : State → List Call → List (State × String)
  | _, [] => []
  | s, c :: calls => uuidv7 s c :: run (uuidv7 s c).1 calls

/-! ## The state as one number -/

namespace State

variable {s : State} {c : Call}

def Valid (s : State) : Prop := s.sequence < 2 ^ 32

def value (s : State) : Nat := s.lastTimestamp.getD 0 * 2 ^ 32 + s.sequence

theorem seeded_sequence_lt (c : Call) :
    c.byte 6 * 0x1000000 + c.byte 7 * 0x10000 + c.byte 8 * 0x100 + c.byte 9 < 2 ^ 32 := by
  have hbyte (i : Fin 16) : c.byte i < 256 := (c.random i).toNat_lt
  have h6 := hbyte 6
  have h7 := hbyte 7
  have h8 := hbyte 8
  have h9 := hbyte 9
  omega

theorem next_valid (s : State) (c : Call) : (s.next c).Valid := by
  unfold next
  split
  · exact seeded_sequence_lt c
  · split
    · exact seeded_sequence_lt c
    · exact Nat.mod_lt _ (by decide)

/-- A call with the clock ahead, or the first, takes the clock's time. -/
theorem next_value_seeded (h : ∀ t, s.lastTimestamp = some t → t < c.now) :
    c.now * 2 ^ 32 ≤ (s.next c).value ∧ (s.next c).value < (c.now + 1) * 2 ^ 32 := by
  have hseed := seeded_sequence_lt c
  have hnext : s.next c = next.seeded c := by
    unfold next
    split
    · rfl
    · rename_i t ht
      exact if_pos (h t ht)
  rw [hnext]
  simp only [value, next.seeded, Option.getD_some]
  omega

/-- Any other call adds one. -/
theorem next_value_counted {t : Nat} (hs : s.Valid) (ht : s.lastTimestamp = some t)
    (h : c.now ≤ t) : (s.next c).value = s.value + 1 := by
  unfold Valid at hs
  unfold next
  rw [ht]
  dsimp only
  rw [if_neg (Nat.not_lt.mpr h)]
  simp only [value, ht, Option.getD_some]
  split
  · omega
  · omega

theorem next_isSome (s : State) (c : Call) : (s.next c).lastTimestamp.isSome = true := by
  unfold next
  split
  · rfl
  · split <;> rfl

/-- Every call after the first increases the number. -/
theorem value_lt_next (hs : s.Valid) (hsome : s.lastTimestamp.isSome = true) :
    s.value < (s.next c).value := by
  obtain ⟨t, ht⟩ := Option.isSome_iff_exists.mp hsome
  rcases Nat.lt_or_ge t c.now with hlt | hge
  · have hnext := (next_value_seeded (s := s) (c := c) fun t' ht' => by
      obtain rfl := Option.some.inj (ht.symm.trans ht')
      exact hlt).1
    unfold Valid at hs
    have hvalue : s.value = t * 2 ^ 32 + s.sequence := by rw [value, ht, Option.getD_some]
    omega
  · rw [next_value_counted hs ht hge]
    exact Nat.lt_succ_self _

/-- With the clock at 2 ^ 47 at most, the number grows by one at most, or
stays below what such a clock seeds. -/
theorem next_value_le (hs : s.Valid) (hc : c.now ≤ 2 ^ 47) :
    (s.next c).value < (2 ^ 47 + 1) * 2 ^ 32 ∨
      s.lastTimestamp.isSome = true ∧ (s.next c).value = s.value + 1 := by
  by_cases hahead : ∀ t, s.lastTimestamp = some t → t < c.now
  · have hnext := (next_value_seeded hahead).2
    omega
  · simp only [not_forall, Nat.not_lt] at hahead
    obtain ⟨t, ht, hge⟩ := hahead
    exact .inr ⟨by rw [ht]; rfl, next_value_counted hs ht hge⟩

end State

/-! ## The bytes in order -/

theorem and_ff (x : Nat) : x &&& 0xff = x % 256 := Nat.and_two_pow_sub_one_eq_mod x 8

theorem uuidBytes_eq (lastTimestamp sequence : Nat) (c : Call) :
    uuidBytes lastTimestamp sequence c = [
      0 + lastTimestamp / 2 ^ 40 % 256, 0 + lastTimestamp / 2 ^ 32 % 256,
      0 + lastTimestamp / 2 ^ 24 % 256, 0 + lastTimestamp / 2 ^ 16 % 256,
      0 + lastTimestamp / 2 ^ 8 % 256, 0 + lastTimestamp / 1 % 256,
      0x70 + sequence / 2 ^ 28 % 16, 0 + sequence / 2 ^ 20 % 256,
      0x80 + sequence / 2 ^ 14 % 64, 0 + sequence / 2 ^ 6 % 256,
      4 * (sequence / 1 % 64) + c.byte 10 % 4, c.byte 11, c.byte 12, c.byte 13, c.byte 14,
      c.byte 15] := by
  have h70 (x : Nat) : 0x70 ||| (x &&& 0x0f) = 0x70 + x % 16 := by
    rw [show x &&& 0x0f = x % 16 from Nat.and_two_pow_sub_one_eq_mod x 4]
    exact (Nat.two_pow_add_eq_or_of_lt (i := 4) (Nat.mod_lt x (by decide)) 7).symm
  have h80 (x : Nat) : 0x80 ||| (x &&& 0x3f) = 0x80 + x % 64 := by
    rw [show x &&& 0x3f = x % 64 from Nat.and_two_pow_sub_one_eq_mod x 6]
    exact (Nat.two_pow_add_eq_or_of_lt (i := 6) (Nat.mod_lt x (by decide)) 2).symm
  have hlow (x y : Nat) : ((x &&& 0x3f) <<< 2) ||| (y &&& 0x03) = 4 * (x % 64) + y % 4 := by
    rw [show x &&& 0x3f = x % 64 from Nat.and_two_pow_sub_one_eq_mod x 6,
      show y &&& 0x03 = y % 4 from Nat.and_two_pow_sub_one_eq_mod y 2, Nat.shiftLeft_eq,
      Nat.mul_comm]
    exact (Nat.two_pow_add_eq_or_of_lt (i := 2) (Nat.mod_lt y (by decide)) _).symm
  simp only [uuidBytes, and_ff, h70, h80, hlow, Nat.shiftRight_eq_div_pow, Nat.zero_add,
    Nat.div_one, Nat.reducePow]

/-- Where all higher digits agree, the next digit decides, or it agrees too
and the rest decides. -/
theorem digit_lt {n m K d k : Nat} {x y : List Nat} (h : n ≤ m) (hq : n / (K * d) = m / (K * d))
    (hrest : n / K = m / K → x < y) :
    (k + n / K % d) :: x < (k + m / K % d) :: y := by
  rw [← Nat.div_div_eq_div_mul, ← Nat.div_div_eq_div_mul] at hq
  have hn := Nat.div_add_mod (n / K) d
  have hm := Nat.div_add_mod (m / K) d
  rw [hq] at hn
  rw [List.cons_lt_cons_iff]
  rcases Nat.lt_or_eq_of_le (Nat.div_le_div_right (c := K) h) with hlt | heq
  · exact .inl (by omega)
  · exact .inr ⟨by rw [heq], hrest heq⟩

/-- The bytes of a larger number are larger, whatever the random ones. -/
theorem uuidBytes_lt {t t' q q' : Nat} (c c' : Call) (ht' : t' < 2 ^ 48) (hq' : q' < 2 ^ 32)
    (hle : t ≤ t') (hq : t = t' → q < q') : uuidBytes t q c < uuidBytes t' q' c' := by
  rw [uuidBytes_eq, uuidBytes_eq]
  have htop : t / (2 ^ 40 * 256) = t' / (2 ^ 40 * 256) := by omega
  refine digit_lt hle htop fun h40 => digit_lt hle h40 fun h32 =>
    digit_lt hle h32 fun h24 => digit_lt hle h24 fun h16 =>
    digit_lt hle h16 fun h8 => digit_lt hle h8 fun h0 => ?_
  have hlt := hq (by simpa using h0)
  have hle := Nat.le_of_lt hlt
  have htop : q / (2 ^ 28 * 16) = q' / (2 ^ 28 * 16) := by omega
  refine digit_lt hle htop fun h28 => digit_lt hle h28 fun h20 =>
    digit_lt hle h20 fun h14 => digit_lt hle h14 fun h6 => ?_
  rw [List.cons_lt_cons_iff]
  left
  have hmod : q / 1 % 64 < q' / 1 % 64 := by omega
  omega

/-! ## Hexadecimal digits -/

theorem hexByte_eq {b : Nat} (h : b < 256) :
    hexByte b = [Nat.digitChar (b / 16), Nat.digitChar (b % 16)] := by
  have hall : ∀ b < 256, hexByte b = [Nat.digitChar (b / 16), Nat.digitChar (b % 16)] := by
    decide +kernel
  exact hall b h

theorem digitChar_lt {i j : Nat} (hj : j < 16) (h : i < j) : Nat.digitChar i < Nat.digitChar j := by
  have hall : ∀ j < 16, ∀ i < j, Nat.digitChar i < Nat.digitChar j := by decide
  exact hall j hj i h

/-- The digits of two bytes, and what follows, in the order of the bytes. -/
theorem hexByte_append_lt {a b : Nat} {x y : List Char} (ha : a < 256) (hb : b < 256)
    (h : a < b ∨ a = b ∧ x < y) : hexByte a ++ x < hexByte b ++ y := by
  rw [hexByte_eq ha, hexByte_eq hb]
  rcases h with hlt | ⟨rfl, hxy⟩
  · simp only [List.cons_append, List.nil_append, List.cons_lt_cons_iff]
    rcases Nat.lt_or_ge (a / 16) (b / 16) with hhigh | hhigh
    · exact .inl (digitChar_lt (by omega) hhigh)
    · have heq : a / 16 = b / 16 := by omega
      exact .inr ⟨by rw [heq], .inl (digitChar_lt (Nat.mod_lt b (by decide)) (by omega))⟩
  · simp only [List.cons_append, List.nil_append, List.cons_lt_cons_iff]
    exact .inr ⟨trivial, .inr ⟨trivial, hxy⟩⟩

def formatFrom (separator : Nat → List Char) : Nat → List Nat → List Char
  | _, [] => []
  | i, b :: bytes => separator i ++ (hexByte b ++ formatFrom separator (i + 1) bytes)

/-- The dashes of `formatUuid`. -/
def dashes (i : Nat) : List Char := if i ∈ [4, 6, 8, 10] then ['-'] else []

theorem formatFrom_lt {separator : Nat → List Char} {as bs : List Nat} {i : Nat}
    (ha : ∀ a ∈ as, a < 256) (hb : ∀ b ∈ bs, b < 256) (hlen : as.length = bs.length)
    (h : as < bs) : formatFrom separator i as < formatFrom separator i bs := by
  have hsep {x y : List Char} (l : List Char) (hxy : x < y) : l ++ x < l ++ y := by
    induction l with
    | nil => exact hxy
    | cons c l ih => exact List.cons_lt_cons_iff.mpr (.inr ⟨rfl, ih⟩)
  induction as generalizing bs i with
  | nil =>
    cases bs with
    | nil => exact absurd h (by simp)
    | cons b bs => cases hlen
  | cons a as ih =>
    cases bs with
    | nil => cases hlen
    | cons b bs =>
      rw [formatFrom, formatFrom]
      refine hsep _ (hexByte_append_lt (ha a List.mem_cons_self) (hb b List.mem_cons_self) ?_)
      refine (List.cons_lt_cons_iff.mp h).imp_right fun hrest => ⟨hrest.1, ?_⟩
      exact ih (fun a ha' => ha a (List.mem_cons_of_mem _ ha'))
        (fun b hb' => hb b (List.mem_cons_of_mem _ hb')) (Nat.succ.inj hlen) hrest.2

variable {bytes : List Nat}

theorem formatUuid_eq (h : bytes.length = 16) :
    formatUuid bytes = String.ofList (formatFrom dashes 0 bytes) := by
  match bytes, h with
  | [b0, b1, b2, b3, b4, b5, b6, b7, b8, b9, b10, b11, b12, b13, b14, b15], _ =>
    simp [formatUuid, formatFrom, dashes]

theorem length_uuidBytes (t q : Nat) (c : Call) : (uuidBytes t q c).length = 16 := rfl

theorem uuidBytes_lt_256 (t q : Nat) (c : Call) : ∀ b ∈ uuidBytes t q c, b < 256 := by
  have hbyte (i : Fin 16) : c.byte i < 256 := (c.random i).toNat_lt
  rw [uuidBytes_eq]
  simp only [List.forall_mem_cons]
  refine ⟨?_, ?_, ?_, ?_, ?_, ?_, ?_, ?_, ?_, ?_, ?_, hbyte 11, hbyte 12, hbyte 13, hbyte 14,
    hbyte 15, nofun⟩ <;> omega

/-! ## The layout -/

def hexValue (c : Char) : Nat :=
  if c.isDigit then c.toNat - '0'.toNat else c.toNat - 'a'.toNat + 10

/-- The number whose hexadecimal digits a text has, dashes aside. -/
def uuidNumber (text : String) : Nat :=
  (text.toList.filter (· ≠ '-')).foldl (fun n c => 16 * n + hexValue c) 0

/-- The version 7 layout: 48 bits of time, the version, 12 bits, the variant,
62 bits. -/
structure Layout where
  timestamp : Nat
  version : Nat
  randA : Nat
  variant : Nat
  randB : Nat

def layout (text : String) : Layout where
  timestamp := uuidNumber text / 2 ^ 80
  version := uuidNumber text / 2 ^ 76 % 2 ^ 4
  randA := uuidNumber text / 2 ^ 64 % 2 ^ 12
  variant := uuidNumber text / 2 ^ 62 % 2 ^ 2
  randB := uuidNumber text % 2 ^ 62

/-- The text says the timestamp and, in the 12 bits and the first 20 of the
62, the sequence. -/
structure Encodes (text : String) (s : State) : Prop where
  timestamp : s.lastTimestamp = some (layout text).timestamp
  version : (layout text).version = 7
  variant : (layout text).variant = 2
  sequence : (layout text).randA * 2 ^ 20 + (layout text).randB / 2 ^ 42 = s.sequence

theorem foldl_hexByte {b : Nat} (h : b < 256) (n : Nat) :
    ((hexByte b).filter (· ≠ '-')).foldl (fun n c => 16 * n + hexValue c) n = 256 * n + b := by
  have hvalue : ∀ i < 16, hexValue (Nat.digitChar i) = i ∧ Nat.digitChar i ≠ '-' := by decide
  obtain ⟨hhigh, hhigh'⟩ := hvalue (b / 16) (by omega)
  obtain ⟨hlow, hlow'⟩ := hvalue (b % 16) (Nat.mod_lt b (by decide))
  rw [hexByte_eq h]
  simp only [ne_eq, hhigh', hlow', not_false_eq_true, decide_true, List.filter_cons_of_pos,
    List.filter_nil, List.foldl_cons, List.foldl_nil, hhigh, hlow]
  omega

theorem foldl_formatFrom (h : ∀ b ∈ bytes, b < 256) (i n : Nat) :
    ((formatFrom dashes i bytes).filter (· ≠ '-')).foldl (fun n c => 16 * n + hexValue c) n =
      bytes.foldl (fun n b => 256 * n + b) n := by
  induction bytes generalizing i n with
  | nil => rfl
  | cons b bytes ih =>
    have hdash : (dashes i).filter (· ≠ '-') = [] := by
      unfold dashes
      split
      · rfl
      · rfl
    rw [formatFrom, List.filter_append, List.filter_append, List.foldl_append, List.foldl_append,
      hdash, List.foldl_nil, foldl_hexByte (h b List.mem_cons_self), List.foldl_cons]
    exact ih (fun b' hb => h b' (List.mem_cons_of_mem _ hb)) _ _

theorem uuidNumber_formatUuid (hlen : bytes.length = 16) (h : ∀ b ∈ bytes, b < 256) :
    uuidNumber (formatUuid bytes) = bytes.foldl (fun n b => 256 * n + b) 0 := by
  rw [uuidNumber, formatUuid_eq hlen, String.toList_ofList]
  exact foldl_formatFrom h 0 0

/-- The number, field by field; the last one has the low bits of the sequence
and the random bits. -/
theorem uuidNumber_eq {t q : Nat} (c : Call) (ht : t < 2 ^ 48) (hq : q < 2 ^ 32) :
    ∃ random < 2 ^ 42, uuidNumber (formatUuid (uuidBytes t q c)) =
      (((t * 2 ^ 4 + 7) * 2 ^ 12 + q / 2 ^ 20) * 2 ^ 2 + 2) * 2 ^ 62 + q % 2 ^ 20 * 2 ^ 42 +
        random := by
  have hbytes := uuidBytes_lt_256 t q c
  rw [uuidNumber_formatUuid (length_uuidBytes t q c) hbytes]
  rw [uuidBytes_eq]
  have h11 : c.byte 11 < 256 := (c.random 11).toNat_lt
  have h12 : c.byte 12 < 256 := (c.random 12).toNat_lt
  have h13 : c.byte 13 < 256 := (c.random 13).toNat_lt
  have h14 : c.byte 14 < 256 := (c.random 14).toNat_lt
  have h15 : c.byte 15 < 256 := (c.random 15).toNat_lt
  refine ⟨((((c.byte 10 % 4 * 256 + c.byte 11) * 256 + c.byte 12) * 256 + c.byte 13) * 256 +
    c.byte 14) * 256 + c.byte 15, by omega, ?_⟩
  simp only [List.foldl_cons, List.foldl_nil]
  have htime : 256 * (256 * (256 * (256 * (256 * (256 * 0 + (0 + t / 2 ^ 40 % 256)) +
      (0 + t / 2 ^ 32 % 256)) + (0 + t / 2 ^ 24 % 256)) + (0 + t / 2 ^ 16 % 256)) +
      (0 + t / 2 ^ 8 % 256)) + (0 + t / 1 % 256) = t := by
    omega
  rw [htime]
  have hhigh : q / 2 ^ 28 % 16 * 256 + q / 2 ^ 20 % 256 = q / 2 ^ 20 := by omega
  have hlow : (q / 2 ^ 14 % 64 * 256 + q / 2 ^ 6 % 256) * 64 + q / 1 % 64 = q % 2 ^ 20 := by omega
  generalize q / 2 ^ 28 % 16 = a at hhigh ⊢
  generalize q / 2 ^ 20 % 256 = b at hhigh ⊢
  generalize q / 2 ^ 14 % 64 = d at hlow ⊢
  generalize q / 2 ^ 6 % 256 = e at hlow ⊢
  generalize q / 1 % 64 = f at hlow ⊢
  generalize q / 2 ^ 20 = high at hhigh ⊢
  generalize q % 2 ^ 20 = low at hlow ⊢
  omega

theorem fields_eq {n t a b r : Nat} (ha : a < 2 ^ 12) (hb : b < 2 ^ 20) (hr : r < 2 ^ 42)
    (hn : n = (((t * 2 ^ 4 + 7) * 2 ^ 12 + a) * 2 ^ 2 + 2) * 2 ^ 62 + b * 2 ^ 42 + r) :
    n / 2 ^ 80 = t ∧ n / 2 ^ 76 % 2 ^ 4 = 7 ∧ n / 2 ^ 62 % 2 ^ 2 = 2 ∧ n / 2 ^ 64 % 2 ^ 12 = a ∧
      n % 2 ^ 62 / 2 ^ 42 = b := by
  refine ⟨?_, ?_, ?_, ?_, ?_⟩ <;> omega

variable {s : State}

/-- The text of a state within 48 bits of time. -/
theorem encodes_uuidv7 {c : Call} {t : Nat} (hs : s.Valid) (ht : s.lastTimestamp = some t)
    (hlt : t < 2 ^ 48) :
    Encodes (formatUuid (uuidBytes t s.sequence c)) s := by
  obtain ⟨random, hrandom, hnumber⟩ := uuidNumber_eq c hlt hs
  have hhigh : s.sequence / 2 ^ 20 < 2 ^ 12 := by
    unfold State.Valid at hs
    omega
  obtain ⟨htime, hversion, hvariant, hrandA, hrandB⟩ :=
    fields_eq hhigh (Nat.mod_lt _ (by decide)) hrandom hnumber
  refine ⟨?_, hversion, hvariant, ?_⟩
  · rw [ht]
    exact congrArg some htime.symm
  · simp only [layout, hrandA, hrandB]
    omega

/-! ## Every sequence of calls -/

theorem getD_lt_of_value (h : s.value < 2 ^ 80) : s.lastTimestamp.getD 0 < 2 ^ 48 := by
  unfold State.value at h
  omega

/-- A larger number has a larger text. -/
theorem formatUuid_lt {s s' : State} (c c' : Call) (hs : s.Valid) (hs' : s'.Valid)
    (hbound : s'.value < 2 ^ 80) (h : s.value < s'.value) :
    formatUuid (uuidBytes (s.lastTimestamp.getD 0) s.sequence c) <
      formatUuid (uuidBytes (s'.lastTimestamp.getD 0) s'.sequence c') := by
  have ht' := getD_lt_of_value hbound
  unfold State.value at h
  unfold State.Valid at hs hs'
  have hlex : uuidBytes (s.lastTimestamp.getD 0) s.sequence c <
      uuidBytes (s'.lastTimestamp.getD 0) s'.sequence c' :=
    uuidBytes_lt c c' ht' hs' (by omega) (by omega)
  rw [formatUuid_eq (length_uuidBytes ..), formatUuid_eq (length_uuidBytes ..), String.lt_iff,
    String.toList_ofList, String.toList_ofList]
  exact formatFrom_lt (uuidBytes_lt_256 _ _ c) (uuidBytes_lt_256 _ _ c') rfl hlex

/-- What the calls return increases, and each text says the state its call
leaves. -/
structure Issues (calls : List Call) : Prop where
  increases : ((run {} calls).map Prod.snd).Pairwise (· < ·)
  encodes : ∀ x ∈ run {} calls, Encodes x.2 x.1

theorem run_grows {calls : List Call} (hs : s.Valid) (hnow : ∀ c ∈ calls, c.now ≤ 2 ^ 47)
    (hvalue : s.lastTimestamp.isSome = true → s.value + calls.length < 2 ^ 80)
    (hlen : (2 ^ 47 + 1) * 2 ^ 32 + calls.length ≤ 2 ^ 80 + 1) :
    ((run s calls).map Prod.snd).Pairwise (· < ·) ∧
      ∀ x ∈ run s calls, Encodes x.2 x.1 ∧ x.1.Valid ∧ x.1.value < 2 ^ 80 ∧
        (s.lastTimestamp.isSome = true → s.value < x.1.value) ∧
        ∃ c, x.2 = formatUuid (uuidBytes (x.1.lastTimestamp.getD 0) x.1.sequence c) := by
  induction calls generalizing s with
  | nil => exact ⟨.nil, nofun⟩
  | cons c calls ih =>
    have hvalid := State.next_valid s c
    have hsome := State.next_isSome s c
    rw [List.length_cons] at hvalue hlen
    have hnext : (s.next c).value + calls.length < 2 ^ 80 := by
      rcases State.next_value_le hs (hnow c List.mem_cons_self) with hseed | ⟨hstarted, hcount⟩
      · omega
      · have := hvalue hstarted
        omega
    have hgrows (hstarted : s.lastTimestamp.isSome = true) : s.value < (s.next c).value :=
      State.value_lt_next hs hstarted
    obtain ⟨hpair, hrest⟩ := ih hvalid (fun c' hc => hnow c' (List.mem_cons_of_mem c hc))
      (fun _ => hnext) (by omega)
    refine ⟨?_, ?_⟩
    · rw [run, List.map_cons, List.pairwise_cons]
      refine ⟨fun text htext => ?_, hpair⟩
      obtain ⟨x, hx, rfl⟩ := List.mem_map.mp htext
      obtain ⟨-, hxvalid, hxbound, hxgrows, c', hx'⟩ := hrest x hx
      rw [hx']
      exact formatUuid_lt c c' hvalid hxvalid hxbound (hxgrows hsome)
    · intro x hx
      rcases List.mem_cons.mp hx with rfl | hx
      · obtain ⟨t, ht⟩ := Option.isSome_iff_exists.mp hsome
        have hbound : (s.next c).value < 2 ^ 80 := by omega
        have hlt := getD_lt_of_value hbound
        refine ⟨?_, hvalid, hbound, hgrows, c, rfl⟩
        simp only [uuidv7, ht, Option.getD_some] at hlt ⊢
        exact encodes_uuidv7 hvalid ht hlt
      · obtain ⟨hencodes, hxvalid, hxbound, hxgrows, hx'⟩ := hrest x hx
        exact ⟨hencodes, hxvalid, hxbound, fun hstarted =>
          Nat.lt_trans (hgrows hstarted) (hxgrows hsome), hx'⟩

/-- Up to the number of calls after which the time can leave its 48 bits. -/
theorem uuids_increase (calls : List Call) (hnow : ∀ c ∈ calls, c.now ≤ 2 ^ 47)
    (hlen : calls.length ≤ 2 ^ 79 - 2 ^ 32 + 1) : Issues calls := by
  obtain ⟨hpair, hall⟩ := run_grows (s := {}) (Nat.two_pow_pos 32) hnow nofun (by omega)
  exact ⟨hpair, fun x hx => (hall x hx).1⟩

/-! ### Short and long sequences -/

/-- The clock goes back, and a sequence of ones carries. -/
theorem uuids_increase_backward :
    (run {} [⟨1700000000000, fun _ => 255⟩, ⟨1600000000000, fun _ => 0⟩]).map Prod.snd =
      ["018bcfe5-6800-7fff-bfff-ffffffffffff", "018bcfe5-6801-7000-8000-000000000000"] ∧
    Issues [⟨1700000000000, fun _ => 255⟩, ⟨1600000000000, fun _ => 0⟩] :=
  ⟨by decide +kernel, uuids_increase _ (by simp) (by decide)⟩

/-- A call at the last time of the clock, with all random bits set. -/
def lateCall : Call := ⟨2 ^ 47, fun _ => 255⟩

/-- The last two of many calls that count. -/
theorem run_replicate {c : Call} (n : Nat) {t : Nat} (hs : s.Valid) (ht : s.lastTimestamp = some t)
    (hc : c.now ≤ t) :
    ∃ (before : List (State × String)) (a b : State), run s (List.replicate (n + 2) c) =
      before ++ [(a, formatUuid (uuidBytes (a.lastTimestamp.getD 0) a.sequence c)),
        (b, formatUuid (uuidBytes (b.lastTimestamp.getD 0) b.sequence c))] ∧
      a.Valid ∧ b.Valid ∧ a.value = s.value + n + 1 ∧ b.value = s.value + n + 2 := by
  have hnext {s : State} {t : Nat} (hs : s.Valid) (ht : s.lastTimestamp = some t)
      (hc : c.now ≤ t) : ∃ t', (s.next c).lastTimestamp = some t' ∧ c.now ≤ t' := by
    have hvalue := State.next_value_counted hs ht hc
    obtain ⟨t', ht'⟩ := Option.isSome_iff_exists.mp (State.next_isSome s c)
    refine ⟨t', ht', ?_⟩
    have hvalid := State.next_valid s c
    unfold State.Valid at hvalid
    rw [State.value, State.value, ht, ht', Option.getD_some, Option.getD_some] at hvalue
    omega
  obtain ⟨t', ht', hc'⟩ := hnext hs ht hc
  have hvalid := State.next_valid s c
  have hvalue := State.next_value_counted hs ht hc
  induction n generalizing s t t' with
  | zero =>
    have hvalue' := State.next_value_counted hvalid ht' hc'
    exact ⟨[], s.next c, (s.next c).next c, rfl, hvalid, State.next_valid _ c, hvalue,
      by rw [hvalue', hvalue]⟩
  | succ n ih =>
    obtain ⟨t'', ht'', hc''⟩ := hnext hvalid ht' hc'
    obtain ⟨before, a, b, hrun, ha, hb, havalue, hbvalue⟩ :=
      ih hvalid ht' hc' t'' ht'' hc'' (State.next_valid _ c)
        (State.next_value_counted hvalid ht' hc')
    refine ⟨uuidv7 s c :: before, a, b, ?_, ha, hb, by omega, by omega⟩
    rw [List.replicate_succ, run]
    exact congrArg (uuidv7 s c :: ·) hrun

/-- One call too many: the time leaves its 48 bits, and the text starts over. -/
theorem uuids_start_over : ¬ Issues (List.replicate (2 ^ 79 - 2 ^ 32 + 2) lateCall) := by
  intro h
  have hfirst : State.next {} lateCall = ⟨some (2 ^ 47), 2 ^ 32 - 1⟩ := by decide
  have hcount : 2 ^ 79 - 2 ^ 32 + 2 = (2 ^ 79 - 2 ^ 32 - 1) + 2 + 1 := by decide
  have hpair := h.increases
  rw [hcount, List.replicate_succ, run] at hpair
  obtain ⟨before, a, b, hrun, ha, hb, havalue, hbvalue⟩ := run_replicate (c := lateCall)
    (2 ^ 79 - 2 ^ 32 - 1) (State.next_valid {} lateCall) (congrArg State.lastTimestamp hfirst)
    (Nat.le_refl _)
  rw [show (uuidv7 {} lateCall).1 = State.next {} lateCall from rfl, hrun, List.map_cons,
    List.map_append, List.pairwise_cons, List.pairwise_append] at hpair
  have hlt := (List.pairwise_cons.mp hpair.2.2.1).1 _ List.mem_cons_self
  rw [hfirst] at havalue hbvalue
  unfold State.Valid at ha hb
  unfold State.value at havalue hbvalue
  obtain ⟨hatime, haseq⟩ : a.lastTimestamp.getD 0 = 2 ^ 48 - 1 ∧ a.sequence = 2 ^ 32 - 1 := by
    simp only [Option.getD_some] at havalue
    omega
  obtain ⟨hbtime, hbseq⟩ : b.lastTimestamp.getD 0 = 2 ^ 48 ∧ b.sequence = 0 := by
    simp only [Option.getD_some] at hbvalue
    omega
  dsimp only at hlt
  rw [hatime, haseq, hbtime, hbseq] at hlt
  have hno : ¬ formatUuid (uuidBytes (2 ^ 48 - 1) (2 ^ 32 - 1) lateCall) <
      formatUuid (uuidBytes (2 ^ 48) 0 lateCall) := by
    decide +kernel
  exact hno hlt

end Uuid

end Eagent
