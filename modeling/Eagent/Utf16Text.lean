import Eagent.Utf8Text

/-!
# Texts as UTF-16 units

A text of UTF-16 units stands for the characters it encodes; a surrogate
without its partner stands for U+FFFD. Where a text is cut between two
characters, its characters are those of the two sides (`scalars_append`), so
it may be read from its end.
-/

namespace Utf16Text

open Utf8Text

def isHigh (u : UInt16) : Bool := 0xd800 ≤ u && u ≤ 0xdbff

def isLow (u : UInt16) : Bool := 0xdc00 ≤ u && u ≤ 0xdfff

/-- The character of a surrogate pair. -/
def pair (hi lo : UInt16) : Char :=
  Char.ofNat (0x10000 + (hi.toNat - 0xd800) * 0x400 + (lo.toNat - 0xdc00))

/-- The characters of a text. -/
def scalars : List UInt16 → List Char
  | [] => []
  | u :: rest =>
      if isHigh u then
        match rest with
        | v :: rest' =>
            if isLow v then pair u v :: scalars rest' else '\uFFFD' :: scalars (v :: rest')
        | [] => ['\uFFFD']
      else if isLow u then '\uFFFD' :: scalars rest
      else Char.ofNat u.toNat :: scalars rest

def unitsOf (c : Char) : List UInt16 :=
  if c.toNat < 0x10000 then [UInt16.ofNat c.toNat]
  else [UInt16.ofNat (0xd800 + (c.toNat - 0x10000) / 0x400),
    UInt16.ofNat (0xdc00 + (c.toNat - 0x10000) % 0x400)]

def units (text : List Char) : List UInt16 := text.flatMap unitsOf

/-! ## Single characters -/

variable {u : UInt16}

theorem isHigh_iff : isHigh u = true ↔ 0xd800 ≤ u.toNat ∧ u.toNat ≤ 0xdbff := by
  rw [isHigh, Bool.and_eq_true, decide_eq_true_eq, decide_eq_true_eq]
  rfl

theorem isLow_iff : isLow u = true ↔ 0xdc00 ≤ u.toNat ∧ u.toNat ≤ 0xdfff := by
  rw [isLow, Bool.and_eq_true, decide_eq_true_eq, decide_eq_true_eq]
  rfl

theorem isLow_of_isHigh (h : isHigh u = true) : isLow u = false := by
  rw [Bool.eq_false_iff, ne_eq, isLow_iff]
  have hhigh := isHigh_iff.mp h
  omega

theorem toNat_of_isValidChar {n : Nat} (h : n.isValidChar) : (Char.ofNat n).toNat = n := by
  rw [Char.ofNat, dif_pos h]
  rfl

theorem toNat_pair {hi lo : UInt16} (hhi : isHigh hi = true) (hlo : isLow lo = true) :
    (pair hi lo).toNat = 0x10000 + (hi.toNat - 0xd800) * 0x400 + (lo.toNat - 0xdc00) := by
  have h := isHigh_iff.mp hhi
  have h' := isLow_iff.mp hlo
  exact toNat_of_isValidChar (.inr ⟨by omega, by omega⟩)

theorem toNat_plain (hhi : isHigh u = false) (hlo : isLow u = false) :
    (Char.ofNat u.toNat).toNat = u.toNat := by
  have hlt := u.toNat_lt
  rw [Bool.eq_false_iff, ne_eq, isHigh_iff] at hhi
  rw [Bool.eq_false_iff, ne_eq, isLow_iff] at hlo
  refine toNat_of_isValidChar ?_
  rw [Nat.isValidChar]
  omega

theorem unitsOf_pair {hi lo : UInt16} (hhi : isHigh hi = true) (hlo : isLow lo = true) :
    unitsOf (pair hi lo) = [hi, lo] := by
  have h := isHigh_iff.mp hhi
  have h' := isLow_iff.mp hlo
  have hfirst : 0xd800 + ((pair hi lo).toNat - 0x10000) / 0x400 = hi.toNat := by
    rw [toNat_pair hhi hlo]
    omega
  have hsecond : 0xdc00 + ((pair hi lo).toNat - 0x10000) % 0x400 = lo.toNat := by
    rw [toNat_pair hhi hlo]
    omega
  rw [unitsOf, hfirst, hsecond, if_neg, UInt16.ofNat_toNat, UInt16.ofNat_toNat]
  rw [toNat_pair hhi hlo]
  omega

theorem unitsOf_plain (hhi : isHigh u = false) (hlo : isLow u = false) :
    unitsOf (Char.ofNat u.toNat) = [u] := by
  rw [unitsOf, toNat_plain hhi hlo, if_pos u.toNat_lt, UInt16.ofNat_toNat]

/-! ## Sizes -/

theorem utf8Size_eq (c : Char) : c.utf8Size =
    if c.toNat ≤ 0x7f then 1 else if c.toNat ≤ 0x7ff then 2 else if c.toNat ≤ 0xffff then 3
    else 4 := rfl

theorem utf8Size_pair {hi lo : UInt16} (hhi : isHigh hi = true) (hlo : isLow lo = true) :
    (pair hi lo).utf8Size = 4 := by
  rw [utf8Size_eq, toNat_pair hhi hlo, if_neg (by omega), if_neg (by omega), if_neg (by omega)]

theorem utf8Size_plain (hhi : isHigh u = false) (hlo : isLow u = false) :
    (Char.ofNat u.toNat).utf8Size = if u ≤ 0x7f then 1 else if u ≤ 0x7ff then 2 else 3 := by
  have hlt := u.toNat_lt
  rw [utf8Size_eq, toNat_plain hhi hlo, if_pos (show u.toNat ≤ 0xffff by omega)]
  rfl

theorem unitsOf_replacement : unitsOf '\uFFFD' = [0xfffd] := by decide

theorem utf8Size_replacement : ('\uFFFD' : Char).utf8Size = 3 := by decide

/-! ## Reading on -/

theorem scalars_cons (u : UInt16) (rest : List UInt16) :
    scalars (u :: rest) =
      if isHigh u then
        match rest with
        | v :: rest' =>
            if isLow v then pair u v :: scalars rest' else '\uFFFD' :: scalars (v :: rest')
        | [] => ['\uFFFD']
      else if isLow u then '\uFFFD' :: scalars rest
      else Char.ofNat u.toNat :: scalars rest := by
  rw [scalars.eq_def]

theorem scalars_pair {hi lo : UInt16} (hhi : isHigh hi = true) (hlo : isLow lo = true)
    (rest : List UInt16) : scalars (hi :: lo :: rest) = pair hi lo :: scalars rest := by
  rw [scalars_cons, if_pos hhi]
  exact if_pos hlo

theorem scalars_high {hi : UInt16} (hhi : isHigh hi = true) {rest : List UInt16}
    (hrest : ∀ v, rest.head? = some v → isLow v = false) :
    scalars (hi :: rest) = '\uFFFD' :: scalars rest := by
  rw [scalars_cons]
  cases rest with
  | nil => exact if_pos hhi
  | cons v rest => exact (if_pos hhi).trans (if_neg (Bool.eq_false_iff.mp (hrest v rfl)))

theorem scalars_low {lo : UInt16} (hlo : isLow lo = true) (rest : List UInt16) :
    scalars (lo :: rest) = '\uFFFD' :: scalars rest := by
  have hhi : isHigh lo = false := by
    rw [Bool.eq_false_iff]
    intro h
    rw [isLow_of_isHigh h] at hlo
    cases hlo
  rw [scalars_cons]
  exact (if_neg (Bool.eq_false_iff.mp hhi)).trans (if_pos hlo)

theorem scalars_plain (hhi : isHigh u = false) (hlo : isLow u = false) (rest : List UInt16) :
    scalars (u :: rest) = Char.ofNat u.toNat :: scalars rest := by
  rw [scalars_cons]
  exact (if_neg (Bool.eq_false_iff.mp hhi)).trans (if_neg (Bool.eq_false_iff.mp hlo))

/-! ## Cuts -/

/-- Between `a` and `b` no pair is cut. -/
def Cut (a b : List UInt16) : Prop :=
  ∀ u v, a.getLast? = some u → b.head? = some v → isHigh u = true → isLow v = false

theorem Cut.nil_left (b : List UInt16) : Cut [] b := fun _ _ h => nomatch h

theorem Cut.nil_right (a : List UInt16) : Cut a [] := fun _ _ _ h => nomatch h

theorem Cut.tail {a b : List UInt16} (h : Cut (u :: a) b) : Cut a b := by
  intro x y hx hy
  refine h x y ?_ hy
  cases a with
  | nil => cases hx
  | cons v a => rwa [List.getLast?_cons_cons]

theorem scalars_append {a b : List UInt16} (h : Cut a b) :
    scalars (a ++ b) = scalars a ++ scalars b := by
  fun_induction scalars a with
  | case1 => rfl
  | case2 u hhi v rest hlo ih =>
    rw [List.cons_append, List.cons_append, scalars_pair hhi hlo, ih h.tail.tail]
    rfl
  | case3 u hhi v rest hlo ih =>
    have hcut : Cut (v :: rest) b := h.tail
    have hhead : ∀ w, (v :: rest ++ b).head? = some w → isLow w = false := by
      rintro w ⟨⟩
      exact Bool.eq_false_iff.mpr hlo
    rw [List.cons_append, scalars_high hhi hhead, ih hcut]
    rfl
  | case4 u hhi =>
    rw [List.singleton_append, scalars_high hhi fun v hv => h u v rfl hv hhi]
    rfl
  | case5 u rest hhi hlo ih =>
    rw [List.cons_append, scalars_low hlo, ih h.tail]
    rfl
  | case6 u rest hhi hlo ih =>
    rw [List.cons_append,
      scalars_plain (Bool.eq_false_iff.mpr hhi) (Bool.eq_false_iff.mpr hlo), ih h.tail]
    rfl

variable {text : List UInt16}

theorem scalars_first (h : text ≠ []) :
    ∃ first rest c, text = first ++ rest ∧ first ≠ [] ∧ Cut first rest ∧ scalars first = [c] := by
  fun_cases scalars text with
  | case1 => exact absurd rfl h
  | case2 u hhi v rest hlo =>
    refine ⟨[u, v], rest, pair u v, rfl, List.cons_ne_nil _ _, ?_, scalars_pair hhi hlo []⟩
    rintro x y ⟨⟩ - hhigh
    have hv : isHigh v = true := hhigh
    rw [isLow_of_isHigh hv] at hlo
    cases hlo
  | case3 u hhi v rest hlo =>
    refine ⟨[u], v :: rest, '\uFFFD', rfl, List.cons_ne_nil _ _, ?_, ?_⟩
    · rintro x y - ⟨⟩ -
      exact Bool.eq_false_iff.mpr hlo
    · exact scalars_high hhi fun w hw => nomatch hw
  | case4 u hhi =>
    exact ⟨[u], [], '\uFFFD', rfl, List.cons_ne_nil _ _, Cut.nil_right _,
      scalars_high hhi fun w hw => nomatch hw⟩
  | case5 u rest hhi hlo =>
    refine ⟨[u], rest, '\uFFFD', rfl, List.cons_ne_nil _ _, ?_, scalars_low hlo []⟩
    rintro x y ⟨⟩ - hhigh
    exact absurd hhigh hhi
  | case6 u rest hhi hlo =>
    refine ⟨[u], rest, _, rfl, List.cons_ne_nil _ _, ?_,
      scalars_plain (Bool.eq_false_iff.mpr hhi) (Bool.eq_false_iff.mpr hlo) []⟩
    rintro x y ⟨⟩ - hhigh
    exact absurd hhigh hhi

theorem scalars_ne_nil (h : text ≠ []) : scalars text ≠ [] := by
  obtain ⟨first, rest, c, rfl, -, hcut, hc⟩ := scalars_first h
  rw [scalars_append hcut, hc]
  exact List.cons_ne_nil _ _

theorem Cut.of_append {a b c : List UInt16} (h : Cut (a ++ b) c) (hb : b ≠ []) : Cut b c :=
  fun u v hu => h u v (by rw [List.getLast?_append_of_ne_nil a hb, hu])

theorem Cut.append {a b c : List UInt16} (h : Cut b c) (ha : b = [] → Cut a c) :
    Cut (a ++ b) c := by
  by_cases hb : b = []
  · subst hb
    rw [List.append_nil]
    exact ha rfl
  · exact fun u v hu => h u v (by rwa [List.getLast?_append_of_ne_nil a hb] at hu)

/-- Between any two characters a text may be cut. -/
theorem exists_cut {a b : List Char} (h : scalars text = a ++ b) :
    ∃ before after, text = before ++ after ∧ Cut before after ∧ scalars before = a ∧
      scalars after = b := by
  induction a generalizing text with
  | nil => exact ⟨[], text, rfl, Cut.nil_left _, rfl, h⟩
  | cons c a ih =>
    have hne : text ≠ [] := by
      rintro rfl
      cases h
    obtain ⟨first, rest, d, rfl, -, hcut, hd⟩ := scalars_first hne
    rw [scalars_append hcut, hd] at h
    obtain ⟨before, after, rfl, hrest, rfl, rfl⟩ := ih (List.tail_eq_of_cons_eq h)
    refine ⟨first ++ before, after, (List.append_assoc _ _ _).symm, ?_, ?_, rfl⟩
    · refine hrest.append fun hnil => ?_
      subst hnil
      exact hcut
    · have hfirst : Cut first before := by
        intro u v hu hv
        refine hcut u v hu ?_
        cases before with
        | nil => cases hv
        | cons w before => exact hv
      rw [scalars_append hfirst, hd, List.head_eq_of_cons_eq h]
      rfl

theorem units_cons (c : Char) (text : List Char) : units (c :: text) = unitsOf c ++ units text :=
  rfl

theorem scalars_unitsOf (c : Char) (rest : List UInt16) :
    scalars (unitsOf c ++ rest) = c :: scalars rest := by
  have hvalid := c.valid
  rw [UInt32.isValidChar, Char.toNat_val, Nat.isValidChar] at hvalid
  by_cases hplane : c.toNat < 0x10000
  · have hnat : (UInt16.ofNat c.toNat).toNat = c.toNat := UInt16.toNat_ofNat_of_lt hplane
    have hhi : isHigh (UInt16.ofNat c.toNat) = false := by
      rw [Bool.eq_false_iff, ne_eq, isHigh_iff, hnat]
      omega
    have hlo : isLow (UInt16.ofNat c.toNat) = false := by
      rw [Bool.eq_false_iff, ne_eq, isLow_iff, hnat]
      omega
    rw [unitsOf, if_pos hplane, List.singleton_append, scalars_plain hhi hlo, hnat,
      Char.ofNat_toNat]
  · have hfirst : (UInt16.ofNat (0xd800 + (c.toNat - 0x10000) / 0x400)).toNat =
        0xd800 + (c.toNat - 0x10000) / 0x400 := UInt16.toNat_ofNat_of_lt (by
      change _ < 0x10000
      omega)
    have hsecond : (UInt16.ofNat (0xdc00 + (c.toNat - 0x10000) % 0x400)).toNat =
        0xdc00 + (c.toNat - 0x10000) % 0x400 := UInt16.toNat_ofNat_of_lt (by
      change _ < 0x10000
      omega)
    have hhi : isHigh (UInt16.ofNat (0xd800 + (c.toNat - 0x10000) / 0x400)) = true := by
      rw [isHigh_iff, hfirst]
      omega
    have hlo : isLow (UInt16.ofNat (0xdc00 + (c.toNat - 0x10000) % 0x400)) = true := by
      rw [isLow_iff, hsecond]
      omega
    have hpair : pair (UInt16.ofNat (0xd800 + (c.toNat - 0x10000) / 0x400))
        (UInt16.ofNat (0xdc00 + (c.toNat - 0x10000) % 0x400)) = c := by
      rw [← Char.toNat_inj, toNat_pair hhi hlo, hfirst, hsecond]
      omega
    rw [unitsOf, if_neg hplane, List.cons_append, List.singleton_append, scalars_pair hhi hlo,
      hpair]

theorem scalars_units (text : List Char) : scalars (units text) = text := by
  induction text with
  | nil => rfl
  | cons c text ih => rw [units_cons, scalars_unitsOf, ih]

end Utf16Text
