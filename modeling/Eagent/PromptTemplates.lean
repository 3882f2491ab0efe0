import Eagent.WrapFits

/-!
# Prompt templates

`parseCommandArgs` splits the text behind a command into its arguments,
`substituteArgs` puts them into a template. What is read off a template does
not depend on the arguments (`Template`), so nothing that is put in is read
again.
-/

namespace Eagent

namespace PromptTemplates

open EditTool (isWhitespace)
open Tui (unitsOf isDigitUnit takeDigits numberOf takeDigits_eq_some dropPrefix_eq_some)

def doubleQuote : UInt16 := 0x22

def singleQuote : UInt16 := 0x27

def blank : UInt16 := 0x20

/-! ## Arguments -/

structure ArgState where
  args : List Text := []
  current : Text := []
  inQuote : Option UInt16 := none

/-- Nothing between quotes is no argument. -/
def ArgState.push (s : ArgState) : ArgState :=
  if s.current = [] then s else { s with args := s.args ++ [s.current], current := [] }

def parseStep (s : ArgState) (char : UInt16) : ArgState :=
  match s.inQuote with
  | some quote =>
      if char = quote then { s with inQuote := none }
      else { s with current := s.current ++ [char] }
  | none =>
      if char = doubleQuote ∨ char = singleQuote then { s with inQuote := some char }
      else if isWhitespace char then s.push
      else { s with current := s.current ++ [char] }

def parseCommandArgs (argsString : Text) : List Text := (argsString.foldl parseStep {}).push.args

def quoted (arg : Text) : Text := doubleQuote :: arg ++ [doubleQuote]

theorem push_args (s : ArgState) : s.push.args = s.args ++ [s.current].filter (· ≠ []) := by
  unfold ArgState.push
  split
  · next hempty => simp [hempty]
  · next hcurrent => simp [hcurrent]

theorem foldl_inQuote {arg : Text} (harg : doubleQuote ∉ arg) (args : List Text) (current : Text) :
    arg.foldl parseStep ⟨args, current, some doubleQuote⟩ =
      ⟨args, current ++ arg, some doubleQuote⟩ := by
  induction arg generalizing current with
  | nil => rw [List.foldl_nil, List.append_nil]
  | cons u arg ih =>
    rw [List.mem_cons, not_or] at harg
    obtain ⟨hu, harg⟩ := harg
    have hstep : parseStep ⟨args, current, some doubleQuote⟩ u =
        ⟨args, current ++ [u], some doubleQuote⟩ := if_neg fun h => hu h.symm
    rw [List.foldl_cons, hstep, ih harg, List.append_assoc, List.singleton_append]

/-- What stands between two quotes is taken as it is. -/
theorem foldl_quoted {arg : Text} (harg : doubleQuote ∉ arg) (args : List Text) :
    (quoted arg).foldl parseStep ⟨args, [], none⟩ = ⟨args, arg, none⟩ := by
  have hopen : parseStep ⟨args, [], none⟩ doubleQuote = ⟨args, [], some doubleQuote⟩ := rfl
  have hclose : parseStep ⟨args, arg, some doubleQuote⟩ doubleQuote = ⟨args, arg, none⟩ := rfl
  rw [quoted, List.cons_append, List.foldl_cons, hopen, List.foldl_append, foldl_inQuote harg,
    List.nil_append, List.foldl_cons, hclose, List.foldl_nil]

theorem parseStep_blank (args : List Text) (current : Text) :
    parseStep ⟨args, current, none⟩ blank =
      ⟨args ++ [current].filter (· ≠ []), [], none⟩ := by
  have hpush : parseStep ⟨args, current, none⟩ blank = ArgState.push ⟨args, current, none⟩ := by
    unfold parseStep
    rw [if_neg (by decide), if_pos (by decide)]
  rw [hpush, ArgState.push]
  split
  · next hempty =>
      obtain rfl : current = [] := hempty
      simp
  · next hcurrent =>
      have hne : current ≠ [] := hcurrent
      simp [hne]

/-- The arguments of quoted texts are those that are not empty, after what has been read. -/
theorem foldl_intercalate {texts : List Text} (htexts : ∀ arg ∈ texts, doubleQuote ∉ arg)
    (args : List Text) :
    (([blank].intercalate (texts.map quoted)).foldl parseStep ⟨args, [], none⟩).push.args =
      args ++ texts.filter (· ≠ []) := by
  induction texts generalizing args with
  | nil => rw [List.filter_nil, List.append_nil]; rfl
  | cons arg texts ih =>
    have harg := htexts arg List.mem_cons_self
    cases texts with
    | nil =>
      rw [List.map_cons, List.map_nil, List.intercalate_singleton, foldl_quoted harg, push_args]
    | cons next texts =>
      have hrest := ih (fun other hother => htexts other (List.mem_cons_of_mem arg hother))
        (args ++ [arg].filter (· ≠ []))
      rw [List.map_cons] at hrest
      rw [List.map_cons, List.map_cons, List.intercalate_cons_cons, List.foldl_append,
        List.foldl_append, foldl_quoted harg, List.foldl_cons, List.foldl_nil, parseStep_blank,
        hrest, List.append_assoc, ← List.filter_append, List.singleton_append]

/-! ## Placeholders -/

/-- `$\x7bN:-default}`, `$\x7b@:N}` and `$\x7b@:N:L}`, `$@` and `$ARGUMENTS`, `$N` -/
inductive Placeholder where
  | withDefault (n : Nat) (default : Text)
  | slice (start : Nat) (length : Option Nat)
  | all
  | positional (n : Nat)
deriving DecidableEq

/-- `args[n - 1]` -/
def argAt (args : List Text) (n : Nat) : Option Text := if n = 0 then none else args[n - 1]?

def joinArgs (args : List Text) : Text := [blank].intercalate args

def Placeholder.value (args : List Text) : Placeholder → Text
  | .withDefault n default =>
      match argAt args n with
      | some value => if value = [] then default else value
      | none => default
  | .slice start length =>
      match length with
      | some length => joinArgs ((args.drop (start - 1)).take length)
      | none => joinArgs (args.drop (start - 1))
  | .all => joinArgs args
  | .positional n => (argAt args n).getD []

def dollar : UInt16 := 0x24

/-- `\x7b` -/
def openBrace : UInt16 := 0x7b

/-- `\x7d` -/
def closeBrace : UInt16 := 0x7d

/-- `(\d+):-([^}]*)}` behind `$\x7b`, and what follows. -/
def matchDefault (text : Text) : Option (Placeholder × Text) := do
  let (digits, rest) ← takeDigits text
  let rest ← rest.dropPrefix? (unitsOf ":-")
  match rest.dropWhile (· ≠ closeBrace) with
  | _ :: after => some (.withDefault (numberOf digits) (rest.takeWhile (· ≠ closeBrace)), after)
  | [] => none

/-- `@:(\d+)(?::(\d+))?}` behind `$\x7b`, and what follows. -/
def matchSlice (text : Text) : Option (Placeholder × Text) := do
  let (start, rest) ← takeDigits (← text.dropPrefix? (unitsOf "@:"))
  match rest with
  | u :: after =>
      if u = closeBrace then some (.slice (numberOf start) none, after)
      else if u = 0x3a then do
        let (length, rest) ← takeDigits after
        match rest with
        | v :: after =>
            if v = closeBrace then some (.slice (numberOf start) (some (numberOf length)), after)
            else none
        | [] => none
      else none
  | [] => none

/-- `(ARGUMENTS|@|\d+)` behind `$`, and what follows. -/
def matchSimple (text : Text) : Option (Placeholder × Text) :=
  match text.dropPrefix? (unitsOf "ARGUMENTS") with
  | some rest => some (.all, rest)
  | none =>
      match text.dropPrefix? (unitsOf "@") with
      | some rest => some (.all, rest)
      | none => (takeDigits text).map fun (digits, rest) => (.positional (numberOf digits), rest)

def matchPlaceholder : Text → Option (Placeholder × Text)
  | [] => none
  | u :: rest =>
      if u ≠ dollar then none
      else
        match rest with
        | [] => none
        | v :: inner =>
            if v = openBrace then matchDefault inner <|> matchSlice inner
            else matchSimple (v :: inner)

/-- `content.replace(expression, replacer)`; `skip` units of the last match are
still to be passed over. -/
def replaceFrom (replacer : Placeholder → Text) : Nat → Text → Text
  | _, [] => []
  | skip + 1, _ :: rest => replaceFrom replacer skip rest
  | 0, u :: rest =>
      match matchPlaceholder (u :: rest) with
      | some (placeholder, after) =>
          replacer placeholder ++ replaceFrom replacer (rest.length - after.length) rest
      | none => u :: replaceFrom replacer 0 rest

def substituteArgs (content : Text) (args : List Text) : Text :=
  replaceFrom (Placeholder.value args) 0 content

/-! ## The grammar of the expression -/

def IsNumber (digits : Text) : Prop := digits ≠ [] ∧ digits.all isDigitUnit = true

/-- The texts of a placeholder. -/
inductive IsPlaceholder : Text → Placeholder → Prop
  | withDefault {digits default : Text} (hdigits : IsNumber digits)
      (hdefault : closeBrace ∉ default) :
      IsPlaceholder (dollar :: openBrace :: (digits ++ unitsOf ":-" ++ default ++ [closeBrace]))
        (.withDefault (numberOf digits) default)
  | slice {start : Text} (hstart : IsNumber start) :
      IsPlaceholder (dollar :: openBrace :: (unitsOf "@:" ++ start ++ [closeBrace]))
        (.slice (numberOf start) none)
  | sliceLength {start length : Text} (hstart : IsNumber start) (hlength : IsNumber length) :
      IsPlaceholder
        (dollar :: openBrace :: (unitsOf "@:" ++ start ++ unitsOf ":" ++ length ++ [closeBrace]))
        (.slice (numberOf start) (some (numberOf length)))
  | atSign : IsPlaceholder (dollar :: unitsOf "@") .all
  | arguments : IsPlaceholder (dollar :: unitsOf "ARGUMENTS") .all
  | positional {digits : Text} (hdigits : IsNumber digits) :
      IsPlaceholder (dollar :: digits) (.positional (numberOf digits))

/-- The digits of `$N` are not cut short. -/
def Placeholder.Ends (rest : Text) : Placeholder → Prop
  | .positional _ => ∀ u ∈ rest.head?, isDigitUnit u = false
  | _ => True

variable {text rest digits : Text} {p : Placeholder}

theorem takeDigits_append (hdigits : IsNumber digits) (rest : Text)
    (hrest : ∀ u ∈ rest.head?, isDigitUnit u = false) :
    takeDigits (digits ++ rest) = some (digits, rest) := by
  have hall := List.all_eq_true.mp hdigits.2
  have htake : rest.takeWhile isDigitUnit = [] ∧ rest.dropWhile isDigitUnit = rest := by
    cases rest with
    | nil => exact ⟨rfl, rfl⟩
    | cons u rest =>
      have hu := hrest u rfl
      exact ⟨List.takeWhile_cons_of_neg (by rw [hu]; decide),
        List.dropWhile_cons_of_neg (by rw [hu]; decide)⟩
  unfold takeDigits
  rw [List.takeWhile_append_of_pos hall, List.dropWhile_append_of_pos hall, htake.1, htake.2,
    List.append_nil, if_neg hdigits.1]

theorem takeDigits_ne_none (hdigits : IsNumber digits) (rest : Text) :
    takeDigits (digits ++ rest) ≠ none := by
  unfold takeDigits
  rw [List.takeWhile_append_of_pos (List.all_eq_true.mp hdigits.2),
    if_neg (List.append_ne_nil_of_left_ne_nil hdigits.1 _)]
  exact Option.some_ne_none _

/-- What `takeDigits` takes is a number, and no digit follows. -/
theorem takeDigits_spec (h : takeDigits text = some (digits, rest)) :
    text = digits ++ rest ∧ IsNumber digits ∧ ∀ u ∈ rest.head?, isDigitUnit u = false := by
  obtain ⟨htext, hall⟩ := takeDigits_eq_some h
  unfold takeDigits at h
  split at h
  · cases h
  · next hne =>
      obtain ⟨rfl, rfl⟩ := Prod.mk.inj (Option.some.inj h)
      refine ⟨htext, ⟨hne, hall⟩, ?_⟩
      intro u hu
      have hhead := List.head?_dropWhile_not isDigitUnit text
      rw [Option.mem_def.mp hu] at hhead
      exact hhead

theorem dropPrefix_append (opening rest : Text) :
    (opening ++ rest).dropPrefix? opening = some rest :=
  List.dropPrefix?_append_of_beq rest (beq_self_eq_true opening)

theorem dropPrefix_cons_ne {u v : UInt16} (h : u ≠ v) (text opening : Text) :
    (u :: text).dropPrefix? (v :: opening) = none := by
  rw [List.dropPrefix?, if_neg]
  exact fun hbeq => h (eq_of_beq hbeq)

theorem head?_number {d : UInt16} (hdigits : IsNumber digits) (hd : isDigitUnit d = false) :
    ∃ u tail, digits = u :: tail ∧ u ≠ d := by
  cases digits with
  | nil => exact absurd rfl hdigits.1
  | cons u tail =>
    refine ⟨u, tail, rfl, ?_⟩
    rintro rfl
    have hu := List.all_eq_true.mp hdigits.2 u List.mem_cons_self
    rw [hd] at hu
    cases hu

theorem matchSimple_arguments (rest : Text) :
    matchSimple (unitsOf "ARGUMENTS" ++ rest) = some (.all, rest) := by
  unfold matchSimple
  rw [dropPrefix_append]

theorem matchSimple_atSign (rest : Text) :
    matchSimple (unitsOf "@" ++ rest) = some (.all, rest) := by
  have hname : (unitsOf "@" ++ rest).dropPrefix? (unitsOf "ARGUMENTS") = none :=
    dropPrefix_cons_ne (u := 0x40) (v := 0x41) (by decide) _ _
  unfold matchSimple
  rw [hname]
  dsimp only
  rw [dropPrefix_append]

/-- Digits are neither `@` nor `ARGUMENTS`. -/
theorem matchSimple_number (hdigits : IsNumber digits) (rest : Text) :
    matchSimple (digits ++ rest) =
      (takeDigits (digits ++ rest)).map fun (digits, rest) =>
        (.positional (numberOf digits), rest) := by
  have hname : (digits ++ rest).dropPrefix? (unitsOf "ARGUMENTS") = none := by
    obtain ⟨u, tail, rfl, hu⟩ := head?_number (d := 0x41) hdigits (by decide)
    exact dropPrefix_cons_ne hu _ _
  have hat : (digits ++ rest).dropPrefix? (unitsOf "@") = none := by
    obtain ⟨u, tail, rfl, hu⟩ := head?_number (d := 0x40) hdigits (by decide)
    exact dropPrefix_cons_ne hu _ _
  unfold matchSimple
  rw [hname]
  dsimp only
  rw [hat]

theorem matchPlaceholder_brace (inner : Text) :
    matchPlaceholder (dollar :: openBrace :: inner) =
      (matchDefault inner <|> matchSlice inner) := by
  unfold matchPlaceholder
  dsimp only
  rw [if_neg (not_not.mpr rfl), if_pos rfl]

theorem matchPlaceholder_dollar {u : UInt16} (hu : u ≠ openBrace) (inner : Text) :
    matchPlaceholder (dollar :: u :: inner) = matchSimple (u :: inner) := by
  unfold matchPlaceholder
  dsimp only
  rw [if_neg (not_not.mpr rfl), if_neg hu]

theorem matchPlaceholder_number (hdigits : IsNumber digits) (rest : Text) :
    matchPlaceholder (dollar :: (digits ++ rest)) =
      (takeDigits (digits ++ rest)).map fun (digits, rest) =>
        (.positional (numberOf digits), rest) := by
  rw [← matchSimple_number hdigits]
  obtain ⟨u, tail, rfl, hu⟩ := head?_number (d := openBrace) hdigits (by decide)
  exact matchPlaceholder_dollar hu (tail ++ rest)

theorem matchDefault_append {default : Text} (hdigits : IsNumber digits)
    (hdefault : closeBrace ∉ default) (rest : Text) :
    matchDefault (digits ++ unitsOf ":-" ++ default ++ [closeBrace] ++ rest) =
      some (.withDefault (numberOf digits) default, rest) := by
  have hall : ∀ u ∈ default, decide (u ≠ closeBrace) = true := by
    intro u hu
    rw [decide_eq_true_iff]
    rintro rfl
    exact hdefault hu
  have htake := takeDigits_append hdigits (unitsOf ":-" ++ (default ++ closeBrace :: rest))
    (by intro u hu; obtain rfl := Option.some.inj hu; decide)
  have hdrop : (default ++ closeBrace :: rest).dropWhile (· ≠ closeBrace) = closeBrace :: rest := by
    rw [List.dropWhile_append_of_pos hall, List.dropWhile_cons_of_neg (by decide)]
  have hvalue : (default ++ closeBrace :: rest).takeWhile (· ≠ closeBrace) = default := by
    rw [List.takeWhile_append_of_pos hall, List.takeWhile_cons_of_neg (by decide), List.append_nil]
  unfold matchDefault
  simp only [List.append_assoc, List.singleton_append]
  rw [htake]
  simp only [bind, Option.bind]
  rw [dropPrefix_append]
  dsimp only
  rw [hdrop, hvalue]

theorem matchSlice_append {start : Text} (hstart : IsNumber start) (rest : Text) :
    matchSlice (unitsOf "@:" ++ start ++ [closeBrace] ++ rest) =
      some (.slice (numberOf start) none, rest) := by
  have htake := takeDigits_append hstart (closeBrace :: rest)
    (by intro u hu; obtain rfl := Option.some.inj hu; decide)
  unfold matchSlice
  simp only [List.append_assoc, List.singleton_append]
  rw [dropPrefix_append]
  simp only [bind, Option.bind]
  rw [htake]
  exact if_pos rfl

theorem matchSlice_append_length {start length : Text} (hstart : IsNumber start)
    (hlength : IsNumber length) (rest : Text) :
    matchSlice (unitsOf "@:" ++ start ++ unitsOf ":" ++ length ++ [closeBrace] ++ rest) =
      some (.slice (numberOf start) (some (numberOf length)), rest) := by
  have htake := takeDigits_append hstart (unitsOf ":" ++ (length ++ closeBrace :: rest))
    (by intro u hu; obtain rfl := Option.some.inj hu; decide)
  have htakeLength := takeDigits_append hlength (closeBrace :: rest)
    (by intro u hu; obtain rfl := Option.some.inj hu; decide)
  unfold matchSlice
  simp only [List.append_assoc, List.singleton_append]
  rw [dropPrefix_append]
  simp only [bind, Option.bind]
  rw [htake]
  dsimp only
  rw [show unitsOf ":" ++ (length ++ closeBrace :: rest) = 0x3a :: (length ++ closeBrace :: rest)
    from rfl]
  dsimp only
  rw [if_neg (by decide), if_pos rfl, htakeLength]
  exact if_pos rfl

theorem matchPlaceholder_append (h : IsPlaceholder text p) (hend : p.Ends rest) :
    matchPlaceholder (text ++ rest) = some (p, rest) := by
  cases h with
  | withDefault hdigits hdefault =>
    have hmatch := matchDefault_append hdigits hdefault rest
    rw [List.cons_append, List.cons_append, matchPlaceholder_brace, hmatch]
    rfl
  | slice hstart =>
    have hmatch := matchSlice_append hstart rest
    rw [List.cons_append, List.cons_append, matchPlaceholder_brace, hmatch]
    rfl
  | sliceLength hstart hlength =>
    have hmatch := matchSlice_append_length hstart hlength rest
    rw [List.cons_append, List.cons_append, matchPlaceholder_brace, hmatch]
    rfl
  | atSign => exact (matchPlaceholder_dollar (by decide) rest).trans (matchSimple_atSign rest)
  | arguments => exact (matchPlaceholder_dollar (by decide) _).trans (matchSimple_arguments rest)
  | positional hdigits =>
    rw [List.cons_append, matchPlaceholder_number hdigits, takeDigits_append hdigits _ hend]
    rfl

theorem matchPlaceholder_ne_none (h : IsPlaceholder text p) (rest : Text) :
    matchPlaceholder (text ++ rest) ≠ none := by
  have hother (hend : p.Ends rest) : matchPlaceholder (text ++ rest) ≠ none := by
    rw [matchPlaceholder_append h hend]
    exact Option.some_ne_none _
  cases h with
  | positional hdigits =>
    rw [List.cons_append, matchPlaceholder_number hdigits]
    intro hnone
    exact takeDigits_ne_none hdigits rest (Option.map_eq_none_iff.mp hnone)
  | withDefault => exact hother trivial
  | slice => exact hother trivial
  | sliceLength => exact hother trivial
  | atSign => exact hother trivial
  | arguments => exact hother trivial

/-! ## What is matched is a placeholder -/

def Takes (text rest : Text) (p : Placeholder) : Prop :=
  ∃ taken, text = taken ++ rest ∧ IsPlaceholder taken p ∧ p.Ends rest

theorem matchDefault_eq_some {inner : Text} (h : matchDefault inner = some (p, rest)) :
    Takes (dollar :: openBrace :: inner) rest p := by
  obtain ⟨⟨digits, afterDigits⟩, hdigits, h⟩ := Option.bind_eq_some_iff.mp h
  obtain ⟨behind, hcolon, h⟩ := Option.bind_eq_some_iff.mp h
  obtain ⟨htext, hnumber, -⟩ := takeDigits_spec hdigits
  have hbehind : behind.takeWhile (· ≠ closeBrace) ++ behind.dropWhile (· ≠ closeBrace) = behind :=
    List.takeWhile_append_dropWhile
  cases hdrop : behind.dropWhile (· ≠ closeBrace) with
  | nil => rw [hdrop] at h; cases h
  | cons u after =>
    rw [hdrop] at h hbehind
    obtain ⟨rfl, rfl⟩ := Prod.mk.inj (Option.some.inj h)
    have hu : u = closeBrace := by
      have hhead := List.head?_dropWhile_not (· ≠ closeBrace) behind
      rw [hdrop] at hhead
      exact of_decide_eq_false hhead |> not_not.mp
    refine ⟨dollar :: openBrace :: (digits ++ unitsOf ":-" ++
      behind.takeWhile (· ≠ closeBrace) ++ [closeBrace]), ?_, ?_, trivial⟩
    · rw [htext, dropPrefix_eq_some hcolon]
      nth_rewrite 1 [← hbehind]
      rw [hu]
      simp only [List.cons_append, List.append_assoc, List.nil_append]
    · refine .withDefault hnumber ?_
      intro hmem
      have hne := List.mem_takeWhile_imp hmem
      exact of_decide_eq_true hne rfl

theorem matchSlice_eq_some {inner : Text} (h : matchSlice inner = some (p, rest)) :
    Takes (dollar :: openBrace :: inner) rest p := by
  obtain ⟨afterAt, hat, h⟩ := Option.bind_eq_some_iff.mp h
  obtain ⟨⟨start, afterStart⟩, hstart, h⟩ := Option.bind_eq_some_iff.mp h
  obtain ⟨hafterAt, hnumber, -⟩ := takeDigits_spec hstart
  cases afterStart with
  | nil => cases h
  | cons u after =>
    dsimp only at h
    split at h
    · next hclose =>
        obtain ⟨rfl, rfl⟩ := Prod.mk.inj (Option.some.inj h)
        refine ⟨dollar :: openBrace :: (unitsOf "@:" ++ start ++ [closeBrace]), ?_,
          .slice hnumber, trivial⟩
        rw [dropPrefix_eq_some hat, hafterAt, hclose]
        simp only [List.cons_append, List.append_assoc, List.nil_append]
    · split at h
      · next hcolon =>
          obtain ⟨⟨length, afterLength⟩, hlength, h⟩ := Option.bind_eq_some_iff.mp h
          obtain ⟨hafter, hnumberLength, -⟩ := takeDigits_spec hlength
          cases afterLength with
          | nil => cases h
          | cons v after' =>
            dsimp only at h
            split at h
            · next hclose =>
                obtain ⟨rfl, rfl⟩ := Prod.mk.inj (Option.some.inj h)
                refine ⟨dollar :: openBrace ::
                  (unitsOf "@:" ++ start ++ unitsOf ":" ++ length ++ [closeBrace]), ?_,
                  .sliceLength hnumber hnumberLength, trivial⟩
                rw [dropPrefix_eq_some hat, hafterAt, hcolon, hafter, hclose]
                simp only [List.cons_append, List.append_assoc, List.nil_append]
                rfl
            · cases h
      · cases h

theorem matchSimple_eq_some {inner : Text} (h : matchSimple inner = some (p, rest)) :
    Takes (dollar :: inner) rest p := by
  unfold matchSimple at h
  split at h
  · next after hname =>
      obtain ⟨rfl, rfl⟩ := Prod.mk.inj (Option.some.inj h)
      exact ⟨_, by rw [dropPrefix_eq_some hname, List.cons_append], .arguments, trivial⟩
  · split at h
    · next after hat =>
        obtain ⟨rfl, rfl⟩ := Prod.mk.inj (Option.some.inj h)
        exact ⟨_, by rw [dropPrefix_eq_some hat, List.cons_append], .atSign, trivial⟩
    · obtain ⟨⟨digits, after⟩, hdigits, heq⟩ := Option.map_eq_some_iff.mp h
      obtain ⟨rfl, rfl⟩ := Prod.mk.inj heq
      obtain ⟨htext, hnumber, hend⟩ := takeDigits_spec hdigits
      exact ⟨_, by rw [htext, List.cons_append], .positional hnumber, hend⟩

theorem matchPlaceholder_eq_some (h : matchPlaceholder text = some (p, rest)) :
    Takes text rest p := by
  unfold matchPlaceholder at h
  split at h
  · cases h
  · next u tail =>
      split at h
      · cases h
      · next hdollar =>
          obtain rfl : u = dollar := not_not.mp hdollar
          split at h
          · cases h
          · next v inner =>
              split at h
              · next hbrace =>
                  subst hbrace
                  cases hdefault : matchDefault inner with
                  | some found =>
                    rw [hdefault] at h
                    obtain rfl : found = (p, rest) := Option.some.inj h
                    exact matchDefault_eq_some hdefault
                  | none =>
                    rw [hdefault] at h
                    exact matchSlice_eq_some h
              · exact matchSimple_eq_some h

/-! ## Templates -/

inductive Part where
  | literal (u : UInt16)
  | placeholder (p : Placeholder)
deriving DecidableEq

def Part.value (args : List Text) : Part → Text
  | .literal u => [u]
  | .placeholder p => p.value args

/-- The parts of a template: its placeholders, and the units where none begins. -/
inductive Template : Text → List Part → Prop
  | nil : Template [] []
  | literal {u : UInt16} {rest : Text} {parts : List Part}
      (hnone : ∀ taken after p, u :: rest = taken ++ after → ¬IsPlaceholder taken p)
      (hrest : Template rest parts) : Template (u :: rest) (.literal u :: parts)
  | placeholder {taken rest : Text} {p : Placeholder} {parts : List Part}
      (hp : IsPlaceholder taken p) (hend : p.Ends rest) (hrest : Template rest parts) :
      Template (taken ++ rest) (.placeholder p :: parts)

theorem IsPlaceholder.ne_nil (h : IsPlaceholder text p) : text ≠ [] := by
  cases h <;> exact List.cons_ne_nil _ _

theorem template_of_length (n : Nat) : ∀ content : Text, content.length ≤ n →
    ∃ parts, Template content parts := by
  induction n with
  | zero =>
    intro content hlength
    obtain rfl := List.length_eq_zero_iff.mp (Nat.le_zero.mp hlength)
    exact ⟨[], .nil⟩
  | succ n ih =>
    intro content hlength
    cases content with
    | nil => exact ⟨[], .nil⟩
    | cons u rest =>
      cases hmatch : matchPlaceholder (u :: rest) with
      | none =>
        obtain ⟨parts, hparts⟩ := ih rest (Nat.le_of_succ_le_succ hlength)
        refine ⟨_, .literal ?_ hparts⟩
        intro taken after p htext hp
        rw [htext] at hmatch
        exact matchPlaceholder_ne_none hp after hmatch
      | some found =>
        obtain ⟨p, after⟩ := found
        obtain ⟨taken, htext, hp, hend⟩ := matchPlaceholder_eq_some hmatch
        have htaken := List.length_pos_of_ne_nil hp.ne_nil
        have htotal := congrArg List.length htext
        rw [List.length_append] at htotal
        obtain ⟨parts, hparts⟩ := ih after (by omega)
        rw [htext]
        exact ⟨_, .placeholder hp hend hparts⟩

theorem template_exists (content : Text) : ∃ parts, Template content parts :=
  template_of_length content.length content (Nat.le_refl _)

/-! ## Replacement -/

variable {replacer : Placeholder → Text}

theorem replaceFrom_skip (taken rest : Text) :
    replaceFrom replacer taken.length (taken ++ rest) = replaceFrom replacer 0 rest := by
  induction taken with
  | nil => rfl
  | cons u taken ih => exact ih

theorem replaceFrom_placeholder (hp : IsPlaceholder text p) (hend : p.Ends rest) :
    replaceFrom replacer 0 (text ++ rest) = replacer p ++ replaceFrom replacer 0 rest := by
  have hmatch := matchPlaceholder_append hp hend
  cases text with
  | nil => exact absurd rfl hp.ne_nil
  | cons u taken =>
    rw [List.cons_append] at hmatch ⊢
    rw [replaceFrom, hmatch]
    dsimp only
    rw [List.length_append, Nat.add_sub_cancel, replaceFrom_skip]

theorem replaceFrom_literal {u : UInt16}
    (hnone : ∀ taken after p, u :: rest = taken ++ after → ¬IsPlaceholder taken p) :
    replaceFrom replacer 0 (u :: rest) = u :: replaceFrom replacer 0 rest := by
  rw [replaceFrom]
  cases hmatch : matchPlaceholder (u :: rest) with
  | none => rfl
  | some found =>
    obtain ⟨taken, htext, hp, -⟩ := matchPlaceholder_eq_some hmatch
    exact absurd hp (hnone taken _ _ htext)

/-- Each placeholder of a template is replaced once. -/
theorem substituteArgs_template {content : Text} {parts : List Part} (h : Template content parts)
    (args : List Text) : substituteArgs content args = parts.flatMap (Part.value args) := by
  unfold substituteArgs
  induction h with
  | nil => rfl
  | literal hnone _ ih =>
    rw [replaceFrom_literal hnone, ih]
    rfl
  | placeholder hp hend _ ih =>
    rw [replaceFrom_placeholder hp hend, ih]
    rfl

example : substituteArgs (unitsOf "$1-$\x7b2:-x\x7d-$\x7b@:2\x7d-$ARGUMENTS") [unitsOf "$2"] =
    unitsOf "$2-x--$2" := by decide

end PromptTemplates

end Eagent
