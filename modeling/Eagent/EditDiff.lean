import Mathlib.Data.List.DropRight
import Eagent.TextBlocks

/-!
# Edits of a file

`edit-diff.ts` and what the edit tool does with it: the file's text loses
its BOM and its line ends become line feeds, the edits are matched (exactly,
or in a normalised form), the matched regions are replaced, and the line end
and the BOM come back. Texts are lists of UTF-16 units; NFKC is a parameter.
-/

namespace Eagent

/-- A string: its UTF-16 units. -/
abbrev Text := List UInt16

namespace EditTool

def lf : UInt16 := 10

def cr : UInt16 := 13

def bomUnit : UInt16 := 0xFEFF

/-! ## Line ends -/

inductive LineEnding where
  | crlf
  | lf
deriving Repr, DecidableEq

/-- `content.indexOf(pattern)` -/
def indexOf (pattern : Text) : Text → Option Nat
  | [] => if pattern = [] then some 0 else none
  | u :: rest =>
      if pattern.isPrefixOf (u :: rest) then some 0 else (indexOf pattern rest).map (· + 1)

def detectLineEnding (content : Text) : LineEnding :=
  let crlfIdx := indexOf [cr, lf] content
  let lfIdx := indexOf [lf] content
  match lfIdx, crlfIdx with
  | none, _ => .lf
  | some _, none => .lf
  | some lfIdx, some crlfIdx => if crlfIdx < lfIdx then .crlf else .lf

/-- `text.replace(/\r\n/g, "\n")` -/
def replaceCrlf : Text → Text
  | [] => []
  | [u] => [u]
  | u :: v :: rest => if u = cr ∧ v = lf then lf :: replaceCrlf rest else u :: replaceCrlf (v :: rest)

def normalizeToLF (text : Text) : Text := (replaceCrlf text).map fun u => if u = cr then lf else u

def restoreLineEndings (text : Text) (ending : LineEnding) : Text :=
  match ending with
  | .crlf => text.flatMap fun u => if u = lf then [cr, lf] else [u]
  | .lf => text

structure StrippedBom where
  bom : Text
  text : Text
deriving DecidableEq

def stripBom : Text → StrippedBom
  | u :: rest => if u = bomUnit then ⟨[bomUnit], rest⟩ else ⟨[], u :: rest⟩
  | [] => ⟨[], []⟩

/-! ## Fuzzy matching -/

/-- What `trimEnd` strips. -/
def isWhitespace (u : UInt16) : Bool :=
  (9 ≤ u && u ≤ 13) || u = 32 || u = 0xA0 || u = 0x1680 || (0x2000 ≤ u && u ≤ 0x200A) ||
    u = 0x2028 || u = 0x2029 || u = 0x202F || u = 0x205F || u = 0x3000 || u = 0xFEFF

/-- Quotes, dashes and spaces become those of ASCII. -/
def fuzzyUnit (u : UInt16) : UInt16 :=
  if 0x2018 ≤ u && u ≤ 0x201B then 39
  else if 0x201C ≤ u && u ≤ 0x201F then 34
  else if (0x2010 ≤ u && u ≤ 0x2015) || u = 0x2212 then 45
  else if u = 0xA0 || (0x2002 ≤ u && u ≤ 0x200A) || u = 0x202F || u = 0x205F || u = 0x3000 then 32
  else u

def normalizeForFuzzyMatch (nfkc : Text → Text) (text : Text) : Text :=
  ([lf].intercalate (((nfkc text).splitOn lf).map (·.rdropWhile isWhitespace))).map fuzzyUnit

structure FuzzyMatchResult where
  found : Bool
  index : Nat
  matchLength : Nat
  usedFuzzyMatch : Bool

def fuzzyFindText (nfkc : Text → Text) (content oldText : Text) : FuzzyMatchResult :=
  match indexOf oldText content with
  | some index => ⟨true, index, oldText.length, false⟩
  | none =>
      let fuzzyContent := normalizeForFuzzyMatch nfkc content
      let fuzzyOldText := normalizeForFuzzyMatch nfkc oldText
      match indexOf fuzzyOldText fuzzyContent with
      | some index => ⟨true, index, fuzzyOldText.length, true⟩
      | none => ⟨false, 0, 0, false⟩

/-- How often a separator that is not empty splits a text, after `skip` more
units of the last one. -/
def countSplits (separator : Text) (skip : Nat) : Text → Nat
  | [] => 0
  | u :: rest => match skip with
      | skip + 1 => countSplits separator skip rest
      | 0 =>
          if separator.isPrefixOf (u :: rest) then
            countSplits separator (separator.length - 1) rest + 1
          else countSplits separator 0 rest

/-- `fuzzyContent.split(fuzzyOldText).length - 1`; an empty separator splits
between all units. -/
def countOccurrences (nfkc : Text → Text) (content oldText : Text) : Nat :=
  let fuzzyContent := normalizeForFuzzyMatch nfkc content
  let fuzzyOldText := normalizeForFuzzyMatch nfkc oldText
  if fuzzyOldText = [] then fuzzyContent.length - 1 else countSplits fuzzyOldText 0 fuzzyContent

/-! ## Errors -/

inductive EditError where
  | emptyOldText (editIndex totalEdits : Nat)
  | notFound (editIndex totalEdits : Nat)
  | duplicate (editIndex totalEdits occurrences : Nat)
  | overlap (previous current : Nat)
  | lineCount
  | outside
  | noChange (totalEdits : Nat)
deriving Repr, DecidableEq

def EditError.message (path : String) : EditError → String
  | emptyOldText editIndex totalEdits =>
      if totalEdits = 1 then s!"oldText must not be empty in {path}."
      else s!"edits[{editIndex}].oldText must not be empty in {path}."
  | notFound editIndex totalEdits =>
      if totalEdits = 1 then
        s!"Could not find the exact text in {path}. " ++
          "The old text must match exactly including all whitespace and newlines."
      else
        s!"Could not find edits[{editIndex}] in {path}. " ++
          "The oldText must match exactly including all whitespace and newlines."
  | duplicate editIndex totalEdits occurrences =>
      if totalEdits = 1 then
        s!"Found {occurrences} occurrences of the text in {path}. " ++
          "The text must be unique. Please provide more context to make it unique."
      else
        s!"Found {occurrences} occurrences of edits[{editIndex}] in {path}. " ++
          "Each oldText must be unique. Please provide more context to make it unique."
  | overlap previous current =>
      s!"edits[{previous}] and edits[{current}] overlap in {path}. " ++
        "Merge them into one edit or target disjoint regions."
  | lineCount =>
      "Cannot preserve unchanged lines because the base content has a different line count."
  | outside => "Replacement range is outside the base content."
  | noChange totalEdits =>
      if totalEdits = 1 then
        s!"No changes made to {path}. The replacement produced identical content. " ++
          "This might indicate an issue with special characters or the text not existing " ++
          "as expected."
      else s!"No changes made to {path}. The replacements produced identical content."

/-! ## Replacements -/

structure MatchedEdit where
  editIndex : Nat
  matchIndex : Nat
  matchLength : Nat
  newText : Text
deriving DecidableEq

structure LineSpan where
  start : Nat
  stop : Nat

/-- The matches of `/[^\n]*\n|[^\n]+/g`. -/
def splitLinesWithEndings : Text → List Text
  | [] => []
  | u :: rest =>
      if u = lf then [lf] :: splitLinesWithEndings rest
      else match splitLinesWithEndings rest with
        | [] => [[u]]
        | line :: lines => (u :: line) :: lines

def lineSpansFrom : Nat → List Text → List LineSpan
  | _, [] => []
  | offset, line :: lines =>
      ⟨offset, offset + line.length⟩ :: lineSpansFrom (offset + line.length) lines

def getLineSpans (content : Text) : List LineSpan :=
  lineSpansFrom 0 (splitLinesWithEndings content)

structure LineRange where
  startLine : Nat
  endLine : Nat

def getReplacementLineRange (lines : List LineSpan) (replacement : MatchedEdit) :
    Except EditError LineRange :=
  let replacementStart := replacement.matchIndex
  let replacementEnd := replacement.matchIndex + replacement.matchLength
  match lines.findIdx? fun line => line.start ≤ replacementStart ∧ replacementStart < line.stop with
  | none => .error .outside
  | some startLine =>
      match (lines.drop startLine).findIdx? fun line => replacementEnd ≤ line.stop with
      | none => .error .outside
      | some more => .ok ⟨startLine, startLine + more + 1⟩

def applyReplacements (content : Text) (replacements : List MatchedEdit) (offset : Nat) : Text :=
  replacements.foldr
    (fun replacement result =>
      let matchIndex := replacement.matchIndex - offset
      result.take matchIndex ++ replacement.newText ++
        result.drop (matchIndex + replacement.matchLength))
    content

/-- Lines that are rewritten together. -/
structure LineGroup where
  startLine : Nat
  endLine : Nat
  replacements : List MatchedEdit
deriving DecidableEq

def sortEdits (edits : List MatchedEdit) : List MatchedEdit :=
  edits.mergeSort fun a b => a.matchIndex ≤ b.matchIndex

/-- One turn of the loop over the sorted replacements. -/
def addToGroups (lines : List LineSpan) (groups : List LineGroup) (replacement : MatchedEdit) :
    Except EditError (List LineGroup) := do
  let range ← getReplacementLineRange lines replacement
  let group : LineGroup := ⟨range.startLine, range.endLine, [replacement]⟩
  match groups.getLast? with
  | none => pure (groups ++ [group])
  | some current =>
      if range.startLine < current.endLine then
        pure (groups.dropLast ++
          [⟨current.startLine, max current.endLine range.endLine,
            current.replacements ++ [replacement]⟩])
      else pure (groups ++ [group])

def groupReplacements (lines : List LineSpan) (replacements : List MatchedEdit) :
    Except EditError (List LineGroup) :=
  (sortEdits replacements).foldlM (addToGroups lines) []

def groupBlock (baseContent : Text) (baseLines : List LineSpan) (group : LineGroup) :
    TextBlocks.Block UInt16 where
  first := group.startLine
  last := group.endLine
  text :=
    let groupStartOffset := (baseLines[group.startLine]?).elim 0 (·.start)
    let groupEndOffset := (baseLines[group.endLine - 1]?).elim 0 (·.stop)
    applyReplacements ((baseContent.take groupEndOffset).drop groupStartOffset) group.replacements
      groupStartOffset

def applyReplacementsPreservingUnchangedLines (originalContent baseContent : Text)
    (replacements : List MatchedEdit) : Except EditError Text := do
  let originalLines := splitLinesWithEndings originalContent
  let baseLines := getLineSpans baseContent
  if originalLines.length ≠ baseLines.length then throw .lineCount
  let groups ← groupReplacements baseLines replacements
  pure (TextBlocks.weave originalLines 0 (groups.map (groupBlock baseContent baseLines)))

/-! ## Applying edits -/

structure Edit where
  oldText : Text
  newText : Text

/-- The edits found in the content that is their base. -/
structure EditPlan where
  usedFuzzyMatch : Bool
  replacementBaseContent : Text
  matchedEdits : List MatchedEdit
deriving DecidableEq

def matchEdit (nfkc : Text → Text) (replacementBaseContent : Text) (totalEdits : Nat)
    (edit : Edit) (i : Nat) : Except EditError MatchedEdit := do
  let matchResult := fuzzyFindText nfkc replacementBaseContent edit.oldText
  if !matchResult.found then throw (.notFound i totalEdits)
  let occurrences := countOccurrences nfkc replacementBaseContent edit.oldText
  if occurrences > 1 then throw (.duplicate i totalEdits occurrences)
  pure ⟨i, matchResult.index, matchResult.matchLength, edit.newText⟩

def checkOverlaps : List MatchedEdit → Except EditError Unit
  | previous :: current :: rest =>
      if previous.matchIndex + previous.matchLength > current.matchIndex then
        .error (.overlap previous.editIndex current.editIndex)
      else checkOverlaps (current :: rest)
  | _ => .ok ()

def planEdits (nfkc : Text → Text) (normalizedContent : Text) (edits : List Edit) :
    Except EditError EditPlan := do
  let normalizedEdits := edits.map fun edit =>
    (⟨normalizeToLF edit.oldText, normalizeToLF edit.newText⟩ : Edit)
  match normalizedEdits.findIdx? (·.oldText.length = 0) with
  | some i => throw (.emptyOldText i normalizedEdits.length)
  | none => pure ()
  let initialMatches := normalizedEdits.map fun edit =>
    fuzzyFindText nfkc normalizedContent edit.oldText
  let usedFuzzyMatch := initialMatches.any (·.usedFuzzyMatch)
  let replacementBaseContent :=
    if usedFuzzyMatch then normalizeForFuzzyMatch nfkc normalizedContent else normalizedContent
  let found ← normalizedEdits.zipIdx.mapM fun edit =>
    matchEdit nfkc replacementBaseContent normalizedEdits.length edit.1 edit.2
  let matchedEdits := sortEdits found
  checkOverlaps matchedEdits
  pure ⟨usedFuzzyMatch, replacementBaseContent, matchedEdits⟩

def EditPlan.newContent (plan : EditPlan) (normalizedContent : Text) : Except EditError Text :=
  if plan.usedFuzzyMatch then
    applyReplacementsPreservingUnchangedLines normalizedContent plan.replacementBaseContent
      plan.matchedEdits
  else .ok (applyReplacements plan.replacementBaseContent plan.matchedEdits 0)

structure AppliedEditsResult where
  baseContent : Text
  newContent : Text
deriving DecidableEq

def applyEditsToNormalizedContent (nfkc : Text → Text) (normalizedContent : Text)
    (edits : List Edit) : Except EditError AppliedEditsResult := do
  let plan ← planEdits nfkc normalizedContent edits
  let newContent ← plan.newContent normalizedContent
  if normalizedContent = newContent then throw (.noChange edits.length)
  pure ⟨normalizedContent, newContent⟩

/-- What `execute` writes for what it has read. -/
def editContent (nfkc : Text → Text) (rawContent : Text) (edits : List Edit) :
    Except EditError Text := do
  let stripped := stripBom rawContent
  let originalEnding := detectLineEnding stripped.text
  let normalizedContent := normalizeToLF stripped.text
  let result ← applyEditsToNormalizedContent nfkc normalizedContent edits
  pure (stripped.bom ++ restoreLineEndings result.newContent originalEnding)

end EditTool

end Eagent
