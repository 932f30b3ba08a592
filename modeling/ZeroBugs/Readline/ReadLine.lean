import ZeroBugs.Lib.PrefixRange

/-! # The line editor -/
namespace ZeroBugs.Readline

abbrev Text := List Char

inductive Key where
  | enter
  | up
  | down
  | left
  | right
  | delete
  | deletePrev
  | home
  | toEnd
  | tab
  | other (ch : Int)

def keyEnter : Int := 0x0A

def keyTab : Int := 0x09

def Key.of (ch : Int) : Key :=
  if ch = keyEnter then .enter
  else if ch = 0x415B then .up
  else if ch = 0x425B then .down
  else if ch = 0x445B then .left
  else if ch = 0x435B then .right
  else if ch = 0x7E335B then .delete
  else if ch = 0x08 ∨ ch = 0x7F then .deletePrev
  else if ch = 0x7E315B ∨ ch = 0x485B ∨ ch = 0x484F then .home
  else if ch = 0x7E345B ∨ ch = 0x465B ∨ ch = 0x464F then .toEnd
  else if ch = keyTab then .tab
  else .other ch

/-- `Term::readkey`: at the end of the input, `EOF`. Up to four bytes behind an escape are
the bytes of an `int`; there need not be any. -/
def readkey : List UInt8 → Int × List UInt8
  | [] => (-1, [])
  | 27 :: rest =>
    let bytes := rest.take 4
    (Int.bmod (bytes.foldr (fun b n => b.toNat + 256 * n) 0) (2 ^ 32), rest.drop 4)
  | c :: rest => (Int.bmod c.toNat 256, rest)

def stringSet (strings : List Text) : List Text := strings.dedup.insertionSort (· ≤ ·)

/-- `find_matches`: from the lower bound, as long as the tokens match. -/
def findMatches (set : List Text) (text : Text) : List Text :=
  (set.dropWhile (· < text)).takeWhile text.isPrefixOf

/-- The character at an index. Behind the NUL there is none. -/
def charAt (m : Text) (n : Nat) : Option Char := (m ++ ['\x00'])[n]?

/-- The inner loop of `longest_match`, over a column. -/
def scanColumn (c : Char) (n : Nat) : List Text → Option Text
  | [] => some []
  | m :: ms => (charAt m n).bind fun d => if d ≠ c then some (m.take n) else scanColumn c n ms

def longestLoop (first : Text) (rest : List Text) : Nat → Nat → Option Text
  | 0, _ => none
  | fuel + 1, n =>
    (charAt first n).bind fun c => (scanColumn c n rest).bind fun s =>
      if s ≠ [] then some s else longestLoop first rest fuel (n + 1)

/-- `longest_match`; `none` if it reads behind a NUL, as it does behind that of the first
string at the latest. -/
def longestMatch : List Text → Option Text
  | [] => some []
  | first :: rest => longestLoop first rest (first.length + 2) 0

def completeWord (found : List Text) (word : Text) : Option Text :=
  match found with
  | [] => some word
  | [m] => some m
  | front :: _ => if word.length < front.length then longestMatch found else some word

def wordStart (buffer : Text) : Nat := (buffer.reverse.dropWhile (· ≠ ' ')).length

def matchWord (buffer : Text) : Text := buffer.drop (wordStart buffer)

def kMaxDisplayEntries : Nat := 100

/-- Where the next key is read; a read behind a NUL is not defined. -/
inductive Mode where
  | editing
  | asking
  | returned
  | undefined
  deriving DecidableEq

structure ReadLine where
  history : List Text
  autoCompleteFunc : Option (Text → Text → List Text)

structure State where
  buffer : Text
  pos : Nat
  /-- `matches_` -/
  cache : List Text
  histIter : Nat
  mode : Mode
  /-- What `display_strings` got for the last completion key. -/
  shown : List Text
  deriving DecidableEq

variable (rl : ReadLine)

def ReadLine.start : State := ⟨[], 0, [], rl.history.length, .editing, []⟩

namespace State

variable (s : State)

def setBuffer (buffer : Text) : State := { s with buffer := buffer, pos := buffer.length }

def moveCursorLeft : State := if 0 < s.pos then { s with pos := s.pos - 1 } else s

def moveCursorRight : State := if s.pos < s.buffer.length then { s with pos := s.pos + 1 } else s

def showPrevHistoryEntry (history : List Text) : State :=
  if s.histIter ≠ 0 then
    { s.setBuffer (history.getD (s.histIter - 1) []) with histIter := s.histIter - 1 }
  else s

def showNextHistoryEntry (history : List Text) : State :=
  if s.histIter ≠ history.length ∧ s.histIter + 1 ≠ history.length then
    { s.setBuffer (history.getD (s.histIter + 1) []) with histIter := s.histIter + 1 }
  else s

def deleteCurrentChar : State :=
  if s.pos < s.buffer.length then { s with buffer := s.buffer.eraseIdx s.pos, cache := [] } else s

def deletePrevChar : State :=
  if 0 < s.pos then
    { s with buffer := s.buffer.eraseIdx (s.pos - 1), pos := s.pos - 1, cache := [] }
  else s

/-- At the end of the buffer the candidates are kept. -/
def insertChar (ch : Char) : State :=
  if s.pos < s.buffer.length then
    { s with
      buffer := s.buffer.take s.pos ++ ch :: s.buffer.drop s.pos
      pos := s.pos + 1
      cache := [] }
  else { s with buffer := s.buffer ++ [ch], pos := s.pos + 1 }

/-- `complete_word` behind the question. The word ends with the buffer. -/
def finish (showEntries : Bool) : State :=
  let s := { s with mode := .editing, shown := if showEntries then s.cache else [] }
  match completeWord s.cache (matchWord s.buffer) with
  | none => { s with mode := .undefined }
  | some word =>
    if (matchWord s.buffer).length < (s.cache.headD []).length then
      s.setBuffer (s.buffer.take (wordStart s.buffer) ++ word)
    else s

/-- `complete_word` and `handle_auto_complete`, with the candidates that start with the word. -/
def complete (found : List Text) : State :=
  match found with
  | [] => { s with cache := [], shown := [] }
  | [m] => { s.setBuffer (s.buffer.take (wordStart s.buffer) ++ m) with cache := [], shown := [] }
  | _ =>
    if kMaxDisplayEntries < found.length then
      { s with cache := found, shown := [], mode := .asking }
    else { s with cache := found }.finish true

def handleAutoComplete (func : Option (Text → Text → List Text)) : State :=
  match func with
  | none => s
  | some f =>
    let candidates := if s.cache = [] then f (matchWord s.buffer) s.buffer else s.cache
    s.complete (findMatches (stringSet candidates) (matchWord s.buffer))

def edit : Key → State
  | .enter => { s with mode := .returned }
  | .up => s.showPrevHistoryEntry rl.history
  | .down => s.showNextHistoryEntry rl.history
  | .left => s.moveCursorLeft
  | .right => s.moveCursorRight
  | .delete => s.deleteCurrentChar
  | .deletePrev => s.deletePrevChar
  | .home => { s with pos := 0 }
  | .toEnd => { s with pos := s.buffer.length }
  | .tab => s.handleAutoComplete rl.autoCompleteFunc
  | .other ch =>
    { (if 32 ≤ ch ∧ ch < 127 then s.insertChar (Char.ofNat ch.toNat) else s) with
      histIter := rl.history.length }

def isYes (ch : Int) : Bool := ch = 'y'.toNat || ch = 'Y'.toNat

def isNo (ch : Int) : Bool := ch = 'n'.toNat || ch = 'N'.toNat

def press (ch : Int) : State :=
  match s.mode with
  | .editing => s.edit rl (.of ch)
  | .asking => if isYes ch then s.finish true else if isNo ch then s.finish false else s
  | _ => s

end State

section

variable {s : State}

/-- Keys other than these two go on with the candidates, or drop them. -/
theorem edit_of_ne {k : Key} (henter : k ≠ .enter) (htab : k ≠ .tab) :
    (s.edit rl k).mode = s.mode ∧
      ((s.edit rl k).cache = s.cache ∨ (s.edit rl k).cache = []) := by
  cases k with
  | enter => exact absurd rfl henter
  | tab => exact absurd rfl htab
  | home | toEnd => exact ⟨rfl, .inl rfl⟩
  | up | down | left | right =>
    simp only [State.edit, State.showPrevHistoryEntry, State.showNextHistoryEntry,
      State.moveCursorLeft, State.moveCursorRight]
    split <;> exact ⟨rfl, .inl rfl⟩
  | delete | deletePrev =>
    simp only [State.edit, State.deleteCurrentChar, State.deletePrevChar]
    split
    · exact ⟨rfl, .inr rfl⟩
    · exact ⟨rfl, .inl rfl⟩
  | other ch =>
    simp only [State.edit, State.insertChar]
    split
    · split
      · exact ⟨rfl, .inr rfl⟩
      · exact ⟨rfl, .inl rfl⟩
    · exact ⟨rfl, .inl rfl⟩

theorem mode_finish (answer : Bool) :
    (s.finish answer).mode = .editing ∨ (s.finish answer).mode = .undefined := by
  unfold State.finish
  dsimp only
  split
  · exact .inr rfl
  · split <;> exact .inl rfl

end

def ReadLine.after (keys : List Int) : State := keys.foldl (State.press rl) rl.start

variable {rl}

theorem after_concat (keys : List Int) (ch : Int) :
    rl.after (keys ++ [ch]) = (rl.after keys).press rl ch := List.foldl_concat _ _ _ _

theorem after_editing {keys : List Int} (h : (rl.after keys).mode = .editing) (ch : Int) :
    rl.after (keys ++ [ch]) = (rl.after keys).edit rl (.of ch) := by
  rw [after_concat, State.press, h]

end ZeroBugs.Readline
