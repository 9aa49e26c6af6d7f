import Mathlib.Tactic.SplitIfs
import Mathlib.Logic.Basic

/-! The table of the JSON lexer, and the loop that feeds it. -/

namespace Qemu.Json

/-- The states of the lexer, `enum json_lexer_state`. -/
inductive LexerState where
  | inRecovery | inDqStringEscape | inDqString | inSqStringEscape | inSqString | inZero
      | inExpDigits | inExpSign | inExpE
  | inMantissa | inMantissaDigits | inDigits | inSign | inKeyword | inInterp
      | inStart | inStartInterp
  deriving DecidableEq

inductive JSONTokenType where
  | error | lcurly | rcurly | lsquare | rsquare | colon | comma | integer | float | keyword
      | string | interp | endOfInput
  deriving DecidableEq

/-- States and token types have their numbers in common. -/
inductive Code where
  | inState (state : LexerState)
  | json (type : JSONTokenType)
  deriving DecidableEq

/-- A table entry: where to go, and whether to look again. -/
structure Entry where
  next : Code
  lookahead : Bool
  deriving DecidableEq

def isDigit (ch : UInt8) : Bool := 0x30 ≤ ch.toNat && ch.toNat ≤ 0x39

def isLower (ch : UInt8) : Bool := 0x61 ≤ ch.toNat && ch.toNat ≤ 0x7A

def isUpper (ch : UInt8) : Bool := 0x41 ≤ ch.toNat && ch.toNat ≤ 0x5A

/-- A byte that a string may hold. -/
def isText (ch : UInt8) : Bool := 0x20 ≤ ch.toNat && ch.toNat ≤ 0xFD

/-- The byte is consumed. -/
def goto (state : LexerState) : Entry := ⟨.inState state, false⟩

def single (type : JSONTokenType) : Entry := ⟨.json type, false⟩

/-- The byte comes after the token. -/
def terminal (type : JSONTokenType) : Entry := ⟨.json type, true⟩

/-- The entries that the default initialisation leaves. -/
def stray : Entry := ⟨.json .error, false⟩

/-- Where the two start states agree. -/
def startRow (ch : UInt8) : Entry :=
  if ch = '"'.toUInt8 then goto .inDqString
  else if ch = '\''.toUInt8 then goto .inSqString
  else if ch = '0'.toUInt8 then goto .inZero
  else if isDigit ch then goto .inDigits
  else if ch = '-'.toUInt8 then goto .inSign
  else if ch = '{'.toUInt8 then single .lcurly
  else if ch = '}'.toUInt8 then single .rcurly
  else if ch = '['.toUInt8 then single .lsquare
  else if ch = ']'.toUInt8 then single .rsquare
  else if ch = ','.toUInt8 then single .comma
  else if ch = ':'.toUInt8 then single .colon
  else if isLower ch then goto .inKeyword
  else if ch = ' '.toUInt8 ∨ ch = '\t'.toUInt8 ∨ ch = '\r'.toUInt8 ∨
    ch = '\n'.toUInt8 then goto .inStart
  else stray

/-- The table `json_lexer`. -/
def jsonLexer (state : LexerState) (ch : UInt8) : Entry :=
  match state with
  | .inRecovery =>
    if ch = '['.toUInt8 ∨ ch = ']'.toUInt8 ∨ ch = '{'.toUInt8 ∨ ch = '}'.toUInt8 ∨
      ch = ':'.toUInt8 ∨ ch = ','.toUInt8 then ⟨.inState .inStart, true⟩
    else if ch = '\t'.toUInt8 ∨ isText ch then goto .inRecovery
    else ⟨.inState .inStart, true⟩
  | .inDqStringEscape => if isText ch then goto .inDqString else stray
  | .inDqString =>
    if ch = '\\'.toUInt8 then goto .inDqStringEscape
    else if ch = '"'.toUInt8 then single .string
    else if isText ch then goto .inDqString
    else stray
  | .inSqStringEscape => if isText ch then goto .inSqString else stray
  | .inSqString =>
    if ch = '\\'.toUInt8 then goto .inSqStringEscape
    else if ch = '\''.toUInt8 then single .string
    else if isText ch then goto .inSqString
    else stray
  | .inZero => if isDigit ch then stray else if ch = '.'.toUInt8
      then goto .inMantissa else terminal .integer
  | .inExpDigits => if isDigit ch then goto .inExpDigits else terminal .float
  | .inExpSign => if isDigit ch then goto .inExpDigits else stray
  | .inExpE =>
    if ch = '-'.toUInt8 ∨ ch = '+'.toUInt8 then goto .inExpSign
    else if isDigit ch then goto .inExpDigits
    else stray
  | .inMantissaDigits =>
    if isDigit ch then goto .inMantissaDigits
    else if ch = 'e'.toUInt8 ∨ ch = 'E'.toUInt8 then goto .inExpE
    else terminal .float
  | .inMantissa => if isDigit ch then goto .inMantissaDigits else stray
  | .inDigits =>
    if isDigit ch then goto .inDigits
    else if ch = 'e'.toUInt8 ∨ ch = 'E'.toUInt8 then goto .inExpE
    else if ch = '.'.toUInt8 then goto .inMantissa else terminal .integer
  | .inSign => if ch = '0'.toUInt8 then goto .inZero else if isDigit ch
      then goto .inDigits else stray
  | .inKeyword => if isLower ch then goto .inKeyword else terminal .keyword
  | .inInterp => if isUpper ch ∨ isLower ch ∨ isDigit ch then goto .inInterp else terminal .interp
  | .inStart => startRow ch
  | .inStartInterp => if ch = '%'.toUInt8 then goto .inInterp else startRow ch

structure JSONLexer where
  enableInterpolation : Bool
  state : LexerState
  token : List UInt8
  deriving DecidableEq

/-- The field `start_state`. -/
def JSONLexer.startState (lexer : JSONLexer) : LexerState :=
  if lexer.enableInterpolation then .inStartInterp else .inStart

/-- A call of `json_message_process_token`: the type and the input. -/
abbrev TokenCall := Code × List UInt8

def maxTokenSize : Nat := 64 <<< 20

def jsonLexerInit (enableInterpolation : Bool) : JSONLexer :=
  ⟨enableInterpolation, if enableInterpolation then .inStartInterp else .inStart, []⟩

/-- The body of `json_lexer_feed_char`'s loop, with whether the byte is consumed. -/
def feedStep (lexer : JSONLexer) (ch : UInt8) (flush : Bool) : JSONLexer × List TokenCall × Bool :=
  let entry := jsonLexer lexer.state ch
  let charConsumed := !flush && !entry.lookahead
  let token := if charConsumed then lexer.token ++ [ch] else lexer.token
  match entry.next with
  | .json .error => ({ lexer with state := .inRecovery, token := [] },
      [(.json .error, token)], charConsumed)
  | .json type => ({ lexer with state := lexer.startState, token := [] },
      [(.json type, token)], charConsumed)
  | .inState .inStart => ({ lexer with state := lexer.startState, token := [] }, [], charConsumed)
  | .inState .inRecovery => ({ lexer with state := .inRecovery, token := [] }, [], charConsumed)
  | .inState state => ({ lexer with state, token }, [], charConsumed)

/-- The condition that ends the loop of `json_lexer_feed_char`. -/
def loopEnds (flush charConsumed : Bool) (lexer : JSONLexer) : Bool :=
  if flush then lexer.state = lexer.startState else charConsumed

/-- The loop of `json_lexer_feed_char`; nothing at the bound on its rounds. -/
def feedLoop (ch : UInt8) (flush : Bool) : Nat → Bool → JSONLexer →
    Option (JSONLexer × List TokenCall)
  | 0, charConsumed, lexer => if loopEnds flush charConsumed lexer then some (lexer, []) else none
  | rounds + 1, charConsumed, lexer =>
    if loopEnds flush charConsumed lexer then some (lexer, []) else
      let (next, calls, charConsumed) := feedStep lexer ch flush
      (feedLoop ch flush rounds charConsumed next).map fun (last, more) => (last, calls ++ more)

/-- No byte takes more than two rounds. -/
def jsonLexerFeedChar (lexer : JSONLexer) (ch : UInt8) (flush : Bool) :
    Option (JSONLexer × List TokenCall) := do
  let (lexer, calls) ← feedLoop ch flush 2 false lexer
  if lexer.token.length > maxTokenSize then
    some ({ lexer with token := [], state := lexer.startState },
      calls ++ [(.inState lexer.state, lexer.token)])
  else some (lexer, calls)

/-- With the calls in their order. -/
def jsonLexerFeed (lexer : JSONLexer) : List UInt8 → Option (JSONLexer × List TokenCall)
  | [] => some (lexer, [])
  | ch :: rest => do
    let (next, calls) ← jsonLexerFeedChar lexer ch false
    let (last, more) ← jsonLexerFeed next rest
    some (last, calls ++ more)

variable {lexer : JSONLexer} {ch : UInt8}

def allStates : List LexerState :=
  [.inRecovery, .inDqStringEscape, .inDqString, .inSqStringEscape, .inSqString, .inZero,
    .inExpDigits, .inExpSign, .inExpE,
    .inMantissa, .inMantissaDigits, .inDigits, .inSign, .inKeyword, .inInterp,
      .inStart, .inStartInterp]

theorem jsonLexer_all {holds : LexerState → UInt8 → Prop}
    (all : ∀ byte < 256, ∀ s ∈ allStates, holds s (.ofNat byte)) (s ch) : holds s ch := by
  have here := all ch.toNat ch.toNat_lt s (by cases s <;> simp [allStates])
  rwa [UInt8.ofNat_toNat] at here

theorem jsonLexer_startState (lexer : JSONLexer) (ch : UInt8) :
    (jsonLexer lexer.startState ch).lookahead = false := by
  have all := @jsonLexer_all (fun s ch => s = .inStart ∨ s = .inStartInterp →
    (jsonLexer s ch).lookahead = false) (by decide +kernel) lexer.startState ch
  refine all ?_
  rw [JSONLexer.startState]
  split_ifs <;> simp

/-- A lookahead ends the token and leaves the byte to the next. -/
theorem feedStep_lookahead (again : (jsonLexer lexer.state ch).lookahead) :
    ∃ calls, feedStep lexer ch false =
        ({ lexer with state := lexer.startState, token := [] }, calls, false) := by
  have all := @jsonLexer_all (fun s ch => (jsonLexer s ch).lookahead = true →
    (jsonLexer s ch).next = .inState .inStart ∨
    (∃ type ∈ [JSONTokenType.integer, .float, .keyword, .interp],
      (jsonLexer s ch).next = .json type)) (by decide +kernel) lexer.state ch again
  rw [feedStep]
  rcases all with start | ⟨type, mem, token⟩
  · exact ⟨[], by simp [start, again]⟩
  · refine ⟨[(.json type, lexer.token)], ?_⟩
    simp only [List.mem_cons, List.not_mem_nil, or_false] at mem
    rcases mem with rfl | rfl | rfl | rfl
    all_goals simp [token, again]

theorem feedStep_consumed (once : (jsonLexer lexer.state ch).lookahead = false) :
    (feedStep lexer ch false).2.2 := by
  rw [feedStep]
  simp only [once]
  split <;> rfl

/-- A byte takes at most two turns. -/
theorem feedLoop_eq (lexer : JSONLexer) (ch : UInt8) : feedLoop ch false 2 false lexer =
      if (jsonLexer lexer.state ch).lookahead then
        let start := { lexer with state := lexer.startState, token := [] }
        some ((feedStep start ch false).1, (feedStep lexer ch false).2.1 ++
          (feedStep start ch false).2.1)
      else some ((feedStep lexer ch false).1, (feedStep lexer ch false).2.1) := by
  rw [feedLoop]
  by_cases again : (jsonLexer lexer.state ch).lookahead = true
  · obtain ⟨calls, step⟩ := feedStep_lookahead again
    have once := @feedStep_consumed { lexer with state := lexer.startState, token := [] } ch
      (jsonLexer_startState lexer ch)
    simp [step, again, feedLoop, loopEnds, once]
  · have once := feedStep_consumed (Bool.not_eq_true _ ▸ again)
    simp [again, feedLoop, loopEnds, once]

theorem jsonLexerFeedChar_returns (lexer ch) : ∃ result,
    jsonLexerFeedChar lexer ch false = some result := by
  rw [jsonLexerFeedChar, feedLoop_eq]
  split_ifs
  all_goals
    simp only [Option.bind_eq_bind, Option.bind_some]
    split_ifs <;> exact ⟨_, rfl⟩

theorem jsonLexerFeed_returns (lexer bytes) : ∃ result,
    jsonLexerFeed lexer bytes = some result := by
  induction bytes generalizing lexer with
  | nil => exact ⟨_, rfl⟩
  | cons ch rest ih =>
    obtain ⟨⟨next, calls⟩, first⟩ := jsonLexerFeedChar_returns lexer ch
    obtain ⟨⟨last, more⟩, later⟩ := ih next
    exact ⟨(last, calls ++ more), by simp [jsonLexerFeed, first, later]⟩

theorem jsonLexerFeed_append (lexer bytes more) : jsonLexerFeed lexer (bytes ++ more) = (do
      let (next, calls) ← jsonLexerFeed lexer bytes
      let (last, others) ← jsonLexerFeed next more
      some (last, calls ++ others)) := by
  induction bytes generalizing lexer with
  | nil =>
    obtain ⟨res, fed⟩ := jsonLexerFeed_returns lexer more
    simp [jsonLexerFeed, fed]
  | cons ch rest ih => simp [jsonLexerFeed, ih, Option.bind_assoc]

end Qemu.Json
