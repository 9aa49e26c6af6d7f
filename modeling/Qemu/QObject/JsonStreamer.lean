import Mathlib.Algebra.Order.Ring.Int
import Qemu.QObject.JsonLexer

/-! The JSON message parser, and how a control byte resets it. -/

namespace Qemu.Json

open Option

/-- What the parser emits: an error of its own, or what `json_parser_parse` gives. -/
inductive Emission (ρ : Type) where
  /-- "JSON parse error, stray '%s'". -/
  | stray (input : List UInt8)
  /-- "JSON token size limit exceeded". -/
  | tokenSize
  /-- "JSON token count limit exceeded". -/
  | tokenCount
  /-- "JSON nesting depth limit exceeded". -/
  | nesting
  | parsed (result : ρ)

/-- `JSONMessageParser` without its lexer; `ap` is what is left of the arguments. -/
structure JSONMessageParser (σ : Type) where
  braceCount : Int
  bracketCount : Int
  tokens : List TokenCall
  tokenSize : Nat
  ap : σ

def maxTokenCount : Nat := 2 <<< 20

def maxNesting : Int := 1024

variable {σ ρ : Type} (parse : σ → List TokenCall → ρ × σ) {lexer : JSONLexer} {byte : UInt8}

/-- The parser with no message begun. -/
def JSONMessageParser.fresh (ap : σ) : JSONMessageParser σ := ⟨0, 0, [], 0, ap⟩

/-- What `json_message_process_token` does with a message that is complete. -/
def parseTokens (parser : JSONMessageParser σ) : JSONMessageParser σ × List (Emission ρ) :=
  (.fresh (parse parser.ap parser.tokens).2, [.parsed (parse parser.ap parser.tokens).1])

def countToken (parser : JSONMessageParser σ) : Code → JSONMessageParser σ
  | .json .lcurly => { parser with braceCount := parser.braceCount + 1 }
  | .json .rcurly => { parser with braceCount := parser.braceCount - 1 }
  | .json .lsquare => { parser with bracketCount := parser.bracketCount + 1 }
  | .json .rsquare => { parser with bracketCount := parser.bracketCount - 1 }
  | _ => parser

def jsonMessageProcessToken (parser : JSONMessageParser σ) (call : TokenCall) :
    JSONMessageParser σ × List (Emission ρ) :=
  let (type, input) := call
  let parser := countToken parser type
  match type with
  | .json .error => (.fresh parser.ap, [.stray input])
  | .json .endOfInput => if parser.tokens = [] then (parser, []) else parseTokens parse parser
  | _ =>
    if parser.tokenSize + input.length + 1 > maxTokenSize then (.fresh parser.ap, [.tokenSize])
    else if parser.tokens.length + 1 > maxTokenCount then (.fresh parser.ap, [.tokenCount])
    else if parser.bracketCount + parser.braceCount > maxNesting then (.fresh parser.ap, [.nesting])
    else
      let parser := { parser with
        tokenSize := parser.tokenSize + input.length, tokens := parser.tokens ++ [call] }
      if (parser.braceCount > 0 ∨ parser.bracketCount > 0) ∧ parser.braceCount ≥ 0 ∧
        parser.bracketCount ≥ 0 then (parser, [])
      else parseTokens parse parser

/-- The calls of the lexer one after the other. -/
def processTokens (parser : JSONMessageParser σ) : List TokenCall →
    JSONMessageParser σ × List (Emission ρ)
  | [] => (parser, [])
  | call :: rest =>
    let (next, emitted) := jsonMessageProcessToken parse parser call
    let (last, more) := processTokens next rest
    (last, emitted ++ more)

/-- Interpolation goes with the arguments. -/
def jsonMessageParserInit (interp : Bool) (ap : σ) : JSONLexer × JSONMessageParser σ :=
  (jsonLexerInit interp, .fresh ap)

/-- The calls do not change the lexer that makes them. -/
def jsonMessageParserFeed (parser : JSONLexer × JSONMessageParser σ) (buffer : List UInt8) :
    Option ((JSONLexer × JSONMessageParser σ) × List (Emission ρ)) := do
  let (lexer, calls) ← jsonLexerFeed parser.1 buffer
  let (streamer, emitted) := processTokens parse parser.2 calls
  some ((lexer, streamer), emitted)

theorem processTokens_append (parser : JSONMessageParser σ) (calls more) :
    processTokens parse parser (calls ++ more) =
      ((processTokens parse (processTokens parse parser calls).1 more).1,
        (processTokens parse parser calls).2 ++
            (processTokens parse (processTokens parse parser calls).1 more).2) := by
  induction calls generalizing parser with
  | nil => simp [processTokens]
  | cons call rest ih => simp [processTokens, ih]

theorem processTokens_error (parser : JSONMessageParser σ) (calls input) :
    ∃ ap emitted, processTokens parse parser (calls ++ [(.json .error, input)]) =
        (.fresh ap, emitted) := by
  rw [processTokens_append]
  exact ⟨_, _, rfl⟩

/-- The bytes of no token: control characters but for white space, and bytes that UTF-8 does not
have. -/
def forcesError (byte : UInt8) : Bool :=
  byte.toNat < 0x20 && byte ∉ ['\t'.toUInt8, '\r'.toUInt8, '\n'.toUInt8] || 0xFE ≤ byte.toNat

theorem feedStep_interp (lexer byte) :
    (feedStep lexer byte false).1.enableInterpolation = lexer.enableInterpolation := by
  rw [feedStep]
  split <;> rfl

theorem jsonLexerFeed_interp {bytes last calls}
    (fed : jsonLexerFeed lexer bytes = some (last, calls)) :
    last.enableInterpolation = lexer.enableInterpolation := by
  induction bytes generalizing lexer calls with
  | nil => cases fed; rfl
  | cons byte rest ih =>
    obtain ⟨⟨next, first⟩, here⟩ := jsonLexerFeedChar_returns lexer byte
    obtain ⟨⟨end_, more⟩, later⟩ := jsonLexerFeed_returns next rest
    simp only [jsonLexerFeed, here, later, bind_eq_bind, bind_some,
      Option.some.injEq, Prod.mk.injEq] at fed
    obtain ⟨rfl, -⟩ := fed
    have jsonLexerFeedChar_interp : next.enableInterpolation = lexer.enableInterpolation := by
      rw [jsonLexerFeedChar, feedLoop_eq] at here
      split_ifs at here
      all_goals
        simp only [bind_eq_bind, bind_some] at here
        split_ifs at here
      all_goals
        cases here
        simp [feedStep_interp]
    exact (ih later).trans jsonLexerFeedChar_interp

/-- A byte that forces an error does so in every lexer state. -/
theorem feedChar_forcesError (lexer) (forces : forcesError byte) : ∃ calls input,
    jsonLexerFeedChar lexer byte false =
      some (⟨lexer.enableInterpolation, .inRecovery, []⟩, calls ++ [(.json .error, input)]) := by
  have table := @jsonLexer_all (fun s ch => forcesError ch = true →
    jsonLexer .inStart ch = stray ∧ jsonLexer .inStartInterp ch = stray ∧
      (jsonLexer s ch = stray ∨ (jsonLexer s ch).lookahead = true))
        (by decide +kernel) lexer.state byte forces
  obtain ⟨start, startInterp, here⟩ := table
  have begun : jsonLexer lexer.startState byte = stray := by
    rw [JSONLexer.startState]
    split_ifs
    · exact startInterp
    · exact start
  rw [jsonLexerFeedChar, feedLoop_eq]
  rcases here with fails | again
  · exact ⟨[], lexer.token ++ [byte], by simp [feedStep, fails, stray]⟩
  · refine ⟨(feedStep lexer byte false).2.1, [byte], ?_⟩
    rw [if_pos again]
    simp [feedStep, begun, stray]

/-- After any input, a byte of no token makes the parser go on like a fresh one. -/
theorem jsonMessageParserFeed_resync {σ ρ : Type}
    (parse : σ → List TokenCall → ρ × σ) (interp : Bool) (ap : σ)
    (p c : List UInt8) (byte : UInt8) (forces : forcesError byte = true) :
    ∃ parser before after emitted,
      jsonMessageParserFeed parse (jsonMessageParserInit interp ap)
        (p ++ [byte]) = some (parser, before) ∧
      jsonMessageParserFeed parse (jsonMessageParserInit interp parser.2.ap)
        ('{'.toUInt8 :: c) = some (after, emitted) ∧
      jsonMessageParserFeed parse (jsonMessageParserInit interp ap)
        (p ++ byte :: '{'.toUInt8 :: c) = some (after, before ++ emitted) := by
  obtain ⟨⟨lexer, calls⟩, fed⟩ := jsonLexerFeed_returns (jsonLexerInit interp) p
  obtain ⟨more, input, forced⟩ := feedChar_forcesError lexer forces
  have same : lexer.enableInterpolation = interp := jsonLexerFeed_interp fed
  obtain ⟨⟨last, others⟩, rest⟩ := jsonLexerFeed_returns (jsonLexerInit interp) ('{'.toUInt8 :: c)
  -- In recovery a brace is looked at again, from the start.
  have brace : jsonLexerFeedChar ⟨interp, .inRecovery, []⟩ '{'.toUInt8 false =
      jsonLexerFeedChar (jsonLexerInit interp) '{'.toUInt8 false := by cases interp <;> rfl
  have recovered : jsonLexerFeed ⟨interp, .inRecovery, []⟩
      ('{'.toUInt8 :: c) = some (last, others) := by
    rw [← rest, jsonLexerFeed, jsonLexerFeed, brace]
  rw [same] at forced
  have first : jsonLexerFeed (jsonLexerInit interp) (p ++ [byte]) =
      some (⟨interp, .inRecovery, []⟩, calls ++ more ++ [(.json .error, input)]) := by
    rw [jsonLexerFeed_append, fed]
    simp [jsonLexerFeed, forced]
  have whole : jsonLexerFeed (jsonLexerInit interp) (p ++ byte :: '{'.toUInt8 :: c) =
      some (last, calls ++ more ++ [(.json .error, input)] ++ others) := by
    rw [List.append_cons, jsonLexerFeed_append, first]
    simp [recovered]
  obtain ⟨left, before, reset⟩ := processTokens_error parse (.fresh ap) (calls ++ more) input
  refine ⟨(⟨interp, .inRecovery, []⟩, .fresh left), before,
    (last, (processTokens parse (.fresh left) others).1),
    (processTokens parse (.fresh left) others).2, ?_, ?_, ?_⟩
  · simp only [jsonMessageParserFeed, jsonMessageParserInit, first, bind_eq_bind, bind_some, reset]
  · simp [jsonMessageParserFeed, jsonMessageParserInit, rest, JSONMessageParser.fresh]
  · rw [jsonMessageParserFeed, jsonMessageParserInit, whole, bind_eq_bind, bind_some]
    simp only [processTokens_append parse _ _ others, reset]

/-- The byte 0xFF after half a string. -/
theorem jsonMessageParserFeed_resync_string :
    ∃ parser before after emitted,
      jsonMessageParserFeed (fun _ tokens => (tokens, ()))
        (jsonMessageParserInit false ()) ['"'.toUInt8, 0xFF] = some (parser, before) ∧
      jsonMessageParserFeed (fun _ tokens => (tokens, ())) (jsonMessageParserInit false parser.2.ap)
        ['{'.toUInt8, '}'.toUInt8] = some (after, emitted) ∧
      jsonMessageParserFeed (fun _ tokens => (tokens, ())) (jsonMessageParserInit false ())
        ['"'.toUInt8, 0xFF, '{'.toUInt8, '}'.toUInt8] = some (after, before ++ emitted) :=
  jsonMessageParserFeed_resync _ false () ['"'.toUInt8] ['}'.toUInt8] 0xFF (by decide)

/-- DEL is part of a string that was begun, and so is what follows. -/
theorem jsonMessageParserFeed_del :
    (jsonMessageParserFeed (fun _ tokens => (tokens, ())) (jsonMessageParserInit false ())
      ['{'.toUInt8, '}'.toUInt8]).map Prod.snd =
        some [.parsed [(.json .lcurly, ['{'.toUInt8]), (.json .rcurly, ['}'.toUInt8])]] ∧
      (jsonMessageParserFeed (fun _ tokens => (tokens, ())) (jsonMessageParserInit false ())
        ['"'.toUInt8, 0x7F, '{'.toUInt8, '}'.toUInt8]).map Prod.snd = some [] :=
  ⟨rfl, rfl⟩

/-- What a token adds to the number of open braces. -/
def braceStep : TokenCall → Int
  | (.json .lcurly, _) => 1
  | (.json .rcurly, _) => -1
  | _ => 0

/-- What a token adds to the number of open brackets. -/
def bracketStep : TokenCall → Int
  | (.json .lsquare, _) => 1
  | (.json .rsquare, _) => -1
  | _ => 0

def totalSize (tokens : List TokenCall) : Nat := (tokens.map (·.2.length)).sum

def openBraces (tokens : List TokenCall) : Int := (tokens.map braceStep).sum

def openBrackets (tokens : List TokenCall) : Int := (tokens.map bracketStep).sum

/-- Tokens within the limits of a message: in number, in size and, wherever one stops, in depth. -/
structure Bounded (tokens : List TokenCall) : Prop where
  count : tokens.length ≤ maxTokenCount
  size : totalSize tokens ≤ maxTokenSize
  depth : ∀ part, part <+: tokens → openBraces part + openBrackets part ≤ maxNesting

/-- Each count of a parser is that of its tokens, which are bounded. -/
structure JSONMessageParser.Counts (parser : JSONMessageParser σ) :
    Prop extends Bounded parser.tokens where
  tokenSize : parser.tokenSize = totalSize parser.tokens
  braces : parser.braceCount = openBraces parser.tokens
  brackets : parser.bracketCount = openBrackets parser.tokens

/-- A parser that counts right, and the results of bounded messages. -/
def Limited (out : JSONMessageParser σ × List (Emission ρ)) : Prop :=
  out.1.Counts ∧ ∀ result, .parsed result ∈ out.2 → ∃ ap tokens, Bounded tokens ∧
    result = (parse ap tokens).1

variable {parse} {parser : JSONMessageParser σ}

theorem JSONMessageParser.Counts.fresh (ap : σ) : (JSONMessageParser.fresh ap).Counts :=
  ⟨⟨Nat.zero_le _, Nat.zero_le _, fun _ start => by rw [List.prefix_nil.mp start]; decide⟩,
    rfl, rfl, rfl⟩

theorem Bounded.append {tokens type input} (bounded : Bounded tokens)
    (count : tokens.length + 1 ≤ maxTokenCount)
    (size : totalSize tokens + input.length ≤ maxTokenSize)
    (depth : openBraces tokens + braceStep (type, input) +
      (openBrackets tokens + bracketStep (type, input)) ≤
      maxNesting) : Bounded (tokens ++ [(type, input)]) where
  count := by simpa using count
  size := by simpa [totalSize] using size
  depth part start := by
    rcases List.prefix_concat_iff.mp start with rfl | start
    · simpa [openBraces, openBrackets] using depth
    · exact bounded.depth part start

theorem Limited.parseTokens (bounded : Bounded parser.tokens) :
    Limited parse (parseTokens parse parser) :=
  ⟨.fresh _, fun _ parsed => ⟨parser.ap, parser.tokens,
    bounded, by simpa [Json.parseTokens] using parsed⟩⟩

/-- A token moves the count of its own kind of brackets, and nothing else. -/
theorem countToken_spec (parser : JSONMessageParser σ) (type input) :
    (countToken parser type).braceCount = parser.braceCount + braceStep (type, input) ∧
      (countToken parser type).bracketCount = parser.bracketCount + bracketStep (type, input) ∧
      (countToken parser type).tokens = parser.tokens ∧
      (countToken parser type).tokenSize = parser.tokenSize := by
  rcases type with state | token
  · simp [countToken, braceStep, bracketStep]
  · cases token <;> simp [countToken, braceStep, bracketStep, Int.sub_eq_add_neg]

/-- One token keeps the counts right, and completes only a bounded message. -/
theorem JSONMessageParser.Counts.process (counts : parser.Counts) (call) :
    Limited parse (jsonMessageProcessToken parse parser call) := by
  obtain ⟨type, input⟩ := call
  obtain ⟨braces, brackets, tokens, size⟩ := countToken_spec parser type input
  unfold jsonMessageProcessToken
  dsimp only
  generalize countToken parser type = counted at *
  rw [counts.tokenSize, ← tokens] at size
  rw [counts.braces, ← tokens] at braces
  rw [counts.brackets, ← tokens] at brackets
  have bounded : Bounded counted.tokens := tokens ▸ counts.toBounded
  split
  · exact ⟨.fresh _, by simp⟩
  · split_ifs
    · exact ⟨⟨bounded, size, by simpa [braceStep] using braces,
        by simpa [bracketStep] using brackets⟩, by simp⟩
    · exact .parseTokens bounded
  · split_ifs with large many deep goesOn
    · exact ⟨.fresh _, by simp⟩
    · exact ⟨.fresh _, by simp⟩
    · exact ⟨.fresh _, by simp⟩
    · exact ⟨⟨bounded.append (by omega) (by omega) (by omega), by simp [size, totalSize],
        by simpa [openBraces] using braces, by simpa [openBrackets] using brackets⟩, by simp⟩
    · exact .parseTokens (bounded.append (by omega) (by omega) (by omega))

/-- Whatever bytes are fed to it, the parser holds no more tokens, bytes and levels than its limits
allow, and passes on no message beyond them. -/
theorem jsonMessageParserFeed_bounded {σ ρ : Type}
    (parse : σ → List TokenCall → ρ × σ) (interp : Bool) (ap : σ)
    (buffer : List UInt8) : ∃ lexer parser emitted,
      jsonMessageParserFeed parse (jsonMessageParserInit interp ap) buffer =
        some ((lexer, parser), emitted) ∧ Limited parse (parser, emitted) := by
  have run (calls) (parser : JSONMessageParser σ) (counts : parser.Counts) :
      Limited parse (processTokens parse parser calls) := by
    induction calls generalizing parser with
    | nil => exact ⟨counts, by simp [processTokens]⟩
    | cons call rest ih =>
      obtain ⟨counts', now⟩ : Limited parse _ := counts.process call
      obtain ⟨final, later⟩ := ih _ counts'
      exact ⟨final, fun result parsed => (List.mem_append.mp parsed).elim
        (now result) (later result)⟩
  obtain ⟨⟨lexer, calls⟩, fed⟩ := jsonLexerFeed_returns (jsonLexerInit interp) buffer
  exact ⟨lexer, _,
    _, by simp only [jsonMessageParserFeed, jsonMessageParserInit, fed, bind_eq_bind, bind_some],
    run calls _ (.fresh ap)⟩

end Qemu.Json
