import Qemu.QObject.JsonLexer
import Qemu.Lib.ClassLanguage
import Mathlib.Tactic.Abel

/-! The numbers that the lexer takes, against the grammar of RFC 8259. -/

namespace Qemu.Json

open ClassLanguage Computability List Language

def digit : Language UInt8 := ofClass fun ch => isDigit ch = true

def zero : Language UInt8 := ofClass fun ch => ch = '0'.toUInt8

def digit19 : Language UInt8 := ofClass fun ch => isDigit ch = true ∧ ch ≠ '0'.toUInt8

def minus : Language UInt8 := ofClass fun ch => ch = '-'.toUInt8

/-- `int = zero / ( digit1-9 *DIGIT )`. -/
def int : Language UInt8 := zero + digit19 * digit∗

/-- `frac = decimal-point 1*DIGIT`. -/
def frac : Language UInt8 := (ofClass fun ch => ch = '.'.toUInt8) * (digit * digit∗)

/-- `[ minus / plus ] 1*DIGIT`. -/
def expRest : Language UInt8 :=
  (1 + ofClass fun ch => ch = '-'.toUInt8 ∨ ch = '+'.toUInt8) * (digit * digit∗)

/-- `exp = e [ minus / plus ] 1*DIGIT`. -/
def exp : Language UInt8 := (ofClass fun ch => ch = 'e'.toUInt8 ∨ ch = 'E'.toUInt8) * expRest

/-- `number = [ minus ] int [ frac ] [ exp ]`. -/
def number : Language UInt8 := (1 + minus) * (int * ((1 + frac) * (1 + exp)))

/-- A number with neither fraction nor exponent. -/
def integer : Language UInt8 := (1 + minus) * int

/-- A number with an exponent right after the integer part zero. -/
def zeroExp : Language UInt8 := (1 + minus) * (zero * exp)

/-- The token that a state takes from a string up to its end. -/
def accepts : LexerState → List UInt8 → Option JSONTokenType
  | s, [] =>
    match jsonLexer s ' '.toUInt8 with
    | ⟨.json type, true⟩ => some type
    | _ => none
  | s, ch :: rest =>
    match jsonLexer s ch with
    | ⟨.inState next, false⟩ => accepts next rest
    | _ => none

def inNumber : LexerState → Bool
  | .inZero | .inExpDigits | .inExpSign | .inExpE | .inMantissa | .inMantissaDigits | .inDigits
      | .inSign | .inKeyword => true
  | _ => false

attribute [local simp] jsonLexer in
theorem jsonLexer_inNumber {s} (inside : inNumber s) (ch) :
    (∃ next, jsonLexer s ch = goto next ∧ inNumber next) ∨ jsonLexer s ch = stray ∨
      ∃ type ∈ [JSONTokenType.integer, .float, .keyword], jsonLexer s ch = terminal type := by
  cases s
  all_goals try exact absurd inside (by decide)
  all_goals
    rw [jsonLexer]
    split_ifs
  all_goals first
    | exact .inl ⟨_, rfl, rfl⟩
    | exact .inr (.inl rfl)
    | exact .inr (.inr ⟨_, by decide, rfl⟩)

theorem jsonLexer_space {s} (inside : inNumber s) :
    ∀ next, jsonLexer s ' '.toUInt8 ≠ goto next := by
  intro next
  cases s <;> first | exact absurd inside (by decide) | nofun

variable {interp : Bool} {s next : LexerState} {token : List UInt8}
    {ch : UInt8} {type : JSONTokenType}

theorem feedChar_goto (entry : jsonLexer s ch = goto next) (inside : inNumber next) :
    jsonLexerFeedChar ⟨interp, s, token⟩ ch false =
      if (token ++ [ch]).length > maxTokenSize then
        some (jsonLexerInit interp, [(.inState next, token ++ [ch])])
      else some (⟨interp, next, token ++ [ch]⟩, []) := by
  have step : feedStep ⟨interp, s, token⟩ ch false = (⟨interp, next, token ++ [ch]⟩, [], true) := by
    cases next <;> simp_all [feedStep, goto, inNumber]
  rw [jsonLexerFeedChar, feedLoop_eq, step]
  simp [entry, goto, jsonLexerInit, JSONLexer.startState]

theorem feedChar_stray (entry : jsonLexer s ch = stray) :
    jsonLexerFeedChar ⟨interp, s, token⟩ ch false =
      some (⟨interp, .inRecovery, []⟩, [(.json .error, token ++ [ch])]) := by
  rw [jsonLexerFeedChar, feedLoop_eq]
  simp [feedStep, entry, stray]

/-- The byte behind a number ends its token. -/
theorem feedChar_terminal (entry : jsonLexer s ch = terminal type)
    (mem : type ∈ [JSONTokenType.integer, .float, .keyword]) :
    ∃ last more, jsonLexerFeedChar ⟨interp, s, token⟩ ch false =
      some (last, (.json type, token) :: more) ∧ (ch = ' '.toUInt8 → more = []) := by
  have step : (feedStep ⟨interp, s, token⟩ ch false).2.1 = [(.json type, token)] := by
    simp only [mem_cons, not_mem_nil, or_false] at mem
    rcases mem with rfl | rfl | rfl
    all_goals simp [feedStep, entry, terminal]
  rw [jsonLexerFeedChar, feedLoop_eq, if_pos (by rw [entry]; rfl), step]
  by_cases space : ch = ' '.toUInt8
  · subst space
    cases interp <;> exact ⟨_, _, rfl, fun _ => rfl⟩
  · simp only [Option.bind_eq_bind, Option.bind_some, space, cons_append]
    split_ifs
    all_goals exact ⟨_, _, rfl, by simp⟩

theorem feed_first {lexer last call calls rest}
    (first : jsonLexerFeedChar lexer ch false = some (last, call :: calls)) :
    ∃ more, (jsonLexerFeed lexer (ch :: rest)).map Prod.snd = some (call :: more) := by
  obtain ⟨⟨end_, others⟩, fed⟩ := jsonLexerFeed_returns last rest
  exact ⟨calls ++ others, by simp [jsonLexerFeed, first, fed]⟩

/-- A string and a space are one token exactly if the state takes the string, and it is not too
long. -/
theorem feed_number_iff (inside : inNumber s) (proper : type ≠ .error) (w)
    (fits : token.length ≤ maxTokenSize) :
    (jsonLexerFeed ⟨interp, s, token⟩ (w ++ [' '.toUInt8])).map Prod.snd =
    some [(.json type, token ++ w)] ↔
      accepts s w = some type ∧ (token ++ w).length ≤ maxTokenSize := by
  induction w generalizing s token with
  | nil =>
    rcases jsonLexer_inNumber inside ' '.toUInt8 with ⟨next, entry, -⟩ | entry | ⟨other, mem, entry⟩
    · exact absurd entry (jsonLexer_space inside next)
    · simp [jsonLexerFeed, feedChar_stray entry, accepts, entry, stray, proper.symm]
    · obtain ⟨last, more, fed, quiet⟩ := @feedChar_terminal interp s token _ other entry mem
      simp [jsonLexerFeed, fed, quiet rfl, accepts, entry, terminal, fits]
  | cons ch rest ih =>
    rcases jsonLexer_inNumber inside ch with ⟨next, entry, stays⟩ | entry | ⟨other, mem, entry⟩
    · have fed := @feedChar_goto interp s next token ch entry stays
      by_cases long : (token ++ [ch]).length > maxTokenSize
      · -- The token is given up, as something that is no token.
        rw [if_pos long] at fed
        obtain ⟨more, calls⟩ := @feed_first ch _ _ _ _ (rest ++ [' '.toUInt8]) fed
        rw [cons_append, calls]
        simp only [length_append, length_cons, length_nil] at long ⊢
        constructor
        · intro same
          simp at same
        · rintro ⟨-, short⟩
          omega
      rw [if_neg long] at fed
      have later := ih stays (Nat.le_of_not_lt long)
      rw [append_assoc, singleton_append] at later
      obtain ⟨res, all⟩ :=
        jsonLexerFeed_returns ⟨interp, next, token ++ [ch]⟩ (rest ++ [' '.toUInt8])
      rw [accepts, entry, goto, ← later]
      simp [jsonLexerFeed, fed, all]
    · obtain ⟨more, calls⟩ := @feed_first ch _ _ _ _ (rest ++ [' '.toUInt8])
        (@feedChar_stray interp s token ch entry)
      rw [cons_append, calls, accepts, entry]
      simp [stray, proper.symm]
    -- The token ends before the byte.
    obtain ⟨last, before, fed, -⟩ := @feedChar_terminal interp s token ch other entry mem
    obtain ⟨more, calls⟩ := @feed_first ch _ _ _ _ (rest ++ [' '.toUInt8]) fed
    rw [cons_append, calls, accepts, entry]
    simp [terminal]

def isNumberByte (ch : UInt8) : Bool :=
  isDigit ch || ch ∈ ['+'.toUInt8, '-'.toUInt8, '.'.toUInt8, 'e'.toUInt8, 'E'.toUInt8]

/-- A first byte starts a number or is stray. -/
theorem jsonLexer_start (number : isNumberByte ch) :
    jsonLexer (jsonLexerInit interp).state ch = jsonLexer .inStart ch ∧
      ((∃ next, jsonLexer .inStart ch = goto next ∧ inNumber next) ∨
          jsonLexer .inStart ch = stray) := by
  have all := @jsonLexer_all (fun _ ch => isNumberByte ch = true →
    jsonLexer .inStartInterp ch = jsonLexer .inStart ch ∧
      ((∃ next ∈ allStates, jsonLexer .inStart ch = goto next ∧ inNumber next = true) ∨
        jsonLexer .inStart ch = stray)) (by decide +kernel) .inStart ch number
  constructor
  · cases interp
    · rfl
    · exact all.1
  · rcases all.2 with ⟨next, -, here⟩ | refused
    · exact .inl ⟨next, here⟩
    · exact .inr refused

/-- One token comes out exactly when the automaton accepts the word. -/
theorem feed_start_iff {w} (bytes : ∀ ch ∈ w, isNumberByte ch) (proper : type ≠ .error) :
    (jsonLexerFeed (jsonLexerInit interp) (w ++ [' '.toUInt8])).map
    Prod.snd = some [(.json type, w)] ↔
      accepts .inStart w = some type ∧ w.length ≤ maxTokenSize := by
  cases w with
  | nil =>
    have quiet : (jsonLexerFeed (jsonLexerInit interp) [' '.toUInt8]).map Prod.snd =
      some [] := by cases interp <;> rfl
    have refused : accepts .inStart [] = none := rfl
    simp [quiet, refused]
  | cons ch rest =>
    obtain ⟨rows, ⟨next, entry, inside⟩ | entry⟩ := @jsonLexer_start interp ch (bytes ch (by simp))
    · have fed := @feedChar_goto interp _ next [] ch (rows.trans entry) inside
      rw [nil_append, if_neg (by simp [maxTokenSize])] at fed
      have later := @feed_number_iff interp next [ch] type inside proper
        rest (by simp [maxTokenSize])
      obtain ⟨res, all⟩ := jsonLexerFeed_returns ⟨interp, next, [ch]⟩ (rest ++ [' '.toUInt8])
      rw [accepts, entry, goto, ← singleton_append, ← later]
      simp only [jsonLexerInit] at fed ⊢
      simp [jsonLexerFeed, fed, all]
    · obtain ⟨more, calls⟩ := @feed_first ch _ _ _ _ (rest ++ [' '.toUInt8])
        (@feedChar_stray interp _ [] ch (rows.trans entry))
      simp only [jsonLexerInit] at calls ⊢
      rw [cons_append, calls, accepts, entry]
      simp [stray, proper.symm]

variable {w : List UInt8} {s : LexerState} {type : JSONTokenType}

def floatTail : Language UInt8 := frac * (1 + exp) + exp

/-- The rest of a number of a type in a state. -/
def rest : LexerState → JSONTokenType → Language UInt8
  | .inZero, .integer => 1
  | .inZero, .float => frac * (1 + exp)
  | .inDigits, .integer => digit∗
  | .inDigits, .float => digit∗ * floatTail
  | .inSign, .integer => int
  | .inSign, .float => zero * (frac * (1 + exp)) + digit19 * (digit∗ * floatTail)
  | .inMantissa, .float => digit * (digit∗ * (1 + exp))
  | .inMantissaDigits, .float => digit∗ * (1 + exp)
  | .inExpE, .float => expRest
  | .inExpSign, .float => digit * digit∗
  | .inExpDigits, .float => digit∗
  | _, _ => 0

theorem byte_classes (ch) :
    (isDigit ch = true → ch ≠ 'e'.toUInt8 ∧ ch ≠ 'E'.toUInt8 ∧ ch ≠ '.'.toUInt8 ∧
      ch ≠ '-'.toUInt8 ∧ ch ≠ '+'.toUInt8) ∧
      (ch = '.'.toUInt8 → ch ≠ 'e'.toUInt8 ∧ ch ≠ 'E'.toUInt8) ∧ (ch = '0'.toUInt8 → isDigit ch) :=
  @jsonLexer_all (fun _ ch =>
    (isDigit ch = true → ch ≠ 'e'.toUInt8 ∧ ch ≠ 'E'.toUInt8 ∧ ch ≠ '.'.toUInt8 ∧
      ch ≠ '-'.toUInt8 ∧ ch ≠ '+'.toUInt8) ∧
      (ch = '.'.toUInt8 → ch ≠ 'e'.toUInt8 ∧ ch ≠ 'E'.toUInt8) ∧ (ch = '0'.toUInt8 → isDigit ch))
    (by decide +kernel) .inStart ch

theorem cons_mem_exp : ch :: w ∈ exp ↔
    (ch = 'e'.toUInt8 ∨ ch = 'E'.toUInt8) ∧ w ∈ rest .inExpE .float :=
  cons_mem_ofClass_mul

theorem nil_notMem_exp : [] ∈ exp ↔ False := nil_mem_ofClass_mul

theorem cons_mem_fracExp : ch :: w ∈ frac * (1 + exp) ↔ ch = '.'.toUInt8 ∧
    w ∈ rest .inMantissa .float := by
  rw [frac, mul_assoc, mul_assoc, cons_mem_ofClass_mul]
  rfl

theorem nil_notMem_fracExp : [] ∈ frac * (1 + exp) ↔ False := by
  rw [frac, mul_assoc, nil_mem_ofClass_mul]

attribute [local simp] rest in
def final : LexerState → Option JSONTokenType
  | .inZero | .inDigits => some .integer
  | .inMantissaDigits | .inExpDigits => some .float
  | .inKeyword => some .keyword
  | _ => none

theorem accepts_nil (inside : inNumber s) : accepts s [] = final s := by
  cases s <;> first | rfl | exact absurd inside (by decide)

/-- From inside a number, acceptance is membership in the rest's language. -/
theorem accepts_iff (inside : inNumber s) (typed : type = .integer ∨ type = .float) :
    accepts s w = some type ↔ w ∈ rest s type := by
  induction w generalizing s with
  | nil =>
    rw [accepts_nil inside]
    rcases typed with rfl | rfl
    all_goals cases s
    all_goals try exact absurd inside (by decide)
    all_goals simp only [final, rest, floatTail, expRest, int, zero, digit19, digit,
      nil_notMem_exp, nil_notMem_fracExp, mem_add, mem_one, notMem_zero, nil_mem_kstar, mem_opt_mul,
      nil_mem_ofClass_mul, nil_mem_kstar_mul, nil_mem_ofClass, reduceCtorEq, or_false,
        or_self, Option.some.injEq]
  | cons ch w ih =>
    obtain ⟨digits, point, null⟩ := byte_classes ch
    rw [accepts]
    rcases typed with rfl | rfl
    all_goals cases s
    all_goals try exact absurd inside (by decide)
    all_goals
      rw [jsonLexer]
      split_ifs
    all_goals simp only [goto, terminal, stray, reduceCtorEq, false_iff]
    all_goals try rw [ih rfl]
    -- Both sides are now conditions on the byte and the languages of what follows.
    all_goals simp only [rest, floatTail, int, zero, digit19, digit, expRest, cons_mem_exp,
      cons_mem_fracExp, mem_opt_mul,
      mem_add, mem_one, notMem_zero, cons_mem_ofClass_mul, cons_mem_kstar_mul,
      cons_mem_ofClass, cons_mem_kstar]
    all_goals grind

section

variable (typed : type = .integer ∨ type = .float)

include typed

theorem nil_notMem_sign : [] ∉ rest .inSign type := by
  rw [← accepts_iff rfl typed]
  nofun

theorem minus_notMem_sign : '-'.toUInt8 :: w ∉ rest .inSign type := by
  rw [← accepts_iff rfl typed]
  nofun

theorem zeroExp_notMem_sign (exponent : w ∈ exp) : '0'.toUInt8 :: w ∉ rest .inSign type := by
  rw [← accepts_iff rfl typed]
  cases w with
  | nil => exact absurd exponent (nil_notMem_exp.mp ·)
  | cons ch w =>
    rcases (cons_mem_exp.mp exponent).1 with rfl | rfl
    all_goals nofun

end

/-- From the start, acceptance is membership in the automaton's language. -/
theorem accepts_start (bytes : ∀ ch ∈ w, isNumberByte ch)
    (typed : type = .integer ∨ type = .float) :
    accepts .inStart w = some type ↔ w ∈ (1 + minus) * rest .inSign type := by
  rw [mem_opt_mul, minus]
  cases w with
  | nil =>
    have here : accepts .inStart [] = none := rfl
    simp [here, nil_notMem_sign typed]
  | cons ch w =>
    have table := @jsonLexer_all (fun _ ch => isNumberByte ch = true →
      jsonLexer .inStart ch = jsonLexer .inSign ch ∧ ch ≠ '-'.toUInt8 ∨ ch = '-'.toUInt8 ∨
      jsonLexer .inStart ch = goto .inKeyword ∧ ch ≠ '-'.toUInt8 ∧
        jsonLexer .inSign ch = stray) (by decide +kernel) .inStart ch (bytes ch (by simp))
    rw [cons_mem_ofClass_mul]
    rcases table with ⟨row, other⟩ | rfl | ⟨row, other, refused⟩
    · rw [accepts, row, ← accepts, accepts_iff rfl typed]
      simp [other]
    · have here : accepts .inStart ('-'.toUInt8 :: w) = accepts .inSign w := rfl
      have sign := @accepts_iff w .inSign type rfl typed
      simp [here, sign, minus_notMem_sign typed]
    -- A letter starts a keyword, which is never a number.
    have keyword : accepts .inKeyword w ≠ some type := by
      rw [Ne, accepts_iff rfl typed]
      rcases typed with rfl | rfl <;> exact notMem_zero w
    rw [← accepts_iff rfl typed, accepts, accepts, row, refused]
    simpa [goto, stray, other] using keyword

variable {w : List UInt8} {type : JSONTokenType}

theorem mem_number : w ∈ number ↔ w ∈ integer ∨
    w ∈ (1 + minus) * rest .inSign .float ∨ w ∈ zeroExp := by
  have parts : number = integer + ((1 + minus) * rest .inSign .float + zeroExp) := by
    simp only [number, integer, int, rest, floatTail, zeroExp, add_mul, mul_add,
      one_mul, mul_one, mul_assoc]
    abel
  rw [parts, mem_add, mem_add]

/-- The automaton's language has no zero with an exponent. -/
theorem notMem_of_zeroExp (typed : type = .integer ∨ type = .float) (mem : w ∈ zeroExp) :
    w ∉ (1 + minus) * rest .inSign type := by
  rw [zeroExp, mem_opt_mul, minus, zero] at mem
  rw [mem_opt_mul, minus]
  cases w with
  | nil => simp at mem
  | cons ch w =>
    simp only [cons_mem_ofClass_mul] at mem ⊢
    rcases mem with ⟨rfl, exponent⟩ | ⟨rfl, mem⟩
    · have noMinus : ¬ '0'.toUInt8 = '-'.toUInt8 := by decide
      simp [zeroExp_notMem_sign typed exponent, noMinus]
    cases w with
    | nil => simp at mem
    | cons ch w =>
      obtain ⟨rfl, exponent⟩ := cons_mem_ofClass_mul.mp mem
      simp [minus_notMem_sign typed, zeroExp_notMem_sign typed exponent]

/-- The string and a space after it are lexed as one token of the type. -/
def Lexed (interp : Bool) (w : List UInt8) (type : JSONTokenType) : Prop :=
  (jsonLexerFeed (jsonLexerInit interp) (w ++ [' '.toUInt8])).map Prod.snd = some [(.json type, w)]

/-- The lexer takes a string for a number, and for an integer, exactly if it is one. -/
def NumbersAgree (interp : Bool) (w : List UInt8) : Prop :=
  (Lexed interp w .integer ∨ Lexed interp w .float ↔ w ∈ number) ∧
    (Lexed interp w .integer ↔ w ∈ integer)

/-- The lexer's numbers are the grammar's, but for a zero with an exponent alone and for too long
ones. -/
theorem lexer_numbers_iff (interp : Bool) (w : List UInt8)
    (bytes : ∀ ch ∈ w, isNumberByte ch = true) :
    NumbersAgree interp w ↔ ¬ (w ∈ number ∧ (w ∈ zeroExp ∨ maxTokenSize < w.length)) := by
  have ofInteger : Lexed interp w .integer ↔ w ∈ integer ∧ w.length ≤ maxTokenSize := by
    rw [Lexed, feed_start_iff bytes (by decide), accepts_start bytes (.inl rfl)]
    rfl
  have ofFloat : Lexed interp w .float ↔
      w ∈ (1 + minus) * rest .inSign .float ∧ w.length ≤ maxTokenSize := by
    rw [Lexed, feed_start_iff bytes (by decide), accepts_start bytes (.inr rfl)]
  -- A zero with an exponent is a JSON number that no state accepts.
  have notInteger : w ∈ zeroExp → w ∉ integer := notMem_of_zeroExp (.inl rfl)
  have notFloat : w ∈ zeroExp → w ∉ (1 + minus) * rest .inSign .float :=
    notMem_of_zeroExp (.inr rfl)
  rw [NumbersAgree, ofInteger, ofFloat, mem_number, ← not_le]
  constructor
  · rintro ⟨numbers, -⟩ ⟨member, zero | long⟩
    · rcases numbers.mpr member with ⟨taken, -⟩ | ⟨taken, -⟩
      · exact notInteger zero taken
      · exact notFloat zero taken
    · rcases numbers.mpr member with ⟨-, fits⟩ | ⟨-, fits⟩
      all_goals exact long fits
  · intro regular
    refine ⟨⟨?_, ?_⟩, ⟨And.left, fun taken => ⟨taken, ?_⟩⟩⟩
    · exact Or.imp And.left fun taken => .inl taken.1
    · rintro (taken | taken | zero)
      · exact .inl ⟨taken, Classical.not_not.mp fun long => regular ⟨.inl taken, .inr long⟩⟩
      · exact .inr ⟨taken, Classical.not_not.mp fun long => regular ⟨.inr (.inl taken), .inr long⟩⟩
      · exact absurd ⟨.inr (.inr zero), .inl zero⟩ regular
    · exact Classical.not_not.mp fun long => regular ⟨.inl taken, .inr long⟩

/-- A number with all parts is lexed as a number, and not as an integer. -/
theorem lexer_numbers_float :
    NumbersAgree false ['-'.toUInt8, '1'.toUInt8, '.'.toUInt8, '5'.toUInt8,
        'e'.toUInt8, '3'.toUInt8] := by
  rw [lexer_numbers_iff false _ (by simp; decide)]
  rintro ⟨-, zeroExp | long⟩
  · simp only [Json.zeroExp, mem_opt_mul, minus, zero, cons_mem_ofClass_mul] at zeroExp
    rcases zeroExp with ⟨same, -⟩ | ⟨-, same, -⟩ <;> exact absurd same (by decide)
  · exact absurd long (by decide)

/-- A zero with an exponent is a number, but not for the lexer. -/
theorem lexer_refuses_zero_exp : ¬ NumbersAgree false ['0'.toUInt8, 'e'.toUInt8, '1'.toUInt8] := by
  intro agree
  have member : ['0'.toUInt8, 'e'.toUInt8, '1'.toUInt8] ∈ number := by
    rw [mem_number]
    refine .inr (.inr ?_)
    simp only [zeroExp, mem_opt_mul, zero, cons_mem_ofClass_mul, cons_mem_exp, rest, expRest, digit]
    exact .inl ⟨trivial, .inl trivial, .inl ⟨rfl, nil_mem_kstar _⟩⟩
  have calls : (jsonLexerFeed (jsonLexerInit false) ['0'.toUInt8, 'e'.toUInt8, '1'.toUInt8,
    ' '.toUInt8]).map Prod.snd =
      some [(.json .integer, ['0'.toUInt8]), (.json .keyword, ['e'.toUInt8]),
        (.json .integer, ['1'.toUInt8])] := by decide
  rcases agree.1.mpr member with lexed | lexed
  all_goals
    rw [Lexed, cons_append, cons_append, cons_append, nil_append, calls] at lexed
    simp at lexed

end Qemu.Json
