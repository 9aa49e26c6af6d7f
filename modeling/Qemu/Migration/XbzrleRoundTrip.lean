import Qemu.Migration.XbzrleRuns

/-! The XBZRLE page format, and the round trip of a page through it. -/

namespace Qemu.Xbzrle

open List

variable {old new : Buffer}

def lengthBytes (n : Nat) : List UInt8 := (uleb128EncodeSmall n).getD []

/-- A run: the bytes skipped and those replaced after them. -/
abbrev Run := Nat × List UInt8

def runBytes (run : Run) : List UInt8 :=
  lengthBytes run.1 ++ lengthBytes run.2.length ++ run.2

def pageBytes (runs : List Run) : List UInt8 := runs.flatMap runBytes

/-- Runs that take `old` to `new` from position `i` on. Every run replaces at least one byte,
starting at one that differs, and only the first of a page may skip nothing. -/
def Delta (old new : Buffer) (slen : Nat) : Nat → List Run → Prop
  | i, [] => Uniform old new true i slen
  | i, (skipped, data) :: rest =>
    -- Skipped bytes agree, and the replaced bytes are those of the new page.
    Uniform old new true i (i + skipped) ∧ old (i + skipped) ≠ new (i + skipped) ∧
      data ≠ [] ∧ i + skipped + data.length ≤ slen ∧
      data = bytesFrom new (i + skipped) data.length ∧
      (∀ run ∈ rest, run.1 ≠ 0) ∧ Delta old new slen (i + skipped + data.length) rest

def Spells (buffer : Buffer) (i : Nat) (bytes : List UInt8) : Prop :=
  ∀ k < bytes.length, bytes[k]? = some (buffer (i + k))

variable (buffer : Buffer) {dst : Output} {at_ : Nat} {bytes : List UInt8} {slen dlen : Nat}

theorem spells_append (i left right) :
    Spells buffer i (left ++ right) ↔ Spells buffer i left ∧
        Spells buffer (i + left.length) right := by
  constructor
  · intro spelled
    constructor
    · intro k below
      have here := spelled k (by rw [length_append]; omega)
      rwa [getElem?_append_left below] at here
    · intro k below
      -- A position of the right part lies past the whole left part.
      have here := spelled (left.length + k) (by rw [length_append]; omega)
      rw [getElem?_append_right (by omega), Nat.add_sub_cancel_left, ← Nat.add_assoc] at here
      exact here
  · rintro ⟨first, second⟩ k below
    rw [length_append] at below
    by_cases inside : k < left.length
    · rw [getElem?_append_left inside]
      exact first k inside
    · rw [getElem?_append_right (by omega), second (k - left.length) (by omega)]
      rw [show i + left.length + (k - left.length) = i + k by omega]

@[simp] theorem bytesFrom_length (start count) : (bytesFrom buffer start count).length = count := by
  simp [bytesFrom]

theorem bytesFrom_get (start) {count k} (below : k < count) :
    (bytesFrom buffer start count)[k]? = some (buffer (start + k)) := by
  simp [bytesFrom, below]

theorem uleb128EncodeSmall_some {n} (small : n ≤ maxSmall) :
    uleb128EncodeSmall n = some (lengthBytes n) := by
  -- Both branches below the assertion produce bytes.
  unfold lengthBytes uleb128EncodeSmall
  split <;> split <;> simp_all

theorem lengthBytes_length {n} (small : n ≤ maxSmall) : 0 < (lengthBytes n).length ∧
    (lengthBytes n).length ≤ 2 := by
  unfold lengthBytes uleb128EncodeSmall
  split <;> split <;> simp_all

private theorem continued_group (low : Fin 128) : (UInt8.ofNat low.val ||| 0x80) &&& 0x80 ≠ 0 ∧
      ((UInt8.ofNat low.val ||| 0x80) &&& 0x7f).toNat = low.val := by
  -- There are only 128 groups to check.
  revert low
  decide

private theorem final_group (low : Fin 128) :
    UInt8.ofNat low.val &&& 0x80 = 0 ∧ (UInt8.ofNat low.val).toNat = low.val := by
  revert low
  decide

/-- Reading the length bytes of a number gives the number back. -/
theorem uleb128DecodeSmall_lengthBytes {n} (small : n ≤ maxSmall) {buffer i}
    (spelled : Spells buffer i (lengthBytes n)) :
    uleb128DecodeSmall (advance buffer i) = some ((lengthBytes n).length, n) := by
  by_cases short : n < 0x80
  · -- One byte without the continuation bit is the number itself.
    have bytes : lengthBytes n = [UInt8.ofNat n] :=
      by simp [lengthBytes, uleb128EncodeSmall, small, short]
    have first := spelled 0 (by simp [bytes])
    simp only [bytes, getElem?_cons_zero, Option.some.injEq] at first
    obtain ⟨clear, value⟩ := final_group ⟨n, short⟩
    simp only [uleb128DecodeSmall, advance, ← first, clear, if_true, value, bytes, length_singleton]
  -- Two bytes split the number into its low seven bits and the rest.
  have bytes : lengthBytes n = [UInt8.ofNat (n &&& 0x7f) ||| 0x80, UInt8.ofNat (n >>> 7)] := by
    simp [lengthBytes, uleb128EncodeSmall, small, short]
  have first := spelled 0 (by simp [bytes])
  have second := spelled 1 (by simp [bytes])
  simp only [bytes, getElem?_cons_zero, getElem?_cons_succ, Option.some.injEq] at first second
  have low : n &&& 0x7f = n % 128 := Nat.and_two_pow_sub_one_eq_mod n 7
  have high : n >>> 7 = n / 128 := Nat.shiftRight_eq_div_pow n 7
  have highSmall : n / 128 < 128 := by unfold maxSmall at small; omega
  rw [low] at first
  rw [high] at second
  obtain ⟨set, lowValue⟩ := continued_group ⟨n % 128, Nat.mod_lt _ (by decide)⟩
  obtain ⟨clear, highValue⟩ := final_group ⟨n / 128, highSmall⟩
  -- The two groups occupy disjoint bits, so joining them adds them.
  have joined : n % 128 ||| (n / 128) <<< 7 = n := by
    have disjoint := Nat.two_pow_add_eq_or_of_lt (i := 7) (Nat.mod_lt n (by decide)) (n / 128)
    rw [Nat.or_comm, Nat.shiftLeft_eq, Nat.mul_comm, ← disjoint]
    omega
  simp only [uleb128DecodeSmall, advance, ← first, ← second, set, clear,
    lowValue, highValue, joined, bytes, if_false, ne_eq, not_true_eq_false, length_cons, length_nil]

/-- Decoding a delta turns the rest of the old page into the new. -/
theorem decodeLoop_page {src slen dlen} (fits : dlen ≤ maxSmall) (runs) :
    ∀ (fuel i d : Nat) (dst : Buffer), Spells src i (pageBytes runs) →
      slen = i + (pageBytes runs).length → slen - i ≤ fuel → (i = 0 ∨ ∀ run ∈ runs, run.1 ≠ 0) →
      Delta old new dlen d runs → d ≤ dlen → (∀ k < d, dst k = new k) →
        (∀ k, d ≤ k → dst k = old k) →
      ∃ r buffer, decodeLoop src slen dlen fuel i d dst = (r, buffer) ∧ 0 ≤ r ∧
        (∀ k < dlen, buffer k = new k) ∧ ∀ k, dlen ≤ k → buffer k = old k := by
  -- The induction follows the runs, carrying the already rebuilt prefix of the page.
  induction runs with
  | nil =>
    intro fuel i d dst _ size _ _ delta inside done rest
    have finished : ¬ i < slen := by simp only [pageBytes, flatMap_nil, length_nil] at size; omega
    refine ⟨d, dst, ?_, Int.natCast_nonneg d, ?_, fun k past => rest k (by omega)⟩
    · cases fuel <;> simp [decodeLoop, finished]
    · intro k below
      by_cases before : k < d
      · exact done k before
      · -- The implied last zero run already agrees with the new page.
        have agree : (old k == new k) := delta k (by omega) below
        rw [rest k (by omega)]
        simpa using agree
  | cons run runs ih =>
    obtain ⟨skipped, data⟩ := run
    intro fuel i d dst spelled size enough first delta inside done rest
    obtain ⟨agree, _, nonempty, room, copied, later, delta⟩ := delta
    have dataPositive : 0 < data.length := length_pos_iff.mpr nonempty
    obtain ⟨dataLengthPositive, dataShort⟩ := lengthBytes_length (n := data.length) (by omega)
    -- Split the spelled bytes into the two lengths, the data and the remaining runs.
    simp only [pageBytes, flatMap_cons, runBytes, List.append_assoc, spells_append] at spelled
    obtain ⟨skipSpelled, countSpelled, dataSpelled, tailSpelled⟩ := spelled
    simp only [pageBytes, flatMap_cons, runBytes, length_append] at size
    have skipRead := uleb128DecodeSmall_lengthBytes (by omega) skipSpelled
    have countRead := uleb128DecodeSmall_lengthBytes (by omega) countSpelled
    cases fuel with
    | zero => omega
    | succ fuel =>
      have notEmpty : ¬ (i ≠ 0 ∧ skipped = 0) := by
        rintro ⟨later, zero⟩
        rcases first with start | pos
        · exact later start
        · exact pos _ mem_cons_self zero
      simp only [decodeLoop, skipRead, countRead, notEmpty, if_false,
        if_pos (show i < slen by omega), if_neg (show ¬ slen - i < 2 by omega),
        if_neg (show ¬ d + skipped > dlen by omega),
        if_neg (show ¬ slen - (i + (lengthBytes skipped).length) < 2 by omega),
        if_neg (show ¬ data.length = 0 by omega), if_neg (show ¬ (d + skipped + data.length > dlen ∨
          i + (lengthBytes skipped).length + (lengthBytes data.length).length +
            data.length > slen) by omega)]
      -- The rest of the page is decoded from the position after the copied bytes.
      refine ih fuel _ _ _ tailSpelled (by simp only [pageBytes]; omega) (by omega)
        (.inr later) delta room ?_ ?_
      · intro k below
        simp only [copyInto]
        split
        · -- The copied byte was spelled in the source at the same distance from the data start.
          have read := dataSpelled (k - (d + skipped)) (by omega)
          have byte :=
            bytesFrom_get new (d + skipped) (show k - (d + skipped) < data.length by omega)
          rw [← copied, read, Option.some.injEq] at byte
          rw [byte, show d + skipped + (k - (d + skipped)) = k by omega]
        by_cases before : k < d
        · exact done k before
        · have same : (old k == new k) := agree k (by omega) (by omega)
          rw [rest k (by omega)]
          simpa using same
      · intro k past
        simp only [copyInto,
          if_neg (show ¬ (d + skipped ≤ k ∧ k < d + skipped + data.length) by omega)]
        exact rest k (by omega)

theorem writeBytes_outside {k} (out : k < at_ ∨ at_ + bytes.length ≤ k) :
    writeBytes dst at_ bytes k = dst k := by
  unfold writeBytes
  rcases out with below | above
  · rw [if_pos below]
  · rw [if_neg (by omega), List.getElem?_eq_none (by omega)]

theorem writeBytes_inside {k} (inside : k < bytes.length) :
    writeBytes dst at_ bytes (at_ + k) = bytes[k]? := by
  unfold writeBytes
  rw [if_neg (by omega), Nat.add_sub_cancel_left, List.getElem?_eq_getElem inside]

/-- An output holds a byte list at a position. -/
def Holds (dst : Output) (at_ : Nat) (bytes : List UInt8) : Prop :=
  ∀ k < bytes.length, dst (at_ + k) = bytes[k]?

theorem Holds.append {left right} (first : Holds dst at_ left)
    (second : Holds dst (at_ + left.length) right) : Holds dst at_ (left ++ right) := by
  intro k below
  rw [length_append] at below
  by_cases inside : k < left.length
  · rw [getElem?_append_left inside, first k inside]
  · rw [getElem?_append_right (by omega), ← second (k - left.length) (by omega)]
    congr 1
    omega

theorem Holds.spells {buffer} (held : Holds dst at_ bytes)
    (reads : ∀ k < at_ + bytes.length, dst k = some (buffer k)) : Spells buffer at_ bytes := by
  intro k below
  rw [← held k below, reads _ (by omega)]

/-- What the encoder loop leaves from position `i` with `d` bytes written: nothing at or past the
limit is written, and a returned length counts the bytes of a delta of the rest of the page. -/
structure Encoded (old new : Buffer) (slen dlen i d : Nat) (dst : Output) (r : Int)
    (dst' : Output) : Prop where
  /-- No byte beyond the limit is touched. -/
  limit : ∀ k, dlen ≤ k → dst' k = dst k
  /-- Bytes written earlier stay. -/
  kept : ∀ k < d, dst' k = dst k
  /-- Success describes the remaining page. -/
  page : 0 ≤ r → ∃ runs, Delta old new slen i runs ∧ (i ≠ 0 → ∀ run ∈ runs, run.1 ≠ 0) ∧
    r = (d + (pageBytes runs).length : Nat) ∧ d + (pageBytes runs).length ≤ dlen ∧
    Holds dst' d (pageBytes runs)

/-- Where the rest of the page agrees, nothing more is written. -/
private theorem Encoded.done {i d} (agree : Uniform old new true i slen) (bounded : d ≤ dlen) :
    Encoded old new slen dlen i d dst d dst where
  limit _ _ := rfl
  kept _ _ := rfl
  page _ := by
    refine ⟨[], agree, by simp, by simp [pageBytes], by simpa [pageBytes], fun k below => ?_⟩
    simp [pageBytes] at below

/-- A negative length describes no page. -/
private theorem Encoded.overflow {i d dst'} (limit : ∀ k, dlen ≤ k → dst' k = dst k)
    (kept : ∀ k < d, dst' k = dst k) : Encoded old new slen dlen i d dst (-1) dst' where
  limit := limit
  kept := kept
  page absurd := by omega

/-- One turn writes the length of a zero run and a nonzero run, before what encodes the rest. -/
private theorem Encoded.turn {i j n d zrunLen nzrunLen : Nat} {r : Int} {dst' : Output}
    (encoded : Encoded old new slen dlen n
      (d + (lengthBytes zrunLen).length + (lengthBytes nzrunLen).length + nzrunLen)
      (writeBytes (writeBytes (writeBytes dst d (lengthBytes zrunLen))
          (d + (lengthBytes zrunLen).length) (lengthBytes nzrunLen))
        (d + (lengthBytes zrunLen).length + (lengthBytes nzrunLen).length)
        (bytesFrom new j nzrunLen)) r dst')
    (agree : Uniform old new true i j) (zend : i + zrunLen = j) (differs : old j ≠ new j)
    (advanced : i ≠ 0 → zrunLen ≠ 0) (nend : j + nzrunLen = n) (inside : n ≤ slen)
    (positive : nzrunLen ≠ 0)
    (fits : d + (lengthBytes zrunLen).length + (lengthBytes nzrunLen).length + nzrunLen ≤ dlen) :
    Encoded old new slen dlen i d dst r dst' := by
  set d₁ := d + (lengthBytes zrunLen).length
  set d₂ := d₁ + (lengthBytes nzrunLen).length
  refine ⟨fun k above => ?_, fun k below => ?_, fun success => ?_⟩
  · rw [encoded.limit k above, writeBytes_outside (.inr (by rw [bytesFrom_length]; omega)),
      writeBytes_outside (.inr (by omega)), writeBytes_outside (.inr (by omega))]
  · rw [encoded.kept k (by omega), writeBytes_outside (.inl (by omega)),
      writeBytes_outside (.inl (by omega)), writeBytes_outside (.inl below)]
  obtain ⟨runs, delta, later, length, room, held⟩ := encoded.page success
  have total : (pageBytes ((zrunLen, bytesFrom new j nzrunLen) :: runs)).length =
      (lengthBytes zrunLen).length + (lengthBytes nzrunLen).length + nzrunLen +
        (pageBytes runs).length := by
    simp only [pageBytes, flatMap_cons, runBytes, length_append, bytesFrom_length]
  refine ⟨(zrunLen, bytesFrom new j nzrunLen) :: runs, ?_, ?_, ?_, ?_, ?_⟩
  · refine ⟨zend ▸ agree, zend ▸ differs, fun empty => ?_, ?_, ?_, later (by omega), ?_⟩
    · have size := congrArg List.length empty
      simp only [bytesFrom_length, length_nil] at size
      exact positive size
    · simp only [bytesFrom_length]
      omega
    · simp only [bytesFrom_length, zend]
    · simp only [bytesFrom_length, zend, nend]
      exact delta
  · intro notFirst run mem
    rcases mem_cons.mp mem with same | mem
    · subst run
      exact advanced notFirst
    · exact later (by omega) run mem
  · rw [length, total]
    omega
  · rw [total]
    omega
  -- The three writes of this turn lie below everything the remaining turns write.
  have zheld : Holds dst' d (lengthBytes zrunLen) := by
    intro k below
    rw [encoded.kept _ (by omega), writeBytes_outside (.inl (by omega)),
      writeBytes_outside (.inl (by omega)), writeBytes_inside below]
  have nheld : Holds dst' d₁ (lengthBytes nzrunLen) := by
    intro k below
    rw [encoded.kept _ (by omega), writeBytes_outside (.inl (by omega)), writeBytes_inside below]
  have dheld : Holds dst' d₂ (bytesFrom new j nzrunLen) := by
    intro k below
    have within : k < nzrunLen := by simpa using below
    rw [encoded.kept _ (by omega), writeBytes_inside below]
  simp only [pageBytes, flatMap_cons, runBytes, bytesFrom_length, List.append_assoc]
  refine zheld.append (nheld.append (dheld.append ?_))
  simpa only [bytesFrom_length, pageBytes] using held

/-- The encoder loop's answer describes the rest of the page. -/
theorem encodeLoop_spec (small : slen ≤ maxSmall) (fuel) :
    ∀ (i d : Nat) (dst : Output), i ≤ slen → slen - i ≤ fuel → d ≤ dlen → (i = 0 → d = 0) →
      (i ≠ 0 → i = slen ∨ old i = new i) →
      ∃ r dst', encodeLoop old new slen dlen fuel i d dst = some (r, dst') ∧
        Encoded old new slen dlen i d dst r dst' := by
  -- Each turn of the loop writes one run, and the remaining turns describe the rest of the page.
  induction fuel with
  | zero =>
    intro i d dst bounded enough room _ _
    refine ⟨d, dst, rfl, Encoded.done (fun k lower upper => ?_) room⟩
    omega
  | succ fuel ih =>
    intro i d dst bounded enough room start boundary
    simp only [encodeLoop]
    split
    case isFalse finished =>
      refine ⟨d, dst, rfl, Encoded.done (fun k lower upper => ?_) room⟩
      omega
    case isTrue before =>
    split
    · exact ⟨-1, dst, rfl, Encoded.overflow (fun _ _ => rfl) (fun _ _ => rfl)⟩
    rcases zscan : scanZrun old new slen i 0 with ⟨j, zrunLen⟩
    obtain ⟨⟨zorder, zinside, zuniform, zstop⟩, zgrown⟩ := scanZrun_spec _ _ _ bounded zscan
    split
    · -- The whole page is one zero run, which only the first turn can see.
      have first : i = 0 := by omega
      have empty := start first
      subst i d
      have last : j = slen := by omega
      exact ⟨0, dst, rfl, Encoded.done (last ▸ zuniform) room⟩
    split
    · -- The last zero run is left implicit.
      rename_i last
      exact ⟨d, dst, rfl, Encoded.done (last ▸ zuniform) room⟩
    rename_i notLast
    have differs : old j ≠ new j := by
      rcases zstop with last | stop
      · exact absurd last notLast
      · simpa using stop
    -- A zero run after the first turn starts with the byte that ended the previous nonzero run.
    have advanced : i ≠ 0 → zrunLen ≠ 0 := by
      intro later empty
      have same : j = i := by omega
      rcases boundary later with ended | equal
      · omega
      · exact differs (same ▸ equal)
    have zsmall : zrunLen ≤ maxSmall := by omega
    obtain ⟨zpositive, zshort⟩ := lengthBytes_length zsmall
    simp only [uleb128EncodeSmall_some zsmall, Option.bind_eq_bind, Option.bind_some]
    split
    · refine ⟨-1, _, rfl, Encoded.overflow (fun k above => ?_) (fun k below => ?_)⟩
      · exact writeBytes_outside (.inr (by omega))
      · exact writeBytes_outside (.inl below)
    rcases nscan : scanNzrun old new slen j 0 with ⟨n, nzrunLen⟩
    obtain ⟨⟨norder, ninside, nuniform, nstop⟩, ngrown⟩ := scanNzrun_spec _ _ _ zinside nscan
    have npositive : nzrunLen ≠ 0 := by
      intro empty
      have same : n = j := by omega
      rcases nstop with last | stop
      · omega
      · rw [same] at stop
        exact differs (by simpa using stop)
    have nsmall : nzrunLen ≤ maxSmall := by omega
    obtain ⟨lpositive, lshort⟩ := lengthBytes_length nsmall
    simp only [uleb128EncodeSmall_some nsmall, Option.bind_some]
    -- Name the three writes of this turn and what each leaves in place.
    set d₁ := d + (lengthBytes zrunLen).length
    set d₂ := d₁ + (lengthBytes nzrunLen).length
    set dst₁ := writeBytes dst d (lengthBytes zrunLen) with dst₁_eq
    set dst₂ := writeBytes dst₁ d₁ (lengthBytes nzrunLen) with dst₂_eq
    have limit₂ : ∀ k, dlen ≤ k → dst₂ k = dst k := by
      intro k above
      rw [dst₂_eq, writeBytes_outside (.inr (by omega)), dst₁_eq,
        writeBytes_outside (.inr (by omega))]
    have kept₂ : ∀ k < d, dst₂ k = dst k := by
      intro k below
      rw [dst₂_eq, writeBytes_outside (.inl (by omega)), dst₁_eq, writeBytes_outside (.inl below)]
    split
    · exact ⟨-1, dst₂, rfl, Encoded.overflow limit₂ kept₂⟩
    set dst₃ := writeBytes dst₂ d₂ (bytesFrom new j nzrunLen) with dst₃_eq
    obtain ⟨r, dst', looped, encoded⟩ := ih n (d₂ + nzrunLen) dst₃ ninside (by omega) (by omega)
      (by omega) (fun _ => nstop.imp id (by simp))
    exact ⟨r, dst', looped, encoded.turn zuniform (by omega) differs advanced (by omega) ninside
      npositive (by omega)⟩

/-- There is nothing to send exactly when the pages are equal. -/
theorem delta_nil_iff {runs} (delta : Delta old new slen 0 runs) : runs = [] ↔
    ∀ k < slen, old k = new k := by
  constructor
  · intro empty k below
    subst runs
    simpa using delta k (Nat.zero_le k) below
  · intro same
    cases runs with
    | nil => rfl
    | cons run runs =>
      -- The first replaced byte really differs, which equal pages rule out.
      obtain ⟨_, differs, nonempty, room, _⟩ := delta
      have pos := length_pos_iff.mpr nonempty
      exact absurd (same _ (by omega)) differs

/-- Decoding undoes encoding on every page. The encoder always answers and never writes at or past
the limit. A nonnegative answer fits the limit, is zero exactly for an unchanged page, and decodes
to the new page from any buffer that starts with the written bytes. -/
theorem xbzrleDecodeBuffer_encode (old new : Buffer) (slen dlen : Nat)
    (aligned : slen % wordBytes = 0) (small : slen ≤ maxSmall) :
    ∃ d dst, xbzrleEncodeBuffer old new slen dlen (fun _ => none) = some (d, dst) ∧
      (∀ k, dlen ≤ k → dst k = none) ∧
      (0 ≤ d → d ≤ dlen ∧ (d = 0 ↔ ∀ k < slen, old k = new k) ∧ (∀ k < d.toNat, dst k ≠ none) ∧
        ∀ src : Buffer, (∀ k < d.toNat, dst k = some (src k)) →
          ∃ r buffer, xbzrleDecodeBuffer src d.toNat old slen = (r, buffer) ∧ 0 ≤ r ∧
            (∀ k < slen, buffer k = new k) ∧ ∀ k, slen ≤ k → buffer k = old k) := by
  obtain ⟨d, dst, looped, encoded⟩ := @encodeLoop_spec old new slen dlen small
    slen 0 0 (fun _ => none) (Nat.zero_le _) (by omega) (Nat.zero_le _) (fun _ => rfl) (by simp)
  refine ⟨d, dst, by simp [xbzrleEncodeBuffer, aligned, looped], encoded.limit, ?_⟩
  intro success
  -- The answer is the length of the page bytes held at the start of the output.
  obtain ⟨runs, delta, _, length, fits, held⟩ := encoded.page success
  rw [Nat.zero_add] at length fits
  subst length
  simp only [Int.toNat_natCast, Nat.cast_eq_zero, Nat.cast_le]
  have pageBytes_length_eq_zero : (pageBytes runs).length = 0 ↔ runs = [] := by
    cases runs with
    | nil => simp [pageBytes]
    | cons run runs =>
      have positive := length_pos_iff.mpr delta.2.2.1
      simp only [pageBytes, flatMap_cons, runBytes, length_append, reduceCtorEq, iff_false]
      omega
  refine ⟨fits, pageBytes_length_eq_zero.trans (delta_nil_iff delta), ?_, ?_⟩
  · intro k below absent
    have written := held k below
    rw [Nat.zero_add, absent, List.getElem?_eq_getElem below] at written
    exact absurd written (by simp)
  · intro src reads
    exact decodeLoop_page small runs _ 0 0 old
      (held.spells (by simpa using reads)) (by omega) (by omega) (.inl rfl) delta (Nat.zero_le _)
      (fun k below => absurd below (Nat.not_lt_zero k)) (fun _ _ => rfl)

/-- One changed byte in a one-word page is written as three bytes and read back. -/
theorem xbzrleDecodeBuffer_encode_word :
    ∃ dst, xbzrleEncodeBuffer (fun _ => 0) (fun k => if k = 3 then 7 else 0) 8 16 (fun _ => none) =
        some (3, dst) ∧
      ∀ src : Buffer, (∀ k < 3, dst k = some (src k)) →
        ∃ r buffer, xbzrleDecodeBuffer src 3 (fun _ => 0) 8 = (r, buffer) ∧ 0 ≤ r ∧
          (∀ k < 8, buffer k = if k = 3 then 7 else 0) ∧ ∀ k, 8 ≤ k → buffer k = 0 := by
  obtain ⟨d, dst, answered, _, page⟩ :=
    xbzrleDecodeBuffer_encode (fun _ => 0) (fun k => if k = 3 then 7 else 0) 8
      16 (by decide) (by decide)
  -- Evaluating the encoder shows the three bytes: skip three, replace one, the new byte.
  have three : d = 3 := by
    have evaluated : (xbzrleEncodeBuffer (fun _ => 0) (fun k => if k = 3 then 7 else 0) 8 16
        (fun _ => none)).map Prod.fst = some 3 := by decide
    rw [answered] at evaluated
    simpa using evaluated
  subst three
  exact ⟨dst, answered, (page (by decide)).2.2.2⟩

end Qemu.Xbzrle
