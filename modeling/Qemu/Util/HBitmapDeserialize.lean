import Qemu.Util.HBitmapSerial
import Qemu.Util.HBitmapSearch

/-! Loading a bitmap in chunks restores its invariant, but for a last chunk of ones. -/

namespace Qemu.Util

open WordBits ByteWord Pyramid GuardedRun List Nat

variable {host : HostLong} {hb hb' source : HBitmap host} {members : Finset Nat}
    {load : Load host} {pos : Nat}

theorem word_of_bytes (word : host.Word) (rest) : BitVec.ofNat host.bitsPerLong
      (ofByteList ((toBytes host.bytesPerLong word.toNat ++ rest).take host.bytesPerLong)) =
          word := by
  -- The bytes of a word spell numbers up to its width, so nothing is cut off.
  have width : 256 ^ host.bytesPerLong = 2 ^ host.bitsPerLong := by cases host <;> decide
  rw [take_left' (length_toBytes _ _), ofByteList_toBytes, width, mod_eq_of_lt word.isLt,
    BitVec.ofNat_toNat, BitVec.setWidth_eq]

theorem HBitmap.setWord?_eq {level} (inside : pos < hb.sizes level) (word : host.Word) :
    hb.setWord? level pos word = some (hb.setWord level pos word) :=
  if_pos inside

/-- Writing back what was serialised copies the words. -/
theorem copyWords_spec {left} (readable : pos + left ≤ source.sizes host.bottom)
    (writable : pos + left ≤ hb.sizes host.bottom) :
    ∃ buf hb', serializeWords source left pos = some buf ∧
      deserializeWords left pos buf hb = some hb' ∧
      Overwritten hb hb' (fun other => pos ≤ other ∧ other < pos + left)
          (source.levels host.bottom) := by
  -- Both loops go through the words in step, and the bytes of a word are the next ones of the
  -- buffer.
  induction left generalizing pos hb with
  | zero => exact ⟨[], hb, rfl, rfl, Overwritten.refl hb (fun _ => by omega) _⟩
  | succ left ih =>
    have word : source.word? host.bottom pos = some (source.levels host.bottom pos) :=
      if_pos (by omega)
    have sizes : (hb.setWord host.bottom pos (source.levels host.bottom pos)).sizes = hb.sizes :=
      rfl
    obtain ⟨buf, hb', written, loaded, changed⟩ := @ih
      (hb.setWord host.bottom pos (source.levels host.bottom pos)) (pos + 1)
        (by omega) (by rw [sizes]; omega)
    refine ⟨toBytes host.bytesPerLong (source.levels host.bottom pos).toNat ++ buf, hb', ?_, ?_, ?_⟩
    · rw [serializeWords, word, Option.bind_eq_bind, Option.bind_some, written]
      rfl
    · have long : ¬ (toBytes host.bytesPerLong (source.levels host.bottom pos).toNat ++
        buf).length < host.bytesPerLong := by simp
      rw [deserializeWords, if_neg long, word_of_bytes,
        HBitmap.setWord?_eq (by omega), Option.bind_eq_bind,
        Option.bind_some, drop_left' (length_toBytes _ _)]
      exact loaded
    · rw [Nat.add_right_comm, Nat.add_assoc] at changed
      exact Overwritten.cons (by omega) changed

/-- The fill sets the words of the chunk and no other. -/
theorem fillChunk_spec (fill : host.Word) {left} (writable : pos + left ≤ hb.sizes host.bottom) :
    ∃ hb', fillChunk fill left pos hb = some hb' ∧
      Overwritten hb hb' (fun other => pos ≤ other ∧ other < pos + left) fun _ => fill := by
  induction left generalizing pos hb with
  | zero => exact ⟨hb, rfl, Overwritten.refl hb (fun _ => by omega) _⟩
  | succ left ih =>
    have sizes : (hb.setWord host.bottom pos fill).sizes = hb.sizes := rfl
    obtain ⟨hb', filled, changed⟩ :=
      @ih (hb.setWord host.bottom pos fill) (pos + 1) (by rw [sizes]; omega)
    refine ⟨hb', ?_, ?_⟩
    · rw [fillChunk, HBitmap.setWord?_eq (by omega)]
      exact filled
    · rw [Nat.add_right_comm, Nat.add_assoc] at changed
      exact Overwritten.cons (by omega) changed

theorem and_align (gran n) : n &&& (64 <<< gran - 1) = n % (64 * 2 ^ gran) := by
  have power : 64 * 2 ^ gran = 2 ^ (6 + gran) := by rw [Nat.pow_add]
  rw [Nat.shiftLeft_eq, power, and_two_pow_sub_one_eq_mod]

theorem Load.firstWord_le_lastWord (load : Load host) (some_ : load.count ≠ 0) (granularity : Nat) :
    load.firstWord granularity ≤ load.lastWord granularity :=
  Nat.div_le_div_right (Nat.div_le_div_right (by omega))

/-- An aligned part is a run of whole words. -/
theorem Load.Aligned.chunk_eq (aligned : load.Aligned hb) (some_ : load.count ≠ 0)
    (serial : hb.granularity < 58) (room : hb.size * 2 ^ hb.granularity ≤ 2 ^ 63) :
    serializationChunk hb load.start load.count =
      some (load.firstWord hb.granularity,
          load.lastWord hb.granularity - load.firstWord hb.granularity + 1) := by
  have pos := Nat.two_pow_pos hb.granularity
  -- The last item is inside the groups, so no sum wraps.
  have last : load.start + load.count - 1 < 2 ^ 63 := by
    have := (Nat.div_lt_iff_lt_mul pos).mp aligned.inside
    omega
  have lastGroup_eq : lastItem load.start load.count >>> hb.granularity =
      load.lastGroup hb.granularity := by
    rw [shiftRight_eq_div_pow, lastItem_eq some_ (by omega), Load.lastGroup]
  have order := load.firstWord_le_lastWord some_ hb.granularity
  have small : load.lastWord hb.granularity < 2 ^ 63 :=
    lt_of_le_of_lt (le_trans (div_le_self _ _) (div_le_self _ _)) last
  have num : (load.lastWord hb.granularity + 2 ^ 64 - load.firstWord hb.granularity + 1) % 2 ^ 64 =
      load.lastWord hb.granularity - load.firstWord hb.granularity + 1 := by omega
  have whole : ¬ (load.lastGroup hb.granularity ≠ hb.size - 1 ∧
    ¬ load.count % (64 * 2 ^ hb.granularity) = 0) :=
    fun ⟨early, ragged⟩ => ragged (aligned.whole early)
  rw [serializationChunk, hbitmapSerializationAlign, hbitmapIsSerializable,
    decide_eq_true serial, if_pos rfl]
  simp only [Option.bind_eq_bind, Option.bind_some, and_align, lastGroup_eq,
    aligned.starts, not_true_eq_false,
    if_false, aligned.inside, if_neg whole, host.shiftRight_eq, shiftRight_eq_div_pow load.start]
  exact congrArg (fun count => some (load.firstWord hb.granularity, count)) num

theorem Load.Aligned.words_inside (aligned : load.Aligned hb) (sized : Sized hb) :
    load.lastWord hb.granularity < hb.sizes host.bottom :=
  sized.word_lt aligned.inside

/-- A valid bitmap of the same size and granularity to load from. -/
structure Source (hb source : HBitmap host) : Prop where
  valid : ∃ members, Holds source members
  size : source.size = hb.size
  granularity : source.granularity = hb.granularity

theorem Load.Aligned.of_eq (aligned : load.Aligned hb) (size : hb'.size = hb.size)
    (gran : hb'.granularity = hb.granularity) : load.Aligned hb' := by
  constructor
  · rw [gran]
    exact aligned.starts
  · rw [gran, size]
    exact aligned.inside
  · rw [gran, size]
    exact aligned.whole

theorem Overwritten.writes {word gran} (some_ : load.count ≠ 0)
    (changed : Overwritten hb hb' (fun other => load.firstWord gran ≤ other ∧
      other < load.firstWord gran + (load.lastWord gran - load.firstWord gran + 1)) word) :
    Overwritten hb hb' (load.Writes gran) word := by
  have order := load.firstWord_le_lastWord some_ gran
  refine ⟨changed.frame, changed.upper, fun pos ⟨_, lower, upper⟩ => changed.inside pos ?_,
    fun pos apart => changed.outside pos ?_⟩
  · omega
  · exact fun here => apart ⟨some_, here.1, by omega⟩

/-- Loading an aligned chunk overwrites its words with those of the loader. -/
theorem Load.apply_spec (aligned : load.count ≠ 0 → load.Aligned hb) (sized : Sized hb)
    (serial : hb.granularity < 58) (room : hb.size * 2 ^ hb.granularity ≤ 2 ^ 63)
    (sources : ∀ source, load.loader = .part source → Source hb source) :
    ∃ hb', load.apply hb = some hb' ∧
        Overwritten hb hb' (load.Writes hb.granularity) load.word := by
  by_cases empty : load.count = 0
  · -- An empty chunk writes nothing.
    refine ⟨hb, ?_, Overwritten.refl hb (fun _ writes => writes.1 empty) _⟩
    rw [Load.apply, empty]
    cases load.loader <;> rfl
  have aligned := aligned empty
  have order := load.firstWord_le_lastWord empty hb.granularity
  have inside := aligned.words_inside sized
  have chunk := aligned.chunk_eq empty serial room
  have writable : load.firstWord hb.granularity +
    (load.lastWord hb.granularity - load.firstWord hb.granularity + 1) ≤
      hb.sizes host.bottom := by omega
  -- Both fills write one word over the whole chunk.
  have filled : ∀ fill, ∃ hb', deserializeFill fill hb load.start load.count false = some hb' ∧
      Overwritten hb hb' (load.Writes hb.granularity) fun _ => fill := by
    intro fill
    obtain ⟨hb', res, changed⟩ := fillChunk_spec fill writable
    refine ⟨hb', ?_, changed.writes empty⟩
    rw [deserializeFill, if_neg empty, chunk]
    simp only [Option.bind_eq_bind, Option.bind_some, res]
    rfl
  unfold Load.apply Load.word
  cases kind : load.loader with
  | part source =>
    have isSource := sources source kind
    obtain ⟨_, valid⟩ := isSource.valid
    have sourceAligned := aligned.of_eq isSource.size isSource.granularity
    have sourceInside := sourceAligned.words_inside valid.toSized
    have sourceChunk := sourceAligned.chunk_eq empty (isSource.granularity ▸ serial) valid.room
    rw [isSource.granularity] at sourceInside sourceChunk
    have readable : load.firstWord hb.granularity +
        (load.lastWord hb.granularity - load.firstWord hb.granularity + 1) ≤
          source.sizes host.bottom := by omega
    obtain ⟨buf, hb', written, loaded, changed⟩ := copyWords_spec readable writable
    refine ⟨hb', ?_, changed.writes empty⟩
    simp only [hbitmapSerializePart, hbitmapDeserializePart, if_neg empty, sourceChunk,
      chunk, Option.bind_eq_bind, Option.bind_some, written, loaded]
    rfl
  | zeroes => exact filled _
  | ones => exact filled _

/-- Two bitmaps agree except in the levels, where they agree on all but one. -/
structure LevelChanged (hb hb' : HBitmap host) (lev : Nat) : Prop where
  frame : hb' = { hb with levels := hb'.levels }
  others : ∀ level ≠ lev, hb'.levels level = hb.levels level

variable {lev : Nat}

theorem LevelChanged.sizes (changed : LevelChanged hb hb' lev) : hb'.sizes = hb.sizes := by
  rw [changed.frame]

theorem LevelChanged.trans {hb''} (first : LevelChanged hb hb' lev)
    (second : LevelChanged hb' hb'' lev) : LevelChanged hb hb'' lev := by
  refine ⟨by rw [second.frame, first.frame], fun level other => ?_⟩
  rw [second.others level other, first.others level other]

/-- A word that is not zero has its bit set one level up. -/
theorem markWord_spec {i} (below : i < hb.sizes (lev + 1))
    (inside : i / host.bitsPerLong < hb.sizes lev) :
    ∃ hb', markWord lev i hb = some hb' ∧ LevelChanged hb hb' lev ∧
      ∀ index, (hb'.bit lev index = true ↔
        hb.bit lev index ∨ index = i ∧ hb.levels (lev + 1) i ≠ 0#(host.bitsPerLong)) := by
  have position := mod_lt i host.bitsPerLong_pos
  have belowWord : hb.word? (lev + 1) i = some (hb.levels (lev + 1) i) := if_pos below
  have word : hb.word? lev (i / host.bitsPerLong) = some (hb.levels lev (i / host.bitsPerLong)) :=
    if_pos inside
  simp only [markWord, belowWord, Option.bind_eq_bind, Option.bind_some,
    host.shiftRight_eq, host.and_eq, word]
  by_cases zero : hb.levels (lev + 1) i = 0#(host.bitsPerLong)
  · rw [if_pos zero]
    refine ⟨hb, rfl, ⟨rfl, fun _ _ => rfl⟩, fun index => ?_⟩
    simp [zero]
  rw [if_neg zero]
  refine ⟨_, rfl, ⟨rfl, fun level other => ?_⟩, fun index => ?_⟩
  · funext pos
    simp [HBitmap.setWord, other]
  · -- Only the word of the new bit changes, and in it only the bit.
    simp only [HBitmap.bit, HBitmap.setWord, true_and, zero, ne_eq, not_false_eq_true, and_true]
    by_cases inWord : index / host.bitsPerLong = i / host.bitsPerLong
    · rw [if_pos inWord, BitVec.getLsbD_or, getLsbD_one_shiftLeft position, Bool.or_eq_true,
        decide_eq_true_eq, inWord]
      refine or_congr_right ⟨fun same => ?_, fun same => by rw [same]⟩
      rw [← host.split_index index, ← host.split_index i, inWord, same]
    · rw [if_neg inWord]
      refine (or_iff_left fun same => inWord ?_).symm
      rw [same]

/-- Marking a run of words. -/
theorem markWords_spec {left i} (below : i + left ≤ hb.sizes (lev + 1))
    (inside : ∀ index < hb.sizes (lev + 1), index / host.bitsPerLong < hb.sizes lev) :
    ∃ hb', markWords lev left i hb = some hb' ∧ LevelChanged hb hb' lev ∧
      ∀ index, (hb'.bit lev index = true ↔ hb.bit lev index ∨
        (i ≤ index ∧ index < i + left) ∧ hb.levels (lev + 1) index ≠ 0#(host.bitsPerLong)) := by
  induction left generalizing i hb with
  | zero =>
    refine ⟨hb, rfl, ⟨rfl, fun _ _ => rfl⟩, fun index => (or_iff_left ?_).symm⟩
    omega
  | succ left ih =>
    obtain ⟨hb₁, marked, changed, bits⟩ := markWord_spec (by omega) (inside i (by omega))
    obtain ⟨hb', res, changed', bits'⟩ := @ih hb₁ (i + 1) (by rw [changed.sizes]; omega)
      (by rw [changed.sizes]; exact inside)
    refine ⟨hb', ?_, changed.trans changed', fun index => ?_⟩
    · rw [markWords, marked]
      exact res
    · -- The first word, or one of the later ones.
      rw [bits', bits, changed.others (lev + 1) (by omega), or_assoc]
      refine or_congr_right ?_
      by_cases first : index = i
      · subst first
        simp
      · simp only [first, false_and, false_or]
        refine and_congr_left fun _ => ?_
        omega

/-- A level shows a set, without regard to the sentinel. -/
def Plain (hb : HBitmap host) (members : Finset Nat) (level : Nat) : Prop :=
  ∀ index, index / host.bitsPerLong < hb.sizes level →
    (hb.bit level index = true ↔ index ∈ coarsen host.bitsPerLong (host.bottom - level) members)

theorem Plain.shows {level} (plain : Plain hb members level)
    (pos : level ≠ 0) : Shows hb members level := by
  intro index inside
  rw [plain index inside, or_iff_left]
  exact fun top => pos top.1

theorem Sized.ofLevels (sized : Sized hb) (frame : hb' = { hb with levels := hb'.levels }) :
    Sized hb' := by
  constructor
  · rw [frame]
    exact sized.bounded
  · intro level isLevel
    rw [frame]
    exact sized.words level isLevel

theorem clearLevel_spec (hb : HBitmap host) (lev : Nat) :
    ∃ cleared, clearLevel lev (hb.sizes lev) hb = some cleared ∧ LevelChanged hb cleared lev ∧
      ∀ index, index / host.bitsPerLong < hb.sizes lev → cleared.bit lev index = false := by
  refine ⟨_, if_pos le_rfl, ⟨rfl, fun level other => ?_⟩, fun index inside => ?_⟩
  · funext pos
    simp [other]
  · simp [HBitmap.bit, inside]

/-- The level above one that shows a set is rebuilt to show it. -/
theorem finishLevel_spec (sized : Sized hb) (isLevel : lev + 1 ≤ host.bottom) :
    ∃ cleared hb', clearLevel lev (hb.sizes lev) hb = some cleared ∧
      markWords lev (hb.sizes (lev + 1)) 0 cleared = some hb' ∧ LevelChanged hb hb' lev ∧
      ∀ members : Finset Nat, (∀ group ∈ members, group < hb.size) → Plain hb members (lev + 1) →
        Plain hb' members lev := by
  have bitsAt_eq := sized.bitsAt_eq isLevel
  obtain ⟨cleared, cleared_eq, changed, zero⟩ := clearLevel_spec hb lev
  obtain ⟨hb', marked, changed', bits⟩ := @markWords_spec host cleared lev (hb.sizes (lev + 1)) 0
    (by rw [changed.sizes]; omega)
    (by
      intro index below
      rw [changed.sizes] at below ⊢
      exact sized.div_lt (by omega) (bitsAt_eq.symm ▸ below))
  have both := changed.trans changed'
  refine ⟨cleared, hb', cleared_eq, marked, both, fun members within plain index inside => ?_⟩
  rw [both.sizes] at inside
  -- A bit is set exactly for the words of the level below that are not zero.
  rw [bits, zero index inside, changed.others (lev + 1) (by omega)]
  simp only [Bool.false_eq_true, false_or, Nat.zero_le, true_and, Nat.zero_add]
  constructor
  · intro ⟨below, nonzero⟩
    exact ((plain.shows (succ_ne_zero _)).word_ne_zero_iff isLevel below).mp nonzero
  · intro mem
    have below : index < hb.sizes (lev + 1) := by
      rw [← bitsAt_eq]
      exact lt_of_mem_coarsen host.bitsPerLong_pos within mem
    exact ⟨below, ((plain.shows (succ_ne_zero _)).word_ne_zero_iff isLevel below).mpr mem⟩

/-- The levels above one are rebuilt, and show the set that it shows. -/
theorem finishLevels_spec (sized : Sized hb) (isLevel : lev ≤ host.bottom) :
    ∃ hb', finishLevels lev (hb.sizes lev) hb = some hb' ∧ hb' = { hb with levels := hb'.levels } ∧
      (∀ level ≥ lev, hb'.levels level = hb.levels level) ∧
      ∀ members : Finset Nat, (∀ group ∈ members, group < hb.size) → Plain hb members lev →
        ∀ level ≤ lev, Plain hb' members level := by
  -- One level at a time, upwards; what is finished stays.
  induction lev generalizing hb with
  | zero => exact ⟨hb, rfl, rfl, fun _ _ => rfl, fun _ _ plain level top => le_zero.mp top ▸ plain⟩
  | succ lev ih =>
    have size_eq : host.wordsFor (hb.sizes (lev + 1)) = hb.sizes lev := by
      rw [host.wordsFor_eq, sized.words lev (by omega), sized.bitsAt_eq isLevel]
    obtain ⟨cleared, hb₁, cleared_eq, marked, changed, plain₁⟩ := finishLevel_spec sized isLevel
    obtain ⟨hb', res, frame, kept, done⟩ := ih (sized.ofLevels changed.frame) (by omega)
    refine ⟨hb', ?_, ?_, fun level above => ?_, fun members within plain level below => ?_⟩
    · rw [finishLevels, size_eq, cleared_eq]
      simp only [Option.bind_eq_bind, Option.bind_some, marked]
      rw [← changed.sizes]
      exact res
    · rw [frame, changed.frame]
    · rw [kept level (by omega), changed.others level (by omega)]
    · rcases eq_or_lt_of_le below with same | higher
      · -- The level itself is not touched.
        subst same
        intro index inside
        have sizes : hb'.sizes = hb.sizes := by rw [frame, changed.frame]
        rw [sizes] at inside
        rw [HBitmap.bit, kept _ (le_succ _), changed.others _ (Nat.succ_ne_self _)]
        exact plain index inside
      · have within₁ : ∀ group ∈ members, group < hb₁.size := by
          rw [changed.frame]
          exact within
        exact done members within₁ (plain₁ members within plain) level (le_of_lt_succ higher)

/-- Setting the sentinel completes the top level. -/
theorem Plain.shows_top (plain : Plain hb members 0) (top : hb.sizes 0 = 1) :
    Shows (hb.setWord 0 0 (hb.levels 0 0 ||| host.sentinel)) members 0 := by
  intro index inside
  have sizes : (hb.setWord 0 0 (hb.levels 0 0 ||| host.sentinel)).sizes = hb.sizes := rfl
  rw [sizes, top, Nat.lt_one_iff] at inside
  have pos := host.bitsPerLong_pos
  have small : index < host.bitsPerLong := by
    rcases Nat.div_eq_zero_iff.mp inside with none | small
    · omega
    · exact small
  have shown := plain index (by rw [inside, top]; exact Nat.one_pos)
  rw [HBitmap.bit, inside, mod_eq_of_lt small] at shown
  simp only [HBitmap.bit, HBitmap.setWord, inside, and_self, if_true,
    mod_eq_of_lt small, BitVec.getLsbD_or, Bool.or_eq_true, HostLong.sentinel, true_and, shown]
  rw [getLsbD_one_shiftLeft (by omega), decide_eq_true_eq, eq_comm (a := index)]

theorem Sized.wordsFor_size (sized : Sized hb) : host.wordsFor hb.size = hb.sizes host.bottom := by
  rw [host.wordsFor_eq, sized.words host.bottom le_rfl, hb.bitsAt_bottom]

/-- A bottom level that shows a set of groups is completed to a bitmap of the set. -/
theorem hbitmapDeserializeFinish_spec (sized : Sized hb) (some_ : hb.size ≠ 0)
    (within : ∀ group ∈ members, group < hb.size) (plain : Plain hb members host.bottom) :
    ∃ hb', hbitmapDeserializeFinish hb = some hb' ∧ SameShape hb hb' ∧
      hb'.levels host.bottom = hb.levels host.bottom ∧
          Represents hb' members ∧ hb'.count = members.card := by
  obtain ⟨hb₁, finished, frame, kept, done⟩ := finishLevels_spec sized le_rfl
  have plain₁ := done members within plain
  have sized₁ := sized.ofLevels frame
  have top := sized₁.top_words
  have word : hb₁.word? 0 0 = some (hb₁.levels 0 0) := if_pos (by omega)
  have size_eq : hb₁.size = hb.size := by rw [frame]
  -- The sentinel changes nothing below the top.
  set topped := hb₁.setWord 0 0 (hb₁.levels 0 0 ||| host.sentinel) with topped_eq
  have others : ∀ level ≠ 0, topped.levels level = hb₁.levels level := by
    intro level below
    funext pos
    simp [topped_eq, HBitmap.setWord, below]
  have rep : Represents topped members := by
    refine ⟨⟨sized₁.bounded, sized₁.words⟩, fun group mem => size_eq.symm ▸ within group mem,
      fun level isLevel => ?_⟩
    by_cases top_ : level = 0
    · subst top_
      exact (plain₁ 0 (Nat.zero_le _)).shows_top top
    · intro index inside
      rw [HBitmap.bit, others level top_]
      exact (plain₁ level isLevel).shows top_ index inside
  have counted : hbCountBetween topped 0 ((topped.size + 2 ^ 64 - 1) % 2 ^ 64) =
    some members.card := rep.count_all (size_eq.symm ▸ some_)
  refine ⟨{ topped with count := members.card }, ?_, ?_, ?_, rep.withCount _, rfl⟩
  · rw [hbitmapDeserializeFinish, sized.wordsFor_size, finished]
    simp only [Option.bind_eq_bind, Option.bind_some, word, ← topped_eq, counted]
    rfl
  · rw [SameShape]
    rw [topped_eq, HBitmap.setWord, frame]
  · rw [others _ (ne_of_gt host.bottom_pos), kept _ le_rfl]

/-- Rebuilding the upper levels leaves the bottom one alone. -/
theorem hbitmapDeserializeFinish_keeps (sized : Sized hb)
    (res : hbitmapDeserializeFinish hb = some hb') :
    SameShape hb hb' ∧ hb'.levels host.bottom = hb.levels host.bottom := by
  obtain ⟨hb₁, finished, frame, kept, _⟩ := finishLevels_spec sized le_rfl
  rw [hbitmapDeserializeFinish, sized.wordsFor_size, finished] at res
  simp only [Option.bind_eq_bind, Option.bind_some, Option.bind_eq_some_iff] at res
  obtain ⟨top, _, count, _, res⟩ := res
  cases res
  constructor
  · rw [SameShape, HBitmap.setWord, frame]
  · funext pos
    simp [HBitmap.setWord, ne_of_gt host.bottom_pos, kept _ le_rfl]

variable {loads : List (Load host)}

/-- Chunks that a bitmap is loaded from, in any order: they are aligned, do not overlap, and have
every item; bytes come from valid bitmaps. -/
structure Partition (hb : HBitmap host) (loads : List (Load host)) : Prop where
  aligned : ∀ load ∈ loads, load.count ≠ 0 → load.Aligned hb
  disjoint : loads.Pairwise fun one two => ∀ item, ¬ (one.Has item ∧ two.Has item)
  covers : ∀ item < hb.origSize, ∃ load ∈ loads, load.Has item
  sources : ∀ load ∈ loads, ∀ source, load.loader = .part source → Source hb source

theorem HostLong.dvd_align (host : HostLong) : host.bitsPerLong ∣ 64 := by
  cases host <;> decide

theorem HostLong.lt_of_word_start (host : HostLong) {index words}
    (before : index / host.bitsPerLong * host.bitsPerLong < words * host.bitsPerLong) :
    index < words * host.bitsPerLong := by
  have inWord := (host.bounds_of_div (Eq.refl (index / host.bitsPerLong))).2
  have next : (index / host.bitsPerLong + 1) * host.bitsPerLong ≤ words * host.bitsPerLong :=
    Nat.mul_le_mul_right _ (Nat.lt_of_mul_lt_mul_right before)
  omega

/-- A word that a part writes starts inside the part. -/
theorem Load.Aligned.has_of_writes (aligned : load.Aligned hb)
    (writes : load.Writes hb.granularity pos) :
    load.Has (pos * host.bitsPerLong * 2 ^ hb.granularity) := by
  obtain ⟨some_, lower, upper⟩ := writes
  have positive := Nat.two_pow_pos hb.granularity
  constructor
  · -- The chunk starts with a word, since words divide the alignment.
    obtain ⟨chunks, start_eq⟩ := dvd_of_mod_eq_zero aligned.starts
    obtain ⟨words, align_eq⟩ := host.dvd_align
    have first : load.start / 2 ^ hb.granularity = words * chunks * host.bitsPerLong := by
      rw [start_eq, align_eq, Nat.div_eq_of_eq_mul_left positive]
      ring
    rw [Load.firstWord, first, Nat.mul_div_cancel _ host.bitsPerLong_pos] at lower
    have whole : load.start = words * chunks * host.bitsPerLong * 2 ^ hb.granularity := by
      rw [start_eq, align_eq]
      ring
    rw [whole]
    exact Nat.mul_le_mul_right _ (Nat.mul_le_mul_right _ lower)
  · have last := (Nat.le_div_iff_mul_le host.bitsPerLong_pos).mp upper
    have := (Nat.le_div_iff_mul_le positive).mp last
    omega

theorem Load.Has.writes {item} (has : load.Has item) (gran : Nat) :
    load.Writes gran (item / 2 ^ gran / host.bitsPerLong) := by
  obtain ⟨lower, upper⟩ := has
  exact ⟨by omega, Nat.div_le_div_right (Nat.div_le_div_right lower),
    Nat.div_le_div_right (Nat.div_le_div_right (by omega))⟩

theorem Partition.words_disjoint (parts : Partition hb loads) :
    loads.Pairwise fun one two => ∀ pos,
        ¬ (one.Writes hb.granularity pos ∧ two.Writes hb.granularity pos) := by
  refine parts.disjoint.imp_of_mem fun {one two} first second apart pos ⟨here, there⟩ => ?_
  exact apart _ ⟨(parts.aligned one first here.1).has_of_writes here,
    (parts.aligned two second there.1).has_of_writes there⟩

theorem Sized.word_start_lt (sized : Sized hb) (some_ : hb.size ≠ 0)
    (inside : pos < hb.sizes host.bottom) : pos * host.bitsPerLong < hb.size := by
  have positive := host.bitsPerLong_pos
  have words := sized.words host.bottom le_rfl
  rw [words, hb.bitsAt_bottom, blocks] at inside
  have one : 1 ≤ (hb.size + host.bitsPerLong - 1) / host.bitsPerLong := by
    rw [Nat.le_div_iff_mul_le positive]
    omega
  rw [Nat.max_eq_left one] at inside
  have := (Nat.le_div_iff_mul_le positive).mp inside
  rw [Nat.succ_mul] at this
  omega

theorem Partition.words_covered (parts : Partition hb loads)
    (holds : Holds hb members) (some_ : hb.size ≠ 0)
    (inside : pos < hb.sizes host.bottom) : ∃ load ∈ loads, load.Writes hb.granularity pos := by
  have first := holds.word_start_lt some_ inside
  rw [holds.groups, lt_groupsFor_iff holds.original holds.granular] at first
  obtain ⟨load, mem, has⟩ := parts.covers _ first
  have writes := has.writes hb.granularity
  rw [Nat.mul_div_cancel _ (Nat.two_pow_pos _), Nat.mul_div_cancel _ host.bitsPerLong_pos] at writes
  exact ⟨load, mem, writes⟩

/-- Chunks that share no words leave each word as its chunk has it, in any order. -/
theorem loads_spec (sized : Sized hb) (serial : hb.granularity < 58)
    (room : hb.size * 2 ^ hb.granularity ≤ 2 ^ 63)
    (aligned : ∀ load ∈ loads, load.count ≠ 0 → load.Aligned hb)
    (sources : ∀ load ∈ loads, ∀ source, load.loader = .part source → Source hb source)
    (disjoint : loads.Pairwise fun one two =>
      ∀ pos, ¬ (one.Writes hb.granularity pos ∧ two.Writes hb.granularity pos)) :
    ∃ hb', loads.foldlM Load.apply hb = some hb' ∧ hb' = { hb with levels := hb'.levels } ∧
      (∀ load ∈ loads, ∀ pos, load.Writes hb.granularity pos →
        hb'.levels host.bottom pos = load.word pos) ∧
      ∀ pos, (∀ load ∈ loads, ¬ load.Writes hb.granularity pos) →
        hb'.levels host.bottom pos = hb.levels host.bottom pos := by
  induction loads generalizing hb with
  | nil => exact ⟨hb, rfl, rfl, by simp, fun _ _ => rfl⟩
  | cons load rest ih =>
    obtain ⟨apart, disjoint⟩ := pairwise_cons.mp disjoint
    obtain ⟨hb₁, applied, changed⟩ := Load.apply_spec (aligned load mem_cons_self) sized serial room
      (sources load mem_cons_self)
    have granularity : hb₁.granularity = hb.granularity := by rw [changed.frame]
    have size : hb₁.size = hb.size := by rw [changed.frame]
    -- The parts left are as good for the bitmap after this one.
    have aligned₁ : ∀ other ∈ rest, other.count ≠ 0 → other.Aligned hb₁ := fun other mem some_ =>
      (aligned other (mem_cons_of_mem _ mem) some_).of_eq size granularity
    have sources₁ : ∀ other ∈ rest, ∀ source, other.loader = .part source → Source hb₁ source := by
      intro other mem source kind
      have isSource := sources other (mem_cons_of_mem _ mem) source kind
      exact ⟨isSource.valid, isSource.size.trans size.symm,
        isSource.granularity.trans granularity.symm⟩
    obtain ⟨hb', loaded, frame, inside, out⟩ :=
      ih (sized.ofLevels changed.frame) (granularity ▸ serial)
      (by rw [granularity, size]; exact room) aligned₁ sources₁
        (by rw [granularity]; exact disjoint)
    rw [granularity] at inside out
    refine ⟨hb', ?_, by rw [frame, changed.frame], ?_, fun pos none => ?_⟩
    · rw [foldlM_cons, applied]
      exact loaded
    · intro other mem pos writes
      rcases mem_cons.mp mem with same | later
      · subst same
        rw [out pos fun third inRest there => apart third inRest pos ⟨writes, there⟩]
        exact changed.inside pos writes
      · exact inside other later pos writes
    · rw [out pos fun other mem => none other (mem_cons_of_mem _ mem)]
      exact changed.outside pos (none load mem_cons_self)

theorem Load.Aligned.lastGroup_eq (aligned : load.Aligned hb) {index} (beyond : hb.size ≤ index)
    (writes : load.Writes hb.granularity (index / host.bitsPerLong)) :
    load.lastGroup hb.granularity = hb.size - 1 := by
  by_contra early
  have pos := Nat.two_pow_pos hb.granularity
  obtain ⟨some_, _, upper⟩ := writes
  have inside := aligned.inside
  -- A chunk that ends earlier ends with a word, and this word is the one of the bit.
  obtain ⟨chunks, start_eq⟩ := dvd_of_mod_eq_zero aligned.starts
  obtain ⟨length, count_eq⟩ := dvd_of_mod_eq_zero (aligned.whole early)
  obtain ⟨words, align_eq⟩ := host.dvd_align
  have stop_eq : load.start + load.count =
      words * (chunks + length) * host.bitsPerLong * 2 ^ hb.granularity := by
    rw [start_eq, count_eq, align_eq]
    ring
  have last_eq : load.lastGroup hb.granularity + 1 =
      words * (chunks + length) * host.bitsPerLong := by
    have shifted : load.start + load.count - 1 + 2 ^ hb.granularity = 2 ^ hb.granularity - 1 +
        words * (chunks + length) * host.bitsPerLong * 2 ^ hb.granularity := by omega
    rw [Load.lastGroup, ← add_div_right _ pos, shifted, add_mul_div_right _ _ pos,
      div_eq_of_lt (by omega), Nat.zero_add]
  have reached := (Nat.le_div_iff_mul_le host.bitsPerLong_pos).mp upper
  have before : index < words * (chunks + length) * host.bitsPerLong :=
    host.lt_of_word_start (by omega)
  omega

/-- The last chunk fills its words, or is not loaded as ones. -/
def TailClean (hb : HBitmap host) (loads : List (Load host)) : Prop :=
  hb.size % host.bitsPerLong = 0 ∨
    ∀ load ∈ loads, load.count ≠ 0 → load.lastGroup hb.granularity = hb.size - 1 →
      load.loader ≠ .ones

/-- The last group is full of items, or is loaded clean, or the bitmap cannot grow. -/
def LastClean (hb : HBitmap host) (loads : List (Load host)) : Prop :=
  hb.origSize % 2 ^ hb.granularity = 0 ∨ hb.origSize = 2 ^ 63 - 1 ∨
    ∀ load ∈ loads, load.Has (hb.origSize - 1) → load.content (hb.origSize - 1) = some false

theorem Source.bit_beyond (isSource : Source hb source) (sized : Sized hb) {index}
    (beyond : hb.size ≤ index) (inside : index / host.bitsPerLong < hb.sizes host.bottom) :
    source.bit host.bottom index = false := by
  obtain ⟨⟨_, valid⟩, size, _⟩ := isSource
  refine valid.coherent.beyond index (size ▸ beyond) ?_
  rw [valid.words _ le_rfl, HBitmap.bitsAt, size]
  rw [sized.words _ le_rfl, HBitmap.bitsAt] at inside
  exact inside

def Load.bit (load : Load host) (index : Nat) : Bool :=
  (load.word (index / host.bitsPerLong)).getLsbD (index % host.bitsPerLong)

/-- Inside the bitmap a part's content is its source's bit. -/
theorem Load.content_eq (sources : ∀ source, load.loader = .part source → Source hb source) {item}
    (inside : item / 2 ^ hb.granularity < hb.size) :
    load.content item = some (load.bit (item / 2 ^ hb.granularity)) := by
  unfold Load.content Load.bit Load.word
  cases kind : load.loader with
  | part source =>
    dsimp only
    obtain ⟨⟨members, valid⟩, size, gran⟩ := sources source kind
    have index := shiftRight_eq_div_pow item source.granularity
    rw [gran] at index
    have within : item >>> source.granularity < source.size :=
      by rw [gran, index, size]; exact inside
    have inArray := valid.word_lt (size.symm ▸ inside)
    have shown := valid.bit_bottom inArray
    rw [hbitmapGet_spec valid.toRepresents within, gran, index, Option.some.injEq,
      Bool.eq_iff_iff, decide_eq_true_eq]
    exact shown.symm
  | zeroes => simp
  | ones => simp [mod_lt _ host.bitsPerLong_pos]

/-- Without ones beyond the size, the loaded bitmap holds what the chunks have. -/
theorem Partition.restores (parts : Partition hb loads)
    (holds : Holds hb members) (some_ : hb.size ≠ 0)
    (serial : hb.granularity < 58) (tail : TailClean hb loads) :
    ∃ hb' members', (loads.foldlM Load.apply hb).bind hbitmapDeserializeFinish = some hb' ∧
      SameShape hb hb' ∧ Holds hb' members' ∧ ∀ load ∈ loads, ∀ item, load.Has item →
          hbitmapGet hb' item = load.content item := by
  obtain ⟨hb₁, loaded, frame, words, _⟩ :=
    loads_spec holds.toSized serial holds.room parts.aligned parts.sources parts.words_disjoint
  have sized₁ := holds.toSized.ofLevels frame
  have size_eq : hb₁.size = hb.size := by rw [frame]
  have sizes_eq : hb₁.sizes = hb.sizes := by rw [frame]
  -- Each bit is that of the chunk that takes its word.
  have bits : ∀ load ∈ loads, ∀ index, load.Writes hb.granularity (index / host.bitsPerLong) →
      hb₁.bit host.bottom index = load.bit index := by
    intro load mem index writes
    rw [HBitmap.bit, words load mem _ writes, Load.bit]
  -- Nothing is set beyond the size.
  have clean : ∀ index, index / host.bitsPerLong < hb.sizes host.bottom →
    hb₁.bit host.bottom index = true → index < hb.size := by
    intro index inside isSet
    by_contra beyond
    obtain ⟨load, mem, writes⟩ := parts.words_covered holds some_ inside
    have last := (parts.aligned load mem writes.1).lastGroup_eq (Nat.le_of_not_lt beyond) writes
    rcases tail with whole | notOnes
    · -- A size of whole words leaves no room behind it.
      have start := holds.word_start_lt some_ inside
      obtain ⟨count, count_eq⟩ := dvd_of_mod_eq_zero whole
      rw [count_eq, Nat.mul_comm host.bitsPerLong] at start beyond
      exact beyond (host.lt_of_word_start start)
    rw [bits load mem index writes] at isSet
    unfold Load.bit Load.word at isSet
    cases kind : load.loader with
    | part source =>
      have zero := (parts.sources load mem source kind).bit_beyond holds.toSized
        (Nat.le_of_not_lt beyond) inside
      rw [kind] at isSet
      exact absurd isSet (Bool.eq_false_iff.mp zero)
    | zeroes => simp [kind] at isSet
    | ones => exact notOnes load mem writes.1 last kind
  let members' := (Finset.range hb.size).filter fun group => hb₁.bit host.bottom group = true
  have mem_iff : ∀ group, group ∈ members' ↔ group < hb.size ∧ hb₁.bit host.bottom group := by
    intro group
    rw [Finset.mem_filter, Finset.mem_range]
  have plain : Plain hb₁ members' host.bottom := by
    intro index inside
    rw [sizes_eq] at inside
    rw [Nat.sub_self, coarsen_zero, mem_iff]
    exact ⟨fun isSet => ⟨clean index inside isSet, isSet⟩, fun both => both.2⟩
  obtain ⟨hb', finished, shape, bottom, rep, counted⟩ := hbitmapDeserializeFinish_spec sized₁
    (size_eq ▸ some_) (fun group mem => size_eq.symm ▸ ((mem_iff group).mp mem).1) plain
  have shape' : SameShape hb hb' := by
    rw [SameShape, shape, frame]
  have granularity_eq : hb'.granularity = hb.granularity := by rw [shape']
  refine ⟨hb', members', by rw [loaded]; exact finished, shape', holds.ofShape shape' rep counted,
    fun load mem item has => ?_⟩
  have writes := has.writes hb.granularity
  have rules := parts.aligned load mem writes.1
  have inside : item / 2 ^ hb.granularity < hb.size :=
    lt_of_le_of_lt (Nat.div_le_div_right (by have := has.2; omega)) rules.inside
  rw [Load.content_eq (parts.sources load mem) inside, ← bits load mem _ writes]
  have index := shiftRight_eq_div_pow item hb.granularity
  rw [hbitmapGet_spec rep (by rw [granularity_eq, index, shape']; exact inside),
    granularity_eq, index, Option.some.injEq, Bool.eq_iff_iff, decide_eq_true_eq, mem_iff]
  exact and_iff_right inside

/-- A loaded bitmap: its levels and count agree, nothing is set beyond its size, and its items are
those of the chunks. A larger size later adds clean items only and keeps the count. -/
structure Restored (hb hb' : HBitmap host) (loads : List (Load host)) : Prop where
  shape : SameShape hb hb'
  coherent : Coherent hb'
  content : ∀ load ∈ loads, ∀ item, load.Has item → hbitmapGet hb' item = load.content item
  grows : ∀ size, hb.origSize < size → size ≤ 2 ^ 63 - 1 →
    groupsFor size hb.granularity ≤ 2 ^ host.logMaxSize →
    ∃ grown, hbitmapTruncate hb' size = some grown ∧ grown.count = hb'.count ∧
      ∀ item, hb.origSize ≤ item → item < size → hbitmapGet grown item = some false

theorem pred_div {n width} (ragged : n % width ≠ 0) : (n - 1) / width = n / width := by
  have split := div_add_mod n width
  rcases Nat.eq_zero_or_pos width with zero | pos
  · simp [zero]
  have rest := mod_lt n pos
  rw [Nat.mul_comm] at split
  refine Nat.div_eq_of_lt_le (by omega) ?_
  rw [Nat.succ_mul]
  omega

/-- Growing the bitmap keeps what it holds. -/
theorem Holds.grow (holds : Holds hb members) {size} (larger : hb.origSize < size)
    (bounded : size ≤ 2 ^ 63 - 1) (fits : groupsFor size hb.granularity ≤ 2 ^ host.logMaxSize) :
    ∃ grown, hbitmapTruncate hb size = some grown ∧ grown.count = hb.count ∧
      ∀ item < size, hbitmapGet grown item =
          some (decide (item / 2 ^ hb.granularity ∈ members)) := by
  obtain ⟨grown, res, gran, orig, held⟩ := hbitmapTruncate_holds holds bounded fits
  -- No group is cut off.
  have all : members.filter (· < groupsFor size hb.granularity) = members := by
    refine Finset.filter_true_of_mem fun group mem => ?_
    have within := holds.within group mem
    rw [holds.groups, lt_groupsFor_iff holds.original holds.granular] at within
    rw [lt_groupsFor_iff bounded holds.granular]
    omega
  rw [all] at held
  refine ⟨grown, res, by rw [held.counted, holds.counted], fun item inside => ?_⟩
  have index := shiftRight_eq_div_pow item grown.granularity
  have within := held.group_lt (show item < grown.origSize by omega)
  rw [hbitmapGet_spec held.toRepresents (index ▸ within), index, gran]

theorem Partition.last_item (parts : Partition hb loads) (some_ : hb.origSize ≠ 0) :
    ∃ load ∈ loads, load.Has (hb.origSize - 1) :=
  parts.covers _ (by omega)

/-- New items are clean exactly when the last group has no room for them or is clean. -/
theorem Partition.restored_iff (parts : Partition hb loads) (holds : Holds hb' members)
    (shape : SameShape hb hb') (nonempty : hb.origSize ≠ 0)
    (content : ∀ load ∈ loads, ∀ item, load.Has item → hbitmapGet hb' item = load.content item) :
    Restored hb hb' loads ↔ LastClean hb loads := by
  have granularity : hb'.granularity = hb.granularity := by rw [shape]
  have orig : hb'.origSize = hb.origSize := by rw [shape]
  have pos := Nat.two_pow_pos hb.granularity
  have bounded : hb.origSize ≤ 2 ^ 63 - 1 := orig ▸ holds.original
  have granular : hb.granularity < 64 := granularity ▸ holds.granular
  constructor
  · intro restored
    by_cases full : hb.origSize % 2 ^ hb.granularity = 0
    · exact .inl full
    by_cases largest : hb.origSize = 2 ^ 63 - 1
    · exact .inr (.inl largest)
    refine .inr (.inr fun load mem has => ?_)
    -- One more item lies in the last group, which does not grow the number of groups.
    have room : groupsFor (hb.origSize + 1) hb.granularity = hb'.size := by
      rw [holds.groups, orig, granularity, groupsFor_eq (by omega) granular,
        groupsFor_eq bounded granular,
        show hb.origSize + 1 + 2 ^ hb.granularity - 1 = hb.origSize + 2 ^ hb.granularity by omega,
        show hb.origSize + 2 ^ hb.granularity - 1 = hb.origSize - 1 + 2 ^ hb.granularity by omega,
        add_div_right _ pos, add_div_right _ pos, pred_div full]
    have fits : groupsFor (hb.origSize + 1) hb.granularity ≤ 2 ^ host.logMaxSize :=
      room ▸ holds.bounded
    obtain ⟨grown, res, _, cleanItems⟩ :=
      restored.grows (hb.origSize + 1) (by omega) (by omega) fits
    obtain ⟨same, result', _, items⟩ := holds.grow (by omega) (by omega)
      (granularity.symm ▸ fits)
    obtain rfl : same = grown := Option.some.inj (result'.symm.trans res)
    have clean := (items hb.origSize (by omega)).symm.trans
      (cleanItems hb.origSize le_rfl (by omega))
    rw [Option.some.injEq, decide_eq_false_iff_not] at clean
    rw [← content load mem _ has, holds.get_false_iff (by omega), granularity,
      pred_div full, ← granularity]
    exact clean
  · intro clean
    refine ⟨shape, holds.coherent, content, fun size larger upper fits => ?_⟩
    obtain ⟨grown, res, counted, items⟩ :=
      holds.grow (orig.symm ▸ larger) upper (granularity.symm ▸ fits)
    refine ⟨grown, res, counted, fun item after inside => ?_⟩
    rw [items item inside, granularity, Option.some.injEq, decide_eq_false_iff_not]
    intro mem
    -- A dirty group of an old item that also has a new one is the last group.
    have old := holds.within _ mem
    rw [holds.groups, orig, granularity, lt_groupsFor_iff bounded granular] at old
    rcases clean with full | largest | lastClean
    · obtain ⟨groups, groups_eq⟩ := dvd_of_mod_eq_zero full
      rw [Nat.mul_comm] at groups_eq
      have before := Nat.lt_of_mul_lt_mul_right (Nat.lt_of_lt_of_eq old groups_eq)
      have := (Nat.div_lt_iff_lt_mul pos).mp before
      omega
    · omega
    obtain ⟨load, inLoads, has⟩ := parts.last_item nonempty
    have item_lt := lt_div_mul_add pos (a := item)
    have group_eq : (hb.origSize - 1) / 2 ^ hb.granularity = item / 2 ^ hb.granularity := by
      refine Nat.div_eq_of_lt_le (by omega) ?_
      rw [Nat.succ_mul]
      omega
    have isClean := (content load inLoads _ has).trans (lastClean load inLoads has)
    rw [holds.get_false_iff (by omega), granularity, group_eq] at isClean
    exact isClean mem

/-- Ones in a ragged last word stay set beyond the size. -/
theorem Partition.ones_beyond (parts : Partition hb loads) (holds : Holds hb members)
    (serial : hb.granularity < 58) (some_ : hb.size ≠ 0) (tail : ¬ TailClean hb loads)
    (res : (loads.foldlM Load.apply hb).bind hbitmapDeserializeFinish = some hb') :
    ¬ Coherent hb' := by
  intro coherent
  obtain ⟨hb₁, loaded, frame, words, _⟩ :=
    loads_spec holds.toSized serial holds.room parts.aligned parts.sources parts.words_disjoint
  rw [loaded, Option.bind_some] at res
  obtain ⟨shape, bottom⟩ := hbitmapDeserializeFinish_keeps (holds.toSized.ofLevels frame) res
  rw [TailClean, not_or] at tail
  obtain ⟨ragged, filled⟩ := tail
  push Not at filled
  obtain ⟨load, mem, nonempty, last, ones⟩ := filled
  -- The bit behind the last group is in the same word.
  have sameWord := pred_div ragged
  have inside := holds.word_lt (show hb.size - 1 < hb.size by omega)
  rw [sameWord] at inside
  have writes : load.Writes hb.granularity (hb.size / host.bitsPerLong) := by
    have order := load.firstWord_le_lastWord nonempty hb.granularity
    rw [Load.lastWord, last, sameWord] at order
    exact ⟨nonempty, order, by rw [Load.lastWord, last, sameWord]⟩
  have isSet : hb'.bit host.bottom hb.size := by
    rw [HBitmap.bit, bottom, words load mem _ writes, Load.word, ones]
    simp [mod_lt _ host.bitsPerLong_pos]
  have size_eq : hb'.size = hb.size := by rw [shape, frame]
  have sizes_eq : hb'.sizes = hb.sizes := by rw [shape, frame]
  have clear := coherent.beyond hb.size (Nat.le_of_eq size_eq) (by rw [sizes_eq]; exact inside)
  rw [isSet] at clear
  contradiction

/-- Loading in chunks restores a bitmap exactly when a last chunk of ones fills its words, since
whole words are set, and for new items to be clean, the last group is full of items or clean, since
items share its bit. -/
theorem deserialize_restores_iff (holds : Holds hb members) (some_ : hb.size ≠ 0)
    (serializable : hbitmapIsSerializable hb = true) (parts : Partition hb loads) :
    (∃ hb', (loads.foldlM Load.apply hb).bind hbitmapDeserializeFinish = some hb' ∧
      Restored hb hb' loads) ↔ TailClean hb loads ∧ LastClean hb loads := by
  have serializable : hb.granularity < 58 := by simpa [hbitmapIsSerializable] using serializable
  have nonempty : hb.origSize ≠ 0 := by
    intro zero
    apply some_
    rw [holds.groups, zero, groupsFor_eq (by omega) holds.granular]
    have := Nat.two_pow_pos hb.granularity
    exact div_eq_of_lt (by omega)
  by_cases tail : TailClean hb loads
  · obtain ⟨hb', members', result, shape, held, content⟩ :=
      parts.restores holds some_ serializable tail
    have restored_iff := parts.restored_iff held shape nonempty content
    simp only [tail, true_and]
    constructor
    · intro ⟨other, result', restored⟩
      obtain rfl : other = hb' := Option.some.inj (result'.symm.trans result)
      exact restored_iff.mp restored
    · intro last
      exact ⟨hb', result, restored_iff.mpr last⟩
  · simp only [tail, false_and, iff_false]
    intro ⟨hb', result, restored⟩
    exact parts.ones_beyond holds serializable some_ tail result restored.coherent

/-- 100 items: the last chunk is loaded as zeroes first, the other from a bitmap. -/
theorem deserialize_restores_iff_sample :
    ∃ hb source, hbitmapAlloc .bits64 100 0 = some hb ∧
      runFrom Update.step (hbitmapAlloc .bits64 100 0) [.set 5 20] = some source ∧
      ∃ hb', ([⟨64, 36, .zeroes⟩, ⟨0, 64, .part source⟩].foldlM Load.apply hb).bind
        hbitmapDeserializeFinish = some hb' ∧
        Restored hb hb' [⟨64, 36, .zeroes⟩, ⟨0, 64, .part source⟩] := by
  obtain ⟨hb, allocated, _, holds⟩ := hbitmapAlloc_spec (show Accepted .bits64 100 0 by decide)
  have returns : (runFrom Update.step (hbitmapAlloc .bits64 100 0) [.set 5 20]).isSome :=
    by decide +kernel
  obtain ⟨source, reached⟩ := Option.isSome_iff_exists.mp returns
  obtain ⟨members, valid⟩ := reached_holds reached
  have shape : ∀ new ∈ hbitmapAlloc .bits64 100 0, new.size = 100 ∧
      new.granularity = 0 ∧ new.origSize = 100 := by
    decide +kernel
  have sourceShape : ∀ new ∈ runFrom Update.step (hbitmapAlloc .bits64 100 0) [.set 5 20],
      new.size = 100 ∧ new.granularity = 0 := by decide +kernel
  obtain ⟨size, granularity, original⟩ := shape hb allocated
  obtain ⟨sourceSize, sourceGranularity⟩ := sourceShape source reached
  have parts : Partition hb [⟨64, 36, .zeroes⟩, ⟨0, 64, .part source⟩] := by
    refine ⟨?_, ?_, fun item inside => ?_, ?_⟩
    · simp only [forall_mem_cons, not_mem_nil, false_imp_iff, implies_true, and_true]
      refine ⟨fun _ => ⟨?_, ?_, ?_⟩, fun _ => ⟨?_, ?_, ?_⟩⟩
        <;> simp [granularity, size, Load.lastGroup]
    · simp only [pairwise_cons, mem_singleton, forall_eq, not_mem_nil, false_imp_iff, implies_true,
        List.Pairwise.nil, and_true, Load.Has]
      omega
    · simp only [mem_cons, not_mem_nil, or_false, exists_eq_or_imp, exists_eq_left, Load.Has]
      omega
    · simp only [forall_mem_cons, not_mem_nil, false_imp_iff, implies_true, and_true, reduceCtorEq,
        Loader.part.injEq, forall_eq', true_and]
      exact ⟨⟨members, valid⟩, by rw [sourceSize, size], by rw [sourceGranularity, granularity]⟩
  have clean : TailClean hb [⟨64, 36, .zeroes⟩, ⟨0, 64, .part source⟩] := by
    refine .inr ?_
    simp
  have serializable : hbitmapIsSerializable hb =
    true := by simp [hbitmapIsSerializable, granularity]
  exact ⟨hb, source, allocated, reached,
    (deserialize_restores_iff holds (by omega) serializable parts).mpr
    ⟨clean, .inl (by rw [granularity, Nat.pow_zero, mod_one])⟩⟩

/-- One item loaded as ones: more bits are set, and new items are dirty. -/
theorem deserializeOnes_fills_word :
    ∃ hb hb' grown, hbitmapAlloc .bits64 1 0 = some hb ∧ hbitmapDeserializeOnes hb 0 1 true =
      some hb' ∧ ¬ Coherent hb' ∧
      hbitmapTruncate hb' 2 = some grown ∧ hbitmapGet grown 1 = some true := by
  have allocates : (hbitmapAlloc .bits64 1 0).isSome := by decide +kernel
  obtain ⟨hb, allocated⟩ := Option.isSome_iff_exists.mp allocates
  have loads : ∀ new ∈ hbitmapAlloc .bits64 1 0,
    (hbitmapDeserializeOnes new 0 1 true).isSome := by decide +kernel
  obtain ⟨hb', loaded⟩ := Option.isSome_iff_exists.mp (loads hb allocated)
  have facts : ∀ new ∈ hbitmapAlloc .bits64 1 0, ∀ full ∈ hbitmapDeserializeOnes new 0 1 true,
      full.size = 1 ∧ full.sizes (HostLong.bottom .bits64) = 1 ∧
        full.bit (HostLong.bottom .bits64) 1 = true ∧
        (hbitmapTruncate full 2).isSome ∧ ∀ grown ∈ hbitmapTruncate full 2,
            hbitmapGet grown 1 = some true := by
    decide +kernel
  obtain ⟨size, sizes, isSet, grows, dirty⟩ := facts hb allocated hb' loaded
  obtain ⟨grown, truncated⟩ := Option.isSome_iff_exists.mp grows
  refine ⟨hb, hb', grown, allocated, loaded, fun coherent => ?_, truncated, dirty grown truncated⟩
  have clear := coherent.beyond 1 (by omega) (by rw [sizes]; decide)
  rw [isSet] at clear
  contradiction

end Qemu.Util
