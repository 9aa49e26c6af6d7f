import Qemu.Migration.Xbzrle

/-! The scans of the encoder stop exactly at the ends of runs. -/

namespace Qemu.Xbzrle

open ByteWord

variable {old new : Buffer} {i' run' : Nat}

/-- Every position of an interval agrees, or every position differs. -/
def Uniform (old new : Buffer) (agree : Bool) (first last : Nat) : Prop :=
  ∀ k, first ≤ k → k < last → (old k == new k) = agree

/-- A maximal run below `slen`: uniform up to where the comparison changes. -/
def IsRun (old new : Buffer) (agree : Bool) (slen first last : Nat) : Prop :=
  first ≤ last ∧ last ≤ slen ∧ Uniform old new agree first last ∧
    (last = slen ∨ (old last == new last) = !agree)

theorem Uniform.refl (agree i) : Uniform old new agree i i := by
  intro k lower upper
  omega

theorem Uniform.trans {agree i j k} (left : Uniform old new agree i j)
    (right : Uniform old new agree j k) : Uniform old new agree i k := by
  intro pos lower upper
  by_cases before : pos < j
  · exact left pos lower before
  · exact right pos (by omega) upper

theorem Uniform.single {agree i} (here : (old i == new i) = agree) :
    Uniform old new agree i (i + 1) := by
  intro k lower upper
  have same : k = i := by omega
  rw [same, here]

/-- The byte loop stops at the first byte of the other kind. -/
theorem skipByte_spec (agree res i run) {res'}
    (scanned : skipByte old new agree res i run = (res', i', run')) :
    i ≤ i' ∧ i' + res' = i + res ∧ run' + i = run + i' ∧ Uniform old new agree i i' ∧
      (res' ≠ 0 → (old i' == new i') = !agree) := by
  induction res generalizing i run with
  | zero =>
    simp only [skipByte, Prod.mk.injEq] at scanned
    obtain ⟨rfl, rfl, rfl⟩ := scanned
    exact ⟨le_rfl, rfl, rfl, Uniform.refl _ _, fun absurd => absurd.elim rfl⟩
  | succ res ih =>
    simp only [skipByte] at scanned
    split at scanned
    · rename_i here
      obtain ⟨order, budget, grown, uniform, stop⟩ := ih _ _ scanned
      exact ⟨by omega, by omega, by omega, (Uniform.single here).trans uniform, stop⟩
    rename_i here
    simp only [Prod.mk.injEq] at scanned
    obtain ⟨rfl, rfl, rfl⟩ := scanned
    refine ⟨le_rfl, rfl, rfl, Uniform.refl _ _, fun _ => ?_⟩
    -- A Boolean that is not the expected one is its negation.
    revert here
    cases agree <;> cases (old i == new i) <;> simp

/-- A byte of the difference is zero where the pages agree. -/
theorem wordAt_xor_byte (i k) (within : k < wordBytes) :
    ByteWord.byteOf (wordAt old i ^^^ wordAt new i).toNat k = 0 ↔ old (i + k) = new (i + k) := by
  have spelled (buffer : Buffer) :
      (wordAt buffer i).toNat = ByteWord.ofBytes wordBytes fun k => buffer (i + k) := by
    have bound := ByteWord.ofBytes_lt wordBytes fun k => buffer (i + k)
    simp only [wordAt, BitVec.toNat_ofNat]
    exact Nat.mod_eq_of_lt bound
  rw [BitVec.toNat_xor, byteOf_xor, spelled, spelled, byteOf_ofBytes _ within,
    byteOf_ofBytes _ within, Nat.xor_eq_zero_iff]
  exact UInt8.toNat_inj

theorem wordAt_eq (i) : wordAt old i = wordAt new i → Uniform old new true i (i + wordBytes) := by
  intro same k lower upper
  have byte := (@wordAt_xor_byte old new i (k - i) (by omega)).mp (by
    simp [same, ByteWord.byteOf])
  rw [show i + (k - i) = k by omega] at byte
  simp [byte]

theorem hasZeroByte_iff (i) : hasZeroByte (wordAt old i ^^^ wordAt new i) = true ↔
      ∃ k < wordBytes, old (i + k) = new (i + k) := by
  rw [hasZeroByte, decide_eq_true_eq]
  refine (ByteWord.zeroByte_test _).trans ?_
  constructor
  · rintro ⟨k, within, zero⟩
    exact ⟨k, within, (wordAt_xor_byte i k within).mp zero⟩
  · rintro ⟨k, within, same⟩
    exact ⟨k, within, (wordAt_xor_byte i k within).mpr same⟩

/-- Whole words are skipped only where all their bytes agree. -/
theorem skipEqualWords_spec (slen fuel i run) (bounded : i ≤ slen)
    (aligned : (slen - i) % wordBytes = 0)
    (scanned : skipEqualWords old new slen fuel i run = (i', run')) :
    i ≤ i' ∧ i' ≤ slen ∧ run' + i = run + i' ∧ Uniform old new true i i' := by
  induction fuel generalizing i run with
  | zero =>
    simp only [skipEqualWords] at scanned
    cases scanned
    exact ⟨le_rfl, bounded, rfl, Uniform.refl _ _⟩
  | succ fuel ih =>
    simp only [skipEqualWords] at scanned
    split at scanned
    · rename_i here
      -- A whole word fits because the distance to the end is a nonzero multiple of the word size.
      have room : i + wordBytes ≤ slen := by unfold wordBytes at *; omega
      obtain ⟨order, inside, grown, uniform⟩ :=
        ih _ _ room (by unfold wordBytes at *; omega) scanned
      exact ⟨by omega, inside, by omega, (wordAt_eq i here.2).trans uniform⟩
    · cases scanned
      exact ⟨le_rfl, bounded, rfl, Uniform.refl _ _⟩

theorem skipEqualRest_spec (slen fuel i run) (bounded : i ≤ slen)
    (enough : slen - i ≤ fuel) (scanned : skipEqualRest old new slen fuel i run = (i', run')) :
    IsRun old new true slen i i' ∧ run' + i = run + i' := by
  induction fuel generalizing i run with
  | zero =>
    simp only [skipEqualRest, Prod.mk.injEq] at scanned
    obtain ⟨rfl, rfl⟩ := scanned
    exact ⟨⟨le_rfl, bounded, Uniform.refl _ _, .inl (by omega)⟩, rfl⟩
  | succ fuel ih =>
    simp only [skipEqualRest] at scanned
    split at scanned
    · rename_i here
      obtain ⟨⟨order, inside, uniform, stop⟩, grown⟩ := ih _ _ (by omega) (by omega) scanned
      exact ⟨⟨by omega, inside, (Uniform.single (by simp [here.2])).trans uniform, stop⟩, by omega⟩
    rename_i here
    simp only [Prod.mk.injEq] at scanned
    obtain ⟨rfl, rfl⟩ := scanned
    refine ⟨⟨le_rfl, bounded, Uniform.refl _ _, ?_⟩, rfl⟩
    by_cases last : i = slen
    · exact .inl last
    · right
      simpa using fun same => here ⟨by omega, same⟩

/-- The zero run found is maximal. -/
theorem scanZrun_spec (slen i zrunLen) (bounded : i ≤ slen)
    (scanned : scanZrun old new slen i zrunLen = (i', run')) :
    IsRun old new true slen i i' ∧ run' + i = zrunLen + i' := by
  -- The unaligned head, the equal words and the trailing bytes are consecutive parts of one run.
  unfold scanZrun at scanned
  rcases head : skipByte old new true ((slen - i) % wordBytes) i zrunLen with ⟨res₁, i₁, run₁⟩
  obtain ⟨order₁, budget₁, grown₁, uniform₁, stop₁⟩ := skipByte_spec _ _ _ _ head
  have fits := Nat.mod_le (slen - i) wordBytes
  simp only [head] at scanned
  split at scanned
  · have aligned : (slen - i₁) % wordBytes = 0 := by unfold wordBytes at *; omega
    rcases words : skipEqualWords old new slen slen i₁ run₁ with ⟨i₂, run₂⟩
    obtain ⟨order₂, inside₂, grown₂, uniform₂⟩ :=
      skipEqualWords_spec _ _ _ _ (by omega) aligned words
    simp only [words] at scanned
    obtain ⟨⟨order₃, inside₃, uniform₃, stop₃⟩, grown₃⟩ :=
      skipEqualRest_spec _ _ _ _ inside₂ (by omega) scanned
    exact ⟨⟨by omega, inside₃, (uniform₁.trans uniform₂).trans uniform₃, stop₃⟩, by omega⟩
  · rename_i pending
    cases scanned
    exact ⟨⟨order₁, by omega, uniform₁, .inr (stop₁ pending)⟩, grown₁⟩

theorem skipUnequalRest_spec (fuel i run) (reached : ∃ k < fuel, old (i + k) = new (i + k))
    (scanned : skipUnequalRest old new fuel i run = (i', run')) :
    i ≤ i' ∧ i' < i + fuel ∧ run' + i = run + i' ∧
        Uniform old new false i i' ∧ old i' = new i' := by
  induction fuel generalizing i run with
  | zero =>
    obtain ⟨k, absurd, _⟩ := reached
    omega
  | succ fuel ih =>
    simp only [skipUnequalRest] at scanned
    split at scanned
    · rename_i here
      obtain ⟨k, below, same⟩ := reached
      have later : ∃ k < fuel, old (i + 1 + k) = new (i + 1 + k) := by
        cases k with
        | zero => exact absurd same here
        | succ k => exact ⟨k, by omega, by rw [show i + 1 + k = i + (k + 1) by omega]; exact same⟩
      obtain ⟨order, inside, grown, uniform, stop⟩ := ih _ _ later scanned
      exact ⟨by omega, by omega, by omega,
        (Uniform.single (by simpa using here)).trans uniform, stop⟩
    · rename_i here
      cases scanned
      exact ⟨le_rfl, by omega, rfl, Uniform.refl _ _, by simpa using here⟩

/-- Skipping words without an equal byte ends the nonzero run. -/
theorem skipUnequalWords_spec (slen fuel i run) (bounded : i ≤ slen)
    (aligned : (slen - i) % wordBytes = 0) (enough : slen - i ≤ fuel)
    (scanned : skipUnequalWords old new slen fuel i run = (i', run')) :
    IsRun old new false slen i i' ∧ run' + i = run + i' := by
  induction fuel generalizing i run with
  | zero =>
    simp only [skipUnequalWords] at scanned
    cases scanned
    exact ⟨⟨le_rfl, bounded, Uniform.refl _ _, .inl (by omega)⟩, rfl⟩
  | succ fuel ih =>
    simp only [skipUnequalWords] at scanned
    split at scanned
    · have room : i + wordBytes ≤ slen := by unfold wordBytes at *; omega
      split at scanned
      · rename_i found
        obtain ⟨order, inside, grown, uniform, stop⟩ :=
          skipUnequalRest_spec _ _ _ ((hasZeroByte_iff i).mp found) scanned
        exact ⟨⟨order, by omega, uniform, .inr (by simp [stop])⟩, grown⟩
      rename_i clear
      -- A word that fails the test differs from its counterpart in every byte.
      have word : Uniform old new false i (i + wordBytes) := by
        intro k lower upper
        have none := fun same => clear ((hasZeroByte_iff i).mpr ⟨k - i, by omega, same⟩)
        rw [show i + (k - i) = k by omega] at none
        simpa using none
      obtain ⟨⟨order, inside, uniform, stop⟩, grown⟩ :=
        ih _ _ room (by unfold wordBytes at *; omega) (by unfold wordBytes; omega) scanned
      exact ⟨⟨by omega, inside, word.trans uniform, stop⟩, by omega⟩
    · cases scanned
      exact ⟨⟨le_rfl, bounded, Uniform.refl _ _, .inl (by omega)⟩, rfl⟩

/-- The nonzero run found is maximal. -/
theorem scanNzrun_spec (slen i nzrunLen) (bounded : i ≤ slen)
    (scanned : scanNzrun old new slen i nzrunLen = (i', run')) :
    IsRun old new false slen i i' ∧ run' + i = nzrunLen + i' := by
  unfold scanNzrun at scanned
  rcases head : skipByte old new false ((slen - i) % wordBytes) i nzrunLen with ⟨res₁, i₁, run₁⟩
  obtain ⟨order₁, budget₁, grown₁, uniform₁, stop₁⟩ := skipByte_spec _ _ _ _ head
  have fits := Nat.mod_le (slen - i) wordBytes
  simp only [head] at scanned
  split at scanned
  · have aligned : (slen - i₁) % wordBytes = 0 := by unfold wordBytes at *; omega
    obtain ⟨⟨order₂, inside₂, uniform₂, stop₂⟩, grown₂⟩ :=
      skipUnequalWords_spec _ _ _ _ (by omega) aligned (by omega) scanned
    exact ⟨⟨by omega, inside₂, uniform₁.trans uniform₂, stop₂⟩, by omega⟩
  · rename_i pending
    cases scanned
    exact ⟨⟨order₁, by omega, uniform₁, .inr (stop₁ pending)⟩, grown₁⟩

end Qemu.Xbzrle
