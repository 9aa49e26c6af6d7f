import Mathlib.Data.List.Infix
import Mathlib.Data.List.TakeWhile
import Mathlib.Logic.Relation

/-! Straight code with labels: its runs, and when a piece can be cut out. -/

namespace LabelledCode

open List

/-- Where an instruction leaves the machine. -/
inductive Act (κ σ : Type*) where
  | next (state : σ)
  | jump (label : κ) (state : σ)
  | stop (state : σ)

/-- What instructions mean: labels, effects, and passing control on. -/
structure Machine (ι κ σ : Type*) where
  label : ι → Option κ
  act : σ → ι → Act κ σ
  quiet : ι → Bool
  quiet_act : ∀ i, quiet i = true → ∀ state, act state i = .next state ∨
    ∃ l, act state i = .jump l state

variable {ι κ σ : Type*}

variable (machine : Machine ι κ σ)

/-- The second trace lacks some instructions that pass control on. -/
def Erased (trace trace' : List ι) : Prop :=
  trace'.Sublist trace ∧ trace'.filter (fun i => !machine.quiet i) = trace.filter
    fun i => !machine.quiet i

variable {machine}

theorem Erased.refl (trace : List ι) : Erased machine trace trace := ⟨Sublist.refl _, rfl⟩

theorem Erased.trans {first second third} (once : Erased machine first second)
    (twice : Erased machine second third) : Erased machine first third :=
  ⟨twice.1.trans once.1, twice.2.trans once.2⟩

variable {trace trace' : List ι}

theorem Erased.cons (i : ι) (erased : Erased machine trace trace') :
    Erased machine (i :: trace) (i :: trace') := by
  obtain ⟨part, same⟩ := erased
  exact ⟨part.cons_cons i, by rw [filter_cons, filter_cons, same]⟩

theorem Erased.quiet {i} (quiet : machine.quiet i)
    (erased : Erased machine trace trace') : Erased machine (i :: trace) trace' := by
  obtain ⟨part, same⟩ := erased
  exact ⟨part.cons i, by simp [quiet, same]⟩

theorem Erased.quiet_append {piece} (quiet : ∀ i ∈ piece, machine.quiet i)
    (erased : Erased machine trace trace') : Erased machine (piece ++ trace) trace' := by
  induction piece with
  | nil => exact erased
  | cons i piece ih =>
    obtain ⟨here, others⟩ := forall_mem_cons.mp quiet
    exact (ih others).quiet here

variable [DecidableEq κ] (machine : Machine ι κ σ)

/-- The code from a label on; nothing if the label is not placed. -/
def target (code : List ι) (l : κ) : List ι := code.dropWhile fun i => machine.label i ≠ some l

/-- One step: an instruction, the remaining code and the state. -/
def step (code : List ι) : List ι × σ → Option (ι × List ι × σ)
  | ([], _) => none
  | (i :: rest, state) =>
    match machine.act state i with
    | .next state => some (i, rest, state)
    | .jump l state => some (i, target machine code l, state)
    | .stop state => some (i, [], state)

/-- Runs, with the instructions performed. -/
inductive Steps (code : List ι) : List ι × σ → List ι → List ι × σ → Prop where
  | refl (config : List ι × σ) : Steps code config [] config
  | cons {config next final : List ι × σ} {i : ι} {trace : List ι}
      (first : step machine code config = some (i, next))
      (rest : Steps code next trace final) : Steps code config (i :: trace) final

/-- No run from the start of the code gets to a position. -/
def Unreached (code position : List ι) : Prop :=
  ∀ start trace state, ¬ Steps machine code (code, start) trace (position, state)

/-- Two codes run alike from every state, up to such instructions. -/
structure SameRuns (code code' : List ι) : Prop where
  forward : ∀ start trace rest state, Steps machine code (code, start) trace (rest, state) →
    ∃ trace' rest', Steps machine code' (code', start) trace' (rest', state) ∧
      Erased machine trace trace' ∧ (rest = [] → rest' = [])
  backward : ∀ start trace' rest' state, Steps machine code' (code', start) trace' (rest', state) →
    ∃ trace rest, Steps machine code (code, start) trace (rest, state) ∧
      Erased machine trace trace' ∧ (rest' = [] → rest = [])

variable {machine}

/-! ## Runs -/

variable {code first second : List ι} {middle final : List ι × σ}

theorem Steps.append {start}
    (run : Steps machine code start first middle)
    (onwards : Steps machine code middle second final) :
    Steps machine code start (first ++ second) final := by
  induction run with
  | refl => exact onwards
  | cons step _ ih => exact .cons step (ih onwards)

/-- Of two runs from one configuration, one continues the other. -/
theorem Steps.linear {start}
    (run : Steps machine code start first middle) (run' : Steps machine code start second final) :
    (∃ trace, second = first ++ trace ∧ Steps machine code middle trace final) ∨
      ∃ trace, first = second ++ trace ∧ trace ≠ [] ∧ Steps machine code final trace middle := by
  induction run generalizing second final with
  | refl => exact .inl ⟨second, rfl, run'⟩
  | cons step rest ih =>
    cases run' with
    | refl => exact .inr ⟨_, rfl, cons_ne_nil _ _, .cons step rest⟩
    | cons stepped' rest' =>
      obtain ⟨rfl, rfl⟩ := Prod.mk.inj (Option.some.inj (step.symm.trans stepped'))
      rcases ih rest' with ⟨trace, rfl, onwards⟩ | ⟨trace, rfl, more, onwards⟩
      · exact .inl ⟨trace, rfl, onwards⟩
      · exact .inr ⟨trace, rfl, more, onwards⟩

variable {rest : List ι} {i : ι}

/-- A step goes on, jumps to a label or stops. -/
theorem step_eq_some {rest' start state} :
    step machine code (rest, start) = some (i, rest', state) ↔
      ∃ later, rest = i :: later ∧
        (machine.act start i = .next state ∧ rest' = later ∨
          (∃ l, machine.act start i = .jump l state ∧ rest' = target machine code l) ∨
          machine.act start i = .stop state ∧ rest' = []) := by
  cases rest with
  | nil => simp [step]
  | cons j later =>
    constructor
    · intro stepped
      simp only [step] at stepped
      split at stepped <;> cases stepped <;> simp_all
    · rintro ⟨_, same, acts⟩
      cases same
      simp only [step]
      rcases acts with ⟨act, rfl⟩ | ⟨l, act, rfl⟩ | ⟨act, rfl⟩ <;> simp [act]

variable {config : List ι × σ}

/-- Quiet instructions leave the state alone. -/
theorem Steps.state_eq_of_quiet (run : Steps machine code config trace final)
    (quiet : ∀ i ∈ trace, machine.quiet i) : config.2 = final.2 := by
  induction run with
  | refl => rfl
  | @cons config next final i trace step _ ih =>
    obtain ⟨here, others⟩ := forall_mem_cons.mp quiet
    rw [← ih others]
    obtain ⟨later, -, acts⟩ := step_eq_some.mp step
    rcases machine.quiet_act i here config.2 with act | ⟨l, act⟩ <;> simp [act] at acts
    · exact acts.1
    · exact acts.1

/-! ## Cutting a piece out -/

variable {before piece after : List ι}

/-- Positions of the two codes that stand for each other. -/
def Aligned (before piece after rest rest' : List ι) : Prop :=
  (∃ part, part <:+ before ∧ rest = part ++ (piece ++ after) ∧ rest' = part ++ after) ∨
    (rest = rest' ∧ rest <:+ after)

/-- A jump past a piece without its label lands in step with one without it. -/
theorem aligned_target {l} (unplaced : ∀ i ∈ piece, machine.label i ≠ some l) :
    Aligned before piece after (target machine (before ++ (piece ++ after)) l)
      (target machine (before ++ after) l) := by
  have skipped : piece.dropWhile (fun i => machine.label i ≠ some l) = [] := by
    rw [dropWhile_eq_nil_iff]
    intro i mem
    simpa using unplaced i mem
  simp only [target, dropWhile_append, skipped, isEmpty_nil, if_true]
  split
  · exact .inr ⟨rfl, dropWhile_suffix _⟩
  · exact .inl ⟨_, dropWhile_suffix _, rfl, rfl⟩

variable {rest' : List ι}

/-- Aligned configurations are at one instruction, at the piece or at the end. -/
theorem Aligned.cases (aligned : Aligned before piece after rest rest') :
    (rest = [] ∧ rest' = []) ∨ (rest = piece ++ after ∧ rest' = after) ∨
      ∃ i later later', i ∈ before ++ after ∧ rest = i :: later ∧ rest' = i :: later' ∧
        Aligned before piece after later later' := by
  rcases aligned with ⟨part, inside, rfl, rfl⟩ | ⟨rfl, inside⟩
  · cases part with
    | nil => exact .inr (.inl ⟨rfl, rfl⟩)
    | cons i part =>
      have mem : i ∈ before := inside.subset mem_cons_self
      have shorter : part <:+ before := (suffix_cons i part).trans inside
      exact .inr (.inr ⟨i, _, _, mem_append_left after mem, rfl, rfl,
        .inl ⟨part, shorter, rfl, rfl⟩⟩)
  cases rest with
  | nil => exact .inl ⟨rfl, rfl⟩
  | cons i later =>
    have mem : i ∈ after := inside.subset mem_cons_self
    have shorter : later <:+ after := (suffix_cons i later).trans inside
    exact .inr (.inr ⟨i, later, later, mem_append_right before mem, rfl, rfl, .inr ⟨rfl, shorter⟩⟩)

/-- Labels of the piece are not jumped to from outside. -/
def Closed (machine : Machine ι κ σ) (before piece after : List ι) : Prop :=
  ∀ i ∈ before ++ after, ∀ start l state, machine.act start i = .jump l state →
    ∀ j ∈ piece, machine.label j ≠ some l

theorem Aligned.step (closed : Closed machine before piece after) {later later'}
    (mem : i ∈ before ++ after) (aligned : Aligned before piece after later later') (start : σ) :
    ∃ rest rest' state, step machine (before ++ (piece ++ after)) (i :: later, start) =
      some (i, rest, state) ∧
      step machine (before ++ after) (i :: later', start) = some (i, rest', state) ∧
      Aligned before piece after rest rest' := by
  simp only [LabelledCode.step]
  cases act : machine.act start i with
  | next state => exact ⟨later, later', state, rfl, rfl, aligned⟩
  | jump l state => exact ⟨_, _, state, rfl, rfl, aligned_target (closed i mem start l state act)⟩
  | stop state => exact ⟨[], [], state, rfl, rfl, .inr ⟨rfl, nil_suffix⟩⟩

/-- The piece is never reached, or only passes control on. -/
def Passed (machine : Machine ι κ σ) (before piece after : List ι) : Prop :=
  Unreached machine (before ++ (piece ++ after)) (piece ++ after) ∨
    (∀ i ∈ piece, machine.quiet i = true) ∧
      ∀ state, Steps machine (before ++ (piece ++ after)) (piece ++ after,
        state) piece (after, state)

variable {origin : σ} {done : List ι}

/-- A run of the whole code is one of the shorter code. -/
theorem forward_of_aligned (nonempty : piece ≠ []) (closed : Closed machine before piece after)
    (passed : Passed machine before piece after) {state final stop}
    (reached : Steps machine (before ++ (piece ++ after)) (before ++ (piece ++ after),
      origin) done (rest, state)) (aligned : Aligned before piece after rest rest')
    (run : Steps machine (before ++ (piece ++ after)) (rest, state) trace (stop, final)) :
    ∃ trace' stop', Steps machine (before ++ after) (rest', state) trace' (stop', final) ∧
      Erased machine trace trace' ∧ (stop = [] → stop' = []) := by
  -- Induction on the length of the run, since the piece is passed in one go.
  induction size : trace.length using Nat.strongRecOn generalizing trace done rest rest' state with
  | ind n ih =>
    subst size
    rcases aligned.cases with ⟨rfl, rfl⟩ | ⟨rfl, rfl⟩ | ⟨i, later, later', mem, rfl, rfl, aligned'⟩
    · cases run with
      | refl => exact ⟨[], [], .refl _, .refl _, fun _ => rfl⟩
      | cons step _ => cases step
    · rcases passed with unreached | ⟨quiet, passes⟩
      · exact absurd reached (unreached origin done state)
      rcases (passes state).linear run with ⟨trace', rfl, onwards⟩ | ⟨left, split, more, onwards⟩
      · have shorter : trace'.length < (piece ++ trace').length := by
          have pos := length_pos_iff.mpr nonempty
          rw [length_append]
          omega
        obtain ⟨trace'', stop', run', erased, ends⟩ := ih _ shorter (reached.append (passes state))
          (.inr ⟨rfl, suffix_refl rest'⟩) onwards rfl
        exact ⟨trace'', stop', run', erased.quiet_append quiet, ends⟩
      -- The run ends inside the piece, which the shorter code does not have.
      have quietTrace : ∀ i ∈ trace, machine.quiet i := fun i mem =>
        quiet i (split ▸ mem_append_left left mem)
      have same : state = final := run.state_eq_of_quiet quietTrace
      subst same
      refine ⟨[], rest', .refl _, ?_, ?_⟩
      · have none : Erased machine [] [] := Erased.refl []
        simpa using none.quiet_append quietTrace
      · rintro rfl
        cases onwards with
        | refl => exact absurd rfl more
        | cons step _ => cases step
    cases run with
    | refl => exact ⟨[], _, .refl _, .refl _, nofun⟩
    | @cons _ next _ j trace step onwards =>
      obtain ⟨rest, rest', state', stepped', stepped'', aligned''⟩ :=
        Aligned.step closed mem aligned' state
      obtain ⟨rfl, rfl⟩ := Prod.mk.inj (Option.some.inj (stepped'.symm.trans step))
      obtain ⟨trace'', stop', run', erased, ends⟩ := ih trace.length (Nat.lt_succ_self _)
        (reached.append (.cons step (.refl _))) aligned'' onwards rfl
      exact ⟨i :: trace'', stop', .cons stepped'' run', erased.cons i, ends⟩

/-- The whole code can catch up over the piece with the shorter one. -/
theorem Aligned.cross (passed : Passed machine before piece after) {state}
    (reached : Steps machine (before ++ (piece ++ after)) (before ++ (piece ++ after),
      origin) done (rest, state)) (aligned : Aligned before piece after rest rest') :
    ∃ trace rest₁, Steps machine (before ++ (piece ++ after)) (rest, state) trace (rest₁, state) ∧
      (∀ i ∈ trace, machine.quiet i) ∧
      ((rest₁ = [] ∧ rest' = []) ∨ ∃ i later later', i ∈ before ++ after ∧
        rest₁ = i :: later ∧ rest' = i :: later' ∧ Aligned before piece after later later') := by
  rcases aligned.cases with ends | ⟨rfl, rfl⟩ | heads
  · exact ⟨[], rest, .refl _, nofun, .inl ends⟩
  · rcases passed with unreached | ⟨quiet, passes⟩
    · exact absurd reached (unreached origin done state)
    refine ⟨piece, rest', passes state, quiet, ?_⟩
    cases rest' with
    | nil => exact .inl ⟨rfl, rfl⟩
    | cons i later =>
      exact .inr ⟨i, later, later, by simp, rfl, rfl, .inr ⟨rfl, suffix_cons i later⟩⟩
  · exact ⟨[], rest, .refl _, nofun, .inr heads⟩

/-- A run of the shorter code is one of the whole code. -/
theorem backward_of_aligned (closed : Closed machine before piece after)
    (passed : Passed machine before piece after)
    {config' final'} (run : Steps machine (before ++ after) config' trace' final')
    (reached : Steps machine (before ++ (piece ++ after)) (before ++ (piece ++ after),
      origin) done (rest, config'.2)) (aligned : Aligned before piece after rest config'.1) :
    ∃ trace stop, Steps machine (before ++ (piece ++ after))
      (rest, config'.2) trace (stop, final'.2) ∧
      Erased machine trace trace' ∧ (final'.1 = [] → stop = []) := by
  -- Before each step of the shorter code the whole code catches up.
  induction run generalizing done rest with
  | refl config' =>
    obtain ⟨trace, rest₁, caught, quiet, heads⟩ := aligned.cross passed reached
    have none : Erased machine [] [] := Erased.refl []
    refine ⟨trace, rest₁, caught, by simpa using none.quiet_append quiet, ?_⟩
    rcases heads with ⟨rfl, -⟩ | ⟨i, later, later', -, -, more, -⟩
    · exact fun _ => rfl
    · exact fun ends => absurd (ends.symm.trans more) (cons_ne_nil i later').symm
  | @cons config' next' final' j trace' stepped onwards ih =>
    obtain ⟨trace, rest₁, caught, quiet, heads⟩ := aligned.cross passed reached
    obtain ⟨rest', state⟩ := config'
    rcases heads with ⟨-, rfl⟩ | ⟨i, later, later', mem, rfl, rfl, aligned'⟩
    · cases stepped
    obtain ⟨rest, rest', state', stepped', stepped'', aligned''⟩ :=
      Aligned.step closed mem aligned' state
    obtain ⟨rfl, rfl⟩ := Prod.mk.inj (Option.some.inj (stepped''.symm.trans stepped))
    obtain ⟨trace'', stop, run', erased, ends⟩ :=
      ih ((reached.append caught).append (.cons stepped' (.refl _))) aligned''
    exact ⟨trace ++ i :: trace'', stop, caught.append (.cons stepped' run'),
      (erased.cons i).quiet_append quiet, ends⟩

theorem sameRuns_of_cut (nonempty : piece ≠ []) (closed : Closed machine before piece after)
    (passed : Passed machine before piece after) :
    SameRuns machine (before ++ (piece ++ after)) (before ++ after) := by
  have whole : Aligned before piece after (before ++ (piece ++ after)) (before ++ after) :=
    .inl ⟨before, suffix_refl before, rfl, rfl⟩
  constructor
  · intro start trace rest state run
    exact forward_of_aligned nonempty closed passed (.refl _) whole run
  · intro start trace' rest' state run
    exact backward_of_aligned closed passed run (.refl _) whole

theorem SameRuns.refl (code : List ι) : SameRuns machine code code :=
  ⟨fun _ trace rest _ run => ⟨trace, rest, run, .refl _, id⟩, fun _ trace rest _ run =>
    ⟨trace, rest, run, .refl _, id⟩⟩

theorem SameRuns.trans {third} (once : SameRuns machine first second)
    (twice : SameRuns machine second third) : SameRuns machine first third := by
  constructor
  · intro start trace rest state run
    obtain ⟨trace', rest', run', erased, ends⟩ := once.forward start trace rest state run
    obtain ⟨trace'', rest'', run'', erased', ends'⟩ := twice.forward start trace' rest' state run'
    exact ⟨trace'', rest'', run'', erased.trans erased', ends' ∘ ends⟩
  · intro start trace rest state run
    obtain ⟨trace', rest', run', erased, ends⟩ := twice.backward start trace rest state run
    obtain ⟨trace'', rest'', run'', erased', ends'⟩ := once.backward start trace' rest' state run'
    exact ⟨trace'', rest'', run'', erased'.trans erased, ends' ∘ ends⟩

/-! ## Code that is never reached -/

/-- What is left to run is always a suffix of the code. -/
theorem Steps.suffix (run : Steps machine code config trace final)
    (inside : config.1 <:+ code) : final.1 <:+ code := by
  induction run with
  | refl => exact inside
  | @cons config next final i trace step _ ih =>
    apply ih
    obtain ⟨later, here, acts⟩ := step_eq_some.mp step
    rcases acts with ⟨-, there⟩ | ⟨l, -, there⟩ | ⟨-, there⟩
    · rw [there]
      exact (suffix_cons i later).trans (here ▸ inside)
    · rw [there]
      exact dropWhile_suffix _
    · rw [there]
      exact nil_suffix

theorem label_of_target {l} (found : target machine code l = i :: rest) :
    machine.label i = some l := by
  have stopped := head?_dropWhile_not (fun i => machine.label i ≠ some l) code
  rw [target] at found
  rw [found] at stopped
  simpa using stopped

theorem head_mem_of_suffix {front} (inside : i :: rest <:+ front ++ after)
    (long : after.length < (i :: rest).length) : i ∈ front := by
  obtain ⟨skipped, split⟩ := inside
  have lengths := congrArg List.length split
  rw [length_append, length_append] at lengths
  have dropped : i :: rest = front.drop skipped.length ++ after := by
    rw [← drop_append_of_le_length (by omega), ← split, drop_left]
  cases left : front.drop skipped.length with
  | nil =>
    rw [left, nil_append] at dropped
    rw [dropped] at long
    exact absurd long (lt_irrefl _)
  | cons j others =>
    rw [left, List.cons_append] at dropped
    obtain ⟨rfl, -⟩ := List.cons.inj dropped
    exact mem_of_mem_drop (left ▸ mem_cons_self)

/-- Nothing falls into what follows a barrier, up to the next label. -/
theorem unreached_of_barrier {between barrier}
    (never : ∀ start state, machine.act start barrier ≠ .next state)
    (unlabelled : ∀ j ∈ between ++ [i], machine.label j = none) :
    Unreached machine (before ++ barrier :: (between ++ i :: after)) (i :: after) := by
  -- Positions behind the barrier are told by their length; the invariant is to be at none of them.
  have inv : ∀ {config final : List ι × σ} {trace : List ι},
      Steps machine (before ++ barrier :: (between ++ i :: after)) config trace final →
      config.1 <:+ before ++ barrier :: (between ++ i :: after) →
      ¬ (after.length < config.1.length ∧ config.1.length ≤ (between ++ i :: after).length) →
      ¬ (after.length < final.1.length ∧ final.1.length ≤ (between ++ i :: after).length) := by
    intro config final trace run
    induction run with
    | refl => exact fun _ out => out
    | @cons config next final j trace step onwards ih =>
      intro inside out
      have inside' : next.1 <:+ before ++ barrier :: (between ++ i :: after) :=
        Steps.suffix (.cons step (.refl next)) inside
      apply ih inside'
      rintro ⟨long, short⟩
      obtain ⟨later, here, acts⟩ := step_eq_some.mp step
      rcases acts with ⟨act, there⟩ | ⟨l, -, there⟩ | ⟨-, there⟩
      · -- Only the barrier stands directly before these positions, and it does not go on.
        rw [there] at long short
        rw [here] at inside out
        have wall : barrier :: (between ++ i :: after) <:+ before ++
          barrier :: (between ++ i :: after) := suffix_append _ _
        have size : (j :: later).length = (barrier :: (between ++ i :: after)).length := by
          simp only [length_cons] at out ⊢
          omega
        have same := (suffix_of_suffix_length_le inside wall size.le).eq_of_length size
        obtain ⟨rfl, -⟩ := List.cons.inj same
        exact never _ _ act
      · -- A jump arrives at a label, and there is none.
        cases rest : next.1 with
        | nil => simp [rest] at long
        | cons k others =>
          have placed := label_of_target (there.symm.trans rest)
          have wall : between ++ i :: after <:+ before ++ barrier :: (between ++ i :: after) :=
            (suffix_cons _ _).trans (suffix_append _ _)
          have within := suffix_of_suffix_length_le inside' wall short
          rw [rest, append_cons] at within
          rw [rest] at long
          rw [unlabelled k (head_mem_of_suffix within long)] at placed
          cases placed
      · rw [there] at long
        exact absurd long (Nat.not_lt_zero _)
  intro start trace state run
  have out := inv run (suffix_refl _) (by simp only [length_append, length_cons]; omega)
  apply out
  simp only [length_append, length_cons]
  omega

end LabelledCode
