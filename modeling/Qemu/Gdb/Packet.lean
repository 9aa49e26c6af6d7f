import Mathlib.Algebra.GroupWithZero.Nat
import Mathlib.Data.List.Basic

/-! Packets from the debugger, byte by byte: `gdb_read_byte` of `gdbstub.c`. -/

namespace Qemu.Gdb

open List

def maxPacketLength : Nat := 4096

def hash : UInt8 := 35
def dollar : UInt8 := 36
def star : UInt8 := 42
def plus : UInt8 := 43
def minus : UInt8 := 45
def brace : UInt8 := 125

inductive RSState where
  | inactive
  | idle
  | getline
  | getlineEsc
  | getlineRle
  | chksum1
  | chksum2

/-- What `gdb_read_byte` reads and changes. The part of `line_buf` before `line_buf_index` is a
list. -/
structure GDBState where
  state : RSState
  lineBuf : List UInt8
  lineSum : Nat
  lineCsum : Nat
  lastPacket : List UInt8
  running : Bool

inductive Event where
  | putBuffer (data : List UInt8)
  | vmStop
  | handlePacket (lineBuf : List UInt8)
  | abort

/-- `isxdigit` and `fromhex`. -/
def fromhex (v : UInt8) : Option Nat :=
  if 48 ≤ v ∧ v ≤ 57 then some (v.toNat - 48)
  else if 65 ≤ v ∧ v ≤ 70 then some (v.toNat - 65 + 10)
  else if 97 ≤ v ∧ v ≤ 102 then some (v.toNat - 97 + 10)
  else none

variable (s : GDBState) (ch : UInt8)

def GDBState.goto (state : RSState) : GDBState × List Event := ({ s with state }, [])

/-- Go to a state and add the byte to the sum, with the bytes it stands for. -/
def GDBState.add (state : RSState) (bytes : List UInt8) : GDBState × List Event :=
  ({ s with state, lineBuf := s.lineBuf ++ bytes, lineSum := s.lineSum + ch.toNat }, [])

/-- The `switch` of `gdb_read_byte`. -/
def parseByte : GDBState × List Event :=
  match s.state with
  | .inactive => (s, [.abort])
  | .idle => if ch = dollar then ({ s with state := .getline, lineBuf := [], lineSum := 0 }, [])
      else (s, [])
  | .getline =>
    if ch = brace then s.add ch .getlineEsc []
    else if ch = star then s.add ch .getlineRle []
    else if ch = hash then s.goto .chksum1
    else if maxPacketLength - 1 ≤ s.lineBuf.length then s.goto .idle
    else s.add ch .getline [ch]
  | .getlineEsc =>
    if ch = hash then s.goto .chksum1
    else if maxPacketLength - 1 ≤ s.lineBuf.length then s.goto .idle
    else s.add ch .getline [ch ^^^ 0x20]
  | .getlineRle =>
    if ch < 32 ∨ ch = hash ∨ ch = dollar ∨ 126 < ch then s.goto .getline
    else if maxPacketLength - 1 ≤ s.lineBuf.length + (ch.toNat - 32 + 3) then s.goto .idle
    else match s.lineBuf.getLast? with
      | none => s.goto .getline
      | some last => s.add ch .getline (replicate (ch.toNat - 32 + 3) last)
  | .chksum1 =>
    match fromhex ch with
    | none => s.goto .getline
    | some digit => ({ s with state := .chksum2, lineCsum := digit <<< 4 }, [])
  | .chksum2 =>
    match fromhex ch with
    | none => s.goto .getline
    | some digit =>
      ({ s with state := .idle, lineCsum := s.lineCsum ||| digit },
        if s.lineCsum ||| digit ≠ s.lineSum &&& 0xff then [.putBuffer [minus]]
        else [.putBuffer [plus], .handlePacket (s.lineBuf ++ [0])])

/-- `gdb_handle_packet` returns `RS_IDLE`. -/
def gdbReadByte : GDBState × List Event :=
  let acked := if ch = plus ∨ ch = dollar then { s with lastPacket := [] } else s
  if s.lastPacket ≠ [] ∧ ch ≠ dollar
    then (acked, if ch = minus then [.putBuffer s.lastPacket] else [])
  else if s.running then ({ acked with running := false }, [.vmStop])
  else parseByte acked ch

def gdbReadBytes : GDBState → List UInt8 → GDBState × List Event
  | s, [] => (s, [])
  | s, ch :: rest =>
    let (s, events) := gdbReadByte s ch
    let (s, later) := gdbReadBytes s rest
    (s, events ++ later)

/-- The states of the stub: bytes come in, and meanwhile packets are sent and the machine runs or
stops. -/
inductive Reachable : GDBState → Prop where
  | start (lastPacket : List UInt8) (running : Bool) :
      Reachable ⟨.idle, [], 0, 0, lastPacket, running⟩
  | byte {t : GDBState} (c : UInt8) : Reachable t → Reachable (gdbReadByte t c).1
  | meanwhile {t : GDBState} (lastPacket : List UInt8) (running : Bool) : Reachable t →
    Reachable { t with lastPacket, running }

/-- The encodings of a payload, and whether they end with a run length. -/
inductive Encodes : List UInt8 → List UInt8 → Bool → Prop where
  | nil : Encodes [] [] false
  | plain {code line run c} : Encodes code line run → c ∉ [hash, dollar, brace, star] →
    Encodes (code ++ [c]) (line ++ [c]) false
  | escape {code line run c} : Encodes code line run → c ≠ hash →
    Encodes (code ++ [brace, c]) (line ++ [c ^^^ 0x20]) false
  | times {code line last run c} : Encodes code (line ++ [last]) run → 32 ≤ c ∧
      c ≤ 126 ∧ c ∉ [hash, dollar] →
    Encodes (code ++ [star, c]) (line ++ [last] ++ replicate (c.toNat - 32 + 3) last) true

/-- Two hexadecimal digits are the checksum of an encoding. -/
def Checksum (code : List UInt8) (high low : UInt8) : Prop :=
  ∃ h l, fromhex high = some h ∧ fromhex low = some l ∧
    h <<< 4 ||| l = (code.map UInt8.toNat).sum &&& 0xff

/-- No packet awaits an answer, and the machine is stopped. -/
def GDBState.Ready : Prop := s.lastPacket = [] ∧ s.running = false

/-- In a packet, with a line and the sum of the bytes received. -/
def GDBState.at (line code : List UInt8) : GDBState :=
  { s with state := .getline, lineBuf := line, lineSum := (code.map UInt8.toNat).sum }

variable {s ch} {code line : List UInt8} {run : Bool} {high low : UInt8}

theorem gdbReadByte_eq (none : s.lastPacket = []) (stopped : s.running = false) :
    gdbReadByte s ch = parseByte s ch := by
  obtain ⟨state, lineBuf, lineSum, lineCsum, lastPacket, running⟩ := s
  cases none
  cases stopped
  simp [gdbReadByte]

theorem gdbReadBytes_append (first rest : List UInt8) : gdbReadBytes s (first ++ rest) =
    ((gdbReadBytes (gdbReadBytes s first).1 rest).1,
      (gdbReadBytes s first).2 ++ (gdbReadBytes (gdbReadBytes s first).1 rest).2) := by
  induction first generalizing s with
  | nil => rfl
  | cons ch first ih => simp [gdbReadBytes, ih]

section

variable (ready : s.Ready)

include ready

/-- A run length: the line grows, or is dropped if that would fill the buffer. -/
theorem read_times {last c : UInt8} (allowed : 32 ≤ c ∧ c ≤ 126 ∧ c ∉ [hash, dollar]) :
    gdbReadBytes (s.at (line ++ [last]) code) [star, c] =
      if maxPacketLength - 1 ≤ (line ++ [last]).length + (c.toNat - 32 + 3) then
        ({ s.at (line ++ [last]) (code ++ [star]) with state := .idle }, [])
      else (s.at (line ++ [last] ++ replicate (c.toNat - 32 + 3) last) (code ++ [star, c]), []) :=
          by
  have other : star ≠ brace := by decide
  have printable : ¬ (c < 32 ∨ c = hash ∨ c = dollar ∨ 126 < c) := by simp_all
  simp only [gdbReadBytes, gdbReadByte_eq, ready.1, ready.2, parseByte, GDBState.at,
    GDBState.add, GDBState.goto, other, printable, if_false, if_true, append_nil, getLast?_concat]
  split <;> simp [Nat.add_assoc]

/-- An encoding is read as its payload, unless a run ends at the end of the buffer. -/
theorem Encodes.read (encodes : Encodes code line run) (fits : line.length < maxPacketLength)
    (early : run → line.length ≠ maxPacketLength - 1) :
    gdbReadBytes (s.at [] []) code = (s.at line code, []) := by
  -- What comes before the last item leaves room in the buffer, whether it ends with a run or not.
  induction encodes with
  | nil => rfl
  | @plain code line _ c _ allowed ih =>
    rw [length_append, length_singleton] at fits
    have room : ¬ maxPacketLength - 1 ≤ line.length := by omega
    rw [gdbReadBytes_append, ih (by omega) (fun _ => by omega)]
    simp only [mem_cons, not_or] at allowed
    simp [gdbReadBytes, gdbReadByte_eq, ready.1, ready.2, parseByte, allowed, room,
      GDBState.add, GDBState.at]
  | @escape code line _ c _ allowed ih =>
    rw [length_append, length_singleton] at fits
    have room : ¬ maxPacketLength - 1 ≤ line.length := by omega
    rw [gdbReadBytes_append, ih (by omega) (fun _ => by omega)]
    simp [gdbReadBytes, gdbReadByte_eq, ready.1, ready.2, parseByte, allowed, room,
      GDBState.add, GDBState.at, Nat.add_assoc]
  | times _ allowed ih =>
    rw [length_append, length_replicate] at fits early
    have := early rfl
    rw [gdbReadBytes_append, ih (by omega) (fun _ => by omega),
      read_times ready allowed, if_neg (by omega)]
    rfl

theorem Checksum.read (checksum : Checksum code high low) :
    (gdbReadBytes (s.at line code) [hash, high, low]).2 =
    [.putBuffer [plus], .handlePacket (line ++ [0])] := by
  obtain ⟨h, l, isHigh, isLow, sum⟩ := checksum
  have other : hash ≠ brace ∧ hash ≠ star := by decide
  simp [gdbReadBytes, gdbReadByte_eq, ready.1, ready.2, parseByte, GDBState.at, GDBState.goto,
    other, isHigh, isLow, sum]

/-- A run that ends at the end of the buffer is dropped with its packet. -/
theorem Encodes.overrun (encodes : Encodes code line true)
    (full : line.length = maxPacketLength - 1) (checksum : Checksum code high low) :
    (gdbReadBytes (s.at [] []) (code ++ [hash, high, low])).2 = [] := by
  have plain {ch digit} (hex : fromhex ch = some digit) : ch ≠ dollar := by
    rintro rfl
    cases hex
  have other : hash ≠ dollar := by decide
  obtain ⟨h, l, isHigh, isLow, -⟩ := checksum
  cases encodes with
  | times encodes allowed =>
    rw [length_append, length_replicate] at full
    rw [append_assoc, gdbReadBytes_append, encodes.read ready (by omega) (fun _ => by omega),
      gdbReadBytes_append, read_times ready allowed, if_pos (Nat.le_of_eq full.symm)]
    simp [gdbReadBytes, gdbReadByte_eq, ready.1, ready.2, parseByte, GDBState.at, other,
      plain isHigh, plain isLow]

end

/-- No byte takes the line buffer past its last usable place. -/
theorem gdbReadByte_length (inside : s.lineBuf.length ≤ maxPacketLength - 1) :
    (gdbReadByte s ch).1.lineBuf.length ≤ maxPacketLength - 1 := by
  have parsed (s' : GDBState) (same : s'.lineBuf = s.lineBuf) :
      (parseByte s' ch).1.lineBuf.length ≤ maxPacketLength - 1 := by
    -- Each of the three branches that append bytes has checked that they fit.
    unfold parseByte
    rw [← same] at inside
    split <;> (repeat' split) <;> simp [GDBState.add, GDBState.goto] <;> omega
  unfold gdbReadByte
  dsimp only
  split_ifs <;> first | exact inside | exact parsed _ rfl

/-- A packet is handled exactly if its payload does not end with a run at the end of the buffer; and
the index into the buffer stays inside whatever is received. -/
theorem gdbReadBytes_handles_iff (s : GDBState) (idle : s.state = .idle)
    (ready : s.Ready) (code line : List UInt8)
    (run : Bool) (encodes : Encodes code line run) (fits : line.length ≤ maxPacketLength - 1)
    (high low : UInt8) (checksum : Checksum code high low) :
    ((gdbReadBytes s (dollar :: (code ++ [hash, high, low]))).2 =
      [.putBuffer [plus], .handlePacket (line ++ [0])] ↔
      ¬ (run ∧ line.length = maxPacketLength - 1)) ∧
    ∀ s', Reachable s' → s'.lineBuf.length ≤ maxPacketLength - 1 := by
  constructor
  · have opened : gdbReadByte s dollar = (s.at [] [], []) := by
      simp [gdbReadByte_eq, ready.1, ready.2, parseByte, idle, GDBState.at]
    simp only [gdbReadBytes, opened, nil_append]
    by_cases atEnd : run ∧ line.length = maxPacketLength - 1
    · obtain ⟨rfl, full⟩ := atEnd
      simp [encodes.overrun ready full checksum, full]
    · have less : line.length < maxPacketLength := Nat.lt_of_le_pred (by decide) fits
      rw [gdbReadBytes_append, encodes.read ready less fun isRun full => atEnd ⟨isRun, full⟩]
      simp [checksum.read ready, atEnd]
  · intro s' reachable
    induction reachable with
    | start => exact Nat.zero_le _
    | byte ch _ ih => exact gdbReadByte_length ih
    | meanwhile _ _ _ ih => exact ih

theorem encodes_replicate (n : Nat) : Encodes (replicate n 120) (replicate n 120) false := by
  induction n with
  | zero => exact .nil
  | succ n ih =>
    rw [replicate_succ']
    exact ih.plain (by decide)

/-- A payload of 4095 equal bytes, the last twenty as a run: the packet is dropped. -/
theorem gdbReadBytes_drops : ∃ code line run high low, Encodes code line run ∧
    line.length = maxPacketLength - 1 ∧ Checksum code high low ∧
    (gdbReadBytes ⟨.idle, [], 0, 0, [], false⟩ (dollar :: (code ++ [hash, high, low]))).2 = [] := by
  obtain ⟨n, full, sum⟩ : ∃ n, n + 21 = maxPacketLength - 1 ∧ 131 = (n * 120 + 211) &&& 0xff :=
    ⟨4074, rfl, rfl⟩
  have encodes := encodes_replicate (n + 1)
  rw [replicate_succ'] at encodes
  have run := encodes.times (c := 49) (by decide)
  have length : (replicate n 120 ++ [120] ++ replicate 20 (120 : UInt8)).length =
    maxPacketLength - 1 := by simpa
  have digits : Checksum (replicate n 120 ++ [120] ++ [star, 49]) 56 51 :=
    ⟨8, 3, rfl, rfl, by simpa [star, Nat.add_assoc] using sum⟩
  exact ⟨_, _, _, 56, 51, run, length, digits, run.overrun ⟨rfl, rfl⟩ length digits⟩

/-- A packet with an escaped `#` that is repeated five times. -/
theorem gdbReadBytes_handles_escaped_run :
    (gdbReadBytes ⟨.idle, [], 0, 0, [], false⟩
      (dollar :: ([68] ++ [brace, 3] ++ [star, 34] ++ [hash, 49, 48]))).2 =
    [.putBuffer [plus], .handlePacket ([68] ++ [hash] ++ replicate 5 hash ++ [0])] := by
  have encodes : Encodes ([68] ++ [brace, 3] ++ [star, 34])
    ([68] ++ [hash] ++ replicate 5 hash) true :=
    ((Encodes.nil.plain (by decide)).escape (by decide)).times (by decide)
  exact (gdbReadBytes_handles_iff _ rfl ⟨rfl, rfl⟩ _ _ true encodes (by decide) 49 48
    ⟨1, 0, rfl, rfl, by decide⟩).1.mpr (by decide)

end Qemu.Gdb
