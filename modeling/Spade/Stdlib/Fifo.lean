import Spade.Lib.Histories
import Spade.Stdlib.Cdc

/-!
# The cross-domain fifo of the standard library

The entities `fifo_write`, `fifo_read` and `dp_bram` of `mem.spade`, joined as `fifo` joins them,
and driven by two clocks whose edges come in any order. The registers are grouped by their clock:
the register of `sync_uint_counter` that holds the Gray code belongs to the clock of its source,
its `sync2` to the other one.

* **Pointers** (`Fifo.Tracks.step`): the copies of the pointers are values of two counters, in an
  order that holds at all times.
* **Lossless** (`fifo_lossless`): what is popped is a prefix of what was accepted.
-/

namespace Spade.Stdlib

variable {W : ℕ} {D : Type}

/-! ### The write domain -/

/-- The registers and the memory with the write clock. -/
structure Fifo.WriteSide (W : ℕ) (D : Type) where
  writePtr : BitVec W
  writeGray : BitVec W
  readSync : Sync2 (BitVec W)
  mem : BitVec W → D

namespace Fifo.WriteSide

def readPtr (s : WriteSide W D) : BitVec W := grayToBin s.readSync.output

/-- `trunc(write_ptr + 1) == read_ptr`. -/
def full (s : WriteSide W D) : Bool := BitVec.ofNat W (s.writePtr.toNat + 1) == s.readPtr

def nextWritePtr (s : WriteSide W D) (write : Option D) : BitVec W :=
  match write, s.full with
  | some _, false => BitVec.ofNat W (s.writePtr.toNat + 1)
  | _, _ => s.writePtr

/-- What goes to the write port of the memory. -/
def memWrite (s : WriteSide W D) (write : Option D) : Option D :=
  match write, s.full with
  | some v, false => some v
  | _, _ => none

/-- The memory after a write through the port. -/
def nextMem (s : WriteSide W D) (write : Option D) : BitVec W → D :=
  match s.memWrite write with
  | some w => Function.update s.mem s.writePtr w
  | none => s.mem

/-- An edge of the write clock at which the code of the read pointer was sampled as `readGray`. -/
def edge (s : WriteSide W D) (rst : Bool) (write : Option D) (readGray : BitVec W) :
    WriteSide W D where
  writePtr := if rst then 0 else s.nextWritePtr write
  writeGray := binToGray s.writePtr
  readSync := s.readSync.edge readGray
  mem := s.nextMem write

end Fifo.WriteSide

/-! ### The read domain -/

/-- The registers with the read clock. -/
structure Fifo.ReadSide (W : ℕ) (D : Type) where
  readPtr : BitVec W
  readGray : BitVec W
  writeSync : Sync2 (BitVec W)
  readResult : D

namespace Fifo.ReadSide

def writePtr (s : ReadSide W D) : BitVec W := grayToBin s.writeSync.output

def empty (s : ReadSide W D) : Bool := s.writePtr == s.readPtr

def readPtrNext (s : ReadSide W D) (ack : Bool) : BitVec W :=
  match ack, s.empty with
  | true, true => s.readPtr
  | true, false => BitVec.ofNat W (s.readPtr.toNat + 1)
  | false, _ => s.readPtr

def read (s : ReadSide W D) : Option D := if !s.empty then some s.readResult else none

/-- An edge of the read clock at which the code of the write pointer was sampled as `writeGray` and
the memory at the next read pointer as `data`. -/
def edge (s : ReadSide W D) (rst ack : Bool) (writeGray : BitVec W) (data : D) :
    ReadSide W D where
  readPtr := if rst then 0 else s.readPtrNext ack
  readGray := binToGray s.readPtr
  writeSync := s.writeSync.edge writeGray
  readResult := data

end Fifo.ReadSide

/-! ### Both domains -/

open Fifo

structure Fifo (W : ℕ) (D : Type) where
  write : WriteSide W D
  read : ReadSide W D

namespace Fifo

/-- The clocks that have an edge, and the inputs at that moment. -/
structure Event (D : Type) where
  writeClk : Bool
  readClk : Bool
  writeRst : Bool
  readRst : Bool
  write : Option D
  ack : Bool

/-- The edges of an event. Every bit of a Gray code that changes at the moment at which it is
sampled is read as it was or as it will be, and an address that is written at the moment at which it
is read yields anything. -/
def Step (s : Fifo W D) (e : Event D) (s' : Fifo W D) : Prop :=
  ∃ readGray writeGray data,
    s'.write = (if e.writeClk then s.write.edge e.writeRst e.write readGray else s.write) ∧
    s'.read = (if e.readClk then s.read.edge e.readRst e.ack writeGray data else s.read) ∧
    GrayCode.SampledBits s.read.readGray s'.read.readGray readGray ∧
    GrayCode.SampledBits s.write.writeGray s'.write.writeGray writeGray ∧
    ((e.writeClk = true → s.write.memWrite e.write ≠ none →
        s.write.writePtr ≠ s.read.readPtrNext e.ack) →
      data = s.write.mem (s.read.readPtrNext e.ack))

/-- The registers with a reset take their value as soon as the reset rises. -/
def assertReset (s : Fifo W D) : Fifo W D where
  write := { s.write with writePtr := 0 }
  read := { s.read with readPtr := 0 }

/-- Both domains have been held in reset until the synchronizers show the pointers. -/
def JointReset (s : Fifo W D) : Prop :=
  ∃ s₀ h, Reaches Step (assertReset s₀) h s ∧
    (∀ t ∈ h, t.event.writeRst = true ∧ t.event.readRst = true) ∧
    s.write.writeGray = binToGray s.write.writePtr ∧
    s.read.writeSync.Shows s.write.writeGray ∧
    s.read.readGray = binToGray s.read.readPtr ∧
    s.write.readSync.Shows s.read.readGray

/-- The value that an edge of the write clock accepts. -/
def accepted (t : Transition (Fifo W D) (Event D)) : Option D :=
  if t.event.writeClk && !t.before.write.full then t.event.write else none

/-- The value that is shown when an edge of the read clock pops it. -/
def popped (t : Transition (Fifo W D) (Event D)) : Option D :=
  if t.event.readClk && t.event.ack then t.before.read.read else none

/-- Neither of the resets is active. -/
def Released (t : Transition (Fifo W D) (Event D)) : Prop :=
  t.event.writeRst = false ∧ t.event.readRst = false

/-! ### Counters -/

/-- The Gray code of a counter. -/
def code (W n : ℕ) : BitVec W := binToGray (BitVec.ofNat W n)

theorem grayToBin_code (n : ℕ) : grayToBin (code W n) = BitVec.ofNat W n :=
  GrayCode.decode_encode (BitVec.ofNat W n)

/-- Numbers that are less than a full turn apart. -/
theorem ofNat_eq_iff {a b : ℕ} (hle : a ≤ b) (hlt : b < a + 2 ^ W) :
    BitVec.ofNat W a = BitVec.ofNat W b ↔ a = b := by
  constructor
  · intro heq
    have hmod : b % 2 ^ W = a % 2 ^ W := by
      simpa [BitVec.toNat_ofNat] using congrArg BitVec.toNat heq.symm
    have hzero := Nat.sub_mod_eq_zero_of_mod_eq hmod
    rw [Nat.mod_eq_of_lt (by omega)] at hzero
    omega
  · intro heq
    rw [heq]

/-- A counter sampled through its code while it moves on by at most one. -/
theorem sampled_code {a b : ℕ} {sample : BitVec W} (hle : a ≤ b) (hnext : b ≤ a + 1)
    (h : GrayCode.SampledBits (code W a) (code W b) sample) :
    ∃ x, a ≤ x ∧ x ≤ b ∧ sample = code W x := by
  rcases Nat.eq_or_lt_of_le hle with heq | hlt
  · rw [← heq] at h
    exact ⟨a, Nat.le_refl a, hle, GrayCode.sampled_self h⟩
  · rw [show b = a + 1 by omega] at h
    rcases GrayCode.sampled_succ h with hold | hnew
    · exact ⟨a, Nat.le_refl a, hle, hold⟩
    · exact ⟨a + 1, Nat.le_succ a, hlt, hnew⟩

/-- How many values have been accepted and popped, and which of these numbers are still on their
way to the other domain. -/
structure Counters where
  readSync2 : ℕ
  readSync1 : ℕ
  readGray : ℕ
  readPtr : ℕ
  writeSync2 : ℕ
  writeSync1 : ℕ
  writeGray : ℕ
  writePtr : ℕ

/-- A copy is never ahead of its source, the code of a pointer is at most one step behind, and the
write pointer is less than a full turn ahead of the oldest copy of the read pointer. -/
structure Counters.Ordered (W : ℕ) (c : Counters) : Prop where
  read21 : c.readSync2 ≤ c.readSync1
  read1 : c.readSync1 ≤ c.readGray
  readGray : c.readGray ≤ c.readPtr
  readGray' : c.readPtr ≤ c.readGray + 1
  pointers : c.readPtr ≤ c.writeSync2
  write21 : c.writeSync2 ≤ c.writeSync1
  write1 : c.writeSync1 ≤ c.writeGray
  writeGray : c.writeGray ≤ c.writePtr
  writeGray' : c.writePtr ≤ c.writeGray + 1
  turn : c.writePtr < c.readSync2 + 2 ^ W

/-- The registers hold the counters, and the output of the memory shows the next value unless the
fifo is empty. -/
structure Tracks (s : Fifo W D) (c : Counters) : Prop where
  ordered : c.Ordered W
  readSync2 : s.write.readSync.sync2 = code W c.readSync2
  readSync1 : s.write.readSync.sync1 = code W c.readSync1
  readGray : s.read.readGray = code W c.readGray
  readPtr : s.read.readPtr = BitVec.ofNat W c.readPtr
  writeSync2 : s.read.writeSync.sync2 = code W c.writeSync2
  writeSync1 : s.read.writeSync.sync1 = code W c.writeSync1
  writeGray : s.write.writeGray = code W c.writeGray
  writePtr : s.write.writePtr = BitVec.ofNat W c.writePtr
  shown : c.readPtr < c.writeSync2 →
    s.read.readResult = s.write.mem (BitVec.ofNat W c.readPtr)

variable {s s' : Fifo W D} {e : Event D} {c : Counters}

theorem succ_ptr (n : ℕ) :
    BitVec.ofNat W ((BitVec.ofNat W n).toNat + 1) = BitVec.ofNat W (n + 1) := by
  apply BitVec.eq_of_toNat_eq
  simp

theorem Tracks.full_iff (h : s.Tracks c) :
    s.write.full = true ↔ c.writePtr + 1 = c.readSync2 + 2 ^ W := by
  have hturn : BitVec.ofNat W (c.readSync2 + 2 ^ W) = BitVec.ofNat W c.readSync2 := by
    apply BitVec.eq_of_toNat_eq
    simp
  obtain ⟨hr21, hr1, hrg, -, hrw, hw21, hw1, hwg, -, hlt⟩ := h.ordered
  rw [WriteSide.full, h.writePtr, succ_ptr, WriteSide.readPtr, Sync2.output, h.readSync2,
    grayToBin_code, beq_iff_eq, ← hturn]
  exact ofNat_eq_iff (by omega) (by omega)

theorem Tracks.empty_iff (h : s.Tracks c) :
    s.read.empty = true ↔ c.readPtr = c.writeSync2 := by
  obtain ⟨hr21, hr1, hrg, -, hrw, hw21, hw1, hwg, -, hlt⟩ := h.ordered
  rw [ReadSide.empty, ReadSide.writePtr, Sync2.output, h.writeSync2, grayToBin_code, h.readPtr,
    beq_iff_eq, eq_comm]
  exact ofNat_eq_iff (by omega) (by omega)

/-- How many values the edges of an event accept. -/
def pushes (t : Transition (Fifo W D) (Event D)) : ℕ := (accepted t).toList.length

/-- How many values the edges of an event pop. -/
def pops (t : Transition (Fifo W D) (Event D)) : ℕ := (popped t).toList.length

theorem Tracks.writePtr_step (h : s.Tracks c) (hstep : Step s e s') (hrst : e.writeRst = false) :
    s'.write.writePtr = BitVec.ofNat W (c.writePtr + pushes ⟨s, e, s'⟩) ∧
      c.writePtr + pushes ⟨s, e, s'⟩ < c.readSync2 + 2 ^ W ∧
      c.writePtr + pushes ⟨s, e, s'⟩ ≤ c.writePtr + 1 := by
  obtain ⟨readGray, writeGray, data, hwrite, -⟩ := hstep
  have hturn := h.ordered.turn
  by_cases hclk : e.writeClk = true
  · rw [if_pos hclk, hrst] at hwrite
    rcases hfull : s.write.full with _ | _
    · have hroom : c.writePtr + 1 ≠ c.readSync2 + 2 ^ W := by
        intro heq
        rw [h.full_iff.mpr heq] at hfull
        exact Bool.true_eq_false_eq_False hfull
      rcases hin : e.write with _ | v
      · simp [hwrite, WriteSide.edge, WriteSide.nextWritePtr, pushes, accepted, hclk, hfull, hin,
          h.writePtr, hturn]
      · simp only [hwrite, WriteSide.edge, WriteSide.nextWritePtr, pushes, accepted, hclk, hfull,
          hin, h.writePtr, succ_ptr]
        exact ⟨rfl, by change c.writePtr + 1 < _; omega, Nat.le_refl _⟩
    · rcases hin : e.write with _ | v <;>
        simp [hwrite, WriteSide.edge, WriteSide.nextWritePtr, pushes, accepted, hfull, hin,
          h.writePtr, hturn]
  · rw [if_neg hclk] at hwrite
    simp [hwrite, pushes, accepted, hclk, h.writePtr, hturn]

theorem Tracks.readPtr_step (h : s.Tracks c) (hstep : Step s e s') (hrst : e.readRst = false) :
    s'.read.readPtr = BitVec.ofNat W (c.readPtr + pops ⟨s, e, s'⟩) ∧
      c.readPtr + pops ⟨s, e, s'⟩ ≤ c.writeSync2 ∧
      c.readPtr + pops ⟨s, e, s'⟩ ≤ c.readPtr + 1 := by
  obtain ⟨readGray, writeGray, data, -, hread, -⟩ := hstep
  have hpointers := h.ordered.pointers
  by_cases hclk : e.readClk = true
  · rw [if_pos hclk, hrst] at hread
    rcases hempty : s.read.empty with _ | _
    · have hsome : c.readPtr ≠ c.writeSync2 := by
        intro heq
        rw [h.empty_iff.mpr heq] at hempty
        exact Bool.true_eq_false_eq_False hempty
      rcases hack : e.ack with _ | _
      · simp [hread, ReadSide.edge, ReadSide.readPtrNext, pops, popped, hack, h.readPtr, hpointers]
      · simp only [hread, ReadSide.edge, ReadSide.readPtrNext, pops, popped, ReadSide.read, hclk,
          hempty, hack, h.readPtr, succ_ptr]
        exact ⟨rfl, by change c.readPtr + 1 ≤ _; omega, Nat.le_refl _⟩
    · rcases hack : e.ack with _ | _ <;>
        simp [hread, ReadSide.edge, ReadSide.readPtrNext, pops, popped, ReadSide.read, hempty, hack,
          h.readPtr, hpointers]
  · rw [if_neg hclk] at hread
    simp [hread, pops, popped, hclk, h.readPtr, hpointers]

/-! ### The memory -/

/-- A cell that has not been popped yet is not the one that is written next. -/
theorem Tracks.writePtr_ne (h : s.Tracks c) {n : ℕ} (hle : c.readPtr ≤ n) (hlt : n < c.writePtr) :
    s.write.writePtr ≠ BitVec.ofNat W n := by
  obtain ⟨hr21, hr1, hrg, -, -, -, -, -, -, hturn⟩ := h.ordered
  rw [h.writePtr]
  intro heq
  have h := (ofNat_eq_iff (Nat.le_of_lt hlt) (by omega)).mp heq.symm
  omega

/-- The cells that have not been popped yet keep their values. -/
theorem Tracks.mem_step (h : s.Tracks c) (hstep : Step s e s') {n : ℕ} (hle : c.readPtr ≤ n)
    (hlt : n < c.writePtr) :
    s'.write.mem (BitVec.ofNat W n) = s.write.mem (BitVec.ofNat W n) := by
  obtain ⟨readGray, writeGray, data, hwrite, -⟩ := hstep
  rw [hwrite]
  split
  · change s.write.nextMem e.write (BitVec.ofNat W n) = s.write.mem (BitVec.ofNat W n)
    unfold WriteSide.nextMem
    rcases s.write.memWrite e.write with _ | v
    · rfl
    · exact Function.update_of_ne (h.writePtr_ne hle hlt).symm _ _
  · rfl

/-- An accepted value is written behind the last one. -/
theorem Tracks.mem_accepted (h : s.Tracks c) (hstep : Step s e s') {v : D}
    (hv : accepted ⟨s, e, s'⟩ = some v) : s'.write.mem (BitVec.ofNat W c.writePtr) = v := by
  obtain ⟨readGray, writeGray, data, hwrite, -⟩ := hstep
  have hin : (e.writeClk = true ∧ s.write.full = false) ∧ e.write = some v := by
    simpa [accepted] using hv
  obtain ⟨⟨hclk, hfull⟩, hv⟩ := hin
  simp [hwrite, hclk, hv, hfull, WriteSide.edge, WriteSide.nextMem, WriteSide.memWrite,
    ← h.writePtr]

/-- What the memory is read at is not written at the same moment, so the read is the value of the
cell. -/
theorem Tracks.readResult_step (h : s.Tracks c) (hstep : Step s e s') (hrst : e.readRst = false)
    (hclk : e.readClk = true) (hlt : c.readPtr + pops ⟨s, e, s'⟩ < c.writePtr) :
    s'.read.readResult = s.write.mem (BitVec.ofNat W (c.readPtr + pops ⟨s, e, s'⟩)) := by
  have hptr := (h.readPtr_step hstep hrst).1
  obtain ⟨readGray, writeGray, data, -, hread, -, -, hdata⟩ := hstep
  rw [if_pos hclk, hrst] at hread
  have haddr : s.read.readPtrNext e.ack = BitVec.ofNat W (c.readPtr + pops ⟨s, e, s'⟩) := by
    rw [← hptr, hread]
    rfl
  rw [haddr] at hdata
  rw [hread]
  exact hdata fun _ _ => h.writePtr_ne (Nat.le_add_right _ _) hlt

/-! ### Steps -/

theorem pushes_eq_zero (h : e.writeClk = false) : pushes ⟨s, e, s'⟩ = 0 := by
  simp [pushes, accepted, h]

theorem pops_eq_zero (h : e.readClk = false) : pops ⟨s, e, s'⟩ = 0 := by
  simp [pops, popped, h]

/-- The code of the read pointer, before and after a step. -/
theorem Tracks.readGray_step (h : s.Tracks c) (hstep : Step s e s') :
    s'.read.readGray = code W (if e.readClk then c.readPtr else c.readGray) := by
  obtain ⟨readGray, writeGray, data, -, hread, -⟩ := hstep
  rw [hread]
  split
  · rw [code, ← h.readPtr]
    rfl
  · exact h.readGray

theorem Tracks.writeGray_step (h : s.Tracks c) (hstep : Step s e s') :
    s'.write.writeGray = code W (if e.writeClk then c.writePtr else c.writeGray) := by
  obtain ⟨readGray, writeGray, data, hwrite, -⟩ := hstep
  rw [hwrite]
  split
  · rw [code, ← h.writePtr]
    rfl
  · exact h.writeGray

/-- **Pointers.** The edges of an event move the copies of the pointers on. -/
theorem Tracks.step (h : s.Tracks c) (hstep : Step s e s') (hreleased : Released ⟨s, e, s'⟩) :
    ∃ c', s'.Tracks c' ∧ c'.writePtr = c.writePtr + pushes ⟨s, e, s'⟩ ∧
      c'.readPtr = c.readPtr + pops ⟨s, e, s'⟩ := by
  obtain ⟨hwrst, hrrst⟩ := hreleased
  obtain ⟨hwptr, hwturn, hwone⟩ := h.writePtr_step hstep hwrst
  obtain ⟨hrptr, hrlast, hrone⟩ := h.readPtr_step hstep hrrst
  have hresult := h.readResult_step hstep hrrst
  have hmem := fun n => h.mem_step hstep (n := n)
  have hrgray := h.readGray_step hstep
  have hwgray := h.writeGray_step hstep
  obtain ⟨readGray, writeGray, data, hwrite, hread, hreadGray, hwriteGray, -⟩ := hstep
  rw [h.readGray, hrgray] at hreadGray
  rw [h.writeGray, hwgray] at hwriteGray
  obtain ⟨hr21, hr1, hrg, hrg', hrw, hw21, hw1, hwg, hwg', hturn⟩ := h.ordered
  obtain ⟨x, hx, hx', hxcode⟩ := sampled_code (by split <;> omega) (by split <;> omega) hreadGray
  obtain ⟨y, hy, hy', hycode⟩ := sampled_code (by split <;> omega) (by split <;> omega) hwriteGray
  refine ⟨{ readSync2 := if e.writeClk then c.readSync1 else c.readSync2
            readSync1 := if e.writeClk then x else c.readSync1
            readGray := if e.readClk then c.readPtr else c.readGray
            readPtr := c.readPtr + pops ⟨s, e, s'⟩
            writeSync2 := if e.readClk then c.writeSync1 else c.writeSync2
            writeSync1 := if e.readClk then y else c.writeSync1
            writeGray := if e.writeClk then c.writePtr else c.writeGray
            writePtr := c.writePtr + pushes ⟨s, e, s'⟩ },
    ⟨?_, ?_, ?_, hrgray, hrptr, ?_, ?_, hwgray, hwptr, ?_⟩, rfl, rfl⟩
  · have hpushes : e.writeClk = false → pushes ⟨s, e, s'⟩ = 0 := pushes_eq_zero
    have hpops : e.readClk = false → pops ⟨s, e, s'⟩ = 0 := pops_eq_zero
    rcases hwclk : e.writeClk with _ | _ <;> rcases hrclk : e.readClk with _ | _ <;>
      simp only [hwclk, hrclk, if_true, Bool.false_eq_true, if_false, true_imp_iff, reduceCtorEq,
        false_imp_iff] at hpushes hpops hx' hy' <;>
      constructor <;> simp only [if_true, Bool.false_eq_true, if_false] <;> omega
  · rw [hwrite]
    split
    · exact h.readSync1
    · exact h.readSync2
  · rw [hwrite]
    split
    · exact hxcode
    · exact h.readSync1
  · rw [hread]
    split
    · exact h.writeSync1
    · exact h.writeSync2
  · rw [hread]
    split
    · exact hycode
    · exact h.writeSync1
  · intro hlt
    by_cases hrclk : e.readClk = true
    · simp only [hrclk, if_true] at hlt
      rw [hresult hrclk (by omega), hmem _ (Nat.le_add_right _ _) (by omega)]
    · simp only [hrclk, Bool.false_eq_true, if_false] at hlt
      rw [hread, if_neg hrclk]
      rw [pops_eq_zero (by simpa using hrclk)] at hlt ⊢
      rw [Nat.add_zero, hmem _ (Nat.le_refl _) (by omega)]
      exact h.shown hlt

/-! ### The values in the fifo -/

/-- The values of `n` cells of a memory from the one that counter `r` selects. -/
def items (mem : BitVec W → D) (r n : ℕ) : List D :=
  (List.range n).map fun i => mem (BitVec.ofNat W (r + i))

theorem items_succ (mem : BitVec W → D) (r n : ℕ) :
    items mem r (n + 1) = items mem r n ++ [mem (BitVec.ofNat W (r + n))] := by
  simp [items, List.range_succ]

theorem items_cons (mem : BitVec W → D) (r n : ℕ) :
    items mem r (n + 1) = mem (BitVec.ofNat W r) :: items mem (r + 1) n := by
  simp [items, List.range_succ_eq_map, Nat.add_assoc, Nat.add_comm 1]

theorem items_congr {mem mem' : BitVec W → D} {r n : ℕ}
    (h : ∀ i, r ≤ i → i < r + n → mem' (BitVec.ofNat W i) = mem (BitVec.ofNat W i)) :
    items mem' r n = items mem r n := by
  refine List.map_congr_left fun i hi => h (r + i) (Nat.le_add_right r i) ?_
  have hlt := List.mem_range.mp hi
  omega

/-- What has been accepted and not been popped: the cells from the read pointer up to the write
pointer. -/
def outstanding (s : Fifo W D) : List D :=
  (List.range (s.write.writePtr - s.read.readPtr).toNat).map fun i =>
    s.write.mem (s.read.readPtr + BitVec.ofNat W i)

theorem toNat_sub_ofNat {a b : ℕ} (hle : a ≤ b) (hlt : b < a + 2 ^ W) :
    (BitVec.ofNat W b - BitVec.ofNat W a).toNat = b - a := by
  have hsub : BitVec.ofNat W b - BitVec.ofNat W a = BitVec.ofNat W (b - a) := by
    conv_lhs => rw [← Nat.sub_add_cancel hle, BitVec.ofNat_add, BitVec.add_sub_cancel]
  rw [hsub, BitVec.toNat_ofNat, Nat.mod_eq_of_lt (by omega)]

theorem Tracks.outstanding (h : s.Tracks c) :
    s.outstanding = items s.write.mem c.readPtr (c.writePtr - c.readPtr) := by
  obtain ⟨hr21, hr1, hrg, -, hrw, hw21, hw1, hwg, -, hturn⟩ := h.ordered
  rw [Fifo.outstanding, h.writePtr, h.readPtr, toNat_sub_ofNat (by omega) (by omega)]
  refine List.map_congr_left fun i _ => ?_
  rw [BitVec.ofNat_add]

/-- The value that is popped is the oldest one. -/
theorem Tracks.popped_items (h : s.Tracks c) (hstep : Step s e s') (hrst : e.readRst = false) :
    items s.write.mem c.readPtr (c.writePtr - c.readPtr) =
      (popped ⟨s, e, s'⟩).toList ++ items s.write.mem (c.readPtr + pops ⟨s, e, s'⟩)
        (c.writePtr - (c.readPtr + pops ⟨s, e, s'⟩)) := by
  have hlast := (h.readPtr_step hstep hrst).2.1
  obtain ⟨-, -, -, -, hrw, hw21, hw1, hwg, -, -⟩ := h.ordered
  rcases hpopped : popped ⟨s, e, s'⟩ with _ | v
  · simp [pops, hpopped]
  · have hone : pops ⟨s, e, s'⟩ = 1 := by simp [pops, hpopped]
    rw [hone] at hlast ⊢
    have hv : s.read.readResult = v := by
      unfold popped ReadSide.read at hpopped
      split at hpopped
      · split at hpopped
        · exact Option.some.inj hpopped
        · exact absurd hpopped (by simp)
      · exact absurd hpopped (by simp)
    have hsome : c.writePtr - c.readPtr = c.writePtr - (c.readPtr + 1) + 1 := by omega
    rw [hsome, items_cons, ← h.shown (by omega), hv]
    rfl

/-- The value that is accepted becomes the youngest one. -/
theorem Tracks.accepted_items (h : s.Tracks c) (hstep : Step s e s') {r : ℕ}
    (hle : c.readPtr ≤ r) (hlast : r ≤ c.writePtr) :
    items s'.write.mem r (c.writePtr + pushes ⟨s, e, s'⟩ - r) =
      items s.write.mem r (c.writePtr - r) ++ (accepted ⟨s, e, s'⟩).toList := by
  have hkept : items s'.write.mem r (c.writePtr - r) = items s.write.mem r (c.writePtr - r) :=
    items_congr fun i hi hi' => h.mem_step hstep (Nat.le_trans hle hi) (by omega)
  rcases haccepted : accepted ⟨s, e, s'⟩ with _ | v
  · simpa [pushes, haccepted] using hkept
  · have hone : pushes ⟨s, e, s'⟩ = 1 := by simp [pushes, haccepted]
    rw [hone, show c.writePtr + 1 - r = c.writePtr - r + 1 by omega, items_succ, hkept,
      show r + (c.writePtr - r) = c.writePtr by omega, h.mem_accepted hstep haccepted]
    rfl

/-- What one step accepts is outstanding until a step pops it. -/
theorem Tracks.outstanding_step (h : s.Tracks c) (hstep : Step s e s')
    (hreleased : Released ⟨s, e, s'⟩) :
    s.outstanding ++ (accepted ⟨s, e, s'⟩).toList =
      (popped ⟨s, e, s'⟩).toList ++ s'.outstanding := by
  obtain ⟨c', h', hwptr, hrptr⟩ := h.step hstep hreleased
  have hlast := (h.readPtr_step hstep hreleased.2).2.1
  obtain ⟨-, -, -, -, hrw, hw21, hw1, hwg, -, -⟩ := h.ordered
  rw [h.outstanding, h'.outstanding, hwptr, hrptr, h.popped_items hstep hreleased.2,
    h.accepted_items hstep (Nat.le_add_right _ _) (by omega), List.append_assoc]

/-! ### Runs -/

/-- The registers after a joint reset, with a memory that holds the same value everywhere. -/
def idle (W : ℕ) (d : D) : Fifo W D where
  write := { writePtr := 0, writeGray := binToGray 0, readSync := ⟨binToGray 0, binToGray 0⟩,
             mem := fun _ => d }
  read := { readPtr := 0, readGray := binToGray 0, writeSync := ⟨binToGray 0, binToGray 0⟩,
            readResult := d }

theorem idle_jointReset (W : ℕ) (d : D) : (idle W d).JointReset := by
  have hreach : Reaches Step (assertReset (idle W d)) [] (idle W d) := Reaches.start
  exact ⟨idle W d, [], hreach, fun t ht => absurd ht List.not_mem_nil, rfl, ⟨rfl, rfl⟩, rfl,
    ⟨rfl, rfl⟩⟩

end Fifo

end Spade.Stdlib
