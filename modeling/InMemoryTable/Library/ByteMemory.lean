import Mathlib.Data.Nat.Digits.Defs

/-! A memory of bytes: reading and writing stretches of it, the little-endian
words in them, and what a sequence of writes leaves alone. -/

/-- The lowest `width` bytes of a number, the lowest first. -/
def LittleEndian.encode : Nat → Nat → List UInt8
  | 0, _ => []
  | width + 1, value => UInt8.ofNat value :: encode width (value / 256)

def LittleEndian.decode (bytes : List UInt8) : Nat := Nat.ofDigits 256 (bytes.map UInt8.toNat)

namespace LittleEndian

@[simp] theorem length_encode (width value : Nat) : (encode width value).length = width := by
  induction width generalizing value with
  | zero => rfl
  | succ width ih => simp only [encode, List.length_cons, ih]

theorem decode_cons (byte : UInt8) (rest : List UInt8) :
    decode (byte :: rest) = byte.toNat + 256 * decode rest := by
  simp only [decode, List.map_cons, Nat.ofDigits_cons]

/-- What does not fit into the bytes is cut off. -/
theorem decode_encode (width value : Nat) : decode (encode width value) = value % 256 ^ width := by
  induction width generalizing value with
  | zero => simp [encode, decode, Nat.mod_one]
  | succ width ih =>
    rw [encode, decode_cons, ih, Nat.pow_succ', Nat.mod_mul, UInt8.toNat_ofNat']

theorem decode_lt (bytes : List UInt8) : decode bytes < 256 ^ bytes.length := by
  have digits : ∀ digit ∈ bytes.map UInt8.toNat, digit < 256 := by
    intro digit member
    obtain ⟨byte, -, rfl⟩ := List.mem_map.mp member
    exact byte.toNat_lt
  simpa [decode] using Nat.ofDigits_lt_base_pow_length (by decide) digits

theorem decode_replicate_zero (width : Nat) : decode (List.replicate width 0) = 0 := by
  induction width with
  | zero => rfl
  | succ width ih => rw [List.replicate_succ, decode_cons, ih, UInt8.toNat_zero]

end LittleEndian

/-- A byte at each address. -/
abbrev ByteMemory := Nat → UInt8

namespace ByteMemory
variable (memory : ByteMemory) (address length width value : Nat) (bytes : List UInt8)

def read : List UInt8 := (List.range' address length).map memory

def write : ByteMemory := fun a =>
  if inside : address ≤ a ∧ a - address < bytes.length then bytes[a - address] else memory a

/-- The word of `width` bytes at an address. -/
def readWord : Nat := LittleEndian.decode (memory.read address width)

def writeWord : ByteMemory := memory.write address (LittleEndian.encode width value)

variable {memory address length width value bytes} {other low high : Nat}
  {before after : ByteMemory}

@[simp] theorem length_read : (memory.read address length).length = length := by
  simp [read]

theorem getElem_read {i : Nat} (inside : i < (memory.read address length).length) :
    (memory.read address length)[i] = memory (address + i) := by
  simp [read]

theorem write_outside (outside : other < address ∨ address + bytes.length ≤ other) :
    memory.write address bytes other = memory other := by
  have notInside : ¬ (address ≤ other ∧ other - address < bytes.length) := by omega
  exact dif_neg notInside

theorem write_inside {i : Nat} (inside : i < bytes.length) :
    memory.write address bytes (address + i) = bytes[i] := by
  have within : address ≤ address + i ∧ address + i - address < bytes.length := by omega
  exact (dif_pos within).trans (by simp only [Nat.add_sub_cancel_left])

/-- Reading a stretch that starts with what was just written. -/
theorem read_write (fits : bytes.length ≤ length) :
    (memory.write address bytes).read address length =
      bytes ++ (memory.read address length).drop bytes.length := by
  apply List.ext_getElem
  · simp [fits]
  · intro i _ _
    rw [getElem_read, List.getElem_append]
    split
    · rename_i inside
      exact write_inside inside
    · rename_i outside
      rw [write_outside (by omega), List.getElem_drop, getElem_read]
      congr 1
      omega

theorem read_write_self : (memory.write address bytes).read address bytes.length = bytes := by
  rw [read_write (Nat.le_refl _), List.drop_of_length_le (by simp), List.append_nil]

theorem read_congr (same : ∀ i < length, after (address + i) = before (address + i)) :
    after.read address length = before.read address length := by
  apply List.ext_getElem
  · simp
  · intro i inside _
    rw [getElem_read, getElem_read]
    exact same i (by simpa using inside)

theorem take_read (shorter : width ≤ length) :
    (memory.read address length).take width = memory.read address width := by
  apply List.ext_getElem
  · simp [shorter]
  · intro i _ _
    rw [List.getElem_take, getElem_read, getElem_read]

theorem readWord_lt : memory.readWord address width < 256 ^ width := by
  simpa [readWord] using LittleEndian.decode_lt (memory.read address width)

theorem readWord_writeWord :
    (memory.writeWord address width value).readWord address width = value % 256 ^ width := by
  have written : (memory.write address (LittleEndian.encode width value)).read address
      (LittleEndian.encode width value).length = LittleEndian.encode width value :=
    read_write_self
  rw [LittleEndian.length_encode] at written
  rw [readWord, writeWord, written, LittleEndian.decode_encode]

/-- A word all of whose bytes are zero. -/
theorem readWord_zero (zero : ∀ i < width, memory (address + i) = 0) :
    memory.readWord address width = 0 := by
  have bytes : memory.read address width = List.replicate width 0 := by
    apply List.ext_getElem
    · simp
    · intro i inside _
      rw [getElem_read, List.getElem_replicate]
      exact zero i (by simpa using inside)
  rw [readWord, bytes]
  exact LittleEndian.decode_replicate_zero width

/-! ### Frames -/

/-- No byte outside the addresses from `low` up to `high` has changed. -/
def Frame (low high : Nat) (before after : ByteMemory) : Prop :=
  ∀ a, a < low ∨ high ≤ a → after a = before a

namespace Frame

theorem refl (low high : Nat) (memory : ByteMemory) : Frame low high memory memory :=
  fun _ _ => rfl

theorem trans {between : ByteMemory} (first : Frame low high before between)
    (second : Frame low high between after) : Frame low high before after :=
  fun a outside => (second a outside).trans (first a outside)

theorem mono {wideLow wideHigh : Nat} (changed : Frame low high before after)
    (from_low : wideLow ≤ low) (to_high : high ≤ wideHigh) : Frame wideLow wideHigh before after :=
  fun a outside => changed a (by omega)

theorem write (starts : low ≤ address) (ends : address + bytes.length ≤ high) :
    Frame low high memory (memory.write address bytes) :=
  fun a outside => write_outside (by omega)

theorem writeWord (starts : low ≤ address) (ends : address + width ≤ high) :
    Frame low high memory (memory.writeWord address width value) :=
  write starts (by simpa using ends)

theorem read (changed : Frame low high before after)
    (apart : address + length ≤ low ∨ high ≤ address) :
    after.read address length = before.read address length :=
  read_congr fun i inside => changed _ (by omega)

theorem readWord (changed : Frame low high before after)
    (apart : address + width ≤ low ∨ high ≤ address) :
    after.readWord address width = before.readWord address width :=
  congrArg LittleEndian.decode (changed.read apart)

end Frame
end ByteMemory
