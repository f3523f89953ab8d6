import Mathlib.Data.Nat.Basic

/-- A regular file as lseek, read and write see it. -/
@[ext]
structure ByteFile where
  size : Nat
  byte : Nat → UInt8

namespace ByteFile

def empty : ByteFile := ⟨0, fun _ => 0⟩

/-- `ftruncate`: a longer file is padded with zero bytes. -/
def resize (f : ByteFile) (n : Nat) : ByteFile :=
  ⟨n, fun k => if k < f.size ∧ k < n then f.byte k else 0⟩

/-- A read of `n` bytes at `pos` into `dst`; a short read leaves the rest of `dst` alone. -/
def read (f : ByteFile) (pos n : Nat) (dst : Nat → UInt8) : Nat → UInt8 :=
  fun k => if k < n ∧ pos + k < f.size then f.byte (pos + k) else dst k

/-- A complete write of `n` bytes of `src` at `pos`; writing past the end extends the file. -/
def write (f : ByteFile) (pos n : Nat) (src : Nat → UInt8) : ByteFile where
  size := if n = 0 then f.size else max f.size (pos + n)
  byte := fun k => if pos ≤ k ∧ k < pos + n then src (k - pos) else f.byte k

theorem read_inside {f : ByteFile} {pos n k : Nat} {dst : Nat → UInt8}
    (hk : k < n) (hs : pos + n ≤ f.size) : f.read pos n dst k = f.byte (pos + k) := by
  simp only [read, hk, true_and]
  exact if_pos (by omega)

theorem write_size {f : ByteFile} {pos n : Nat} {src : Nat → UInt8}
    (hs : pos + n ≤ f.size) : (f.write pos n src).size = f.size := by
  simp only [write]
  split <;> omega

theorem write_inside {f : ByteFile} {pos n k : Nat} {src : Nat → UInt8} (hk : k < n) :
    (f.write pos n src).byte (pos + k) = src k := by
  have hb : pos ≤ pos + k ∧ pos + k < pos + n := by omega
  simp only [write, if_pos hb]
  congr 1
  omega

theorem write_outside {f : ByteFile} {pos n k : Nat} {src : Nat → UInt8}
    (hk : k < pos ∨ pos + n ≤ k) : (f.write pos n src).byte k = f.byte k := by
  have hb : ¬(pos ≤ k ∧ k < pos + n) := by omega
  simp only [write, if_neg hb]

end ByteFile
