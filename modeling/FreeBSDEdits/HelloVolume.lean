import FreeBSDEdits.ByteFile
import FreeBSDEdits.HelloMetadata

namespace FreeBSDEdits

inductive OpenMode
  | rdonly
  | rdwr
  deriving DecidableEq

structure Descriptor where
  mode : OpenMode
  pos : Nat

/-- A trace of what has to stay in bounds: targets of lseek, completed writes with the
place they went to, and indices into `bitmap` that were read from a header. -/
inductive Access
  | seek (offset : Int)
  | store (pos len : Nat)
  | bitmapAt (index : Int)

/-- The backing file `./FILE_FS` with the globals `fd` and `bitmap` of hello.c. The trace
`log` is not part of the program: nothing reads it back. -/
structure World where
  file : ByteFile
  fd : Descriptor
  bitmap : Nat → Int32
  log : List Access

/-- Conversion of an integer to `size_t`. -/
def cSize (x : Int) : Nat := (x % 2 ^ 64).toNat

/-- `b * BLOCK_SIZE` as C computes it, in `int`. -/
def blockOffset (b : Int32) : Int := (b * 4096).toInt

/-- The bytes of `int bitmap[NUM_BLOCKS]` in memory. -/
def bitmapBytes (bitmap : Nat → Int32) (k : Nat) : UInt8 := int32Byte (bitmap (k / 4)) (k % 4)

namespace World

/-- `fd = open(FILENAME, mode)` -/
def openFile (w : World) (mode : OpenMode) : World := { w with fd := ⟨mode, 0⟩ }

/-- `lseek(fd, offset, SEEK_SET)`: a negative offset is refused and the position stays. -/
def lseek (w : World) (offset : Int) : World :=
  { w with
    fd := if offset < 0 then w.fd else { w.fd with pos := offset.toNat }
    log := .seek offset :: w.log }

/-- The position after a read of `n` bytes, which stops at the end of the file. -/
def advance (w : World) (n : Nat) : World :=
  { w with fd := { w.fd with pos := w.fd.pos + min n (w.file.size - w.fd.pos) } }

/-- `read(fd, &md, sizeof(struct metadata))` -/
def readMd (w : World) (md : Metadata) : World × Metadata :=
  (w.advance sizeofMetadata,
    Metadata.ofBytes (w.file.read w.fd.pos sizeofMetadata md.toBytes))

/-- `read(fd, &bitmap, sizeof(bitmap))` -/
def readBitmap (w : World) : World :=
  { w.advance sizeofBitmap with
    bitmap := fun i =>
      if i < numBlocks then int32At (w.file.read w.fd.pos sizeofBitmap (bitmapBytes w.bitmap)) (4 * i)
      else w.bitmap i }

/-- `read(fd, buffer + start, n)` -/
def readBuffer (w : World) (buffer : Int → UInt8) (start : Int) (n : Nat) :
    World × (Int → UInt8) :=
  (w.advance n, fun k =>
    if start ≤ k ∧ k < start + n then
      w.file.read w.fd.pos n (fun j => buffer (start + j)) (k - start).toNat
    else buffer k)

/-- `write(fd, src, n)`: refused without effect when the file was opened O_RDONLY. -/
def write (w : World) (n : Nat) (src : Nat → UInt8) : World :=
  match w.fd.mode with
  | .rdonly => w
  | .rdwr => { w with
      file := w.file.write w.fd.pos n src
      fd := { w.fd with pos := w.fd.pos + n }
      log := .store w.fd.pos n :: w.log }

def writeMd (w : World) (md : Metadata) : World := w.write sizeofMetadata md.toBytes

def writeBitmap (w : World) : World := w.write sizeofBitmap (bitmapBytes w.bitmap)

/-- `bitmap[i] = v`. Outside the array nothing is modelled: no call gets there. -/
def setBitmap (w : World) (i : Int) (v : Int32) : World :=
  { w with
    bitmap := fun j => if (j : Int) = i ∧ j < numBlocks then v else w.bitmap j
    log := .bitmapAt i :: w.log }

end World

inductive Errno
  | enoent
  | eexist
  | enomem
  | enobufs
  | enametoolong
  deriving DecidableEq

deriving instance DecidableEq for Timespec

/-- The members of `struct stat` that hello_getattr sets. -/
structure Stat where
  stMode : Nat
  stNlink : Nat
  stSize : Int
  stBirthtim : Timespec
  stAtim : Timespec
  stMtim : Timespec
  deriving DecidableEq

/-- What a call hands back: a negative errno, 0, a filled stat buffer, the names given to
the filler, or a byte count (with the bytes copied to the caller's buffer). -/
inductive Reply
  | err (e : Errno)
  | ok
  | attr (st : Stat)
  | entries (names : List CString)
  | data (ret : Int32) (bytes : List UInt8)
  | written (ret : Int32)
  deriving DecidableEq

/-- What a call finds on its stack and reads from the clock: the uninitialised `md` and
`buffer`, and the results of successive `clock_gettime` calls. -/
structure Env where
  md : Metadata
  buffer : Int → UInt8
  now : Nat → Timespec

/-- A path `/name` as FUSE passes it. -/
structure Path where
  file : CString
  nonempty : file ≠ []
  nulFree : 0 ∉ file

def rootPath : CString := [47]

def Path.chars (p : Path) : CString := 47 :: p.file

/-- A path that may be the root directory. -/
def dirChars : Option Path → CString
  | none => rootPath
  | some p => p.chars

theorem Path.chars_inj {p q : Path} (h : p.chars = q.chars) : p = q := by
  cases p
  cases q
  simpa [Path.chars] using h

theorem Path.nul_not_mem (p : Path) : 0 ∉ p.chars := by
  simp [Path.chars, p.nulFree]

theorem Path.chars_ne_nil (p : Path) : p.chars ≠ [] := by simp [Path.chars]

theorem Path.chars_ne_root (p : Path) : p.chars ≠ rootPath := by
  simp [Path.chars, rootPath, p.nonempty]

end FreeBSDEdits
