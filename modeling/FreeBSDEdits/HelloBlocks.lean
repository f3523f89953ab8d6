import FreeBSDEdits.HelloCalls
import FreeBSDEdits.LinkedChain
import Mathlib.Logic.Function.Basic

namespace FreeBSDEdits

/-- The file system one level up: the bitmap in memory and on disk, and the header and the
data area of each block. Cells outside the volume hold zeros. -/
@[ext]
structure Blocks where
  mem : Nat → Int32
  bit : Nat → Int32
  hdr : Nat → Metadata
  dat : Nat → Nat → UInt8

/-- A bitmap with the blocks of `l` set to `v`. -/
def mark (marks : Nat → Int32) (l : List Nat) (v : Int32) : Nat → Int32 :=
  fun i => if i ∈ l then v else marks i

def freeBlocks (marks : Nat → Int32) : List Nat := blockRange.filter (fun i => marks i = 0)

/-- The staging buffer after the blocks of a chain were copied in from position `pos` on. -/
def stageBlocks (dat : Nat → Nat → UInt8) : List Nat → Nat → (Int → UInt8) → Int → UInt8
  | [], _, buffer => buffer
  | b :: bs, pos, buffer =>
    stageBlocks dat bs (pos + usableSpace)
      (fun k => if pos ≤ k ∧ k < pos + usableSpace then dat b (k - pos).toNat else buffer k)

/-- Each block of a list becomes the successor of the one before it; `md` is the header that
`current` has so far, and the blocks that get a successor lose their old header. -/
def linkBlocks : (Nat → Metadata) → Metadata → Nat → List Nat → Nat → Metadata
  | hdr, _, _, [] => hdr
  | hdr, md, current, b :: bs =>
    linkBlocks (Function.update hdr current { md with next := .ofNat b }) .zero b bs

/-- The first `size` bytes of the staging buffer from `pos` on, spread over a list of blocks. -/
def spreadBlocks (buffer : Int → UInt8) :
    List Nat → Nat → Nat → (Nat → Nat → UInt8) → Nat → Nat → UInt8
  | [], _, _, dat => dat
  | b :: bs, pos, size, dat =>
    spreadBlocks buffer bs (pos + usableSpace) (size - usableSpace)
      (Function.update dat b
        (fun k => if k < size ∧ k < usableSpace then buffer (pos + k) else dat b k))

/-- How many blocks a file of `size` bytes takes: an empty one has a block as well. -/
def blocksFor (size : Nat) : Nat := (size - 1) / usableSpace + 1

/-- `new_file_size`, as the `size_t` loop sees it. -/
def newSize (size : UInt64) (offset : Int64) : Int32 := .ofInt (offset.toInt + size.toNat)

def loopSize (x : Int32) : Nat := (x.toInt % 2 ^ 32).toNat

/-- The in-memory bitmap after a growing truncate, which has to pass `more` further blocks,
and whether it found all the blocks it wanted. -/
def growMarks (next : Nat → Option Nat) : Nat → (Nat → Int32) → Nat → (Nat → Int32) × Bool
  | 0, mem, _ => (mem, true)
  | more + 1, mem, current =>
    match next current with
    | some b => growMarks next more mem b
    | none =>
      match firstFree mem with
      | none => (mem, false)
      | some i => growMarks next more (mark mem [i] 1) i

namespace Blocks

variable (s : Blocks)

def next (b : Nat) : Option Nat :=
  if (s.hdr b).next = 0 then none else some (s.hdr b).next.toInt.toNat

/-- The block a lookup by path finds with a given bitmap. -/
def lookup (marks : Nat → Int32) (path : CString) : Option Nat :=
  blockRange.find? (fun i => marks i = 1 ∧ (s.hdr i).name = path)

def chain (b : Nat) : Option (List Nat) := LinkedChain.follow s.next numBlocks b

/-- The header left in `md` by a lookup that found nothing. -/
def lastRead (marks : Nat → Int32) (md : Metadata) : Metadata :=
  ((blockRange.filter (fun i => marks i = 1)).getLast?.map s.hdr).getD md

def getattr (path : CString) : Blocks × Reply :=
  let s := { s with mem := s.bit }
  if path = rootPath then (s, .attr rootStat)
  else match s.lookup s.bit path with
    | some b => (s, .attr (fileStat (s.hdr b)))
    | none => (s, .err .enoent)

def names : List CString :=
  (blockRange.filter (fun i => s.mem i = 1 ∧ (s.hdr i).name ≠ [])).map
    (fun i => (s.hdr i).name.drop 1)

def readdir (path : CString) : Blocks × Reply :=
  if path ≠ rootPath then (s, .err .enoent)
  else (s, .entries ([46] :: [46, 46] :: s.names))

def openFile (path : CString) : Blocks × Reply :=
  match s.lookup s.mem path with
  | some _ => (s, .ok)
  | none => (s, .err .enoent)

def read (env : Env) (path : CString) (size : UInt64) (offset : Int64) : Option (Blocks × Reply) :=
  match s.lookup s.mem path with
  | none => some (s, .err .enoent)
  | some b => (s.chain b).map fun l =>
    let n := readSize (s.hdr b).fileSize size offset
    ({ s with hdr := Function.update s.hdr b { s.hdr b with accessTime := env.now 0 } },
      .data (.ofNat n) (copyOut (stageBlocks s.dat l 0 env.buffer) offset.toInt n))

/-- The header hello_write stores for the head of the file before it looks for blocks. -/
def writeHead (env : Env) (b : Nat) (newFileSize : Int32) : Metadata :=
  { s.hdr b with fileSize := newFileSize, accessTime := env.now 0, modifyTime := env.now 1 }

/-- How many blocks a write to a chain `l` lacks. -/
def lacking (l : List Nat) (newFileSize : Int32) : Nat :=
  blocksFor (loopSize newFileSize) - l.length

/-- The blocks a write to a chain `l` takes: as many as there are, if there are too few. -/
def taken (l : List Nat) (newFileSize : Int32) : List Nat :=
  (freeBlocks s.mem).take (lacking l newFileSize)

/-- The volume once a write has linked the blocks it takes and filled the blocks `filled`. -/
def written (env : Env) (b : Nat) (l : List Nat) (newFileSize : Int32) (buffer : Int → UInt8)
    (filled : List Nat) : Blocks where
  mem := mark s.mem (s.taken l newFileSize) 1
  bit := s.bit
  hdr :=
    let hdr := Function.update s.hdr b (s.writeHead env b newFileSize)
    linkBlocks hdr (hdr (l.getLastD b)) (l.getLastD b) (s.taken l newFileSize)
  dat := spreadBlocks buffer filled 0 (loopSize newFileSize) s.dat

def write (env : Env) (path : CString) (buf : Nat → UInt8) (size : UInt64) (offset : Int64) :
    Option (Blocks × Reply) :=
  match s.lookup s.mem path with
  | none => some (s, .err .enoent)
  | some b => (s.chain b).map fun l =>
    let newFileSize := newSize size offset
    if newFileSize.toInt > maxRequestSize then (s, .err .enobufs)
    else
      let buffer := copyIn (stageBlocks s.dat l 0 env.buffer) offset.toInt size.toNat buf
      let all := l ++ s.taken l newFileSize
      if lacking l newFileSize ≤ (freeBlocks s.mem).length then
        let s := s.written env b l newFileSize buffer all
        ({ s with bit := s.mem }, .written (.ofNat size.toNat))
      else (s.written env b l newFileSize buffer all.dropLast, .err .enomem)

/-- The block number hello_truncate reads in the header of `b`; in block 0 it reads one of
the words of the bitmap. -/
def rawNext (b : Nat) : Nat :=
  if b = 0 then (s.bit 17).toInt.toNat else (s.hdr b).next.toInt.toNat

def truncate (path : CString) (size : Int64) : Option (Blocks × Reply) :=
  match s.lookup s.mem path with
  | none => some (s, .err .enoent)
  | some b =>
    let fileSize := (s.hdr b).fileSize.toInt
    if size.toInt < fileSize then
      let first := s.rawNext^[blocksFor (cSize size.toInt)] b
      if first = 0 then some (s, .ok)
      else (s.chain first).map fun l => ({ s with mem := mark s.mem l 0 }, .ok)
    else if size.toInt > fileSize then
      match growMarks s.next (blocksFor (cSize size.toInt) - 1) s.mem b with
      | (mem, true) => some ({ s with mem := mem }, .ok)
      | (mem, false) => some ({ s with mem := mem }, .err .enomem)
    else some (s, .ok)

def unlink (path : CString) : Option (Blocks × Reply) :=
  match s.lookup s.bit path with
  | none => some ({ s with mem := s.bit }, .err .enoent)
  | some b => (s.chain b).map fun l =>
    ({ s with mem := mark s.bit l 0, bit := mark s.bit l 0 }, .ok)

/-- The header hello_create stores, on top of what the lookup left in `md`. -/
def createHead (env : Env) (path : CString) : Metadata :=
  { (s.lastRead s.bit env.md).strcpyFilename path with
    fileSize := 0, createTime := env.now 0, modifyTime := env.now 1, next := 0 }

def create (env : Env) (path : CString) : Blocks × Reply :=
  match s.lookup s.bit path with
  | some _ => ({ s with mem := s.bit }, .err .eexist)
  | none =>
    match firstFree s.bit with
    | none => ({ s with mem := s.bit }, .err .enomem)
    | some i =>
      let t := { s with mem := mark s.bit [i] 1, bit := mark s.bit [i] 1 }
      if path.length ≥ maxFilenameLength then (t, .err .enametoolong)
      else ({ t with hdr := Function.update s.hdr i (s.createHead env path) }, .ok)

/-- One call on the block level. -/
def call (s : Blocks) : Env × Call → Option (Blocks × Reply)
  | (_, .getattr path) => some (s.getattr (dirChars path))
  | (_, .readdir path) => some (s.readdir (dirChars path))
  | (_, .open path) => some (s.openFile path.chars)
  | (env, .read path size offset) => s.read env path.chars size offset
  | (env, .write path buf size offset) => s.write env path.chars buf size offset
  | (_, .truncate path size) => s.truncate path.chars size
  | (_, .unlink path) => s.unlink path.chars
  | (env, .create path) => some (s.create env path.chars)

/-- A freshly formatted volume. -/
def fresh : Blocks where
  mem i := if i = 0 then 1 else 0
  bit i := if i = 0 then 1 else 0
  hdr _ := .zero
  dat _ _ := 0

/-- What the calls rely on to address blocks and bitmap words. -/
structure InRange : Prop where
  next : ∀ b, 0 ≤ (s.hdr b).next.toInt ∧ (s.hdr b).next.toInt < numBlocks
  mem : ∀ i, s.mem i = 0 ∨ s.mem i = 1
  bit : ∀ i, s.bit i = 0 ∨ s.bit i = 1

end Blocks

end FreeBSDEdits
